import NUClear.Scheduler.Queue.Producers

/-!
# `MPSCQueue`

The queue with one consumer.  `head_block` and the `read` of a block are plain fields, which only
the consumer touches: it reads the first slot that is not read, waits until its producer has
committed it, and goes on to the next block when it has found its own read up to what `write`
counts.

## What goes wrong

`try_dequeue` loads `write` and, when it finds nothing in the block, loads `next` after that.
Between the two the producers may fill the block and link the next: then the consumer leaves a block
of which it has read nothing, and all items of it are lost.  The source checks `write_observed` only
when there is no next block.

`Ok` is the condition that excludes this: no block is linked behind `head` while the consumer is
between these two loads, unless all slots of that block are read already.  It speaks of the step
that links, of the state before it, and of where the consumer is.

## The proof

* `Dequeue.Valid`: what the consumer knows at each of its accesses.
* `dequeueStep_of_advance`: what one of its accesses does to the memory and to the history
  (`DequeueStep`), in any state whose memory is that of the history (`Board`).
* `MatchesHistory`: the invariant, for the memory, the producers and the consumer together.
* `matchesHistory_of_reaches`: it holds in every run that meets the condition, by the rule for the
  runs of a queue (`Consumer.invariant`).
-/

namespace NUClear
namespace Scheduler
namespace Queue
namespace MPSCQueue

open Foundation

variable {α : Type}

/-- Where a `try_dequeue` is: the access that it makes next, with what it has loaded. -/
inductive Dequeue where
  | loadWrite
  | loadCommitted (block index : ℕ)
  | loadNext (writeObserved : ℕ)
  /-- `retire_block`. -/
  | loadGraveyard (block : ℕ)
  | exchangeGraveyard (block : ℕ) (dead : Option ℕ)
  deriving DecidableEq, Repr

/-- The next access of `try_dequeue`, and the code up to the one after it.  `head` and `read` are
not atomics: they are the consumer's. -/
def Dequeue.advance (m : Memory α) (c : Dequeue) (spurious : Bool) :
    Option (Outcome (Memory α) Dequeue (QueueEvent (Item α))) :=
  match c with
  | .loadWrite =>
      let writeObserved := (m.block m.head).write
      let published := min writeObserved blockSize
      if (m.block m.head).read < published then
        some ⟨m, some (.loadCommitted m.head (m.block m.head).read), []⟩
      else some ⟨m, some (.loadNext writeObserved), []⟩
  | .loadCommitted b i =>
      if ((m.block b).slots i).committed then
        ((m.block b).slots i).storage.map fun x =>
          ⟨(m.setSlot b i ⟨none, true⟩).addRead b, none,
            [.claimed (place b i), .dequeued x]⟩
      else some ⟨m, some (.loadCommitted b i), []⟩
  | .loadNext writeObserved =>
      match (m.block m.head).next with
      | none =>
          if blockSize < writeObserved then some ⟨m, some .loadWrite, []⟩
            else some ⟨m, none, [.empty]⟩
      | some next => some ⟨{ m with head := next }, some (.loadGraveyard m.head), []⟩
  | .loadGraveyard b =>
      some ⟨m.setGraveyardNext b m.graveyard,
        some (.exchangeGraveyard b m.graveyard), []⟩
  | .exchangeGraveyard b dead =>
      if m.graveyard = dead ∧ spurious = false then
        some ⟨{ m with graveyard := some b }, some .loadWrite, []⟩
      else
        some ⟨m.setGraveyardNext b m.graveyard,
          some (.exchangeGraveyard b m.graveyard), []⟩

/-- One consumer: no second `try_dequeue` is called before the first has returned. -/
def consumer (α : Type) : Consumer α Dequeue := ⟨.loadWrite, true, Dequeue.advance⟩

/-! ## What the consumer knows -/

open QueueHistory

variable {m m' : Memory α} {tr es : List (QueueEvent (Item α))} {x y : Item α}
  {b b' i j n : ℕ} {c : Dequeue}
  {z : Bool}

/-- What a `try_dequeue` knows.  When it has found the slots of its block read, the next block is
linked only if that was all of them. -/
def Dequeue.Valid (m : Memory α) : Dequeue → Prop
  | loadWrite => True
  | loadCommitted b i => b = m.head ∧ i = (m.block b).read ∧ i < min (m.block b).write blockSize
  | loadNext w => min w blockSize ≤ (m.block m.head).read ∧
      ((m.block m.head).next ≠ none → (m.block m.head).read = blockSize)
  | loadGraveyard _ | exchangeGraveyard .. => True

/-- The consumer is between its load of `write` and its load of `next`. -/
def awaitsNext : Op α Dequeue → Bool
  | .dequeue (.loadNext _) => true
  | _ => false

/-- **The condition**: no block is linked behind `head` while the consumer is between its load of
`write`, when that has not found the block full, and its load of `next`. -/
def Ok (s : State α Dequeue) : Op α Dequeue → Bool → Prop
  | .enqueue (.linkNext _ b), _ => s.ops.any awaitsNext = true → s.mem.head = b →
      (s.mem.block b).next = none → (s.mem.block b).read = blockSize
  | .enqueue _, _ | .dequeue _, _ => True

instance (s : State α Dequeue) : (o : Op α Dequeue) → (z : Bool) → Decidable (Ok s o z)
  | .enqueue (.linkNext _ b), _ =>
    inferInstanceAs (Decidable (s.ops.any awaitsNext = true → s.mem.head = b →
      (s.mem.block b).next = none → (s.mem.block b).read = blockSize))
  | .enqueue (.loadTail _), _ | .enqueue (.addWrite ..), _ | .enqueue (.storeCommitted ..), _
  | .enqueue (.loadNext ..), _ | .enqueue (.reloadTail ..), _ | .enqueue (.exchangeTail ..), _
  | .dequeue _, _ => .isTrue trivial

/-- What an access of the consumer does: the memory stays that of the history, the counters only
grow, no item gets a place and none is enqueued, and the consumer knows at its next access what it
has to know there. -/
structure DequeueStep (m : Memory α) (tr : List (QueueEvent (Item α)))
    (r : Outcome (Memory α) Dequeue (QueueEvent (Item α))) : Prop where
  board : Board r.mem (r.emitted.reverse ++ tr)
  grows : Grows m r.mem
  next : ∀ c' ∈ r.next, c'.Valid r.mem
  untouched : ∀ x, Untouched r.emitted.reverse x ∧ .called x ∉ r.emitted.reverse
  settled : ∀ n < claims (r.emitted.reverse ++ tr), n < claims tr ∨
    ∃ x, .placed x n ∈ tr ∧ .dequeued x ∈ r.emitted.reverse

theorem DequeueStep.of_board (hb' : Board m' tr) (hg : Grows m m') {c' : Option Dequeue}
    (hc' : ∀ d ∈ c', d.Valid m') : DequeueStep m tr ⟨m', c', []⟩ where
  board := hb'
  grows := hg
  next := hc'
  untouched x := by simp [Untouched]
  settled _ hn := .inl hn

/-- The first slot that is not read is taken. -/
theorem addRead_setSlot (m : Memory α) (b i : ℕ) (s : Slot α) :
    (m.setSlot b i s).addRead b = (m.addRead b).setSlot b i s := by
  simp only [Memory.setSlot, Memory.addRead, Memory.modify, Function.update_self,
    Function.update_idem]

/-- The first slot that is not read is taken: its item is claimed and dequeued in one step, and the
consumer returns. -/
theorem DequeueStep.take (hb : Board m tr)
    (hlt : (m.block m.head).read < min (m.block m.head).write blockSize)
    (hcommitted : ((m.block m.head).slots (m.block m.head).read).committed = true)
    (hstorage : ((m.block m.head).slots (m.block m.head).read).storage = some x) :
    DequeueStep m tr ⟨(m.setSlot m.head (m.block m.head).read ⟨none, true⟩).addRead m.head, none,
      [.claimed (place m.head (m.block m.head).read), .dequeued x]⟩ := by
  have hi : (m.block m.head).read < blockSize := by omega
  have hclaims : place m.head (m.block m.head).read = claims tr := hb.claims.symm
  obtain ⟨y, hy, hnew, hstored⟩ := hb.exists_unread hlt
  obtain rfl : y = x := Option.some.inj (hstored.symm.trans hstorage)
  rw [← hclaims] at hy
  have henqueued := (hb.holds.committed y _ _ hi hy hnew).mp hcommitted
  have hclaimed : place m.head (m.block m.head).read <
    claims (.claimed (place m.head (m.block m.head).read) :: tr) := by
    rw [hclaims]
    exact Nat.lt_succ_self _
  have hboard := (hb.claimed hlt).dequeued (List.mem_cons_of_mem _ hy) hi hclaimed
    (List.mem_cons_of_mem _ henqueued) (fun hd => hnew ((List.mem_cons.mp hd).resolve_left nofun))
      ⟨none, true⟩
  rw [addRead_setSlot]
  refine ⟨hboard, ⟨Nat.le_refl _, Nat.le_refl _, fun b' _ => ?_, fun b' _ => ?_⟩,
    nofun, fun x => ?_,
    fun n hn => ?_⟩
  · rw [Memory.setSlot_write, Memory.addRead_write]
  · rw [Memory.setSlot_read, Memory.addRead_read]
    exact Nat.le_add_right _ _
  · simp [Untouched]
  · replace hn : n < claims tr + 1 := hn
    obtain hlt | rfl := Nat.lt_succ_iff_lt_or_eq.mp hn
    · exact .inl hlt
    · exact .inr ⟨y, hclaims ▸ hy, by simp⟩

/-- **One access of `try_dequeue`**, whatever the producers have done since the one before. -/
theorem dequeueStep_of_advance (hb : Board m tr) (hv : c.Valid m)
    {r : Outcome (Memory α) Dequeue (QueueEvent (Item α))} (hr : c.advance m z = some r) :
    DequeueStep m tr r := by
  cases c with
  | loadWrite =>
    simp only [Dequeue.advance] at hr
    split_ifs at hr with hlt <;> obtain rfl := Option.some.inj hr
    · refine .of_board hb .refl fun d hd => ?_
      obtain rfl := Option.some.inj hd
      exact ⟨rfl, rfl, hlt⟩
    · refine .of_board hb .refl fun d hd => ?_
      obtain rfl := Option.some.inj hd
      refine ⟨Nat.not_lt.mp hlt, fun hnext => ?_⟩
      have hmore : m.head + 1 < m.made := by
        have hne := mt (hb.wf.next_eq_none_iff hb.wf.head_lt).mpr hnext
        have hlt := hb.wf.head_lt
        omega
      have hfull := hb.wf.full m.head hmore
      have hle := hb.wf.read_le m.head hb.wf.head_lt
      omega
  | loadCommitted b i =>
    obtain ⟨rfl, rfl, hlt⟩ := hv
    simp only [Dequeue.advance] at hr
    split_ifs at hr with hcommitted
    · obtain ⟨x, hstorage, rfl⟩ := Option.map_eq_some_iff.mp hr
      exact .take hb hlt hcommitted hstorage
    · obtain rfl := Option.some.inj hr
      refine .of_board hb .refl fun d hd => ?_
      obtain rfl := Option.some.inj hd
      exact ⟨rfl, rfl, hlt⟩
  | loadNext w =>
    simp only [Dequeue.advance] at hr
    split at hr
    · split_ifs at hr <;> obtain rfl := Option.some.inj hr
      · refine .of_board hb .refl fun d hd => ?_
        obtain rfl := Option.some.inj hd
        trivial
      · exact ⟨hb.empty, .refl, nofun, fun x => by simp [Untouched], fun n hn => .inl hn⟩
    · next n hnext =>
      obtain rfl := Option.some.inj hr
      obtain ⟨rfl, hlt⟩ := hb.wf.eq_succ_of_next hb.wf.head_lt hnext
      have hread := hv.2 (by rw [hnext]; nofun)
      refine .of_board (m := m) (hb.moveHead hread hlt)
        ⟨Nat.le_refl _, Nat.le_succ _, fun _ _ => Nat.le_refl _, fun _ _ => Nat.le_refl _⟩
          fun d hd => ?_
      obtain rfl := Option.some.inj hd
      trivial
  | loadGraveyard b =>
    obtain rfl := Option.some.inj hr
    refine .of_board (hb.setGraveyardNext _) (.of_same (.setGraveyardNext _)) fun d hd => ?_
    obtain rfl := Option.some.inj hd
    trivial
  | exchangeGraveyard b dead =>
    simp only [Dequeue.advance] at hr
    split_ifs at hr <;> obtain rfl := Option.some.inj hr
    · refine .of_board (m := m) (hb.setGraveyard (some b))
        ⟨Nat.le_refl _, Nat.le_refl _, fun _ _ => Nat.le_refl _, fun _ _ => Nat.le_refl _⟩
          fun d hd => ?_
      obtain rfl := Option.some.inj hd
      trivial
    · refine .of_board (hb.setGraveyardNext _) (.of_same (.setGraveyardNext _)) fun d hd => ?_
      obtain rfl := Option.some.inj hd
      trivial

/-! ## The runs -/

/-- The invariant of the queue: the memory is that of the history, the producers and the consumer
know what they have to know, and there is one consumer at most. -/
structure MatchesHistory (s : State α Dequeue) : Prop where
  board : Board s.mem s.trace
  producing : Producing s.mem s.ops s.trace
  valid : ∀ c, .dequeue c ∈ s.ops → c.Valid s.mem
  unique : Unique Op.consumer s.ops
  settled : ∀ n < claims s.trace, ∃ x, .placed x n ∈ s.trace ∧ .dequeued x ∈ s.trace

namespace MatchesHistory

variable {s s' : State α Dequeue} {ops pre post : List (Op α Dequeue)}

theorem start : MatchesHistory (Queue.start : State α Dequeue) where
  board := .make
  producing := .start
  valid _ hc := absurd hc List.not_mem_nil
  unique := List.nodup_nil
  settled _ hn := absurd hn (Nat.not_lt_zero _)

theorem enqueue (h : MatchesHistory ⟨m, ops, tr⟩) {p : ℕ} {v : α}
    (hidle : ∀ e, .enqueue e ∈ ops → e.item.producer ≠ p) :
    MatchesHistory ⟨{ m with tickets := m.tickets + 1 },
      .enqueue (.loadTail ⟨m.tickets, p, v⟩) :: ops,
      .called ⟨m.tickets, p, v⟩ :: tr⟩ := by
  have hnew : .called ⟨m.tickets, p, v⟩ ∉ tr := fun hx => Nat.lt_irrefl _ (h.board.tickets _ hx)
  refine ⟨h.board.called fun y hy hp => h.producing.placed_of_called h.board hidle hy hp,
    h.producing.called hidle hnew h.board, fun c hc => ?_, h.unique, fun n hn => ?_⟩
  · cases c with
    | loadWrite | loadGraveyard b | exchangeGraveyard b dead => trivial
    | _ => exact h.valid _ ((List.mem_cons.mp hc).resolve_left nofun)
  · obtain ⟨x, hx, hd⟩ := h.settled n hn
    exact ⟨x, List.mem_cons_of_mem _ hx, List.mem_cons_of_mem _ hd⟩

theorem tryDequeue (h : MatchesHistory ⟨m, ops, tr⟩) (hidle : ∀ c, .dequeue c ∉ ops) :
    MatchesHistory ⟨m, .dequeue .loadWrite :: ops, tr⟩ := by
  refine ⟨h.board, h.producing.tryDequeue .loadWrite, fun c hc => ?_, ?_, h.settled⟩
  · obtain heq | hc := List.mem_cons.mp hc
    · obtain rfl := Op.dequeue.inj heq
      trivial
    · exact absurd hc (hidle c)
  · show Unique Op.consumer ((some (.dequeue .loadWrite)).toList ++ ops)
    refine h.unique.call fun o _ k _ o' ho' heq => ?_
    cases o' with
    | enqueue e => exact absurd heq nofun
    | dequeue c => exact hidle c ho'

/-- A producer moves: the board and what the producers know are kept, and the consumer relies on
nothing that changes. -/
theorem producer {e : Enqueue α} (h : MatchesHistory ⟨m, pre ++ .enqueue e :: post, tr⟩)
    (hok : Ok ⟨m, pre ++ .enqueue e :: post, tr⟩ (.enqueue e) z)
    {r : Outcome (Memory α) (Enqueue α) (QueueEvent (Item α))} (hr : e.advance m z = some r) :
    MatchesHistory ⟨r.mem, pre ++ ((r.next.map .enqueue).toList ++ post),
      r.emitted.reverse ++ tr⟩ := by
  have hstep := producerStep_of_advance h.board
    (h.producing.valid e (List.mem_append_right _ (List.mem_cons_self ..))) hr
  have hread : (r.mem.block m.head).read = (m.block m.head).read :=
    hstep.read m.head h.board.wf.head_lt
  have hwrite : (m.block m.head).write ≤ (r.mem.block m.head).write :=
    hstep.grows.write m.head h.board.wf.head_lt
  refine ⟨hstep.board, h.producing.advance hstep, fun c hc => ?_, ?_, fun n hn => ?_⟩
  · obtain hc | hnext := mem_access hc
    · replace hc : Op.dequeue c ∈ pre ++ .enqueue e :: post := mem_of_mem_append hc
      have hold := h.valid c hc
      cases c with
      | loadCommitted b i =>
        obtain ⟨rfl, rfl, hlt⟩ := hold
        refine ⟨hstep.head.symm, hread.symm, ?_⟩
        show (m.block m.head).read < min (r.mem.block m.head).write blockSize
        replace hlt : (m.block m.head).read < min (m.block m.head).write blockSize := hlt
        omega
      | loadNext w =>
        show min w blockSize ≤ (r.mem.block r.mem.head).read ∧
          ((r.mem.block r.mem.head).next ≠ none → (r.mem.block r.mem.head).read = blockSize)
        rw [hstep.head, hread]
        refine ⟨hold.1, fun hnext => ?_⟩
        obtain hsame | ⟨⟨x, rfl⟩, hnone⟩ := hstep.links m.head h.board.wf.head_lt
        · exact hold.2 (hsame ▸ hnext)
        · exact hok (List.any_eq_true.mpr ⟨_, hc, rfl⟩) rfl hnone
      | _ => trivial
    · obtain ⟨e', -, heq⟩ := Option.map_eq_some_iff.mp hnext
      exact absurd heq nofun
  · refine h.unique.access fun o ho k hk => ?_
    obtain ⟨e', -, rfl⟩ := Option.map_eq_some_iff.mp ho
    exact absurd hk nofun
  · have hclaims : claims (r.emitted.reverse ++ tr) = claims tr := by
      refine claims_append_of_not_mem fun n hn => ?_
      obtain ⟨k, hk⟩ | heq := hstep.emitted _ (List.mem_reverse.mp hn)
      · exact absurd hk nofun
      · exact absurd heq nofun
    obtain ⟨x, hx, hd⟩ := h.settled n (hclaims ▸ hn)
    exact ⟨x, List.mem_append_right _ hx, List.mem_append_right _ hd⟩

/-- The consumer moves, and there is no other one: what it has claimed it takes itself. -/
theorem dequeue (h : MatchesHistory ⟨m, pre ++ .dequeue c :: post, tr⟩)
    {r : Outcome (Memory α) Dequeue (QueueEvent (Item α))} (hr : c.advance m z = some r) :
    MatchesHistory ⟨r.mem, pre ++ ((r.next.map .dequeue).toList ++ post),
      r.emitted.reverse ++ tr⟩ := by
  have hstep := dequeueStep_of_advance h.board
    (h.valid c (List.mem_append_right _ (List.mem_cons_self ..))) hr
  refine ⟨hstep.board, h.producing.dequeue hstep.grows hstep.untouched, fun c' hc' => ?_, ?_,
    fun n hn => ?_⟩
  · obtain hc' | hnext := mem_access hc'
    · exact absurd rfl (h.unique.others (o := Op.dequeue c) rfl _ hc')
    · obtain ⟨d, hd, heq⟩ := Option.map_eq_some_iff.mp hnext
      obtain rfl := Op.dequeue.inj heq
      exact hstep.next d hd
  · refine h.unique.access fun o ho k hk => .inl ?_
    obtain ⟨d, -, rfl⟩ := Option.map_eq_some_iff.mp ho
    exact hk
  · obtain hold | ⟨x, hx, hd⟩ := hstep.settled n hn
    · obtain ⟨x, hx, hd⟩ := h.settled n hold
      exact ⟨x, List.mem_append_right _ hx, List.mem_append_right _ hd⟩
    · exact ⟨x, List.mem_append_right _ hx, List.mem_append_left _ hd⟩

end MatchesHistory

/-- Allowed steps keep the invariant, whatever order the producers and the consumer take. -/
theorem MatchesHistory.reaches {s s' : State α Dequeue} (hs : MatchesHistory s)
    (h : Reaches (consumer α).program.step (AtAccess Ok) s s') : MatchesHistory s' :=
  Consumer.invariant h hs
    (fun _ _ _ _ _ hs hidle => hs.enqueue hidle)
    (fun _ _ _ hs hidle => hs.tryDequeue (hidle rfl))
    (fun _ _ _ _ _ _ _ hs hok hr => hs.producer hok hr)
    (fun _ _ _ _ _ _ _ hs _ hr => hs.dequeue hr)

/-- **The invariant holds in every run** that meets the condition. -/
theorem matchesHistory_of_reaches {s : State α Dequeue}
    (h : Reaches (consumer α).program.step (AtAccess Ok) start s) :
    MatchesHistory s :=
  MatchesHistory.start.reaches h

end MPSCQueue
end Queue
end Scheduler
end NUClear
