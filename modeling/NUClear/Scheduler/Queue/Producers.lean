import NUClear.Scheduler.Queue.Board

/-!
# Producers

What a producer knows about the memory and the history while it is in `enqueue` (`Enqueue.Valid`),
and what one of its accesses does (`ProducerStep`, `producerStep_of_advance`).

A producer with an item that has no place yet knows only that it was called for; one that has
reserved a slot knows that the slot is its own until it commits it; one that has found no slot knows
that the block is full, so that it may link the next.  None of this is spoilt by the others, because
the counters only grow and nobody else enqueues this item (`Enqueue.Valid.mono`).

`Producing` says that all producers know it, that a producer has one call in progress at most, and
that the calls that have not returned are in progress.  From the last it follows that in a state
without a call of `enqueue` every item that was called for is enqueued (`Producing.enqueued`).

`Consumer.invariant` is the rule for the runs of a queue: whoever shows that a call of `enqueue`, a
call of `try_dequeue`, an access of a producer and an access of a consumer keep a property has shown
it for every run.  Both queues use it.
-/

namespace NUClear
namespace Scheduler
namespace Queue

open Foundation QueueHistory

variable {α γ : Type} {m m' : Memory α} {tr es : List (QueueEvent (Item α))} {x y : Item α}
  {b b' i j n : ℕ} {e : Enqueue α} {z : Bool}

/-- The counters only grow: what a thread has loaded of them is at most what is there, and a block
that was linked stays linked. -/
structure Grows (m m' : Memory α) : Prop where
  made : m.made ≤ m'.made
  head : m.head ≤ m'.head
  write : ∀ b < m.made, (m.block b).write ≤ (m'.block b).write
  read : ∀ b < m.made, (m.block b).read ≤ (m'.block b).read

namespace Grows

theorem refl : Grows m m := ⟨Nat.le_refl _, Nat.le_refl _, fun _ _ => Nat.le_refl _,
    fun _ _ => Nat.le_refl _⟩

theorem of_same (h : Same m m') : Grows m m' where
  made := h.made.ge
  head := h.head.ge
  write b _ := (h.write b).1
  read b _ := (h.read b).ge

end Grows

/-- The item was called for, and has no place. -/
def Waiting (tr : List (QueueEvent (Item α))) (x : Item α) : Prop :=
  .called x ∈ tr ∧ ∀ n, .placed x n ∉ tr

/-- What an `enqueue` knows about its item, its slot and its block at each of its accesses. -/
def Enqueue.Valid (m : Memory α) (tr : List (QueueEvent (Item α))) : Enqueue α → Prop
  | .loadTail x => Waiting tr x
  | .addWrite x b => Waiting tr x ∧ b < m.made
  | .storeCommitted x b i => i < blockSize ∧ .placed x (place b i) ∈ tr ∧ .enqueued x ∉ tr
  | .linkNext x b => Waiting tr x ∧ b < m.made ∧ blockSize ≤ (m.block b).write
  | .loadNext x b => Waiting tr x ∧ b + 1 < m.made
  | .reloadTail x _ n | .exchangeTail x _ n => Waiting tr x ∧ n < m.made

/-- The events do not touch an item: it gets no place and is not enqueued. -/
def Untouched (es : List (QueueEvent (Item α))) (x : Item α) : Prop :=
  (∀ n, .placed x n ∉ es) ∧ .enqueued x ∉ es

theorem Waiting.append (h : Waiting tr x) (hes : Untouched es x) : Waiting (es ++ tr) x :=
  ⟨List.mem_append_right _ h.1, fun n hn => (List.mem_append.mp hn).elim (hes.1 n) (h.2 n)⟩

/-- What a producer knows stays true when others move. -/
theorem Enqueue.Valid.mono (h : e.Valid m tr) (hg : Grows m m') (hes : Untouched es e.item) :
    e.Valid m' (es ++ tr) := by
  cases e with
  | loadTail x => exact Waiting.append h hes
  | addWrite x b => exact ⟨h.1.append hes, Nat.lt_of_lt_of_le h.2 hg.made⟩
  | storeCommitted x b i =>
    exact ⟨h.1, List.mem_append_right _ h.2.1, fun he => (List.mem_append.mp he).elim hes.2 h.2.2⟩
  | linkNext x b =>
    exact ⟨h.1.append hes, Nat.lt_of_lt_of_le h.2.1 hg.made, Nat.le_trans h.2.2 (hg.write b h.2.1)⟩
  | loadNext x b | reloadTail x b n | exchangeTail x b n =>
    exact ⟨h.1.append hes, Nat.lt_of_lt_of_le h.2 hg.made⟩

/-! ## One access of a producer -/

/-- What an access of a producer does: the memory stays that of the history, only its own item is
placed or enqueued, nothing is claimed or dequeued, and the producer knows at its next access what
it has to know there. -/
structure ProducerStep (m : Memory α) (tr : List (QueueEvent (Item α))) (e : Enqueue α)
    (r : Outcome (Memory α) (Enqueue α) (QueueEvent (Item α))) : Prop where
  board : Board r.mem (r.emitted.reverse ++ tr)
  grows : Grows m r.mem
  next : ∀ e' ∈ r.next, e'.item = e.item ∧ e'.Valid r.mem (r.emitted.reverse ++ tr)
  finished : r.next = none → .enqueued e.item ∈ r.emitted
  emitted : ∀ ev ∈ r.emitted, (∃ n, ev = .placed e.item n) ∨ ev = .enqueued e.item
  head : r.mem.head = m.head
  graveyard : r.mem.graveyard = m.graveyard
  read : ∀ b < m.made, (r.mem.block b).read = (m.block b).read
  consumed : ∀ b < m.made, (r.mem.block b).consumed = (m.block b).consumed
  slots : ∀ y b i, i < blockSize → .placed y (place b i) ∈ tr → .enqueued y ∈ tr →
    (r.mem.block b).slots i = (m.block b).slots i
  linked : ∀ b, m.made ≤ b → b < r.mem.made → (r.mem.block b).read = 0 ∧
    (r.mem.block b).consumed = 0
  links : ∀ b < m.made, (r.mem.block b).next = (m.block b).next ∨
    (∃ x, e = .linkNext x b) ∧ (m.block b).next = none

/-- The memory is not changed. -/
theorem ProducerStep.pure (h : Board m tr) (e' : Enqueue α) (hitem : e'.item = e.item)
    (hvalid : e'.Valid m tr) : ProducerStep m tr e ⟨m, some e', []⟩ where
  board := h
  grows := .refl
  next e'' he := by
    obtain rfl := Option.some.inj he
    exact ⟨hitem, hvalid⟩
  finished := nofun
  emitted ev hev := absurd hev List.not_mem_nil
  head := rfl
  graveyard := rfl
  read _ _ := rfl
  consumed _ _ := rfl
  slots _ _ _ _ _ _ := rfl
  linked b hb hlt := absurd hlt (Nat.not_lt_of_le hb)
  links _ _ := .inl rfl

/-- **One access of `enqueue`**: a case for each, and for the `fetch_add` one more for whether the
block had a slot left. -/
theorem producerStep_of_advance (h : Board m tr) (hv : e.Valid m tr)
    {r : Outcome (Memory α) (Enqueue α) (QueueEvent (Item α))} (hr : e.advance m z = some r) :
    ProducerStep m tr e r := by
  cases e with
  | loadTail x =>
    obtain rfl := Option.some.inj hr
    exact .pure h _ rfl ⟨hv, h.wf.tail_lt⟩
  | addWrite x b =>
    obtain ⟨hx, hb⟩ := hv
    simp only [Enqueue.advance] at hr
    split_ifs at hr with hw <;> obtain rfl := Option.some.inj hr
    · have hplaced := h.placed hb hw hx.1 hx.2
      refine ⟨hplaced, ⟨Nat.le_refl _, Nat.le_refl _, fun b' _ => ?_, fun b' _ => ?_⟩,
        fun e' he => ?_,
        fun heq => absurd heq (Option.some_ne_none _),
        fun ev hev => ?_, rfl, rfl, fun b' _ => ?_, fun b' _ => ?_, fun y b' i hi hy _ => ?_,
        fun b' hb' hlt => absurd hlt (Nat.not_lt_of_le hb'), fun b' _ => .inl ?_⟩
      · rw [Memory.setSlot_write, Memory.addWrite_write]
        exact Nat.le_add_right _ _
      · rw [Memory.setSlot_read, Memory.addWrite_read]
      · obtain rfl := Option.some.inj he
        refine ⟨rfl, hw, List.mem_cons_self .., fun henq => ?_⟩
        obtain ⟨n, hn⟩ := h.lawful.placed_of_enqueued
          ((List.mem_cons.mp henq).resolve_left (by simp))
        exact hx.2 n hn
      · exact .inl ⟨_, List.mem_singleton.mp hev⟩
      · rw [Memory.setSlot_read, Memory.addWrite_read]
      · rw [Memory.setSlot_consumed, Memory.addWrite_consumed]
      · rw [Memory.setSlot_slots, Memory.addWrite_slots, if_neg]
        rintro ⟨rfl, rfl⟩
        exact absurd (h.slot_of_placed hy hi).2 (Nat.lt_irrefl _)
      · rw [Memory.setSlot_next, Memory.addWrite_next]
    · have hw : blockSize ≤ (m.block b).write := Nat.not_lt.mp hw
      refine ⟨h.addWrite hw, .of_same (.addWrite hw), fun e' he => ?_,
        fun heq => absurd heq (Option.some_ne_none _),
        fun ev hev => absurd hev List.not_mem_nil, rfl, rfl,
          fun b' _ => Memory.addWrite_read m b b',
        fun b' _ => Memory.addWrite_consumed m b b', fun y b' i _ _ _ => ?_,
        fun b' hb' hlt => absurd hlt (Nat.not_lt_of_le hb'),
          fun b' _ => .inl (Memory.addWrite_next m b b')⟩
      · obtain rfl := Option.some.inj he
        refine ⟨rfl, hx, hb, ?_⟩
        show blockSize ≤ ((m.addWrite b).block b).write
        rw [Memory.addWrite_write]
        exact Nat.le_trans hw (Nat.le_add_right _ _)
      · show ((m.addWrite b).block b').slots i = _
        rw [Memory.addWrite_slots]
  | storeCommitted x b i =>
    obtain ⟨hi, hx, henq⟩ := hv
    obtain rfl := Option.some.inj hr
    refine ⟨h.enqueued hx hi, .of_same (.setSlot _),
      fun e' he => absurd he (Option.not_mem_none e'),
      fun _ => List.mem_singleton.mpr rfl,
      fun ev hev => .inr (List.mem_singleton.mp hev), rfl, rfl,
        fun b' _ => Memory.setSlot_read m b b' i _,
      fun b' _ => Memory.setSlot_consumed m b b' i _, fun y b' j hj hy hey => ?_,
      fun b' hb' hlt => absurd hlt (Nat.not_lt_of_le hb'),
        fun b' _ => .inl (Memory.setSlot_next m b b' i _)⟩
    rw [Memory.setSlot_slots, if_neg]
    rintro ⟨rfl, rfl⟩
    exact henq (h.lawful.item_unique hy hx ▸ hey)
  | linkNext x b =>
    obtain ⟨hx, hb, hw⟩ := hv
    obtain rfl := Option.some.inj hr
    have hmade : m.made ≤ (m.linkNextBlock b).made ∧ b + 1 < (m.linkNextBlock b).made := by
      rw [Memory.linkNextBlock]
      split_ifs with hnext
      · have hlast := (h.wf.next_eq_none_iff hb).mp hnext
        exact ⟨Nat.le_succ _, by show b + 1 < m.made + 1; omega⟩
      · have hne : b + 1 ≠ m.made := fun heq => hnext ((h.wf.next_eq_none_iff hb).mpr heq)
        exact ⟨Nat.le_refl _, by omega⟩
    have hhead : (m.linkNextBlock b).head = m.head ∧ (m.linkNextBlock b).graveyard =
      m.graveyard := by
      rw [Memory.linkNextBlock]
      split_ifs <;> exact ⟨rfl, rfl⟩
    have hread {b' : ℕ} (hb' : b' < m.made) : ((m.linkNextBlock b).block b').read =
      (m.block b').read :=
      Memory.linkNextBlock_congr Block.read (by intros; rfl) hb'
    refine ⟨h.linkNextBlock hb hw, ⟨hmade.1, hhead.1.ge, fun b' hb' => ?_,
      fun b' hb' => (hread hb').ge⟩,
      fun e' he => ?_, fun heq => absurd heq (Option.some_ne_none _),
        fun ev hev => absurd hev List.not_mem_nil,
      hhead.1, hhead.2,
      fun b' hb' => hread hb', fun b' hb' => ?_, fun y b' i hi hy _ => ?_, fun b' hb' hlt => ?_,
      fun b' hb' => ?_⟩
    · exact (Memory.linkNextBlock_congr Block.write (by intros; rfl) hb').ge
    · obtain rfl := Option.some.inj he
      exact ⟨rfl, hx, hmade.2⟩
    · exact Memory.linkNextBlock_congr Block.consumed (by intros; rfl) hb'
    · have hb' := (h.slot_of_placed hy hi).1
      exact congrFun (Memory.linkNextBlock_congr Block.slots (by intros; rfl) hb') i
    · by_cases hnext : (m.block b).next = none
      · have hmade : (m.linkNextBlock b).made = m.made + 1 := by
          rw [Memory.linkNextBlock, if_pos hnext]
        obtain rfl : b' = m.made := by
          rw [hmade] at hlt
          exact Nat.le_antisymm (Nat.le_of_lt_succ hlt) hb'
        rw [Memory.linkNextBlock_made hb hnext]
        exact ⟨rfl, rfl⟩
      · rw [Memory.linkNextBlock, if_neg hnext] at hlt
        exact absurd hlt (Nat.not_lt_of_le hb')
    · by_cases hnext : (m.block b).next = none
      · by_cases hbb : b' = b
        · subst hbb
          exact .inr ⟨⟨x, rfl⟩, hnext⟩
        · exact .inl ((Memory.linkNextBlock_next hb hnext hb').trans (if_neg hbb))
      · refine .inl ?_
        show ((m.linkNextBlock b).block b').next = _
        rw [Memory.linkNextBlock, if_neg hnext]
  | loadNext x b =>
    obtain ⟨hx, hb⟩ := hv
    obtain ⟨n, hnext, rfl⟩ := Option.map_eq_some_iff.mp hr
    obtain ⟨rfl, -⟩ := h.wf.eq_succ_of_next (Nat.lt_of_succ_lt hb) hnext
    exact .pure h _ rfl ⟨hx, hb⟩
  | reloadTail x b n =>
    obtain rfl := Option.some.inj hr
    split_ifs
    · exact .pure h _ rfl hv
    · exact .pure h _ rfl hv.1
  | exchangeTail x b n =>
    simp only [Enqueue.advance] at hr
    split_ifs at hr <;> obtain rfl := Option.some.inj hr
    · exact .pure h _ rfl hv
    · refine ⟨h.moveTail hv.2, ⟨Nat.le_refl _, Nat.le_refl _, fun _ _ => Nat.le_refl _,
        fun _ _ => Nat.le_refl _⟩,
        fun e' he => ?_, fun heq => absurd heq (Option.some_ne_none _),
          fun ev hev => absurd hev List.not_mem_nil,
        rfl, rfl, fun _ _ => rfl,
        fun _ _ => rfl, fun _ _ _ _ _ _ => rfl, fun b' hb' hlt => absurd hlt (Nat.not_lt_of_le hb'),
        fun _ _ => .inl rfl⟩
      obtain rfl := Option.some.inj he
      exact ⟨rfl, hv.1⟩
    · exact .pure h _ rfl hv.1

/-! ## The producers -/

/-- The calls of `enqueue` that are in progress: each knows what it has to know, no thread is in two
of them, and an item that was called for and is not enqueued is in one. -/
structure Producing (m : Memory α) (ops : List (Op α γ)) (tr : List (QueueEvent (Item α))) :
    Prop where
  valid : ∀ e, .enqueue e ∈ ops → e.Valid m tr
  unique : Unique Op.producer ops
  pending : ∀ x, .called x ∈ tr → .enqueued x ∈ tr ∨ ∃ e, .enqueue e ∈ ops ∧ e.item = x

namespace Producing

variable {ops pre post : List (Op α γ)} {o : Op α γ} {next : Option (Op α γ)}

theorem start : Producing (γ := γ) (Memory.make : Memory α) [] [] where
  valid _ he := absurd he List.not_mem_nil
  unique := List.nodup_nil
  pending _ hx := absurd hx List.not_mem_nil

/-- The items of a producer that is in no call have their places. -/
theorem placed_of_called (h : Producing m ops tr) (hb : Board m tr) {p : ℕ}
    (hidle : ∀ e, .enqueue e ∈ ops → e.item.producer ≠ p) (hy : .called y ∈ tr)
    (hp : y.producer = p) :
    ∃ n, .placed y n ∈ tr := by
  obtain henq | ⟨e, he, rfl⟩ := h.pending y hy
  · exact hb.lawful.placed_of_enqueued henq
  · exact absurd hp (hidle e he)

/-- An enqueue is called. -/
theorem called (h : Producing m ops tr) {p : ℕ} {v : α}
    (hidle : ∀ e, .enqueue e ∈ ops → e.item.producer ≠ p) (hnew : .called ⟨m.tickets, p, v⟩ ∉ tr)
    (hb : Board m tr) :
    Producing { m with tickets := m.tickets + 1 } (.enqueue (.loadTail ⟨m.tickets, p, v⟩) :: ops)
      (.called ⟨m.tickets, p, v⟩ :: tr) where
  valid e he := by
    obtain heq | he := List.mem_cons.mp he
    · cases heq
      refine ⟨List.mem_cons_self .., fun n hn => ?_⟩
      exact hnew (hb.lawful.called_of_placed ((List.mem_cons.mp hn).resolve_left nofun))
    · have huntouched : Untouched [.called ⟨m.tickets, p, v⟩] e.item :=
        ⟨fun n hn => absurd (List.mem_singleton.mp hn) nofun,
          fun hn => absurd (List.mem_singleton.mp hn) nofun⟩
      exact (h.valid e he).mono
        ⟨Nat.le_refl _, Nat.le_refl _, fun _ _ => Nat.le_refl _,
          fun _ _ => Nat.le_refl _⟩ huntouched
  unique := by
    show Unique Op.producer ((some (.enqueue (.loadTail ⟨m.tickets, p, v⟩))).toList ++ ops)
    refine h.unique.call fun o ho k hk o' ho' heq => ?_
    obtain rfl := Option.some.inj ho
    obtain rfl := Option.some.inj hk
    cases o' with
    | enqueue e => exact hidle e ho' (Option.some.inj heq)
    | dequeue c => exact absurd heq nofun
  pending y hy := by
    obtain heq | hy := List.mem_cons.mp hy
    · cases heq
      exact .inr ⟨_, List.mem_cons_self .., rfl⟩
    · obtain henq | ⟨e, he, rfl⟩ := h.pending y hy
      · exact .inl (List.mem_cons_of_mem _ henq)
      · exact .inr ⟨e, List.mem_cons_of_mem _ he, rfl⟩

/-- A producer moves. -/
theorem advance (h : Producing m (pre ++ .enqueue e :: post) tr)
    {r : Outcome (Memory α) (Enqueue α) (QueueEvent (Item α))} (hr : ProducerStep m tr e r) :
    Producing r.mem (pre ++ ((r.next.map .enqueue).toList ++ post)) (r.emitted.reverse ++ tr) where
  valid e' he' := by
    obtain he' | hnext := mem_access he'
    · refine (h.valid e' (mem_of_mem_append he')).mono hr.grows ?_
      have hne : e'.item ≠ e.item := fun heq =>
        h.unique.others rfl _ he' (congrArg (fun x : Item α => some x.producer) heq)
      constructor
      · intro n hn
        obtain ⟨k, hk⟩ | heq := hr.emitted _ (List.mem_reverse.mp hn)
        · exact hne (QueueEvent.placed.inj hk).1
        · exact absurd heq nofun
      · intro hn
        obtain ⟨k, hk⟩ | heq := hr.emitted _ (List.mem_reverse.mp hn)
        · exact absurd hk nofun
        · exact hne (QueueEvent.enqueued.inj heq)
    · obtain ⟨e'', he'', heq⟩ := Option.map_eq_some_iff.mp hnext
      obtain rfl := Op.enqueue.inj heq
      exact (hr.next e'' he'').2
  unique := by
    refine h.unique.access fun o' ho' k hk => .inl ?_
    obtain ⟨e', he', rfl⟩ := Option.map_eq_some_iff.mp ho'
    rw [← hk]
    exact congrArg (fun x : Item α => some x.producer) (hr.next e' he').1.symm
  pending y hy := by
    replace hy : .called y ∈ tr := by
      obtain hy | hy := List.mem_append.mp hy
      · obtain ⟨n, hn⟩ | heq := hr.emitted _ (List.mem_reverse.mp hy)
        · exact absurd hn nofun
        · exact absurd heq nofun
      · exact hy
    obtain henq | ⟨e', he', rfl⟩ := h.pending y hy
    · exact .inl (List.mem_append_right _ henq)
    · by_cases heq : (Op.enqueue e' : Op α γ) = .enqueue e
      · obtain rfl := Op.enqueue.inj heq
        cases hnext : r.next with
        | none => exact .inl (List.mem_append_left _ (List.mem_reverse.mpr (hr.finished hnext)))
        | some e'' =>
          refine .inr ⟨e'', ?_, (hr.next e'' hnext).1⟩
          exact List.mem_append_right _ (List.mem_append_left _ (by simp))
      · exact .inr ⟨e', mem_others he' heq, rfl⟩

/-- A consumer is called, moves or returns. -/
theorem consumer (h : Producing m ops tr) (hg : Grows m m') {ops' : List (Op α γ)}
    (hops : ∀ e, .enqueue e ∈ ops' ↔ .enqueue e ∈ ops) (hunique : Unique Op.producer ops')
    (hes : ∀ x, Untouched es x) (hcalled : ∀ x, .called x ∉ es) : Producing m' ops' (es ++ tr) where
  valid e he := (h.valid e ((hops e).mp he)).mono hg (hes _)
  unique := hunique
  pending y hy := by
    have hy := (List.mem_append.mp hy).resolve_left (hcalled y)
    obtain henq | ⟨e, he, heq⟩ := h.pending y hy
    · exact .inl (List.mem_append_right _ henq)
    · exact .inr ⟨e, (hops e).mpr he, heq⟩

/-- `try_dequeue` is called. -/
theorem tryDequeue (h : Producing m ops tr) (c : γ) : Producing m (.dequeue c :: ops) tr := by
  have hg : Grows m m := ⟨Nat.le_refl _, Nat.le_refl _, fun _ _ => Nat.le_refl _,
    fun _ _ => Nat.le_refl _⟩
  have huntouched (x : Item α) : Untouched [] x :=
    ⟨fun _ hn => absurd hn List.not_mem_nil, List.not_mem_nil⟩
  have hops (e : Enqueue α) : .enqueue e ∈ .dequeue c :: ops ↔ .enqueue e ∈ ops := by simp
  exact h.consumer hg hops h.unique huntouched fun _ => List.not_mem_nil

/-- A call of `try_dequeue` moves or returns. -/
theorem dequeue {c : γ} {c? : Option γ} (h : Producing m (pre ++ .dequeue c :: post) tr)
    (hg : Grows m m') (hes : ∀ x, Untouched es x ∧ .called x ∉ es) :
    Producing m' (pre ++ ((c?.map .dequeue).toList ++ post)) (es ++ tr) := by
  refine h.consumer hg (fun e => ⟨fun he => ?_, fun he => mem_others he nofun⟩) ?_
    (fun x => (hes x).1)
    fun x => (hes x).2
  · obtain he | hnext := mem_access he
    · exact mem_of_mem_append he
    · obtain ⟨d, -, heq⟩ := Option.map_eq_some_iff.mp hnext
      exact absurd heq nofun
  · refine h.unique.access fun o ho k hk => ?_
    obtain ⟨d, -, rfl⟩ := Option.map_eq_some_iff.mp ho
    exact absurd hk nofun

/-- No call of `enqueue` is in progress. -/
theorem enqueued {n : ℕ} (h : Producing (γ := γ) m [] tr) (hb : Board m tr)
    (hx : .placed x n ∈ tr) :
    .enqueued x ∈ tr := by
  obtain he | ⟨e, he, -⟩ := h.pending x (hb.lawful.called_of_placed hx)
  · exact he
  · exact absurd he List.not_mem_nil

end Producing

/-! ## Runs -/

/-- **The invariant rule for a queue**: a call of `enqueue`, a call of `try_dequeue`, an access of a
producer and one of a consumer keep it. -/
theorem Consumer.invariant {C : Consumer α γ} {I : State α γ → Prop}
    {ok : State α γ → Op α γ → Bool → Prop} {s s' : State α γ}
    (h : Reaches C.program.step (AtAccess ok) s s') (hs : I s)
    (henqueue : ∀ m ops tr p v, I ⟨m, ops, tr⟩ → (∀ e, .enqueue e ∈ ops → e.item.producer ≠ p) →
      I ⟨{ m with tickets := m.tickets + 1 }, .enqueue (.loadTail ⟨m.tickets, p, v⟩) :: ops,
        .called ⟨m.tickets, p, v⟩ :: tr⟩)
    (htryDequeue : ∀ m ops tr, I ⟨m, ops, tr⟩ → (C.exclusive = true → ∀ c, .dequeue c ∉ ops) →
      I ⟨m, .dequeue C.start :: ops, tr⟩)
    (hproducer : ∀ m pre e post tr z r, I ⟨m, pre ++ .enqueue e :: post, tr⟩ →
      ok ⟨m, pre ++ .enqueue e :: post, tr⟩ (.enqueue e) z → e.advance m z = some r →
        I ⟨r.mem, pre ++ ((r.next.map .enqueue).toList ++ post), r.emitted.reverse ++ tr⟩)
    (hconsumer : ∀ m pre c post tr z r, I ⟨m, pre ++ .dequeue c :: post, tr⟩ →
      ok ⟨m, pre ++ .dequeue c :: post, tr⟩ (.dequeue c) z → C.advance m c z = some r →
        I ⟨r.mem, pre ++ ((r.next.map .dequeue).toList ++ post), r.emitted.reverse ++ tr⟩) :
          I s' := by
  refine Program.invariant h hs (fun m ops tr call r hs _ hr => ?_)
    fun m pre o post tr z r hs hok hr => ?_
  · cases call with
    | enqueue p v =>
      simp only [Consumer.program] at hr
      split_ifs at hr with hany
      obtain rfl := Option.some.inj hr
      refine henqueue m ops tr p v hs fun e he heq => hany ?_
      exact List.any_eq_true.mpr ⟨_, he, by simp [Op.producer, heq]⟩
    | tryDequeue =>
      simp only [Consumer.program] at hr
      split_ifs at hr with hany
      obtain rfl := Option.some.inj hr
      refine htryDequeue m ops tr hs fun hexclusive c hc => hany ?_
      rw [Bool.and_eq_true]
      exact ⟨hexclusive, List.any_eq_true.mpr ⟨_, hc, rfl⟩⟩
  · cases o with
    | enqueue e =>
      obtain ⟨r', hr', rfl⟩ := Option.map_eq_some_iff.mp hr
      exact hproducer m pre e post tr z r' hs hok.apply hr'
    | dequeue c =>
      obtain ⟨r', hr', rfl⟩ := Option.map_eq_some_iff.mp hr
      exact hconsumer m pre c post tr z r' hs hok.apply hr'

end Queue
end Scheduler
end NUClear
