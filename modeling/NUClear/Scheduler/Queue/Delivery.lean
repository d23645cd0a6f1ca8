import NUClear.Scheduler.Queue.Progress

/-!
# Nothing is lost or duplicated

`Delivers` says what the queues promise about a state: no item is dequeued twice, an item that is
enqueued and not claimed is kept and further calls of `try_dequeue` give it, and the items of one
producer are claimed in the order in which it enqueued them.

## The two parts

That nothing is there twice, and the order, are read off the history: a lawful history has them, and
the invariant of each queue says that its history is lawful.

That an item is not lost is a statement about what can still happen.  From any state that the
invariant describes the threads can finish what they are at (`exists_noWriter`, `exists_idle`,
`exists_noConsumer`), and from then on each call of `try_dequeue` that is run alone takes the first
item that is not claimed.  The induction is on the number of items before the one that is looked for
(`exists_dequeued`), and no step of it calls `enqueue`.

## The results

* `delivers_of_reaches`: this holds in every run in which `head` leaves only blocks that are read
  (`TaskQueue`), and no block is linked behind the consumer's back (`MPSCQueue`).
* `not_delivers_filled`: a `try_dequeue` that loads `write` before the block is filled, and `next`
  after that, moves `head` past items that nobody has read.
-/

namespace NUClear
namespace Scheduler
namespace Queue

open Foundation QueueHistory

variable {α γ : Type} {m m' : Memory α} {tr tr' : List (QueueEvent (Item α))} {x y : Item α}
  {b b' i j n : ℕ}

/-- Nobody calls `enqueue`. -/
def NoEnqueue (_ : State α γ) : Action (Call α) Bool → Prop
  | .call (.enqueue ..) => False
  | .call .tryDequeue | .advance .. => True

/-- Further calls of `try_dequeue` give the item: a run without a call of `enqueue` leads from here
to a state in which it is dequeued. -/
def WouldDequeue (C : Consumer α γ) (s : State α γ) (x : Item α) : Prop :=
  ∃ s', Reaches C.program.step NoEnqueue s s' ∧ .dequeued x ∈ s'.trace

/-- **Nothing is lost or duplicated**: what a queue promises about a state of a run, for every item
that it has been given. -/
structure Delivers (C : Consumer α γ) (s : State α γ) : Prop where
  once : (dequeues s.trace).Nodup
  kept : ∀ x, .enqueued x ∈ s.trace → ¬ IsClaimed x s.trace → Kept s.mem x ∧ WouldDequeue C s x
  ordered : ∀ x y, CalledBefore x y s.trace → x.producer = y.producer → IsClaimed y s.trace →
    IsClaimed x s.trace

/-! ## The slot of an item that is not claimed -/

theorem linked_add (h : m.WellFormed) {k : ℕ} (hk : m.head + k < m.made) :
    Linked m m.head (m.head + k) := by
  induction k with
  | zero => exact .refl
  | succ k ih =>
    refine (ih (by omega)).tail ?_
    rw [h.next _ (by omega), if_pos (by omega)]
    rfl

/-- An item that is enqueued and not claimed is in a block that is reached from `head`. -/
theorem kept_of_enqueued (hb : Board m tr) (henqueued : .enqueued x ∈ tr)
    (hclaimed : ¬ IsClaimed x tr) :
    Kept m x := by
  obtain ⟨n, hx⟩ := hb.lawful.placed_of_enqueued henqueued
  obtain ⟨b, i, hi, rfl⟩ := exists_place n
  have hn : ¬ place b i < claims tr := fun hlt => hclaimed ((hb.lawful.isClaimed_iff hx).mpr hlt)
  obtain ⟨hbm, -⟩ := hb.slot_of_placed hx hi
  have hread : (m.block b).read ≤ i := by
    rw [hb.claims, hb.wf.place_lt_claims hbm hi] at hn
    exact Nat.not_lt.mp hn
  have hhead : m.head ≤ b := by
    by_contra hlt
    have hdrained := hb.wf.drained b (Nat.not_le.mp hlt)
    omega
  have hnew : .dequeued x ∉ tr := by
    intro hd
    obtain ⟨k, hk, hlt⟩ := hb.lawful.claimed_of_dequeued hd
    exact hn (hb.lawful.place_unique hx hk ▸ hlt)
  refine ⟨b, i, ?_, hread, hi, ?_⟩
  · have hlinked := linked_add hb.wf (k := b - m.head) (by omega)
    rwa [Nat.add_sub_cancel' hhead] at hlinked
  · have hstored := hb.holds.stored x b i hi hx hnew
    have hcommitted := (hb.holds.committed x b i hi hx hnew).mpr henqueued
    cases hslot : (m.block b).slots i with
    | mk storage committed =>
      rw [hslot] at hstored hcommitted
      rw [show storage = some x from hstored, show committed = true from hcommitted]

/-! ## The producers finish -/

/-- Nobody is about to commit a slot. -/
def NoWriter (ops : List (Op α γ)) : Prop := ∀ x b i, .enqueue (.storeCommitted x b i) ∉ ops

theorem enqueued_of_placed {ops : List (Op α γ)} (hb : Board m tr) (hp : Producing m ops tr)
    (hw : NoWriter ops) (hx : .placed x n ∈ tr) : .enqueued x ∈ tr := by
  obtain henq | ⟨e, he, rfl⟩ := hp.pending x (hb.lawful.called_of_placed hx)
  · exact henq
  · have hvalid := hp.valid e he
    cases e with
    | storeCommitted y b i => exact absurd he (hw y b i)
    | loadTail y => exact absurd hx (hvalid.2 n)
    | addWrite y b | linkNext y b | loadNext y b | reloadTail y b k | exchangeTail y b k =>
      exact absurd hx (hvalid.1.2 n)

/-- The producers that have a slot commit it. -/
theorem exists_noWriter (C : Consumer α γ) (ok : State α γ → Action (Call α) Bool → Prop)
    (hok : ∀ m pre x b i post tr, ok ⟨m, pre ++ .enqueue (.storeCommitted x b i) :: post, tr⟩
      (.advance pre.length false)) (s : State α γ) :
    ∃ s', Reaches C.program.step ok s s' ∧ NoWriter s'.ops ∧ s'.ops.Sublist s.ops := by
  induction hk : s.ops.length using Nat.strongRecOn generalizing s with
  | ind k ih =>
    by_cases hw : NoWriter s.ops
    · exact ⟨s, .start, hw, .refl _⟩
    · simp only [NoWriter, not_forall, not_not] at hw
      obtain ⟨x, b, i, hmem⟩ := hw
      obtain ⟨pre, post, hops⟩ := List.append_of_mem hmem
      obtain ⟨m, ops, tr⟩ := s
      subst hops
      have hstep : C.program.step ⟨m, pre ++ .enqueue (.storeCommitted x b i) :: post, tr⟩
          (.advance pre.length false) = some ⟨m.setSlot b i { (m.block b).slots i with
            committed := true },
            pre ++ post, .enqueued x :: tr⟩ := Program.step_advance_of (r := ⟨_, none, [_]⟩) rfl
      obtain ⟨s', hreach, hw', hsub⟩ := ih (pre ++ post).length (by
        subst hk
        simp only [List.length_append, List.length_cons]
        omega) ⟨_, pre ++ post, .enqueued x :: tr⟩ rfl
      exact ⟨s', .head (hok ..) hstep hreach, hw',
        hsub.trans (((List.sublist_cons_self _ post).append_left pre))⟩

/-! ## `TaskQueue` -/

namespace TaskQueue

variable {s : State α Dequeue} {c : Dequeue} {ops pre post : List (Op α Dequeue)}

/-- The allowed steps of a run in which nobody calls `enqueue`. -/
def OkNoEnqueue (s : State α Dequeue) (a : Action (Call α) Bool) : Prop :=
  AtAccess Ok s a ∧ NoEnqueue s a

/-- How many accesses a busy `try_dequeue` is from counting its slot. -/
def rank : Op α Dequeue → ℕ
  | .dequeue (.loadCommitted ..) => 3
  | .dequeue (.clearCommitted ..) => 2
  | .dequeue (.addConsumed ..) => 1
  | _ => 0

theorem busyOp_eq_none_of_rank {o : Op α Dequeue} (h : rank o = 0) : busyOp o = none := by
  cases o with
  | enqueue e => rfl
  | dequeue c => cases c <;> first | rfl | exact absurd h (Nat.succ_ne_zero _)

/-- A busy `try_dequeue` moves on. -/
theorem exists_advance (hs : MatchesHistory ⟨m, pre ++ .dequeue c :: post, tr⟩)
    (hw : NoWriter (pre ++ .dequeue c :: post)) (hbusy : rank (.dequeue c : Op α Dequeue) ≠ 0) :
    c.Ok m ∧ ∃ r, c.advance m false = some r ∧
      ∀ d ∈ r.next, rank (.dequeue d : Op α Dequeue) < rank (.dequeue c : Op α Dequeue) := by
  have hvalid := hs.consuming.valid c (List.mem_append_right _ (List.mem_cons_self ..))
  cases c with
  | loadCommitted b i =>
    obtain ⟨hclaimed, hnew⟩ := hvalid
    obtain ⟨-, x, hx⟩ := hs.board.exists_of_claimed hclaimed.2
    have henqueued := enqueued_of_placed hs.board hs.producing hw hx
    have hstored : ((m.block b).slots i).storage = some x :=
      hs.board.holds.stored x b i hclaimed.1 hx (hnew x hx)
    have hcommitted : ((m.block b).slots i).committed = true :=
      (hs.board.holds.committed x b i hclaimed.1 hx (hnew x hx)).mpr henqueued
    refine ⟨trivial, ⟨m.setSlot b i ⟨none, true⟩, some (.clearCommitted b i), [.dequeued x]⟩, ?_,
      fun d hd => ?_⟩
    · rw [Dequeue.advance, if_pos hcommitted, hstored, Option.map_some]
    · obtain rfl := Option.some.inj hd
      exact Nat.lt_succ_self 2
  | clearCommitted b i =>
    refine ⟨trivial, _, rfl, fun d hd => ?_⟩
    obtain rfl := Option.some.inj hd
    exact Nat.lt_succ_self 1
  | addConsumed b i =>
    refine ⟨trivial, _, rfl, fun d hd => ?_⟩
    replace hd : (if (m.block b).consumed + 1 = blockSize then some (.reclaimConsumed b)
      else none) = some d := hd
    split_ifs at hd
    obtain rfl := Option.some.inj hd
    exact Nat.zero_lt_one
  | _ => exact absurd rfl hbusy

/-- The consumers that have a slot finish with it. -/
theorem exists_idle (hs : MatchesHistory s) (hw : NoWriter s.ops) :
    ∃ s', Reaches (consumer α).program.step OkNoEnqueue s s' ∧ NoWriter s'.ops ∧ ∀ o ∈ s'.ops,
      busyOp o = none := by
  induction hk : (s.ops.map rank).sum using Nat.strongRecOn generalizing s with
  | ind k ih =>
    by_cases hidle : ∀ o ∈ s.ops, rank o = 0
    · exact ⟨s, .start, hw, fun o ho => busyOp_eq_none_of_rank (hidle o ho)⟩
    · simp only [not_forall] at hidle
      obtain ⟨o, ho, hbusy⟩ := hidle
      obtain ⟨pre, post, hops⟩ := List.append_of_mem ho
      obtain ⟨m, ops, tr⟩ := s
      subst hops
      cases o with
      | enqueue e => exact absurd rfl hbusy
      | dequeue c =>
        obtain ⟨hok, r, hr, hrank⟩ := exists_advance hs hw hbusy
        have hstep : (consumer α).program.step ⟨m, pre ++ .dequeue c :: post, tr⟩
          (.advance pre.length false) =
            some ⟨r.mem, pre ++ ((r.next.map .dequeue).toList ++ post),
              r.emitted.reverse ++ tr⟩ := by
          refine Program.step_advance_of (r := ⟨r.mem, r.next.map Op.dequeue, r.emitted⟩) ?_
          show (c.advance m false).map _ = _
          rw [hr, Option.map_some]
        have hw' : NoWriter (pre ++ ((r.next.map Op.dequeue).toList ++ post)) := by
          intro x b i hmem
          obtain hmem | hnext := mem_access hmem
          · exact hw x b i (mem_of_mem_append hmem)
          · obtain ⟨d, -, heq⟩ := Option.map_eq_some_iff.mp hnext
            exact absurd heq nofun
        have hdecrease : ((pre ++ ((r.next.map Op.dequeue).toList ++ post)).map rank).sum < k := by
          subst hk
          cases hnext : r.next with
          | none =>
            simp only [Option.map_none, Option.toList_none, List.nil_append,
              List.map_append, List.map_cons,
              List.sum_append, List.sum_cons]
            omega
          | some d =>
            have hlt := hrank d hnext
            simp only [Option.map_some, Option.toList_some, List.cons_append, List.nil_append,
              List.map_append,
              List.map_cons, List.sum_append, List.sum_cons]
            omega
        obtain ⟨s', hreach, hw'', hidle'⟩ := ih _ hdecrease (hs.dequeue hok hr) hw' rfl
        have hallowed : OkNoEnqueue ⟨m, pre ++ .dequeue c :: post, tr⟩
          (.advance pre.length false) :=
          ⟨.intro hok, trivial⟩
        exact ⟨s', .head hallowed hstep hreach, hw'', hidle'⟩

/-- `Ok`, of an operation that runs alone. -/
def OkAlone (m : Memory α) : Op α Dequeue → Prop
  | .enqueue _ => True
  | .dequeue c => c.Ok m

/-- A call of `try_dequeue` that is run alone. -/
theorem reaches_of_completes (h : Completes Dequeue.advance
    (fun m c => c.Ok m) m tr .loadHead m' tr') :
    Reaches (consumer α).program.step OkNoEnqueue ⟨m, ops, tr⟩ ⟨m', ops, tr'⟩ := by
  have hall : Completes (consumer α).program.advance OkAlone m tr (.dequeue .loadHead) m' tr' :=
    (consumer α).completes h fun _ _ hok => hok
  refine .head (t := ⟨m, .dequeue .loadHead :: ops, tr⟩) (a := .call .tryDequeue)
    ⟨trivial, trivial⟩ rfl
    (hall.reaches (P := (consumer α).program) [] ops fun m tr o z hok =>
      ⟨fun o' ho' => ?_, trivial⟩)
  obtain rfl : o = o' := Option.some.inj ho'
  cases o with
  | enqueue e => trivial
  | dequeue c => exact hok

/-- An item that has a place is dequeued by enough calls, when no operation is in the way. -/
theorem exists_dequeued (hs : MatchesHistory s) (hw : NoWriter s.ops)
    (hidle : ∀ o ∈ s.ops, busyOp o = none) (hx : .placed x n ∈ s.trace) :
    ∃ s', Reaches (consumer α).program.step OkNoEnqueue s s' ∧ .dequeued x ∈ s'.trace := by
  induction hk : n + 1 - claims s.trace using Nat.strongRecOn generalizing s with
  | ind k ih =>
    by_cases hlt : n < claims s.trace
    · obtain ⟨b, i, hi, rfl⟩ := exists_place n
      obtain ⟨c, hc, hbusy⟩ | ⟨-, y, hy, hd⟩ := hs.consuming.settled b i ⟨hi, hlt⟩
      · exact absurd ((hidle _ hc).symm.trans hbusy) nofun
      · exact ⟨s, .start, hs.board.lawful.item_unique hx hy ▸ hd⟩
    · have hplaced := hs.board.lawful.placed_lt hx
      have hconsumed : ∀ b < s.mem.made, (s.mem.block b).consumed = (s.mem.block b).read := by
        intro b hb
        have hcounts := hs.consuming.counts b hb
        have hzero : s.ops.countP (busyIn b) = 0 := by
          refine List.countP_eq_zero.mpr fun o ho hbusy => ?_
          rw [busyIn, hidle o ho] at hbusy
          exact absurd hbusy Bool.false_ne_true
        omega
      obtain ⟨heq, -⟩ | ⟨y, -, m', hm'⟩ := completes hs.board
        (fun x n hx => enqueued_of_placed hs.board hs.producing hw hx) hconsumed
      · omega
      · have hreach : Reaches (consumer α).program.step OkNoEnqueue s ⟨m', s.ops, _⟩ :=
          reaches_of_completes hm'
        obtain ⟨s', hreach', hd⟩ := ih (n + 1 - (claims s.trace + 1)) (by omega)
          (hs.reaches (hreach.mono fun _ _ h => h.1)) hw hidle
          (List.mem_cons_of_mem _ (List.mem_cons_of_mem _ hx)) rfl
        exact ⟨s', hreach.trans hreach', hd⟩

/-- What the invariant says about a state. -/
theorem delivers_of_matchesHistory (hs : MatchesHistory s) : Delivers (consumer α) s where
  once := hs.board.lawful.dequeues_nodup
  kept x henqueued hclaimed := by
    refine ⟨kept_of_enqueued hs.board henqueued hclaimed, ?_⟩
    obtain ⟨n, hx⟩ := hs.board.lawful.placed_of_enqueued henqueued
    obtain ⟨s₁, hreach₁, hw₁, -⟩ := exists_noWriter (consumer α) OkNoEnqueue
      (fun _ _ _ _ _ _ _ => ⟨.intro trivial, trivial⟩) s
    have hs₁ := hs.reaches (hreach₁.mono fun _ _ h => h.1)
    obtain ⟨s₂, hreach₂, hw₂, hidle⟩ := exists_idle hs₁ hw₁
    have hreach := hreach₁.trans hreach₂
    obtain ⟨s₃, hreach₃, hd⟩ := exists_dequeued
      (hs₁.reaches (hreach₂.mono fun _ _ h => h.1)) hw₂ hidle
      (Program.mem_trace_of_reaches hreach hx)
    exact ⟨s₃, (hreach.trans hreach₃).mono fun _ _ h => h.2, hd⟩
  ordered x y hxy hp hy := hs.board.lawful.isClaimed_of_calledBefore hxy hp hy

end TaskQueue

/-! ## `MPSCQueue` -/

namespace MPSCQueue

variable {s : State α Dequeue} {c : Dequeue} {ops pre post : List (Op α Dequeue)}

/-- The allowed steps of a run in which nobody calls `enqueue`. -/
def OkNoEnqueue (s : State α Dequeue) (a : Action (Call α) Bool) : Prop :=
  AtAccess Ok s a ∧ NoEnqueue s a

/-- The consumer is in no call. -/
def NoConsumer (ops : List (Op α Dequeue)) : Prop := ∀ c, .dequeue c ∉ ops

theorem completes_graveyard (b : ℕ)
    (hrest : Completes Dequeue.advance Anything (TaskQueue.retired m b) tr .loadWrite m' tr') :
    Completes Dequeue.advance Anything m tr (.loadGraveyard b) m' tr' := by
  have hexchange : (Dequeue.exchangeGraveyard b m.graveyard).advance
    (m.setGraveyardNext b m.graveyard) false =
      some ⟨TaskQueue.retired m b, some .loadWrite, []⟩ := if_pos ⟨rfl, rfl⟩
  exact .moved (z := false) trivial rfl (.moved trivial hexchange hrest)

/-- A call that is in progress returns, when there is something to claim. -/
theorem completes_from (hb : Board m tr) (henqueued : ∀ x n, .placed x n ∈ tr → .enqueued x ∈ tr)
    (hlt : claims tr < QueueHistory.places tr) (hv : c.Valid m) :
    ∃ m' tr', Completes Dequeue.advance Anything m tr c m' tr' := by
  have hload {m : Memory α} (hb : Board m tr) :
      ∃ m' tr', Completes Dequeue.advance Anything m tr .loadWrite m' tr' := by
    obtain ⟨heq, -⟩ | ⟨x, -, m', hm'⟩ := completes hb henqueued (.inl hlt)
    · exact absurd heq (Nat.ne_of_lt hlt)
    · exact ⟨m', _, hm'⟩
  cases c with
  | loadWrite => exact hload hb
  | loadCommitted b i =>
    obtain ⟨rfl, rfl, hunread⟩ := hv
    obtain ⟨x, -, hslot⟩ := slot_of_unread hb henqueued hunread
    have htake : (Dequeue.loadCommitted m.head (m.block m.head).read).advance m false =
        some ⟨(m.setSlot m.head (m.block m.head).read ⟨none, true⟩).addRead m.head, none,
          [.claimed (place m.head (m.block m.head).read), .dequeued x]⟩ := by
      rw [Dequeue.advance, hslot]
      rfl
    exact ⟨_, _, .last trivial htake rfl⟩
  | loadNext w =>
    cases hnext : (m.block m.head).next with
    | none =>
      by_cases hw : blockSize < w
      · have hagain : (Dequeue.loadNext w).advance m false = some ⟨m, some .loadWrite, []⟩ := by
          rw [Dequeue.advance, hnext]
          exact if_pos hw
        obtain ⟨m', tr', hm'⟩ := hload hb
        exact ⟨m', tr', .moved trivial hagain hm'⟩
      · have hempty : (Dequeue.loadNext w).advance m false = some ⟨m, none, [.empty]⟩ := by
          rw [Dequeue.advance, hnext]
          exact if_neg hw
        exact ⟨m, _, .emitsLast trivial hempty⟩
    | some n =>
      obtain ⟨rfl, hmore⟩ := hb.wf.eq_succ_of_next hb.wf.head_lt hnext
      have hread := hv.2 (by rw [hnext]; exact Option.some_ne_none _)
      have hmove : (Dequeue.loadNext w).advance m false =
          some ⟨{ m with head := m.head + 1 }, some (.loadGraveyard m.head), []⟩ := by
        rw [Dequeue.advance, hnext]
      obtain ⟨m', tr', hm'⟩ := hload (TaskQueue.retired_board (hb.moveHead hread hmore) m.head)
      exact ⟨m', tr', .moved trivial hmove (completes_graveyard m.head hm')⟩
  | loadGraveyard b =>
    obtain ⟨m', tr', hm'⟩ := hload (TaskQueue.retired_board hb b)
    exact ⟨m', tr', completes_graveyard b hm'⟩
  | exchangeGraveyard b dead =>
    by_cases hdead : m.graveyard = dead ∧ false = false
    · have hexchange : (Dequeue.exchangeGraveyard b dead).advance m false =
          some ⟨{ m with graveyard := some b }, some .loadWrite, []⟩ := if_pos hdead
      obtain ⟨m', tr', hm'⟩ := hload (hb.setGraveyard (some b))
      exact ⟨m', tr', .moved trivial hexchange hm'⟩
    · have hagain : (Dequeue.exchangeGraveyard b dead).advance m false =
          some ⟨m.setGraveyardNext b m.graveyard, some (.exchangeGraveyard b m.graveyard), []⟩ :=
            if_neg hdead
      have hexchange : (Dequeue.exchangeGraveyard b m.graveyard).advance
        (m.setGraveyardNext b m.graveyard) false =
          some ⟨TaskQueue.retired m b, some .loadWrite, []⟩ := if_pos ⟨rfl, rfl⟩
      obtain ⟨m', tr', hm'⟩ := hload (TaskQueue.retired_board hb b)
      exact ⟨m', tr', .moved trivial hagain (.moved trivial hexchange hm')⟩

/-- The consumer runs alone. -/
theorem reaches_of_completes (pre post : List (Op α Dequeue))
    (h : Completes Dequeue.advance Anything m tr c m' tr') :
    Reaches (consumer α).program.step OkNoEnqueue ⟨m, pre ++ .dequeue c :: post, tr⟩
      ⟨m', pre ++ post, tr'⟩ := by
  have hall : Completes (consumer α).program.advance (fun _ o => ∃ c, o = .dequeue c) m tr
    (.dequeue c) m' tr' :=
    (consumer α).completes h fun _ c _ => ⟨c, rfl⟩
  refine hall.reaches (P := (consumer α).program) pre post fun m tr o z ho =>
    ⟨fun o' ho' => ?_, trivial⟩
  obtain ⟨c, rfl⟩ := ho
  obtain rfl : Op.dequeue c = o' := by simpa using ho'
  trivial

/-- An item that has a place is dequeued by enough calls, when no operation is in the way. -/
theorem exists_dequeued (hs : MatchesHistory s) (hw : NoWriter s.ops) (hidle : NoConsumer s.ops)
    (hx : .placed x n ∈ s.trace) :
    ∃ s', Reaches (consumer α).program.step OkNoEnqueue s s' ∧ .dequeued x ∈ s'.trace := by
  induction hk : n + 1 - claims s.trace using Nat.strongRecOn generalizing s with
  | ind k ih =>
    by_cases hlt : n < claims s.trace
    · obtain ⟨y, hy, hd⟩ := hs.settled n hlt
      exact ⟨s, .start, hs.board.lawful.item_unique hx hy ▸ hd⟩
    · have hplaced := hs.board.lawful.placed_lt hx
      obtain ⟨heq, -⟩ | ⟨y, -, m', hm'⟩ := completes hs.board
        (fun x n hx => enqueued_of_placed hs.board hs.producing hw hx) (.inl (by omega))
      · omega
      · have hcall : (consumer α).program.step s (.call .tryDequeue) =
            some ⟨s.mem, .dequeue .loadWrite :: s.ops, s.trace⟩ := by
          have hnone : (s.ops.any fun o => o.consumer.isSome) = false := by
            refine List.any_eq_false.mpr fun o ho hsome => ?_
            cases o with
            | enqueue e => exact absurd hsome Bool.false_ne_true
            | dequeue c => exact hidle c ho
          simp only [Program.step, Consumer.program, hnone, Bool.and_false,
            Bool.false_eq_true, if_false]
          rfl
        have hallowed : OkNoEnqueue s (.call .tryDequeue) := ⟨trivial, trivial⟩
        have hreach := Reaches.head hallowed hcall (reaches_of_completes [] s.ops hm')
        obtain ⟨s', hreach', hd⟩ := ih (n + 1 - (claims s.trace + 1)) (by omega)
          (hs.reaches (hreach.mono fun _ _ h => h.1)) hw hidle
          (List.mem_cons_of_mem _ (List.mem_cons_of_mem _ hx)) rfl
        exact ⟨s', hreach.trans hreach', hd⟩

/-- The call that is in progress returns, or the item is dequeued already. -/
theorem exists_noConsumer (hs : MatchesHistory s) (hw : NoWriter s.ops)
    (hx : .placed x n ∈ s.trace) :
    .dequeued x ∈ s.trace ∨
      ∃ s', Reaches (consumer α).program.step OkNoEnqueue s s' ∧ NoWriter s'.ops ∧
        NoConsumer s'.ops := by
  by_cases hlt : n < claims s.trace
  · obtain ⟨y, hy, hd⟩ := hs.settled n hlt
    exact .inl (hs.board.lawful.item_unique hx hy ▸ hd)
  · by_cases hidle : NoConsumer s.ops
    · exact .inr ⟨s, .start, hw, hidle⟩
    · simp only [NoConsumer, not_forall, not_not] at hidle
      obtain ⟨c, hc⟩ := hidle
      have hvalid := hs.valid c hc
      obtain ⟨pre, post, hops⟩ := List.append_of_mem hc
      obtain ⟨m, ops, tr⟩ := s
      subst hops
      have hplaced : n < QueueHistory.places tr := hs.board.lawful.placed_lt hx
      obtain ⟨m', tr', hm'⟩ := completes_from hs.board
        (fun x n hx => enqueued_of_placed hs.board hs.producing hw hx)
        (Nat.lt_of_le_of_lt (Nat.not_lt.mp hlt) hplaced) hvalid
      refine .inr ⟨_, reaches_of_completes pre post hm', fun x b i hmem => ?_, fun c' hc' => ?_⟩
      · exact hw x b i (mem_of_mem_append hmem)
      · exact hs.unique.others (o := Op.dequeue c) rfl _ hc' rfl

/-- What the invariant says about a state. -/
theorem delivers_of_matchesHistory (hs : MatchesHistory s) : Delivers (consumer α) s where
  once := hs.board.lawful.dequeues_nodup
  kept x henqueued hclaimed := by
    refine ⟨kept_of_enqueued hs.board henqueued hclaimed, ?_⟩
    obtain ⟨n, hx⟩ := hs.board.lawful.placed_of_enqueued henqueued
    obtain ⟨s₁, hreach₁, hw₁, -⟩ := exists_noWriter (consumer α) OkNoEnqueue
      (fun _ _ _ _ _ _ _ => ⟨.intro trivial, trivial⟩) s
    have hs₁ := hs.reaches (hreach₁.mono fun _ _ h => h.1)
    have hx₁ := Program.mem_trace_of_reaches hreach₁ hx
    obtain hd | ⟨s₂, hreach₂, hw₂, hidle⟩ := exists_noConsumer hs₁ hw₁ hx₁
    · exact ⟨s₁, hreach₁.mono fun _ _ h => h.2, hd⟩
    · obtain ⟨s₃, hreach₃, hd⟩ := exists_dequeued
        (hs₁.reaches (hreach₂.mono fun _ _ h => h.1)) hw₂ hidle
        (Program.mem_trace_of_reaches hreach₂ hx₁)
      exact ⟨s₃, ((hreach₁.trans hreach₂).trans hreach₃).mono fun _ _ h => h.2, hd⟩
  ordered x y hxy hp hy := hs.board.lawful.isClaimed_of_calledBefore hxy hp hy

end MPSCQueue

/-! ## Every run -/

/-- **Every item is delivered once, and none is lost**, in every run in which `head` leaves only
blocks that are read, or in which no block is linked behind the consumer's back. -/
theorem delivers_of_reaches :
    (∀ s : State α TaskQueue.Dequeue,
      Reaches (TaskQueue.consumer α).program.step (AtAccess TaskQueue.Ok) start s →
        Delivers (TaskQueue.consumer α) s) ∧
    ∀ s : State α MPSCQueue.Dequeue,
      Reaches (MPSCQueue.consumer α).program.step (AtAccess MPSCQueue.Ok) start s →
        Delivers (MPSCQueue.consumer α) s :=
  ⟨fun _ h => TaskQueue.delivers_of_matchesHistory (TaskQueue.matchesHistory_of_reaches h),
    fun _ h => MPSCQueue.delivers_of_matchesHistory (MPSCQueue.matchesHistory_of_reaches h)⟩

/-! ### Runs -/

/-- A producer's call of `enqueue`, when there is room. -/
def enqueueOne : List (Action (Call Unit) Bool) :=
  .call (.enqueue 0 ()) :: List.replicate 3 (.advance 0 false)

/-- One item is enqueued, and a consumer has loaded `head`. -/
def enqueuedOne : List (Action (Call Unit) Bool) :=
  enqueueOne ++ [.call .tryDequeue, .advance 0 false]

theorem delivers_of_reaches_enqueuedOne :
    (∃ s, exec (TaskQueue.consumer Unit).program.step start enqueuedOne = some s ∧
      Delivers (TaskQueue.consumer Unit) s ∧ .enqueued ⟨0, 0, ()⟩ ∈ s.trace) ∧
    ∃ s, exec (MPSCQueue.consumer Unit).program.step start enqueuedOne = some s ∧
      Delivers (MPSCQueue.consumer Unit) s ∧ .enqueued ⟨0, 0, ()⟩ ∈ s.trace := by
  have htask : (exec (TaskQueue.consumer Unit).program.step start enqueuedOne).any (fun s =>
      decide (.enqueued ⟨0, 0, ()⟩ ∈ s.trace)) = true := by decide +kernel
  have hmpsc : (exec (MPSCQueue.consumer Unit).program.step start enqueuedOne).any (fun s =>
      decide (.enqueued ⟨0, 0, ()⟩ ∈ s.trace)) = true := by decide +kernel
  obtain ⟨s, hs, hx⟩ := (Option.any_eq_true _ _).mp htask
  obtain ⟨s', hs', hx'⟩ := (Option.any_eq_true _ _).mp hmpsc
  have hok : execOk (TaskQueue.consumer Unit).program.step
    (AtAccess TaskQueue.Ok) start enqueuedOne := by
    decide +kernel
  have hok' : execOk (MPSCQueue.consumer Unit).program.step
    (AtAccess MPSCQueue.Ok) start enqueuedOne := by
    decide +kernel
  exact ⟨⟨s, hs, delivers_of_reaches.1 s (reaches_of_exec hs hok), of_decide_eq_true hx⟩,
    ⟨s', hs', delivers_of_reaches.2 s' (reaches_of_exec hs' hok'), of_decide_eq_true hx'⟩⟩

/-- A consumer does `before` accesses, a producer enqueues 64 items and links a block for the next,
and the consumer does `after` accesses more. -/
def filled (before after : ℕ) : List (Action (Call Unit) Bool) :=
  .call .tryDequeue :: List.replicate before (.advance 0 false) ++
    ((List.replicate 65 enqueueOne).flatten ++ List.replicate after (.advance 1 false))

/-- The first item is enqueued and not claimed, and `head` is at the last block, which is new. -/
def loses (s : State Unit γ) : Bool :=
  decide (.enqueued ⟨0, 0, ()⟩ ∈ s.trace) && (s.trace.all fun
    | .claimed _ => false
    | _ => true) &&
  decide ((s.mem.block s.mem.head).next = none) &&
  decide (∀ i < blockSize, ((s.mem.block s.mem.head).slots i).storage = none)

theorem not_delivers_of_loses {C : Consumer Unit γ} {s : State Unit γ} (h : loses s = true) :
    ¬ Delivers C s := by
  simp only [loses, Bool.and_eq_true, decide_eq_true_eq] at h
  obtain ⟨⟨⟨henqueued, hnone⟩, hnext⟩, hslots⟩ := h
  intro hdelivers
  have hclaimed : ¬ IsClaimed ⟨0, 0, ()⟩ s.trace := by
    rintro ⟨n, -, hn⟩
    exact absurd (List.all_eq_true.mp hnone _ hn) Bool.false_ne_true
  obtain ⟨⟨b, i, hlinked, -, hi, hslot⟩, -⟩ := hdelivers.kept _ henqueued hclaimed
  obtain rfl : s.mem.head = b := by
    obtain heq | ⟨b', hb', -⟩ := hlinked.cases_head
    · exact heq
    · exact absurd (hnext.symm.trans hb') nofun
  have hempty := hslots i hi
  rw [hslot] at hempty
  exact absurd hempty nofun

/-- A `try_dequeue` that has found the first block empty, and the next block when it was full, moves
`head` to that one: 64 items are lost, in either queue. -/
theorem not_delivers_filled :
    ¬ ((∀ s : State Unit TaskQueue.Dequeue,
        Reaches (TaskQueue.consumer Unit).program.step Always start s →
          Delivers (TaskQueue.consumer Unit) s) ∨
      ∀ s : State Unit MPSCQueue.Dequeue,
        Reaches (MPSCQueue.consumer Unit).program.step Always start s →
          Delivers (MPSCQueue.consumer Unit) s) := by
  have htask : (exec (TaskQueue.consumer Unit).program.step start (filled 4 2)).any
    loses = true := by
    decide +kernel
  have hmpsc : (exec (MPSCQueue.consumer Unit).program.step start (filled 1 1)).any
    loses = true := by
    decide +kernel
  obtain ⟨s, hs, hloses⟩ := (Option.any_eq_true _ _).mp htask
  obtain ⟨s', hs', hloses'⟩ := (Option.any_eq_true _ _).mp hmpsc
  rintro (h | h)
  · exact not_delivers_of_loses hloses (h s (reaches_always_of_exec hs))
  · exact not_delivers_of_loses hloses' (h s' (reaches_always_of_exec hs'))

end Queue
end Scheduler
end NUClear
