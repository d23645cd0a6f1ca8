import NUClear.Scheduler.Queue.TaskQueue
import NUClear.Scheduler.Queue.MPSCQueue

/-!
# Operations run alone

An `enqueue` that is run alone returns, and so does a `try_dequeue` of either queue when every item
that has a place is enqueued and no consumer is busy: it takes the item of the first place that is
not claimed, or returns false when there is none.

The state need not be one in which every call before was run alone: other calls may be stopped at
any of their accesses, and blocks may be linked of which `tail` does not know yet.  An `enqueue`
helps to move `tail` along these (`Enqueue.completes_of_full`), and the induction is on the number
of blocks behind `tail`; a `try_dequeue` moves `head` over blocks that are read
(`completes_of_read`), and the induction is on the number of blocks behind `head`.

A call is followed access by access (`Completes`), with no weak exchange failing.  What each ends
with is said by the memory and by the events that it has added to the history.

* `Enqueue.completes`: an `enqueue` places its item and commits it.
* `TaskQueue.completes`, `MPSCQueue.completes`: a `try_dequeue` returns.  The consumer of an
  `MPSCQueue` waits for the next block when a producer is beyond the slots of the last, so there the
  last block must have no such producer, or an item.

`Delivery` uses them to show that an item is not lost, and `Sequential` to show that calls return.
-/

namespace NUClear
namespace Scheduler
namespace Queue

open Foundation QueueHistory

variable {α : Type} {m m' : Memory α} {tr tr' : List (QueueEvent (Item α))} {x : Item α} {b i n : ℕ}

/-- Every access is allowed. -/
def Anything {ο : Type} (_ : Memory α) (_ : ο) : Prop := True

/-! ## `enqueue` -/

/-- The block at `tail` has room. -/
theorem Enqueue.completes_of_room (hw : (m.block m.tail).write < blockSize) :
    ∃ m' n, Completes Enqueue.advance Anything m tr (.loadTail x) m'
      (.enqueued x :: .placed x n :: tr) := by
  have hadd : (Enqueue.addWrite x m.tail).advance m false = some ⟨(m.addWrite m.tail).setSlot m.tail
      (m.block m.tail).write { (m.block m.tail).slots (m.block m.tail).write with
        storage := some x },
      some (.storeCommitted x m.tail (m.block m.tail).write),
        [.placed x (place m.tail (m.block m.tail).write)]⟩ :=
    if_pos hw
  exact ⟨_, _, .moved (z := false) trivial rfl
    (.emits trivial hadd (.emitsLast (z := false) trivial rfl))⟩

/-- The next block is linked, and `tail` is moved to it. -/
theorem Enqueue.completes_of_full (hb : Board m tr) (hw : blockSize ≤ (m.block m.tail).write)
    (hrest : Completes Enqueue.advance Anything
      { (m.addWrite m.tail).linkNextBlock m.tail with tail := m.tail + 1 } tr
      (.loadTail x) m' tr') :
    Completes Enqueue.advance Anything m tr (.loadTail x) m' tr' := by
  have hb₁ := hb.addWrite hw
  have htail : ((m.addWrite m.tail).linkNextBlock m.tail).tail = m.tail := by
    rw [Memory.linkNextBlock]
    split_ifs <;> rfl
  have hnext : (((m.addWrite m.tail).linkNextBlock m.tail).block m.tail).next = some (m.tail + 1) :=
    hb₁.wf.next_linkNextBlock hb.wf.tail_lt
  have hadd : (Enqueue.addWrite x m.tail).advance m false =
      some ⟨m.addWrite m.tail, some (.linkNext x m.tail), []⟩ := if_neg (Nat.not_lt.mpr hw)
  have hload : (Enqueue.loadNext x m.tail).advance
    ((m.addWrite m.tail).linkNextBlock m.tail) false =
      some ⟨(m.addWrite m.tail).linkNextBlock m.tail,
        some (.reloadTail x m.tail (m.tail + 1)), []⟩ := by
    rw [Enqueue.advance, hnext, Option.map_some]
  have hreload : (Enqueue.reloadTail x m.tail (m.tail + 1)).advance
      ((m.addWrite m.tail).linkNextBlock m.tail) false =
        some ⟨(m.addWrite m.tail).linkNextBlock m.tail,
          some (.exchangeTail x m.tail (m.tail + 1)), []⟩ := by
    rw [Enqueue.advance, if_pos htail]
  have hexchange : (Enqueue.exchangeTail x m.tail (m.tail + 1)).advance
      ((m.addWrite m.tail).linkNextBlock m.tail) false =
        some ⟨{ (m.addWrite m.tail).linkNextBlock m.tail with tail := m.tail + 1 },
          some (.loadTail x), []⟩ := by
    rw [Enqueue.advance, if_pos htail]
    rfl
  exact .moved (z := false) trivial rfl (.moved trivial hadd (.moved (z := false) trivial rfl
    (.moved trivial hload (.moved trivial hreload (.moved trivial hexchange hrest)))))

/-- **An `enqueue` that is run alone returns**, and its item has a place and is committed. -/
theorem Enqueue.completes (hb : Board m tr) :
    ∃ m' n, Completes Enqueue.advance Anything m tr (.loadTail x) m'
      (.enqueued x :: .placed x n :: tr) := by
  -- the blocks from `tail` on that have no room
  induction hk : 2 * (m.made - m.tail) + (if (m.block m.tail).write < blockSize then 0 else 1)
    using Nat.strongRecOn generalizing m with
  | ind k ih =>
    by_cases hw : (m.block m.tail).write < blockSize
    · exact completes_of_room hw
    · rw [if_neg hw] at hk
      replace hw := Nat.not_lt.mp hw
      have hb₁ := hb.addWrite hw
      have hw₁ : blockSize ≤ ((m.addWrite m.tail).block m.tail).write := by
        rw [Memory.addWrite_write]
        exact Nat.le_trans hw (Nat.le_add_right _ _)
      have hb₂ := hb₁.linkNextBlock hb.wf.tail_lt hw₁
      have hnext := hb₁.wf.next_linkNextBlock hb.wf.tail_lt
      have hmore : m.tail + 1 < ((m.addWrite m.tail).linkNextBlock m.tail).made := by
        have hlt : m.tail < ((m.addWrite m.tail).linkNextBlock m.tail).made := by
          rw [Memory.linkNextBlock]
          split_ifs
          · exact Nat.lt_succ_of_lt hb.wf.tail_lt
          · exact hb.wf.tail_lt
        exact (hb₂.wf.eq_succ_of_next hlt hnext).2
      have hb₃ := hb₂.moveTail hmore
      have hlt := hb.wf.tail_lt
      have hdecrease : 2 * (((m.addWrite m.tail).linkNextBlock m.tail).made - (m.tail + 1)) +
          (if (((m.addWrite m.tail).linkNextBlock m.tail).block (m.tail + 1)).write <
            blockSize then 0 else 1) <
            2 * (m.made - m.tail) + 1 := by
        by_cases hlast : ((m.addWrite m.tail).block m.tail).next = none
        · have hmade : ((m.addWrite m.tail).linkNextBlock m.tail).made = m.made + 1 := by
            rw [Memory.linkNextBlock, if_pos hlast]
            rfl
          have heq : m.tail + 1 = (m.addWrite m.tail).made :=
            (hb₁.wf.next_eq_none_iff hb.wf.tail_lt).mp hlast
          have hnew := Memory.linkNextBlock_made (m := m.addWrite m.tail) hb.wf.tail_lt hlast
          replace heq : m.tail + 1 = m.made := heq
          rw [hmade, heq, show ((m.addWrite m.tail).linkNextBlock m.tail).block
            m.made = {} from hnew,
            if_pos (show 0 < blockSize by decide)]
          omega
        · have hmade : ((m.addWrite m.tail).linkNextBlock m.tail).made = m.made := by
            rw [Memory.linkNextBlock, if_neg hlast]
            rfl
          rw [hmade]
          split_ifs <;> omega
      obtain ⟨m', n, hrest⟩ := ih _ (hk ▸ hdecrease) hb₃ rfl
      exact ⟨m', n, completes_of_full hb hw hrest⟩

/-! ## The first place that is not claimed -/

/-- The slot of the first place that is not claimed holds its item, committed, when every item that
has a place is enqueued. -/
theorem slot_of_unread (hb : Board m tr) (henqueued : ∀ x n, .placed x n ∈ tr → .enqueued x ∈ tr)
    (hlt : (m.block m.head).read < min (m.block m.head).write blockSize) :
    ∃ x, .placed x (claims tr) ∈ tr ∧ (m.block m.head).slots (m.block m.head).read =
      ⟨some x, true⟩ := by
  have hi : (m.block m.head).read < blockSize := by omega
  obtain ⟨x, hx, hnew, hstored⟩ := hb.exists_unread hlt
  have hx' : .placed x (place m.head (m.block m.head).read) ∈ tr := by
    rw [hb.claims] at hx
    exact hx
  have hcommitted := (hb.holds.committed x _ _ hi hx' hnew).mpr (henqueued x _ hx)
  refine ⟨x, hx, ?_⟩
  cases hslot : (m.block m.head).slots (m.block m.head).read with
  | mk storage committed =>
    rw [hslot] at hstored hcommitted
    rw [show storage = some x from hstored, show committed = true from hcommitted]

/-- When the last block is read as far as it is written, all places are claimed. -/
theorem claims_eq_places (hb : Board m tr)
    (hr : (m.block m.head).read = min (m.block m.head).write blockSize)
    (hlast : m.head + 1 = m.made) :
    claims tr = QueueHistory.places tr := by
  have hmade : m.made - 1 = m.head := by omega
  rw [hb.claims, hb.places, Memory.claims, Memory.places, hmade, hr]

/-! ## `TaskQueue` -/

namespace TaskQueue

/-- `retire_block`: the memory after it. -/
def retired (m : Memory α) (b : ℕ) : Memory α :=
  { m.setGraveyardNext b m.graveyard with graveyard := some b }

/-- `retire_block`, at the end of a call. -/
theorem completes_retire (m : Memory α) (tr : List (QueueEvent (Item α))) (b : ℕ) :
    Completes Dequeue.advance (fun m c => c.Ok m) m tr (.loadGraveyard b true)
      (retired m b) tr := by
  have hexchange : (Dequeue.exchangeGraveyard b m.graveyard true).advance
    (m.setGraveyardNext b m.graveyard) false =
      some ⟨retired m b, none, []⟩ := if_pos ⟨rfl, rfl⟩
  exact .moved (z := false) trivial rfl (.returned trivial hexchange)

/-- `try_reclaim_block`. -/
theorem completes_reclaim (m : Memory α) (tr : List (QueueEvent (Item α))) (b : ℕ) :
    ∃ m', Completes Dequeue.advance (fun m c => c.Ok m) m tr (.reclaimConsumed b) m' tr := by
  by_cases hconsumed : (m.block b).consumed = blockSize
  swap
  · have hstop : (Dequeue.reclaimConsumed b).advance m false = some ⟨m, none, []⟩ := by
      rw [Dequeue.advance, if_neg hconsumed]
    exact ⟨m, .returned trivial hstop⟩
  have hgo : (Dequeue.reclaimConsumed b).advance m false = some ⟨m, some (.reclaimHead b), []⟩ := by
    rw [Dequeue.advance, if_pos hconsumed]
  by_cases hhead : m.head = b
  swap
  · have hstop : (Dequeue.reclaimHead b).advance m false = some ⟨m, none, []⟩ := by
      rw [Dequeue.advance, if_neg hhead]
    exact ⟨m, .moved trivial hgo (.returned trivial hstop)⟩
  have hgo' : (Dequeue.reclaimHead b).advance m false = some ⟨m, some (.reclaimNext b), []⟩ := by
    rw [Dequeue.advance, if_pos hhead]
  cases hnext : (m.block b).next with
  | none =>
    have hstop : (Dequeue.reclaimNext b).advance m false = some ⟨m, none, []⟩ := by
      rw [Dequeue.advance, hnext]
      rfl
    exact ⟨m, .moved trivial hgo (.moved trivial hgo' (.returned trivial hstop))⟩
  | some n =>
    have hload : (Dequeue.reclaimNext b).advance m false =
      some ⟨m, some (.reclaimExchange b n), []⟩ := by
      rw [Dequeue.advance, hnext]
      rfl
    have hexchange : (Dequeue.reclaimExchange b n).advance m false =
        some ⟨{ m with head := n }, some (.loadGraveyard b true), []⟩ := if_pos hhead
    exact ⟨_, .moved trivial hgo (.moved trivial hgo' (.moved trivial hload
      (.moved trivial hexchange (completes_retire _ tr b))))⟩

/-- The head block has a slot that is not claimed, and its item is there. -/
theorem completes_of_unread (tr : List (QueueEvent (Item α)))
    (hlt : (m.block m.head).read < min (m.block m.head).write blockSize)
    (hslot : (m.block m.head).slots (m.block m.head).read = ⟨some x, true⟩) :
    ∃ m', Completes Dequeue.advance (fun m c => c.Ok m) m tr .loadHead m'
      (.dequeued x :: .claimed (place m.head (m.block m.head).read) :: tr) := by
  have hread : (Dequeue.loadRead m.head (min (m.block m.head).write blockSize)).advance m false =
      some ⟨m, some (.exchangeRead m.head (m.block m.head).read), []⟩ := if_neg (Nat.not_le.mpr hlt)
  have hclaim : (Dequeue.exchangeRead m.head (m.block m.head).read).advance m false =
      some ⟨m.addRead m.head, some (.loadCommitted m.head (m.block m.head).read),
        [.claimed (place m.head (m.block m.head).read)]⟩ := if_pos ⟨rfl, rfl⟩
  have htake : (Dequeue.loadCommitted m.head (m.block m.head).read).advance
    (m.addRead m.head) false =
      some ⟨(m.addRead m.head).setSlot m.head (m.block m.head).read ⟨none, true⟩,
        some (.clearCommitted m.head (m.block m.head).read), [.dequeued x]⟩ := by
    rw [Dequeue.advance, Memory.addRead_slots, hslot]
    rfl
  let m₂ := (m.addRead m.head).setSlot m.head (m.block m.head).read ⟨none, true⟩
  let m₃ := m₂.setSlot m.head (m.block m.head).read
    { (m₂.block m.head).slots (m.block m.head).read with committed := false }
  have hrest : ∃ m', Completes Dequeue.advance (fun m c => c.Ok m) m₃
      (.dequeued x :: .claimed (place m.head (m.block m.head).read) :: tr)
      (.addConsumed m.head (m.block m.head).read) m'
      (.dequeued x :: .claimed (place m.head (m.block m.head).read) :: tr) := by
    by_cases hall : (m₃.block m.head).consumed + 1 = blockSize
    · have hcount : (Dequeue.addConsumed m.head (m.block m.head).read).advance m₃ false =
          some ⟨m₃.addConsumed m.head, some (.reclaimConsumed m.head), []⟩ := by
        rw [Dequeue.advance, if_pos hall]
      obtain ⟨m', hm'⟩ := completes_reclaim (m₃.addConsumed m.head)
        (.dequeued x :: .claimed (place m.head (m.block m.head).read) :: tr) m.head
      exact ⟨m', .moved trivial hcount hm'⟩
    · have hcount : (Dequeue.addConsumed m.head (m.block m.head).read).advance m₃ false =
          some ⟨m₃.addConsumed m.head, none, []⟩ := by
        rw [Dequeue.advance, if_neg hall]
      exact ⟨_, .returned trivial hcount⟩
  obtain ⟨m', hm'⟩ := hrest
  exact ⟨m', .moved (z := false) trivial rfl (.moved (z := false) trivial rfl (.moved trivial hread
    (.emits trivial hclaim (.emits trivial htake (.moved (z := false) trivial rfl hm')))))⟩

/-- The head block is read, and there is another. -/
theorem completes_of_read (hb : Board m tr) (hr : (m.block m.head).read = blockSize)
    (hconsumed : (m.block m.head).consumed = (m.block m.head).read) (hn : m.head + 1 < m.made)
    (hrest : Completes Dequeue.advance (fun m c => c.Ok m)
    (retired { m with head := m.head + 1 } m.head) tr
      .loadHead m' tr') :
    Completes Dequeue.advance (fun m c => c.Ok m) m tr .loadHead m' tr' := by
  have hfull : min (m.block m.head).write blockSize = blockSize :=
    Nat.min_eq_right (hb.wf.full m.head hn)
  have hread : (Dequeue.loadRead m.head (min (m.block m.head).write blockSize)).advance m false =
      some ⟨m, some (.loadConsumed m.head (min (m.block m.head).write blockSize)), []⟩ :=
        if_pos (by omega)
  have hdone : (Dequeue.loadConsumed m.head (min (m.block m.head).write blockSize)).advance m
    false =
      some ⟨m, some (.loadNext m.head (min (m.block m.head).write blockSize)), []⟩ :=
        if_neg (by omega)
  have hnext : (Dequeue.loadNext m.head (min (m.block m.head).write blockSize)).advance m false =
      some ⟨m, some (.exchangeHead m.head (m.head + 1)), []⟩ := by
    rw [Dequeue.advance, hb.wf.next m.head hb.wf.head_lt, if_pos hn]
  have hmove : (Dequeue.exchangeHead m.head (m.head + 1)).advance m false =
      some ⟨{ m with head := m.head + 1 }, some (.loadGraveyard m.head false), []⟩ := if_pos rfl
  have hexchange : (Dequeue.exchangeGraveyard m.head m.graveyard false).advance
      (({ m with head := m.head + 1 } : Memory α).setGraveyardNext m.head m.graveyard) false =
        some ⟨retired { m with head := m.head + 1 } m.head, some .loadHead, []⟩ := if_pos ⟨rfl, rfl⟩
  exact .moved (z := false) trivial rfl (.moved (z := false) trivial rfl (.moved trivial hread
    (.moved trivial hdone (.moved trivial hnext (.moved (fun _ => hr) hmove
      (.moved (z := false) trivial rfl (.moved trivial hexchange hrest)))))))

/-- All places are claimed. -/
theorem completes_of_last (hb : Board m tr)
    (hr : (m.block m.head).read = min (m.block m.head).write blockSize)
    (hconsumed : (m.block m.head).consumed = (m.block m.head).read) (hlast : m.head + 1 = m.made) :
    Completes Dequeue.advance (fun m c => c.Ok m) m tr .loadHead m (.empty :: tr) := by
  have hread : (Dequeue.loadRead m.head (min (m.block m.head).write blockSize)).advance m false =
      some ⟨m, some (.loadConsumed m.head (min (m.block m.head).write blockSize)), []⟩ :=
        if_pos (by omega)
  have hdone : (Dequeue.loadConsumed m.head (min (m.block m.head).write blockSize)).advance m
    false =
      some ⟨m, some (.loadNext m.head (min (m.block m.head).write blockSize)), []⟩ :=
        if_neg (by omega)
  have hnone : (m.block m.head).next = none := (hb.wf.next_eq_none_iff hb.wf.head_lt).mpr hlast
  by_cases hzero : min (m.block m.head).write blockSize = 0
  · have hnext : (Dequeue.loadNext m.head (min (m.block m.head).write blockSize)).advance m false =
        some ⟨m, some (.reloadWrite m.head), []⟩ := by
      rw [Dequeue.advance, hnone]
      exact if_pos hzero
    have hreload : (Dequeue.reloadWrite m.head).advance m false = some ⟨m, none, [.empty]⟩ := by
      refine if_neg ?_
      simp only [blockSize] at hzero
      omega
    exact .moved (z := false) trivial rfl (.moved (z := false) trivial rfl (.moved trivial hread
      (.moved trivial hdone (.moved trivial hnext (.emitsLast trivial hreload)))))
  · have hnext : (Dequeue.loadNext m.head (min (m.block m.head).write blockSize)).advance m false =
        some ⟨m, none, [.empty]⟩ := by
      rw [Dequeue.advance, hnone]
      exact if_neg hzero
    exact .moved (z := false) trivial rfl (.moved (z := false) trivial rfl (.moved trivial hread
      (.moved trivial hdone (.emitsLast trivial hnext))))

theorem retired_board (hb : Board m tr) (b : ℕ) : Board (retired m b) tr :=
  (hb.setGraveyardNext _).setGraveyard _

/-- **A `try_dequeue` that is run alone returns**: the item of the first place that is not claimed,
or false if there is none. -/
theorem completes (hb : Board m tr) (henqueued : ∀ x n, .placed x n ∈ tr → .enqueued x ∈ tr)
    (hconsumed : ∀ b < m.made, (m.block b).consumed = (m.block b).read) :
    (claims tr = QueueHistory.places tr ∧
      ∃ m', Completes Dequeue.advance (fun m c => c.Ok m) m tr .loadHead m' (.empty :: tr)) ∨
    ∃ x, .placed x (claims tr) ∈ tr ∧ ∃ m',
      Completes Dequeue.advance (fun m c => c.Ok m) m tr .loadHead m'
      (.dequeued x :: .claimed (claims tr) :: tr) := by
  induction hk : m.made - m.head generalizing m with
  | zero => exact absurd hb.wf.head_lt (by omega)
  | succ k ih =>
    have hle := hb.wf.read_le m.head hb.wf.head_lt
    by_cases hlt : (m.block m.head).read < min (m.block m.head).write blockSize
    · obtain ⟨x, hx, hslot⟩ := slot_of_unread hb henqueued hlt
      have hclaims : place m.head (m.block m.head).read = claims tr := hb.claims.symm
      obtain ⟨m', hm'⟩ := completes_of_unread tr hlt hslot
      exact .inr ⟨x, hx, m', hclaims ▸ hm'⟩
    · have hr : (m.block m.head).read = min (m.block m.head).write blockSize := by omega
      have hhead := hconsumed m.head hb.wf.head_lt
      by_cases hlast : m.head + 1 = m.made
      · exact .inl ⟨claims_eq_places hb hr hlast, m, completes_of_last hb hr hhead hlast⟩
      · have hmore : m.head + 1 < m.made := by
          have hlt := hb.wf.head_lt
          omega
        have hfull := hb.wf.full m.head hmore
        have hread : (m.block m.head).read = blockSize := by omega
        have hcounts : ∀ b < m.made, ((retired { m with head := m.head + 1 } m.head).block
          b).consumed =
            ((retired { m with head := m.head + 1 } m.head).block b).read := by
          intro b hbm
          have hc := Memory.setGraveyardNext_consumed { m with
            head := m.head + 1 } m.head b m.graveyard
          have hr := (Same.setGraveyardNext (m := { m with head := m.head + 1 })
            (b := m.head) m.graveyard).read b
          exact hc.trans ((hconsumed b hbm).trans hr.symm)
        obtain ⟨heq, m', hm'⟩ | ⟨x, hx, m', hm'⟩ :=
          ih (retired_board (hb.moveHead hread hmore) m.head) hcounts
          (by show m.made - (m.head + 1) = k; omega)
        · exact .inl ⟨heq, m', completes_of_read hb hread hhead hmore hm'⟩
        · exact .inr ⟨x, hx, m', completes_of_read hb hread hhead hmore hm'⟩

end TaskQueue

/-! ## `MPSCQueue` -/

namespace MPSCQueue

theorem completes_of_unread (tr : List (QueueEvent (Item α)))
    (hlt : (m.block m.head).read < min (m.block m.head).write blockSize)
    (hslot : (m.block m.head).slots (m.block m.head).read = ⟨some x, true⟩) :
    ∃ m', Completes Dequeue.advance Anything m tr .loadWrite m'
      (.dequeued x :: .claimed (place m.head (m.block m.head).read) :: tr) := by
  have hload : Dequeue.loadWrite.advance m false =
      some ⟨m, some (.loadCommitted m.head (m.block m.head).read), []⟩ := if_pos hlt
  have htake : (Dequeue.loadCommitted m.head (m.block m.head).read).advance m false =
      some ⟨(m.setSlot m.head (m.block m.head).read ⟨none, true⟩).addRead m.head, none,
        [.claimed (place m.head (m.block m.head).read), .dequeued x]⟩ := by
    rw [Dequeue.advance, hslot]
    rfl
  exact ⟨_, .moved trivial hload (.last trivial htake rfl)⟩

theorem completes_of_read (hb : Board m tr) (hr : (m.block m.head).read = blockSize)
    (hn : m.head + 1 < m.made)
    (hrest : Completes Dequeue.advance Anything
    (TaskQueue.retired { m with head := m.head + 1 } m.head) tr
      .loadWrite m' tr') :
    Completes Dequeue.advance Anything m tr .loadWrite m' tr' := by
  have hfull := hb.wf.full m.head hn
  have hload : Dequeue.loadWrite.advance m false =
    some ⟨m, some (.loadNext (m.block m.head).write), []⟩ :=
    if_neg (by omega)
  have hnext : (Dequeue.loadNext (m.block m.head).write).advance m false =
      some ⟨{ m with head := m.head + 1 }, some (.loadGraveyard m.head), []⟩ := by
    rw [Dequeue.advance, hb.wf.next m.head hb.wf.head_lt, if_pos hn]
  have hexchange : (Dequeue.exchangeGraveyard m.head m.graveyard).advance
      (({ m with head := m.head + 1 } : Memory α).setGraveyardNext m.head m.graveyard) false =
        some ⟨TaskQueue.retired { m with head := m.head + 1 } m.head, some .loadWrite, []⟩ :=
          if_pos ⟨rfl, rfl⟩
  exact .moved trivial hload (.moved trivial hnext (.moved (z := false) trivial rfl
    (.moved trivial hexchange hrest)))

/-- The last block is read, and no producer is beyond its slots. -/
theorem completes_of_last (hb : Board m tr)
    (hr : (m.block m.head).read = min (m.block m.head).write blockSize)
    (hlast : m.head + 1 = m.made) (hw : (m.block m.head).write ≤ blockSize) :
    Completes Dequeue.advance Anything m tr .loadWrite m (.empty :: tr) := by
  have hload : Dequeue.loadWrite.advance m false =
    some ⟨m, some (.loadNext (m.block m.head).write), []⟩ :=
    if_neg (by omega)
  have hnone : (m.block m.head).next = none := (hb.wf.next_eq_none_iff hb.wf.head_lt).mpr hlast
  have hnext : (Dequeue.loadNext (m.block m.head).write).advance m false =
    some ⟨m, none, [.empty]⟩ := by
    rw [Dequeue.advance, hnone]
    exact if_neg (Nat.not_lt.mpr hw)
  exact .moved trivial hload (.emitsLast trivial hnext)

/-- **A `try_dequeue` that is run alone returns.**  It waits for the next block when a producer is
beyond the slots of the last. -/
theorem completes (hb : Board m tr) (henqueued : ∀ x n, .placed x n ∈ tr → .enqueued x ∈ tr)
    (hw : claims tr < QueueHistory.places tr ∨ (m.block (m.made - 1)).write ≤ blockSize) :
    (claims tr = QueueHistory.places tr ∧
      ∃ m', Completes Dequeue.advance Anything m tr .loadWrite m' (.empty :: tr)) ∨
    ∃ x, .placed x (claims tr) ∈ tr ∧ ∃ m', Completes Dequeue.advance Anything m tr .loadWrite m'
      (.dequeued x :: .claimed (claims tr) :: tr) := by
  induction hk : m.made - m.head generalizing m with
  | zero => exact absurd hb.wf.head_lt (by omega)
  | succ k ih =>
    have hle := hb.wf.read_le m.head hb.wf.head_lt
    by_cases hlt : (m.block m.head).read < min (m.block m.head).write blockSize
    · obtain ⟨x, hx, hslot⟩ := slot_of_unread hb henqueued hlt
      have hclaims : place m.head (m.block m.head).read = claims tr := hb.claims.symm
      obtain ⟨m', hm'⟩ := completes_of_unread tr hlt hslot
      exact .inr ⟨x, hx, m', hclaims ▸ hm'⟩
    · have hr : (m.block m.head).read = min (m.block m.head).write blockSize := by omega
      by_cases hlast : m.head + 1 = m.made
      · have hall := claims_eq_places hb hr hlast
        have hmade : m.made - 1 = m.head := by omega
        have hroom := hw.resolve_left (by omega)
        exact .inl ⟨hall, m, completes_of_last hb hr hlast (hmade ▸ hroom)⟩
      · have hmore : m.head + 1 < m.made := by
          have hlt := hb.wf.head_lt
          omega
        have hfull := hb.wf.full m.head hmore
        have hread : (m.block m.head).read = blockSize := by omega
        have hwrite : ((TaskQueue.retired { m with head := m.head + 1 } m.head).block
          (m.made - 1)).write =
            (m.block (m.made - 1)).write :=
          Memory.setGraveyardNext_write { m with head := m.head + 1 } m.head
            (m.made - 1) m.graveyard
        obtain ⟨heq, m', hm'⟩ | ⟨x, hx, m', hm'⟩ :=
          ih (TaskQueue.retired_board (hb.moveHead hread hmore) m.head)
          (hw.imp_right fun hle => hwrite.trans_le hle) (by show m.made - (m.head + 1) = k; omega)
        · exact .inl ⟨heq, m', completes_of_read hb hread hmore hm'⟩
        · exact .inr ⟨x, hx, m', completes_of_read hb hread hmore hm'⟩

end MPSCQueue

end Queue
end Scheduler
end NUClear
