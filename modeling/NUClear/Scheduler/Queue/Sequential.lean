import NUClear.Scheduler.Queue.Progress
import Mathlib.Data.Nat.PSub

/-!
# Calls one after the other

What a queue is like when no call is in progress and every call before was run alone (`Resting`),
and what the next call does to it: `Resting.enqueue` and, for each queue, `Resting.tryDequeue`.

A call that runs alone is a sequence of the same accesses as one among others, so the invariant of
all runs holds inside it.  It knows more, though: what it has loaded is what is there (`Alone`), and
`tail` is at the last block.  So it cannot miss an item, and `head` leaves a block only when that is
read.  Both facts are shown for each access, and from them, by the rule for one call
(`Program.Within`), for the whole call.

* `Buried`, `AtRest`: the graveyard is the blocks that `head` has left, one after the other, and the
  last block has an item.
* `HoldsForProducers.enqueue`: a call of `enqueue` places its item at the end and commits it, for
  either queue.
* `TaskQueue.Resting.tryDequeue`, `MPSCQueue.Resting.tryDequeue`: a call of `try_dequeue` takes the
  first item that is not claimed (`Took`), or there is none (`FoundEmpty`).
* `Resting.exists_returns`: every call returns, whichever weak exchanges fail on the way.

The order and the results of such calls are compared with a list in `Fifo`, and their blocks are
counted in `Graveyard`.
-/

namespace NUClear
namespace Scheduler
namespace Queue

open Foundation QueueHistory

variable {α γ : Type} {m m' : Memory α} {tr tr₀ : List (QueueEvent (Item α))} {x : Item α}
  {b b' i n k : ℕ}
  {z : Bool}

/-- The first blocks are in the graveyard, the last of them first: from the newest on, each is
linked to the one before it. -/
structure Buried (m : Memory α) (k : ℕ) : Prop where
  graveyard : m.graveyard = Nat.ppred k
  next : ∀ b < k, (m.block b).graveyardNext = Nat.ppred b

/-- `tail` is at the last block, which is not new, and the blocks that `head` has left are in the
graveyard. -/
structure AtRest (m : Memory α) : Prop where
  tail : m.tail + 1 = m.made
  write : (m.block m.tail).write ≤ blockSize
  used : m.tail = 0 ∨ 0 < (m.block m.tail).write
  buried : Buried m m.head

/-- What a consumer leaves as it is: the number of blocks, where `tail` is, and what `write` counts
in each block. -/
structure Frame (m m' : Memory α) : Prop where
  made : m'.made = m.made
  tail : m'.tail = m.tail
  tickets : m'.tickets = m.tickets
  write : ∀ b, (m'.block b).write = (m.block b).write

namespace Frame

theorem refl : Frame m m := ⟨rfl, rfl, rfl, fun _ => rfl⟩

theorem trans {m'' : Memory α} (h : Frame m m') (h' : Frame m' m'') : Frame m m'' :=
  ⟨h'.made.trans h.made, h'.tail.trans h.tail, h'.tickets.trans h.tickets,
    fun b => (h'.write b).trans (h.write b)⟩

theorem setSlot (s : Slot α) : Frame m (m.setSlot b i s) :=
  ⟨rfl, rfl, rfl, fun b' => Memory.setSlot_write m b b' i s⟩

theorem addRead : Frame m (m.addRead b) := ⟨rfl, rfl, rfl, fun b' => Memory.addRead_write m b b'⟩

theorem addConsumed : Frame m (m.addConsumed b) :=
  ⟨rfl, rfl, rfl, fun b' => Memory.modify_congr Block.write (by intro; rfl) m b b'⟩

theorem setGraveyardNext (dead : Option ℕ) : Frame m (m.setGraveyardNext b dead) :=
  ⟨rfl, rfl, rfl, fun b' => Memory.setGraveyardNext_write m b b' dead⟩

end Frame

namespace Buried

theorem congr (h : Buried m k) (hgraveyard : m'.graveyard = m.graveyard)
    (hnext : ∀ b < k, (m'.block b).graveyardNext = (m.block b).graveyardNext) : Buried m' k where
  graveyard := hgraveyard.trans h.graveyard
  next b hb := (hnext b hb).trans (h.next b hb)

theorem setSlot (h : Buried m k) (s : Slot α) : Buried (m.setSlot b i s) k :=
  h.congr rfl fun b' _ => Memory.modify_congr Block.graveyardNext (by intro; rfl) m b b'

theorem addWrite (h : Buried m k) : Buried (m.addWrite b) k :=
  h.congr rfl fun b' _ => Memory.modify_congr Block.graveyardNext (by intro; rfl) m b b'

theorem addRead (h : Buried m k) : Buried (m.addRead b) k :=
  h.congr rfl fun b' _ => Memory.modify_congr Block.graveyardNext (by intro; rfl) m b b'

theorem addConsumed (h : Buried m k) : Buried (m.addConsumed b) k :=
  h.congr rfl fun b' _ => Memory.modify_congr Block.graveyardNext (by intro; rfl) m b b'

/-- A block that is to be buried is told of the one before. -/
theorem setGraveyardNext (h : Buried m b) (dead : Option ℕ) :
    Buried (m.setGraveyardNext b dead) b := by
  refine h.congr rfl fun b' hb' => ?_
  rw [Memory.setGraveyardNext, Memory.modify_block, if_neg (Nat.ne_of_lt hb')]

theorem bury (h : Buried m b) (hnext : (m.block b).graveyardNext = m.graveyard) :
    Buried { m with graveyard := some b } (b + 1) where
  graveyard := rfl
  next b' hb' := by
    obtain hlt | rfl := Nat.lt_succ_iff_lt_or_eq.mp hb'
    · exact h.next b' hlt
    · exact hnext.trans h.graveyard

end Buried

/-! ## `enqueue` -/

namespace Enqueue

variable {e : Enqueue α}

/-- What an `enqueue` that runs alone knows: between two of its accesses nothing has changed. -/
def Alone (m : Memory α) : Enqueue α → Prop
  | .loadTail _ => m.tail + 1 = m.made ∧ (m.block m.tail).write ≤ blockSize
  | .addWrite _ b => b = m.tail ∧ m.tail + 1 = m.made ∧ (m.block m.tail).write ≤ blockSize
  | .storeCommitted _ _ i => m.tail + 1 = m.made ∧ (m.block m.tail).write = i + 1
  | .linkNext _ b => b = m.tail ∧ m.tail + 1 = m.made
  | .loadNext _ b => b = m.tail ∧ m.tail + 2 = m.made ∧ (m.block (m.tail + 1)).write = 0
  | .reloadTail _ b n | .exchangeTail _ b n =>
      b = m.tail ∧ n = m.tail + 1 ∧ m.tail + 2 = m.made ∧ (m.block (m.tail + 1)).write = 0

/-- Where an `enqueue` of `x` is, that runs alone. -/
def Running (tr₀ : List (QueueEvent (Item α))) (x : Item α) (m : Memory α) :
    Option (Enqueue α) → List (QueueEvent (Item α)) → Prop
  | some e, tr => e.item = x ∧ e.Alone m ∧ Buried m m.head ∧
      tr = (e.placed.map (.placed x)).toList ++ .called x :: tr₀
  | none, tr => AtRest m ∧ ∃ n, tr = .enqueued x :: .placed x n :: .called x :: tr₀

theorem running_of_advance (hb : Board m tr) (hv : e.Valid m tr) (h : Running tr₀ x m (some e) tr)
    {r : Outcome (Memory α) (Enqueue α) (QueueEvent (Item α))} (hr : e.advance m z = some r) :
    Running tr₀ x r.mem r.next (r.emitted.reverse ++ tr) ∧ r.mem.head = m.head ∧
      r.mem.tickets = m.tickets := by
  obtain ⟨rfl, halone, hburied, htr⟩ := h
  cases e with
  | loadTail x =>
    obtain rfl := Option.some.inj hr
    exact ⟨⟨rfl, ⟨rfl, halone⟩, hburied, htr⟩, rfl, rfl⟩
  | addWrite x b =>
    obtain ⟨rfl, hlast, hw⟩ := halone
    simp only [advance] at hr
    split_ifs at hr with hroom <;> obtain rfl := Option.some.inj hr
    · refine ⟨⟨rfl, ⟨hlast, ?_⟩, ?_, ?_⟩, rfl, rfl⟩
      · exact (Memory.setSlot_write ..).trans ((Memory.addWrite_write ..).trans (if_pos rfl ▸ rfl))
      · exact hburied.addWrite.setSlot _
      · rw [htr]
        rfl
    · exact ⟨⟨rfl, ⟨rfl, hlast⟩, hburied.addWrite, htr⟩, rfl, rfl⟩
  | storeCommitted x b i =>
    obtain ⟨hlast, hw⟩ := halone
    obtain ⟨hi, -, -⟩ := hv
    obtain rfl := Option.some.inj hr
    have hwrite (b' : ℕ) (s : Slot α) : ((m.setSlot b i s).block b').write = (m.block b').write :=
      Memory.setSlot_write m b b' i s
    refine ⟨⟨⟨hlast, ?_, .inr ?_, hburied.setSlot _⟩, place b i, ?_⟩, rfl, rfl⟩
    · exact (hwrite _ _).trans_le (hw.trans_le hi)
    · exact Nat.lt_of_lt_of_eq (Nat.succ_pos i) (hw.symm.trans (hwrite _ _).symm)
    · rw [htr]
      rfl
  | linkNext x b =>
    obtain ⟨rfl, hlast⟩ := halone
    obtain ⟨-, hmade, -⟩ := hv
    obtain rfl := Option.some.inj hr
    have hnone := (hb.wf.next_eq_none_iff hmade).mpr hlast
    have hnew : (m.linkNextBlock m.tail).block m.made = {} := Memory.linkNextBlock_made hmade hnone
    have hlink : (m.linkNextBlock m.tail).tail = m.tail ∧
      (m.linkNextBlock m.tail).made = m.made + 1 ∧
        (m.linkNextBlock m.tail).head = m.head ∧ (m.linkNextBlock m.tail).graveyard = m.graveyard ∧
        (m.linkNextBlock m.tail).tickets = m.tickets := by
      rw [Memory.linkNextBlock, if_pos hnone]
      exact ⟨rfl, rfl, rfl, rfl, rfl⟩
    obtain ⟨htail, hmade', hhead, hgraveyard, htickets⟩ := hlink
    refine ⟨⟨rfl, ⟨htail.symm, ?_, ?_⟩, ?_, htr⟩, hhead, htickets⟩
    · rw [htail, hmade']
      omega
    · rw [htail, hlast, hnew]
    · rw [hhead]
      refine hburied.congr hgraveyard fun b' hb' => ?_
      exact Memory.linkNextBlock_congr Block.graveyardNext
        (by intros; rfl) (Nat.lt_trans hb' hb.wf.head_lt)
  | loadNext x b =>
    obtain ⟨rfl, hmade, hw⟩ := halone
    obtain ⟨n, hnext, rfl⟩ := Option.map_eq_some_iff.mp hr
    obtain ⟨rfl, -⟩ := hb.wf.eq_succ_of_next hb.wf.tail_lt hnext
    exact ⟨⟨rfl, ⟨rfl, rfl, hmade, hw⟩, hburied, htr⟩, rfl, rfl⟩
  | reloadTail x b n =>
    obtain ⟨rfl, rfl, hmade, hw⟩ := halone
    rw [advance, if_pos rfl] at hr
    obtain rfl := Option.some.inj hr
    exact ⟨⟨rfl, ⟨rfl, rfl, hmade, hw⟩, hburied, htr⟩, rfl, rfl⟩
  | exchangeTail x b n =>
    obtain ⟨rfl, rfl, hmade, hw⟩ := halone
    rw [advance, if_pos rfl] at hr
    split_ifs at hr <;> obtain rfl := Option.some.inj hr
    · exact ⟨⟨rfl, ⟨rfl, rfl, hmade, hw⟩, hburied, htr⟩, rfl, rfl⟩
    · have hle : (m.block (m.tail + 1)).write ≤ blockSize := hw.trans_le (Nat.zero_le _)
      exact ⟨⟨rfl, ⟨hmade, hle⟩, ⟨hburied.graveyard, hburied.next⟩, htr⟩, rfl, rfl⟩

end Enqueue

/-! ## What a `try_dequeue` has done -/

/-- The item of the first place that is not claimed was taken, and nothing else happened. -/
def Took (tr₀ tr : List (QueueEvent (Item α))) : Prop :=
  ∃ x, .placed x (claims tr₀) ∈ tr₀ ∧ tr = .dequeued x :: .claimed (claims tr₀) :: tr₀

/-- There was none: every place that is given is claimed, and the call returned without an item. -/
def FoundEmpty (tr₀ tr : List (QueueEvent (Item α))) : Prop :=
  claims tr₀ = places tr₀ ∧ tr = .empty :: tr₀

/-- The last block is read as far as it is written. -/
theorem foundEmpty (hb : Board m tr) (hread : min (m.block m.head).write blockSize ≤
    (m.block m.head).read) (hnext : (m.block m.head).next = none) : FoundEmpty tr
      (.empty :: tr) := by
  have hlast := (hb.wf.next_eq_none_iff hb.wf.head_lt).mp hnext
  have hle := hb.wf.read_le m.head hb.wf.head_lt
  exact ⟨claims_eq_places hb (Nat.le_antisymm hle hread) hlast, rfl⟩

/-- A block that is read as far as it is written, and has a next, is read. -/
theorem read_eq_of_next (hb : Board m tr)
    (hread : min (m.block m.head).write blockSize ≤ (m.block m.head).read)
    (hnext : (m.block m.head).next = some n) : (m.block m.head).read = blockSize := by
  have hfull := hb.wf.full m.head (hb.wf.eq_succ_of_next hb.wf.head_lt hnext).2
  have hle := hb.wf.read_le m.head hb.wf.head_lt
  omega

/-! ## `TaskQueue` -/

namespace TaskQueue

variable {c : Dequeue}

theorem frame_of_advance {r : Outcome (Memory α) Dequeue (QueueEvent (Item α))}
    (hr : c.advance m z = some r) :
    Frame m r.mem := by
  cases c with
  | exchangeRead b i =>
    simp only [Dequeue.advance] at hr
    split_ifs at hr <;> obtain rfl := Option.some.inj hr
    exacts [.addRead, .refl]
  | loadCommitted b i =>
    simp only [Dequeue.advance] at hr
    split_ifs at hr
    · obtain ⟨x, -, rfl⟩ := Option.map_eq_some_iff.mp hr
      exact .setSlot _
    · obtain rfl := Option.some.inj hr
      exact .refl
  | clearCommitted b i =>
    obtain rfl := Option.some.inj hr
    exact .setSlot _
  | addConsumed b i =>
    obtain rfl := Option.some.inj hr
    exact .addConsumed
  | loadGraveyard b returns =>
    obtain rfl := Option.some.inj hr
    exact .setGraveyardNext _
  | exchangeGraveyard b dead returns =>
    simp only [Dequeue.advance] at hr
    split_ifs at hr <;> obtain rfl := Option.some.inj hr
    exacts [⟨rfl, rfl, rfl, fun _ => rfl⟩, ⟨rfl, rfl, rfl, fun _ => rfl⟩, .setGraveyardNext _]
  | loadNext b p =>
    simp only [Dequeue.advance] at hr
    split at hr
    · split_ifs at hr <;> obtain rfl := Option.some.inj hr
      all_goals exact .refl
    · obtain rfl := Option.some.inj hr
      exact .refl
  | loadRead b p | loadConsumed b p | reloadWrite b =>
    simp only [Dequeue.advance] at hr
    split_ifs at hr <;> obtain rfl := Option.some.inj hr
    all_goals exact .refl
  | exchangeHead b n | reclaimExchange b n =>
    simp only [Dequeue.advance] at hr
    split_ifs at hr <;> obtain rfl := Option.some.inj hr
    exacts [⟨rfl, rfl, rfl, fun _ => rfl⟩, .refl]
  | _ =>
    obtain rfl := Option.some.inj hr
    exact .refl

/-- The blocks before this one are in the graveyard. -/
def Dequeue.burying (m : Memory α) : Dequeue → ℕ
  | .loadGraveyard b _ | .exchangeGraveyard b _ _ => b
  | _ => m.head

/-- What a `try_dequeue` that runs alone knows: what it has read is still true, and the history has
at most its own claim and item more. -/
def Dequeue.Alone (tr₀ : List (QueueEvent (Item α))) (m : Memory α)
    (tr : List (QueueEvent (Item α))) :
    Dequeue → Prop
  | .loadHead => tr = tr₀
  | .loadWrite b => b = m.head ∧ tr = tr₀
  | .loadRead b p => b = m.head ∧ p = min (m.block b).write blockSize ∧ tr = tr₀
  | .loadConsumed b p | .loadNext b p =>
      b = m.head ∧ p = min (m.block b).write blockSize ∧ p ≤ (m.block b).read ∧ tr = tr₀
  | .reloadWrite b => b = m.head ∧ (m.block b).next = none ∧ tr = tr₀
  | .exchangeHead b _ => b = m.head ∧ (m.block b).read = blockSize ∧ tr = tr₀
  | .exchangeRead b i => b = m.head ∧ i = (m.block b).read ∧ tr = tr₀
  | .loadCommitted b i =>
      b = m.head ∧ i + 1 = (m.block b).read ∧ place b i = claims tr₀ ∧
        tr = .claimed (claims tr₀) :: tr₀
  | .clearCommitted b i | .addConsumed b i => b = m.head ∧ i + 1 = (m.block b).read ∧ Took tr₀ tr
  | .reclaimConsumed b | .reclaimHead b | .reclaimNext b | .reclaimExchange b _ =>
    b = m.head ∧ Took tr₀ tr
  | .loadGraveyard b returns =>
      b + 1 = m.head ∧ if returns then (m.block m.head).read = 0 ∧ Took tr₀ tr else tr = tr₀
  | .exchangeGraveyard b dead returns =>
      b + 1 = m.head ∧ (m.block b).graveyardNext = dead ∧
        if returns then (m.block m.head).read = 0 ∧ Took tr₀ tr else tr = tr₀

/-- Where a `try_dequeue` is, that runs alone. -/
def Running (tr₀ : List (QueueEvent (Item α))) (m : Memory α) :
    Option Dequeue → List (QueueEvent (Item α)) → Prop
  | some c, tr => c.Alone tr₀ m tr ∧ Buried m (c.burying m)
  | none, tr => Buried m m.head ∧
      (Took tr₀ tr ∧ ((m.block m.head).read < blockSize ∨ m.head + 1 = m.made) ∨ FoundEmpty tr₀ tr)

/-- What a consumer that runs alone has not counted. -/
theorem consumed_eq (hs : MatchesHistory (⟨m, [.dequeue c], tr⟩ : State α Dequeue))
    (hb : b < m.made) :
    (m.block b).consumed + inBlock b (some c) = (m.block b).read := by
  have hcounts := hs.consuming.counts b hb
  rwa [countP_dequeue] at hcounts

theorem running_of_advance (hs : MatchesHistory (⟨m, [.dequeue c], tr⟩ : State α Dequeue))
    (h : Running tr₀ m (some c) tr) {r : Outcome (Memory α) Dequeue (QueueEvent (Item α))}
    (hr : c.advance m z = some r) :
    c.Ok m ∧ Running tr₀ r.mem r.next (r.emitted.reverse ++ tr) := by
  obtain ⟨halone, hburied⟩ := h
  have hb : Board m tr := hs.board
  have hv : c.Valid m tr := hs.consuming.valid c (List.mem_singleton.mpr rfl)
  have hle : (m.block m.head).read ≤ min (m.block m.head).write blockSize :=
    hb.wf.read_le m.head hb.wf.head_lt
  cases c with
  | loadHead =>
    obtain rfl := Option.some.inj hr
    exact ⟨trivial, ⟨rfl, halone⟩, hburied⟩
  | loadWrite b =>
    obtain ⟨rfl, htr⟩ := halone
    obtain rfl := Option.some.inj hr
    exact ⟨trivial, ⟨rfl, rfl, htr⟩, hburied⟩
  | loadRead b p =>
    obtain ⟨rfl, rfl, htr⟩ := halone
    simp only [Dequeue.advance] at hr
    split_ifs at hr with hread <;> obtain rfl := Option.some.inj hr
    · exact ⟨trivial, ⟨rfl, rfl, hread, htr⟩, hburied⟩
    · exact ⟨trivial, ⟨rfl, rfl, htr⟩, hburied⟩
  | loadConsumed b p =>
    obtain ⟨rfl, rfl, hread, htr⟩ := halone
    simp only [Dequeue.advance] at hr
    split_ifs at hr <;> obtain rfl := Option.some.inj hr
    · exact ⟨trivial, htr, hburied⟩
    · exact ⟨trivial, ⟨rfl, rfl, hread, htr⟩, hburied⟩
  | loadNext b p =>
    obtain ⟨rfl, rfl, hread, htr⟩ := halone
    simp only [Dequeue.advance] at hr
    split at hr
    · next hnext =>
      split_ifs at hr <;> obtain rfl := Option.some.inj hr
      · exact ⟨trivial, ⟨rfl, hnext, htr⟩, hburied⟩
      · exact ⟨trivial, hburied, .inr (htr ▸ foundEmpty hb hread hnext)⟩
    · next n hnext =>
      obtain rfl := Option.some.inj hr
      exact ⟨trivial, ⟨rfl, read_eq_of_next hb hread hnext, htr⟩, hburied⟩
  | reloadWrite b =>
    obtain ⟨rfl, hnext, htr⟩ := halone
    simp only [Dequeue.advance] at hr
    split_ifs at hr with hw <;> obtain rfl := Option.some.inj hr
    · exact ⟨trivial, htr, hburied⟩
    · exact ⟨trivial, hburied, .inr (htr ▸ foundEmpty hb (by omega) hnext)⟩
  | exchangeHead b n =>
    obtain ⟨rfl, hread, htr⟩ := halone
    obtain ⟨-, rfl, -⟩ := hv
    rw [Dequeue.advance, if_pos rfl] at hr
    obtain rfl := Option.some.inj hr
    exact ⟨fun _ => hread, ⟨rfl, htr⟩, hburied.graveyard, hburied.next⟩
  | exchangeRead b i =>
    obtain ⟨rfl, rfl, htr⟩ := halone
    simp only [Dequeue.advance] at hr
    split_ifs at hr <;> obtain rfl := Option.some.inj hr
    · have hclaims : place m.head (m.block m.head).read = claims tr₀ := htr ▸ hb.claims.symm
      refine ⟨trivial, ⟨rfl, ?_, hclaims, ?_⟩, hburied.addRead⟩
      · exact ((Memory.addRead_read m m.head m.head).trans (if_pos rfl ▸ rfl)).symm
      · rw [htr, hclaims]
        rfl
    · exact ⟨trivial, htr, hburied⟩
  | loadCommitted b i =>
    obtain ⟨rfl, hi, hplace, htr⟩ := halone
    obtain ⟨hclaimed, hnew⟩ := hv
    simp only [Dequeue.advance] at hr
    split_ifs at hr
    · obtain ⟨y, hstorage, rfl⟩ := Option.map_eq_some_iff.mp hr
      obtain ⟨-, x, hx⟩ := hb.exists_of_claimed hclaimed.2
      have hstored := hb.holds.stored x m.head i hclaimed.1 hx (hnew x hx)
      obtain rfl : x = y := Option.some.inj (hstored.symm.trans hstorage)
      have hx₀ : .placed x (claims tr₀) ∈ tr₀ := by
        rw [hplace, htr] at hx
        exact (List.mem_cons.mp hx).resolve_left (by simp)
      refine ⟨trivial, ⟨rfl, hi.trans (Memory.setSlot_read ..).symm, x, hx₀, ?_⟩, hburied.setSlot _⟩
      rw [htr]
      rfl
    · obtain rfl := Option.some.inj hr
      exact ⟨trivial, ⟨rfl, hi, hplace, htr⟩, hburied⟩
  | clearCommitted b i =>
    obtain ⟨rfl, hi, htook⟩ := halone
    obtain rfl := Option.some.inj hr
    exact ⟨trivial, ⟨rfl, hi.trans (Memory.setSlot_read ..).symm, htook⟩, hburied.setSlot _⟩
  | addConsumed b i =>
    obtain ⟨rfl, hi, htook⟩ := halone
    have hconsumed : (m.block m.head).consumed + 1 = (m.block m.head).read := by
      have heq := consumed_eq hs hb.wf.head_lt
      simpa [inBlock, Dequeue.inBlock, Dequeue.busy] using heq
    have hread : ((m.addConsumed m.head).block m.head).read = (m.block m.head).read :=
      Memory.modify_congr Block.read (by intro; rfl) m m.head m.head
    obtain rfl := Option.some.inj hr
    refine ⟨trivial, ?_⟩
    split_ifs with hall
    · exact ⟨⟨rfl, htook⟩, hburied.addConsumed⟩
    · refine ⟨hburied.addConsumed, .inl ⟨htook, .inl ?_⟩⟩
      exact hread.trans_lt (by omega)
  | reclaimConsumed b =>
    obtain ⟨rfl, htook⟩ := halone
    have hconsumed : (m.block m.head).consumed = blockSize := by
      have heq := consumed_eq hs hb.wf.head_lt
      rw [← hv.2, ← heq]
      simp [inBlock, Dequeue.inBlock, Dequeue.busy]
    rw [Dequeue.advance, if_pos hconsumed] at hr
    obtain rfl := Option.some.inj hr
    exact ⟨trivial, ⟨rfl, htook⟩, hburied⟩
  | reclaimHead b =>
    obtain ⟨rfl, htook⟩ := halone
    rw [Dequeue.advance, if_pos rfl] at hr
    obtain rfl := Option.some.inj hr
    exact ⟨trivial, ⟨rfl, htook⟩, hburied⟩
  | reclaimNext b =>
    obtain ⟨rfl, htook⟩ := halone
    obtain rfl := Option.some.inj hr
    refine ⟨trivial, ?_⟩
    cases hnext : (m.block m.head).next with
    | none => exact ⟨hburied, .inl ⟨htook, .inr ((hb.wf.next_eq_none_iff hb.wf.head_lt).mp hnext)⟩⟩
    | some n => exact ⟨⟨rfl, htook⟩, hburied⟩
  | reclaimExchange b n =>
    obtain ⟨rfl, htook⟩ := halone
    obtain ⟨-, -, rfl, hmore⟩ := hv
    rw [Dequeue.advance, if_pos rfl] at hr
    obtain rfl := Option.some.inj hr
    have hunread := hb.wf.unread (m.head + 1) hmore (Nat.lt_succ_self _)
    exact ⟨trivial, ⟨rfl, hunread, htook⟩, hburied.graveyard, hburied.next⟩
  | loadGraveyard b returns =>
    obtain ⟨hbury, hphase⟩ := halone
    obtain rfl := Option.some.inj hr
    have hread : ((m.setGraveyardNext b m.graveyard).block m.head).read = (m.block m.head).read :=
      (Same.setGraveyardNext m.graveyard).read m.head
    refine ⟨trivial, ⟨hbury, ?_, ?_⟩, hburied.setGraveyardNext _⟩
    · rw [Memory.setGraveyardNext, Memory.modify_block, if_pos rfl]
    · cases returns with
      | true => exact ⟨hread.trans hphase.1, hphase.2⟩
      | false => exact hphase
  | exchangeGraveyard b dead returns =>
    obtain ⟨hbury, hdead, hphase⟩ := halone
    by_cases hgrave : m.graveyard = dead ∧ z = false
    · rw [Dequeue.advance, if_pos hgrave] at hr
      obtain rfl := Option.some.inj hr
      have hburied' : Buried { m with graveyard := some b } m.head :=
        hbury ▸ hburied.bury (hdead.trans hgrave.1.symm)
      cases returns with
      | true => exact ⟨trivial, hburied', .inl ⟨hphase.2, .inl (hphase.1.trans_lt (by decide))⟩⟩
      | false => exact ⟨trivial, hphase, hburied'⟩
    · rw [Dequeue.advance, if_neg hgrave] at hr
      obtain rfl := Option.some.inj hr
      have hread : ((m.setGraveyardNext b m.graveyard).block m.head).read = (m.block m.head).read :=
        (Same.setGraveyardNext m.graveyard).read m.head
      refine ⟨trivial, ⟨hbury, ?_, ?_⟩, hburied.setGraveyardNext _⟩
      · rw [Memory.setGraveyardNext, Memory.modify_block, if_pos rfl]
      · cases returns with
        | true => exact ⟨hread.trans hphase.1, hphase.2⟩
        | false => exact hphase

end TaskQueue

/-! ## `MPSCQueue` -/

namespace MPSCQueue

variable {c : Dequeue}

theorem frame_of_advance {r : Outcome (Memory α) Dequeue (QueueEvent (Item α))}
    (hr : c.advance m z = some r) :
    Frame m r.mem := by
  cases c with
  | loadWrite =>
    simp only [Dequeue.advance] at hr
    split_ifs at hr <;> obtain rfl := Option.some.inj hr
    all_goals exact .refl
  | loadCommitted b i =>
    simp only [Dequeue.advance] at hr
    split_ifs at hr
    · obtain ⟨x, -, rfl⟩ := Option.map_eq_some_iff.mp hr
      exact (Frame.setSlot _).trans .addRead
    · obtain rfl := Option.some.inj hr
      exact .refl
  | loadNext w =>
    simp only [Dequeue.advance] at hr
    split at hr
    · split_ifs at hr <;> obtain rfl := Option.some.inj hr
      all_goals exact .refl
    · obtain rfl := Option.some.inj hr
      exact ⟨rfl, rfl, rfl, fun _ => rfl⟩
  | loadGraveyard b =>
    obtain rfl := Option.some.inj hr
    exact .setGraveyardNext _
  | exchangeGraveyard b dead =>
    simp only [Dequeue.advance] at hr
    split_ifs at hr <;> obtain rfl := Option.some.inj hr
    exacts [⟨rfl, rfl, rfl, fun _ => rfl⟩, .setGraveyardNext _]

/-- The blocks before this one are in the graveyard. -/
def Dequeue.burying (m : Memory α) : Dequeue → ℕ
  | .loadGraveyard b | .exchangeGraveyard b _ => b
  | _ => m.head

/-- What a `try_dequeue` that runs alone knows: what it has read is still true. -/
def Dequeue.Alone (m : Memory α) : Dequeue → Prop
  | .loadWrite | .loadCommitted .. => True
  | .loadNext w => w = (m.block m.head).write
  | .loadGraveyard b => b + 1 = m.head
  | .exchangeGraveyard b dead => b + 1 = m.head ∧ (m.block b).graveyardNext = dead

/-- Where a `try_dequeue` is, that runs alone. -/
def Running (tr₀ : List (QueueEvent (Item α))) (m : Memory α) :
    Option Dequeue → List (QueueEvent (Item α)) → Prop
  | some c, tr => c.Alone m ∧ tr = tr₀ ∧ Buried m (c.burying m)
  | none, tr => Buried m m.head ∧ (Took tr₀ tr ∧ 0 < (m.block m.head).read ∨ FoundEmpty tr₀ tr)

theorem running_of_advance (hb : Board m tr) (hv : c.Valid m) (h : Running tr₀ m (some c) tr)
    {r : Outcome (Memory α) Dequeue (QueueEvent (Item α))} (hr : c.advance m z = some r) :
    Running tr₀ r.mem r.next (r.emitted.reverse ++ tr) := by
  obtain ⟨halone, rfl, hburied⟩ := h
  cases c with
  | loadWrite =>
    simp only [Dequeue.advance] at hr
    split_ifs at hr with hlt <;> obtain rfl := Option.some.inj hr
    · exact ⟨trivial, rfl, hburied⟩
    · exact ⟨rfl, rfl, hburied⟩
  | loadCommitted b i =>
    obtain ⟨rfl, rfl, hlt⟩ := hv
    simp only [Dequeue.advance] at hr
    split_ifs at hr
    · obtain ⟨y, hstorage, rfl⟩ := Option.map_eq_some_iff.mp hr
      obtain ⟨x, hx, -, hstored⟩ := hb.exists_unread hlt
      obtain rfl : x = y := Option.some.inj (hstored.symm.trans hstorage)
      have hclaims : claims tr = place m.head (m.block m.head).read := hb.claims
      refine ⟨(hburied.setSlot _).addRead, .inl ⟨⟨x, hx, ?_⟩, ?_⟩⟩
      · rw [hclaims]
        rfl
      · show 0 < (((m.setSlot m.head _ _).addRead m.head).block m.head).read
        rw [Memory.addRead_read, if_pos rfl]
        exact Nat.succ_pos _
    · obtain rfl := Option.some.inj hr
      exact ⟨trivial, rfl, hburied⟩
  | loadNext w =>
    obtain rfl := halone
    obtain ⟨hread, -⟩ := hv
    simp only [Dequeue.advance] at hr
    split at hr
    · next hnext =>
      split_ifs at hr <;> obtain rfl := Option.some.inj hr
      · exact ⟨trivial, rfl, hburied⟩
      · exact ⟨hburied, .inr (foundEmpty hb hread hnext)⟩
    · next n hnext =>
      obtain rfl := Option.some.inj hr
      obtain ⟨rfl, -⟩ := hb.wf.eq_succ_of_next hb.wf.head_lt hnext
      exact ⟨rfl, rfl, hburied.graveyard, hburied.next⟩
  | loadGraveyard b =>
    obtain rfl := Option.some.inj hr
    refine ⟨⟨halone, ?_⟩, rfl, hburied.setGraveyardNext _⟩
    rw [Memory.setGraveyardNext, Memory.modify_block, if_pos rfl]
  | exchangeGraveyard b dead =>
    obtain ⟨hbury, hdead⟩ := halone
    by_cases hgrave : m.graveyard = dead ∧ z = false
    · rw [Dequeue.advance, if_pos hgrave] at hr
      obtain rfl := Option.some.inj hr
      have hburied' : Buried { m with graveyard := some b } m.head :=
        hbury ▸ hburied.bury (hdead.trans hgrave.1.symm)
      exact ⟨trivial, rfl, hburied'⟩
    · rw [Dequeue.advance, if_neg hgrave] at hr
      obtain rfl := Option.some.inj hr
      refine ⟨⟨hbury, ?_⟩, rfl, hburied.setGraveyardNext _⟩
      rw [Memory.setGraveyardNext, Memory.modify_block, if_pos rfl]

end MPSCQueue

/-! ## Calls that are run alone -/

/-- What the invariant `I` of a queue says about its producers. -/
structure HoldsForProducers (I : State α γ → Prop) : Prop where
  board : ∀ s, I s → Board s.mem s.trace
  producing : ∀ s, I s → Producing s.mem s.ops s.trace
  call : ∀ m tr p v, I ⟨m, [], tr⟩ → I ⟨{ m with tickets := m.tickets + 1 },
    [.enqueue (.loadTail ⟨m.tickets, p, v⟩)], .called ⟨m.tickets, p, v⟩ :: tr⟩
  advance : ∀ m e tr z r, I ⟨m, [.enqueue e], tr⟩ → e.advance m z = some r →
    I ⟨r.mem, (r.next.map .enqueue).toList, r.emitted.reverse ++ tr⟩

/-- What a call of `enqueue` has done when it returns. -/
structure Enqueued (s s' : State α γ) (p : ℕ) (v : α) : Prop where
  head : s'.mem.head = s.mem.head
  tickets : s'.mem.tickets = s.mem.tickets + 1
  trace : ∃ n, s'.trace = .enqueued ⟨s.mem.tickets, p, v⟩ :: .placed ⟨s.mem.tickets, p, v⟩ n ::
    .called ⟨s.mem.tickets, p, v⟩ :: s.trace

/-- Inside a call of `enqueue`, with the invariant of the queue and no other operation. -/
def Enqueueing (I : State α γ → Prop) (m : Memory α) (tr : List (QueueEvent (Item α)))
    (p : ℕ) (v : α) (m' : Memory α) (next : Option (Op α γ)) (tr' : List (QueueEvent (Item α))) :
    Prop :=
  ∃ e? : Option (Enqueue α), next = e?.map .enqueue ∧ I ⟨m', next.toList, tr'⟩ ∧
    Enqueue.Running tr ⟨m.tickets, p, v⟩ m' e? tr' ∧ m'.head = m.head ∧ m'.tickets = m.tickets + 1

/-- A call that has returned has no operation left. -/
theorem eq_none_of_returned {ο ω : Type} {f : ο → ω} {o? : Option ο} (h : (o?.map f).toList = []) :
    o? = none :=
  Option.map_eq_none_iff.mp (Option.toList_eq_nil_iff.mp h)

theorem HoldsForProducers.enqueueing {C : Consumer α γ} {I : State α γ → Prop}
    (hI : HoldsForProducers I) {s s' : State α γ} {p : ℕ} {v : α} (hs : I s) (hops : s.ops = [])
    (hrest : AtRest s.mem) (hin : C.program.Within s (.enqueue p v) s') :
    ∃ next : Option (Op α γ), s'.ops = next.toList ∧
      Enqueueing I s.mem s.trace p v s'.mem next s'.trace := by
  obtain ⟨m, ops, tr⟩ := s
  subst hops
  let x : Item α := ⟨m.tickets, p, v⟩
  refine hin.invariant rfl (fun r hr => ?_) fun mem o tr' z r hK hr => ?_
  · replace hr : some (⟨{ m with tickets := m.tickets + 1 },
      some (.enqueue (.loadTail x)), [.called x]⟩ :
      Outcome (Memory α) (Op α γ) _) = some r := hr
    obtain rfl := Option.some.inj hr
    have hburied : Buried { m with tickets := m.tickets + 1 } m.head :=
      ⟨hrest.buried.graveyard, hrest.buried.next⟩
    exact ⟨some (.loadTail x), rfl, hI.call m tr p v hs,
      ⟨rfl, ⟨hrest.tail, hrest.write⟩, hburied, rfl⟩, rfl, rfl⟩
  · obtain ⟨e?, hnext, hmem, hrunning, hhead, htickets⟩ := hK
    obtain ⟨e, rfl, rfl⟩ := Option.map_eq_some_iff.mp hnext.symm
    obtain ⟨r', hr', rfl⟩ := Option.map_eq_some_iff.mp hr
    have hb : Board mem tr' := hI.board _ hmem
    have hv : e.Valid mem tr' := (hI.producing _ hmem).valid e (List.mem_singleton.mpr rfl)
    obtain ⟨hrunning', hhead', htickets'⟩ := Enqueue.running_of_advance hb hv hrunning hr'
    exact ⟨r'.next, rfl, hI.advance mem e tr' z r' hmem hr', hrunning', hhead'.trans hhead,
      htickets'.trans htickets⟩

/-- **A call of `enqueue` that is run alone** gives its item the next place, and returns. -/
theorem HoldsForProducers.enqueue {C : Consumer α γ} {I : State α γ → Prop}
    (hI : HoldsForProducers I) {s s' : State α γ} {p : ℕ} {v : α} (hs : I s) (hops : s.ops = [])
    (hrest : AtRest s.mem) (h : C.program.Returns s (.enqueue p v) s') :
    I s' ∧ AtRest s'.mem ∧ Enqueued s s' p v := by
  obtain ⟨next, hops', e?, rfl, hmem, hrunning, hhead, htickets⟩ := hI.enqueueing hs hops hrest h.1
  obtain rfl : e? = none := eq_none_of_returned (hops'.symm.trans h.2)
  rw [← hops'] at hmem
  exact ⟨hmem, hrunning.1, hhead, htickets, hrunning.2⟩

/-- The producers return, too: a call of `enqueue` that is run alone comes to its end. -/
theorem HoldsForProducers.exists_enqueue {C : Consumer α γ} {I : State α γ → Prop}
    (hI : HoldsForProducers I) {s : State α γ} {p : ℕ} {v : α} (hs : I s) (hops : s.ops = []) :
    ∃ s', C.program.Returns s (.enqueue p v) s' := by
  obtain ⟨m, ops, tr⟩ := s
  subst hops
  have hb : Board { m with tickets := m.tickets + 1 } (.called ⟨m.tickets, p, v⟩ :: tr) :=
    hI.board _ (hI.call m tr p v hs)
  have hresult : ∃ m' tr', Completes Enqueue.advance Anything { m with tickets := m.tickets + 1 }
      (.called ⟨m.tickets, p, v⟩ :: tr) (.loadTail ⟨m.tickets, p, v⟩) m' tr' := by
    obtain ⟨m', n, hm'⟩ := Enqueue.completes (x := ⟨m.tickets, p, v⟩) hb
    exact ⟨m', _, hm'⟩
  obtain ⟨m', tr', hm'⟩ := hresult
  have hall : Completes C.program.advance (fun _ _ => True) { m with tickets := m.tickets + 1 }
      (.called ⟨m.tickets, p, v⟩ :: tr) (.enqueue (.loadTail ⟨m.tickets, p, v⟩)) m' tr' := by
    refine hm'.map (f := Op.enqueue) (fun m e z r hr => ?_) fun _ _ _ => trivial
    show (e.advance m z).map _ = _
    rw [hr, Option.map_some]
  have hcall : C.program.call m [] (.enqueue p v) = some ⟨{ m with tickets := m.tickets + 1 },
      some (.enqueue (.loadTail ⟨m.tickets, p, v⟩)), [.called ⟨m.tickets, p, v⟩]⟩ := rfl
  exact ⟨_, Program.Returns.of_completes hcall rfl hall⟩

/-- The last block is not new: when all places are claimed, `head` is there. -/
theorem AtRest.head_eq (h : AtRest m) (hb : Board m tr)
    (hclaims : claims tr = QueueHistory.places tr) :
    m.head = m.tail := by
  have hle := hb.wf.read_le m.head hb.wf.head_lt
  have hlt := hb.wf.head_lt
  have hmade : m.made - 1 = m.tail := by
    have htail := h.tail
    omega
  rw [hb.claims, hb.places, Memory.claims, Memory.places, hmade] at hclaims
  have hused := h.used
  have htail := h.tail
  simp only [place, blockSize] at hclaims hle
  omega

/-- `head` has not moved when all places are claimed. -/
theorem AtRest.head_eq_of_empty (h : AtRest m) (hb : Board m tr) (hb' : Board m' tr₀)
    (hf : Frame m m') (hclaims : claims tr = QueueHistory.places tr) (hhead : m.head ≤ m'.head) :
    m'.head = m.head := by
  have heq := h.head_eq hb hclaims
  have hlt := hb'.wf.head_lt
  have htail := h.tail
  rw [hf.made] at hlt
  omega

theorem AtRest.frame (h : AtRest m) (hf : Frame m m') (hburied : Buried m' m'.head) :
    AtRest m' where
  tail := by rw [hf.tail, hf.made]; exact h.tail
  write := by rw [hf.tail, hf.write]; exact h.write
  used := by rw [hf.tail, hf.write]; exact h.used
  buried := hburied

namespace TaskQueue

/-- Every call before was run alone, so that no operation is in progress now. -/
structure Resting (s : State α Dequeue) : Prop where
  matchesHistory : MatchesHistory s
  idle : s.ops = []
  rest : AtRest s.mem

theorem holdsForProducers : HoldsForProducers (MatchesHistory (α := α)) where
  board _ hs := hs.board
  producing _ hs := hs.producing
  call _ _ _ _ hs := hs.enqueue fun _ he => absurd he List.not_mem_nil
  advance m e tr _ _ hs hr := by
    have hsplit : MatchesHistory (⟨m, [] ++ .enqueue e :: [], tr⟩ : State α Dequeue) := hs
    have h := hsplit.producer hr
    rwa [List.nil_append, List.append_nil] at h

theorem Resting.start : Resting (Queue.start : State α Dequeue) where
  matchesHistory := .start
  idle := rfl
  rest := ⟨rfl, Nat.zero_le _, .inl rfl, rfl, fun _ hb => absurd hb (Nat.not_lt_zero _)⟩

variable {s s' : State α Dequeue}

theorem Resting.enqueue (h : Resting s) {p : ℕ} {v : α}
    (hret : (consumer α).program.Returns s (.enqueue p v) s') : Resting s' ∧ Enqueued s s' p v := by
  obtain ⟨hmatchesHistory, hrest, henqueued⟩ :=
    holdsForProducers.enqueue h.matchesHistory h.idle h.rest hret
  exact ⟨⟨hmatchesHistory, hret.2, hrest⟩, henqueued⟩

/-- What a call of `try_dequeue` has done when it returns. -/
inductive Dequeued (s s' : State α Dequeue) : Prop
  | took (htook : Took s.trace s'.trace)
      (hread : (s'.mem.block s'.mem.head).read < blockSize ∨ s'.mem.head + 1 = s'.mem.made)
  | empty (hempty : FoundEmpty s.trace s'.trace) (hhead : s'.mem.head = s.mem.head)

/-- Inside a call of `try_dequeue`, with the invariant of the queue and no other operation. -/
def Dequeueing (m : Memory α) (tr : List (QueueEvent (Item α))) (m' : Memory α)
    (next : Option (Op α Dequeue)) (tr' : List (QueueEvent (Item α))) : Prop :=
  ∃ c? : Option Dequeue, next = c?.map .dequeue ∧
    MatchesHistory (⟨m', next.toList, tr'⟩ : State α Dequeue) ∧
    Running tr m' c? tr' ∧ Frame m m' ∧ m.head ≤ m'.head

theorem Resting.dequeueing (h : Resting s) (hin : (consumer α).program.Within s .tryDequeue s') :
    ∃ next : Option (Op α Dequeue), s'.ops = next.toList ∧
      Dequeueing s.mem s.trace s'.mem next s'.trace := by
  obtain ⟨hmatchesHistory, hidle, hrest⟩ := h
  obtain ⟨m, ops, tr⟩ := s
  subst hidle
  refine hin.invariant rfl (fun r hr => ?_) fun mem o tr' z r hK hr => ?_
  · obtain rfl := Option.some.inj hr
    exact ⟨some .loadHead, rfl, hmatchesHistory.tryDequeue, ⟨rfl, hrest.buried⟩,
      .refl, Nat.le_refl _⟩
  · obtain ⟨c?, hnext, hmem, hrunning, hframe, hhead⟩ := hK
    obtain ⟨c, rfl, rfl⟩ := Option.map_eq_some_iff.mp hnext.symm
    obtain ⟨r', hr', rfl⟩ := Option.map_eq_some_iff.mp hr
    obtain ⟨hok, hrunning'⟩ := running_of_advance hmem hrunning hr'
    have hsplit : MatchesHistory (⟨mem, [] ++ .dequeue c :: [], tr'⟩ : State α Dequeue) := hmem
    have hstep := dequeueStep_of_advance hmem.board
      (hmem.consuming.valid c (List.mem_singleton.mpr rfl)) hok
      (fun b i hbusy => hsplit.consumed_lt hbusy) hr'
    have hmem' := hsplit.dequeue hok hr'
    rw [List.nil_append, List.append_nil] at hmem'
    exact ⟨r'.next, rfl, hmem', hrunning', hframe.trans (frame_of_advance hr'),
      Nat.le_trans hhead hstep.grows.head⟩

/-- **A call of `try_dequeue` that is run alone** takes the first item that is not claimed, or finds
that there is none. -/
theorem Resting.tryDequeue (h : Resting s) (hret : (consumer α).program.Returns s .tryDequeue s') :
    Resting s' ∧ s'.mem.tickets = s.mem.tickets ∧ Dequeued s s' := by
  obtain ⟨next, hops, c?, rfl, hmem, hrunning, hframe, hhead⟩ := h.dequeueing hret.1
  obtain rfl : c? = none := eq_none_of_returned (hops.symm.trans hret.2)
  obtain ⟨hmatchesHistory, hidle, hrest⟩ := h
  obtain ⟨hburied, hdone⟩ := hrunning
  refine ⟨⟨?_, hret.2, hrest.frame hframe hburied⟩, hframe.tickets, ?_⟩
  · rw [← hops] at hmem
    exact hmem
  · obtain ⟨htook, hread⟩ | hempty := hdone
    · exact .took htook hread
    · exact .empty hempty (hrest.head_eq_of_empty hmatchesHistory.board hmem.board hframe
        hempty.1 hhead)

/-- Every call returns, after so many accesses as its loops need. -/
theorem Resting.exists_returns (h : Resting s) (c : Call α) :
    ∃ s', (consumer α).program.Returns s c s' := by
  cases c with
  | enqueue p v => exact holdsForProducers.exists_enqueue h.matchesHistory h.idle
  | tryDequeue =>
    obtain ⟨hmatchesHistory, hidle, -⟩ := h
    obtain ⟨m, ops, tr⟩ := s
    subst hidle
    have henqueued : ∀ x n, .placed x n ∈ tr → .enqueued x ∈ tr :=
      fun _ _ hx => hmatchesHistory.producing.enqueued hmatchesHistory.board hx
    have hresult : ∃ m' tr', Completes Dequeue.advance
      (fun m c => c.Ok m) m tr .loadHead m' tr' := by
      obtain ⟨-, m', hm'⟩ | ⟨x, -, m', hm'⟩ :=
        completes hmatchesHistory.board henqueued hmatchesHistory.consuming.counts
      · exact ⟨m', _, hm'⟩
      · exact ⟨m', _, hm'⟩
    obtain ⟨m', tr', hm'⟩ := hresult
    have hall : Completes (consumer α).program.advance (fun _ _ => True) m tr
      (.dequeue .loadHead) m' tr' :=
      (consumer α).completes hm' fun _ _ _ => trivial
    exact ⟨_, Program.Returns.of_completes rfl rfl hall⟩

end TaskQueue

namespace MPSCQueue

/-- Every call before was run alone, so that no operation is in progress now. -/
structure Resting (s : State α Dequeue) : Prop where
  matchesHistory : MatchesHistory s
  idle : s.ops = []
  rest : AtRest s.mem

theorem holdsForProducers : HoldsForProducers (MatchesHistory (α := α)) where
  board _ hs := hs.board
  producing _ hs := hs.producing
  call _ _ _ _ hs := hs.enqueue fun _ he => absurd he List.not_mem_nil
  advance m e tr z _ hs hr := by
    have hsplit : MatchesHistory (⟨m, [] ++ .enqueue e :: [], tr⟩ : State α Dequeue) := hs
    have hok : Ok (⟨m, [] ++ .enqueue e :: [], tr⟩ : State α Dequeue) (.enqueue e) z := by
      cases e with
      | linkNext x b => exact fun hawaits => absurd hawaits Bool.false_ne_true
      | _ => trivial
    have h := hsplit.producer hok hr
    rwa [List.nil_append, List.append_nil] at h

theorem Resting.start : Resting (Queue.start : State α Dequeue) where
  matchesHistory := .start
  idle := rfl
  rest := ⟨rfl, Nat.zero_le _, .inl rfl, rfl, fun _ hb => absurd hb (Nat.not_lt_zero _)⟩

variable {s s' : State α Dequeue}

theorem Resting.enqueue (h : Resting s) {p : ℕ} {v : α}
    (hret : (consumer α).program.Returns s (.enqueue p v) s') : Resting s' ∧ Enqueued s s' p v := by
  obtain ⟨hmatchesHistory, hrest, henqueued⟩ :=
    holdsForProducers.enqueue h.matchesHistory h.idle h.rest hret
  exact ⟨⟨hmatchesHistory, hret.2, hrest⟩, henqueued⟩

/-- What a call of `try_dequeue` has done when it returns. -/
inductive Dequeued (s s' : State α Dequeue) : Prop
  | took (htook : Took s.trace s'.trace) (hread : 0 < (s'.mem.block s'.mem.head).read)
  | empty (hempty : FoundEmpty s.trace s'.trace) (hhead : s'.mem.head = s.mem.head)

/-- Inside a call of `try_dequeue`, with the invariant of the queue and no other operation. -/
def Dequeueing (m : Memory α) (tr : List (QueueEvent (Item α))) (m' : Memory α)
    (next : Option (Op α Dequeue)) (tr' : List (QueueEvent (Item α))) : Prop :=
  ∃ c? : Option Dequeue, next = c?.map .dequeue ∧
    MatchesHistory (⟨m', next.toList, tr'⟩ : State α Dequeue) ∧
    Running tr m' c? tr' ∧ Frame m m' ∧ m.head ≤ m'.head

theorem Resting.dequeueing (h : Resting s) (hin : (consumer α).program.Within s .tryDequeue s') :
    ∃ next : Option (Op α Dequeue), s'.ops = next.toList ∧
      Dequeueing s.mem s.trace s'.mem next s'.trace := by
  obtain ⟨hmatchesHistory, hidle, hrest⟩ := h
  obtain ⟨m, ops, tr⟩ := s
  subst hidle
  refine hin.invariant rfl (fun r hr => ?_) fun mem o tr' z r hK hr => ?_
  · obtain rfl := Option.some.inj hr
    exact ⟨some .loadWrite, rfl, hmatchesHistory.tryDequeue fun _ hc => absurd hc List.not_mem_nil,
      ⟨trivial, rfl, hrest.buried⟩, .refl, Nat.le_refl _⟩
  · obtain ⟨c?, hnext, hmem, hrunning, hframe, hhead⟩ := hK
    obtain ⟨c, rfl, rfl⟩ := Option.map_eq_some_iff.mp hnext.symm
    obtain ⟨r', hr', rfl⟩ := Option.map_eq_some_iff.mp hr
    have hvalid : c.Valid mem := hmem.valid c (List.mem_singleton.mpr rfl)
    have hsplit : MatchesHistory (⟨mem, [] ++ .dequeue c :: [], tr'⟩ : State α Dequeue) := hmem
    have hstep := dequeueStep_of_advance hmem.board hvalid hr'
    have hmem' := hsplit.dequeue hr'
    rw [List.nil_append, List.append_nil] at hmem'
    exact ⟨r'.next, rfl, hmem', running_of_advance hmem.board hvalid hrunning hr',
      hframe.trans (frame_of_advance hr'), Nat.le_trans hhead hstep.grows.head⟩

/-- **A call of `try_dequeue` that is run alone** takes the first item that is not claimed, or finds
that there is none. -/
theorem Resting.tryDequeue (h : Resting s) (hret : (consumer α).program.Returns s .tryDequeue s') :
    Resting s' ∧ s'.mem.tickets = s.mem.tickets ∧ Dequeued s s' := by
  obtain ⟨next, hops, c?, rfl, hmem, hrunning, hframe, hhead⟩ := h.dequeueing hret.1
  obtain rfl : c? = none := eq_none_of_returned (hops.symm.trans hret.2)
  obtain ⟨hmatchesHistory, hidle, hrest⟩ := h
  obtain ⟨hburied, hdone⟩ := hrunning
  refine ⟨⟨?_, hret.2, hrest.frame hframe hburied⟩, hframe.tickets, ?_⟩
  · rw [← hops] at hmem
    exact hmem
  · obtain ⟨htook, hread⟩ | hempty := hdone
    · exact .took htook hread
    · exact .empty hempty (hrest.head_eq_of_empty hmatchesHistory.board hmem.board hframe
        hempty.1 hhead)

/-- Every call returns, after so many accesses as its loops need. -/
theorem Resting.exists_returns (h : Resting s) (c : Call α) :
    ∃ s', (consumer α).program.Returns s c s' := by
  cases c with
  | enqueue p v => exact holdsForProducers.exists_enqueue h.matchesHistory h.idle
  | tryDequeue =>
    obtain ⟨hmatchesHistory, hidle, hrest⟩ := h
    obtain ⟨m, ops, tr⟩ := s
    subst hidle
    have henqueued : ∀ x n, .placed x n ∈ tr → .enqueued x ∈ tr :=
      fun _ _ hx => hmatchesHistory.producing.enqueued hmatchesHistory.board hx
    have hlast : m.made - 1 = m.tail := by
      have htail : m.tail + 1 = m.made := hrest.tail
      omega
    have hresult : ∃ m' tr', Completes Dequeue.advance Anything m tr .loadWrite m' tr' := by
      obtain ⟨-, m', hm'⟩ | ⟨x, -, m', hm'⟩ :=
        completes hmatchesHistory.board henqueued (.inr (hlast ▸ hrest.write))
      · exact ⟨m', _, hm'⟩
      · exact ⟨m', _, hm'⟩
    obtain ⟨m', tr', hm'⟩ := hresult
    have hall : Completes (consumer α).program.advance (fun _ _ => True) m tr
      (.dequeue .loadWrite) m' tr' :=
      (consumer α).completes hm' fun _ _ _ => trivial
    exact ⟨_, Program.Returns.of_completes rfl rfl hall⟩

end MPSCQueue

end Queue
end Scheduler
end NUClear
