import NUClear.Scheduler.Queue.Sequential
import Mathlib.Data.List.Induction

/-!
# The queues as a list

Calls that are made one after the other do to either queue what they do to a list (`Fifo`): the same
results come back (`Represents`), `TaskQueue::empty` says whether the list is empty, and the
destructor destroys the items of the list, each once, and frees every block.

## The list

`Fifo` is the abstract queue: its items, the next one first, and what was returned.  `Represents`
relates a state to it, by the items of the places that are not claimed, and is kept by each call
that is run alone (`Represents.enqueue`, `Represents.took`, `Represents.empty`).  What such a call
does to the places is known from `Sequential`; nothing here looks at an access.

## Loops over the blocks

The loops of `empty` and of the destructors follow the links from block to block.  They end because
they visit every block once at most, which is the bound they are given (`chain`): the links from
`head` lead to all blocks behind it (`chain_next`), those of the graveyard to all blocks before it
(`chain_of_pred`).

The destructor destroys the slots that hold an item.  `TaskQueue` asks each slot whether it is
committed, `MPSCQueue` takes those between `read` and `write`; when no call is in progress both are
the slots of the places that are not claimed (`destroyLiveSlots_eq`).

* `refines_fifo`: every sequence of calls returns, with the results of the list.
-/

namespace NUClear
namespace Scheduler
namespace Queue

open Foundation QueueHistory

variable {α γ : Type} {m : Memory α} {tr : List (QueueEvent (Item α))} {x : Item α} {b i n k : ℕ}

/-! ## A list in blocks -/

section

variable {β δ : Type}

/-- The items from the one with number `c` on, by their numbers. -/
theorem filterMap_range_eq_drop (l : List β) (c N : ℕ) (hN : l.length ≤ N) :
    (List.range N).filterMap (fun n => if n < c then none else l[n]?) = l.drop c := by
  induction l generalizing c N with
  | nil =>
    rw [List.drop_nil, List.filterMap_eq_nil_iff]
    intro n _
    rw [List.getElem?_nil, ite_self]
  | cons a l ih =>
    obtain ⟨N, rfl⟩ := Nat.exists_eq_succ_of_ne_zero
      (Nat.ne_of_gt (Nat.lt_of_lt_of_le (Nat.succ_pos _) hN))
    replace hN : l.length ≤ N := Nat.le_of_succ_le_succ hN
    rw [Nat.succ_eq_add_one, List.range_succ_eq_map, List.filterMap_cons, List.filterMap_map]
    cases c with
    | zero =>
      have hrest := ih 0 N hN
      simp only [Nat.not_lt_zero, if_false, List.drop_zero] at hrest
      simp only [Nat.not_lt_zero, if_false, List.drop_zero, List.getElem?_cons_zero]
      exact congrArg (a :: ·) hrest
    | succ c =>
      have hrest := ih c N hN
      rw [if_pos (Nat.succ_pos c), List.drop_succ_cons, ← hrest]
      refine List.filterMap_congr fun n _ => ?_
      show (if n + 1 < c + 1 then none else (a :: l)[n + 1]?) = _
      rw [List.getElem?_cons_succ]
      simp only [Nat.add_lt_add_iff_right]

/-- The places of the first blocks. -/
theorem flatMap_range_blocks (f : ℕ → Option β) (k : ℕ) :
    (List.range k).flatMap (fun b => (List.range blockSize).filterMap fun i => f (place b i)) =
      (List.range (k * blockSize)).filterMap f := by
  induction k with
  | zero => rw [Nat.zero_mul]; rfl
  | succ k ih =>
    rw [List.range_succ, List.flatMap_append, ih, Nat.succ_mul, List.range_add,
      List.filterMap_append,
      List.filterMap_map, List.flatMap_cons, List.flatMap_nil, List.append_nil]
    rfl

/-- Blocks that have nothing may be left out. -/
theorem flatMap_range'_blocks (f : ℕ → Option β) {h k : ℕ} (hle : h ≤ k)
    (hnone : ∀ b < h, ∀ i < blockSize, f (place b i) = none) :
    (List.range' h (k - h)).flatMap (fun b => (List.range blockSize).filterMap fun i =>
      f (place b i)) =
      (List.range (k * blockSize)).filterMap f := by
  have hsplit : List.range k = List.range h ++ List.range' h (k - h) := by
    have happend := List.range'_append_1 (s := 0) (m := h) (n := k - h)
    rw [Nat.zero_add, Nat.add_sub_cancel' hle] at happend
    rw [List.range_eq_range', List.range_eq_range', happend]
  have hfirst : (List.range h).flatMap (fun b => (List.range blockSize).filterMap fun i =>
    f (place b i)) = [] := by
    refine List.flatMap_eq_nil_iff.mpr fun b hb => List.filterMap_eq_nil_iff.mpr fun i hi => ?_
    exact hnone b (List.mem_range.mp hb) i (List.mem_range.mp hi)
  rw [← flatMap_range_blocks, hsplit, List.flatMap_append, hfirst, List.nil_append]

theorem map_filter_eq_filterMap (p : β → Bool) (g : β → δ) (l : List β) :
    (l.filter p).map g = l.filterMap fun i => if p i then some (g i) else none := by
  rw [← List.filterMap_eq_map, List.filterMap_filter]
  rfl

theorem map_range'_eq_filterMap (g : ℕ → δ) {lo hi N : ℕ} (hN : hi ≤ N) :
    (List.range' lo (hi - lo)).map g =
      (List.range N).filterMap fun i => if lo ≤ i ∧ i < hi then some (g i) else none := by
  have hfilter : List.range' lo (hi - lo) = (List.range N).filter fun i => lo ≤ i ∧ i < hi := by
    have hperm : (List.range' lo (hi - lo)).Perm
      ((List.range N).filter fun i => lo ≤ i ∧ i < hi) := by
      refine (List.perm_ext_iff_of_nodup List.nodup_range' (List.nodup_range.filter _)).mpr
        fun i => ?_
      rw [List.mem_range'_1, List.mem_filter, List.mem_range, decide_eq_true_eq]
      omega
    have hsorted : (List.range' lo (hi - lo)).Pairwise (· ≤ ·) := List.pairwise_le_range'
    exact hperm.eq_of_pairwise (fun a b _ _ => Nat.le_antisymm) hsorted
      (List.pairwise_le_range.filter _)
  rw [hfilter, map_filter_eq_filterMap]
  simp only [decide_eq_true_eq]

end

/-! ## Loops over the blocks -/

/-- The blocks that a loop visits that follows the links, at most `k`.  It is `none` when there is
one more to visit then. -/
def chain (next : ℕ → Option ℕ) : ℕ → Option ℕ → Option (List ℕ)
  | _, none => some []
  | 0, some _ => none
  | k + 1, some b => (chain next k (next b)).map (b :: ·)

theorem chain_of_pred {next : ℕ → Option ℕ} (hnext : ∀ b < n, next b = Nat.ppred b) (hk : n ≤ k) :
    chain next k (Nat.ppred n) = some (List.range n).reverse := by
  induction n generalizing k with
  | zero => cases k <;> rfl
  | succ n ih =>
    obtain ⟨k, rfl⟩ := Nat.exists_eq_succ_of_ne_zero
      (Nat.ne_of_gt (Nat.lt_of_lt_of_le (Nat.succ_pos _) hk))
    have hrest := ih (fun b hb => hnext b (Nat.lt_succ_of_lt hb)) (Nat.le_of_succ_le_succ hk)
    rw [Nat.ppred_succ, Nat.succ_eq_add_one, chain, hnext n (Nat.lt_succ_self n), hrest,
      List.range_succ,
      List.reverse_concat]
    rfl

/-- The links from a block on lead to all blocks that were linked behind it. -/
theorem chain_next (h : m.WellFormed) (hb : b < m.made) (hk : m.made - b ≤ k) :
    chain (fun b => (m.block b).next) k (some b) = some (List.range' b (m.made - b)) := by
  induction k generalizing b with
  | zero => omega
  | succ k ih =>
    rw [chain, h.next b hb]
    split_ifs with hmore
    · have hlen : m.made - b = m.made - (b + 1) + 1 := by omega
      rw [ih hmore (by omega), hlen, List.range'_succ]
      rfl
    · have hlen : m.made - b = 0 + 1 := by omega
      rw [hlen, List.range'_succ]
      cases k <;> rfl

/-- The destructor: what `destroy_live_slots` finds in the slots that it destroys, and the blocks
that are deleted, those from `head` on first and then the graveyard. -/
def destroy (destroyLiveSlots : Block α → List (Option (Item α))) (m : Memory α) :
    Option (List (Option (Item α)) × List ℕ) := do
  let live ← chain (fun b => (m.block b).next) m.made (some m.head)
  let dead ← chain (fun b => (m.block b).graveyardNext) m.made m.graveyard
  return (live.flatMap fun b => destroyLiveSlots (m.block b), live ++ dead)

/-- The item of a place that is not claimed. -/
def unclaimed (tr : List (QueueEvent (Item α))) (n : ℕ) : Option (Item α) :=
  if n < claims tr then none else (order tr)[n]?

/-- The live slots of a block are those of the places that are not claimed. -/
theorem destroy_eq {destroyLiveSlots : Block α → List (Option (Item α))} (hb : Board m tr)
    (hburied : Buried m m.head)
    (hslots : ∀ b < m.made, destroyLiveSlots (m.block b) =
      (List.range blockSize).filterMap fun i => (unclaimed tr (place b i)).map some) :
    ∃ blocks, destroy destroyLiveSlots m = some ((pending tr).map some, blocks) ∧
      blocks.Perm (List.range m.made) := by
  have hhead := hb.wf.head_lt
  have hlive := chain_next hb.wf hhead (Nat.sub_le m.made m.head)
  have hdead := chain_of_pred hburied.next (Nat.le_of_lt hhead)
  refine ⟨List.range' m.head (m.made - m.head) ++ (List.range m.head).reverse, ?_, ?_⟩
  · rw [destroy, hlive, hburied.graveyard, hdead]
    show some ((List.range' m.head (m.made - m.head)).flatMap
      (fun b => destroyLiveSlots (m.block b)), _) = _
    have hblocks : (List.range' m.head (m.made - m.head)).flatMap
      (fun b => destroyLiveSlots (m.block b)) =
        (List.range' m.head (m.made - m.head)).flatMap
          fun b => (List.range blockSize).filterMap fun i =>
            (unclaimed tr (place b i)).map some := by
      refine List.flatMap_congr fun b hmem => hslots b ?_
      have hlt := (List.mem_range'_1.mp hmem).2
      omega
    have hbefore : ∀ b < m.head, ∀ i < blockSize, (unclaimed tr (place b i)).map some = none := by
      intro b hlt i hi
      have hclaimed : place b i < claims tr := by
        rw [hb.claims, hb.wf.place_lt_claims (Nat.lt_trans hlt hhead) hi, hb.wf.drained b hlt]
        exact hi
      rw [unclaimed, if_pos hclaimed]
      rfl
    have hall : (order tr).length ≤ m.made * blockSize := by
      have hpos := hb.wf.made_pos
      rw [length_order, hb.places, Memory.places, place, blockSize]
      omega
    rw [hblocks, flatMap_range'_blocks (fun n => (unclaimed tr n).map some)
      (Nat.le_of_lt hhead) hbefore,
      ← List.map_filterMap]
    unfold unclaimed
    rw [filterMap_range_eq_drop _ _ _ hall]
    rfl
  · have happend := List.range'_append_1 (s := 0) (m := m.head) (n := m.made - m.head)
    rw [Nat.zero_add, Nat.add_sub_cancel' (Nat.le_of_lt hhead), ← List.range_eq_range',
      ← List.range_eq_range']
      at happend
    rw [← happend]
    exact List.perm_append_comm.trans ((List.reverse_perm _).append_right _)

/-! ## What is in the slots when no call is in progress -/

/-- A slot of a place that is not claimed, when every item that has a place is enqueued. -/
theorem slot_of_unclaimed (hb : Board m tr) (henqueued : ∀ x n, .placed x n ∈ tr → .enqueued x ∈ tr)
    (hi : i < blockSize) (hclaims : claims tr ≤ place b i)
    (hplaces : place b i < QueueHistory.places tr) :
    ∃ x, unclaimed tr (place b i) = some x ∧ (m.block b).slots i = ⟨some x, true⟩ := by
  obtain ⟨x, hx⟩ := hb.lawful.exists_placed hplaces
  have hnew : .dequeued x ∉ tr := by
    intro hd
    obtain ⟨n, hn, hlt⟩ := hb.lawful.claimed_of_dequeued hd
    have heq := hb.lawful.place_unique hx hn
    omega
  have hstored := hb.holds.stored x b i hi hx hnew
  have hcommitted := (hb.holds.committed x b i hi hx hnew).mpr (henqueued x _ hx)
  refine ⟨x, ?_, ?_⟩
  · rw [unclaimed, if_neg (Nat.not_lt.mpr hclaims), hb.lawful.order_getElem? hx]
  · cases hslot : (m.block b).slots i with
    | mk storage committed =>
      rw [hslot] at hstored hcommitted
      rw [show storage = some x from hstored, show committed = true from hcommitted]

theorem unclaimed_eq_none (h : ¬ (claims tr ≤ n ∧ n < QueueHistory.places tr)) :
    unclaimed tr n = none := by
  rw [unclaimed]
  split_ifs with hlt
  · rfl
  · rw [List.getElem?_eq_none_iff, length_order]
    omega

/-! ## `TaskQueue` -/

namespace TaskQueue

/-- `empty`: its loop, from a block on. -/
def emptyFrom (m : Memory α) : ℕ → Option ℕ → Option Bool
  | _, none => some true
  | 0, some _ => none
  | k + 1, some b =>
      let published := min (m.block b).write blockSize
      if (m.block b).read < published then some false else emptyFrom m k (m.block b).next

/-- `empty`. -/
def empty (m : Memory α) : Option Bool := emptyFrom m m.made (some m.head)

/-- `destroy_live_slots`: the slots that are committed. -/
def destroyLiveSlots (B : Block α) : List (Option (Item α)) :=
  ((List.range blockSize).filter fun i => (B.slots i).committed).map fun i => (B.slots i).storage

theorem emptyFrom_eq (h : m.WellFormed) (hb : b < m.made) (hk : m.made - b ≤ k) :
    emptyFrom m k (some b) =
      some (decide (∀ b' < m.made, b ≤ b' → ¬ (m.block b').read <
        min (m.block b').write blockSize)) := by
  induction k generalizing b with
  | zero => omega
  | succ k ih =>
    rw [emptyFrom]
    by_cases hread : (m.block b).read < min (m.block b).write blockSize
    · rw [if_pos hread, eq_comm, Option.some.injEq, decide_eq_false_iff_not]
      exact fun hall => hall b hb (Nat.le_refl b) hread
    · rw [if_neg hread, h.next b hb]
      split_ifs with hmore
      · rw [ih hmore (by omega), Option.some.injEq, decide_eq_decide]
        constructor
        · intro hall b' hb' hle
          obtain heq | hlt := Nat.eq_or_lt_of_le hle
          · exact heq ▸ hread
          · exact hall b' hb' hlt
        · exact fun hall b' hb' hle => hall b' hb' (Nat.le_of_succ_le hle)
      · have hall : ∀ b' < m.made, b ≤ b' → ¬ (m.block b').read <
          min (m.block b').write blockSize := by
          intro b' hb' hle
          obtain rfl : b = b' := by omega
          exact hread
        rw [decide_eq_true hall]
        cases k <;> rfl

/-- `empty` finds no slot that is not claimed when there is no such place. -/
theorem empty_eq (hb : Board m tr) : empty m =
    some (decide (claims tr = QueueHistory.places tr)) := by
  have hhead := hb.wf.head_lt
  have hle := hb.wf.read_le m.head hhead
  rw [empty, emptyFrom_eq hb.wf hhead (Nat.sub_le ..), Option.some.injEq, decide_eq_decide]
  constructor
  · intro hall
    refine Nat.le_antisymm hb.lawful.claims_le (Nat.not_lt.mp fun hlt => ?_)
    obtain ⟨b, i, hi, heq⟩ := exists_place (claims tr)
    have hplaced : place b i < m.places := by
      rw [heq, ← hb.places]
      exact hlt
    have hmade := hb.wf.lt_made_of_place_lt hi hplaced
    have hwrite := (hb.wf.place_lt_places hmade hi).mp hplaced
    have hread := mt (hb.wf.place_lt_claims hmade hi).mpr
      (by rw [heq, ← hb.claims]; exact Nat.lt_irrefl _)
    have hfrom : m.head ≤ b := by
      by_contra hbefore
      have hdrained := hb.wf.drained b (Nat.not_le.mp hbefore)
      omega
    exact hall b hmade hfrom (by omega)
  · intro heq b' hb' _ hlt
    have hi : (m.block b').read < blockSize := by omega
    have hplaced := (hb.wf.place_lt_places hb' hi).mpr (by omega)
    have hclaimed := mt (hb.wf.place_lt_claims hb' hi).mp (Nat.lt_irrefl _)
    rw [← hb.places] at hplaced
    rw [← hb.claims] at hclaimed
    omega

/-- The slots of a block that the destructor destroys. -/
theorem destroyLiveSlots_eq (hs : MatchesHistory (⟨m, [], tr⟩ : State α Dequeue))
    (hbm : b < m.made) :
    destroyLiveSlots (m.block b) =
      (List.range blockSize).filterMap fun i => (unclaimed tr (place b i)).map some := by
  have hb : Board m tr := hs.board
  rw [destroyLiveSlots, map_filter_eq_filterMap]
  refine List.filterMap_congr fun i hmem => ?_
  have hi : i < blockSize := List.mem_range.mp hmem
  by_cases hlive : claims tr ≤ place b i ∧ place b i < QueueHistory.places tr
  · obtain ⟨x, hx, hslot⟩ := slot_of_unclaimed hb (fun x n hx => hs.producing.enqueued hb hx) hi
      hlive.1 hlive.2
    rw [hx, hslot]
    rfl
  · have hcommitted : ((m.block b).slots i).committed = false := by
      by_cases hclaimed : place b i < claims tr
      · obtain ⟨c, hc, -⟩ | hcleared := hs.consuming.settled b i ⟨hi, hclaimed⟩
        · exact absurd hc List.not_mem_nil
        · exact hcleared.1
      · refine hb.holds.fresh b hbm i hi
          (Nat.not_lt.mp fun hlt => hlive ⟨Nat.not_lt.mp hclaimed, ?_⟩)
        rw [hb.places]
        exact (hb.wf.place_lt_places hbm hi).mpr hlt
    rw [hcommitted, unclaimed_eq_none hlive]
    rfl

end TaskQueue

/-! ## `MPSCQueue` -/

namespace MPSCQueue

/-- `destroy_live_slots`: the slots that are published and not read. -/
def destroyLiveSlots (B : Block α) : List (Option (Item α)) :=
  let published := min B.write blockSize
  (List.range' B.read (published - B.read)).map fun i => (B.slots i).storage

/-- The slots of a block that the destructor destroys. -/
theorem destroyLiveSlots_eq (hs : MatchesHistory (⟨m, [], tr⟩ : State α Dequeue))
    (hbm : b < m.made) :
    destroyLiveSlots (m.block b) =
      (List.range blockSize).filterMap fun i => (unclaimed tr (place b i)).map some := by
  have hb : Board m tr := hs.board
  rw [destroyLiveSlots, map_range'_eq_filterMap _ (Nat.min_le_right _ _)]
  refine List.filterMap_congr fun i hmem => ?_
  have hi : i < blockSize := List.mem_range.mp hmem
  have hread : (m.block b).read ≤ i ↔ claims tr ≤ place b i := by
    rw [← Nat.not_lt, ← Nat.not_lt, hb.claims, hb.wf.place_lt_claims hbm hi]
  have hwrite : i < min (m.block b).write blockSize ↔ place b i < QueueHistory.places tr := by
    rw [hb.places, hb.wf.place_lt_places hbm hi]
    omega
  by_cases hlive : claims tr ≤ place b i ∧ place b i < QueueHistory.places tr
  · obtain ⟨x, hx, hslot⟩ := slot_of_unclaimed hb (fun x n hx => hs.producing.enqueued hb hx) hi
      hlive.1 hlive.2
    rw [if_pos ⟨hread.mpr hlive.1, hwrite.mpr hlive.2⟩, hx, hslot]
    rfl
  · rw [if_neg fun h => hlive ⟨hread.mp h.1, hwrite.mp h.2⟩, unclaimed_eq_none hlive]
    rfl

end MPSCQueue

/-! ## The list -/

/-- A queue as a list, the next item first, and what was returned, latest first. -/
structure Fifo (α : Type) where
  items : List (Item α)
  tickets : ℕ
  results : List (Option (Item α))
  deriving DecidableEq, Repr

namespace Fifo

def call (l : Fifo α) : Call α → Fifo α
  | .enqueue p v => { l with items := l.items ++ [⟨l.tickets, p, v⟩], tickets := l.tickets + 1 }
  | .tryDequeue => { l with items := l.items.tail, results := l.items.head? :: l.results }

/-- The calls are made one after the other. -/
def run (calls : List (Call α)) : Fifo α := calls.foldl call ⟨[], 0, []⟩

theorem run_concat (calls : List (Call α)) (c : Call α) :
    run (calls ++ [c]) = (run calls).call c := by
  rw [run, run, List.foldl_concat]

end Fifo

/-- The items that are not claimed are those of the list, in their order, and the results are the
same. -/
structure Represents (s : State α γ) (l : Fifo α) : Prop where
  items : pending s.trace = l.items
  tickets : s.mem.tickets = l.tickets
  results : QueueHistory.results s.trace = l.results

namespace Represents

variable {s s' : State α γ} {l : Fifo α}

theorem start : Represents (Queue.start : State α γ) (Fifo.run []) := ⟨rfl, rfl, rfl⟩

theorem enqueue {p : ℕ} {v : α} (h : Represents s l) (hlawful : Lawful Item.producer s'.trace)
    (henqueued : Enqueued s s' p v) : Represents s' (l.call (.enqueue p v)) := by
  obtain ⟨n, htrace⟩ := henqueued.trace
  rw [htrace] at hlawful
  have hcalled : Lawful Item.producer (.called ⟨s.mem.tickets, p, v⟩ :: s.trace) := by
    cases hlawful with
    | cons hplaced _ =>
      cases hplaced with
      | cons hcalled _ => exact hcalled
  have hpending : pending s'.trace = pending s.trace ++ [⟨s.mem.tickets, p, v⟩] := by
    rw [htrace]
    exact hcalled.pending_placed _ n
  refine ⟨?_, henqueued.tickets.trans (congrArg (· + 1) h.tickets), ?_⟩
  · rw [hpending, h.items, h.tickets]
    rfl
  · rw [htrace]
    exact h.results

theorem took (h : Represents s l) (hlawful : Lawful Item.producer s.trace)
    (htickets : s'.mem.tickets = s.mem.tickets) (htook : Took s.trace s'.trace) :
    Represents s' (l.call .tryDequeue) := by
  obtain ⟨x, hx, htrace⟩ := htook
  have hpending : l.items = x :: pending s'.trace := by
    rw [← h.items, htrace]
    exact hlawful.pending_claimed hx
  refine ⟨?_, htickets.trans h.tickets, ?_⟩
  · show pending s'.trace = l.items.tail
    rw [hpending, List.tail_cons]
  · show QueueHistory.results s'.trace = l.items.head? :: l.results
    rw [hpending, List.head?_cons, htrace, ← h.results]
    rfl

theorem empty (h : Represents s l) (hlawful : Lawful Item.producer s.trace)
    (htickets : s'.mem.tickets = s.mem.tickets) (hempty : FoundEmpty s.trace s'.trace) :
    Represents s' (l.call .tryDequeue) := by
  obtain ⟨hclaims, htrace⟩ := hempty
  have hnil : l.items = [] := h.items.symm.trans (hlawful.pending_eq_nil_iff.mpr hclaims)
  refine ⟨?_, htickets.trans h.tickets, ?_⟩
  · show pending s'.trace = l.items.tail
    rw [hnil, htrace]
    exact h.items.trans hnil
  · show QueueHistory.results s'.trace = l.items.head? :: l.results
    rw [hnil, htrace, ← h.results]
    rfl

end Represents

/-! ## Every sequence of calls -/

/-- What each call of a queue does when it is run alone: it returns, keeps `I`, and does to the list
what `Fifo.call` does. -/
structure RunsAlone (C : Consumer α γ) (I : State α γ → Prop) : Prop where
  start : I start
  lawful : ∀ s, I s → Lawful Item.producer s.trace
  enqueue : ∀ s s' p v, I s → C.program.Returns s (.enqueue p v) s' → I s' ∧ Enqueued s s' p v
  tryDequeue : ∀ s s', I s → C.program.Returns s .tryDequeue s' →
    I s' ∧ s'.mem.tickets = s.mem.tickets ∧ (Took s.trace s'.trace ∨ FoundEmpty s.trace s'.trace)
  exists_returns : ∀ s c, I s → ∃ s', C.program.Returns s c s'

namespace RunsAlone

variable {C : Consumer α γ} {I : State α γ → Prop} {s : State α γ} {calls : List (Call α)}

theorem represents_of_calls (hC : RunsAlone C I) (h : C.program.Calls Queue.start calls s) :
    I s ∧ Represents s (Fifo.run calls) := by
  induction h with
  | nil => exact ⟨hC.start, .start⟩
  | @concat s s' calls c _ hc ih =>
    obtain ⟨hs, hrep⟩ := ih
    rw [Fifo.run_concat]
    cases c with
    | enqueue p v =>
      obtain ⟨hs', henqueued⟩ := hC.enqueue s s' p v hs hc
      exact ⟨hs', hrep.enqueue (hC.lawful s' hs') henqueued⟩
    | tryDequeue =>
      obtain ⟨hs', htickets, htook | hempty⟩ := hC.tryDequeue s s' hs hc
      · exact ⟨hs', hrep.took (hC.lawful s hs) htickets htook⟩
      · exact ⟨hs', hrep.empty (hC.lawful s hs) htickets hempty⟩

theorem exists_calls (hC : RunsAlone C I) (calls : List (Call α)) :
    ∃ s, C.program.Calls Queue.start calls s := by
  induction calls using List.reverseRecOn with
  | nil => exact ⟨_, .nil⟩
  | append_singleton calls c ih =>
    obtain ⟨s, hs⟩ := ih
    obtain ⟨s', hs'⟩ := hC.exists_returns s c (hC.represents_of_calls hs).1
    exact ⟨s', .concat hs hs'⟩

end RunsAlone

namespace TaskQueue

theorem runsAlone : RunsAlone (consumer α) Resting where
  start := .start
  lawful _ hs := hs.matchesHistory.board.lawful
  enqueue _ _ _ _ hs hc := hs.enqueue hc
  tryDequeue _ _ hs hc := by
    obtain ⟨hs', htickets, hdequeued⟩ := hs.tryDequeue hc
    refine ⟨hs', htickets, ?_⟩
    cases hdequeued with
    | took htook _ => exact .inl htook
    | empty hempty _ => exact .inr hempty
  exists_returns _ c hs := hs.exists_returns c

end TaskQueue

namespace MPSCQueue

theorem runsAlone : RunsAlone (consumer α) Resting where
  start := .start
  lawful _ hs := hs.matchesHistory.board.lawful
  enqueue _ _ _ _ hs hc := hs.enqueue hc
  tryDequeue _ _ hs hc := by
    obtain ⟨hs', htickets, hdequeued⟩ := hs.tryDequeue hc
    refine ⟨hs', htickets, ?_⟩
    cases hdequeued with
    | took htook _ => exact .inl htook
    | empty hempty _ => exact .inr hempty
  exists_returns _ c hs := hs.exists_returns c

end MPSCQueue

/-- **The queues refine a list.**  Every sequence of calls returns, and whatever the spurious
failures were: the results are those of the list, `empty` says whether the list is empty, and the
destructor destroys the items of the list, each once, and deletes every block once. -/
theorem refines_fifo (calls : List (Call α)) :
    ((∃ s, (TaskQueue.consumer α).program.Calls start calls s) ∧
      ∀ s, (TaskQueue.consumer α).program.Calls start calls s →
        results s.trace = (Fifo.run calls).results ∧
        TaskQueue.empty s.mem = some (Fifo.run calls).items.isEmpty ∧
        ∃ blocks, destroy TaskQueue.destroyLiveSlots s.mem =
          some ((Fifo.run calls).items.map some, blocks) ∧
          blocks.Perm (List.range s.mem.made)) ∧
    (∃ s, (MPSCQueue.consumer α).program.Calls start calls s) ∧
      ∀ s, (MPSCQueue.consumer α).program.Calls start calls s →
        results s.trace = (Fifo.run calls).results ∧
        ∃ blocks, destroy MPSCQueue.destroyLiveSlots s.mem =
          some ((Fifo.run calls).items.map some, blocks) ∧
          blocks.Perm (List.range s.mem.made) := by
  refine ⟨⟨TaskQueue.runsAlone.exists_calls calls, fun s hs => ?_⟩,
    MPSCQueue.runsAlone.exists_calls calls, fun s hs => ?_⟩
  · obtain ⟨⟨hmatchesHistory, hidle, hrest⟩, hrep⟩ := TaskQueue.runsAlone.represents_of_calls hs
    obtain ⟨m, ops, tr⟩ := s
    subst hidle
    refine ⟨hrep.results, ?_, ?_⟩
    · rw [TaskQueue.empty_eq hmatchesHistory.board, Option.some.injEq, ← hrep.items,
        Bool.eq_iff_iff, decide_eq_true_iff,
        List.isEmpty_iff]
      exact hmatchesHistory.board.lawful.pending_eq_nil_iff.symm
    · rw [← hrep.items]
      exact destroy_eq hmatchesHistory.board hrest.buried fun b hb =>
        TaskQueue.destroyLiveSlots_eq hmatchesHistory hb
  · obtain ⟨⟨hmatchesHistory, hidle, hrest⟩, hrep⟩ := MPSCQueue.runsAlone.represents_of_calls hs
    obtain ⟨m, ops, tr⟩ := s
    subst hidle
    refine ⟨hrep.results, ?_⟩
    rw [← hrep.items]
    exact destroy_eq hmatchesHistory.board hrest.buried fun b hb =>
      MPSCQueue.destroyLiveSlots_eq hmatchesHistory hb

end Queue
end Scheduler
end NUClear
