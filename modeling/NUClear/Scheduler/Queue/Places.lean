import NUClear.Scheduler.Queue.Blocks

/-!
# Places and slots

The slots of all blocks, one block after the other, are the places of the history (`Board`): `write`
counts the places that are given, `head` with the `read` of its block those that are claimed, and a
slot holds the item of its place from the reservation until it is dequeued.  This depends on `head`
leaving a block only when all of it is read (`Board.moveHead`).

Here is the arithmetic of it, without a history.

* `place_inj`, `exists_place`: every number is the place of one slot.
* The simp set of the memory: what a change of one block leaves of the others, and of the block's
  other counters (`modify_block`, `modify_congr`).
* `Memory.WellFormed`: the blocks from `head` on are not read, but for the first, and those before
  the last are full.  So the places that are given, and those that are claimed, are the first so
  many (`place_lt_places`, `place_lt_claims`), and a block with room is the last
  (`last_of_write_lt`).
* `Same`: changes that do not touch what is counted.  A `fetch_add` of `write` beyond the slots is
  one of them, because only the first `BLOCK_SIZE` are counted.

The lemmas at the end say how each operation changes the two numbers: one place more, one claim
more, or none.
-/

namespace NUClear
namespace Scheduler
namespace Queue

open Foundation QueueHistory

variable {α : Type} {m m' : Memory α} {tr : List (QueueEvent (Item α))} {x y : Item α}
  {b b' i j n : ℕ}

/-! ## Places -/

theorem place_inj (hi : i < blockSize) (hj : j < blockSize) (h : place b i = place b' j) :
    b = b' ∧ i = j := by
  simp only [place, blockSize] at *
  omega

/-- Every place is that of a slot. -/
theorem exists_place (n : ℕ) : ∃ b, ∃ i < blockSize, place b i = n :=
  ⟨n / blockSize, n % blockSize, Nat.mod_lt n (by decide), Nat.div_add_mod' n blockSize⟩

namespace Memory

/-- The number of places that are given: what `write` counts, over all blocks, up to the slots that
a block has. -/
def places (m : Memory α) : ℕ := place (m.made - 1) (min (m.block (m.made - 1)).write blockSize)

/-- The number of places that are claimed: all those of the blocks before `head`, and what the block
at `head` has read. -/
def claims (m : Memory α) : ℕ := place m.head (m.block m.head).read

theorem modify_block (m : Memory α) (b b' : ℕ) (f : Block α → Block α) :
    (m.modify b f).block b' = if b' = b then f (m.block b) else m.block b' :=
  Function.update_apply ..

/-- What the change of a block leaves as it is. -/
theorem modify_congr {β : Type} (g : Block α → β) {f : Block α → Block α} (hg : ∀ B, g (f B) = g B)
    (m : Memory α) (b b' : ℕ) : g ((m.modify b f).block b') = g (m.block b') := by
  rw [modify_block]
  split_ifs with h
  · rw [hg, h]
  · rfl

@[simp] theorem setSlot_write (m : Memory α) (b b' i : ℕ) (s : Slot α) :
    ((m.setSlot b i s).block b').write = (m.block b').write :=
  modify_congr Block.write (by intro; rfl) m b b'

@[simp] theorem setSlot_read (m : Memory α) (b b' i : ℕ) (s : Slot α) :
    ((m.setSlot b i s).block b').read = (m.block b').read :=
  modify_congr Block.read (by intro; rfl) m b b'

@[simp] theorem setSlot_consumed (m : Memory α) (b b' i : ℕ) (s : Slot α) :
    ((m.setSlot b i s).block b').consumed = (m.block b').consumed :=
  modify_congr Block.consumed (by intro; rfl) m b b'

@[simp] theorem setSlot_next (m : Memory α) (b b' i : ℕ) (s : Slot α) :
    ((m.setSlot b i s).block b').next = (m.block b').next :=
  modify_congr Block.next (by intro; rfl) m b b'

theorem setSlot_slots (m : Memory α) (b b' i j : ℕ) (s : Slot α) :
    ((m.setSlot b i s).block b').slots j = if b' = b ∧ j = i then s else (m.block b').slots j := by
  rw [setSlot, modify_block]
  by_cases hb : b' = b
  · subst hb
    simp only [if_true, true_and]
    exact Function.update_apply ..
  · rw [if_neg hb, if_neg fun h => hb h.1]

theorem addWrite_write (m : Memory α) (b b' : ℕ) :
    ((m.addWrite b).block b').write = (m.block b').write + if b' = b then 1 else 0 := by
  rw [addWrite, modify_block]
  split_ifs with h
  · rw [h]
  · rfl

@[simp] theorem addWrite_read (m : Memory α) (b b' : ℕ) :
    ((m.addWrite b).block b').read = (m.block b').read :=
  modify_congr Block.read (by intro; rfl) m b b'

@[simp] theorem addWrite_consumed (m : Memory α) (b b' : ℕ) :
    ((m.addWrite b).block b').consumed = (m.block b').consumed :=
  modify_congr Block.consumed (by intro; rfl) m b b'

@[simp] theorem addWrite_next (m : Memory α) (b b' : ℕ) :
    ((m.addWrite b).block b').next = (m.block b').next :=
  modify_congr Block.next (by intro; rfl) m b b'

@[simp] theorem addWrite_slots (m : Memory α) (b b' : ℕ) :
    ((m.addWrite b).block b').slots = (m.block b').slots :=
  modify_congr Block.slots (by intro; rfl) m b b'

theorem addRead_read (m : Memory α) (b b' : ℕ) :
    ((m.addRead b).block b').read = (m.block b').read + if b' = b then 1 else 0 := by
  rw [addRead, modify_block]
  split_ifs with h
  · rw [h]
  · rfl

@[simp] theorem addRead_write (m : Memory α) (b b' : ℕ) :
    ((m.addRead b).block b').write = (m.block b').write :=
  modify_congr Block.write (by intro; rfl) m b b'

@[simp] theorem addRead_consumed (m : Memory α) (b b' : ℕ) :
    ((m.addRead b).block b').consumed = (m.block b').consumed :=
  modify_congr Block.consumed (by intro; rfl) m b b'

@[simp] theorem addRead_next (m : Memory α) (b b' : ℕ) :
    ((m.addRead b).block b').next = (m.block b').next :=
  modify_congr Block.next (by intro; rfl) m b b'

@[simp] theorem addRead_slots (m : Memory α) (b b' : ℕ) :
    ((m.addRead b).block b').slots = (m.block b').slots :=
  modify_congr Block.slots (by intro; rfl) m b b'

theorem addConsumed_consumed (m : Memory α) (b b' : ℕ) :
    ((m.addConsumed b).block b').consumed = (m.block b').consumed + if b' = b then 1 else 0 := by
  rw [addConsumed, modify_block]
  split_ifs with h
  · rw [h]
  · rfl

@[simp] theorem addConsumed_slots (m : Memory α) (b b' : ℕ) :
    ((m.addConsumed b).block b').slots = (m.block b').slots :=
  modify_congr Block.slots (by intro; rfl) m b b'

/-- What linking leaves of the blocks that are there. -/
theorem linkNextBlock_congr {β : Type} (g : Block α → β) (hg : ∀ B n, g { B with next := n } = g B)
    (hb : b' < m.made) : g ((m.linkNextBlock b).block b') = g (m.block b') := by
  rw [linkNextBlock]
  split_ifs
  · by_cases hbb : b' = b
    · subst hbb
      exact (congrArg g (Function.update_self b' _ _)).trans (hg _ _)
    · exact congrArg g ((Function.update_of_ne hbb ..).trans
        (Function.update_of_ne (Nat.ne_of_lt hb) ..))
  · rfl

theorem linkNextBlock_made (hb : b < m.made) (hnext : (m.block b).next = none) :
    (m.linkNextBlock b).block m.made = {} := by
  rw [linkNextBlock, if_pos hnext]
  exact (Function.update_of_ne (Nat.ne_of_gt hb) ..).trans (Function.update_self ..)

theorem linkNextBlock_next (hb : b < m.made) (hnext : (m.block b).next = none) (hb' : b' < m.made) :
    ((m.linkNextBlock b).block b').next = if b' = b then some m.made else (m.block b').next := by
  rw [linkNextBlock, if_pos hnext]
  split_ifs with hbb
  · subst hbb
    show (Function.update (Function.update m.block m.made {}) b' _ b').next = _
    rw [Function.update_self]
  · exact congrArg Block.next
      ((Function.update_of_ne hbb ..).trans (Function.update_of_ne (Nat.ne_of_lt hb') ..))

@[simp] theorem setGraveyardNext_consumed (m : Memory α) (b b' : ℕ) (dead : Option ℕ) :
    ((m.setGraveyardNext b dead).block b').consumed = (m.block b').consumed :=
  modify_congr Block.consumed (by intro; rfl) m b b'

@[simp] theorem setGraveyardNext_write (m : Memory α) (b b' : ℕ) (dead : Option ℕ) :
    ((m.setGraveyardNext b dead).block b').write = (m.block b').write :=
  modify_congr Block.write (by intro; rfl) m b b'

@[simp] theorem setGraveyardNext_slots (m : Memory α) (b b' : ℕ) (dead : Option ℕ) :
    ((m.setGraveyardNext b dead).block b').slots = (m.block b').slots :=
  modify_congr Block.slots (by intro; rfl) m b b'

end Memory

/-- The counters and the links are the same, but for what `write` counts beyond the slots: so the
places and the claims are the same, too. -/
structure Same (m m' : Memory α) : Prop where
  made : m'.made = m.made
  head : m'.head = m.head
  tickets : m'.tickets = m.tickets
  write : ∀ b, (m.block b).write ≤ (m'.block b).write ∧
    min (m'.block b).write blockSize = min (m.block b).write blockSize
  read : ∀ b, (m'.block b).read = (m.block b).read
  next : ∀ b, (m'.block b).next = (m.block b).next

namespace Same

/-- A change of a block that does not change what is counted. -/
theorem modify {f : Block α → Block α} (hwrite : ∀ B, (f B).write = B.write)
    (hread : ∀ B, (f B).read = B.read) (hnext : ∀ B, (f B).next = B.next) :
    Same m (m.modify b f) where
  made := rfl
  head := rfl
  tickets := rfl
  write b' := by rw [Memory.modify_congr Block.write hwrite]; exact ⟨Nat.le_refl _, rfl⟩
  read b' := Memory.modify_congr Block.read hread m b b'
  next b' := Memory.modify_congr Block.next hnext m b b'

theorem setSlot (s : Slot α) : Same m (m.setSlot b i s) :=
  Same.modify (by intro; rfl) (by intro; rfl) (by intro; rfl)

theorem addConsumed : Same m (m.addConsumed b) :=
  Same.modify (by intro; rfl) (by intro; rfl) (by intro; rfl)

theorem setGraveyardNext (dead : Option ℕ) : Same m (m.setGraveyardNext b dead) :=
  Same.modify (by intro; rfl) (by intro; rfl) (by intro; rfl)

/-- `write` goes beyond the slots. -/
theorem addWrite (hw : blockSize ≤ (m.block b).write) : Same m (m.addWrite b) where
  made := rfl
  head := rfl
  tickets := rfl
  write b' := by
    rw [Memory.addWrite_write]
    split_ifs with h
    · subst h
      omega
    · exact ⟨Nat.le_refl _, rfl⟩
  read b' := Memory.addWrite_read m b b'
  next b' := Memory.addWrite_next m b b'

theorem places (h : Same m m') : m'.places = m.places := by
  rw [Memory.places, Memory.places, h.made, (h.write _).2]

theorem claims (h : Same m m') : m'.claims = m.claims := by
  rw [Memory.claims, Memory.claims, h.head, h.read]

end Same

/-! ## The counters -/

/-- The blocks from `head` on are not read, but for the first, and those before the last are full.
The blocks before `head` are read, and no block is read further than it is written. -/
structure Memory.WellFormed (m : Memory α) : Prop where
  head_lt : m.head < m.made
  tail_lt : m.tail < m.made
  next : ∀ b < m.made, (m.block b).next = if b + 1 < m.made then some (b + 1) else none
  full : ∀ b, b + 1 < m.made → blockSize ≤ (m.block b).write
  read_le : ∀ b < m.made, (m.block b).read ≤ min (m.block b).write blockSize
  drained : ∀ b < m.head, (m.block b).read = blockSize
  unread : ∀ b < m.made, m.head < b → (m.block b).read = 0

namespace Memory.WellFormed

theorem make : (Memory.make : Memory α).WellFormed where
  head_lt := Nat.one_pos
  tail_lt := Nat.one_pos
  next b hb := by
    obtain rfl : b = 0 := Nat.lt_one_iff.mp hb
    rfl
  full b hb := absurd hb (by simp [Memory.make])
  read_le b _ := Nat.zero_le _
  drained b hb := absurd hb (Nat.not_lt_zero b)
  unread b _ _ := rfl

theorem made_pos (h : m.WellFormed) : 0 < m.made := Nat.zero_lt_of_lt h.head_lt

/-- The places that are given are those that the blocks count. -/
theorem place_lt_places (h : m.WellFormed) (hb : b < m.made) (hi : i < blockSize) :
    place b i < m.places ↔ i < (m.block b).write := by
  by_cases hlast : b + 1 < m.made
  · have hw := h.full b hlast
    refine iff_of_true ?_ (Nat.lt_of_lt_of_le hi hw)
    simp only [Memory.places, place, blockSize] at hi ⊢
    omega
  · obtain rfl : b = m.made - 1 := by omega
    simp only [Memory.places, place, blockSize] at hi ⊢
    omega

/-- A block that has room is the last. -/
theorem last_of_write_lt (h : m.WellFormed) (hb : b < m.made) (hw : (m.block b).write < blockSize) :
    b + 1 = m.made := by
  by_contra hne
  exact absurd (h.full b (by omega)) (by omega)

/-- The places that are claimed are those that the blocks count. -/
theorem place_lt_claims (h : m.WellFormed) (hb : b < m.made) (hi : i < blockSize) :
    place b i < m.claims ↔ i < (m.block b).read := by
  rcases Nat.lt_trichotomy b m.head with hlt | rfl | hgt
  · have hr := h.drained b hlt
    refine iff_of_true ?_ (by omega)
    simp only [Memory.claims, place, blockSize] at hi ⊢
    omega
  · simp only [Memory.claims, place, blockSize]
    omega
  · have hr := h.unread b hb hgt
    have hle := h.read_le m.head h.head_lt
    refine iff_of_false ?_ (by omega)
    simp only [Memory.claims, place, blockSize] at hle ⊢
    omega

theorem lt_made_of_place_lt (h : m.WellFormed) (hi : i < blockSize) (hlt : place b i < m.places) :
    b < m.made := by
  have hpos := h.made_pos
  simp only [Memory.places, place, blockSize] at hlt hi
  omega

theorem le_head_of_place_lt (h : m.WellFormed) (hlt : place b i < m.claims) : b ≤ m.head := by
  have hle := h.read_le m.head h.head_lt
  simp only [Memory.claims, place, blockSize] at hlt hle
  omega

theorem eq_succ_of_next (h : m.WellFormed) (hb : b < m.made) (hnext : (m.block b).next = some n) :
    n = b + 1 ∧ b + 1 < m.made := by
  rw [h.next b hb] at hnext
  split_ifs at hnext with hlt
  · exact ⟨(Option.some.inj hnext).symm, hlt⟩

theorem next_eq_none_iff (h : m.WellFormed) (hb : b < m.made) :
    (m.block b).next = none ↔ b + 1 = m.made := by
  rw [h.next b hb]
  split_ifs with hlt
  · exact iff_of_false nofun (Nat.ne_of_lt hlt)
  · exact iff_of_true rfl (by omega)

theorem same (h : m.WellFormed) (hs : Same m m') (htail : m'.tail < m'.made) : m'.WellFormed where
  head_lt := by rw [hs.head, hs.made]; exact h.head_lt
  tail_lt := htail
  next b hb := by rw [hs.next, hs.made]; exact h.next b (hs.made ▸ hb)
  full b hb := (h.full b (hs.made ▸ hb)).trans (hs.write b).1
  read_le b hb := by rw [hs.read, (hs.write b).2]; exact h.read_le b (hs.made ▸ hb)
  drained b hb := by rw [hs.read]; exact h.drained b (hs.head ▸ hb)
  unread b hb hlt := by rw [hs.read]; exact h.unread b (hs.made ▸ hb) (hs.head ▸ hlt)

/-- `write` is counted up: a place is given if the block has room. -/
theorem addWrite (h : m.WellFormed) (b : ℕ) : (m.addWrite b).WellFormed where
  head_lt := h.head_lt
  tail_lt := h.tail_lt
  next b' hb' := by
    rw [Memory.addWrite_next]
    exact h.next b' hb'
  full b' hb' := by
    rw [Memory.addWrite_write]
    exact Nat.le_trans (h.full b' hb') (Nat.le_add_right _ _)
  read_le b' hb' := by
    have hle := h.read_le b' hb'
    rw [Memory.addWrite_read, Memory.addWrite_write]
    omega
  drained b' hb' := by
    rw [Memory.addWrite_read]
    exact h.drained b' hb'
  unread b' hb' hlt := by
    rw [Memory.addWrite_read]
    exact h.unread b' hb' hlt

theorem places_addWrite (h : m.WellFormed) (hb : b < m.made)
    (hw : (m.block b).write < blockSize) :
    m.places = place b (m.block b).write ∧ (m.addWrite b).places = m.places + 1 := by
  have hlast := h.last_of_write_lt hb hw
  have hmade : m.made - 1 = b := by omega
  have hmade' : (m.addWrite b).made - 1 = b := hmade
  rw [Memory.places, Memory.places, hmade, hmade', Memory.addWrite_write, if_pos rfl]
  simp only [place, blockSize] at hw ⊢
  omega

/-- A place is claimed. -/
theorem addRead (h : m.WellFormed) (hr : (m.block m.head).read <
    min (m.block m.head).write blockSize) :
    (m.addRead m.head).WellFormed where
  head_lt := h.head_lt
  tail_lt := h.tail_lt
  next b' hb' := by
    rw [Memory.addRead_next]
    exact h.next b' hb'
  full b' hb' := by
    rw [Memory.addRead_write]
    exact h.full b' hb'
  read_le b' hb' := by
    have hle := h.read_le b' hb'
    rw [Memory.addRead_read, Memory.addRead_write]
    split_ifs with hbb
    · rw [hbb]
      exact hr
    · exact hle
  drained b' hb' := by
    have hne : b' ≠ m.head := Nat.ne_of_lt hb'
    rw [Memory.addRead_read, if_neg hne]
    exact h.drained b' hb'
  unread b' hb' hlt := by
    have hne : b' ≠ m.head := Nat.ne_of_gt hlt
    rw [Memory.addRead_read, if_neg hne]
    exact h.unread b' hb' hlt

theorem claims_addRead (m : Memory α) : (m.addRead m.head).claims = m.claims + 1 := by
  show place m.head ((m.addRead m.head).block m.head).read = m.claims + 1
  rw [Memory.addRead_read, if_pos rfl]
  exact (Nat.add_assoc _ _ _).symm

/-- A block is linked behind the last, which is full. -/
theorem linkNextBlock (h : m.WellFormed) (hb : b < m.made) (hw : blockSize ≤ (m.block b).write) :
    (m.linkNextBlock b).WellFormed := by
  by_cases hnext : (m.block b).next = none
  · have hlast := (h.next_eq_none_iff hb).mp hnext
    have hmade : (m.linkNextBlock b).made = m.made + 1 := by rw [Memory.linkNextBlock, if_pos hnext]
    have hhead : (m.linkNextBlock b).head = m.head := by rw [Memory.linkNextBlock, if_pos hnext]
    have htail : (m.linkNextBlock b).tail = m.tail := by rw [Memory.linkNextBlock, if_pos hnext]
    have hnew : (m.linkNextBlock b).block m.made = {} := Memory.linkNextBlock_made hb hnext
    refine ⟨?_, ?_, fun b' hb' => ?_, fun b' hb' => ?_, fun b' hb' => ?_, fun b' hb' => ?_,
      fun b' hb' hlt => ?_⟩
    · rw [hhead, hmade]
      exact Nat.lt_succ_of_lt h.head_lt
    · rw [htail, hmade]
      exact Nat.lt_succ_of_lt h.tail_lt
    · rw [hmade] at hb' ⊢
      obtain hlt | rfl := Nat.lt_succ_iff_lt_or_eq.mp hb'
      · rw [Memory.linkNextBlock_next hb hnext hlt]
        split_ifs with hbb hmore hmore
        · rw [hbb, hlast]
        · omega
        · rw [h.next b' hlt, if_pos (by omega)]
        · omega
      · rw [hnew, if_neg (Nat.lt_irrefl _)]
    · rw [hmade] at hb'
      have hlt : b' < m.made := Nat.lt_of_succ_lt_succ hb'
      rw [Memory.linkNextBlock_congr Block.write (by intros; rfl) hlt]
      by_cases hbb : b' = b
      · rw [hbb]
        exact hw
      · exact h.full b' (by omega)
    · rw [hmade] at hb'
      obtain hlt | rfl := Nat.lt_succ_iff_lt_or_eq.mp hb'
      · rw [Memory.linkNextBlock_congr Block.write (by intros; rfl) hlt,
          Memory.linkNextBlock_congr Block.read (by intros; rfl) hlt]
        exact h.read_le b' hlt
      · rw [hnew]
        exact Nat.zero_le _
    · rw [hhead] at hb'
      rw [Memory.linkNextBlock_congr Block.read (by intros; rfl) (Nat.lt_trans hb' h.head_lt)]
      exact h.drained b' hb'
    · rw [hmade] at hb'
      rw [hhead] at hlt
      obtain hlt' | rfl := Nat.lt_succ_iff_lt_or_eq.mp hb'
      · rw [Memory.linkNextBlock_congr Block.read (by intros; rfl) hlt']
        exact h.unread b' hlt' hlt
      · rw [hnew]
  · rwa [Memory.linkNextBlock, if_neg hnext]

/-- The next block is there then. -/
theorem next_linkNextBlock (h : m.WellFormed) (hb : b < m.made) :
    ((m.linkNextBlock b).block b).next = some (b + 1) := by
  by_cases hnext : (m.block b).next = none
  · rw [Memory.linkNextBlock_next hb hnext hb, if_pos rfl, (h.next_eq_none_iff hb).mp hnext]
  · have hne : b + 1 ≠ m.made := fun heq => hnext ((h.next_eq_none_iff hb).mpr heq)
    rw [Memory.linkNextBlock, if_neg hnext, h.next b hb, if_pos (by omega)]

theorem places_linkNextBlock (h : m.WellFormed) (hb : b < m.made)
    (hw : blockSize ≤ (m.block b).write) :
    (m.linkNextBlock b).places = m.places := by
  by_cases hnext : (m.block b).next = none
  · have hlast := (h.next_eq_none_iff hb).mp hnext
    have hmade : (m.linkNextBlock b).made - 1 = m.made := by
      rw [Memory.linkNextBlock, if_pos hnext]; rfl
    have hold : m.made - 1 = b := by omega
    have hnew : (m.linkNextBlock b).block m.made = {} := Memory.linkNextBlock_made hb hnext
    rw [Memory.places, Memory.places, hmade, hnew, hold, Nat.min_eq_right hw]
    simp only [place, blockSize]
    omega
  · rw [Memory.linkNextBlock, if_neg hnext]

theorem claims_linkNextBlock (h : m.WellFormed) (b : ℕ) :
    (m.linkNextBlock b).claims = m.claims := by
  have hhead : (m.linkNextBlock b).head = m.head := by
    rw [Memory.linkNextBlock]
    split_ifs <;> rfl
  rw [Memory.claims, Memory.claims, hhead,
    Memory.linkNextBlock_congr Block.read (by intros; rfl) h.head_lt]

/-- `head` leaves a block that is read. -/
theorem moveHead (h : m.WellFormed) (hr : (m.block m.head).read = blockSize)
    (hn : m.head + 1 < m.made) :
    ({ m with head := m.head + 1 } : Memory α).WellFormed where
  head_lt := hn
  tail_lt := h.tail_lt
  next := h.next
  full := h.full
  read_le := h.read_le
  drained b hb := by
    obtain hlt | rfl := Nat.lt_succ_iff_lt_or_eq.mp hb
    · exact h.drained b hlt
    · exact hr
  unread b hb hlt := h.unread b hb (Nat.lt_of_succ_lt hlt)

theorem claims_moveHead (h : m.WellFormed) (hr : (m.block m.head).read = blockSize)
    (hn : m.head + 1 < m.made) : ({ m with head := m.head + 1 } : Memory α).claims = m.claims := by
  have hzero := h.unread (m.head + 1) hn (Nat.lt_succ_self _)
  simp only [Memory.claims, place, hzero, hr, blockSize]
  omega

end Memory.WellFormed

end Queue
end Scheduler
end NUClear
