import NUClear.Scheduler.Queue.Places

/-!
# The board

`Board m tr` says that the memory is that of the history: `write` and `head` count the places, and a
slot holds the item of its place from the reservation until it is dequeued.  It says nothing about
who is where in its call, so both queues share it.

There is one lemma for each thing that a producer or a consumer does to the memory.  Each has the
least hypotheses under which the memory stays that of the history, and they are what the code has to
see to.

* What the producers do: `Board.called`, `Board.placed` (the reservation of a slot, with the item in
  it), `Board.addWrite` (a reservation beyond the slots), `Board.enqueued` (the commit),
  `Board.linkNextBlock` and `Board.moveTail`.
* What the consumers do: `Board.claimed`, `Board.dequeued`, `Board.cleared`, `Board.empty` and
  `Board.moveHead`.

`Board.moveHead` is the one with a hypothesis that the code does not always meet: the block that
`head` leaves has to be read.  All that the two queues lose, they lose there.

The lemmas about the history itself (what a lawful history is, how its places and its claims are
counted) are those of `Foundation.QueueHistory`; they know nothing of blocks.
-/

namespace NUClear
namespace Scheduler
namespace Queue

open Foundation QueueHistory

variable {α : Type} {m m' : Memory α} {tr tr' : List (QueueEvent (Item α))} {x y : Item α}
  {b b' i j n : ℕ} {s : Slot α}

/-! ## What the slots hold -/

/-- A slot holds the item of its place until it is dequeued, and is committed exactly from the
return of `enqueue` to then. -/
structure Holds (m : Memory α) (tr : List (QueueEvent (Item α))) : Prop where
  fresh : ∀ b < m.made, ∀ i < blockSize, (m.block b).write ≤ i →
    ((m.block b).slots i).committed = false
  stored : ∀ x b i, i < blockSize → .placed x (place b i) ∈ tr → .dequeued x ∉ tr →
    ((m.block b).slots i).storage = some x
  committed : ∀ x b i, i < blockSize → .placed x (place b i) ∈ tr → .dequeued x ∉ tr →
    (((m.block b).slots i).committed = true ↔ .enqueued x ∈ tr)

namespace Holds

theorem same (h : Holds m tr) (hmade : m'.made = m.made)
    (hwrite : ∀ b, (m.block b).write ≤ (m'.block b).write)
    (hslots : ∀ b, (m'.block b).slots = (m.block b).slots) : Holds m' tr where
  fresh b hb i hi hw := by
    rw [hslots]
    exact h.fresh b (hmade ▸ hb) i hi (Nat.le_trans (hwrite b) hw)
  stored x b i hi hx hd := by
    rw [hslots]
    exact h.stored x b i hi hx hd
  committed x b i hi hx hd := by
    rw [hslots]
    exact h.committed x b i hi hx hd

/-- Events that say nothing about the slots, since they place, return and take nothing. -/
theorem events (h : Holds m tr) (hplaced : ∀ x n, .placed x n ∈ tr' → .placed x n ∈ tr)
    (henqueued : ∀ x, .enqueued x ∈ tr' ↔ .enqueued x ∈ tr)
    (hdequeued : ∀ x, .dequeued x ∈ tr → .dequeued x ∈ tr') : Holds m tr' where
  fresh := h.fresh
  stored x b i hi hx hd := h.stored x b i hi (hplaced _ _ hx) fun hd' => hd (hdequeued x hd')
  committed x b i hi hx hd :=
    (h.committed x b i hi (hplaced _ _ hx) fun hd' => hd (hdequeued x hd')).trans (henqueued x).symm

theorem cons (h : Holds m tr) {e : QueueEvent (Item α)} (hplaced : ∀ x n, .placed x n ≠ e)
    (henqueued : ∀ x, .enqueued x ≠ e) : Holds m (e :: tr) :=
  h.events (fun x n hx => (List.mem_cons.mp hx).resolve_left (hplaced x n))
    (fun x => List.mem_cons.trans (or_iff_right (henqueued x))) fun _ => List.mem_cons_of_mem _

end Holds

/-! ## The board -/

/-- The memory is that of the history: the history is lawful, the counters of the blocks give its
places and its claims, and the slots hold what it says. -/
structure Board (m : Memory α) (tr : List (QueueEvent (Item α))) : Prop where
  wf : m.WellFormed
  lawful : Lawful Item.producer tr
  places : QueueHistory.places tr = m.places
  claims : QueueHistory.claims tr = m.claims
  holds : Holds m tr
  tickets : ∀ x, .called x ∈ tr → x.ticket < m.tickets

namespace Board

theorem make : Board (Memory.make : Memory α) [] where
  wf := .make
  lawful := .nil
  places := rfl
  claims := rfl
  holds := ⟨fun _ _ _ _ _ => rfl, fun _ _ _ _ hx => absurd hx List.not_mem_nil,
    fun _ _ _ _ hx => absurd hx List.not_mem_nil⟩
  tickets _ hx := absurd hx List.not_mem_nil

/-- The slot of an item: its block was made, and `write` is beyond it. -/
theorem slot_of_placed (h : Board m tr) (hx : .placed x (place b i) ∈ tr) (hi : i < blockSize) :
    b < m.made ∧ i < (m.block b).write := by
  have hlt : place b i < m.places := h.places ▸ h.lawful.placed_lt hx
  have hb := h.wf.lt_made_of_place_lt hi hlt
  exact ⟨hb, (h.wf.place_lt_places hb hi).mp hlt⟩

/-- A claimed slot has an item, and its block is not after `head`. -/
theorem exists_of_claimed (h : Board m tr) (hlt : place b i < QueueHistory.claims tr) :
    b ≤ m.head ∧ ∃ x, .placed x (place b i) ∈ tr :=
  ⟨h.wf.le_head_of_place_lt (h.claims ▸ hlt),
    h.lawful.exists_placed (Nat.lt_of_lt_of_le hlt h.lawful.claims_le)⟩

/-- The first slot of `head` that is not read holds the item of the first place that is not
claimed. -/
theorem exists_unread (h : Board m tr) (hlt : (m.block m.head).read <
    min (m.block m.head).write blockSize) :
    ∃ x, .placed x (QueueHistory.claims tr) ∈ tr ∧ .dequeued x ∉ tr ∧
      ((m.block m.head).slots (m.block m.head).read).storage = some x := by
  have hi : (m.block m.head).read < blockSize := by omega
  have hclaims : place m.head (m.block m.head).read = QueueHistory.claims tr := h.claims.symm
  have hplaces : QueueHistory.claims tr < QueueHistory.places tr := by
    rw [← hclaims, h.places, h.wf.place_lt_places h.wf.head_lt hi]
    omega
  obtain ⟨x, hx⟩ := h.lawful.exists_placed hplaces
  have hnew : .dequeued x ∉ tr := by
    intro hd
    obtain ⟨n, hn, hltn⟩ := h.lawful.claimed_of_dequeued hd
    exact Nat.lt_irrefl _ (h.lawful.place_unique hx hn ▸ hltn)
  exact ⟨x, hx, hnew, h.holds.stored x _ _ hi (hclaims ▸ hx) hnew⟩

theorem same (h : Board m tr) (hs : Same m m') (htail : m'.tail < m'.made)
    (hslots : ∀ b, (m'.block b).slots = (m.block b).slots) : Board m' tr where
  wf := h.wf.same hs htail
  lawful := h.lawful
  places := h.places.trans hs.places.symm
  claims := h.claims.trans hs.claims.symm
  holds := h.holds.same hs.made (fun b => (hs.write b).1) hslots
  tickets x hx := by
    rw [hs.tickets]
    exact h.tickets x hx

/-! ### What the producers do -/

/-- An enqueue is called: its item has a ticket that no item had before. -/
theorem called (h : Board m tr) {p : ℕ} {v : α}
    (hprevious : ∀ y, .called y ∈ tr → y.producer = p → ∃ n, .placed y n ∈ tr) :
    Board { m with tickets := m.tickets + 1 } (.called ⟨m.tickets, p, v⟩ :: tr) where
  wf := ⟨h.wf.head_lt, h.wf.tail_lt, h.wf.next, h.wf.full, h.wf.read_le, h.wf.drained, h.wf.unread⟩
  lawful := h.lawful.cons (.called (fun hx => Nat.lt_irrefl _ (h.tickets _ hx)) hprevious)
  places := h.places
  claims := h.claims
  holds :=
    have hholds : Holds { m with tickets := m.tickets + 1 } tr :=
      h.holds.same rfl (fun _ => Nat.le_refl _) fun _ => rfl
    hholds.cons (fun _ _ => nofun) fun _ => nofun
  tickets x hx := by
    obtain heq | hx := List.mem_cons.mp hx
    · cases heq
      exact Nat.lt_succ_self _
    · exact Nat.lt_succ_of_lt (h.tickets x hx)

/-- A slot gets its item.  It is not committed before the enqueue returns. -/
theorem placed (h : Board m tr) (hb : b < m.made) (hw : (m.block b).write < blockSize)
    (hcalled : .called x ∈ tr) (hnew : ∀ n, .placed x n ∉ tr) :
    Board ((m.addWrite b).setSlot b (m.block b).write
        { (m.block b).slots (m.block b).write with storage := some x })
      (.placed x (place b (m.block b).write) :: tr) where
  wf := (h.wf.addWrite b).same (.setSlot _) h.wf.tail_lt
  lawful := by
    rw [← (h.wf.places_addWrite hb hw).1, ← h.places]
    exact h.lawful.cons (.placed hcalled hnew)
  places := by
    rw [(Same.setSlot _).places, (h.wf.places_addWrite hb hw).2, ← h.places]
    rfl
  claims := by
    have hclaims : (m.addWrite b).claims = m.claims := by
      show place m.head ((m.addWrite b).block m.head).read = place m.head (m.block m.head).read
      rw [Memory.addWrite_read]
    rw [(Same.setSlot _).claims, hclaims]
    exact h.claims
  holds := by
    have hother {y : Item α} {b' i : ℕ} (hi : i < blockSize) (hy : .placed y (place b' i) ∈ tr) :
        ¬ (b' = b ∧ i = (m.block b).write) := by
      rintro ⟨rfl, rfl⟩
      exact absurd (h.slot_of_placed hy hi).2 (Nat.lt_irrefl _)
    refine ⟨fun b' hb' i hi hle => ?_, fun y b' i hi hy hd => ?_, fun y b' i hi hy hd => ?_⟩
    · rw [Memory.setSlot_write, Memory.addWrite_write] at hle
      rw [Memory.setSlot_slots, Memory.addWrite_slots]
      split_ifs with hslot
      · obtain ⟨rfl, rfl⟩ := hslot
        exact h.holds.fresh b' hb _ hw (Nat.le_refl _)
      · exact h.holds.fresh b' hb' i hi (by omega)
    · rw [Memory.setSlot_slots, Memory.addWrite_slots]
      obtain heq | hy := List.mem_cons.mp hy
      · obtain ⟨rfl, hplace⟩ := QueueEvent.placed.inj heq
        rw [if_pos (place_inj hi hw hplace)]
      · rw [if_neg (hother hi hy)]
        exact h.holds.stored y b' i hi hy fun hd' => hd (List.mem_cons_of_mem _ hd')
    · rw [Memory.setSlot_slots, Memory.addWrite_slots]
      obtain heq | hy := List.mem_cons.mp hy
      · obtain ⟨rfl, hplace⟩ := QueueEvent.placed.inj heq
        rw [if_pos (place_inj hi hw hplace)]
        refine iff_of_false ?_ fun he => ?_
        · rw [h.holds.fresh b hb _ hw (Nat.le_refl _)]
          exact Bool.false_ne_true
        · obtain ⟨n, hn⟩ := h.lawful.placed_of_enqueued ((List.mem_cons.mp he).resolve_left nofun)
          exact hnew n hn
      · rw [if_neg (hother hi hy), List.mem_cons, or_iff_right nofun]
        exact h.holds.committed y b' i hi hy fun hd' => hd (List.mem_cons_of_mem _ hd')
  tickets y hy := h.tickets y ((List.mem_cons.mp hy).resolve_left nofun)

/-- `write` goes beyond the slots, and no slot is given by that. -/
theorem addWrite (h : Board m tr) (hw : blockSize ≤ (m.block b).write) : Board (m.addWrite b) tr :=
  h.same (.addWrite hw) h.wf.tail_lt fun b' => Memory.addWrite_slots m b b'

/-- An enqueue returns, and the slot of its item is committed from now on. -/
theorem enqueued (h : Board m tr) (hx : .placed x (place b i) ∈ tr) (hi : i < blockSize) :
    Board (m.setSlot b i { (m.block b).slots i with committed := true }) (.enqueued x :: tr) where
  wf := h.wf.same (.setSlot _) h.wf.tail_lt
  lawful := h.lawful.cons (.enqueued hx)
  places := h.places.trans (Same.setSlot _).places.symm
  claims := h.claims.trans (Same.setSlot _).claims.symm
  holds := by
    refine ⟨fun b' hb' j hj hle => ?_, fun y b' j hj hy hd => ?_, fun y b' j hj hy hd => ?_⟩
    · rw [Memory.setSlot_write] at hle
      rw [Memory.setSlot_slots, if_neg]
      · exact h.holds.fresh b' hb' j hj hle
      · rintro ⟨rfl, rfl⟩
        exact absurd (h.slot_of_placed hx hi).2 (Nat.not_lt_of_le hle)
    · replace hy := (List.mem_cons.mp hy).resolve_left nofun
      have hstored := h.holds.stored y b' j hj hy fun hd' => hd (List.mem_cons_of_mem _ hd')
      rw [Memory.setSlot_slots]
      split_ifs with hslot
      · obtain ⟨rfl, rfl⟩ := hslot
        exact hstored
      · exact hstored
    · replace hy := (List.mem_cons.mp hy).resolve_left nofun
      rw [Memory.setSlot_slots]
      split_ifs with hslot
      · obtain ⟨rfl, rfl⟩ := hslot
        rw [h.lawful.item_unique hy hx]
        exact iff_of_true rfl (List.mem_cons_self ..)
      · have hne : y ≠ x := by
          rintro rfl
          exact hslot (place_inj hj hi (h.lawful.place_unique hy hx))
        rw [List.mem_cons, or_iff_right fun heq => hne (QueueEvent.enqueued.inj heq)]
        exact h.holds.committed y b' j hj hy fun hd' => hd (List.mem_cons_of_mem _ hd')
  tickets y hy := h.tickets y ((List.mem_cons.mp hy).resolve_left nofun)

/-- A block is linked behind the last, unless one was; its slots are fresh, and no place is given by
that. -/
theorem linkNextBlock (h : Board m tr) (hb : b < m.made) (hw : blockSize ≤ (m.block b).write) :
    Board (m.linkNextBlock b) tr where
  wf := h.wf.linkNextBlock hb hw
  lawful := h.lawful
  places := h.places.trans (h.wf.places_linkNextBlock hb hw).symm
  claims := h.claims.trans (h.wf.claims_linkNextBlock b).symm
  holds := by
    have hslots {b' : ℕ} (hb' : b' < m.made) : ((m.linkNextBlock b).block b').slots =
      (m.block b').slots :=
      Memory.linkNextBlock_congr Block.slots (by intros; rfl) hb'
    refine ⟨fun b' hb' i hi hle => ?_, fun y b' i hi hy hd => ?_, fun y b' i hi hy hd => ?_⟩
    · by_cases hlt : b' < m.made
      · rw [Memory.linkNextBlock_congr Block.write (by intros; rfl) hlt] at hle
        rw [hslots hlt]
        exact h.holds.fresh b' hlt i hi hle
      · by_cases hnext : (m.block b).next = none
        · have hmade : (m.linkNextBlock b).made = m.made + 1 := by
            rw [Memory.linkNextBlock, if_pos hnext]
          obtain rfl : b' = m.made := by omega
          rw [Memory.linkNextBlock_made hb hnext]
        · rw [Memory.linkNextBlock, if_neg hnext] at hb'
          exact absurd hb' hlt
    · rw [hslots (h.slot_of_placed hy hi).1]
      exact h.holds.stored y b' i hi hy hd
    · rw [hslots (h.slot_of_placed hy hi).1]
      exact h.holds.committed y b' i hi hy hd
  tickets y hy := by
    have htickets : (m.linkNextBlock b).tickets = m.tickets := by
      rw [Memory.linkNextBlock]
      split_ifs <;> rfl
    rw [htickets]
    exact h.tickets y hy

/-- `tail` is moved to a block that was made; where it points decides nothing about the places. -/
theorem moveTail (h : Board m tr) (hn : n < m.made) : Board { m with tail := n } tr :=
  h.same ⟨rfl, rfl, rfl, fun _ => ⟨Nat.le_refl _, rfl⟩, fun _ => rfl, fun _ => rfl⟩ hn fun _ => rfl

/-! ### What the consumers do -/

/-- A place is claimed: `read` of `head` goes beyond its slot. -/
theorem claimed (h : Board m tr) (hr : (m.block m.head).read <
    min (m.block m.head).write blockSize) :
    Board (m.addRead m.head) (.claimed (place m.head (m.block m.head).read) :: tr) where
  wf := h.wf.addRead hr
  lawful := by
    have hclaims : place m.head (m.block m.head).read = QueueHistory.claims tr := h.claims.symm
    have hlt : QueueHistory.claims tr < QueueHistory.places tr := by
      rw [← hclaims, h.places, h.wf.place_lt_places h.wf.head_lt (by omega)]
      omega
    rw [hclaims]
    exact h.lawful.cons (.claimed hlt)
  places := by
    have hplaces : (m.addRead m.head).places = m.places := by
      show place (m.made - 1) (min ((m.addRead m.head).block (m.made - 1)).write blockSize) =
        m.places
      rw [Memory.addRead_write]
      rfl
    rw [hplaces]
    exact h.places
  claims := by
    rw [Memory.WellFormed.claims_addRead, ← h.claims]
    rfl
  holds :=
    have hholds : Holds (m.addRead m.head) tr :=
      h.holds.same rfl (fun b' => (Memory.addRead_write m m.head b').ge)
        (Memory.addRead_slots m m.head)
    hholds.cons (fun _ _ => nofun) fun _ => nofun
  tickets y hy := h.tickets y ((List.mem_cons.mp hy).resolve_left nofun)

/-- The slot of an item that is dequeued, or is dequeued now, may hold anything. -/
theorem holds_setSlot (h : Board m tr) (hx : .placed x (place b i) ∈ tr) (hi : i < blockSize)
    (hplaced : ∀ x n, .placed x n ∈ tr' → .placed x n ∈ tr)
    (henqueued : ∀ x, .enqueued x ∈ tr' ↔ .enqueued x ∈ tr)
    (hdequeued : ∀ x, .dequeued x ∈ tr → .dequeued x ∈ tr') (hd : .dequeued x ∈ tr') (s : Slot α) :
    Holds (m.setSlot b i s) tr' := by
  have hother {y : Item α} {b' j : ℕ} (hj : j < blockSize) (hy : .placed y (place b' j) ∈ tr)
      (hdy : .dequeued y ∉ tr') : ¬ (b' = b ∧ j = i) := by
    rintro ⟨rfl, rfl⟩
    exact hdy (h.lawful.item_unique hy hx ▸ hd)
  have hall := h.holds.events hplaced henqueued hdequeued
  refine ⟨fun b' hb' j hj hle => ?_, fun y b' j hj hy hdy => ?_, fun y b' j hj hy hdy => ?_⟩
  · rw [Memory.setSlot_write] at hle
    rw [Memory.setSlot_slots, if_neg]
    · exact h.holds.fresh b' hb' j hj hle
    · rintro ⟨rfl, rfl⟩
      exact absurd (h.slot_of_placed hx hi).2 (Nat.not_lt_of_le hle)
  · rw [Memory.setSlot_slots, if_neg (hother hj (hplaced _ _ hy) hdy)]
    exact hall.stored y b' j hj hy hdy
  · rw [Memory.setSlot_slots, if_neg (hother hj (hplaced _ _ hy) hdy)]
    exact hall.committed y b' j hj hy hdy

/-- The item of a claimed place is taken; what its slot holds from now on does not matter. -/
theorem dequeued (h : Board m tr) (hx : .placed x (place b i) ∈ tr) (hi : i < blockSize)
    (hclaimed : place b i < QueueHistory.claims tr) (henqueued : .enqueued x ∈ tr)
    (hnew : .dequeued x ∉ tr) (s : Slot α) : Board (m.setSlot b i s) (.dequeued x :: tr) where
  wf := h.wf.same (.setSlot _) h.wf.tail_lt
  lawful := h.lawful.cons (.dequeued hx hclaimed henqueued hnew)
  places := h.places.trans (Same.setSlot _).places.symm
  claims := h.claims.trans (Same.setSlot _).claims.symm
  holds := by
    refine h.holds_setSlot hx hi (fun y n hy => ?_) (fun y => ?_) (fun _ => List.mem_cons_of_mem _)
      (List.mem_cons_self ..) s
    · exact (List.mem_cons.mp hy).resolve_left nofun
    · exact List.mem_cons.trans (or_iff_right nofun)
  tickets y hy := h.tickets y ((List.mem_cons.mp hy).resolve_left nofun)

/-- The slot of an item that was taken is cleared. -/
theorem cleared (h : Board m tr) (hx : .placed x (place b i) ∈ tr) (hi : i < blockSize)
    (hd : .dequeued x ∈ tr) (s : Slot α) : Board (m.setSlot b i s) tr where
  wf := h.wf.same (.setSlot _) h.wf.tail_lt
  lawful := h.lawful
  places := h.places.trans (Same.setSlot _).places.symm
  claims := h.claims.trans (Same.setSlot _).claims.symm
  holds := h.holds_setSlot hx hi (fun _ _ => id) (fun _ => Iff.rfl) (fun _ => id) hd s
  tickets := h.tickets

/-- `head` leaves a block that is read.  When it is not read the places of its last slots would
count as claimed though nobody has claimed them. -/
theorem moveHead (h : Board m tr) (hr : (m.block m.head).read = blockSize)
    (hn : m.head + 1 < m.made) :
    Board { m with head := m.head + 1 } tr where
  wf := h.wf.moveHead hr hn
  lawful := h.lawful
  places := h.places
  claims := h.claims.trans (h.wf.claims_moveHead hr hn).symm
  holds := h.holds.same rfl (fun _ => Nat.le_refl _) fun _ => rfl
  tickets := h.tickets

/-- A dequeue finds nothing, and the board stays as it is. -/
theorem empty (h : Board m tr) : Board m (.empty :: tr) where
  wf := h.wf
  lawful := h.lawful.cons .empty
  places := h.places
  claims := h.claims
  holds := h.holds.cons (fun _ _ => nofun) fun _ => nofun
  tickets y hy := h.tickets y ((List.mem_cons.mp hy).resolve_left nofun)

/-- The counter of the finished slots, and the graveyard. -/
theorem addConsumed (h : Board m tr) : Board (m.addConsumed b) tr :=
  h.same .addConsumed h.wf.tail_lt fun b' => Memory.addConsumed_slots m b b'

theorem setGraveyardNext (h : Board m tr) (dead : Option ℕ) :
    Board (m.setGraveyardNext b dead) tr :=
  h.same (.setGraveyardNext dead) h.wf.tail_lt fun b' => Memory.setGraveyardNext_slots m b b' dead

theorem setGraveyard (h : Board m tr) (dead : Option ℕ) : Board { m with graveyard := dead } tr :=
  h.same ⟨rfl, rfl, rfl, fun _ => ⟨Nat.le_refl _, rfl⟩, fun _ => rfl, fun _ => rfl⟩
    h.wf.tail_lt fun _ => rfl

end Board

end Queue
end Scheduler
end NUClear
