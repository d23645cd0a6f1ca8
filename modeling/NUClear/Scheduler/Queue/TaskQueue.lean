import NUClear.Scheduler.Queue.Producers

/-!
# `TaskQueue`

The queue of a scheduler's bucket, with any number of consumers.  A consumer claims a slot by an
exchange of `read`, waits until its producer has committed it, takes the item, clears the slot and
counts it in `consumed`.  The one that counts the last slot of a block moves `head` to the next
block and puts the old one into the graveyard; so does a consumer that finds everything of the block
at `head` consumed and a next block linked.

## What goes wrong

A consumer that is about to exchange `head` has loaded `write`, `consumed` and `next` one after the
other.  When the block was empty at the first of these loads and is full, with a next block, at the
last, then `head` leaves a block whose slots nobody has claimed.  `Dequeue.Ok` excludes this: at the
exchange, the block that `head` leaves is read.  It looks only at the state before that step.

## The proof

* `Dequeue.Valid`: what a consumer knows at each of its accesses; `Dequeue.Valid.mono` says that it
  stays true whatever the others do.
* `dequeueStep_of_advance`: what one of its accesses does (`DequeueStep`), when the condition is
  met.
* `Consuming`: the consumers of a run.  Two consumers never have the same slot, and the claimed
  slots of a block are those that are counted and those that a consumer is busy with.
* `matchesHistory_of_reaches`: the invariant holds in every run that meets the condition.
-/

namespace NUClear
namespace Scheduler
namespace Queue
namespace TaskQueue

open Foundation

variable {α : Type}

/-- Where a `try_dequeue` is.  `returns` says whether it returns or looks at `head` again when it
has retired the block. -/
inductive Dequeue where
  | loadHead
  | loadWrite (block : ℕ)
  | loadRead (block published : ℕ)
  | loadConsumed (block published : ℕ)
  | loadNext (block published : ℕ)
  | reloadWrite (block : ℕ)
  | exchangeHead (block next : ℕ)
  | exchangeRead (block readIndex : ℕ)
  | loadCommitted (block index : ℕ)
  | clearCommitted (block index : ℕ)
  | addConsumed (block index : ℕ)
  /-- `try_reclaim_block`. -/
  | reclaimConsumed (block : ℕ)
  | reclaimHead (block : ℕ)
  | reclaimNext (block : ℕ)
  | reclaimExchange (block next : ℕ)
  /-- `retire_block`. -/
  | loadGraveyard (block : ℕ) (returns : Bool)
  | exchangeGraveyard (block : ℕ) (dead : Option ℕ) (returns : Bool)
  deriving DecidableEq, Repr

/-- The next access of `try_dequeue`. -/
def Dequeue.advance (m : Memory α) (c : Dequeue) (spurious : Bool) :
    Option (Outcome (Memory α) Dequeue (QueueEvent (Item α))) :=
  match c with
  | .loadHead => some ⟨m, some (.loadWrite m.head), []⟩
  | .loadWrite b => some ⟨m, some (.loadRead b (min (m.block b).write blockSize)), []⟩
  | .loadRead b published =>
      let readIndex := (m.block b).read
      if published ≤ readIndex then some ⟨m, some (.loadConsumed b published), []⟩
      else some ⟨m, some (.exchangeRead b readIndex), []⟩
  | .loadConsumed b published =>
      if (m.block b).consumed < published then some ⟨m, some .loadHead, []⟩
      else some ⟨m, some (.loadNext b published), []⟩
  | .loadNext b published =>
      match (m.block b).next with
      | none =>
        if published = 0 then some ⟨m, some (.reloadWrite b), []⟩ else some ⟨m, none, [.empty]⟩
      | some next => some ⟨m, some (.exchangeHead b next), []⟩
  | .reloadWrite b =>
      if 0 < (m.block b).write then some ⟨m, some .loadHead, []⟩ else some ⟨m, none, [.empty]⟩
  | .exchangeHead b next =>
      if m.head = b then some ⟨{ m with head := next }, some (.loadGraveyard b false), []⟩
      else some ⟨m, some .loadHead, []⟩
  | .exchangeRead b readIndex =>
      if (m.block b).read = readIndex ∧ spurious = false then
        some ⟨m.addRead b, some (.loadCommitted b readIndex), [.claimed (place b readIndex)]⟩
      else some ⟨m, some .loadHead, []⟩
  | .loadCommitted b i =>
      if ((m.block b).slots i).committed then
        -- the item is moved out and what is left of it destroyed
        ((m.block b).slots i).storage.map fun x =>
          ⟨m.setSlot b i ⟨none, true⟩, some (.clearCommitted b i), [.dequeued x]⟩
      else some ⟨m, some (.loadCommitted b i), []⟩
  | .clearCommitted b i =>
      some ⟨m.setSlot b i { (m.block b).slots i with committed := false },
        some (.addConsumed b i), []⟩
  | .addConsumed b _ =>
      some ⟨m.addConsumed b,
        if (m.block b).consumed + 1 = blockSize then some (.reclaimConsumed b) else none, []⟩
  | .reclaimConsumed b =>
      some ⟨m, if (m.block b).consumed = blockSize then some (.reclaimHead b) else none, []⟩
  | .reclaimHead b => some ⟨m, if m.head = b then some (.reclaimNext b) else none, []⟩
  | .reclaimNext b => some ⟨m, (m.block b).next.map (.reclaimExchange b), []⟩
  | .reclaimExchange b next =>
      if m.head = b then some ⟨{ m with head := next }, some (.loadGraveyard b true), []⟩
      else some ⟨m, none, []⟩
  | .loadGraveyard b returns =>
      some ⟨m.setGraveyardNext b m.graveyard,
        some (.exchangeGraveyard b m.graveyard returns), []⟩
  | .exchangeGraveyard b dead returns =>
      if m.graveyard = dead ∧ spurious = false then
        some ⟨{ m with graveyard := some b }, if returns then none else some .loadHead, []⟩
      else
        some ⟨m.setGraveyardNext b m.graveyard,
          some (.exchangeGraveyard b m.graveyard returns), []⟩

/-- Any number of consumers. -/
def consumer (α : Type) : Consumer α Dequeue := ⟨.loadHead, false, Dequeue.advance⟩

/-! ## What a consumer knows -/

variable {m m' : Memory α} {tr es : List (QueueEvent (Item α))} {x y : Item α}
  {b b' i j n : ℕ} {c : Dequeue}
  {z : Bool}

open QueueHistory

/-- The slot is claimed. -/
def Claimed (tr : List (QueueEvent (Item α))) (b i : ℕ) : Prop :=
  i < blockSize ∧ place b i < claims tr

/-- The item of the slot is dequeued, and the slot is not committed any more. -/
def Cleared (m : Memory α) (tr : List (QueueEvent (Item α))) (b i : ℕ) : Prop :=
  ((m.block b).slots i).committed = false ∧ ∃ x, .placed x (place b i) ∈ tr ∧ .dequeued x ∈ tr

namespace Dequeue

/-- The slot that a `try_dequeue` has claimed, until it has counted it. -/
def busy : Dequeue → Option (ℕ × ℕ)
  | loadCommitted b i | clearCommitted b i | addConsumed b i => some (b, i)
  | _ => none

/-- It is busy with a slot of the block. -/
def inBlock (b : ℕ) (c : Dequeue) : Bool := c.busy.any fun k => k.1 = b

/-- What a `try_dequeue` knows: the numbers that it has loaded were right once and the counters only
grow, the slot that it has claimed is its own, and the item of a slot that it counts is dequeued. -/
def Valid (m : Memory α) (tr : List (QueueEvent (Item α))) : Dequeue → Prop
  | loadHead => True
  | loadWrite b | reloadWrite b => b ≤ m.head
  | loadRead b p | loadConsumed b p | loadNext b p =>
    b ≤ m.head ∧ p ≤ min (m.block b).write blockSize
  | exchangeHead b n => b ≤ m.head ∧ n = b + 1 ∧ b + 1 < m.made
  | exchangeRead b r => b ≤ m.head ∧ r < min (m.block b).write blockSize
  | loadCommitted b i => Claimed tr b i ∧ ∀ x, .placed x (place b i) ∈ tr → .dequeued x ∉ tr
  | clearCommitted b i => Claimed tr b i ∧ ∃ x, .placed x (place b i) ∈ tr ∧ .dequeued x ∈ tr
  | addConsumed b i => Claimed tr b i ∧ Cleared m tr b i
  | reclaimConsumed b | reclaimHead b | reclaimNext b => b ≤ m.head ∧ (m.block b).read = blockSize
  | reclaimExchange b n => b ≤ m.head ∧ (m.block b).read = blockSize ∧ n = b + 1 ∧ b + 1 < m.made
  | loadGraveyard .. | exchangeGraveyard .. => True

/-- **The condition**: `head` leaves a block only when all its slots are claimed.  It is asked of
the exchange of `head` alone, in the state before it. -/
def Ok (m : Memory α) : Dequeue → Prop
  | exchangeHead b _ => m.head = b → (m.block b).read = blockSize
  | _ => True

instance (m : Memory α) : (c : Dequeue) → Decidable (c.Ok m)
  | exchangeHead b _ => inferInstanceAs (Decidable (m.head = b → (m.block b).read = blockSize))
  | loadHead | loadWrite _ | reloadWrite _ | loadRead .. | loadConsumed .. | loadNext ..
    | exchangeRead ..
  | loadCommitted .. | clearCommitted .. | addConsumed .. | reclaimConsumed _ | reclaimHead _
    | reclaimNext _
  | reclaimExchange .. | loadGraveyard .. | exchangeGraveyard .. => .isTrue trivial

theorem Valid.claimed (h : c.Valid m tr) (hc : c.busy = some (b, i)) : Claimed tr b i := by
  cases c with
  | loadCommitted b' i' =>
    cases hc
    exact h.1
  | clearCommitted b' i' =>
    cases hc
    exact h.1
  | addConsumed b' i' =>
    cases hc
    exact h.1
  | _ => exact absurd hc nofun

end Dequeue

/-- A claimed slot got its item before. -/
theorem placed_of_append (hb : Board m tr) (hb' : Board m' (es ++ tr)) (hc : Claimed tr b i)
    (hx : .placed x (place b i) ∈ es ++ tr) : .placed x (place b i) ∈ tr := by
  obtain ⟨-, y, hy⟩ := hb.exists_of_claimed hc.2
  rwa [hb'.lawful.item_unique hx (List.mem_append_right es hy)]

theorem Claimed.append (h : Claimed tr b i) (es : List (QueueEvent (Item α))) :
    Claimed (es ++ tr) b i :=
  ⟨h.1, Nat.lt_of_lt_of_le h.2 (claims_le_append es tr)⟩

theorem Cleared.append (h : Cleared m tr b i)
    (hslots : (m'.block b).slots i = (m.block b).slots i) :
    Cleared m' (es ++ tr) b i := by
  obtain ⟨hfalse, x, hx, hd⟩ := h
  exact ⟨hslots ▸ hfalse, x, List.mem_append_right es hx, List.mem_append_right es hd⟩

/-- A block that is read stays so. -/
theorem read_eq (hg : Grows m m') (hb : Board m tr) (hb' : Board m' (es ++ tr)) (hle : b ≤ m.head)
    (hr : (m.block b).read = blockSize) : (m'.block b).read = blockSize := by
  have hlt : b < m.made := Nat.lt_of_le_of_lt hle hb.wf.head_lt
  have hge := hg.read b hlt
  have hle := hb'.wf.read_le b (Nat.lt_of_lt_of_le hlt hg.made)
  omega

/-- What a `try_dequeue` knows stays true when others move. -/
theorem Dequeue.Valid.mono (h : c.Valid m tr) (hb : Board m tr) (hb' : Board m' (es ++ tr))
    (hg : Grows m m') (hslots : ∀ b i, c = .addConsumed b i → (m'.block b).slots i =
    (m.block b).slots i) (hes : ∀ b i x, c.busy = some (b, i) → .placed x (place b i) ∈ tr →
      .dequeued x ∉ es) :
    c.Valid m' (es ++ tr) := by
  have hhead {b : ℕ} (hle : b ≤ m.head) : b ≤ m'.head := Nat.le_trans hle hg.head
  have hwrite {b : ℕ} (hle : b ≤ m.head) : (m.block b).write ≤ (m'.block b).write :=
    hg.write b (Nat.lt_of_le_of_lt hle hb.wf.head_lt)
  cases c with
  | loadHead => trivial
  | loadWrite b | reloadWrite b => exact hhead h
  | loadRead b p | loadConsumed b p | loadNext b p =>
    exact ⟨hhead h.1, by have := hwrite h.1; have := h.2; omega⟩
  | exchangeHead b n => exact ⟨hhead h.1, h.2.1, Nat.lt_of_lt_of_le h.2.2 hg.made⟩
  | exchangeRead b r => exact ⟨hhead h.1, by have := hwrite h.1; have := h.2; omega⟩
  | loadCommitted b i =>
    refine ⟨h.1.append es, fun x hx hd => ?_⟩
    have hx := placed_of_append hb hb' h.1 hx
    exact (List.mem_append.mp hd).elim (hes b i x rfl hx) (h.2 x hx)
  | clearCommitted b i =>
    obtain ⟨x, hx, hd⟩ := h.2
    exact ⟨h.1.append es, x, List.mem_append_right es hx, List.mem_append_right es hd⟩
  | addConsumed b i => exact ⟨h.1.append es, h.2.append (hslots b i rfl)⟩
  | reclaimConsumed b | reclaimHead b | reclaimNext b =>
    exact ⟨hhead h.1, read_eq hg hb hb' h.1 h.2⟩
  | reclaimExchange b n =>
    exact ⟨hhead h.1, read_eq hg hb hb' h.1 h.2.1, h.2.2.1, Nat.lt_of_lt_of_le h.2.2.2 hg.made⟩
  | loadGraveyard b returns | exchangeGraveyard b dead returns => trivial

/-! ## One access of a consumer -/

/-- One for a `try_dequeue` that is busy with a slot of the block. -/
def inBlock (b : ℕ) (c : Option Dequeue) : ℕ := if c.any (Dequeue.inBlock b) then 1 else 0

/-- What an access of a consumer does: the memory stays that of the history, the counters only grow,
no item gets a place, and what the consumer is busy with after the access is what it was busy with
before, or a slot that it has just claimed. -/
structure DequeueStep (m : Memory α) (tr : List (QueueEvent (Item α))) (c : Dequeue)
    (r : Outcome (Memory α) Dequeue (QueueEvent (Item α))) : Prop where
  board : Board r.mem (r.emitted.reverse ++ tr)
  grows : Grows m r.mem
  made : r.mem.made = m.made
  next : ∀ c' ∈ r.next, c'.Valid r.mem (r.emitted.reverse ++ tr)
  untouched : ∀ x, Untouched r.emitted.reverse x ∧ .called x ∉ r.emitted.reverse
  dequeued : ∀ x, .dequeued x ∈ r.emitted.reverse → ∃ b i, c.busy = some (b, i) ∧
    .placed x (place b i) ∈ tr
  busy : ∀ c' ∈ r.next, ∀ b i, c'.busy = some (b, i) → c.busy = some (b, i) ∨ ¬ Claimed tr b i
  slots : ∀ b i, c.busy ≠ some (b, i) → (r.mem.block b).slots i = (m.block b).slots i
  counts : ∀ b, (r.mem.block b).consumed + inBlock b r.next + (m.block b).read =
    (m.block b).consumed + inBlock b (some c) + (r.mem.block b).read
  settled : ∀ b i, Claimed (r.emitted.reverse ++ tr) b i → (∃ c' ∈ r.next, c'.busy = some (b, i)) ∨
    Cleared r.mem (r.emitted.reverse ++ tr) b i ∨ Claimed tr b i ∧ c.busy ≠ some (b, i)

/-- A consumer that is not busy moves on, or finds nothing. -/
theorem DequeueStep.of_same (hb' : Board m' tr) (hg : Grows m m') (hmade : m'.made = m.made)
    (hc : c.busy = none) {c' : Option Dequeue} (hc' : ∀ d ∈ c', d.busy = none ∧ d.Valid m' tr)
    (hslots : ∀ b, (m'.block b).slots = (m.block b).slots)
    (hcounts : ∀ b, (m'.block b).consumed = (m.block b).consumed ∧ (m'.block b).read =
    (m.block b).read) :
    DequeueStep m tr c ⟨m', c', []⟩ where
  board := hb'
  grows := hg
  made := hmade
  next d hd := (hc' d hd).2
  untouched x := ⟨⟨fun n hn => absurd hn List.not_mem_nil, List.not_mem_nil⟩, List.not_mem_nil⟩
  dequeued x hx := absurd hx List.not_mem_nil
  busy d hd b i hbusy := absurd ((hc' d hd).1.symm.trans hbusy) nofun
  slots b i _ := by rw [hslots]
  counts b := by
    have hold : inBlock b (some c) = 0 := by simp [inBlock, Dequeue.inBlock, hc]
    have hnew : inBlock b c' = 0 := by
      cases c' with
      | none => rfl
      | some d => simp [inBlock, Dequeue.inBlock, (hc' d rfl).1]
    rw [hold, hnew, (hcounts b).1, (hcounts b).2]
  settled b i hclaimed := .inr (.inr ⟨hclaimed, by rw [hc]; nofun⟩)

theorem DequeueStep.pure (hb : Board m tr) (hc : c.busy = none) {c' : Option Dequeue}
    (hc' : ∀ d ∈ c', d.busy = none ∧ d.Valid m tr) : DequeueStep m tr c ⟨m, c', []⟩ :=
  .of_same hb .refl rfl hc hc' (fun _ => rfl) fun _ => ⟨rfl, rfl⟩

/-- It returns false. -/
theorem DequeueStep.nothing (hb : Board m tr) (hc : c.busy = none) :
    DequeueStep m tr c ⟨m, none, [.empty]⟩ where
  board := hb.empty
  grows := .refl
  made := rfl
  next _ hd := absurd hd nofun
  untouched x := by simp [Untouched]
  dequeued x hx := absurd (List.mem_singleton.mp hx) nofun
  busy _ hd := absurd hd nofun
  slots _ _ _ := rfl
  counts b := by simp [inBlock, Dequeue.inBlock, hc]
  settled b i hclaimed := .inr (.inr ⟨hclaimed, by rw [hc]; nofun⟩)

/-- It claims a slot. -/
theorem DequeueStep.claim (hb : Board m tr) {r : ℕ} (hhead : b ≤ m.head)
    (hlt : r < min (m.block b).write blockSize) (hread : (m.block b).read = r) :
    DequeueStep m tr (.exchangeRead b r)
      ⟨m.addRead b, some (.loadCommitted b r), [.claimed (place b r)]⟩ := by
  obtain hltHead | rfl := Nat.lt_or_eq_of_le hhead
  · have hdrained := hb.wf.drained b hltHead
    omega
  obtain rfl := hread
  have hclaims : place m.head (m.block m.head).read = claims tr := hb.claims.symm
  refine ⟨hb.claimed hlt, ⟨Nat.le_refl _, Nat.le_refl _, fun b' _ => ?_, fun b' _ => ?_⟩, rfl,
    fun c' hc' => ?_,
    fun x => ?_, fun x hx => ?_, fun c' hc' b' i hbusy => .inr ?_, fun b' i _ => ?_, fun b' => ?_,
    fun b' i hclaimed => ?_⟩
  · rw [Memory.addRead_write]
  · rw [Memory.addRead_read]
    exact Nat.le_add_right _ _
  · obtain rfl := Option.some.inj hc'
    have hi : (m.block m.head).read < blockSize := by omega
    refine ⟨⟨hi, ?_⟩, fun x hx hd => ?_⟩
    · show place m.head (m.block m.head).read < claims tr + 1
      omega
    · replace hx : .placed x _ ∈ tr := (List.mem_cons.mp hx).resolve_left nofun
      replace hd : .dequeued x ∈ tr := (List.mem_cons.mp hd).resolve_left nofun
      obtain ⟨n, hn, hltn⟩ := hb.lawful.claimed_of_dequeued hd
      have hplace := hb.lawful.place_unique hx hn
      omega
  · simp [Untouched]
  · exact absurd (List.mem_singleton.mp hx) nofun
  · obtain rfl := Option.some.inj hc'
    obtain ⟨rfl, rfl⟩ := Prod.mk.inj (Option.some.inj hbusy)
    exact fun hclaimed => absurd hclaimed.2 (by omega)
  · rw [Memory.addRead_slots]
  · rw [Memory.addRead_consumed, Memory.addRead_read]
    by_cases hbb : b' = m.head
    · simp [inBlock, Dequeue.inBlock, Dequeue.busy, hbb]
      omega
    · simp [inBlock, Dequeue.inBlock, Dequeue.busy, hbb, Ne.symm hbb]
  · obtain ⟨hi, hlt'⟩ := hclaimed
    replace hlt' : place b' i < claims tr + 1 := hlt'
    obtain hlt' | heq := Nat.lt_succ_iff_lt_or_eq.mp hlt'
    · exact .inr (.inr ⟨⟨hi, hlt'⟩, nofun⟩)
    · obtain ⟨rfl, rfl⟩ := place_inj hi (by omega) (heq.trans hclaims.symm)
      exact .inl ⟨_, rfl, rfl⟩

/-- It takes the item of its slot. -/
theorem DequeueStep.take (hb : Board m tr) (hclaimed : Claimed tr b i)
    (hnew : ∀ x, .placed x (place b i) ∈ tr → .dequeued x ∉ tr)
    (hcommitted : ((m.block b).slots i).committed = true)
    (hstorage : ((m.block b).slots i).storage = some x) :
    DequeueStep m tr (.loadCommitted b i) ⟨m.setSlot b i ⟨none, true⟩, some (.clearCommitted b i),
      [.dequeued x]⟩ := by
  obtain ⟨-, y, hy⟩ := hb.exists_of_claimed hclaimed.2
  obtain rfl : y = x := by
    have hstored := hb.holds.stored y b i hclaimed.1 hy (hnew y hy)
    exact Option.some.inj (hstored.symm.trans hstorage)
  have henqueued := (hb.holds.committed y b i hclaimed.1 hy (hnew y hy)).mp hcommitted
  refine ⟨hb.dequeued hy hclaimed.1 hclaimed.2 henqueued (hnew y hy) _, .of_same (.setSlot _), rfl,
    fun c' hc' => ?_,
    fun x => ?_, fun x hx => ?_, fun c' hc' b' j hbusy => .inl ?_, fun b' j hne => ?_, fun b' => ?_,
    fun b' j hj => ?_⟩
  · obtain rfl := Option.some.inj hc'
    exact ⟨hclaimed.append _, y, List.mem_cons_of_mem _ hy, List.mem_cons_self ..⟩
  · simp [Untouched]
  · obtain rfl := QueueEvent.dequeued.inj (List.mem_singleton.mp hx)
    exact ⟨b, i, rfl, hy⟩
  · obtain rfl := Option.some.inj hc'
    exact hbusy
  · rw [Memory.setSlot_slots, if_neg]
    rintro ⟨rfl, rfl⟩
    exact hne rfl
  · rw [Memory.setSlot_consumed, Memory.setSlot_read]
    rfl
  · by_cases hslot : b' = b ∧ j = i
    · obtain ⟨rfl, rfl⟩ := hslot
      exact .inl ⟨_, rfl, rfl⟩
    · refine .inr (.inr ⟨⟨hj.1, hj.2⟩, fun heq => hslot ?_⟩)
      obtain ⟨rfl, rfl⟩ := Prod.mk.inj (Option.some.inj heq)
      exact ⟨rfl, rfl⟩

/-- It clears its slot. -/
theorem DequeueStep.clear (hb : Board m tr) (hclaimed : Claimed tr b i)
    (hx : .placed x (place b i) ∈ tr) (hd : .dequeued x ∈ tr) {s : Slot α}
    (hs : s.committed = false) :
    DequeueStep m tr (.clearCommitted b i) ⟨m.setSlot b i s, some (.addConsumed b i), []⟩ := by
  refine ⟨hb.cleared hx hclaimed.1 hd _, .of_same (.setSlot _), rfl, fun c' hc' => ?_,
    fun x => ?_, fun x hx => ?_, fun c' hc' b' j hbusy => .inl ?_, fun b' j hne => ?_, fun b' => ?_,
    fun b' j hj => ?_⟩
  · obtain rfl := Option.some.inj hc'
    refine ⟨hclaimed, ?_, x, hx, hd⟩
    rw [Memory.setSlot_slots, if_pos ⟨rfl, rfl⟩]
    exact hs
  · simp [Untouched]
  · exact absurd hx List.not_mem_nil
  · obtain rfl := Option.some.inj hc'
    exact hbusy
  · rw [Memory.setSlot_slots, if_neg]
    rintro ⟨rfl, rfl⟩
    exact hne rfl
  · rw [Memory.setSlot_consumed, Memory.setSlot_read]
    rfl
  · by_cases hslot : b' = b ∧ j = i
    · obtain ⟨rfl, rfl⟩ := hslot
      exact .inl ⟨_, rfl, rfl⟩
    · refine .inr (.inr ⟨hj, fun heq => hslot ?_⟩)
      obtain ⟨rfl, rfl⟩ := Prod.mk.inj (Option.some.inj heq)
      exact ⟨rfl, rfl⟩

/-- It counts its slot. -/
theorem DequeueStep.count (hb : Board m tr) (hcleared : Cleared m tr b i) {c' : Option Dequeue}
    (hc' : ∀ d ∈ c', d.busy = none ∧ d.Valid (m.addConsumed b) tr) :
    DequeueStep m tr (.addConsumed b i) ⟨m.addConsumed b, c', []⟩ := by
  refine ⟨hb.addConsumed, .of_same .addConsumed, rfl, fun d hd => (hc' d hd).2, fun x => ?_,
    fun x hx => ?_,
    fun d hd b' j hbusy => ?_, fun b' j hne => ?_, fun b' => ?_, fun b' j hj => ?_⟩
  · simp [Untouched]
  · exact absurd hx List.not_mem_nil
  · exact absurd ((hc' d hd).1.symm.trans hbusy) nofun
  · rw [Memory.addConsumed_slots]
  · have hnew : inBlock b' c' = 0 := by
      cases c' with
      | none => rfl
      | some d => simp [inBlock, Dequeue.inBlock, (hc' d rfl).1]
    have hread : ((m.addConsumed b).block b').read = (m.block b').read := Same.addConsumed.read b'
    rw [Memory.addConsumed_consumed, hnew, hread]
    simp only [inBlock, Dequeue.inBlock, Dequeue.busy, Option.any_some, decide_eq_true_eq,
      eq_comm (a := b)]
    omega
  · by_cases hslot : b' = b ∧ j = i
    · obtain ⟨rfl, rfl⟩ := hslot
      refine .inr (.inl ?_)
      obtain ⟨hfalse, hx⟩ := hcleared
      exact ⟨by rw [Memory.addConsumed_slots]; exact hfalse, hx⟩
    · refine .inr (.inr ⟨hj, fun heq => hslot ?_⟩)
      obtain ⟨rfl, rfl⟩ := Prod.mk.inj (Option.some.inj heq)
      exact ⟨rfl, rfl⟩

/-- It moves `head`. -/
theorem DequeueStep.move (hb : Board m tr) (hc : c.busy = none)
    (hr : (m.block m.head).read = blockSize) (hn : m.head + 1 < m.made) {c' : Dequeue}
    (hbusy : c'.busy = none) (hc' : c'.Valid { m with head := m.head + 1 } tr) :
    DequeueStep m tr c ⟨{ m with head := m.head + 1 }, some c', []⟩ := by
  refine .of_same (m := m) (hb.moveHead hr hn)
    ⟨Nat.le_refl _, Nat.le_succ _, fun _ _ => Nat.le_refl _, fun _ _ => Nat.le_refl _⟩ rfl hc
      (fun d hd => ?_)
    (fun _ => rfl) fun _ => ⟨rfl, rfl⟩
  obtain rfl := Option.some.inj hd
  exact ⟨hbusy, hc'⟩

/-- **One access of `try_dequeue`**, when it moves `head` only from a block that is read.  One case
for each access; those that do not find what they look for go back to the load of `head`. -/
theorem dequeueStep_of_advance (hb : Board m tr) (hv : c.Valid m tr) (hok : c.Ok m)
    (hcount : ∀ b i, c.busy = some (b, i) → (m.block b).consumed + 1 ≤ (m.block b).read)
    {r : Outcome (Memory α) Dequeue (QueueEvent (Item α))} (hr : c.advance m z = some r) :
    DequeueStep m tr c r := by
  have hmade {b : ℕ} (hle : b ≤ m.head) : b < m.made := Nat.lt_of_le_of_lt hle hb.wf.head_lt
  cases c with
  | loadHead =>
    obtain rfl := Option.some.inj hr
    exact .pure hb rfl fun d hd => by
      obtain rfl := Option.some.inj hd
      exact ⟨rfl, Nat.le_refl _⟩
  | loadWrite b =>
    obtain rfl := Option.some.inj hr
    exact .pure hb rfl fun d hd => by
      obtain rfl := Option.some.inj hd
      exact ⟨rfl, hv, Nat.le_refl _⟩
  | loadRead b p =>
    simp only [Dequeue.advance] at hr
    split_ifs at hr with hle <;> obtain rfl := Option.some.inj hr
    · exact .pure hb rfl fun d hd => by
        obtain rfl := Option.some.inj hd
        exact ⟨rfl, hv⟩
    · exact .pure hb rfl fun d hd => by
        obtain rfl := Option.some.inj hd
        exact ⟨rfl, hv.1, Nat.lt_of_lt_of_le (Nat.not_le.mp hle) hv.2⟩
  | loadConsumed b p =>
    simp only [Dequeue.advance] at hr
    split_ifs at hr <;> obtain rfl := Option.some.inj hr
    · exact .pure hb rfl fun d hd => by
        obtain rfl := Option.some.inj hd
        exact ⟨rfl, trivial⟩
    · exact .pure hb rfl fun d hd => by
        obtain rfl := Option.some.inj hd
        exact ⟨rfl, hv⟩
  | loadNext b p =>
    simp only [Dequeue.advance] at hr
    split at hr
    · split_ifs at hr <;> obtain rfl := Option.some.inj hr
      · exact .pure hb rfl fun d hd => by
          obtain rfl := Option.some.inj hd
          exact ⟨rfl, hv.1⟩
      · exact .nothing hb rfl
    · next n hnext =>
      obtain rfl := Option.some.inj hr
      exact .pure hb rfl fun d hd => by
        obtain rfl := Option.some.inj hd
        exact ⟨rfl, hv.1, hb.wf.eq_succ_of_next (hmade hv.1) hnext⟩
  | reloadWrite b =>
    simp only [Dequeue.advance] at hr
    split_ifs at hr <;> obtain rfl := Option.some.inj hr
    · exact .pure hb rfl fun d hd => by
        obtain rfl := Option.some.inj hd
        exact ⟨rfl, trivial⟩
    · exact .nothing hb rfl
  | exchangeHead b n =>
    simp only [Dequeue.advance] at hr
    split_ifs at hr with hhead <;> obtain rfl := Option.some.inj hr
    · obtain ⟨-, rfl, hlt⟩ := hv
      subst hhead
      exact .move hb rfl (hok rfl) hlt rfl trivial
    · exact .pure hb rfl fun d hd => by
        obtain rfl := Option.some.inj hd
        exact ⟨rfl, trivial⟩
  | exchangeRead b r =>
    simp only [Dequeue.advance] at hr
    split_ifs at hr with hread <;> obtain rfl := Option.some.inj hr
    · exact .claim hb hv.1 hv.2 hread.1
    · exact .pure hb rfl fun d hd => by
        obtain rfl := Option.some.inj hd
        exact ⟨rfl, trivial⟩
  | loadCommitted b i =>
    simp only [Dequeue.advance] at hr
    split_ifs at hr with hcommitted
    · obtain ⟨x, hstorage, rfl⟩ := Option.map_eq_some_iff.mp hr
      exact .take hb hv.1 hv.2 hcommitted hstorage
    · obtain rfl := Option.some.inj hr
      refine ⟨hb, .refl, rfl, fun d hd => ?_, fun x => ?_, fun x hx => ?_,
        fun d hd b' j hbusy => .inl ?_,
        fun _ _ _ => rfl, fun _ => rfl, fun b' j hj => ?_⟩
      · obtain rfl := Option.some.inj hd
        exact hv
      · simp [Untouched]
      · exact absurd hx List.not_mem_nil
      · obtain rfl := Option.some.inj hd
        exact hbusy
      · by_cases hbusy : (Dequeue.loadCommitted b i).busy = some (b', j)
        · exact .inl ⟨_, rfl, hbusy⟩
        · exact .inr (.inr ⟨hj, hbusy⟩)
  | clearCommitted b i =>
    obtain ⟨hclaimed, x, hx, hd⟩ := hv
    obtain rfl := Option.some.inj hr
    exact .clear hb hclaimed hx hd rfl
  | addConsumed b i =>
    obtain ⟨hclaimed, hcleared⟩ := hv
    obtain rfl := Option.some.inj hr
    refine .count hb hcleared fun d hd => ?_
    split_ifs at hd with hall
    · obtain rfl := Option.some.inj hd
      have hle := (hb.exists_of_claimed hclaimed.2).1
      have hread := hb.wf.read_le b (hmade hle)
      have hge := hcount b i rfl
      refine ⟨rfl, hle, ?_⟩
      rw [Same.addConsumed.read b]
      omega
    · exact absurd hd nofun
  | reclaimConsumed b | reclaimHead b =>
    simp only [Dequeue.advance, Option.some.injEq] at hr
    subst hr
    exact .pure hb rfl fun d hd => by
      split_ifs at hd
      · obtain rfl := Option.some.inj hd
        exact ⟨rfl, hv⟩
      · exact absurd hd nofun
  | reclaimNext b =>
    simp only [Dequeue.advance, Option.some.injEq] at hr
    subst hr
    refine .pure hb rfl fun d hd => ?_
    obtain ⟨n, hnext, rfl⟩ := Option.map_eq_some_iff.mp hd
    exact ⟨rfl, hv.1, hv.2, hb.wf.eq_succ_of_next (hmade hv.1) hnext⟩
  | reclaimExchange b n =>
    simp only [Dequeue.advance] at hr
    split_ifs at hr with hhead <;> obtain rfl := Option.some.inj hr
    · obtain ⟨-, hread, rfl, hlt⟩ := hv
      subst hhead
      exact .move hb rfl hread hlt rfl trivial
    · exact .pure hb rfl nofun
  | loadGraveyard b returns =>
    obtain rfl := Option.some.inj hr
    refine .of_same (hb.setGraveyardNext _) (.of_same (.setGraveyardNext _)) rfl rfl
      (fun d hd => ?_)
      (fun b' => Memory.setGraveyardNext_slots m b b' _)
      fun b' => ⟨Memory.setGraveyardNext_consumed m b b' _, (Same.setGraveyardNext _).read b'⟩
    obtain rfl := Option.some.inj hd
    exact ⟨rfl, trivial⟩
  | exchangeGraveyard b dead returns =>
    by_cases hgrave : m.graveyard = dead ∧ z = false
    · rw [Dequeue.advance, if_pos hgrave] at hr
      obtain rfl := Option.some.inj hr
      refine .of_same (m := m) (hb.setGraveyard (some b))
        ⟨Nat.le_refl _, Nat.le_refl _, fun _ _ => Nat.le_refl _, fun _ _ => Nat.le_refl _⟩ rfl rfl
          (fun d hd => ?_)
        (fun _ => rfl) fun _ => ⟨rfl, rfl⟩
      split_ifs at hd
      · exact absurd hd nofun
      · obtain rfl := Option.some.inj hd
        exact ⟨rfl, trivial⟩
    · rw [Dequeue.advance, if_neg hgrave] at hr
      obtain rfl := Option.some.inj hr
      refine .of_same (hb.setGraveyardNext _) (.of_same (.setGraveyardNext _)) rfl rfl
        (fun d hd => ?_)
        (fun b' => Memory.setGraveyardNext_slots m b b' _)
        fun b' => ⟨Memory.setGraveyardNext_consumed m b b' _, (Same.setGraveyardNext _).read b'⟩
      obtain rfl := Option.some.inj hd
      exact ⟨rfl, trivial⟩

/-! ## The consumers of a run -/

/-- The slot that an operation has claimed. -/
def busyOp : Op α Dequeue → Option (ℕ × ℕ)
  | .enqueue _ => none
  | .dequeue c => c.busy

/-- It is a slot of the block. -/
def busyIn (b : ℕ) (o : Op α Dequeue) : Bool := (busyOp o).any fun k => k.1 = b

theorem countP_dequeue (c : Dequeue) (b : ℕ) :
    [Op.dequeue (α := α) c].countP (busyIn b) = inBlock b (some c) :=
  List.countP_singleton ..

/-- What the consumers in progress are at: each knows what it has to know, no two are busy with one
slot, and every slot that is claimed is counted or somebody is busy with it. -/
structure Consuming (m : Memory α) (ops : List (Op α Dequeue)) (tr : List (QueueEvent (Item α))) :
    Prop where
  valid : ∀ c, .dequeue c ∈ ops → c.Valid m tr
  unique : Unique busyOp ops
  counts : ∀ b < m.made, (m.block b).consumed + ops.countP (busyIn b) =
    (m.block b).read
  settled : ∀ b i, Claimed tr b i → (∃ c, .dequeue c ∈ ops ∧ c.busy = some (b, i)) ∨
    Cleared m tr b i

namespace Consuming

variable {ops pre post : List (Op α Dequeue)}

theorem start : Consuming (Memory.make : Memory α) [] [] where
  valid _ hc := absurd hc List.not_mem_nil
  unique := List.nodup_nil
  counts _ _ := rfl
  settled _ _ hclaimed := absurd hclaimed.2 (Nat.not_lt_zero _)

/-- Nobody is busy with a block that is not there. -/
theorem countP_eq_zero (h : Consuming m ops tr) (hb : Board m tr) (hle : m.made ≤ b) :
    ops.countP (busyIn b) = 0 := by
  refine List.countP_eq_zero.mpr fun o ho hbusy => ?_
  cases o with
  | enqueue e => exact absurd hbusy (by simp [busyIn, busyOp])
  | dequeue c =>
    obtain ⟨k, hk, hkb⟩ := (Option.any_eq_true _ _).mp hbusy
    have hclaimed := (h.valid c ho).claimed (b := k.1) (i := k.2) hk
    have hle' := (hb.exists_of_claimed hclaimed.2).1
    have hlt := hb.wf.head_lt
    obtain rfl := of_decide_eq_true hkb
    omega

/-- A consumer's own slots are not those of the producers. -/
theorem cleared_of_producer {e : Enqueue α}
    {r : Outcome (Memory α) (Enqueue α) (QueueEvent (Item α))} (hb : Board m tr)
    (hr : ProducerStep m tr e r) (hi : i < blockSize) (h : Cleared m tr b i) :
    (r.mem.block b).slots i = (m.block b).slots i := by
  obtain ⟨-, x, hx, hd⟩ := h
  exact hr.slots x b i hi hx (hb.lawful.enqueued_of_dequeued hd)

theorem claims_of_producer {e : Enqueue α}
    {r : Outcome (Memory α) (Enqueue α) (QueueEvent (Item α))} (hr : ProducerStep m tr e r) :
    claims (r.emitted.reverse ++ tr) = claims tr := by
  refine claims_append_of_not_mem fun n hn => ?_
  obtain ⟨k, hk⟩ | heq := hr.emitted _ (List.mem_reverse.mp hn)
  · exact absurd hk nofun
  · exact absurd heq nofun

/-- A producer moves. -/
theorem producer {e : Enqueue α} (h : Consuming m (pre ++ .enqueue e :: post) tr) (hb : Board m tr)
    {r : Outcome (Memory α) (Enqueue α) (QueueEvent (Item α))} (hr : ProducerStep m tr e r) :
    Consuming r.mem (pre ++ ((r.next.map .enqueue).toList ++ post)) (r.emitted.reverse ++ tr) := by
  have hmem {c : Dequeue} : .dequeue c ∈ pre ++ ((r.next.map .enqueue).toList ++ post) ↔
      .dequeue c ∈ pre ++ .enqueue e :: post := by
    constructor
    · intro hc
      obtain hc | hnext := mem_access hc
      · exact mem_of_mem_append hc
      · obtain ⟨e', -, heq⟩ := Option.map_eq_some_iff.mp hnext
        exact absurd heq nofun
    · exact fun hc => mem_others hc nofun
  have hcount (b : ℕ) :
      List.countP (busyIn b) (pre ++ ((r.next.map (Op.enqueue (α := α) (γ := Dequeue))).toList ++
        post)) =
        List.countP (busyIn b) (pre ++ .enqueue e :: post) := by
    cases hnext : r.next with
    | none | some e' => simp [busyIn, busyOp]
  refine ⟨fun c hc => ?_, h.unique.access fun o ho k hk => ?_, fun b hb' => ?_,
    fun b i hclaimed => ?_⟩
  · have hold := h.valid c (hmem.mp hc)
    refine hold.mono hb hr.board hr.grows (fun b i heq => ?_) fun b i x _ _ hd => ?_
    · subst heq
      exact cleared_of_producer hb hr hold.1.1 hold.2
    · obtain ⟨n, hn⟩ | heq := hr.emitted _ (List.mem_reverse.mp hd)
      · exact absurd hn nofun
      · exact absurd heq nofun
  · obtain ⟨e', -, rfl⟩ := Option.map_eq_some_iff.mp ho
    exact absurd hk nofun
  · rw [hcount]
    by_cases hlt : b < m.made
    · rw [hr.consumed b hlt, hr.read b hlt]
      exact h.counts b hlt
    · obtain ⟨hread, hconsumed⟩ := hr.linked b (Nat.not_lt.mp hlt) hb'
      rw [hread, hconsumed, h.countP_eq_zero hb (Nat.not_lt.mp hlt)]
  · replace hclaimed : Claimed tr b i := ⟨hclaimed.1, claims_of_producer hr ▸ hclaimed.2⟩
    obtain ⟨c, hc, hbusy⟩ | hcleared := h.settled b i hclaimed
    · exact .inl ⟨c, hmem.mpr hc, hbusy⟩
    · exact .inr (hcleared.append (cleared_of_producer hb hr hclaimed.1 hcleared))

/-- A consumer moves. -/
theorem advance (h : Consuming m (pre ++ .dequeue c :: post) tr) (hb : Board m tr)
    {r : Outcome (Memory α) Dequeue (QueueEvent (Item α))} (hr : DequeueStep m tr c r) :
    Consuming r.mem (pre ++ ((r.next.map .dequeue).toList ++ post)) (r.emitted.reverse ++ tr) := by
  have hself : Op.dequeue c ∈ pre ++ .dequeue c :: post :=
    List.mem_append_right _ (List.mem_cons_self ..)
  have hothers {c' : Dequeue} {b i : ℕ} (hc' : .dequeue c' ∈ pre ++ post)
    (hbusy : c'.busy = some (b, i)) :
      c.busy ≠ some (b, i) :=
    fun heq => h.unique.others (o := .dequeue c) heq _ hc' hbusy
  refine ⟨fun c' hc' => ?_, h.unique.access fun o ho k hk => ?_, fun b hb' => ?_,
    fun b i hclaimed => ?_⟩
  · obtain hc' | hnext := mem_access hc'
    · have hold := h.valid c' (mem_of_mem_append hc')
      refine hold.mono hb hr.board hr.grows (fun b i heq => ?_) fun b i x hbusy hx hd => ?_
      · subst heq
        exact hr.slots b i (hothers hc' rfl)
      · obtain ⟨b', i', hbusy', hx'⟩ := hr.dequeued x hd
        have hplace := hb.lawful.place_unique hx hx'
        obtain ⟨rfl, rfl⟩ := place_inj (hold.claimed hbusy).1
          ((h.valid c hself).claimed hbusy').1 hplace
        exact hothers hc' hbusy hbusy'
    · obtain ⟨d, hd, heq⟩ := Option.map_eq_some_iff.mp hnext
      obtain rfl := Op.dequeue.inj heq
      exact hr.next d hd
  · obtain ⟨d, hd, rfl⟩ := Option.map_eq_some_iff.mp ho
    obtain hold | hnew := hr.busy d hd k.1 k.2 hk
    · exact .inl hold
    · refine .inr fun o' ho' hk' => hnew ?_
      cases o' with
      | enqueue e => exact absurd hk' nofun
      | dequeue c' => exact (h.valid c' (mem_of_mem_append ho')).claimed hk'
  · have hcounts := hr.counts b
    have hold := h.counts b (hr.made ▸ hb')
    have hnext : (r.next.map (Op.dequeue (α := α))).toList.countP (busyIn b) =
        inBlock b r.next := by
      cases r.next with
      | none => rfl
      | some d => exact countP_dequeue d b
    rw [← List.singleton_append, List.countP_append, List.countP_append, countP_dequeue] at hold
    rw [List.countP_append, List.countP_append, hnext]
    omega
  · obtain ⟨d, hd, hbusy⟩ | hcleared | ⟨hold, hne⟩ := hr.settled b i hclaimed
    · exact .inl ⟨d, List.mem_append_right
        _ (List.mem_append_left _ (by simp [Option.mem_def.mp hd])), hbusy⟩
    · exact .inr hcleared
    · obtain ⟨c', hc', hbusy⟩ | hcleared := h.settled b i hold
      · refine .inl ⟨c', mem_others hc' fun heq => ?_, hbusy⟩
        obtain rfl := Op.dequeue.inj heq
        exact hne hbusy
      · exact .inr (hcleared.append (hr.slots b i hne))

end Consuming

/-- The invariant of the queue: the memory is that of the history, and what the operations know. -/
structure MatchesHistory (s : State α Dequeue) : Prop where
  board : Board s.mem s.trace
  producing : Producing s.mem s.ops s.trace
  consuming : Consuming s.mem s.ops s.trace

/-- An access of a consumer is allowed when it moves `head` only from a block that is read. -/
def Ok (s : State α Dequeue) : Op α Dequeue → Bool → Prop
  | .enqueue _, _ => True
  | .dequeue c, _ => c.Ok s.mem

instance (s : State α Dequeue) : (o : Op α Dequeue) → (z : Bool) → Decidable (Ok s o z)
  | .enqueue _, _ => .isTrue trivial
  | .dequeue c, _ => inferInstanceAs (Decidable (c.Ok s.mem))

namespace MatchesHistory

variable {s s' : State α Dequeue} {ops pre post : List (Op α Dequeue)}

theorem start : MatchesHistory (Queue.start : State α Dequeue) := ⟨.make, .start, .start⟩

theorem enqueue (h : MatchesHistory ⟨m, ops, tr⟩) {p : ℕ} {v : α}
    (hidle : ∀ e, .enqueue e ∈ ops → e.item.producer ≠ p) :
    MatchesHistory ⟨{ m with tickets := m.tickets + 1 },
      .enqueue (.loadTail ⟨m.tickets, p, v⟩) :: ops,
      .called ⟨m.tickets, p, v⟩ :: tr⟩ := by
  have hboard : Board { m with tickets := m.tickets + 1 } (.called ⟨m.tickets, p, v⟩ :: tr) :=
    h.board.called fun y hy hp => h.producing.placed_of_called h.board hidle hy hp
  have hnew : .called ⟨m.tickets, p, v⟩ ∉ tr := fun hx => Nat.lt_irrefl _ (h.board.tickets _ hx)
  refine ⟨hboard, h.producing.called hidle hnew h.board,
    ⟨fun c hc => ?_, h.consuming.unique, fun b hb => ?_,
    fun b i hclaimed => ?_⟩⟩
  · replace hc := (List.mem_cons.mp hc).resolve_left nofun
    have hboard' : Board { m with tickets := m.tickets + 1 } ([.called ⟨m.tickets, p, v⟩] ++ tr) :=
      hboard
    refine (h.consuming.valid c hc).mono h.board hboard'
      ⟨Nat.le_refl _, Nat.le_refl _, fun _ _ => Nat.le_refl _, fun _ _ => Nat.le_refl _⟩
        (fun _ _ _ => rfl)
      fun b i x _ _ hd => absurd (List.mem_singleton.mp hd) nofun
  · exact h.consuming.counts b hb
  · obtain ⟨c, hc, hbusy⟩ | hcleared := h.consuming.settled b i hclaimed
    · exact .inl ⟨c, List.mem_cons_of_mem _ hc, hbusy⟩
    · obtain ⟨hfalse, y, hy, hd⟩ := hcleared
      exact .inr ⟨hfalse, y, List.mem_cons_of_mem _ hy, List.mem_cons_of_mem _ hd⟩

theorem tryDequeue (h : MatchesHistory ⟨m, ops, tr⟩) :
    MatchesHistory ⟨m, .dequeue .loadHead :: ops, tr⟩ := by
  refine ⟨h.board, h.producing.tryDequeue .loadHead,
    ⟨fun c hc => ?_, h.consuming.unique, fun b hb => ?_, fun b i hclaimed => ?_⟩⟩
  · obtain heq | hc := List.mem_cons.mp hc
    · obtain rfl := Op.dequeue.inj heq
      trivial
    · exact h.consuming.valid c hc
  · exact h.consuming.counts b hb
  · exact (h.consuming.settled b i hclaimed).imp_left fun ⟨c, hc, hbusy⟩ =>
      ⟨c, List.mem_cons_of_mem _ hc, hbusy⟩

theorem producer {e : Enqueue α} (h : MatchesHistory ⟨m, pre ++ .enqueue e :: post, tr⟩)
    {r : Outcome (Memory α) (Enqueue α) (QueueEvent (Item α))} (hr : e.advance m z = some r) :
    MatchesHistory ⟨r.mem, pre ++ ((r.next.map .enqueue).toList ++ post),
      r.emitted.reverse ++ tr⟩ := by
  have hvalid := h.producing.valid e (List.mem_append_right _ (List.mem_cons_self ..))
  have hstep := producerStep_of_advance h.board hvalid hr
  exact ⟨hstep.board, h.producing.advance hstep, h.consuming.producer h.board hstep⟩

/-- A slot that is busy is not counted yet. -/
theorem consumed_lt (h : MatchesHistory ⟨m, pre ++ .dequeue c :: post, tr⟩)
    (hbusy : c.busy = some (b, i)) :
    (m.block b).consumed + 1 ≤ (m.block b).read := by
  have hself : Op.dequeue c ∈ pre ++ .dequeue c :: post :=
    List.mem_append_right _ (List.mem_cons_self ..)
  have hclaimed := (h.consuming.valid c hself).claimed hbusy
  have hb := (h.board.exists_of_claimed hclaimed.2).1
  have hcounts := h.consuming.counts b (Nat.lt_of_le_of_lt hb h.board.wf.head_lt)
  have hpos : 0 < (pre ++ .dequeue c :: post).countP (busyIn b) := by
    refine List.countP_pos_iff.mpr ⟨_, hself, ?_⟩
    simp [busyIn, busyOp, hbusy]
  replace hcounts : (m.block b).consumed + (pre ++ .dequeue c :: post).countP (busyIn b) =
    (m.block b).read :=
    hcounts
  omega

theorem dequeue (h : MatchesHistory ⟨m, pre ++ .dequeue c :: post, tr⟩) (hok : c.Ok m)
    {r : Outcome (Memory α) Dequeue (QueueEvent (Item α))} (hr : c.advance m z = some r) :
    MatchesHistory ⟨r.mem, pre ++ ((r.next.map .dequeue).toList ++ post),
      r.emitted.reverse ++ tr⟩ := by
  have hself : Op.dequeue c ∈ pre ++ .dequeue c :: post :=
    List.mem_append_right _ (List.mem_cons_self ..)
  have hstep := dequeueStep_of_advance h.board (h.consuming.valid c hself) hok
    (fun b i hbusy => h.consumed_lt hbusy) hr
  exact ⟨hstep.board, h.producing.dequeue hstep.grows hstep.untouched,
    h.consuming.advance h.board hstep⟩

end MatchesHistory

/-- Allowed steps keep the invariant. -/
theorem MatchesHistory.reaches {s s' : State α Dequeue} (hs : MatchesHistory s)
    (h : Reaches (consumer α).program.step (AtAccess Ok) s s') : MatchesHistory s' :=
  Consumer.invariant h hs
    (fun _ _ _ _ _ hs hidle => hs.enqueue hidle)
    (fun _ _ _ hs _ => hs.tryDequeue)
    (fun _ _ _ _ _ _ _ hs _ hr => hs.producer hr)
    (fun _ _ _ _ _ _ _ hs hok hr => hs.dequeue hok hr)

/-- **The invariant holds in every run** in which `head` leaves only blocks that are read. -/
theorem matchesHistory_of_reaches {s : State α Dequeue}
    (h : Reaches (consumer α).program.step (AtAccess Ok) start s) :
    MatchesHistory s :=
  MatchesHistory.start.reaches h

end TaskQueue
end Queue
end Scheduler
end NUClear
