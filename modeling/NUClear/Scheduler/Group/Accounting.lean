import NUClear.Scheduler.Group.Interleaved

/-!
# Token accounting under every interleaving

Every operation in progress stands for a number of tokens (`Op.debt`): one that it has subtracted
and that no `RunningLock`, locked handle or claimed waiter accounts for yet, or minus one when it
still owes the subtraction.  A parked task reserves a token once its arbiter flag is set; until the
flag is set either the parker or one drain may set it, and whoever does accounts for the token.

`Consistent` collects what is needed, as counts:

* of the entries with a given arbiter flag, at most one, parked or in the hands of a drain;
* of the operations that reconcile a given flag, at most one, and while the flag is not set its
  entry is still there;
* of the operations in a mutex section, one exactly while the mutex is held;
* of the slow path, `slowPending` and the handles;
* of the tokens, the balance.

A count over the operations in progress is a sum (`total`), and an access replaces one summand.  So
each part of the invariant is shown by cases on the branch, with the change of the memory on one
side and the change of that summand on the other (`slotsConsistent_access`,
`handlesConsistent_access`, `balance_access`).  Accesses that do not touch what is counted go
through one frame lemma each.

`consistent_of_reaches` says that all of this holds in every reachable state, and
`tokens_eq_of_quiescent` reads the balance when no operation is in progress.
-/

namespace NUClear
namespace Scheduler

open Foundation

namespace Group

/-! ## What is counted -/

/-- The tokens an operation stands for: one that it has taken and nobody else accounts for, or minus
one that it still has to subtract. -/
def Op.debt : Op → ℤ
  | .takeRecheck _ => 1
  | .releaseAdd _ => 1
  | .drainSub _ => -1
  | .reconcileCheck _ => 1
  | .reconcileClaim _ _ => 1
  | .handleTake _ => -1
  | _ => 0

/-- The operation holds the dequeued entry with arbiter flag `s`. -/
def Op.entryAt (s : ℕ) : Op → ℤ
  | .drainClaim e _ => if e.slot = s then 1 else 0
  | _ => 0

/-- The operation holds a dequeued entry whose flag is set. -/
def Op.entryHeld (slots : ℕ → Bool) : Op → ℤ
  | .drainClaim e _ => if slots e.slot then 1 else 0
  | _ => 0

/-- The operation is the `park_reconcile` of the flag `s`. -/
def Op.reconciles (s : ℕ) : Op → ℤ
  | .reconcileSub s' => if s' = s then 1 else 0
  | .reconcileCheck s' => if s' = s then 1 else 0
  | .reconcileClaim s' _ => if s' = s then 1 else 0
  | _ => 0

/-- The operation holds the mutex: one if it does, so that sums over the operations are exact. -/
def Op.holdsMutex : Op → ℤ
  | .handleTake _ => 1
  | .handleWalk _ => 1
  | _ => 0

/-- The operation is counted by `slowPending` although its handle is not in the queue. -/
def Op.countsSlow : Op → ℤ
  | .lockInsert _ => 1
  | .handleWalk _ => 1
  | .handlePending _ _ => 1
  | _ => 0

/-- The operation works on the handle `r`: one if it does, as for the mutex. -/
def Op.worksOn (r : ℕ) : Op → ℤ
  | .handleLock r' => if r' = r then 1 else 0
  | .handleTake r' => if r' = r then 1 else 0
  | .handleUnlock r' => if r' = r then 1 else 0
  | _ => 0

/-- The operation locked a handle and owes the subtraction of its token. -/
def Op.locks : Op → ℤ
  | .handleTake _ => 1
  | _ => 0

instance : Settled Op.debt := ⟨fun _ => rfl⟩
instance (s : ℕ) : Settled (Op.entryAt s) := ⟨fun _ => rfl⟩
instance (slots : ℕ → Bool) : Settled (Op.entryHeld slots) := ⟨fun _ => rfl⟩
instance (s : ℕ) : Settled (Op.reconciles s) := ⟨fun _ => rfl⟩
instance : Settled Op.holdsMutex := ⟨fun _ => rfl⟩
instance : Settled Op.locks := ⟨fun _ => rfl⟩
instance : Settled Op.countsSlow := ⟨fun _ => rfl⟩
instance (r : ℕ) : Settled (Op.worksOn r) := ⟨fun _ => rfl⟩

/-- The parked entries with arbiter flag `s`. -/
def parkedAt (g : Group) (s : ℕ) : ℤ := g.parked.countP fun e => e.slot = s

/-- The parked entries whose flag is set. -/
def parkedHeld (slots : ℕ → Bool) (g : Group) : ℤ := g.parked.countP fun e => slots e.slot

/-- The number of handles with `locked == true`. -/
def lockedCount (g : Group) : ℤ := g.queue.countP fun r => (g.handles r).locked

theorem lockedCount_eq_length (g : Group) : g.lockedCount = g.lockedHandles.length := by
  rw [lockedCount, lockedHandles, List.countP_eq_length_filter]

theorem lockedCount_nonneg (g : Group) : 0 ≤ g.lockedCount := Int.natCast_nonneg _

theorem parkedHeld_nonneg (slots : ℕ → Bool) (g : Group) : 0 ≤ g.parkedHeld slots :=
  Int.natCast_nonneg _

theorem parkedAt_nonneg (g : Group) (s : ℕ) : 0 ≤ g.parkedAt s := Int.natCast_nonneg _

theorem parkedAt_pos_iff {g : Group} {s : ℕ} : 0 < g.parkedAt s ↔ ∃ e ∈ g.parked, e.slot = s := by
  rw [parkedAt, Int.natCast_pos, List.countP_pos_iff]
  simp only [decide_eq_true_eq]

/-! ## How the counts change -/

/-- Setting one flag counts the entries that have it. -/
theorem countP_update_slot (slots : ℕ → Bool) (s : ℕ) (l : List WaitEntry) :
    ((l.countP fun e => Function.update slots s true e.slot : ℕ) : ℤ) =
      (l.countP fun e => slots e.slot) +
        if slots s then 0 else ((l.countP fun e => e.slot = s : ℕ) : ℤ) := by
  induction l with
  | nil => simp
  | cons e l ih =>
    simp only [List.countP_cons]
    by_cases hs : e.slot = s
    · subst hs
      cases h : slots e.slot <;> simp [h] at ih ⊢ <;> omega
    · rw [Function.update_of_ne hs]
      simp only [hs, decide_false]
      push_cast
      rw [ih]
      simp
      omega

theorem entryHeld_update (slots : ℕ → Bool) (s : ℕ) (o : Op) :
    o.entryHeld (Function.update slots s true) =
      o.entryHeld slots + if slots s then 0 else o.entryAt s := by
  cases o
  case drainClaim e k =>
    simp only [Op.entryHeld, Op.entryAt]
    by_cases hs : e.slot = s
    · subst hs
      cases h : slots e.slot <;> simp
    · rw [Function.update_of_ne hs]
      simp [hs]
  all_goals simp [Op.entryHeld, Op.entryAt]

theorem total_entryHeld_update (slots : ℕ → Bool) (s : ℕ) (ops : List Op) :
    total (Op.entryHeld (Function.update slots s true)) ops =
      total (Op.entryHeld slots) ops + if slots s then 0 else total (Op.entryAt s) ops := by
  induction ops with
  | nil => simp
  | cons o ops ih =>
    rw [total_cons, total_cons, total_cons, ih, entryHeld_update]
    split_ifs <;> omega

/-- A flag that no entry has may be written freely. -/
theorem countP_update_fresh (slots : ℕ → Bool) (s : ℕ) (b : Bool) {l : List WaitEntry}
    (h : l.countP (fun e => e.slot = s) = 0) :
    (l.countP fun e => Function.update slots s b e.slot) = l.countP fun e => slots e.slot := by
  refine List.countP_congr fun e he => ?_
  have hne : e.slot ≠ s := by
    have := List.countP_eq_zero.mp h e he
    simpa using this
  rw [Function.update_of_ne hne]

theorem total_entryHeld_update_fresh (slots : ℕ → Bool) (s : ℕ) (b : Bool) (ops : List Op)
    (h : total (Op.entryAt s) ops = 0) :
    total (Op.entryHeld (Function.update slots s b)) ops = total (Op.entryHeld slots) ops := by
  have hnn : ∀ o : Op, 0 ≤ o.entryAt s := fun o => by
    cases o <;> simp only [Op.entryAt, le_refl]
    split_ifs <;> omega
  induction ops with
  | nil => rfl
  | cons o ops ih =>
    have h₁ := hnn o
    have h₂ : 0 ≤ total (Op.entryAt s) ops := total_nonneg fun o _ => hnn o
    rw [total_cons] at h
    rw [total_cons, total_cons, ih (by omega)]
    congr 1
    cases o
    case drainClaim e k =>
      have hne : e.slot ≠ s := fun he => by
        rw [Op.entryAt, if_pos he] at h
        omega
      simp only [Op.entryHeld, Function.update_of_ne hne]
    all_goals rfl

theorem countP_parked_publish (g : Group) (w : Waiter) (p : WaitEntry → Bool) :
    (g.publish w).parked.countP p = g.parked.countP p + if p ⟨w, g.nextSlot⟩ then 1 else 0 := by
  have h := Buckets.contents_enqueue_perm g.waitBuckets w.bucket (⟨w, g.nextSlot⟩ : WaitEntry)
  have hp : (g.publish w).parked.Perm (⟨w, g.nextSlot⟩ :: g.parked) := h
  rw [hp.countP_eq, List.countP_cons]

theorem countP_parked_dequeue {g : Group} {b : Fin priorityBuckets} {e : WaitEntry}
    {l : List WaitEntry} (h : g.waitBuckets b = e :: l) (p : WaitEntry → Bool) :
    g.parked.countP p =
      (g.waitBuckets.setBucket b l).contents.countP p + if p e then 1 else 0 := by
  have hp : g.parked.Perm (e :: (g.waitBuckets.setBucket b l).contents) :=
    Buckets.contents_dequeue_perm h
  rw [hp.countP_eq, List.countP_cons]

/-- Writing one handle changes the count by that handle. -/
theorem countP_update_handle (handles : ℕ → LockHandle) {r : ℕ} (h' : LockHandle) {q : List ℕ}
    (hq : q.Nodup) (hr : r ∈ q) :
    ((q.countP fun x => (Function.update handles r h' x).locked : ℕ) : ℤ) =
      (q.countP fun x => (handles x).locked) + (if h'.locked then 1 else 0) -
        if (handles r).locked then 1 else 0 := by
  induction q with
  | nil => exact absurd hr (List.not_mem_nil)
  | cons x q ih =>
    obtain ⟨hx, hq⟩ := List.nodup_cons.mp hq
    rw [List.countP_cons, List.countP_cons]
    by_cases hxr : x = r
    · subst hxr
      have hrest : (q.countP fun y => (Function.update handles x h' y).locked) =
          q.countP fun y => (handles y).locked := by
        refine List.countP_congr fun y hy => ?_
        have hne : y ≠ x := by
          rintro rfl
          exact hx hy
        rw [Function.update_of_ne hne]
      rw [hrest, Function.update_self]
      push_cast
      omega
    · have hmem : r ∈ q := (List.mem_cons.mp hr).resolve_left (Ne.symm hxr)
      have := ih hq hmem
      rw [Function.update_of_ne hxr]
      push_cast
      omega

@[simp] theorem setNotified_locked (g : Group) (rs : List ℕ) (b : Bool) (r : ℕ) :
    ((g.setNotified rs b).handles r).locked = (g.handles r).locked := by
  simp only [setNotified]
  split_ifs <;> rfl

theorem lockedCount_congr {g g' : Group} (hq : g'.queue = g.queue)
    (hl : ∀ r, (g'.handles r).locked = (g.handles r).locked) : g'.lockedCount = g.lockedCount := by
  simp only [lockedCount, hq, hl]

/-! ## The arbiter flags -/

/-- The counts of the arbiter flags. -/
structure SlotsConsistent (m : Machine) : Prop where
  entries : ∀ s, m.mem.parkedAt s + total (Op.entryAt s) m.ops ≤ 1
  reconcilers : ∀ s, total (Op.reconciles s) m.ops ≤ 1
  fresh : ∀ s, m.mem.nextSlot ≤ s →
    m.mem.parkedAt s + total (Op.entryAt s) m.ops = 0 ∧ total (Op.reconciles s) m.ops = 0
  waits : ∀ s, m.mem.slots s = false →
    total (Op.reconciles s) m.ops ≤ m.mem.parkedAt s + total (Op.entryAt s) m.ops
  settled : ∀ s, m.mem.slots s = true → 0 < m.mem.parkedAt s → total (Op.reconciles s) m.ops = 0

variable {g g' : Group} {pre post : List Op} {o : Op} {next : Option Op} {tr tr' : List Event}

theorem entryAt_nonneg (s : ℕ) (ops : List Op) : 0 ≤ total (Op.entryAt s) ops :=
  total_nonneg fun o _ => by
    cases o <;> simp only [Op.entryAt, le_refl]
    split_ifs <;> omega

theorem reconciles_nonneg (s : ℕ) (ops : List Op) : 0 ≤ total (Op.reconciles s) ops :=
  total_nonneg fun o _ => by
    cases o <;> simp only [Op.reconciles, le_refl] <;> split_ifs <;> omega

/-- An access that leaves the buckets alone and clears no flag.  A flag that it sets is the one of
the entry it has dequeued or of the parker it is, and for a flag that is not set afterwards it takes
no entry away from a parker that is still there. -/
theorem SlotsConsistent.frame (h : SlotsConsistent ⟨g, pre ++ o :: post, tr⟩)
    (hp : g'.parked = g.parked) (hn : g'.nextSlot = g.nextSlot)
    (he : ∀ s, total (Op.entryAt s) next.toList ≤ o.entryAt s)
    (hr : ∀ s, total (Op.reconciles s) next.toList ≤ o.reconciles s)
    (hw : ∀ s, g'.slots s = false → g.slots s = false ∧
      total (Op.reconciles s) next.toList + o.entryAt s ≤
        o.reconciles s + total (Op.entryAt s) next.toList)
    (hset : ∀ s, g'.slots s = true → g.slots s = true ∨ 1 ≤ o.entryAt s ∨
      1 ≤ o.reconciles s - total (Op.reconciles s) next.toList) :
    SlotsConsistent ⟨g', pre ++ (next.toList ++ post), tr'⟩ := by
  have hat : ∀ s, g'.parkedAt s = g.parkedAt s := fun s => by rw [parkedAt, parkedAt, hp]
  obtain ⟨h₁, h₂, h₃, h₄, h₅⟩ := h
  simp only [total_append, total_cons] at h₁ h₂ h₃ h₄ h₅
  constructor
  · intro s
    have := h₁ s
    have := he s
    simp only [total_append, hat]
    omega
  · intro s
    have := h₂ s
    have := hr s
    simp only [total_append]
    omega
  · intro s hs'
    have := h₃ s (hn ▸ hs')
    have := hr s
    have := he s
    have := g.parkedAt_nonneg s
    have := entryAt_nonneg s pre
    have := entryAt_nonneg s post
    have := entryAt_nonneg s next.toList
    have := reconciles_nonneg s pre
    have := reconciles_nonneg s post
    have := reconciles_nonneg s next.toList
    simp only [total_append, hat]
    omega
  · intro s hs'
    obtain ⟨hs, hle⟩ := hw s hs'
    have := h₄ s hs
    simp only [total_append, hat]
    omega
  · intro s hs' hpos
    rw [hat] at hpos
    have := hr s
    have := reconciles_nonneg s pre
    have := reconciles_nonneg s post
    have := reconciles_nonneg s next.toList
    simp only [total_append]
    rcases hset s hs' with hs | hone | hone
    · have := h₅ s hs hpos
      omega
    · have := h₁ s
      have := entryAt_nonneg s pre
      have := entryAt_nonneg s post
      omega
    · have := h₂ s
      omega

/-- The flags that are not set after an exchange. -/
theorem of_exchangeSlot_false {s s' : ℕ} (h : (g.exchangeSlot s).slots s' = false) :
    s ≠ s' ∧ g.slots s' = false := by
  have h : Function.update g.slots s true s' = false := h
  by_cases hs : s' = s
  · rw [hs, Function.update_self] at h
    exact absurd h (by simp)
  · rw [Function.update_of_ne hs] at h
    exact ⟨Ne.symm hs, h⟩

/-- The flags that are set after an exchange. -/
theorem of_exchangeSlot_true {s s' : ℕ} (h : (g.exchangeSlot s).slots s' = true) :
    g.slots s' = true ∨ s = s' := by
  have h : Function.update g.slots s true s' = true := h
  by_cases hs : s' = s
  · exact Or.inr hs.symm
  · rw [Function.update_of_ne hs] at h
    exact Or.inl h

@[simp] theorem unlockSection_waitBuckets (g : Group) (r : ℕ) :
    (g.unlockSection r).waitBuckets = g.waitBuckets := by
  unfold unlockSection; split_ifs <;> rfl

@[simp] theorem unlockSection_slots (g : Group) (r : ℕ) :
    (g.unlockSection r).slots = g.slots := by
  unfold unlockSection; split_ifs <;> rfl

@[simp] theorem unlockSection_nextSlot (g : Group) (r : ℕ) :
    (g.unlockSection r).nextSlot = g.nextSlot := by
  unfold unlockSection; split_ifs <;> rfl

@[simp] theorem unlockSection_running (g : Group) (r : ℕ) :
    (g.unlockSection r).running = g.running := by
  unfold unlockSection; split_ifs <;> rfl

@[simp] theorem unlockSection_concurrency (g : Group) (r : ℕ) :
    (g.unlockSection r).concurrency = g.concurrency := by
  unfold unlockSection; split_ifs <;> rfl

@[simp] theorem unlockSection_slowPending (g : Group) (r : ℕ) :
    (g.unlockSection r).slowPending = g.slowPending := by
  unfold unlockSection; split_ifs <;> rfl

@[simp] theorem unlockSection_nextHandle (g : Group) (r : ℕ) :
    (g.unlockSection r).nextHandle = g.nextHandle := by
  unfold unlockSection; split_ifs <;> rfl

@[simp] theorem unlockSection_queue (g : Group) (r : ℕ) :
    (g.unlockSection r).queue = g.queue.erase r := by
  unfold unlockSection; split_ifs <;> rfl

@[simp] theorem unlockSection_mutex (g : Group) (r : ℕ) : (g.unlockSection r).mutex = true := rfl

@[simp] theorem parked_unlockSection (g : Group) (r : ℕ) :
    (g.unlockSection r).parked = g.parked := by
  rw [parked, parked, unlockSection_waitBuckets]

theorem slotsConsistent_access {ev : List Event}
    (h : SlotsConsistent ⟨g, pre ++ o :: post, tr⟩) (ha : Access g o g' next ev) :
    SlotsConsistent ⟨g', pre ++ (next.toList ++ post), tr'⟩ := by
  cases ha
  case parkPublish w =>
    have hat : ∀ s, (g.publish w).parkedAt s = g.parkedAt s + if g.nextSlot = s then 1 else 0 :=
      fun s => by
        rw [parkedAt, countP_parked_publish]
        simp only [decide_eq_true_eq]
        split_ifs <;> simp [parkedAt]
    obtain ⟨h₁, h₂, h₃, h₄, h₅⟩ := h
    simp only [total_append, total_cons, Op.entryAt, Op.reconciles] at h₁ h₂ h₃ h₄ h₅
    have hf := h₃ g.nextSlot (le_refl _)
    constructor <;> intro s <;>
      simp only [Option.toList_some, List.singleton_append, total_append, total_cons, Op.entryAt,
        Op.reconciles, hat]
    · have := h₁ s
      split_ifs with hs <;> [subst hs; skip] <;> omega
    · have := h₂ s
      split_ifs with hs <;> [subst hs; skip] <;> omega
    · intro hs
      have := h₃ s (le_trans (Nat.le_succ _) hs)
      have hne : g.nextSlot ≠ s := by
        have : g.nextSlot + 1 ≤ s := hs
        omega
      rw [if_neg hne]
      omega
    · intro hs
      by_cases he : g.nextSlot = s
      · subst he
        rw [if_pos rfl]
        omega
      · have hs' : g.slots s = false := by
          have : Function.update g.slots g.nextSlot false s = false := hs
          rwa [Function.update_of_ne (Ne.symm he)] at this
        have := h₄ s hs'
        rw [if_neg he]
        omega
    · intro hs hpos
      have hs : Function.update g.slots g.nextSlot false s = true := hs
      by_cases he : s = g.nextSlot
      · rw [he, Function.update_self] at hs
        exact absurd hs (by simp)
      · rw [Function.update_of_ne he] at hs
        rw [if_neg (Ne.symm he)] at hpos ⊢
        have := h₅ s hs (by omega)
        omega
  case drainScanTake b k hb e l hbk =>
    have hat : ∀ s, g.parkedAt s =
        parkedAt { g with waitBuckets := g.waitBuckets.setBucket ⟨b, hb⟩ l } s +
          if e.slot = s then 1 else 0 := fun s => by
      rw [parkedAt, countP_parked_dequeue hbk]
      simp only [decide_eq_true_eq]
      split_ifs <;> simp [parkedAt, parked]
    obtain ⟨h₁, h₂, h₃, h₄, h₅⟩ := h
    simp only [total_append, total_cons, Op.entryAt, Op.reconciles, hat] at h₁ h₂ h₃ h₄ h₅
    constructor <;> intro s <;>
      simp only [Option.toList_some, List.singleton_append, total_append, total_cons, Op.entryAt,
        Op.reconciles]
    · have := h₁ s
      omega
    · exact h₂ s
    · intro hs
      have := h₃ s hs
      omega
    · intro hs
      have := h₄ s hs
      omega
    · intro hs hpos
      refine h₅ s hs ?_
      split_ifs <;> omega
  case drainClaimCounted e k hs | drainClaimUncounted e k hs =>
    refine h.frame rfl rfl (fun s => ?_) (fun s => ?_) (fun s hs' => ?_) fun s hs' => ?_
    · simp [Op.entryAt]
      split_ifs <;> omega
    · simp [Op.reconciles]
    · obtain ⟨hne, hs''⟩ := of_exchangeSlot_false hs'
      simp [Op.reconciles, Op.entryAt, hne, hs'']
    · refine (of_exchangeSlot_true hs').imp_right fun he => Or.inl ?_
      simp [Op.entryAt, he]
  case reconcileClaimLost s₀ _ hs | reconcileClaimDrain s₀ hs | reconcileClaimWait s₀ hs =>
    refine h.frame rfl rfl (fun s => ?_) (fun s => ?_) (fun s hs' => ?_) fun s hs' => ?_
    · simp [Op.entryAt]
    · simp [Op.reconciles]
      split_ifs <;> omega
    · obtain ⟨hne, hs''⟩ := of_exchangeSlot_false hs'
      simp [Op.reconciles, Op.entryAt, hne, hs'']
    · refine (of_exchangeSlot_true hs').imp_right fun he => Or.inr ?_
      simp [Op.reconciles, he]
  case reconcileCheckSlow s₀ hs =>
    refine h.frame rfl rfl (fun s => ?_) (fun s => ?_) (fun s hs' => ⟨hs', ?_⟩)
      fun s hs' => Or.inl hs' <;>
      simp [Op.entryAt, Op.reconciles] <;> split_ifs <;> omega
  case handleUnlockHeld r hm hl | handleUnlockIdle r hm hl =>
    refine h.frame (by simp) (by simp) (fun s => ?_) (fun s => ?_) (fun s hs' => ?_)
      fun s hs' => Or.inl (by simpa using hs') <;>
      simp_all [Op.entryAt, Op.reconciles]
  all_goals
    refine h.frame rfl rfl (fun s => ?_) (fun s => ?_) (fun s hs' => ⟨hs', ?_⟩)
      fun s hs' => Or.inl hs' <;>
      simp [Op.entryAt, Op.reconciles]

/-- A call starts with an operation that has nothing to do with a flag yet. -/
theorem slotsConsistent_start {ops : List Op} {c : Call} (h : SlotsConsistent ⟨g, ops, tr⟩)
    (hs : Start g ops c g' o) : SlotsConsistent ⟨g', o :: ops, tr'⟩ := by
  obtain ⟨h₁, h₂, h₃, h₄, h₅⟩ := h
  cases hs <;> constructor <;> intro s <;>
    simp only [total_cons, Op.entryAt, Op.reconciles, zero_add] <;>
    first
      | exact h₁ s
      | exact h₂ s
      | exact h₃ s
      | exact h₄ s
      | exact h₅ s

/-! ## The slow path -/

/-- The counts of the slow path. -/
structure HandlesConsistent (m : Machine) : Prop where
  nodup : m.mem.queue.Nodup
  fresh : ∀ r ∈ m.mem.queue, r < m.mem.nextHandle
  worker : ∀ r, total (Op.worksOn r) m.ops ≤ 1
  works : ∀ r, 0 < total (Op.worksOn r) m.ops → r ∈ m.mem.queue
  taken : ∀ r, Op.handleTake r ∈ m.ops → (m.mem.handles r).locked = true
  mutex : total Op.holdsMutex m.ops = if m.mem.mutex then 1 else 0
  slow : m.mem.slowPending = m.mem.queue.length + total Op.countsSlow m.ops

theorem Op.worksOn_nonneg (r : ℕ) (o : Op) : 0 ≤ o.worksOn r := by
  cases o <;> simp only [Op.worksOn, le_refl] <;> split_ifs <;> omega

theorem worksOn_nonneg (r : ℕ) (ops : List Op) : 0 ≤ total (Op.worksOn r) ops :=
  total_nonneg fun o _ => o.worksOn_nonneg r

theorem holdsMutex_nonneg (ops : List Op) : 0 ≤ total Op.holdsMutex ops :=
  total_nonneg fun o _ => by cases o <;> simp [Op.holdsMutex]

theorem countsSlow_nonneg (ops : List Op) : 0 ≤ total Op.countsSlow ops :=
  total_nonneg fun o _ => by cases o <;> simp [Op.countsSlow]

/-- An operation on a handle is counted for it. -/
theorem worksOn_eq_one {r : ℕ} (hr : o.handle? = some r) : o.worksOn r = 1 := by
  cases o <;> simp only [Op.handle?, reduceCtorEq, Option.some.injEq] at hr <;>
    simp [Op.worksOn, hr]

theorem worksOn_eq_zero {r : ℕ} (hr : o.handle? ≠ some r) : o.worksOn r = 0 := by
  cases o <;> simp only [Op.handle?, ne_eq, Option.some.injEq] at hr <;> simp [Op.worksOn, hr]

theorem worksOn_pos_of_mem {r : ℕ} {ops : List Op} (ho : o ∈ ops) (hr : o.handle? = some r) :
    0 < total (Op.worksOn r) ops := by
  obtain ⟨pre, post, rfl⟩ := List.append_of_mem ho
  have := worksOn_nonneg r pre
  have := worksOn_nonneg r post
  rw [total_append, total_cons, worksOn_eq_one hr]
  omega

theorem worksOn_eq_zero_of_notMem {r : ℕ} {ops : List Op} (h : r ∉ ops.filterMap Op.handle?) :
    total (Op.worksOn r) ops = 0 := by
  induction ops with
  | nil => rfl
  | cons o ops ih =>
    have ho : o.handle? ≠ some r := fun ho => h (List.mem_filterMap.mpr ⟨o, by simp, ho⟩)
    have hrest : r ∉ ops.filterMap Op.handle? := fun hm => by
      obtain ⟨o', ho', hr⟩ := List.mem_filterMap.mp hm
      exact h (List.mem_filterMap.mpr ⟨o', List.mem_cons_of_mem _ ho', hr⟩)
    rw [total_cons, ih hrest, worksOn_eq_zero ho, add_zero]

/-- An access outside the mutex sections: it leaves the queue, the handles and the counts as they
are. -/
theorem HandlesConsistent.frame (h : HandlesConsistent ⟨g, pre ++ o :: post, tr⟩)
    (hq : g'.queue = g.queue) (hl : ∀ r, (g'.handles r).locked = (g.handles r).locked)
    (hn : g'.nextHandle = g.nextHandle)
    (hw : ∀ r, total (Op.worksOn r) next.toList ≤ o.worksOn r)
    (ht : ∀ r, Op.handleTake r ∉ next.toList)
    (hx : total Op.holdsMutex next.toList - (if g'.mutex then 1 else 0) =
      o.holdsMutex - if g.mutex then 1 else 0)
    (hc : total Op.countsSlow next.toList - g'.slowPending = o.countsSlow - g.slowPending) :
    HandlesConsistent ⟨g', pre ++ (next.toList ++ post), tr'⟩ := by
  obtain ⟨h₁, h₂, h₃, h₄, h₅, h₆, h₇⟩ := h
  simp only [total_append, total_cons] at h₃ h₄ h₆ h₇
  constructor
  · exact hq ▸ h₁
  · simpa only [hq, hn] using h₂
  · intro r
    have := h₃ r
    have := hw r
    simp only [total_append]
    omega
  · intro r hr
    have := hw r
    simp only [total_append] at hr
    exact hq ▸ h₄ r (by omega)
  · intro r hr
    simp only [List.mem_append] at hr
    rw [hl]
    refine h₅ r ?_
    simp only [List.mem_append, List.mem_cons]
    rcases hr with hr | hr | hr
    · exact Or.inl hr
    · exact absurd hr (ht r)
    · exact Or.inr (Or.inr hr)
  · simp only [total_append]
    omega
  · simp only [total_append, hq]
    omega

theorem unlockSection_handles_of_ne {r r' : ℕ} (hr : r' ≠ r) :
    (g.unlockSection r).handles r' = g.handles r' := by
  unfold unlockSection
  split_ifs
  · exact Function.update_of_ne hr _ _
  · rfl

@[simp] theorem unlockSection_handles_locked (r : ℕ) :
    ((g.unlockSection r).handles r).locked = false := by
  unfold unlockSection
  split_ifs with h
  · simp [setHandle]
  · simpa using h

@[simp] theorem resume_ne_handleTake (r : ℕ) (k : Cont) :
    ¬ k.resume = some (Op.handleTake r) := by
  cases k <;> simp [Cont.resume]

@[simp] theorem giveUp_ne_handleTake (r : ℕ) (w : Option Waiter) :
    ¬ giveUp w = some (Op.handleTake r) := by
  cases w <;> simp [giveUp]

theorem insertSection_locked (a : LockArgs) {r : ℕ} (hr : r ≠ g.nextHandle) :
    ((g.insertSection a).handles r).locked = (g.handles r).locked := by
  rw [insertSection, setNotified_locked]
  simp only [Function.update_of_ne hr]

theorem mem_insertSection_queue {a : LockArgs} {r : ℕ} :
    r ∈ (g.insertSection a).queue ↔ r = g.nextHandle ∨ r ∈ g.queue := by
  rw [insertSection]
  exact mem_insertHandle

theorem insertSection_queue_perm (a : LockArgs) :
    (g.insertSection a).queue.Perm (g.nextHandle :: g.queue) :=
  insertHandle_perm _ _

/-- `Group::lock` puts a new handle into the queue. -/
theorem handlesConsistent_lockInsert {a : LockArgs}
    (h : HandlesConsistent ⟨g, pre ++ .lockInsert a :: post, tr⟩) :
    HandlesConsistent ⟨g.insertSection a, pre ++ post, tr'⟩ := by
  obtain ⟨h₁, h₂, h₃, h₄, h₅, h₆, h₇⟩ := h
  simp only [total_append, total_cons, Op.worksOn, zero_add,
    Op.holdsMutex, Op.countsSlow] at h₃ h₄ h₆ h₇
  have hnew : g.nextHandle ∉ g.queue := fun hm => absurd (h₂ _ hm) (lt_irrefl _)
  constructor
  · exact (insertSection_queue_perm a).nodup_iff.mpr (List.nodup_cons.mpr ⟨hnew, h₁⟩)
  · intro r hr
    have hn : (g.insertSection a).nextHandle = g.nextHandle + 1 := rfl
    have h₂ : ∀ x ∈ g.queue, x < g.nextHandle := h₂
    rcases mem_insertSection_queue.mp hr with rfl | hr
    · rw [hn]
      omega
    · have := h₂ r hr
      rw [hn]
      omega
  · intro r
    simpa only [total_append] using h₃ r
  · intro r hr
    simp only [total_append] at hr
    exact mem_insertSection_queue.mpr (Or.inr (h₄ r hr))
  · intro r hr
    have hmem : Op.handleTake r ∈ pre ++ Op.lockInsert a :: post := by
      simp only [List.mem_append, List.mem_cons] at hr ⊢
      exact hr.imp_right Or.inr
    have hpos := worksOn_pos_of_mem hmem rfl
    simp only [total_append, total_cons, Op.worksOn, zero_add] at hpos
    have hne : r ≠ g.nextHandle := by
      rintro rfl
      exact hnew (h₄ _ hpos)
    rw [insertSection_locked a hne]
    exact h₅ r hmem
  · rw [total_append]
    exact h₆
  · have hl : (g.insertSection a).queue.length = g.queue.length + 1 := by
      rw [(insertSection_queue_perm a).length_eq, List.length_cons]
    have hp : (g.insertSection a).slowPending = g.slowPending := rfl
    simp only [total_append, hl, hp]
    push_cast
    omega

/-- `~GroupLock` takes its handle out of the queue. -/
theorem handlesConsistent_handleUnlock {r : ℕ} {was : Option ℤ} (hm : g.mutex = false)
    (h : HandlesConsistent ⟨g, pre ++ .handleUnlock r :: post, tr⟩) :
    HandlesConsistent ⟨g.unlockSection r, pre ++ .handleWalk was :: post, tr'⟩ := by
  obtain ⟨h₁, h₂, h₃, h₄, h₅, h₆, h₇⟩ := h
  have hr : r ∈ g.queue := by
    refine h₄ r ?_
    have := worksOn_nonneg r pre
    have := worksOn_nonneg r post
    simp only [total_append, total_cons, Op.worksOn, if_true]
    omega
  have hothers : total (Op.worksOn r) pre = 0 ∧ total (Op.worksOn r) post = 0 := by
    have := worksOn_nonneg r pre
    have := worksOn_nonneg r post
    have := h₃ r
    simp only [total_append, total_cons, Op.worksOn, if_true] at this
    omega
  simp only [total_append, total_cons, Op.holdsMutex, Op.countsSlow, hm] at h₃ h₄ h₆ h₇
  constructor
  · rw [unlockSection_queue]
    exact h₁.erase r
  · intro x hx
    rw [unlockSection_queue] at hx
    rw [unlockSection_nextHandle]
    exact h₂ x (List.mem_of_mem_erase hx)
  · intro x
    have := h₃ x
    have := (Op.handleUnlock r).worksOn_nonneg x
    have hwalk : (Op.handleWalk was).worksOn x = 0 := rfl
    rw [total_append, total_cons, hwalk]
    omega
  · intro x hx
    have hwalk : (Op.handleWalk was).worksOn x = 0 := rfl
    rw [total_append, total_cons, hwalk] at hx
    have hxr : x ≠ r := by
      rintro rfl
      omega
    have := (Op.handleUnlock r).worksOn_nonneg x
    rw [unlockSection_queue]
    exact (List.mem_erase_of_ne hxr).mpr (h₄ x (by omega))
  · intro x hx
    have hmem : Op.handleTake x ∈ pre ++ post := by
      simpa only [List.mem_append, List.mem_cons, reduceCtorEq, false_or] using hx
    have hxr : x ≠ r := by
      rintro rfl
      have hpos := worksOn_pos_of_mem hmem rfl
      rw [total_append] at hpos
      omega
    rw [unlockSection_handles_of_ne hxr]
    refine h₅ x ?_
    simp only [List.mem_append, List.mem_cons] at hmem ⊢
    exact hmem.imp_right Or.inr
  · simp only [total_append, total_cons, Op.holdsMutex, unlockSection_mutex, if_true]
    simp only [if_false, Bool.false_eq_true] at h₆
    omega
  · have hlen : (g.queue.erase r).length + 1 = g.queue.length := by
      rw [List.length_erase_of_mem hr]
      have := List.length_pos_of_mem hr
      omega
    simp only [total_append, total_cons, Op.countsSlow, unlockSection_queue,
      unlockSection_slowPending]
    omega

theorem handlesConsistent_access {ev : List Event}
    (h : HandlesConsistent ⟨g, pre ++ o :: post, tr⟩) (ha : Access g o g' next ev) :
    HandlesConsistent ⟨g', pre ++ (next.toList ++ post), tr'⟩ := by
  cases ha
  case lockInsert a hm => exact handlesConsistent_lockInsert h
  case handleUnlockHeld r hm hl | handleUnlockIdle r hm hl =>
    exact handlesConsistent_handleUnlock hm h
  case handleLockTake r hl hm hw =>
    obtain ⟨h₁, h₂, h₃, h₄, h₅, h₆, h₇⟩ := h
    simp only [total_append, total_cons, Op.holdsMutex, Op.countsSlow, Op.worksOn,
      hm] at h₃ h₄ h₆ h₇
    constructor
    · exact h₁
    · exact h₂
    · intro x
      simpa only [Option.toList_some, List.singleton_append, total_append, total_cons,
        Op.worksOn] using h₃ x
    · intro x hx
      simp only [Option.toList_some, List.singleton_append, total_append, total_cons,
        Op.worksOn] at hx
      exact h₄ x hx
    · intro x hx
      simp only [setHandle]
      by_cases hxr : x = r
      · rw [hxr, Function.update_self]
      · rw [Function.update_of_ne hxr]
        refine h₅ x ?_
        simpa [hxr] using hx
    · simp only [Option.toList_some, List.singleton_append, total_append, total_cons,
        Op.holdsMutex, if_true]
      simp only [if_false, Bool.false_eq_true] at h₆
      omega
    · simpa only [Option.toList_some, List.singleton_append, total_append, total_cons,
        Op.countsSlow, setHandle] using h₇
  case notifySection k hm =>
    refine h.frame rfl (fun r => ?_) rfl (fun r => ?_) (fun r => ?_) ?_ ?_ <;>
      simp [notifyLoop, setNotified, Op.worksOn, Op.holdsMutex, Op.countsSlow]
    split_ifs <;> rfl
  case handleTake r =>
    have hm := h.mutex
    have := holdsMutex_nonneg pre
    have := holdsMutex_nonneg post
    simp only [total_append, total_cons, Op.holdsMutex] at hm
    refine h.frame rfl (fun r => rfl) rfl (fun r' => ?_) (fun r => ?_) ?_ ?_ <;>
      simp [Op.worksOn, Op.holdsMutex, Op.countsSlow]
    · split_ifs <;> omega
    · split_ifs at hm ⊢ <;> omega
  case handleWalk was =>
    have hm := h.mutex
    have := holdsMutex_nonneg pre
    have := holdsMutex_nonneg post
    simp only [total_append, total_cons, Op.holdsMutex] at hm
    refine h.frame rfl (fun r => ?_) rfl (fun r' => ?_) (fun r => ?_) ?_ ?_
    · simp [notifyLoop]
    · simp [Op.worksOn]
    · simp
    · simp [Op.holdsMutex]
      split_ifs at hm ⊢ <;> omega
    · simp [Op.countsSlow, notifyLoop, setNotified]
  case handleLockHeld r hl | handleLockFail r hl hm hw =>
    refine h.frame rfl (fun r => rfl) rfl (fun r' => ?_) (fun r => ?_) ?_ ?_
    · exact Op.worksOn_nonneg r' _
    all_goals simp [Op.holdsMutex, Op.countsSlow]
  all_goals
    refine h.frame rfl (fun r => rfl) rfl (fun r => ?_) (fun r => ?_) ?_ ?_ <;>
      simp [Op.worksOn, Op.holdsMutex, Op.countsSlow]

/-- The operations that a call may start do not hold the mutex and are not counted yet. -/
theorem handlesConsistent_start {ops : List Op} {c : Call} (h : HandlesConsistent ⟨g, ops, tr⟩)
    (hs : Start g ops c g' o) : HandlesConsistent ⟨g', o :: ops, tr'⟩ := by
  obtain ⟨h₁, h₂, h₃, h₄, h₅, h₆, h₇⟩ := h
  have hown : ∀ r ∈ g.queue, r ∉ ops.filterMap Op.handle? → ∀ x,
      (if r = x then 1 else 0) + total (Op.worksOn x) ops ≤ 1 ∧
        (0 < (if r = x then 1 else 0) + total (Op.worksOn x) ops → x ∈ g.queue) := by
    intro r hr hf x
    have hx₃ := h₃ x
    have hx₄ := h₄ x
    simp only at hx₃ hx₄
    by_cases hx : r = x
    · subst hx
      rw [if_pos rfl, worksOn_eq_zero_of_notMem hf]
      exact ⟨by omega, fun _ => hr⟩
    · rw [if_neg hx, zero_add]
      exact ⟨hx₃, hx₄⟩
  cases hs
  case handleLock r hr hf | handleDestroy r hr hf =>
    refine ⟨h₁, h₂, fun x => ?_, fun x hx => ?_, fun x hx => h₅ x (by simpa using hx), ?_, ?_⟩
    · exact (hown r hr hf x).1
    · exact (hown r hr hf x).2 hx
    · simpa [Op.holdsMutex] using h₆
    · simpa [Op.countsSlow] using h₇
  all_goals
    refine ⟨h₁, h₂, fun x => ?_, fun x hx => ?_, fun x hx => h₅ x (by simpa using hx), ?_, ?_⟩
    · simpa [Op.worksOn] using h₃ x
    · exact h₄ x (by simpa [Op.worksOn] using hx)
    · simpa [Op.holdsMutex] using h₆
    · simpa [Op.countsSlow] using h₇

theorem locks_nonneg (ops : List Op) : 0 ≤ total Op.locks ops :=
  total_nonneg fun o _ => by cases o <;> simp [Op.locks]

theorem locks_le_holdsMutex (ops : List Op) : total Op.locks ops ≤ total Op.holdsMutex ops := by
  induction ops with
  | nil => simp
  | cons o ops ih =>
    simp only [total_cons]
    have : o.locks ≤ o.holdsMutex := by cases o <;> simp [Op.locks, Op.holdsMutex]
    omega

/-- The handle of which the token is still to be subtracted is one of the locked ones. -/
theorem locks_le_lockedCount {m : Machine} (h : HandlesConsistent m) :
    total Op.locks m.ops ≤ m.mem.lockedCount := by
  have hone : total Op.locks m.ops ≤ 1 := by
    have h₁ := locks_le_holdsMutex m.ops
    have h₂ := h.mutex
    split_ifs at h₂ <;> omega
  have h₀ := m.mem.lockedCount_nonneg
  by_cases hz : total Op.locks m.ops ≤ 0
  · omega
  · obtain ⟨o, ho, hpos⟩ := exists_pos_of_total_pos (lt_of_not_ge hz)
    cases o <;> simp only [Op.locks, lt_irrefl, zero_lt_one] at hpos
    case handleTake r =>
      have hq : r ∈ m.mem.queue := h.works r (worksOn_pos_of_mem ho rfl)
      have hpos : 0 < m.mem.queue.countP fun r => (m.mem.handles r).locked :=
        List.countP_pos_iff.mpr ⟨r, hq, h.taken r ho⟩
      rw [lockedCount]
      omega

/-- Without pending handles there is no locked one. -/
theorem lockedCount_eq_zero {m : Machine} (h : HandlesConsistent m) (hp : m.mem.slowPending ≤ 0) :
    m.mem.lockedCount = 0 := by
  have hs := h.slow
  have := countsSlow_nonneg m.ops
  have hlen : m.mem.queue.length = 0 := by omega
  rw [lockedCount, List.length_eq_zero_iff.mp hlen]
  rfl

/-! ## The tokens -/

/-- The tokens, and everything that stands for one that has been taken. -/
def balance (m : Machine) : ℤ :=
  m.mem.tokens + m.mem.running + m.mem.lockedCount + m.mem.parkedHeld m.mem.slots +
    total (Op.entryHeld m.mem.slots) m.ops + total Op.debt m.ops

/-- Setting a flag counts the entries that have it. -/
theorem parkedHeld_exchangeSlot (s : ℕ) :
    g.parkedHeld (g.exchangeSlot s).slots =
      g.parkedHeld g.slots + if g.slots s then 0 else g.parkedAt s :=
  countP_update_slot g.slots s g.parked

theorem total_entryHeld_exchangeSlot (s : ℕ) (ops : List Op) :
    total (Op.entryHeld (g.exchangeSlot s).slots) ops =
      total (Op.entryHeld g.slots) ops + if g.slots s then 0 else total (Op.entryAt s) ops :=
  total_entryHeld_update g.slots s ops

/-- An access that touches neither a flag nor a bucket nor `locked`. -/
theorem balance_frame (hp : g'.parked = g.parked) (hs : g'.slots = g.slots)
    (hq : g'.queue = g.queue) (hl : ∀ r, (g'.handles r).locked = (g.handles r).locked)
    (hb : g'.tokens + g'.running + total (Op.entryHeld g.slots) next.toList +
      total Op.debt next.toList = g.tokens + g.running + o.entryHeld g.slots + o.debt) :
    balance ⟨g', pre ++ (next.toList ++ post), tr'⟩ = balance ⟨g, pre ++ o :: post, tr⟩ := by
  have hh : g'.parkedHeld g.slots = g.parkedHeld g.slots := by rw [parkedHeld, parkedHeld, hp]
  simp only [balance, total_append, total_cons, hs, lockedCount_congr hq hl, hh]
  omega

/-- Of the entries with one flag, the operation that has one has the only one. -/
theorem only_entry {e : WaitEntry} {k : Cont}
    (hs : SlotsConsistent ⟨g, pre ++ .drainClaim e k :: post, tr⟩) :
    g.parkedAt e.slot = 0 ∧ total (Op.entryAt e.slot) pre = 0 ∧
      total (Op.entryAt e.slot) post = 0 := by
  have h := hs.entries e.slot
  have := g.parkedAt_nonneg e.slot
  have := entryAt_nonneg e.slot pre
  have := entryAt_nonneg e.slot post
  simp only [total_append, total_cons, Op.entryAt, if_true] at h
  omega

/-- While a parker has not set its flag, its entry is there, once. -/
theorem one_entry {s : ℕ} {free : Bool} (hc : g.slots s = false)
    (hs : SlotsConsistent ⟨g, pre ++ .reconcileClaim s free :: post, tr⟩) :
    g.parkedAt s + total (Op.entryAt s) pre + total (Op.entryAt s) post = 1 := by
  have h₁ := hs.entries s
  have h₂ := hs.waits s hc
  have := reconciles_nonneg s pre
  have := reconciles_nonneg s post
  simp only [total_append, total_cons, Op.entryAt, Op.reconciles, if_true] at h₁ h₂
  omega

theorem lockedCount_insertSection (a : LockArgs) (hnew : g.nextHandle ∉ g.queue) :
    (g.insertSection a).lockedCount = g.lockedCount := by
  have hp := insertSection_queue_perm (g := g) a
  have hnone : ((g.insertSection a).handles g.nextHandle).locked = false := by
    rw [insertSection, setNotified_locked]
    simp
  rw [lockedCount, hp.countP_eq, List.countP_cons, hnone, lockedCount]
  simp only [Bool.false_eq_true, if_false, add_zero, Nat.cast_inj]
  refine List.countP_congr fun r hr => ?_
  have hne : r ≠ g.nextHandle := by
    rintro rfl
    exact hnew hr
  rw [insertSection_locked a hne]

/-- `~GroupLock` gives back the token of a locked handle. -/
theorem tokens_unlockSection {r : ℕ} (hq : g.queue.Nodup) (hr : r ∈ g.queue) :
    (g.unlockSection r).tokens + (g.unlockSection r).lockedCount = g.tokens + g.lockedCount := by
  have herase := (List.perm_cons_erase hr).countP_eq fun x => (g.handles x).locked
  rw [List.countP_cons] at herase
  have hrest : (g.unlockSection r).lockedCount =
      ((g.queue.erase r).countP fun x => (g.handles x).locked : ℕ) := by
    rw [lockedCount, unlockSection_queue, Nat.cast_inj]
    refine List.countP_congr fun x hx => ?_
    have hne : x ≠ r := by
      rintro rfl
      exact (hq.not_mem_erase) hx
    rw [unlockSection_handles_of_ne hne]
  rw [hrest, lockedCount, herase]
  cases hl : (g.handles r).locked
  · simp [unlockSection, hl]
  · simp only [unlockSection, hl, if_true]
    push_cast
    omega

theorem balance_access {ev : List Event} (hs : SlotsConsistent ⟨g, pre ++ o :: post, tr⟩)
    (hh : HandlesConsistent ⟨g, pre ++ o :: post, tr⟩) (ha : Access g o g' next ev) :
    balance ⟨g', pre ++ (next.toList ++ post), tr'⟩ = balance ⟨g, pre ++ o :: post, tr⟩ := by
  cases ha
  case takeCasTake w expected ht =>
    refine balance_frame rfl rfl rfl (fun r => rfl) ?_
    simp only [Option.toList_some, total_cons, total_nil, Op.entryHeld, Op.debt]
    omega
  case notifySection k hm =>
    refine balance_frame rfl rfl rfl (fun r => setNotified_locked _ _ _ _) ?_
    simp [Op.entryHeld, Op.debt]
  case handleWalk was =>
    refine balance_frame rfl rfl rfl (fun r => setNotified_locked _ _ _ _) ?_
    simp [Op.entryHeld, Op.debt]
  case drainScanTake b k hb e l hbk =>
    have hcount : g.parkedHeld g.slots =
        parkedHeld g.slots { g with waitBuckets := g.waitBuckets.setBucket ⟨b, hb⟩ l } +
          if g.slots e.slot then 1 else 0 := by
      rw [parkedHeld, countP_parked_dequeue hbk]
      push_cast
      rfl
    have hl : lockedCount { g with waitBuckets := g.waitBuckets.setBucket ⟨b, hb⟩ l } =
        g.lockedCount := lockedCount_congr rfl fun r => rfl
    simp only [balance, Option.toList_some, List.singleton_append, total_append, total_cons,
      Op.entryHeld, Op.debt, hcount, hl]
    omega
  case drainClaimCounted e k hc =>
    change g.tokens + ((g.running + 1 : ℕ) : ℤ) + g.lockedCount +
      g.parkedHeld (g.exchangeSlot e.slot).slots +
      total (Op.entryHeld (g.exchangeSlot e.slot).slots) (pre ++ (k.resume.toList ++ post)) +
      total Op.debt (pre ++ (k.resume.toList ++ post)) = _
    simp only [balance, total_append, total_cons, total_resume, Op.entryHeld, Op.debt,
      parkedHeld_exchangeSlot, total_entryHeld_exchangeSlot, hc, if_true]
    push_cast
    omega
  case drainClaimUncounted e k hc =>
    obtain ⟨h₁, h₂, h₃⟩ := only_entry hs
    change g.tokens + ((g.running + 1 : ℕ) : ℤ) + g.lockedCount +
      g.parkedHeld (g.exchangeSlot e.slot).slots +
      total (Op.entryHeld (g.exchangeSlot e.slot).slots) (pre ++ (.drainSub k :: post)) +
      total Op.debt (pre ++ (.drainSub k :: post)) = _
    simp only [balance, total_append, total_cons, Op.entryHeld, Op.debt, parkedHeld_exchangeSlot,
      total_entryHeld_exchangeSlot, hc, if_false, Bool.false_eq_true, h₁, h₂, h₃]
    push_cast
    omega
  case parkPublish w =>
    have hf := (hs.fresh g.nextSlot (le_refl _)).1
    have h₀ := g.parkedAt_nonneg g.nextSlot
    have h₁ := entryAt_nonneg g.nextSlot pre
    have h₂ := entryAt_nonneg g.nextSlot post
    simp only [total_append, total_cons, Op.entryAt, zero_add] at hf
    have hp : (g.publish w).parkedHeld (g.publish w).slots = g.parkedHeld g.slots := by
      have hz : g.parked.countP (fun e => e.slot = g.nextSlot) = 0 := by
        have : g.parkedAt g.nextSlot = 0 := by omega
        rw [parkedAt] at this
        exact_mod_cast this
      change (((g.publish w).parked.countP
        fun e => Function.update g.slots g.nextSlot false e.slot : ℕ) : ℤ) = _
      rw [countP_parked_publish, Function.update_self, countP_update_fresh _ _ _ hz]
      simp [parkedHeld]
    change g.tokens + (g.running : ℤ) + g.lockedCount + (g.publish w).parkedHeld
      (g.publish w).slots +
      total (Op.entryHeld (Function.update g.slots g.nextSlot false))
        (pre ++ (.reconcileSub g.nextSlot :: post)) +
      total Op.debt (pre ++ (.reconcileSub g.nextSlot :: post)) = _
    simp only [balance, total_append, total_cons, Op.entryHeld, Op.debt, hp,
      total_entryHeld_update_fresh g.slots g.nextSlot false pre (by omega),
      total_entryHeld_update_fresh g.slots g.nextSlot false post (by omega)]
  case reconcileClaimLost s free hc =>
    change g.tokens + (g.running : ℤ) + g.lockedCount + g.parkedHeld (g.exchangeSlot s).slots +
      total (Op.entryHeld (g.exchangeSlot s).slots) (pre ++ (.releaseAdd .done :: post)) +
      total Op.debt (pre ++ (.releaseAdd .done :: post)) = _
    simp only [balance, total_append, total_cons, Op.entryHeld, Op.debt, parkedHeld_exchangeSlot,
      total_entryHeld_exchangeSlot, hc, if_true]
    omega
  case reconcileClaimDrain s hc =>
    have h₁ := one_entry hc hs
    change g.tokens + (g.running : ℤ) + g.lockedCount + g.parkedHeld (g.exchangeSlot s).slots +
      total (Op.entryHeld (g.exchangeSlot s).slots) (pre ++ (.drainScan 0 .done :: post)) +
      total Op.debt (pre ++ (.drainScan 0 .done :: post)) = _
    simp only [balance, total_append, total_cons, Op.entryHeld, Op.debt, parkedHeld_exchangeSlot,
      total_entryHeld_exchangeSlot, hc, if_false, Bool.false_eq_true]
    omega
  case reconcileClaimWait s hc =>
    have h₁ := one_entry hc hs
    change g.tokens + (g.running : ℤ) + g.lockedCount + g.parkedHeld (g.exchangeSlot s).slots +
      total (Op.entryHeld (g.exchangeSlot s).slots) (pre ++ post) +
      total Op.debt (pre ++ post) = _
    simp only [balance, total_append, total_cons, Op.entryHeld, Op.debt, parkedHeld_exchangeSlot,
      total_entryHeld_exchangeSlot, hc, if_false, Bool.false_eq_true]
    omega
  case lockInsert a hm =>
    have hnew : g.nextHandle ∉ g.queue := fun hq => absurd (hh.fresh _ hq) (lt_irrefl _)
    change g.tokens + (g.running : ℤ) + (g.insertSection a).lockedCount + g.parkedHeld g.slots +
      total (Op.entryHeld g.slots) (pre ++ post) + total Op.debt (pre ++ post) = _
    simp only [balance, total_append, total_cons, Op.entryHeld, Op.debt,
      lockedCount_insertSection a hnew]
    omega
  case handleLockTake r hl hm hw =>
    have hr : r ∈ g.queue := (lockWalk_eq_true_iff.mp hw).1
    have hcount := countP_update_handle g.handles { g.handles r with locked := true } hh.nodup hr
    simp only [hl, if_true, if_false, Bool.false_eq_true, sub_zero] at hcount
    change g.tokens + (g.running : ℤ) + ((g.queue.countP fun x => (Function.update g.handles r
        { g.handles r with locked := true } x).locked : ℕ) : ℤ) + g.parkedHeld g.slots +
      total (Op.entryHeld g.slots) (pre ++ (.handleTake r :: post)) +
      total Op.debt (pre ++ (.handleTake r :: post)) = _
    simp only [balance, total_append, total_cons, Op.entryHeld, Op.debt, hcount, lockedCount]
    omega
  case handleUnlockHeld r hm hl | handleUnlockIdle r hm hl =>
    have hr : r ∈ g.queue := hh.works r (worksOn_pos_of_mem (o := .handleUnlock r) (by simp) rfl)
    have ht := tokens_unlockSection (g := g) hh.nodup hr
    have hp : (g.unlockSection r).parkedHeld g.slots = g.parkedHeld g.slots := by
      rw [parkedHeld, parkedHeld, parked_unlockSection]
    simp only [balance, Option.toList_some, List.singleton_append, total_append, total_cons,
      Op.entryHeld, Op.debt, unlockSection_slots, unlockSection_running, hp]
    omega
  all_goals
    refine balance_frame rfl rfl rfl (fun r => rfl) ?_
    simp [Op.entryHeld, Op.debt] <;> omega

/-- A call does nothing to the balance: `~RunningLock` turns its object back into a token. -/
theorem balance_start {ops : List Op} {c : Call} (h : Start g ops c g' o) :
    balance ⟨g', o :: ops, tr'⟩ = balance ⟨g, ops, tr⟩ := by
  cases h
  case runningDestroyOwed hr ht =>
    change g.tokens + 1 + ((g.running - 1 : ℕ) : ℤ) + g.lockedCount + g.parkedHeld g.slots +
      total (Op.entryHeld g.slots) (.drainScan 0 .done :: ops) +
      total Op.debt (.drainScan 0 .done :: ops) = _
    simp only [balance, total_cons, Op.entryHeld, Op.debt]
    omega
  case runningDestroyFree hr ht =>
    change g.tokens + 1 + ((g.running - 1 : ℕ) : ℤ) + g.lockedCount + g.parkedHeld g.slots +
      total (Op.entryHeld g.slots) (.releaseCheck .done :: ops) +
      total Op.debt (.releaseCheck .done :: ops) = _
    simp only [balance, total_cons, Op.entryHeld, Op.debt]
    omega
  all_goals
    simp only [balance, total_cons, Op.entryHeld, Op.debt]
    omega

/-! ## Every reachable state -/

theorem access_concurrency {ev : List Event} (ha : Access g o g' next ev) :
    g'.concurrency = g.concurrency := by
  cases ha <;> first | rfl | exact unlockSection_concurrency _ _

theorem start_concurrency {ops : List Op} {c : Call} (h : Start g ops c g' o) :
    g'.concurrency = g.concurrency := by
  cases h <;> rfl

/-- What holds in every reachable state of a group of the given concurrency. -/
structure Consistent (concurrency : ℕ) (m : Machine) : Prop where
  concurrency_eq : m.mem.concurrency = concurrency
  slots : SlotsConsistent m
  handles : HandlesConsistent m
  tokens : balance m = concurrency

theorem consistent_start (c : ℕ) : Consistent c (start c) := by
  have hpark : (make c).parked = [] := Buckets.contents_empty
  refine ⟨rfl, ?_, ?_, ?_⟩
  · constructor <;> intro s <;> simp [start, parkedAt, hpark]
  · constructor <;> simp [start, make]
  · simp [balance, start, lockedCount, parkedHeld, hpark]
    simp [make]

theorem consistent_call {c : ℕ} {ops : List Op} {call : Call} (h : Consistent c ⟨g, ops, tr⟩)
    (hs : Start g ops call g' o) : Consistent c ⟨g', o :: ops, tr'⟩ :=
  ⟨(start_concurrency hs).trans h.concurrency_eq, slotsConsistent_start h.slots hs,
    handlesConsistent_start h.handles hs, (balance_start hs).trans h.tokens⟩

theorem consistent_access {c : ℕ} {ev : List Event} (h : Consistent c ⟨g, pre ++ o :: post, tr⟩)
    (ha : Access g o g' next ev) : Consistent c ⟨g', pre ++ (next.toList ++ post), tr'⟩ :=
  ⟨(access_concurrency ha).trans h.concurrency_eq, slotsConsistent_access h.slots ha,
    handlesConsistent_access h.handles ha, (balance_access h.slots h.handles ha).trans h.tokens⟩

/-- **Every reachable state is consistent.** -/
theorem consistent_of_reaches {c : ℕ} {ok : Machine → Action Call Bool → Prop} {m : Machine}
    (h : Reaches step ok (start c) m) : Consistent c m :=
  invariant_of_access h (consistent_start c) (fun _ _ _ _ _ _ hI _ hs => consistent_call hI hs)
    fun _ _ _ _ _ _ _ _ _ hI _ _ ha => consistent_access hI ha

/-- The parked tasks that reserve a token: their arbiter flag is set. -/
def claimedParked (g : Group) : List WaitEntry := g.parked.filter fun e => g.slots e.slot

theorem parkedHeld_eq_length (g : Group) : g.parkedHeld g.slots = g.claimedParked.length := by
  rw [parkedHeld, claimedParked, List.countP_eq_length_filter]

/-- **Exact token accounting.**  Whatever the interleaving was, when no operation is in progress the
tokens are what the `RunningLock`s, the locked handles and the claimed waiters leave over. -/
theorem tokens_eq_of_quiescent {c : ℕ} {m : Machine} (h : Reaches step Always (start c) m)
    (hq : m.ops = []) :
    m.mem.tokens =
      c - m.mem.running - m.mem.lockedHandles.length - m.mem.claimedParked.length := by
  have hb := (consistent_of_reaches h).tokens
  rw [balance, hq, total_nil, total_nil, lockedCount_eq_length, parkedHeld_eq_length] at hb
  omega

/-- One task runs and a second one is parked with a reservation. -/
def oneParked : List (Action Call Bool) :=
  [.call (.trySubmit ⟨⟨1, 500⟩, 0, true⟩)] ++ accesses 4 ++
    [.call (.trySubmit ⟨⟨2, 500⟩, 0, true⟩)] ++ accesses 5

theorem tokens_eq_of_quiescent_oneParked :
    ∃ m, exec step (start 1) oneParked = some m ∧ m.mem.tokens = -1 ∧ m.mem.tokens =
      1 - m.mem.running - m.mem.lockedHandles.length - m.mem.claimedParked.length := by
  obtain ⟨m, hm⟩ := Option.isSome_iff_exists.mp
    (by decide : (exec step (start 1) oneParked).isSome = true)
  have ht : (exec step (start 1) oneParked).map (fun m => (m.mem.tokens, m.ops)) =
      some (-1, []) := by decide
  rw [hm] at ht
  simp only [Option.map_some, Option.some.injEq, Prod.mk.injEq] at ht
  exact ⟨m, hm, ht.1, tokens_eq_of_quiescent (reaches_always_of_exec hm) ht.2⟩

end Group

end Scheduler
end NUClear
