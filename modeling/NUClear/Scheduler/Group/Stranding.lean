import NUClear.Scheduler.Group.Accounting

/-!
# Who will drain a parked task

A parked task is started by somebody else, so while one is parked somebody has to owe a drain: a
`RunningLock`, a pending handle, or an operation in progress that will look at the buckets
(`Op.owesDrain`).  `Covered` says that one of them exists.

A task whose parker has not reserved its token yet (it is before `reconcileSub`) needs nobody: the
parker finds a free token and drains, or finds none, and then somebody holds one
(`covered_of_no_token`, from the balance).  So the invariant is that every other parked task is
covered.

## Who gives the cover up

One branch of the code does.  A pending handle keeps newcomers parked, and when it is destroyed
without ever having locked, `~GroupLock` drains nobody.  `KeepsCover` is the condition that this
decrement of `slow_pending` leaves nobody behind: it is asked of this access alone, in the state
before it.

## The proof

* `owesDrain_mono`: with the buckets as they were and no flag cleared, every duty of the others
  remains.
* `Covered.access`: an access hands its own duty on, to its next point or to a `RunningLock`, or has
  fulfilled it.
* `covered_access`, `covered_call`: one case for each branch that gives a duty up or makes a task
  wait.
* `exists_holder_of_parked`: when no operation is in progress and a task is parked, a `RunningLock`
  or a handle exists.
-/

namespace NUClear
namespace Scheduler

open Foundation

namespace Group

/-- The operation will try to drain a parked task, or hand its duty on to a `RunningLock` or to a
pending handle. -/
def Op.owesDrain (g : Group) : Op → Bool
  | .takeRecheck _ => true
  | .releaseAdd _ => true
  | .releaseCheck _ => true
  | .drainScan b _ => ∃ b' : Fin priorityBuckets, b ≤ b' ∧ g.waitBuckets b' ≠ []
  | .drainClaim _ _ => true
  | .reconcileCheck _ => true
  | .reconcileClaim s free => free || g.slots s
  | .handleCalls was _ => was.isSome
  | .handleCheck => true
  | _ => false

/-- The operation gives up the place of a handle that never locked. -/
def Op.dropsUnlocked : Op → Bool
  | .handlePending none _ => true
  | _ => false

/-- Somebody will drain: now, or when it releases. -/
def Covered (m : Machine) : Prop :=
  0 < m.mem.running ∨ 0 < m.mem.slowPending ∨ ∃ o ∈ m.ops, o.owesDrain m.mem = true

/-- A task is parked and its parker has reserved the token. -/
def Waiting (m : Machine) : Prop := ∃ e ∈ m.mem.parked, Op.reconcileSub e.slot ∉ m.ops

instance (m : Machine) : Decidable (Covered m) := inferInstanceAs (Decidable (_ ∨ _ ∨ _))

instance (m : Machine) : Decidable (Waiting m) :=
  inferInstanceAs (Decidable (∃ e ∈ m.mem.parked, _))

/-- When the last pending handle goes and never locked, somebody else covers who is waiting. -/
def KeepsCover (m : Machine) (o : Op) (_ : Bool) : Prop :=
  o.dropsUnlocked = true → m.mem.slowPending = 1 → Waiting m →
    0 < m.mem.running ∨ ∃ o' ∈ m.ops, o'.owesDrain m.mem = true

instance (m : Machine) (o : Op) (z : Bool) : Decidable (KeepsCover m o z) :=
  inferInstanceAs (Decidable (_ → _ → _ → _))

variable {g g' : Group} {pre post ops : List Op} {o : Op} {next : Option Op} {tr tr' : List Event}
variable {c : ℕ}

/-! ## Duties under one access -/

/-- With the buckets as they were and no flag cleared, every duty remains. -/
theorem owesDrain_mono (hb : g'.waitBuckets = g.waitBuckets)
    (hs : ∀ s, g.slots s = true → g'.slots s = true) (h : o.owesDrain g = true) :
    o.owesDrain g' = true := by
  cases o
  case drainScan b k => simpa only [Op.owesDrain, hb] using h
  case reconcileClaim s free =>
    simp only [Op.owesDrain, Bool.or_eq_true] at h ⊢
    exact h.imp_right (hs s)
  all_goals exact h

/-- A drain that starts while a task is parked finds one. -/
theorem owesDrain_drainScan (h : g.parked ≠ []) (k : Cont) :
    (Op.drainScan 0 k).owesDrain g = true := by
  have hne : ∃ b, g.waitBuckets b ≠ [] := by
    by_contra hc
    push Not at hc
    exact h (Buckets.contents_eq_nil_iff.mpr hc)
  obtain ⟨b, hb⟩ := hne
  simp only [Op.owesDrain, decide_eq_true_eq]
  exact ⟨b, Nat.zero_le _, hb⟩

/-- The cover of the others remains when the access keeps their duties, and its own duty is either
handed on or fulfilled. -/
theorem Covered.access (h : Covered ⟨g, pre ++ o :: post, tr⟩)
    (hd : ∀ o' ∈ pre ++ post, o'.owesDrain g = true → o'.owesDrain g' = true)
    (hr : 0 < g.running → Covered ⟨g', pre ++ (next.toList ++ post), tr'⟩)
    (hp : 0 < g.slowPending → Covered ⟨g', pre ++ (next.toList ++ post), tr'⟩)
    (ho : o.owesDrain g = true → Covered ⟨g', pre ++ (next.toList ++ post), tr'⟩) :
    Covered ⟨g', pre ++ (next.toList ++ post), tr'⟩ := by
  rcases h with h | h | ⟨o', ho', hd'⟩
  · exact hr h
  · exact hp h
  · simp only [List.mem_append, List.mem_cons] at ho'
    rcases ho' with ho' | rfl | ho'
    · exact Or.inr (Or.inr ⟨o', by simp [ho'], hd o' (by simp [ho']) hd'⟩)
    · exact ho hd'
    · exact Or.inr (Or.inr ⟨o', by simp [ho'], hd o' (by simp [ho']) hd'⟩)

theorem covered_of_next {n : Op} (h : n.owesDrain g = true) :
    Covered ⟨g, pre ++ ((some n).toList ++ post), tr⟩ :=
  Or.inr (Or.inr ⟨n, by simp, h⟩)

/-- Who waits after an access waited before it, unless the access was the parker's reservation. -/
theorem Waiting.of_access (h : Waiting ⟨g', pre ++ (next.toList ++ post), tr'⟩)
    (hp : ∀ e ∈ g'.parked, e ∈ g.parked) (ho : ∀ s, o ≠ .reconcileSub s) :
    Waiting ⟨g, pre ++ o :: post, tr⟩ := by
  obtain ⟨e, he, hn⟩ := h
  refine ⟨e, hp e he, fun hm => hn ?_⟩
  simp only [List.mem_append, List.mem_cons] at hm ⊢
  rcases hm with hm | hm | hm
  · exact Or.inl hm
  · exact absurd hm.symm (ho _)
  · exact Or.inr (Or.inr hm)

theorem Waiting.parked_ne_nil {m : Machine} (h : Waiting m) : m.mem.parked ≠ [] := by
  obtain ⟨e, he, -⟩ := h
  exact List.ne_nil_of_mem he

/-! ## Without a free token somebody holds one -/

/-- A parker that has reserved its token is not before its reservation. -/
theorem reconcileSub_notMem {m : Machine} (h : SlotsConsistent m) {s : ℕ} {free : Bool}
    (ho : Op.reconcileClaim s free ∈ m.ops) : Op.reconcileSub s ∉ m.ops := by
  intro hm
  have hone := h.reconcilers s
  obtain ⟨pre, post, hops⟩ := List.append_of_mem ho
  rw [hops] at hm hone
  simp only [List.mem_append, List.mem_cons, reduceCtorEq, false_or] at hm
  have hmem : Op.reconcileSub s ∈ pre ++ post := List.mem_append.mpr hm
  obtain ⟨p, q, hpq⟩ := List.append_of_mem hmem
  have htot : total (Op.reconciles s) (pre ++ post) =
      total (Op.reconciles s) p + (1 + total (Op.reconciles s) q) := by
    rw [hpq, total_append, total_cons, Op.reconciles, if_pos rfl]
  have := reconciles_nonneg s p
  have := reconciles_nonneg s q
  simp only [total_append, total_cons, Op.reconciles, if_true] at hone htot
  omega

/-- **Without a free token there is a cover**: the balance says that somebody holds a token, and
nobody who waits holds one without a cover. -/
theorem covered_of_no_token {m : Machine} (hc : Consistent c m) (hpos : 1 ≤ c)
    (hw : Waiting m → Covered m) (ht : m.mem.tokens ≤ 0) : Covered m := by
  by_contra hn
  have hnw : ¬ Waiting m := fun h => hn (hw h)
  have hrun : m.mem.running = 0 := by
    by_contra h
    exact hn (Or.inl (Nat.pos_of_ne_zero h))
  have hslow : m.mem.slowPending ≤ 0 := not_lt.mp fun h => hn (Or.inr (Or.inl h))
  have hduty : ∀ o ∈ m.ops, ¬ o.owesDrain m.mem = true :=
    fun o ho h => hn (Or.inr (Or.inr ⟨o, ho, h⟩))
  have hlocked := lockedCount_eq_zero hc.handles hslow
  have hparked : m.mem.parkedHeld m.mem.slots = 0 := by
    rw [parkedHeld, Nat.cast_eq_zero, List.countP_eq_zero]
    intro e he hs
    refine hnw ⟨e, he, fun hm => ?_⟩
    have hzero := hc.slots.settled e.slot hs (parkedAt_pos_iff.mpr ⟨e, he, rfl⟩)
    obtain ⟨p, q, hpq⟩ := List.append_of_mem hm
    have := reconciles_nonneg e.slot p
    have := reconciles_nonneg e.slot q
    rw [hpq, total_append, total_cons, Op.reconciles, if_pos rfl] at hzero
    omega
  have hentry : total (Op.entryHeld m.mem.slots) m.ops ≤ 0 := by
    by_contra h
    obtain ⟨o, ho, hpos⟩ := exists_pos_of_total_pos (not_le.mp h)
    refine hduty o ho ?_
    cases o <;> first | rfl | exact absurd hpos (lt_irrefl _)
  have hdebt : total Op.debt m.ops ≤ 0 := by
    by_contra h
    obtain ⟨o, ho, hpos⟩ := exists_pos_of_total_pos (not_le.mp h)
    have hno := hduty o ho
    cases o <;> simp only [Op.debt, lt_irrefl, zero_lt_one] at hpos
    case takeRecheck w | releaseAdd k => exact hno rfl
    case drainSub k => omega
    case reconcileCheck s => exact hno rfl
    case handleTake r => omega
    case reconcileClaim s free =>
      -- the flag is not set, so the entry is still somewhere
      simp only [Op.owesDrain, Bool.or_eq_true, not_or, Bool.not_eq_true] at hno
      have hwaits := hc.slots.waits s hno.2
      obtain ⟨p, q, hpq⟩ := List.append_of_mem ho
      have := reconciles_nonneg s p
      have := reconciles_nonneg s q
      have hone : 1 ≤ total (Op.reconciles s) m.ops := by
        rw [hpq, total_append, total_cons, Op.reconciles, if_pos rfl]
        omega
      by_cases hat : 0 < m.mem.parkedAt s
      · obtain ⟨e, he, hs⟩ := parkedAt_pos_iff.mp hat
        exact hnw ⟨e, he, hs ▸ reconcileSub_notMem hc.slots ho⟩
      · obtain ⟨o', ho', hpos'⟩ := exists_pos_of_total_pos
          (show 0 < total (Op.entryAt s) m.ops by omega)
        refine hduty o' ho' ?_
        cases o' <;> first | rfl | exact absurd hpos' (lt_irrefl _)
  have hb := hc.tokens
  rw [balance] at hb
  omega

/-! ## The invariant -/

theorem covered_access {ev : List Event} {z : Bool} (hpos : 1 ≤ c)
    (hc : Consistent c ⟨g, pre ++ o :: post, tr⟩)
    (hok : KeepsCover ⟨g, pre ++ o :: post, tr⟩ o z)
    (hI : Waiting ⟨g, pre ++ o :: post, tr⟩ → Covered ⟨g, pre ++ o :: post, tr⟩)
    (ha : Access g o g' next ev) (hw : Waiting ⟨g', pre ++ (next.toList ++ post), tr'⟩) :
    Covered ⟨g', pre ++ (next.toList ++ post), tr'⟩ := by
  have hne := hw.parked_ne_nil
  -- an access that leaves everything but `tokens` and the handles alone
  have key : g'.waitBuckets = g.waitBuckets → g'.running = g.running →
      g'.slowPending = g.slowPending → (∀ s, g.slots s = true → g'.slots s = true) →
      (∀ s, o ≠ .reconcileSub s) →
      (o.owesDrain g = true → Covered ⟨g', pre ++ (next.toList ++ post), tr'⟩) →
      Covered ⟨g', pre ++ (next.toList ++ post), tr'⟩ := by
    intro hb hr hp hs hsub ho
    have hpk : g'.parked = g.parked := by rw [parked, parked, hb]
    refine (hI (hw.of_access (fun e he => hpk ▸ he) hsub)).access
      (fun o' _ h => owesDrain_mono hb hs h) (fun h => ?_) (fun h => ?_) ho
    · exact Or.inl (hr ▸ h)
    · exact Or.inr (Or.inl (hp ▸ h))
  cases ha
  case takeRecheckBack w h => exact Or.inr (Or.inl h)
  case takeRecheckStart w h => exact Or.inl (Nat.succ_pos _)
  case releaseAddOwed k h => exact covered_of_next (owesDrain_drainScan hne k)
  case releaseAddFree k h => exact covered_of_next rfl
  case releaseCheckSlow k h => exact Or.inr (Or.inl h)
  case releaseCheckDrain k h => exact covered_of_next (owesDrain_drainScan hne k)
  case drainScanEmpty b k hb h =>
    refine key rfl rfl rfl (fun s hs => hs) (fun s => by simp) fun ho => covered_of_next ?_
    simp only [Op.owesDrain, decide_eq_true_eq] at ho ⊢
    obtain ⟨b', hle, hb'⟩ := ho
    refine ⟨b', ?_, hb'⟩
    have hbb : b ≠ b' := by
      rintro rfl
      exact hb' h
    omega
  case drainScanTake b k hb e l h => exact covered_of_next rfl
  case drainScanEnd b k hb =>
    refine key rfl rfl rfl (fun s hs => hs) (fun s => by simp) fun ho => ?_
    simp only [Op.owesDrain, decide_eq_true_eq] at ho
    obtain ⟨b', hle, -⟩ := ho
    have := b'.isLt
    omega
  case drainClaimCounted e k h | drainClaimUncounted e k h => exact Or.inl (Nat.succ_pos _)
  case parkPublish w =>
    -- the new entry is not waiting yet, and the others were waiting before
    have hpk : (g.publish w).parked.Perm (⟨w, g.nextSlot⟩ :: g.parked) :=
      Buckets.contents_enqueue_perm g.waitBuckets w.bucket (⟨w, g.nextSlot⟩ : WaitEntry)
    have hbefore : Waiting ⟨g, pre ++ .parkPublish w :: post, tr⟩ := by
      obtain ⟨e, he, hn⟩ := hw
      rcases List.mem_cons.mp (hpk.mem_iff.mp he) with rfl | he
      · exact absurd (by simp) hn
      · refine ⟨e, he, fun hm => hn ?_⟩
        simp only [List.mem_append, List.mem_cons, reduceCtorEq, false_or] at hm
        simp only [List.mem_append]
        exact hm.imp_right Or.inr
    have hfresh := (hc.slots.fresh g.nextSlot (le_refl _)).2
    refine (hI hbefore).access (fun o' ho' h => ?_) Or.inl (fun h => Or.inr (Or.inl h))
      fun h => by simp [Op.owesDrain] at h
    cases o'
    case drainScan b k =>
      simp only [Op.owesDrain, decide_eq_true_eq] at h ⊢
      obtain ⟨b', hle, hb'⟩ := h
      refine ⟨b', hle, ?_⟩
      by_cases hbb : b' = w.bucket
      · subst hbb
        simp
      · rwa [publish_waitBuckets, Buckets.enqueue_of_ne _ _ hbb]
    case reconcileClaim s free =>
      have hs : s ≠ g.nextSlot := by
        rintro rfl
        have hm : Op.reconcileClaim g.nextSlot free ∈ pre ++ Op.parkPublish w :: post := by
          simp only [List.mem_append, List.mem_cons] at ho' ⊢
          exact ho'.imp_right Or.inr
        obtain ⟨p, q, hpq⟩ := List.append_of_mem hm
        have := reconciles_nonneg g.nextSlot p
        have := reconciles_nonneg g.nextSlot q
        simp only [hpq, total_append, total_cons, Op.reconciles, if_true] at hfresh
        omega
      simpa only [Op.owesDrain, publish_slots, Function.update_of_ne hs] using h
    all_goals exact h
  case reconcileSubFree s h => exact covered_of_next rfl
  case reconcileSubFull s h =>
    refine (covered_of_no_token hc hpos hI h).access (fun o' _ h => ?_) Or.inl
      (fun h => Or.inr (Or.inl h)) fun h => by simp [Op.owesDrain] at h
    exact owesDrain_mono rfl (fun s hs => hs) h
  case reconcileCheckSlow s h => exact Or.inr (Or.inl h)
  case reconcileCheckClaim s h | reconcileClaimLost s free h => exact covered_of_next rfl
  case reconcileClaimDrain s h => exact covered_of_next (owesDrain_drainScan hne _)
  case reconcileClaimWait s h =>
    refine key rfl rfl rfl (fun s' hs' => ?_) (fun s => by simp) fun ho => ?_
    · change Function.update g.slots s true s' = true
      by_cases hs : s' = s
      · rw [hs, Function.update_self]
      · rwa [Function.update_of_ne hs]
    · simp [Op.owesDrain, h] at ho
  case lockAdd a =>
    refine (hI (hw.of_access (fun e he => he) fun s => by simp)).access
      (fun o' _ h => owesDrain_mono rfl (fun s hs => hs) h) Or.inl
      (fun h => Or.inr (Or.inl (show 0 < g.slowPending + 1 by omega))) fun h => by
        simp [Op.owesDrain] at h
  case handlePending was rs =>
    cases was with
    | some prev => exact covered_of_next rfl
    | none =>
      have hbefore : Waiting ⟨g, pre ++ .handlePending none rs :: post, tr⟩ :=
        hw.of_access (fun e he => he) fun s => by simp
      by_cases hp : g.slowPending = 1
      · have hcov := hok rfl hp hbefore
        have hcov : Covered ⟨{ g with slowPending := 0 },
          pre ++ .handlePending none rs :: post, tr⟩ := by
          rcases hcov with hr | ⟨o', ho', h⟩
          · exact Or.inl hr
          · exact Or.inr (Or.inr ⟨o', ho', owesDrain_mono rfl (fun s hs => hs) h⟩)
        refine hcov.access (fun o' _ h => owesDrain_mono rfl (fun s hs => hs) h) Or.inl
          (fun h => absurd h (lt_irrefl _)) fun h => by simp [Op.owesDrain] at h
      · -- another handle is pending
        have hslow := hc.handles.slow
        have := countsSlow_nonneg pre
        have := countsSlow_nonneg post
        simp only [total_append, total_cons, Op.countsSlow] at hslow
        exact Or.inr (Or.inl (show 0 < g.slowPending - 1 by omega))
  case handleCallsOwed prev h => exact covered_of_next (owesDrain_drainScan hne _)
  case handleCallsFree prev h => exact covered_of_next rfl
  case handleCallsNext was r rs =>
    refine key rfl rfl rfl (fun s hs => hs) (fun s => by simp) fun ho => covered_of_next ho
  case handleCheckDrain h => exact covered_of_next (owesDrain_drainScan hne _)
  case handleCheckDone h =>
    have hslow := hc.handles.slow
    have := countsSlow_nonneg (pre ++ .handleCheck :: post)
    exact Or.inr (Or.inl (show 0 < g.slowPending by simp only at hslow; omega))
  case handleUnlockHeld r hm h | handleUnlockIdle r hm h =>
    exact key (unlockSection_waitBuckets g r) (unlockSection_running g r)
      (unlockSection_slowPending g r) (fun s hs => by rwa [unlockSection_slots])
      (fun s => by simp) fun ho => by simp [Op.owesDrain] at ho
  all_goals
    refine key rfl rfl rfl (fun s hs => hs) (fun s => by simp) fun ho => ?_
    simp [Op.owesDrain] at ho

/-- A call does not take a cover away: `~RunningLock` drains. -/
theorem covered_call {call : Call} (hI : Waiting ⟨g, ops, tr⟩ → Covered ⟨g, ops, tr⟩)
    (hs : Start g ops call g' o) (hw : Waiting ⟨g', o :: ops, tr'⟩) :
    Covered ⟨g', o :: ops, tr'⟩ := by
  have hne := hw.parked_ne_nil
  have key : g' = g → Covered ⟨g', o :: ops, tr'⟩ := by
    rintro rfl
    have hbefore : Waiting ⟨g', ops, tr⟩ := by
      obtain ⟨e, he, hn⟩ := hw
      exact ⟨e, he, fun hm => hn (List.mem_cons_of_mem _ hm)⟩
    rcases hI hbefore with h | h | ⟨o', ho', hd⟩
    · exact Or.inl h
    · exact Or.inr (Or.inl h)
    · exact Or.inr (Or.inr ⟨o', List.mem_cons_of_mem _ ho', hd⟩)
  cases hs
  case runningDestroyOwed hr h =>
    exact Or.inr (Or.inr ⟨_, List.mem_cons_self .., owesDrain_drainScan hne _⟩)
  case runningDestroyFree hr h => exact Or.inr (Or.inr ⟨_, List.mem_cons_self .., rfl⟩)
  all_goals exact key rfl

/-- **No parked task is stranded** in a run in which the last pending handle keeps the cover: when
no operation is in progress, a `RunningLock` or a handle exists. -/
theorem exists_holder_of_parked {m : Machine} (hpos : 1 ≤ c)
    (h : Reaches step (AtAccess KeepsCover) (start c) m) (hq : m.ops = [])
    (hp : m.mem.parked ≠ []) : 0 < m.mem.running ∨ m.mem.queue ≠ [] := by
  have hI : Consistent c m ∧ (Waiting m → Covered m) := by
    refine invariant_of_access (I := fun m => Consistent c m ∧ (Waiting m → Covered m)) h
      ⟨consistent_start c, fun hw => absurd Buckets.contents_empty hw.parked_ne_nil⟩ ?_ ?_
    · intro g ops tr call g' o hI _ hs
      exact ⟨consistent_call hI.1 hs, covered_call hI.2 hs⟩
    · intro g pre o post tr z g' next ev hI hok _ ha
      exact ⟨consistent_access hI.1 ha, covered_access hpos hI.1 hok.apply hI.2 ha⟩
  obtain ⟨e, he⟩ := List.exists_mem_of_ne_nil _ hp
  rcases hI.2 ⟨e, he, by simp [hq]⟩ with hr | hs | ⟨o, ho, -⟩
  · exact Or.inl hr
  · have hslow := hI.1.handles.slow
    rw [hq, total_nil] at hslow
    refine Or.inr fun hnil => ?_
    rw [hnil, List.length_nil] at hslow
    omega
  · rw [hq] at ho
    exact absurd ho (List.not_mem_nil)

theorem exists_holder_of_parked_oneParked :
    ∃ m, exec step (start 1) oneParked = some m ∧ m.mem.parked ≠ [] ∧
      (0 < m.mem.running ∨ m.mem.queue ≠ []) := by
  obtain ⟨m, hm⟩ := Option.isSome_iff_exists.mp
    (by decide : (exec step (start 1) oneParked).isSome = true)
  have hp : (exec step (start 1) oneParked).map (fun m => (m.mem.parked.length, m.ops)) =
      some (1, []) := by decide
  have hok : execOk step (AtAccess KeepsCover) (start 1) oneParked := by decide
  rw [hm] at hp
  simp only [Option.map_some, Option.some.injEq, Prod.mk.injEq] at hp
  have hne : m.mem.parked ≠ [] := by
    intro hnil
    rw [hnil] at hp
    exact absurd hp.1 (by decide)
  exact ⟨m, hm, hne, exists_holder_of_parked le_rfl (reaches_of_exec hm hok) hp.2 hne⟩

/-- A handle is made, a task hands its token back to it and stays parked, and the handle is
destroyed without having locked. -/
def neverLocked : List (Action Call Bool) :=
  [.call (.lock ⟨1, 500, 0⟩)] ++ accesses 2 ++
    [.call (.trySubmit ⟨⟨2, 500⟩, 0, true⟩)] ++ accesses 9 ++
    [.call (.handleDestroy 0)] ++ accesses 4

/-- A handle that never locked leaves a parked task behind that nobody will start. -/
theorem stranded_of_neverLocked :
    ¬ ∀ (c : ℕ) (m : Machine), 1 ≤ c → Reaches step Always (start c) m → m.ops = [] →
      m.mem.parked ≠ [] → 0 < m.mem.running ∨ m.mem.queue ≠ [] := by
  intro h
  obtain ⟨m, hm⟩ := Option.isSome_iff_exists.mp
    (by decide : (exec step (start 1) neverLocked).isSome = true)
  have hend : (exec step (start 1) neverLocked).map
      (fun m => (m.mem.parked.length, m.ops, m.mem.running, m.mem.queue)) =
      some (1, [], 0, []) := by decide
  rw [hm] at hend
  simp only [Option.map_some, Option.some.injEq, Prod.mk.injEq] at hend
  obtain ⟨hlen, hops, hrun, hqueue⟩ := hend
  have hne : m.mem.parked ≠ [] := by
    intro hnil
    rw [hnil] at hlen
    exact absurd hlen (by decide)
  rcases h 1 m le_rfl (reaches_always_of_exec hm) hops hne with hr | hq
  · omega
  · exact hq hqueue

end Group

end Scheduler
end NUClear
