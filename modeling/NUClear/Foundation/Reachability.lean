import Mathlib.Tactic.Common

/-!
# Runs of a guarded transition function

A system is given by an executable step function `step : σ → α → Option σ`: the action `a` is
possible in the state `s` exactly when `step s a` is a value, and that value is the next state.  All
choices of the environment (which thread moves, which call it starts) are part of the action.

* `Reaches step ok s t`: some run leads from `s` to `t`, and every step of it is taken in a state
  and with an action that satisfy `ok`.  With `ok := Always` these are all runs.
* `exec step s as`: the run along a list of actions, for concrete runs and for statements about one
  run with all its steps (`execOk`).
* `Reaches.invariant`: what the start satisfies and every allowed step preserves holds in every
  state reached.
* `execOk_iff`, `execOk_iff_prefixes`: the rule in both directions.  When a step keeps a property if
  and only if it is allowed, the property holds after a run if and only if all its steps were
  allowed.  The first is for properties that no step brings back, the second for all states of a
  run.
* `stepCount`: how many steps of a run are of a kind.

The condition `ok` may look at the state before a step and at its action, and not at what the step
leads to.
-/

namespace NUClear
namespace Foundation

universe u v

variable {σ : Type u} {α : Type v}

/-- The condition that every step satisfies. -/
def Always : σ → α → Prop := fun _ _ => True

/-- `Reaches step ok s t`: a run from `s` to `t` all of whose steps satisfy `ok`. -/
inductive Reaches (step : σ → α → Option σ) (ok : σ → α → Prop) (s : σ) : σ → Prop
  | start : Reaches step ok s s
  | step {t u : σ} {a : α} :
      Reaches step ok s t → ok t a → step t a = some u → Reaches step ok s u

namespace Reaches

variable {step : σ → α → Option σ} {ok ok' : σ → α → Prop} {s t u : σ}

/-- **The invariant rule.**  What holds at the start and is preserved by every allowed step holds
in every state reached. -/
theorem invariant {P : σ → Prop} (h : Reaches step ok s t) (hs : P s)
    (hstep : ∀ x a y, P x → ok x a → step x a = some y → P y) : P t := by
  induction h with
  | start => exact hs
  | step _ hok hst ih => exact hstep _ _ _ ih hok hst

/-- A weaker condition on the steps allows more runs. -/
theorem mono (h : Reaches step ok s t) (hok : ∀ x a, ok x a → ok' x a) :
    Reaches step ok' s t := by
  induction h with
  | start => exact .start
  | step _ hx hst ih => exact .step ih (hok _ _ hx) hst

theorem trans (h : Reaches step ok s t) (h' : Reaches step ok t u) : Reaches step ok s u := by
  induction h' with
  | start => exact h
  | step _ hok hst ih => exact .step ih hok hst

theorem single {a : α} (hok : ok s a) (h : step s a = some t) : Reaches step ok s t :=
  .step .start hok h

/-- The first step of a run may be taken apart. -/
theorem head {a : α} (hok : ok s a) (h : step s a = some t) (h' : Reaches step ok t u) :
    Reaches step ok s u :=
  (single hok h).trans h'

end Reaches

/-- The run along a list of actions. -/
def exec (step : σ → α → Option σ) : σ → List α → Option σ
  | s, [] => some s
  | s, a :: as => (step s a).bind fun t => exec step t as

@[simp] theorem exec_nil (step : σ → α → Option σ) (s : σ) : exec step s [] = some s := rfl

@[simp] theorem exec_cons (step : σ → α → Option σ) (s : σ) (a : α) (as : List α) :
    exec step s (a :: as) = (step s a).bind fun t => exec step t as := rfl

/-- A condition that holds at every step of the run along `as`. -/
def execOk (step : σ → α → Option σ) (ok : σ → α → Prop) : σ → List α → Prop
  | _, [] => True
  | s, a :: as => ok s a ∧ ∀ t ∈ step s a, execOk step ok t as

instance decidableExecOk (step : σ → α → Option σ) (ok : σ → α → Prop)
    [∀ s a, Decidable (ok s a)] : ∀ s as, Decidable (execOk step ok s as)
  | _, [] => .isTrue trivial
  | s, a :: as =>
      have := fun t => decidableExecOk step ok t as
      inferInstanceAs (Decidable (ok s a ∧ ∀ t ∈ step s a, execOk step ok t as))

/-- An executed run reaches its last state. -/
theorem reaches_of_exec {step : σ → α → Option σ} {ok : σ → α → Prop} {s t : σ} {as : List α}
    (h : exec step s as = some t) (hok : execOk step ok s as) : Reaches step ok s t := by
  induction as generalizing s with
  | nil =>
    rw [exec_nil, Option.some.injEq] at h
    exact h ▸ .start
  | cons a as ih =>
    obtain ⟨u, hu, hrest⟩ := Option.bind_eq_some_iff.mp h
    exact .head hok.1 hu (ih hrest (hok.2 u hu))

/-- The last step of a run along a list. -/
theorem exec_concat_eq_some {step : σ → α → Option σ} {s u : σ} {as : List α} {a : α}
    (h : exec step s (as ++ [a]) = some u) : ∃ t, exec step s as = some t ∧ step t a = some u := by
  induction as generalizing s with
  | nil =>
    obtain ⟨t, ht, hu⟩ := Option.bind_eq_some_iff.mp h
    rw [exec_nil, Option.some.injEq] at hu
    exact ⟨s, rfl, hu ▸ ht⟩
  | cons b as ih =>
    obtain ⟨t, ht, hu⟩ := Option.bind_eq_some_iff.mp h
    obtain ⟨v, hv, hlast⟩ := ih hu
    exact ⟨v, Option.bind_eq_some_iff.mpr ⟨t, ht, hv⟩, hlast⟩

theorem execOk_concat {step : σ → α → Option σ} {ok : σ → α → Prop} {s t : σ} {as : List α} {a : α}
    (h : execOk step ok s (as ++ [a])) (ht : exec step s as = some t) :
    execOk step ok s as ∧ ok t a := by
  induction as generalizing s with
  | nil =>
    rw [exec_nil, Option.some.injEq] at ht
    exact ⟨trivial, ht ▸ h.1⟩
  | cons b as ih =>
    obtain ⟨u, hu, hrest⟩ := Option.bind_eq_some_iff.mp ht
    obtain ⟨-, hlast⟩ := ih (h.2 u hu) hrest
    exact ⟨⟨h.1, fun v hv => (ih (h.2 v hv) (by
      obtain rfl : u = v := Option.some.inj (hu.symm.trans hv)
      exact hrest)).1⟩, hlast⟩

/-- What no step brings about holds at the start of a run if it does at the end.  `I` is an
invariant of all runs. -/
theorem of_exec {step : σ → α → Option σ} {I P : σ → Prop}
    (hinv : ∀ x a y, step x a = some y → I x → I y)
    (hback : ∀ x a y, step x a = some y → I x → P y → P x) {s t : σ} {as : List α} (hI : I s)
    (h : exec step s as = some t) (ht : P t) : P s := by
  induction as generalizing s with
  | nil =>
    rw [exec_nil, Option.some.injEq] at h
    exact h ▸ ht
  | cons a as ih =>
    obtain ⟨u, hu, hrest⟩ := Option.bind_eq_some_iff.mp h
    exact hback s a u hu hI (ih (hinv s a u hu hI) hrest)

/-- **The invariant rule, in both directions.**  When a step keeps `P` if and only if it is allowed,
and does not bring it back, `P` holds at the end of a run if and only if all its steps are allowed.
`I` is an invariant of all runs. -/
theorem execOk_iff {step : σ → α → Option σ} {ok : σ → α → Prop} {I P : σ → Prop}
    (hinv : ∀ x a y, step x a = some y → I x → I y)
    (hstep : ∀ x a y, step x a = some y → I x → P x → (P y ↔ ok x a))
    (hback : ∀ x a y, step x a = some y → I x → P y → P x) {s t : σ} {as : List α} (hI : I s)
    (hs : P s)
    (h : exec step s as = some t) : P t ↔ execOk step ok s as := by
  induction as generalizing s with
  | nil =>
    rw [exec_nil, Option.some.injEq] at h
    exact h ▸ iff_of_true hs trivial
  | cons a as ih =>
    obtain ⟨u, hu, hrest⟩ := Option.bind_eq_some_iff.mp h
    have hall : (∀ v ∈ step s a, execOk step ok v as) ↔ execOk step ok u as := by
      rw [hu]
      exact ⟨fun h => h u rfl, fun h v hv => Option.some.inj hv ▸ h⟩
    show P t ↔ ok s a ∧ ∀ v ∈ step s a, execOk step ok v as
    rw [hall, ← hstep s a u hu hI hs]
    have hIu : I u := hinv s a u hu hI
    constructor
    · intro ht
      have hPu : P u := of_exec hinv hback hIu hrest ht
      exact ⟨hPu, (ih hIu hPu hrest).mp ht⟩
    · rintro ⟨hPu, hok⟩
      exact (ih hIu hPu hrest).mpr hok

/-- **The invariant rule for all states of a run.**  When a step keeps `P` if and only if it is
allowed, `P` holds in every state of a run if and only if all its steps are allowed. -/
theorem execOk_iff_prefixes {step : σ → α → Option σ} {ok : σ → α → Prop} {I P : σ → Prop}
    (hinv : ∀ x a y, step x a = some y → I x → I y)
    (hstep : ∀ x a y, step x a = some y → I x → P x → (P y ↔ ok x a)) {s t : σ}
    {as : List α} (hI : I s) (hs : P s) (h : exec step s as = some t) :
    (∀ bs u, bs <+: as → exec step s bs = some u → P u) ↔ execOk step ok s as := by
  induction as generalizing s with
  | nil =>
    refine iff_of_true (fun bs u hbs hu => ?_) trivial
    obtain rfl := List.prefix_nil.mp hbs
    rw [exec_nil, Option.some.injEq] at hu
    exact hu ▸ hs
  | cons a as ih =>
    obtain ⟨v, hv, hrest⟩ := Option.bind_eq_some_iff.mp h
    have hIv : I v := hinv s a v hv hI
    have hPv := hstep s a v hv hI hs
    have hcons (bs : List α) : exec step s (a :: bs) = exec step v bs := by
      rw [exec_cons, hv, Option.bind_some]
    constructor
    · intro hall
      have hok : P v := hall [a] v (List.prefix_append [a] as) (hcons [])
      refine ⟨hPv.mp hok, fun w hw => ?_⟩
      obtain rfl : v = w := Option.some.inj (hv.symm.trans hw)
      exact (ih hIv hok hrest).mp fun bs u hbs hu =>
        hall (a :: bs) u (List.cons_prefix_cons.mpr ⟨rfl, hbs⟩) ((hcons bs).trans hu)
    · rintro ⟨hok, hokrest⟩ bs u hbs hu
      have hall := (ih hIv (hPv.mpr hok) hrest).mpr (hokrest v hv)
      cases bs with
      | nil =>
        rw [exec_nil, Option.some.injEq] at hu
        exact hu ▸ hs
      | cons b bs =>
        obtain ⟨rfl, hprefix⟩ := List.cons_prefix_cons.mp hbs
        exact hall bs u hprefix ((hcons bs).symm.trans hu)

/-- The number of steps of a run that are of a kind. -/
def stepCount (step : σ → α → Option σ) (kind : σ → σ → Prop) [∀ x y, Decidable (kind x y)] :
    σ → List α → ℕ
  | _, [] => 0
  | s, a :: as =>
      match step s a with
      | none => 0
      | some t => (if kind s t then 1 else 0) + stepCount step kind t as

/-- No step of a kind, when each allowed step keeps what excludes it. -/
theorem stepCount_eq_zero {step : σ → α → Option σ} {kind : σ → σ → Prop}
    [∀ x y, Decidable (kind x y)] {ok : σ → α → Prop} {I : σ → Prop}
    (hkeep : ∀ x a y, step x a = some y → ok x a → I x → I y ∧ ¬ kind x y) {s : σ} {as : List α}
    (hs : I s) (hok : execOk step ok s as) : stepCount step kind s as = 0 := by
  induction as generalizing s with
  | nil => rfl
  | cons a as ih =>
    rw [stepCount]
    split
    · rfl
    · next t hst =>
      obtain ⟨ht, hkind⟩ := hkeep s a t hst hok.1 hs
      rw [if_neg hkind, Nat.zero_add]
      exact ih ht (hok.2 t hst)

/-- At most one step of a kind, when the first leads to what excludes the next. -/
theorem stepCount_le_one {step : σ → α → Option σ} {kind : σ → σ → Prop}
    [∀ x y, Decidable (kind x y)] {ok : σ → α → Prop} {I J : σ → Prop}
    (hinv : ∀ x a y, step x a = some y → I x → I y)
    (hfirst : ∀ x a y, step x a = some y → I x → kind x y → J y)
    (hnext : ∀ x a y, step x a = some y → ok x a → I x → J x → J y ∧ ¬ kind x y) {s : σ}
    {as : List α} (hs : I s) (hok : execOk step ok s as) : stepCount step kind s as ≤ 1 := by
  induction as generalizing s with
  | nil => exact Nat.zero_le 1
  | cons a as ih =>
    rw [stepCount]
    split
    · exact Nat.zero_le 1
    · next t hst =>
      have ht : I t := hinv s a t hst hs
      by_cases hkind : kind s t
      · have hzero : stepCount step kind t as = 0 :=
          stepCount_eq_zero (I := fun x => I x ∧ J x)
            (fun x b y hxy hb hx => (hnext x b y hxy hb hx.1 hx.2).imp_left fun hy =>
              ⟨hinv x b y hxy hx.1, hy⟩)
            ⟨ht, hfirst s a t hst hs hkind⟩ (hok.2 t hst)
        have hone : (if kind s t then 1 else 0) + stepCount step kind t as = 1 := by
          rw [if_pos hkind, hzero]
        exact Nat.le_of_eq hone
      · rw [if_neg hkind, Nat.zero_add]
        exact ih ht (hok.2 t hst)

theorem execOk_always (step : σ → α → Option σ) (s : σ) (as : List α) :
    execOk step Always s as := by
  induction as generalizing s with
  | nil => trivial
  | cons a as ih => exact ⟨trivial, fun t _ => ih t⟩

/-- An executed run is an unrestricted run. -/
theorem reaches_always_of_exec {step : σ → α → Option σ} {s t : σ} {as : List α}
    (h : exec step s as = some t) : Reaches step Always s t :=
  reaches_of_exec h (execOk_always step s as)

end Foundation
end NUClear
