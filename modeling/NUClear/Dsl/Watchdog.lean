import NUClear.Foundation.Reachability
import Mathlib.Logic.Function.Basic
import Mathlib.Order.Basic
import Mathlib.Data.Int.Order.Basic

/-!
# `Watchdog`

A watchdog of a group, with a key or without, looks from time to time when its group and key were
last serviced, and fires when that is too long ago.  The service times are in a store, which has
one entry for all watchdogs of the same group and key.

To service a watchdog takes two steps, and any time may pass between them.  `ServiceWatchdog` makes
a servicer, which reads the clock at once, and `emit<Scope::WATCHDOG>` has the servicer write the
time that it has read.  Two servicers can be emitted in the other order than they were made in, and
then the older time is what the store has.

* `DataStore`: what `WatchdogDataStore` does.  `unbind` erases the entry of a key, also when another
  watchdog has it too; without a key it erases nothing, since `get` returns a copy of the pointer
  that it resets.
* `System.step`: watchdogs are bound and unbound, servicers are made and emitted, and the chrono
  controller runs the tasks of the watchdogs, as late as it comes.
* `System.agrees_iff_of_exec`: when the store has the entries that it should have.
* `System.spaced_iff_of_exec`: when the firings are far enough from the services and from each
  other.  The condition is about the store and the due times before a check.
* `System.served_of_reaches`: servicers that are emitted in the order in which they were made need
  no condition for the first half of this.

Each operation is one step: the reaction task that a firing submits is not part of the model.
-/

namespace NUClear
namespace Dsl
namespace Watchdog

open Foundation

variable {γ κ : Type} [DecidableEq γ] [DecidableEq κ]

/-! ## The store -/

/-- The maps of `WatchdogDataStore<Group, RuntimeType>` and the times of `WatchdogDataStore<Group,
void>`.  The groups of the first are pairs of a group and a type of keys. -/
structure DataStore (γ κ : Type) where
  keyed : γ → Option (κ → Option ℤ)
  unkeyed : γ → Option ℤ

namespace DataStore

variable (d : DataStore γ κ) (g : γ)

/-- No watchdog was ever bound. -/
def empty : DataStore γ κ := ⟨fun _ => none, fun _ => none⟩

def init (now : ℤ) : Option κ → DataStore γ κ
  | some k =>
      let times := (d.keyed g).getD fun _ => none
      let times' := if times k = none then Function.update times k (some now) else times
      { d with keyed := Function.update d.keyed g (some times') }
  | none =>
      if d.unkeyed g = none then { d with unkeyed := Function.update d.unkeyed g (some now) } else d

/-- Nothing is an exception. -/
def get : Option κ → Option ℤ
  | some k => (d.keyed g).bind fun times => times k
  | none => d.unkeyed g

/-- Nothing is an exception. -/
def service (time : ℤ) : Option κ → Option (DataStore γ κ)
  | some k =>
      (d.keyed g).bind fun times =>
        if times k = none then none
        else some { d with
          keyed := Function.update d.keyed g (some (Function.update times k (some time))) }
  | none =>
      if d.unkeyed g = none then none
      else some { d with unkeyed := Function.update d.unkeyed g (some time) }

def unbind : Option κ → DataStore γ κ
  | some k =>
      match d.keyed g with
      | some times =>
        { d with keyed := Function.update d.keyed g (some (Function.update times k none)) }
      | none => d
  -- the pointer that is reset is the copy that `WatchdogStore::get()` returned
  | none => d

variable {d g} {g' : γ} {k k' : Option κ} {time : ℤ}

omit [DecidableEq γ] [DecidableEq κ] in
theorem get_empty : (empty : DataStore γ κ).get g k = none := by
  cases k <;> rfl

/-- A bind makes an entry if there is none. -/
theorem get_init : (d.init g time k).get g' k' =
    if g' = g ∧ k' = k then some ((d.get g k).getD time) else d.get g' k' := by
  cases k with
  | none =>
    cases hu : d.unkeyed g <;> cases k' with
    | none =>
      by_cases hg : g' = g
      · subst hg
        simp [init, get, hu]
      · simp [init, get, hu, hg]
    | some k' => simp [init, get, hu]
  | some k =>
    cases k' with
    | none => simp [init, get]
    | some k' =>
      by_cases hg : g' = g
      · subst hg
        cases hm : d.keyed g' with
        | none =>
          by_cases hk : k' = k
          · subst hk
            simp [init, get, hm]
          · simp [init, get, hm, hk]
        | some times =>
          cases ht : times k with
          | none | some v =>
            by_cases hk : k' = k
            · subst hk
              simp [init, get, hm, ht]
            · simp [init, get, hm, ht, hk]
      · simp [init, get, hg]

/-- `service` throws when there is no entry, and writes it if there is one. -/
theorem service_eq_none_iff : d.service g time k = none ↔ d.get g k = none := by
  cases k with
  | none =>
    by_cases hu : d.unkeyed g = none <;> simp [service, get, hu]
  | some k =>
    cases hm : d.keyed g with
    | none => simp [service, get, hm]
    | some times => by_cases ht : times k = none <;> simp [service, get, hm, ht]

theorem get_service {d' : DataStore γ κ} (h : d.service g time k = some d') :
    d'.get g' k' = if g' = g ∧ k' = k then some time else d.get g' k' := by
  cases k with
  | none =>
    rw [service] at h
    split_ifs at h
    obtain rfl := Option.some.inj h
    cases k' with
    | none =>
      by_cases hg : g' = g
      · subst hg
        simp [get]
      · simp [get, hg]
    | some k' => simp [get]
  | some k =>
    obtain ⟨times, hm, h⟩ := Option.bind_eq_some_iff.mp h
    split_ifs at h
    obtain rfl := Option.some.inj h
    cases k' with
    | none => simp [get]
    | some k' =>
      by_cases hg : g' = g
      · subst hg
        by_cases hk : k' = k
        · subst hk
          simp [get]
        · simp [get, hm, hk]
      · simp [get, hg]

/-- The entry of a key is erased, and that without a key is not. -/
theorem get_unbind : (d.unbind g k).get g' k' =
    if g' = g ∧ k' = k ∧ k ≠ none then none else d.get g' k' := by
  cases k with
  | none => simp [unbind]
  | some k =>
    rw [unbind]
    cases hm : d.keyed g with
    | none =>
      by_cases hg : g' = g
      · subst hg
        by_cases hk : k' = some k
        · subst hk
          simp [get, hm]
        · simp [hk]
      · simp [hg]
    | some times =>
      cases k' with
      | none => simp [get]
      | some k' =>
        by_cases hg : g' = g
        · subst hg
          by_cases hk : k' = k
          · subst hk
            simp [get]
          · simp [get, hm, hk]
        · simp [get, hg]

end DataStore

/-! ## The watchdogs -/

/-- A watchdog reaction with its chrono task. -/
structure Task (γ κ : Type) where
  group : γ
  key : Option κ
  /-- `period(ticks)`. -/
  timeout : ℤ
  /-- When its check is due. -/
  time : ℤ
  bound : Bool
  deriving DecidableEq, Repr

def Task.has (t : Task γ κ) (g : γ) (k : Option κ) : Bool := t.bound && (t.group = g && t.key = k)

/-- A `WatchdogServicer`: what it was made for, and what the clock showed then. -/
structure Servicer (γ κ : Type) where
  group : γ
  data : Option κ
  when : ℤ
  deriving DecidableEq, Repr

/-- Watchdog `id` fired when the clock showed `now`, in the check that was due at `due`. -/
structure Firing (γ κ : Type) where
  id : ℕ
  group : γ
  key : Option κ
  timeout : ℤ
  now : ℤ
  due : ℤ
  deriving DecidableEq, Repr

/-- What is recorded of a run. -/
inductive Event (γ κ : Type) where
  /-- A servicer has written its time. -/
  | serviced (g : γ) (k : Option κ) (time : ℤ)
  | fired (f : Firing γ κ)
  /-- A check of watchdog `i` found a service that is recent enough, and was put off. -/
  | putOff (i : ℕ) (serviceTime : ℤ)
  deriving DecidableEq, Repr

/-- The store, the watchdogs in the order in which they were bound, the servicers in the order in
which they were made, and the clock.  `own` is what the store is for: the service time of a group
and key, as long as a watchdog with them is bound. -/
structure System (γ κ : Type) where
  store : DataStore γ κ
  tasks : List (Task γ κ)
  servicers : List (Servicer γ κ)
  now : ℤ
  own : γ → Option κ → Option ℤ
  /-- Latest first. -/
  history : List (Event γ κ)

inductive Action (γ κ : Type) where
  | bind (g : γ) (k : Option κ) (timeout : ℤ)
  /-- A servicer is made, which reads the clock. -/
  | serviceWatchdog (g : γ) (k : Option κ)
  /-- Servicer `j` is emitted.  The emitter shares it, and so may emit it again. -/
  | service (j : ℕ)
  | unbind (i : ℕ)
  /-- The chrono controller runs the task of a watchdog. -/
  | run (i : ℕ)
  | clock (d : ℕ)
  deriving DecidableEq, Repr

namespace System

def start (now : ℤ) : System γ κ := ⟨.empty, [], [], now, fun _ _ => none, []⟩

/-- A watchdog with this group and key is bound. -/
def isBound (s : System γ κ) (g : γ) (k : Option κ) : Bool := s.tasks.any fun t => t.has g k

/-- One other than watchdog `i`. -/
def isBoundElse (s : System γ κ) (i : ℕ) (g : γ) (k : Option κ) : Bool :=
  (s.tasks.eraseIdx i).any fun t => t.has g k

def setOwn (s : System γ κ) (g : γ) (k : Option κ) (v : Option ℤ) : γ → Option κ → Option ℤ :=
  fun g' k' => if g' = g ∧ k' = k then v else s.own g' k'

/-- The service times that should be there, after servicer `w` has been emitted. -/
def servicedOwn (s : System γ κ) (w : Servicer γ κ) : γ → Option κ → Option ℤ :=
  if s.isBound w.group w.data then s.setOwn w.group w.data (some w.when) else s.own

/-- `Watchdog::chrono_task`, with the service time that `get` has found. -/
def chronoTask (s : System γ κ) (i : ℕ) (t : Task γ κ) (serviceTime : ℤ) : System γ κ :=
  if serviceTime + t.timeout < s.now then
    { s with
      tasks := s.tasks.set i { t with time := t.time + t.timeout }
      history := .fired ⟨i, t.group, t.key, t.timeout, s.now, t.time⟩ :: s.history }
  else
    { s with
      tasks := s.tasks.set i { t with time := serviceTime + t.timeout }
      history := .putOff i serviceTime :: s.history }

def step (s : System γ κ) : Action γ κ → Option (System γ κ)
  | .bind g k timeout =>
      some { s with
        store := s.store.init g s.now k
        tasks := s.tasks ++ [⟨g, k, timeout, s.now + timeout, true⟩]
        own := if s.isBound g k then s.own else s.setOwn g k (some s.now) }
  | .serviceWatchdog g k => some { s with servicers := s.servicers ++ [⟨g, k, s.now⟩] }
  | .service j =>
      match s.servicers[j]? with
      | none => none
      | some w =>
          match s.store.service w.group w.when w.data with
          -- the exception is the emitter's
          | none => some { s with own := s.servicedOwn w }
          | some store =>
              some { s with
                store
                own := s.servicedOwn w
                history := .serviced w.group w.data w.when :: s.history }
  | .unbind i =>
      match s.tasks[i]? with
      | none => none
      | some t =>
          some { s with
            store := s.store.unbind t.group t.key
            tasks := s.tasks.set i { t with bound := false }
            own := if s.isBoundElse i t.group t.key then s.own else s.setOwn t.group t.key none }
  | .run i =>
      match s.tasks[i]? with
      | none => none
      | some t =>
          if t.bound && t.time ≤ s.now then
            match s.store.get t.group t.key with
            -- the exception ends the round, and the task stays where it is
            | none => some s
            | some serviceTime => some (s.chronoTask i t serviceTime)
          else none
  | .clock d => some { s with now := s.now + d }

/-! ## The store and the timers -/

variable {s s' : System γ κ} {a : Action γ κ} {g g' : γ} {k k' : Option κ} {i j : ℕ}
variable {t : Task γ κ} {w : Servicer γ κ} {v : Option ℤ}

/-! ### What a step does -/

theorem step_service (h : s.step (.service j) = some s') :
    ∃ w, s.servicers[j]? = some w ∧
      ((s.store.service w.group w.when w.data = none ∧ s' = { s with own := s.servicedOwn w }) ∨
        ∃ store, s.store.service w.group w.when w.data = some store ∧
          s' = { s with
            store
            own := s.servicedOwn w
            history := .serviced w.group w.data w.when :: s.history }) := by
  rw [step] at h
  split at h
  · exact absurd h nofun
  · next w hw =>
    refine ⟨w, hw, ?_⟩
    split at h
    · exact .inl ⟨‹_›, (Option.some.inj h).symm⟩
    · exact .inr ⟨_, ‹_›, (Option.some.inj h).symm⟩

theorem step_unbind (h : s.step (.unbind i) = some s') :
    ∃ t, s.tasks[i]? = some t ∧
      s' = { s with
        store := s.store.unbind t.group t.key
        tasks := s.tasks.set i { t with bound := false }
        own := if s.isBoundElse i t.group t.key then s.own else s.setOwn t.group t.key none } := by
  rw [step] at h
  split at h
  · exact absurd h nofun
  · exact ⟨_, ‹_›, (Option.some.inj h).symm⟩

theorem step_run (h : s.step (.run i) = some s') :
    ∃ t, s.tasks[i]? = some t ∧ (t.bound && t.time ≤ s.now) = true ∧
      ((s.store.get t.group t.key = none ∧ s' = s) ∨
        ∃ time, s.store.get t.group t.key = some time ∧ s' = s.chronoTask i t time) := by
  rw [step] at h
  split at h
  · exact absurd h nofun
  · next t ht =>
    split_ifs at h with hdue
    refine ⟨t, ht, hdue, ?_⟩
    split at h
    · exact .inl ⟨‹_›, (Option.some.inj h).symm⟩
    · exact .inr ⟨_, ‹_›, (Option.some.inj h).symm⟩

/-! ### The invariant -/

/-- **The store and the timers agree**: the check of each watchdog that is bound finds its service
time, and to service throws exactly when no watchdog with the group and key is bound. -/
structure Agrees (s : System γ κ) : Prop where
  checks : ∀ t ∈ s.tasks, t.bound = true →
    ∃ time, s.store.get t.group t.key = some time ∧ s.own t.group t.key = some time
  services : ∀ g k time, s.store.service g time k = none ↔ s.isBound g k = false

/-- **The condition** on an unbind: with a key, no other watchdog with the group and key is bound;
without, another one is, or the watchdog is not bound itself. -/
def Alone (s : System γ κ) : Action γ κ → Prop
  | .unbind i => ∀ t ∈ s.tasks[i]?,
      (t.key ≠ none → s.isBoundElse i t.group t.key = false) ∧
        (t.key = none → t.bound = true → s.isBoundElse i t.group t.key = true)
  | _ => True

instance (s : System γ κ) : (a : Action γ κ) → Decidable (Alone s a)
  | .unbind i => inferInstanceAs (Decidable (∀ t ∈ s.tasks[i]?,
      (t.key ≠ none → s.isBoundElse i t.group t.key = false) ∧
        (t.key = none → t.bound = true → s.isBoundElse i t.group t.key = true)))
  | .bind .. | .serviceWatchdog .. | .service _ | .run _ | .clock _ => .isTrue trivial

theorem setOwn_apply : s.setOwn g k v g' k' = if g' = g ∧ k' = k then v else s.own g' k' := rfl

theorem isBound_of_mem (ht : t ∈ s.tasks) (hb : t.bound = true) : s.isBound t.group t.key = true :=
  List.any_eq_true.mpr ⟨t, ht, by simp [Task.has, hb]⟩

/-- What is bound, when one of the watchdogs is changed. -/
theorem any_set (h : s.tasks[i]? = some t) (t' : Task γ κ) (g : γ) (k : Option κ) :
    s.isBound g k = (t.has g k || s.isBoundElse i g k) ∧
      ((s.tasks.set i t').any fun t => t.has g k) = (t'.has g k || s.isBoundElse i g k) := by
  obtain ⟨hi, hget⟩ := List.getElem?_eq_some_iff.mp h
  have hsplit : s.tasks = s.tasks.take i ++ t :: s.tasks.drop (i + 1) := by
    rw [← hget, List.getElem_cons_drop, List.take_append_drop]
  have helse : s.isBoundElse i g k =
      ((s.tasks.take i).any (fun t => t.has g k) || (s.tasks.drop (i + 1)).any fun t =>
        t.has g k) := by
    rw [isBoundElse, List.eraseIdx_eq_take_drop_succ, List.any_append]
  rw [helse, List.set_eq_take_append_cons_drop, if_pos hi, List.any_append, List.any_cons]
  constructor
  · rw [isBound]
    conv_lhs => rw [hsplit]
    rw [List.any_append, List.any_cons, Bool.or_left_comm]
  · rw [Bool.or_left_comm]

/-- The service times that should be there are those of the watchdogs that are bound. -/
def Owned (s : System γ κ) : Prop := ∀ g k, (s.own g k).isSome = s.isBound g k

/-- The store is what it is for. -/
theorem agrees_iff (h : Owned s) : Agrees s ↔ ∀ g k, s.store.get g k = s.own g k := by
  constructor
  · intro hs g k
    cases hb : s.isBound g k with
    | true =>
      obtain ⟨t, ht, hhas⟩ := List.any_eq_true.mp hb
      rw [Task.has, Bool.and_eq_true, Bool.and_eq_true, decide_eq_true_eq,
        decide_eq_true_eq] at hhas
      obtain ⟨hbound, rfl, rfl⟩ := hhas
      obtain ⟨time, hget, hown⟩ := hs.checks t ht hbound
      rw [hget, hown]
    | false =>
      have hget := DataStore.service_eq_none_iff.mp ((hs.services g k 0).mpr hb)
      have hown := h g k
      rw [hb, Option.isSome_eq_false_iff, Option.isNone_iff_eq_none] at hown
      rw [hget, hown]
  · intro hs
    refine ⟨fun t ht hb => ?_, fun g k time => ?_⟩
    · have hown := h t.group t.key
      rw [isBound_of_mem ht hb] at hown
      obtain ⟨time, htime⟩ := Option.isSome_iff_exists.mp hown
      exact ⟨time, (hs _ _).trans htime, htime⟩
    · rw [DataStore.service_eq_none_iff, hs, ← h g k, Option.isSome_eq_false_iff,
        Option.isNone_iff_eq_none]

/-- The check of a watchdog changes its times only. -/
theorem chronoTask_frame (h : s.tasks[i]? = some t) (time : ℤ) :
    (s.chronoTask i t time).store = s.store ∧ (s.chronoTask i t time).own = s.own ∧
      ∀ g k, (s.chronoTask i t time).isBound g k = s.isBound g k := by
  have hbound (time' : ℤ) (g : γ) (k : Option κ) :
      ((s.tasks.set i { t with time := time' }).any fun t => t.has g k) = s.isBound g k := by
    obtain ⟨hold, hnew⟩ := any_set h { t with time := time' } g k
    rw [hold, hnew]
    rfl
  rw [chronoTask]
  split
  · exact ⟨rfl, rfl, hbound _⟩
  · exact ⟨rfl, rfl, hbound _⟩

theorem isBound_append (t : Task γ κ) :
    ((s.tasks ++ [t]).any fun t => t.has g k) = (s.isBound g k || t.has g k) := by
  rw [List.any_append, List.any_cons, List.any_nil, Bool.or_false, isBound]

theorem Owned.step (h : Owned s) (hst : s.step a = some s') : Owned s' := by
  intro g' k'
  cases a with
  | bind g k timeout =>
    obtain rfl := Option.some.inj hst
    show ((if s.isBound g k then s.own else s.setOwn g k (some s.now)) g' k').isSome = List.any _ _
    rw [isBound_append, Task.has, Bool.true_and]
    by_cases hm : g' = g ∧ k' = k
    · obtain ⟨rfl, rfl⟩ := hm
      cases hb : s.isBound g' k' with
      | true => simp [h g' k', hb]
      | false => simp [setOwn_apply]
    · have hne : (decide (g = g') && decide (k = k')) = false := by
        rw [Bool.and_eq_false_iff, decide_eq_false_iff_not, decide_eq_false_iff_not]
        by_contra hc
        push Not at hc
        exact hm ⟨hc.1.symm, hc.2.symm⟩
      rw [hne, Bool.or_false, ← h g' k']
      split
      · rfl
      · rw [setOwn_apply, if_neg hm]
  | serviceWatchdog g k =>
    obtain rfl := Option.some.inj hst
    exact h g' k'
  | service j =>
    obtain ⟨w, -, hcases⟩ := step_service hst
    have hown : (s.servicedOwn w g' k').isSome = s.isBound g' k' := by
      rw [servicedOwn]
      split
      · next hb =>
        by_cases hm : g' = w.group ∧ k' = w.data
        · obtain ⟨rfl, rfl⟩ := hm
          rw [setOwn_apply, if_pos ⟨rfl, rfl⟩, hb]
          rfl
        · rw [setOwn_apply, if_neg hm, h]
      · exact h g' k'
    obtain ⟨-, rfl⟩ | ⟨store, -, rfl⟩ := hcases
    · exact hown
    · exact hown
  | unbind i =>
    obtain ⟨t, ht, rfl⟩ := step_unbind hst
    obtain ⟨hold, hnew⟩ := any_set ht { t with bound := false } g' k'
    show ((if s.isBoundElse i t.group t.key then s.own else s.setOwn t.group t.key none)
      g' k').isSome =
      List.any _ _
    rw [hnew]
    have hhas : Task.has { t with bound := false } g' k' = false := rfl
    rw [hhas, Bool.false_or]
    by_cases hm : g' = t.group ∧ k' = t.key
    · obtain ⟨rfl, rfl⟩ := hm
      cases he : s.isBoundElse i t.group t.key with
      | true =>
        rw [if_pos rfl, h, hold, he, Bool.or_true]
      | false =>
        rw [if_neg Bool.false_ne_true, setOwn_apply, if_pos ⟨rfl, rfl⟩]
        rfl
    · have hne : t.has g' k' = false := by
        rw [Task.has, Bool.and_eq_false_iff, Bool.and_eq_false_iff, decide_eq_false_iff_not,
          decide_eq_false_iff_not]
        by_contra hc
        push Not at hc
        exact hm ⟨hc.2.1.symm, hc.2.2.symm⟩
      rw [hne, Bool.false_or] at hold
      rw [← hold, ← h g' k']
      split
      · rfl
      · rw [setOwn_apply, if_neg hm]
  | run i =>
    obtain ⟨t, ht, -, ⟨-, rfl⟩ | ⟨time, -, rfl⟩⟩ := step_run hst
    · exact h g' k'
    · obtain ⟨-, hown, hbound⟩ := chronoTask_frame ht time
      rw [hown, hbound]
      exact h g' k'
  | clock d =>
    obtain rfl := Option.some.inj hst
    exact h g' k'

/-- An entry that is there stays, and one that is made is what a bound watchdog has. -/
theorem get_eq_own_bind (h : Owned s) (hs : ∀ g k, s.store.get g k = s.own g k) :
    (s.store.init g s.now k).get g' k' =
      (if s.isBound g k then s.own else s.setOwn g k (some s.now)) g' k' := by
  rw [DataStore.get_init, hs, hs]
  have hown := h g k
  cases hb : s.isBound g k with
  | true =>
    rw [hb] at hown
    obtain ⟨v, hv⟩ := Option.isSome_iff_exists.mp hown
    rw [if_pos rfl, hv, Option.getD_some]
    split
    · next hm =>
      obtain ⟨rfl, rfl⟩ := hm
      exact hv.symm
    · rfl
  | false =>
    rw [hb, Option.isSome_eq_false_iff, Option.isNone_iff_eq_none] at hown
    rw [if_neg Bool.false_ne_true, hown, Option.getD_none, setOwn_apply]

/-- To service throws where none is bound, and sets the entry otherwise. -/
theorem get_eq_own_service (h : Owned s) (hs : ∀ g k, s.store.get g k = s.own g k)
    (hst : s.step (.service j) = some s') : s'.store.get g' k' = s'.own g' k' := by
  obtain ⟨w, -, hcases⟩ := step_service hst
  have hown := h w.group w.data
  obtain ⟨hthrows, rfl⟩ | ⟨store, hstore, rfl⟩ := hcases
  · -- there is no entry, so none is bound
    rw [DataStore.service_eq_none_iff, hs] at hthrows
    rw [hthrows] at hown
    show s.store.get g' k' = s.servicedOwn w g' k'
    rw [servicedOwn, ← hown, Option.isSome_none, if_neg Bool.false_ne_true]
    exact hs g' k'
  · have hb : s.isBound w.group w.data = true := by
      rw [← hown, ← hs, Option.isSome_iff_ne_none]
      intro hnone
      rw [DataStore.service_eq_none_iff.mpr hnone] at hstore
      exact absurd hstore nofun
    show store.get g' k' = s.servicedOwn w g' k'
    rw [servicedOwn, hb, if_pos rfl, DataStore.get_service hstore, setOwn_apply, hs]

/-- To unbind erases the entry of the key, if there is one, whoever else needs it. -/
theorem get_eq_own_unbind_iff (h : Owned s) (hs : ∀ g k, s.store.get g k = s.own g k)
    (hst : s.step (.unbind i) = some s') :
    (∀ g k, s'.store.get g k = s'.own g k) ↔ Alone s (.unbind i) := by
  obtain ⟨t, ht, rfl⟩ := step_unbind hst
  obtain ⟨hbound, -⟩ := any_set ht t t.group t.key
  have hown := h t.group t.key
  have hhas : t.has t.group t.key = t.bound := by simp [Task.has]
  rw [hbound, hhas] at hown
  have hok : Alone s (.unbind i) ↔ (t.key ≠ none → s.isBoundElse i t.group t.key = false) ∧
      (t.key = none → t.bound = true → s.isBoundElse i t.group t.key = true) := by
    show (∀ t ∈ s.tasks[i]?, _) ↔ _
    rw [ht]
    exact ⟨fun hall => hall t rfl, fun hall u hu => Option.some.inj hu ▸ hall⟩
  rw [hok]
  show (∀ g' k', (s.store.unbind t.group t.key).get g' k' =
    (if s.isBoundElse i t.group t.key then s.own else s.setOwn t.group t.key none) g' k') ↔ _
  by_cases hkey : t.key = none
  · -- nothing is erased
    have hkeep (g' : γ) (k' : Option κ) : (s.store.unbind t.group t.key).get g' k' =
      s.own g' k' := by
      rw [DataStore.get_unbind, if_neg (fun hm => hm.2.2 hkey), hs]
    simp only [hkeep]
    cases he : s.isBoundElse i t.group t.key with
    | true => simp [hkey]
    | false =>
      rw [he, Bool.or_false] at hown
      rw [if_neg Bool.false_ne_true]
      constructor
      · intro hall
        refine ⟨fun hne => absurd hkey hne, fun _ hb => ?_⟩
        have hnone := hall t.group t.key
        rw [setOwn_apply, if_pos ⟨rfl, rfl⟩] at hnone
        rw [hnone, hb] at hown
        exact absurd hown nofun
      · rintro ⟨-, hunbound⟩ g' k'
        rw [setOwn_apply]
        split
        · next hm =>
          obtain ⟨rfl, rfl⟩ := hm
          have hb : t.bound = false := by
            by_contra hb
            exact absurd (hunbound hkey (by simpa using hb)) nofun
          rw [hb, Option.isSome_eq_false_iff, Option.isNone_iff_eq_none] at hown
          exact hown
        · rfl
  · have herase (g' : γ) (k' : Option κ) : (s.store.unbind t.group t.key).get g' k' =
        s.setOwn t.group t.key none g' k' := by
      rw [DataStore.get_unbind, setOwn_apply, hs]
      exact if_congr (by simp [hkey]) rfl rfl
    simp only [herase]
    cases he : s.isBoundElse i t.group t.key with
    | true =>
      rw [he, Bool.or_true] at hown
      rw [if_pos rfl]
      refine iff_of_false (fun hall => ?_) fun hall => absurd (hall.1 hkey) nofun
      have hnone := hall t.group t.key
      rw [setOwn_apply, if_pos ⟨rfl, rfl⟩] at hnone
      rw [← hnone] at hown
      exact absurd hown nofun
    | false =>
      rw [if_neg Bool.false_ne_true]
      exact iff_of_true (fun _ _ => rfl) ⟨fun _ => rfl, fun hne => absurd hne hkey⟩

/-- One step keeps the store right if and only if it is allowed. -/
theorem get_eq_own_step_iff (h : Owned s) (hs : ∀ g k, s.store.get g k = s.own g k)
    (hst : s.step a = some s') : (∀ g k, s'.store.get g k = s'.own g k) ↔ Alone s a := by
  cases a with
  | bind g k timeout =>
    obtain rfl := Option.some.inj hst
    exact iff_of_true (fun _ _ => get_eq_own_bind h hs) trivial
  | serviceWatchdog g k =>
    obtain rfl := Option.some.inj hst
    exact iff_of_true hs trivial
  | service j => exact iff_of_true (fun _ _ => get_eq_own_service h hs hst) trivial
  | unbind i => exact get_eq_own_unbind_iff h hs hst
  | run i =>
    refine iff_of_true (fun g' k' => ?_) trivial
    obtain ⟨t, ht, -, ⟨-, rfl⟩ | ⟨time, -, rfl⟩⟩ := step_run hst
    · exact hs g' k'
    · obtain ⟨hstore, hown, -⟩ := chronoTask_frame ht time
      rw [hstore, hown]
      exact hs g' k'
  | clock d =>
    obtain rfl := Option.some.inj hst
    exact iff_of_true hs trivial

/-- **The store and the timers agree in every state of a run exactly when each unbind of it leaves
the others what they need, and takes its own.** -/
theorem agrees_iff_of_exec {now : ℤ} {l : List (Action γ κ)} {s : System γ κ}
    (h : exec step (start now) l = some s) :
    (∀ bs u, bs <+: l → exec step (start now) bs = some u → Agrees u) ↔
      execOk step Alone (start now) l := by
  have hstart : Owned (start now : System γ κ) := fun _ _ => rfl
  have hempty (g : γ) (k : Option κ) : (start now : System γ κ).store.get g k =
    (start now).own g k :=
    DataStore.get_empty
  refine execOk_iff_prefixes (I := Owned) (fun _ _ _ hst hx => hx.step hst)
    (fun x b y hst hx hxs => ?_)
    hstart ((agrees_iff hstart).mpr hempty) h
  rw [agrees_iff (hx.step hst)]
  exact get_eq_own_step_iff hx ((agrees_iff hx).mp hxs) hst

/-- Watchdogs with different keys: one is unbound, and the other is serviced. -/
def twoKeys : List (Action Unit ℕ) :=
  [.bind () (some 1) 10, .bind () (some 2) 10, .unbind 0, .serviceWatchdog () (some 2), .service 0]

theorem agrees_iff_of_exec_twoKeys :
    ∃ s, exec step (start 0) twoKeys = some s ∧ Agrees s ∧
      s.history = [.serviced () (some 2) 0] := by
  have hrun : (exec step (start 0) twoKeys).any (fun s =>
      decide (s.history = [.serviced () (some 2) 0])) = true := by decide +kernel
  obtain ⟨s, hs, hh⟩ := (Option.any_eq_true _ _).mp hrun
  have hok : execOk step Alone (start 0) twoKeys := by decide +kernel
  exact ⟨s, hs, (agrees_iff_of_exec hs).mpr hok twoKeys s List.prefix_rfl hs, of_decide_eq_true hh⟩

/-- Two watchdogs with the same key: when one is unbound, the check of the other throws. -/
theorem not_agrees_oneKey :
    ¬ ∀ (l : List (Action Unit ℕ)) (s : System Unit ℕ),
      exec step (start 0) l = some s → Agrees s := by
  intro h
  have hrun : (exec step (start 0) [.bind () (some 1) 10, .bind () (some 1) 10, .unbind 0]).any
    (fun s =>
      decide (s.tasks[1]? = some ⟨(), some 1, 10, 10, true⟩ ∧ s.store.get () (some 1) = none)) =
        true := by
    decide +kernel
  obtain ⟨s, hs, hp⟩ := (Option.any_eq_true _ _).mp hrun
  obtain ⟨htask, hget⟩ := of_decide_eq_true hp
  obtain ⟨time, htime, -⟩ := (h _ s hs).checks _ (List.mem_of_getElem? htask) rfl
  exact absurd (hget.symm.trans htime) nofun

/-! ## The firing times -/

/-- The service times that were written for a group and key. -/
def serviceTimes (g : γ) (k : Option κ) : List (Event γ κ) → List ℤ
  | [] => []
  | .serviced g' k' time :: h =>
      if g' = g ∧ k' = k then time :: serviceTimes g k h else serviceTimes g k h
  | .fired _ :: h | .putOff .. :: h => serviceTimes g k h

/-- The latest firing of watchdog `i`. -/
def lastFiring (i : ℕ) : List (Event γ κ) → Option (Firing γ κ)
  | [] => none
  | .fired f :: h => if f.id = i then some f else lastFiring i h
  | .serviced .. :: h | .putOff .. :: h => lastFiring i h

/-- The time from which the due time of watchdog `i` counts, once it has been checked: when the
check was due, if it fired, and otherwise the service that put it off. -/
def countedFrom (i : ℕ) : List (Event γ κ) → Option ℤ
  | [] => none
  | .fired f :: h => if f.id = i then some f.due else countedFrom i h
  | .putOff i' serviceTime :: h => if i' = i then some serviceTime else countedFrom i h
  | .serviced .. :: h => countedFrom i h

/-- Each firing comes when the timeout has elapsed since every service before it. -/
def Served : List (Event γ κ) → Prop
  | [] => True
  | .fired f :: h => (∀ time ∈ serviceTimes f.group f.key h, time + f.timeout ≤ f.now) ∧ Served h
  | .serviced .. :: h | .putOff .. :: h => Served h

/-- Each firing comes a timeout or more after the firing of the same watchdog before. -/
def Apart : List (Event γ κ) → Prop
  | [] => True
  | .fired f :: h => (∀ e ∈ lastFiring f.id h, e.now + f.timeout ≤ f.now) ∧ Apart h
  | .serviced .. :: h | .putOff .. :: h => Apart h

/-- **The firings are far enough apart**: the timeout has elapsed since each service before, and
since the firing of the same watchdog before. -/
structure Spaced (h : List (Event γ κ)) : Prop where
  served : Served h
  apart : Apart h

/-- **The first condition** on a check that finds the service time `v` too old: a later service,
which an earlier one has overwritten, is too old as well. -/
def Overwritten (s : System γ κ) (t : Task γ κ) (v : ℤ) : Prop :=
  ∀ time ∈ serviceTimes t.group t.key s.history, v < time → time + t.timeout ≤ s.now

/-- **The second condition** on a check of watchdog `i` that finds the service time `v` too old.
When it has fired since that service, the chrono controller is at least as late with the check,
after it was due, as the firing was after the time from which the check counts. -/
def Unhurried (s : System γ κ) (i : ℕ) (t : Task γ κ) (v : ℤ) : Prop :=
  ∀ e ∈ lastFiring i s.history, v < e.now →
    ∀ d ∈ countedFrom i s.history, e.now - d ≤ s.now - t.time

/-- **The condition** on a check that fires. -/
def Steady (s : System γ κ) : Action γ κ → Prop
  | .run i => ∀ t ∈ s.tasks[i]?, ∀ v ∈ s.store.get t.group t.key, v + t.timeout < s.now →
      Overwritten s t v ∧ Unhurried s i t v
  | _ => True

instance (s : System γ κ) : (a : Action γ κ) → Decidable (Steady s a)
  | .run i => inferInstanceAs (Decidable (∀ t ∈ s.tasks[i]?, ∀ v ∈ s.store.get t.group t.key,
      v + t.timeout < s.now →
        (∀ time ∈ serviceTimes t.group t.key s.history, v < time → time + t.timeout ≤ s.now) ∧
        ∀ e ∈ lastFiring i s.history, v < e.now →
          ∀ d ∈ countedFrom i s.history, e.now - d ≤ s.now - t.time))
  | .bind .. | .serviceWatchdog .. | .service _ | .unbind _ | .clock _ => .isTrue trivial

/-! ### From what time a check counts -/

/-- A watchdog that has been checked is there, and its next check is due a timeout after the time
from which it counts. -/
structure Counted (s : System γ κ) : Prop where
  lt : ∀ i d, countedFrom i s.history = some d → i < s.tasks.length
  due : ∀ i t d, s.tasks[i]? = some t → countedFrom i s.history = some d → t.time = d + t.timeout

omit [DecidableEq γ] [DecidableEq κ] in
theorem counted_start (now : ℤ) : Counted (start now : System γ κ) where
  lt _ _ h := absurd h nofun
  due _ _ _ _ h := absurd h nofun

omit [DecidableEq γ] [DecidableEq κ] in
/-- A watchdog that has fired has been checked. -/
theorem exists_countedFrom {e : Firing γ κ} {h : List (Event γ κ)} (he : lastFiring i h = some e) :
    ∃ d, countedFrom i h = some d := by
  induction h with
  | nil => exact absurd he nofun
  | cons event h ih =>
    cases event with
    | serviced g k time => exact ih he
    | fired f =>
      rw [lastFiring] at he
      rw [countedFrom]
      split_ifs at he ⊢ with hi
      · exact ⟨f.due, rfl⟩
      · exact ih he
    | putOff i' time =>
      rw [countedFrom]
      split_ifs with hi
      · exact ⟨time, rfl⟩
      · exact ih he

omit [DecidableEq γ] [DecidableEq κ] in
/-- A step that checks nothing and leaves the due times. -/
theorem Counted.of_tasks (h : Counted s) (hlen : s.tasks.length ≤ s'.tasks.length)
    (htasks : ∀ i < s.tasks.length, ∀ t', s'.tasks[i]? = some t' →
      ∃ t, s.tasks[i]? = some t ∧ t'.time = t.time ∧ t'.timeout = t.timeout)
    (hcounted : ∀ i, countedFrom i s'.history = countedFrom i s.history) : Counted s' where
  lt i d hd := by
    rw [hcounted] at hd
    exact Nat.lt_of_lt_of_le (h.lt i d hd) hlen
  due i t' d ht' hd := by
    rw [hcounted] at hd
    obtain ⟨t, ht, htime, htimeout⟩ := htasks i (h.lt i d hd) t' ht'
    rw [htime, htimeout]
    exact h.due i t d ht hd

omit [DecidableEq γ] [DecidableEq κ] in
/-- A check changes one task, and records the time from which it counts now. -/
theorem Counted.set (h : Counted s) (hi : i < s.tasks.length) {t' : Task γ κ} {d : ℤ}
    (htime : t'.time = d + t'.timeout) {hist : List (Event γ κ)}
    (hself : countedFrom i hist = some d)
    (helse : ∀ j, j ≠ i → countedFrom j hist = countedFrom j s.history) :
    Counted { s with tasks := s.tasks.set i t', history := hist } where
  lt j d' hd := by
    rw [List.length_set]
    by_cases hj : j = i
    · exact hj ▸ hi
    · exact h.lt j d' ((helse j hj).symm.trans hd)
  due j u d' hu hd := by
    by_cases hj : j = i
    · subst hj
      rw [List.getElem?_set_self hi] at hu
      obtain rfl := Option.some.inj hu
      obtain rfl : d = d' := Option.some.inj (hself.symm.trans hd)
      exact htime
    · rw [List.getElem?_set_ne (Ne.symm hj)] at hu
      exact h.due j u d' hu ((helse j hj).symm.trans hd)

omit [DecidableEq γ] [DecidableEq κ] in
theorem Counted.chronoTask (h : Counted s) (ht : s.tasks[i]? = some t) (time : ℤ) :
    Counted (s.chronoTask i t time) := by
  obtain ⟨hi, -⟩ := List.getElem?_eq_some_iff.mp ht
  rw [System.chronoTask]
  split
  · exact h.set hi rfl (if_pos rfl) fun j hj => if_neg (Ne.symm hj)
  · exact h.set hi rfl (if_pos rfl) fun j hj => if_neg (Ne.symm hj)

theorem Counted.step (h : Counted s) (hst : s.step a = some s') : Counted s' := by
  cases a with
  | bind g k timeout =>
    obtain rfl := Option.some.inj hst
    refine h.of_tasks (by simp) (fun i hi t' ht' => ?_) fun i => rfl
    rw [List.getElem?_append_left hi] at ht'
    exact ⟨t', ht', rfl, rfl⟩
  | serviceWatchdog g k =>
    obtain rfl := Option.some.inj hst
    exact h.of_tasks (Nat.le_refl _) (fun i _ t' ht' => ⟨t', ht', rfl, rfl⟩) fun i => rfl
  | service j =>
    obtain ⟨w, -, ⟨-, rfl⟩ | ⟨store, -, rfl⟩⟩ := step_service hst
    · exact h.of_tasks (Nat.le_refl _) (fun i _ t' ht' => ⟨t', ht', rfl, rfl⟩) fun i => rfl
    · exact h.of_tasks (Nat.le_refl _) (fun i _ t' ht' => ⟨t', ht', rfl, rfl⟩) fun i => rfl
  | unbind i =>
    obtain ⟨t, ht, rfl⟩ := step_unbind hst
    refine h.of_tasks (by simp) (fun j hj t' ht' => ?_) fun j => rfl
    replace ht' : (s.tasks.set i { t with bound := false })[j]? = some t' := ht'
    rw [List.getElem?_set] at ht'
    split_ifs at ht' with hij
    · obtain rfl := Option.some.inj ht'
      exact ⟨t, hij ▸ ht, rfl, rfl⟩
    · exact ⟨t', ht', rfl, rfl⟩
  | run i =>
    obtain ⟨t, ht, -, ⟨-, rfl⟩ | ⟨time, -, rfl⟩⟩ := step_run hst
    · exact h
    · exact h.chronoTask ht time
  | clock d =>
    obtain rfl := Option.some.inj hst
    exact h.of_tasks (Nat.le_refl _) (fun i _ t' ht' => ⟨t', ht', rfl, rfl⟩) fun i => rfl

/-! ### When the firings are far enough apart -/

/-- A firing is far enough from all services if and only if it is far enough from those that were
overwritten: the check has looked at the one that is in the store. -/
theorem served_iff_overwritten {time : ℤ} (hlate : time + t.timeout < s.now) :
    (∀ τ ∈ serviceTimes t.group t.key s.history, τ + t.timeout ≤ s.now) ↔
      Overwritten s t time := by
  constructor
  · exact fun hall τ hτ _ => hall τ hτ
  · intro hall τ hτ
    obtain hle | hlt := le_or_gt τ time
    · omega
    · exact hall τ hτ hlt

omit [DecidableEq γ] [DecidableEq κ] in
/-- A firing is a timeout after the one before if and only if the chrono controller is late enough:
the check is due a timeout after the time from which it counts. -/
theorem apart_iff_unhurried (h : Counted s) (ht : s.tasks[i]? = some t) {time : ℤ}
    (hlate : time + t.timeout < s.now) :
    (∀ e ∈ lastFiring i s.history, e.now + t.timeout ≤ s.now) ↔ Unhurried s i t time := by
  constructor
  · intro hall e he _ d hd
    have hapart := hall e he
    have hdue := h.due i t d ht hd
    omega
  · intro hall e he
    obtain ⟨d, hd⟩ := exists_countedFrom he
    have hdue := h.due i t d ht hd
    obtain hle | hlt := le_or_gt e.now time
    · omega
    · have hlateness := hall e he hlt d hd
      omega

/-- A check keeps the firings far enough apart if and only if it is allowed. -/
theorem spaced_chronoTask_iff (h : Counted s) (hs : Spaced s.history) (ht : s.tasks[i]? = some t)
    {time : ℤ} (htime : s.store.get t.group t.key = some time) :
    Spaced (s.chronoTask i t time).history ↔ Steady s (.run i) := by
  have hsteady : Steady s (.run i) ↔
      (time + t.timeout < s.now → Overwritten s t time ∧ Unhurried s i t time) := by
    show (∀ u ∈ s.tasks[i]?, _) ↔ _
    rw [ht]
    constructor
    · exact fun hall hlate => hall t rfl time htime hlate
    · intro hall u hu v hv hlate
      obtain rfl := Option.some.inj hu
      obtain rfl : time = v := Option.some.inj (htime.symm.trans hv)
      exact hall hlate
  rw [hsteady, System.chronoTask]
  split
  · next hlate =>
    rw [← served_iff_overwritten hlate, ← apart_iff_unhurried h ht hlate]
    constructor
    · exact fun hspaced _ => ⟨hspaced.served.1, hspaced.apart.1⟩
    · intro hall
      obtain ⟨hserved, hapart⟩ := hall hlate
      exact ⟨⟨hserved, hs.served⟩, hapart, hs.apart⟩
  · next hearly => exact iff_of_true ⟨hs.served, hs.apart⟩ fun hlate => absurd hlate hearly

/-- One step keeps the firings apart if and only if it is allowed. -/
theorem spaced_step_iff (h : Counted s) (hs : Spaced s.history) (hst : s.step a = some s') :
    Spaced s'.history ↔ Steady s a := by
  cases a with
  | bind g k timeout =>
    obtain rfl := Option.some.inj hst
    exact iff_of_true hs trivial
  | serviceWatchdog g k =>
    obtain rfl := Option.some.inj hst
    exact iff_of_true hs trivial
  | service j =>
    obtain ⟨w, -, ⟨-, rfl⟩ | ⟨store, -, rfl⟩⟩ := step_service hst
    · exact iff_of_true hs trivial
    · exact iff_of_true ⟨hs.served, hs.apart⟩ trivial
  | unbind i =>
    obtain ⟨t, ht, rfl⟩ := step_unbind hst
    exact iff_of_true hs trivial
  | run i =>
    obtain ⟨t, ht, -, ⟨hnone, rfl⟩ | ⟨time, htime, rfl⟩⟩ := step_run hst
    · -- the check throws, and nothing fires
      refine iff_of_true hs fun u hu v hv => ?_
      obtain rfl : t = u := Option.some.inj (ht.symm.trans hu)
      exact absurd (hnone.symm.trans hv) nofun
    · exact spaced_chronoTask_iff h hs ht htime
  | clock d =>
    obtain rfl := Option.some.inj hst
    exact iff_of_true hs trivial

/-- Firings that were too close stay so. -/
theorem spaced_of_step (hst : s.step a = some s') (hs : Spaced s'.history) : Spaced s.history := by
  cases a with
  | bind g k timeout =>
    obtain rfl := Option.some.inj hst
    exact hs
  | serviceWatchdog g k =>
    obtain rfl := Option.some.inj hst
    exact hs
  | service j =>
    obtain ⟨w, -, ⟨-, rfl⟩ | ⟨store, -, rfl⟩⟩ := step_service hst
    · exact hs
    · exact ⟨hs.served, hs.apart⟩
  | unbind i =>
    obtain ⟨t, ht, rfl⟩ := step_unbind hst
    exact hs
  | run i =>
    obtain ⟨t, -, -, ⟨-, rfl⟩ | ⟨time, -, rfl⟩⟩ := step_run hst
    · exact hs
    · rw [System.chronoTask] at hs
      split at hs
      · exact ⟨hs.served.2, hs.apart.2⟩
      · exact ⟨hs.served, hs.apart⟩
  | clock d =>
    obtain rfl := Option.some.inj hst
    exact hs

/-- **The firings are far enough apart in a run if and only if each check that fires is allowed**:
no younger service was overwritten, and the chrono controller does not catch up with a watchdog
that has fired before. -/
theorem spaced_iff_of_exec {now : ℤ} {l : List (Action γ κ)} {s : System γ κ}
    (h : exec step (start now) l = some s) :
    Spaced s.history ↔ execOk step Steady (start now) l :=
  execOk_iff (I := Counted) (P := fun s : System γ κ => Spaced s.history)
    (fun _ _ _ hst hx => hx.step hst) (fun _ _ _ hst hx hs => spaced_step_iff hx hs hst)
    (fun _ _ _ hst _ hs => spaced_of_step hst hs) (counted_start now) ⟨trivial, trivial⟩ h

/-- A watchdog that fires, is serviced, is put off, and fires again; the servicer is emitted some
time after it was made. -/
def onTime : List (Action Unit ℕ) :=
  [.bind () none 10, .clock 11, .run 0, .clock 4, .serviceWatchdog () none, .clock 3, .service 0,
    .clock 3, .run 0, .clock 5, .run 0]

theorem spaced_iff_of_exec_onTime :
    ∃ s, exec step (start 0) onTime = some s ∧ Spaced s.history ∧
      s.history = [.fired ⟨0, (), none, 10, 26, 25⟩, .putOff 0 15, .serviced () none 15,
        .fired ⟨0, (), none, 10, 11, 10⟩] := by
  have hrun : (exec step (start 0) onTime).any (fun s => decide (s.history =
      [.fired ⟨0, (), none, 10, 26, 25⟩, .putOff 0 15, .serviced () none 15,
        .fired ⟨0, (), none, 10, 11, 10⟩])) = true := by decide +kernel
  obtain ⟨s, hs, hh⟩ := (Option.any_eq_true _ _).mp hrun
  have hok : execOk step Steady (start 0) onTime := by decide +kernel
  exact ⟨s, hs, (spaced_iff_of_exec hs).mpr hok, of_decide_eq_true hh⟩

/-- The check comes two timeouts late. -/
def late : List (Action Unit ℕ) := [.bind () none 10, .clock 35, .run 0, .run 0]

/-- A check that is late by two timeouts is made up for at once: the watchdog fires twice at the
same time. -/
theorem not_spaced_late :
    ¬ ∀ (l : List (Action Unit ℕ)) (s : System Unit ℕ),
      exec step (start 0) l = some s → Spaced s.history := by
  intro h
  have hrun : (exec step (start 0) late).any (fun s => decide (s.history =
      [.fired ⟨0, (), none, 10, 35, 20⟩, .fired ⟨0, (), none, 10, 35, 10⟩])) = true := by
    decide +kernel
  obtain ⟨s, hs, hh⟩ := (Option.any_eq_true _ _).mp hrun
  have hspaced := h _ s hs
  rw [of_decide_eq_true hh] at hspaced
  exact absurd (hspaced.apart.1 _ rfl) (by decide)

/-! ### Servicers that are emitted in order -/

/-- Servicers that are made at 1 and at 5 and emitted in the other order: the store has the older
time, and the watchdog fires at 12, which is 7 after the service of 5. -/
example : (exec step (start 0)
    [.bind () none 10, .clock 1, .serviceWatchdog () none, .clock 4, .serviceWatchdog () none,
      .service 1, .service 0, .clock 7, .run 0]).map (fun s : System Unit ℕ => s.history) =
    some [.fired ⟨0, (), none, 10, 12, 10⟩, .serviced () none 1, .serviced () none 5] := by
  decide +kernel

/-- No servicer of the same group and key that was made later has been emitted before. -/
def EmittedInOrder (s : System γ κ) : Action γ κ → Prop
  | .service j => ∀ w ∈ s.servicers[j]?, ∀ time ∈ serviceTimes w.group w.data s.history,
      time ≤ w.when
  | _ => True

/-- The entry of the store is the latest of the service times that were written. -/
structure Latest (s : System γ κ) : Prop where
  made : ∀ w ∈ s.servicers, w.when ≤ s.now
  written : ∀ g k, ∀ time ∈ serviceTimes g k s.history, time ≤ s.now
  get : ∀ g k v, s.store.get g k = some v → ∀ time ∈ serviceTimes g k s.history, time ≤ v

/-- A step that writes no service time: an entry that it makes has the time of the step. -/
theorem Latest.of_store (h : Latest s) (hservicers : ∀ w ∈ s'.servicers, w.when ≤ s'.now)
    (hnow : s.now ≤ s'.now)
    (hget : ∀ g k v, s'.store.get g k = some v → s.store.get g k = some v ∨ s.now = v)
    (hhistory : ∀ g k, serviceTimes g k s'.history = serviceTimes g k s.history) : Latest s' where
  made := hservicers
  written g k time htime := by
    rw [hhistory] at htime
    exact (h.written g k time htime).trans hnow
  get g k v hv time htime := by
    rw [hhistory] at htime
    obtain hv | rfl := hget g k v hv
    · exact h.get g k v hv time htime
    · exact h.written g k time htime

theorem Latest.step (h : Latest s) (hok : EmittedInOrder s a) (hst : s.step a = some s') :
    Latest s' := by
  cases a with
  | bind g k timeout =>
    obtain rfl := Option.some.inj hst
    refine h.of_store h.made le_rfl (fun g' k' v hv => ?_) fun g k => rfl
    replace hv : (s.store.init g s.now k).get g' k' = some v := hv
    rw [DataStore.get_init] at hv
    split_ifs at hv with hm
    · obtain ⟨rfl, rfl⟩ := hm
      cases hget : s.store.get g' k' with
      | none => exact .inr (by simpa [hget] using hv)
      | some v' => exact .inl (by simpa [hget] using hv)
    · exact .inl hv
  | serviceWatchdog g k =>
    obtain rfl := Option.some.inj hst
    refine h.of_store (fun w hw => ?_) le_rfl (fun g k v hv => .inl hv) fun g k => rfl
    obtain hw | hw := List.mem_append.mp hw
    · exact h.made w hw
    · rw [List.mem_singleton.mp hw]
  | service j =>
    obtain ⟨w, hw, ⟨-, rfl⟩ | ⟨store, hstore, rfl⟩⟩ := step_service hst
    · exact h.of_store h.made le_rfl (fun g k v hv => .inl hv) fun g k => rfl
    · have hlatest : ∀ time ∈ serviceTimes w.group w.data s.history, time ≤ w.when := hok w hw
      refine ⟨h.made, fun g' k' time htime => ?_, fun g' k' v hv time htime => ?_⟩
      · rw [serviceTimes] at htime
        split_ifs at htime
        · obtain rfl | htime := List.mem_cons.mp htime
          · exact h.made w (List.mem_of_getElem? hw)
          · exact h.written g' k' time htime
        · exact h.written g' k' time htime
      · replace hv : store.get g' k' = some v := hv
        rw [DataStore.get_service hstore] at hv
        rw [serviceTimes] at htime
        by_cases hm : g' = w.group ∧ k' = w.data
        · obtain ⟨rfl, rfl⟩ := hm
          rw [if_pos ⟨rfl, rfl⟩] at hv htime
          obtain rfl := Option.some.inj hv
          obtain rfl | htime := List.mem_cons.mp htime
          · exact le_rfl
          · exact hlatest time htime
        · rw [if_neg hm] at hv
          rw [if_neg fun hm' => hm ⟨hm'.1.symm, hm'.2.symm⟩] at htime
          exact h.get g' k' v hv time htime
  | unbind i =>
    obtain ⟨t, ht, rfl⟩ := step_unbind hst
    refine h.of_store h.made le_rfl (fun g' k' v hv => ?_) fun g k => rfl
    replace hv : (s.store.unbind t.group t.key).get g' k' = some v := hv
    rw [DataStore.get_unbind] at hv
    split_ifs at hv
    exact .inl hv
  | run i =>
    obtain ⟨t, ht, -, ⟨-, rfl⟩ | ⟨time, -, rfl⟩⟩ := step_run hst
    · exact h
    · rw [System.chronoTask]
      split
      · exact h.of_store h.made le_rfl (fun g k v hv => .inl hv) fun g k => rfl
      · exact h.of_store h.made le_rfl (fun g k v hv => .inl hv) fun g k => rfl
  | clock d =>
    obtain rfl := Option.some.inj hst
    have hle : s.now ≤ s.now + d := by omega
    exact h.of_store (fun w hw => (h.made w hw).trans hle) hle (fun g k v hv => .inl hv)
      fun g k => rfl

/-- A check fires only when the timeout has elapsed since all services. -/
theorem served_step (h : Latest s) (hs : Served s.history) (hst : s.step a = some s') :
    Served s'.history := by
  cases a with
  | bind g k timeout =>
    obtain rfl := Option.some.inj hst
    exact hs
  | serviceWatchdog g k =>
    obtain rfl := Option.some.inj hst
    exact hs
  | service j =>
    obtain ⟨w, -, ⟨-, rfl⟩ | ⟨store, -, rfl⟩⟩ := step_service hst
    · exact hs
    · exact hs
  | unbind i =>
    obtain ⟨t, ht, rfl⟩ := step_unbind hst
    exact hs
  | run i =>
    obtain ⟨t, ht, -, ⟨-, rfl⟩ | ⟨time, htime, rfl⟩⟩ := step_run hst
    · exact hs
    · rw [System.chronoTask]
      split
      · next hlate =>
        refine ⟨fun τ hτ => ?_, hs⟩
        have hle := h.get _ _ time htime τ hτ
        show τ + t.timeout ≤ s.now
        omega
      · exact hs
  | clock d =>
    obtain rfl := Option.some.inj hst
    exact hs

/-- **Servicers that are emitted in the order in which they were made**: no watchdog fires before
its timeout has elapsed since each service. -/
theorem served_of_reaches {now : ℤ} (h : Reaches step EmittedInOrder (start now) s) :
    Served s.history := by
  refine (h.invariant (P := fun s => Latest s ∧ Served s.history) ⟨⟨?_, ?_, ?_⟩, trivial⟩
    fun x a y hx hok hst => ⟨hx.1.step hok hst, served_step hx.1 hx.2 hst⟩).2
  · exact fun w hw => absurd hw List.not_mem_nil
  · exact fun g k time htime => absurd htime List.not_mem_nil
  · exact fun g k v hv => absurd (DataStore.get_empty.symm.trans hv) nofun

end System

end Watchdog
end Dsl
end NUClear
