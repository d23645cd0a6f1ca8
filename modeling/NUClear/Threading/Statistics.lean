import NUClear.Foundation.Reachability
import Mathlib.Logic.Function.Basic

/-!
# The statistics of a task

A task has statistics, and so the `ReactionEvent`s and the `ReactionStatistics` about it are
emitted, unless its reaction has `emit_stats` cleared (it is triggered by these messages) or the
task that is current when it is made has none.  So what is caused by a reaction without statistics
has none either, as long as the task that causes it is the current one.  It is not for a message
that is emitted with a delay: the chrono controller emits it, and its own task is current.

The threads are independent: each has the stack of the tasks that it runs, one inside another, and
what they do and which reactions a message triggers is free.

* `makeStatistics`: the rule of the code.
* `step`: a task is made, run and finished; a message is deferred, and emitted later.
* `Keeps`: the condition on a step.  A reaction loses its statistics before it causes anything, and
  a message that a suppressed task has deferred makes no task with statistics.
* `not_suppressed_of_reaches`: then no event is emitted for a task with a reaction without
  statistics in its chain of causes.

## The proof

* `Suppressed`: the property of a task, by the reactions of its causes.  The chain is kept with the
  task, as a history.
* `SuppressedQuiet`: the invariant.  A suppressed task has no statistics, and an event is one of a
  task with statistics; all tasks on the stacks were made.
* `suppressed_newTask`: a task is suppressed by its reaction, or by the task that causes it;
  `quiet_newTask` says that it has no statistics then, when that task is the current one.
* `suppressed_deferred`: a delayed emit breaks the chain.
-/

namespace NUClear
namespace Threading
namespace Statistics

open Foundation

universe u v

/-! ## Tasks -/

/-- A `ReactionTask`: its reaction, whether it has statistics, and as a history the reactions that
have led to it. -/
structure Task (ρ : Type u) where
  parent : Option ρ
  /-- `CallbackGenerator` made it, and its callback emits its events. -/
  generated : Bool
  statistics : Bool
  /-- Its reaction, and the reactions of the tasks in its chain of causes. -/
  causes : List ρ
  deriving DecidableEq, Repr

/-- What a thread does: the frames of its stack, one inside another. -/
inductive Frame (ρ : Type u) where
  /-- It runs a task. -/
  | task (t : Task ρ)
  /-- In a task of the chrono controller it emits a message that was emitted with a delay in
  `emitter`. -/
  | deferred (t : Task ρ) (emitter : Option (Task ρ))

/-- `current_task`: the task that the thread is running, also while it emits a deferred message. -/
def Frame.current {ρ : Type u} : Frame ρ → Task ρ
  | .task t => t
  | .deferred t _ => t

/-- The task whose emit it is: for a deferred message that is the one which deferred it. -/
def Frame.cause {ρ : Type u} : Frame ρ → Option (Task ρ)
  | .task t => some t
  | .deferred _ emitter => emitter

/-- The task that has deferred the message that is emitted, if it is one. -/
def Frame.emitter {ρ : Type u} : Frame ρ → Option (Task ρ)
  | .task _ => none
  | .deferred _ emitter => emitter

/-- The reactions, the tasks and the threads.  `made` and `events` are histories: the tasks that
were made, and those that a `ReactionEvent` or `ReactionStatistics` was emitted for. -/
structure State (ι : Type v) (ρ : Type u) where
  emitStats : ρ → Bool
  queued : List (Task ρ)
  delayed : List (Option (Task ρ))
  stack : ι → List (Frame ρ)
  made : List (Task ρ)
  events : List (Task ρ)

/-- What a thread does next; which reactions a message triggers, and which tasks a thread takes, is
free. -/
inductive Action (ι : Type v) (ρ : Type u) where
  /-- `TypeBind::bind`, for a type with this `EmitStats`. -/
  | bind (r : ρ) (stats : Bool)
  /-- `Reaction::get_task`, with its precondition met and its data there or not. -/
  | getTask (i : ι) (r : ρ) (runs : Bool)
  /-- A task that emits no event: the emitter of `emit::Initialise`, and the tasks that submit the
  idle reactions and the `Always` reactions. -/
  | makeTask (i : ι) (parent : Option ρ)
  | run (i : ι) (k : Nat)
  | finish (i : ι)
  /-- `emit::Delay`. -/
  | delay (i : ι)
  /-- The chrono controller calls the task of a delayed message, and is back from it. -/
  | fire (i : ι) (k : Nat)
  | fired (i : ι)

section

variable {ι : Type v} {ρ : Type u}

/-- `ReactionTask::make_statistics`: none if the reaction has `emit_stats` cleared, or if the
current task has none. -/
def makeStatistics (emitStats : ρ → Bool) (parent : Option ρ) (current : Option (Task ρ)) : Bool :=
  !(parent.any (fun r => !emitStats r) || current.any fun t => !t.statistics)

/-- A new task, made by a thread: its statistics depend on the current task, its causes on the task
whose emit it is. -/
def State.newTask (s : State ι ρ) (i : ι) (parent : Option ρ) (generated : Bool) : Task ρ :=
  { parent, generated
    statistics := makeStatistics s.emitStats parent ((s.stack i).head?.map Frame.current)
    causes := parent.toList ++ (((s.stack i).head?.bind Frame.cause).map Task.causes).getD [] }

/-- A `ReactionEvent` for the task, if it has statistics and comes from a callback generator. -/
def State.emitEvent (s : State ι ρ) (t : Task ρ) : State ι ρ :=
  if t.statistics && t.generated then { s with events := t :: s.events } else s

/-- At the start, with the reactions as they are constructed: `emit_stats` is set. -/
def init : State ι ρ := ⟨fun _ => true, [], [], fun _ => [], [], []⟩

variable [DecidableEq ι] [DecidableEq ρ]

/-- The stack of a thread. -/
def State.setStack (s : State ι ρ) (i : ι) (fs : List (Frame ρ)) : State ι ρ :=
  { s with stack := Function.update s.stack i fs }

/-- One step; `chrono` is the reaction of the chrono controller. -/
def step (chrono : ρ) (s : State ι ρ) : Action ι ρ → Option (State ι ρ)
  | .bind r stats =>
      some { s with emitStats := Function.update s.emitStats r (s.emitStats r && stats) }
  | .getTask i r runs =>
      let t := s.newTask i (some r) true
      let s := { s with made := t :: s.made }
      some ({ s with queued := if runs then t :: s.queued else s.queued }.emitEvent t)
  | .makeTask i parent =>
      match s.stack i with
      | .deferred _ _ :: _ => none
      | _ =>
        let t := s.newTask i parent false
        let s := { s with made := t :: s.made }
        some { s with queued := t :: s.queued }
  | .run i k =>
      s.queued[k]?.map fun t =>
        ({ s with queued := s.queued.eraseIdx k }.setStack i (.task t :: s.stack i)).emitEvent t
  | .finish i =>
      match s.stack i with
      | .task t :: rest => some ((s.emitEvent t).setStack i rest)
      | _ => none
  | .delay i =>
      match s.stack i with
      | .deferred _ _ :: _ => none
      | fs => some { s with delayed := fs.head?.map Frame.current :: s.delayed }
  | .fire i k =>
      match s.stack i, s.delayed[k]? with
      | .task t :: rest, some emitter =>
          if t.parent = some chrono then
            some ({ s with delayed := s.delayed.eraseIdx k }.setStack i
              (.deferred t emitter :: .task t :: rest))
          else none
      | _, _ => none
  | .fired i =>
      match s.stack i with
      | .deferred _ _ :: rest => some (s.setStack i rest)
      | _ => none

/-! ## The property and its condition -/

/-- In the chain of causes of the task is a reaction without statistics: it was caused by what
observes the events. -/
def State.Suppressed (s : State ι ρ) (t : Task ρ) : Prop := ∃ r ∈ t.causes, s.emitStats r = false

/-- **The condition** on a step.  A reaction loses its statistics before it causes a task with
statistics; and a message that a suppressed task has deferred makes no task with statistics: the
task of the chrono controller or the reaction has none. -/
def Keeps (s : State ι ρ) : Action ι ρ → Prop
  | .bind r stats => stats = true ∨ ∀ t ∈ s.made, r ∈ t.causes → t.statistics = false
  | .getTask i r _ => ∀ f ∈ (s.stack i).head?, ∀ emitter ∈ f.emitter, s.Suppressed emitter →
      f.current.statistics = false ∨ s.emitStats r = false
  | _ => True

instance decidableSuppressed (s : State ι ρ) (t : Task ρ) : Decidable (s.Suppressed t) :=
  inferInstanceAs (Decidable (∃ r ∈ t.causes, s.emitStats r = false))

instance decidableKeeps (s : State ι ρ) : (a : Action ι ρ) → Decidable (Keeps s a)
  | .bind r stats =>
      inferInstanceAs (Decidable (stats = true ∨ ∀ t ∈ s.made, r ∈ t.causes → t.statistics = false))
  | .getTask i r _ =>
      inferInstanceAs (Decidable (∀ f ∈ (s.stack i).head?, ∀ emitter ∈ f.emitter,
        s.Suppressed emitter → f.current.statistics = false ∨ s.emitStats r = false))
  | .makeTask _ _ | .run _ _ | .finish _ | .delay _ | .fire _ _ | .fired _ => .isTrue trivial

/-! ## The invariant -/

section

omit [DecidableEq ι] [DecidableEq ρ]

@[simp] theorem emitStats_emitEvent (s : State ι ρ) (t : Task ρ) :
    (s.emitEvent t).emitStats = s.emitStats := by
  unfold State.emitEvent
  split <;> rfl

@[simp] theorem queued_emitEvent (s : State ι ρ) (t : Task ρ) :
    (s.emitEvent t).queued = s.queued := by
  unfold State.emitEvent
  split <;> rfl

@[simp] theorem delayed_emitEvent (s : State ι ρ) (t : Task ρ) :
    (s.emitEvent t).delayed = s.delayed := by
  unfold State.emitEvent
  split <;> rfl

@[simp] theorem stack_emitEvent (s : State ι ρ) (t : Task ρ) : (s.emitEvent t).stack = s.stack := by
  unfold State.emitEvent
  split <;> rfl

@[simp] theorem made_emitEvent (s : State ι ρ) (t : Task ρ) : (s.emitEvent t).made = s.made := by
  unfold State.emitEvent
  split <;> rfl

/-- The task of the event has statistics. -/
theorem mem_events_emitEvent {s : State ι ρ} {t t' : Task ρ} (h : t' ∈ (s.emitEvent t).events) :
    t' ∈ s.events ∨ t' = t ∧ t.statistics = true := by
  unfold State.emitEvent at h
  split at h
  · next ht =>
    rw [Bool.and_eq_true] at ht
    obtain rfl | h := List.mem_cons.mp h
    · exact .inr ⟨rfl, ht.1⟩
    · exact .inl h
  · exact .inl h

/-- The tasks of a frame were made, the current one and the one whose emit it is. -/
def Frame.Within (l : List (Task ρ)) (f : Frame ρ) : Prop := f.current ∈ l ∧ ∀ t ∈ f.cause, t ∈ l

theorem Frame.Within.mono {l l' : List (Task ρ)} (h : l ⊆ l') {f : Frame ρ} (hf : f.Within l) :
    f.Within l' :=
  ⟨h hf.1, fun t ht => h (hf.2 t ht)⟩

theorem Frame.within_task {l : List (Task ρ)} {t : Task ρ} (ht : t ∈ l) :
    (Frame.task t).Within l :=
  ⟨ht, fun _ h => Option.some.inj h ▸ ht⟩

/-- The invariant: a suppressed task has no statistics, and an event is one of a task with
statistics. -/
structure SuppressedQuiet (s : State ι ρ) : Prop where
  quiet : ∀ t ∈ s.made, s.Suppressed t → t.statistics = false
  events : ∀ t ∈ s.events, t ∈ s.made ∧ t.statistics = true
  queued : s.queued ⊆ s.made
  delayed : ∀ t, some t ∈ s.delayed → t ∈ s.made
  stack : ∀ i, ∀ f ∈ s.stack i, f.Within s.made

theorem suppressedQuiet_init : SuppressedQuiet (init : State ι ρ) where
  quiet _ h := absurd h List.not_mem_nil
  events _ h := absurd h List.not_mem_nil
  queued _ h := absurd h List.not_mem_nil
  delayed _ h := absurd h List.not_mem_nil
  stack _ _ h := absurd h List.not_mem_nil

theorem SuppressedQuiet.not_suppressed {s : State ι ρ} (hs : SuppressedQuiet s) {t : Task ρ}
    (ht : t ∈ s.events) :
    ¬ s.Suppressed t := by
  intro hsup
  obtain ⟨hmade, hstats⟩ := hs.events t ht
  exact Bool.false_ne_true ((hs.quiet t hmade hsup).symm.trans hstats)

theorem SuppressedQuiet.emitEvent {s : State ι ρ} (hs : SuppressedQuiet s) {t : Task ρ}
    (ht : t ∈ s.made) :
    SuppressedQuiet (s.emitEvent t) where
  quiet t' ht' hsup := by
    rw [made_emitEvent] at ht'
    rw [State.Suppressed, emitStats_emitEvent] at hsup
    exact hs.quiet t' ht' hsup
  events t' ht' := by
    rw [made_emitEvent]
    obtain h | ⟨rfl, hstats⟩ := mem_events_emitEvent ht'
    · exact hs.events t' h
    · exact ⟨ht, hstats⟩
  queued := by
    rw [queued_emitEvent, made_emitEvent]
    exact hs.queued
  delayed := by
    rw [delayed_emitEvent, made_emitEvent]
    exact hs.delayed
  stack := by
    rw [stack_emitEvent, made_emitEvent]
    exact hs.stack

/-- A new task without statistics if it is suppressed keeps the invariant. -/
theorem SuppressedQuiet.make {s : State ι ρ} (hs : SuppressedQuiet s) {t : Task ρ}
    (ht : s.Suppressed t → t.statistics = false) :
    SuppressedQuiet { s with made := t :: s.made } where
  quiet t' ht' hsup := by
    obtain rfl | ht' := List.mem_cons.mp ht'
    · exact ht hsup
    · exact hs.quiet t' ht' hsup
  events t' ht' := (hs.events t' ht').imp_left (List.mem_cons_of_mem t)
  queued _ ht' := List.mem_cons_of_mem t (hs.queued ht')
  delayed t' ht' := List.mem_cons_of_mem t (hs.delayed t' ht')
  stack i f hf := (hs.stack i f hf).mono (List.subset_cons_self t s.made)

theorem SuppressedQuiet.setQueued {s : State ι ρ} (hs : SuppressedQuiet s) {l : List (Task ρ)}
    (h : l ⊆ s.made) :
    SuppressedQuiet { s with queued := l } :=
  { hs with queued := h }

theorem SuppressedQuiet.setDelayed {s : State ι ρ} (hs : SuppressedQuiet s)
    {l : List (Option (Task ρ))} (h : ∀ t, some t ∈ l → t ∈ s.made) :
    SuppressedQuiet { s with delayed := l } :=
  { hs with delayed := h }

end

omit [DecidableEq ρ] in
theorem SuppressedQuiet.setStack {s : State ι ρ} (hs : SuppressedQuiet s) {i : ι}
    {fs : List (Frame ρ)} (h : ∀ f ∈ fs, f.Within s.made) : SuppressedQuiet (s.setStack i fs) := by
  refine { hs with stack := fun j f hf => ?_ }
  have hf : f ∈ Function.update s.stack i fs j := hf
  by_cases hj : j = i
  · rw [hj, Function.update_self] at hf
    exact h f hf
  · rw [Function.update_of_ne hj] at hf
    exact hs.stack j f hf

/-! ## New tasks -/

section

omit [DecidableEq ι] [DecidableEq ρ]

/-- A task has no statistics if its reaction has none, or the current task. -/
theorem makeStatistics_eq_false {emitStats : ρ → Bool} {parent : Option ρ}
    {current : Option (Task ρ)} :
    makeStatistics emitStats parent current = false ↔
      (∃ r ∈ parent, emitStats r = false) ∨ ∃ t ∈ current, t.statistics = false := by
  cases parent <;> cases current <;> simp [makeStatistics, imp_iff_not_or]

/-- A task is suppressed by its reaction, or by the task that causes it: so by one of the two that
its causes come from. -/
theorem suppressed_newTask {s : State ι ρ} {i : ι} {parent : Option ρ} {generated : Bool}
    (h : s.Suppressed (s.newTask i parent generated)) :
    (∃ r ∈ parent, s.emitStats r = false) ∨
      ∃ f ∈ (s.stack i).head?, ∃ t ∈ f.cause, s.Suppressed t := by
  obtain ⟨r, hr, hstats⟩ := h
  obtain hr | hr := List.mem_append.mp hr
  · exact .inl ⟨r, by simpa using hr, hstats⟩
  · cases hhead : (s.stack i).head? with
    | none => simp [hhead] at hr
    | some f =>
      cases hcause : f.cause with
      | none => simp [hhead, hcause] at hr
      | some t =>
        simp only [hhead, Option.bind_some, hcause, Option.map_some, Option.getD_some] at hr
        exact .inr ⟨f, rfl, t, hcause, r, hr, hstats⟩

/-- **What a suppressed task causes has no statistics**, as long as it is the current task. -/
theorem SuppressedQuiet.quiet_newTask {s : State ι ρ} (hs : SuppressedQuiet s) {i : ι}
    (parent : Option ρ) (generated : Bool)
    (h : ∀ f ∈ (s.stack i).head?, ∀ emitter ∈ f.emitter, s.Suppressed emitter →
      f.current.statistics = false ∨ ∃ r ∈ parent, s.emitStats r = false)
    (hsup : s.Suppressed (s.newTask i parent generated)) :
    (s.newTask i parent generated).statistics = false := by
  refine makeStatistics_eq_false.mpr ?_
  obtain hparent | ⟨f, hf, t, ht, htsup⟩ := suppressed_newTask hsup
  · exact .inl hparent
  · have hmem : f ∈ s.stack i := List.mem_of_mem_head? hf
    cases f with
    | task c =>
      obtain rfl : c = t := Option.some.inj ht
      refine .inr ⟨c, ?_, hs.quiet c (hs.stack i _ hmem).1 htsup⟩
      rw [Option.mem_def.mp hf]
      rfl
    | deferred c emitter =>
      obtain hquiet | hparent := h _ hf t ht htsup
      · refine .inr ⟨c, ?_, hquiet⟩
        rw [Option.mem_def.mp hf]
        rfl
      · exact .inl hparent

end

/-! ## Runs -/

theorem SuppressedQuiet.step {chrono : ρ} {s s' : State ι ρ} {a : Action ι ρ}
    (hs : SuppressedQuiet s) (hkeeps : Keeps s a) (h : step chrono s a = some s') :
    SuppressedQuiet s' := by
  cases a with
  | bind r stats =>
    obtain rfl := Option.some.inj h
    refine { hs with quiet := fun t ht hsup => ?_ }
    obtain ⟨r', hr', hstats⟩ := hsup
    have hstats : Function.update s.emitStats r (s.emitStats r && stats) r' = false := hstats
    obtain rfl | hquiet := hkeeps
    · rw [Bool.and_true, Function.update_eq_self] at hstats
      exact hs.quiet t ht ⟨r', hr', hstats⟩
    · by_cases hr : r' = r
      · exact hquiet t ht (hr ▸ hr')
      · rw [Function.update_of_ne hr] at hstats
        exact hs.quiet t ht ⟨r', hr', hstats⟩
  | getTask i r runs =>
    obtain rfl := Option.some.inj h
    have hmade := hs.make (hs.quiet_newTask (some r) true
      fun f hf emitter hemitter hsup =>
        (hkeeps f hf emitter hemitter hsup).imp_right fun hr => ⟨r, rfl, hr⟩)
    refine (hmade.setQueued ?_).emitEvent List.mem_cons_self
    split
    · exact List.cons_subset_cons _ hs.queued
    · exact hmade.queued
  | makeTask i parent =>
    simp only [Statistics.step] at h
    split at h
    · exact absurd h (by simp)
    · next hstack =>
      obtain rfl := Option.some.inj h
      have hmade := hs.make (hs.quiet_newTask parent false
        fun f hf emitter hemitter => by
          obtain ⟨rest, hrest⟩ := List.head?_eq_some_iff.mp hf
          cases f with
          | task t => exact absurd hemitter (Option.not_mem_none emitter)
          | deferred t e => exact absurd hrest (hstack _ _ _))
      exact hmade.setQueued (List.cons_subset_cons _ hs.queued)
  | run i k =>
    obtain ⟨t, hk, rfl⟩ := Option.map_eq_some_iff.mp h
    have ht : t ∈ s.made := hs.queued (List.mem_of_getElem? hk)
    have hqueued : s.queued.eraseIdx k ⊆ s.made :=
      fun t' ht' => hs.queued (List.mem_of_mem_eraseIdx ht')
    refine ((hs.setQueued hqueued).setStack fun f hf => ?_).emitEvent ht
    obtain rfl | hf := List.mem_cons.mp hf
    · exact Frame.within_task ht
    · exact hs.stack i f hf
  | finish i =>
    simp only [Statistics.step] at h
    split at h
    · next t rest hstack =>
      obtain rfl := Option.some.inj h
      have ht := hs.stack i (.task t) (by rw [hstack]; exact List.mem_cons_self)
      refine (hs.emitEvent ht.1).setStack fun f hf => ?_
      rw [made_emitEvent]
      exact hs.stack i f (by rw [hstack]; exact List.mem_cons_of_mem _ hf)
    · exact absurd h (by simp)
  | delay i =>
    simp only [Statistics.step] at h
    split at h
    · exact absurd h (by simp)
    · obtain rfl := Option.some.inj h
      refine hs.setDelayed fun t ht => ?_
      obtain hhead | ht := List.mem_cons.mp ht
      · obtain ⟨f, hf, rfl⟩ := Option.map_eq_some_iff.mp hhead.symm
        exact (hs.stack i f (List.mem_of_mem_head? hf)).1
      · exact hs.delayed t ht
  | fire i k =>
    simp only [Statistics.step] at h
    split at h
    · next t rest emitter hstack hk =>
      obtain ⟨-, hs'⟩ := Option.ite_none_right_eq_some.mp h
      obtain rfl := Option.some.inj hs'
      have hdelayed (t' : Task ρ) (ht' : some t' ∈ s.delayed.eraseIdx k) : t' ∈ s.made :=
        hs.delayed t' (List.mem_of_mem_eraseIdx ht')
      refine (hs.setDelayed hdelayed).setStack fun f hf => ?_
      obtain rfl | hf := List.mem_cons.mp hf
      · refine ⟨(hs.stack i (.task t) (by rw [hstack]; exact List.mem_cons_self)).1, ?_⟩
        rintro t' rfl
        exact hs.delayed t' (List.mem_of_getElem? hk)
      · exact hs.stack i f (by rw [hstack]; exact hf)
    · exact absurd h (by simp)
  | fired i =>
    simp only [Statistics.step] at h
    split at h
    · next t emitter rest hstack =>
      obtain rfl := Option.some.inj h
      exact hs.setStack fun f hf => hs.stack i f (by rw [hstack]; exact List.mem_cons_of_mem _ hf)
    · exact absurd h (by simp)

/-- **No event is emitted for a task with a reaction without statistics in its chain of causes**, as
long as every step meets the condition. -/
theorem not_suppressed_of_reaches {chrono : ρ} {s : State ι ρ}
    (h : Reaches (step chrono) Keeps init s) {t : Task ρ} (ht : t ∈ s.events) : ¬ s.Suppressed t :=
  (h.invariant suppressedQuiet_init fun _ _ _ hs hkeeps hst => hs.step hkeeps hst).not_suppressed ht

end

/-- The chrono controller, a reaction that observes the events, and another. -/
inductive Bound where
  | chrono
  | observer
  | listener
  deriving DecidableEq, Repr

/-- The chrono controller runs in the thread `true`, and the event that says so is observed in
`false`. -/
def observed : List (Action Bool Bound) :=
  [.bind .observer false, .getTask false .chrono true, .run true 0, .getTask true .observer true,
    .run false 0]

/-- The observer emits to the listener, and a task that is not suppressed emits to it with a
delay. -/
theorem not_suppressed_of_reaches_observed :
    ∃ s t, Reaches (step .chrono) Keeps (init : State Bool Bound) s ∧
      t ∈ s.events ∧ t.causes = [.listener, .listener] ∧ ¬ s.Suppressed t := by
  let run := observed ++ [.getTask false .listener true, .finish false, .run false 0, .finish false,
    .getTask false .listener true, .run false 0, .delay false, .fire true 0,
    .getTask true .listener true]
  have hrun : (exec (step .chrono) init run).any
      (fun s => execOk (step .chrono) Keeps init run ∧
        (s.events.any fun t => t.causes = [.listener, .listener])) = true := by decide +kernel
  obtain ⟨s, hs, hlast⟩ := (Option.any_eq_true _ _).mp hrun
  obtain ⟨hok, hevent⟩ := of_decide_eq_true hlast
  obtain ⟨t, ht, hcauses⟩ := List.any_eq_true.mp hevent
  have hreach := reaches_of_exec hs hok
  exact ⟨s, t, hreach, ht, of_decide_eq_true hcauses, not_suppressed_of_reaches hreach ht⟩

/-- The observer emits to the listener with a delay; the listener is not run by the observer then,
but in a task of the chrono controller, and its events are emitted. -/
theorem suppressed_deferred :
    ∃ s t, Reaches (step .chrono) Always (init : State Bool Bound) s ∧
      t ∈ s.events ∧ s.Suppressed t := by
  let run := observed ++ [.delay false, .finish false, .fire true 0, .getTask true .listener true]
  have hrun : (exec (step .chrono) init run).any
      (fun s => s.events.any fun t => s.Suppressed t) = true := by decide +kernel
  obtain ⟨s, hs, hevent⟩ := (Option.any_eq_true _ _).mp hrun
  obtain ⟨t, ht, hsup⟩ := List.any_eq_true.mp hevent
  exact ⟨s, t, reaches_always_of_exec hs, ht, of_decide_eq_true hsup⟩

end Statistics
end Threading
end NUClear
