import NUClear.Foundation.Reachability
import Mathlib.Logic.Function.Basic

/-!
# A controller that meets its own mutex

`ChronoController`, `IOController` and `NetworkController` submit the reactions that are bound to
them with their mutex held.  A task whose reaction says `Inline::ALWAYS` is then run by the same
thread, inside the critical section, and so is everything that it emits inline; and to bind or
unbind a timer, an IO event or a network message, to emit with a delay, and to finish an IO reaction
is to emit inline to the handlers of a controller, which lock its mutex.

The model is one thread, with all that it still has to do.  What depends on the other threads and on
the data is decided by the environment: which reactions are bound to a type, whether a task is made
and gets its groups, what a callback does, and which timers, IO events and messages there are.

* `Reaction`, `Program`: the reactions, with the runs that a callback may have.
* `Instr`, `expand`: what the thread has to do next, and what that leads to.  `step` runs one
  instruction; to lock a mutex that the thread holds is the deadlock (`Reenters`).
* `RunsUnder`: the reactions that are run with the mutex of a controller held, by recursion: the
  controller submits them, or they are emitted to by one that is run so.
* `Apart`: the condition on a program.  None of these operates on that controller.

## The proof

`Orderly` says that wherever the mutex is held, what comes next is allowed, and `Balanced` that a
stretch of instructions leaves the mutex as it found it.  What an instruction leads to is balanced
(`balanced_expand`), so the stack of a thread stays in order, and ends with the mutex free
(`EndsFree`).

* `not_reenters_of_reaches`: under the condition no thread locks a mutex that it holds.
* `reenters_defers`: a timer that emits with a delay and always runs inline.
-/

namespace NUClear
namespace Extension
namespace Reentry

open Foundation

universe u v

/-! ## Programs -/

/-- The controllers, for their mutexes `ChronoController::mutex`, `IOController::tasks_mutex` and
`NetworkController::reaction_mutex`. -/
inductive Controller where
  | chrono
  | io
  | network
  deriving DecidableEq, Repr

/-- `util::Inline`: whether a task is run inline always, never, or when the emit asks for it. -/
inductive Inline where
  | always
  | never
  | neutral
  deriving DecidableEq, Repr

/-- What makes a task of a reaction: something that is bound to a controller, a message, or the
statistics about other tasks. -/
inductive Trigger (τ : Type v) where
  /-- A timer, an IO event or a message of the network. -/
  | bound (c : Controller)
  | message (t : τ)
  /-- `ReactionEvent` or `ReactionStatistics`. -/
  | statistics
  deriving DecidableEq, Repr

/-- What a callback does, as far as a controller may be entered by it.  A handler of a controller
runs inline for all but the local and inline emits of messages. -/
inductive Command (τ : Type v) where
  | emitLocal (t : τ)
  | emitInline (t : τ)
  | emitDelay (t : τ)
  /-- `bind` of `Every`, `Watchdog`, `IO` or `Network`. -/
  | bind (c : Controller)
  | unbind (c : Controller)
  /-- `emit::Inline` of a `TimeTravel` or of a `Shutdown`, to the chrono controller. -/
  | steer
  deriving DecidableEq, Repr

/-- A reaction, with what its callback may do in one run. -/
structure Reaction (τ : Type v) where
  triggers : List (Trigger τ)
  inline : Inline
  traces : List (Command τ) → Bool

/-- The reactions that there may be, and the types that are emitted with a delay. -/
structure Program (ρ : Type u) (τ : Type v) where
  reaction : ρ → Reaction τ
  delayed : τ → Bool

/-! ## The thread -/

/-- What the thread still has to do, one after the other.  An inline emit puts what it leads to in
front of the rest. -/
inductive Instr (ρ : Type u) (τ : Type v) where
  | lock (c : Controller)
  | unlock (c : Controller)
  /-- `emit`, with `request_inline` for `emit::Inline`. -/
  | emit (request : Bool) (t : τ)
  /-- A `ReactionEvent` or the `ReactionStatistics`, if the task has any. -/
  | event
  /-- `powerplant.submit(reaction->get_task(request_inline))`. -/
  | submit (r : ρ) (request : Bool)
  | run (r : ρ)
  /-- `emit::Inline` of a `ChronoTask`, an `IOConfiguration`, a `NetworkListen`, or of an
  `Unbind`. -/
  | operate (c : Controller)
  /-- `emit::Inline` of an `IOFinished`. -/
  | finish
  /-- What a controller submits with its mutex held. -/
  | fire (c : Controller)
  /-- `network.process`. -/
  | process

/-- What a controller submits while it holds its mutex. -/
inductive Fired (ρ : Type u) (τ : Type v) where
  | reaction (r : ρ)
  /-- A message whose delay is over. -/
  | message (t : τ)

/-- What `network.process` calls: the callbacks for a packet, for the next event and for a peer. -/
inductive Part (τ : Type v) where
  | packet
  /-- The next event is emitted with a delay. -/
  | nextEvent
  /-- A join or a leave is emitted. -/
  | join (t : τ)

/-- What a thread begins with when it has nothing left to do. -/
inductive Work (ρ : Type u) where
  /-- A task from a pool. -/
  | task (r : ρ)
  /-- A round of the chrono controller, or the events of a poll. -/
  | round (c : Controller)
  /-- A handler of a controller, from a pool. -/
  | handler (c : Controller)
  /-- The controller of the network, by an IO reaction or by a message. -/
  | network (io : Bool)

/-- What the environment decides at a step; all that the program allows is possible. -/
inductive Choice (ρ : Type u) (τ : Type v) where
  | go
  /-- The reactions that are bound to a type. -/
  | bound (l : List ρ)
  /-- Whether the task is made and gets its groups. -/
  | task (free : Bool)
  /-- What a callback does, and whether it returns. -/
  | trace (l : List (Command τ)) (returns : Bool)
  | fired (l : List (Fired ρ τ))
  | parts (l : List (Part τ))
  | start (w : Work ρ)

/-- The thread: the mutexes of controllers that it holds, and what it still has to do. -/
structure Thread (ρ : Type u) (τ : Type v) where
  held : Controller → Bool
  todo : List (Instr ρ τ)

/-- A thread that does nothing, and holds no mutex. -/
def Thread.idle {ρ : Type u} {τ : Type v} : Thread ρ τ := ⟨fun _ => false, []⟩

/-- The thread locks a mutex that it holds already: for a `std::mutex` this never ends. -/
def Thread.Reenters {ρ : Type u} {τ : Type v} (s : Thread ρ τ) (c : Controller) : Prop :=
  s.held c = true ∧ ∃ rest, s.todo = .lock c :: rest

section

variable {ρ : Type u} {τ : Type v}

/-- What an inline emit to the handler of a controller leads to: the events of its task, and the
handler with the mutex held. -/
def handler (c : Controller) (body : List (Instr ρ τ)) : List (Instr ρ τ) :=
  .event :: .event :: .lock c :: (body ++ [.unlock c, .event, .event])

/-- A command of a callback: an emit of a message, or the operation of a controller by an inline
emit. -/
def Command.instr : Command τ → Instr ρ τ
  | .emitLocal t => .emit false t
  | .emitInline t => .emit true t
  | .emitDelay _ => .operate .chrono
  | .bind c => .operate c
  | .unbind c => .operate c
  | .steer => .operate .chrono

def Fired.instr : Fired ρ τ → Instr ρ τ
  | .reaction r => .submit r false
  | .message t => .emit false t

def Part.instrs : Part τ → List (Instr ρ τ)
  | .packet => [.lock .network, .fire .network, .unlock .network]
  | .nextEvent => [.operate .chrono]
  | .join t => [.emit false t]

def Work.instrs : Work ρ → List (Instr ρ τ)
  | .task r => [.run r]
  | .round c => [.lock c, .fire c, .unlock c]
  | .handler c => [.event, .lock c, .unlock c, .event, .event]
  | .network io => [.event, .process] ++ (if io then [.finish] else []) ++ [.event, .event]

variable [DecidableEq τ] (P : Program ρ τ)

/-- `run_inline`: the reaction decides, and where it is neutral the emit does. -/
def runInline (r : ρ) (request : Bool) : Bool :=
  match (P.reaction r).inline with
  | .always => true
  | .never => false
  | .neutral => request

/-- The reaction is triggered so. -/
def triggeredBy (x : Trigger τ) (r : ρ) : Bool := (P.reaction r).triggers.contains x

/-- The controller may submit this: a reaction that is bound to it, or for the chrono controller a
message whose delay is over. -/
def mayFire (c : Controller) : Fired ρ τ → Bool
  | .reaction r => triggeredBy P (.bound c) r
  | .message t => c = .chrono ∧ P.delayed t = true

/-- What the next instruction leads to, by what the environment decides.  A submit runs the task at
once if it is inline and gets its groups; otherwise it goes to a pool. -/
def expand (i : Instr ρ τ) (x : Choice ρ τ) : Option (List (Instr ρ τ)) :=
  match i, x with
  | .emit request t, .bound l =>
      if l.all (triggeredBy P (.message t)) then some (l.map fun r => .submit r request) else none
  | .event, .bound l =>
      if l.all (triggeredBy P .statistics) then some (l.map fun r => .submit r false) else none
  | .submit r request, .task free =>
      some (.event :: if runInline P r request && free then [.run r] else [])
  | .run r, .trace l returns =>
      if (P.reaction r).traces l then
        some (.event :: (l.map Command.instr ++
          (if triggeredBy P (.bound .io) r && returns then [.finish] else []) ++ [.event, .event]))
      else none
  | .operate c, .go => some (handler c [])
  | .finish, .go => some (handler .io [.fire .io])
  | .fire c, .fired l => if l.all (mayFire P c) then some (l.map Fired.instr) else none
  | .process, .parts l => some (l.flatMap Part.instrs)
  | _, _ => none

/-- One step of the thread.  To lock a mutex that it holds is a deadlock. -/
def step (s : Thread ρ τ) (x : Choice ρ τ) : Option (Thread ρ τ) :=
  match s.todo, x with
  | [], .start w => some { s with todo := w.instrs }
  | .lock c :: rest, .go =>
      if s.held c then none else some ⟨Function.update s.held c true, rest⟩
  | .unlock c :: rest, .go => some ⟨Function.update s.held c false, rest⟩
  | i :: rest, x => (expand P i x).map fun l => { s with todo := l ++ rest }
  | _, _ => none

/-! ## The condition -/

/-- The controller may submit a task of the reaction: it is bound to the controller, or triggered by
a message that is emitted with a delay. -/
inductive FiredBy (c : Controller) (r : ρ) : Prop
  | bound (h : triggeredBy P (.bound c) r = true)
  | delayed {t : τ} (hc : c = .chrono) (ht : P.delayed t = true)
      (h : triggeredBy P (.message t) r = true)

/-- The reactions whose callback may be run by a thread that holds the mutex of the controller. -/
inductive RunsUnder (c : Controller) : ρ → Prop
  /-- The controller submits it, and it always runs inline. -/
  | fired {r : ρ} (h : FiredBy P c r) (hr : (P.reaction r).inline = .always) : RunsUnder c r
  /-- It observes the events of the tasks that the controller submits. -/
  | event {r r' : ρ} (h : FiredBy P c r') (ht : triggeredBy P .statistics r = true)
      (hr : (P.reaction r).inline = .always) : RunsUnder c r
  /-- It always runs inline, and is triggered by one that does. -/
  | emitted {r r' : ρ} {l : List (Command τ)} {t : τ} (h : RunsUnder c r')
      (hl : (P.reaction r').traces l = true) (hmem : .emitLocal t ∈ l)
      (ht : triggeredBy P (.message t) r = true) (hr : (P.reaction r).inline = .always) :
      RunsUnder c r
  | emittedInline {r r' : ρ} {l : List (Command τ)} {t : τ} (h : RunsUnder c r')
      (hl : (P.reaction r').traces l = true) (hmem : .emitInline t ∈ l)
      (ht : triggeredBy P (.message t) r = true) (hr : (P.reaction r).inline ≠ .never) :
      RunsUnder c r
  /-- An IO reaction finishes, and the IO controller submits it. -/
  | finished {r r' : ρ} {l : List (Command τ)} (h : RunsUnder c r')
      (hl : (P.reaction r').traces l = true) (hio : triggeredBy P (.bound .io) r' = true)
      (hf : FiredBy P .io r) (hr : (P.reaction r).inline = .always) : RunsUnder c r

/-- The command operates on the controller: it runs a handler that takes its mutex. -/
def Command.operatesOn (c : Controller) : Command τ → Bool
  | .emitDelay _ => c = .chrono
  | .bind c' => c = c'
  | .unbind c' => c = c'
  | .steer => c = .chrono
  | _ => false

/-- A run of the reaction operates on the controller: a command of it does, or it is an IO reaction
that finishes. -/
def OperatesOn (c : Controller) (r : ρ) : Prop :=
  ∃ l, (P.reaction r).traces l = true ∧
    ((∃ x ∈ l, x.operatesOn c = true) ∨ (c = .io ∧ triggeredBy P (.bound .io) r = true))

/-- **The condition**: no reaction that runs with the mutex of the controller held operates on
it. -/
def Apart (c : Controller) : Prop := ∀ r, RunsUnder P c r → ¬ OperatesOn P c r

/-! ## What a thread may do with the mutex held -/

/-- The controller submits a task of some reaction at all; otherwise nothing is run with its mutex
held. -/
def Submits (c : Controller) : Prop := ∃ r, FiredBy P c r

/-- What a thread that holds the mutex of the controller may have before it: nothing that locks the
mutex, and of the reactions only those that may run under it. -/
def Allowed (c : Controller) : Instr ρ τ → Prop
  | .lock c' => c' ≠ c
  | .unlock _ => True
  | .emit request t => ∀ r, triggeredBy P (.message t) r = true →
      Submits P c ∧ (runInline P r request = true → RunsUnder P c r)
  | .event => Submits P c
  | .submit r request => Submits P c ∧ (runInline P r request = true → RunsUnder P c r)
  | .run r => RunsUnder P c r
  | .operate c' => Submits P c ∧ c' ≠ c
  | .finish => Submits P c ∧ c ≠ .io ∧
      ∀ r, FiredBy P .io r → (P.reaction r).inline = .always → RunsUnder P c r
  | .fire c' => c' = c ∨ (Submits P c ∧
      ∀ r, FiredBy P c' r → (P.reaction r).inline = .always → RunsUnder P c r)
  | .process => False

/-- Whether the mutex is held after an instruction; only locking and unlocking change it. -/
def heldAfter (c : Controller) (m : Bool) : Instr ρ τ → Bool
  | .lock c' => m || c' = c
  | .unlock c' => m && c' ≠ c
  | _ => m

/-- Wherever the mutex is held, what comes next is allowed, all along what the thread has before it.
-/
def Orderly (c : Controller) : Bool → List (Instr ρ τ) → Prop
  | _, [] => True
  | m, i :: rest => (m = true → Allowed P c i) ∧ Orderly c (heldAfter c m i) rest

variable {P}

theorem RunsUnder.submits {c : Controller} {r : ρ} (h : RunsUnder P c r) : Submits P c := by
  induction h with
  | fired h _ | event h _ _ => exact ⟨_, h⟩
  | emitted _ _ _ _ _ ih | emittedInline _ _ _ _ _ ih | finished _ _ _ _ _ ih => exact ih

omit [DecidableEq τ] in
theorem always_of_runInline_false {r : ρ} (h : runInline P r false = true) :
    (P.reaction r).inline = .always := by
  cases hr : (P.reaction r).inline <;> simp_all [runInline]

omit [DecidableEq τ] in
theorem ne_never_of_runInline {r : ρ} {request : Bool} (h : runInline P r request = true) :
    (P.reaction r).inline ≠ .never := by
  intro hr
  simp [runInline, hr] at h

theorem orderly_append {c : Controller} {m : Bool} {l l' : List (Instr ρ τ)} :
    Orderly P c m (l ++ l') ↔ Orderly P c m l ∧ Orderly P c (l.foldl (heldAfter c) m) l' := by
  induction l generalizing m with
  | nil => simp [Orderly]
  | cons i l ih => simp [Orderly, ih, and_assoc]

/-- What has the mutex at its end as it was at its start, and is in order. -/
def Balanced (P : Program ρ τ) (c : Controller) (m : Bool) (l : List (Instr ρ τ)) : Prop :=
  Orderly P c m l ∧ l.foldl (heldAfter c) m = m

theorem Balanced.append {c : Controller} {m : Bool} {l l' : List (Instr ρ τ)} (h : Balanced P c m l)
    (h' : Balanced P c m l') : Balanced P c m (l ++ l') := by
  refine ⟨orderly_append.mpr ⟨h.1, ?_⟩, ?_⟩
  · rw [h.2]
    exact h'.1
  · rw [List.foldl_append, h.2, h'.2]

theorem balanced_nil {c : Controller} {m : Bool} : Balanced P c m [] := ⟨trivial, rfl⟩

theorem balanced_flatten {c : Controller} {m : Bool} {ls : List (List (Instr ρ τ))}
    (h : ∀ l ∈ ls, Balanced P c m l) : Balanced P c m ls.flatten := by
  induction ls with
  | nil => exact balanced_nil
  | cons l ls ih =>
    rw [List.flatten_cons]
    exact (h l List.mem_cons_self).append (ih fun l' hl' => h l' (List.mem_cons_of_mem _ hl'))

/-- Instructions that do not touch a mutex, each of them allowed if it is held. -/
theorem balanced_of_forall {c : Controller} {m : Bool} {l : List (Instr ρ τ)}
    (hsame : ∀ i ∈ l, heldAfter c m i = m) (hl : m = true → ∀ i ∈ l, Allowed P c i) :
    Balanced P c m l := by
  induction l with
  | nil => exact balanced_nil
  | cons i l ih =>
    rw [List.forall_mem_cons] at hsame
    obtain ⟨horder, hfold⟩ := ih hsame.2 fun hm j hj => hl hm j (List.mem_cons_of_mem _ hj)
    refine ⟨⟨fun hm => hl hm i List.mem_cons_self, ?_⟩, ?_⟩
    · rw [hsame.1]
      exact horder
    · rw [List.foldl_cons, hsame.1, hfold]

theorem balanced_singleton {c : Controller} {m : Bool} {i : Instr ρ τ} (hsame : heldAfter c m i = m)
    (h : m = true → Allowed P c i) : Balanced P c m [i] :=
  balanced_of_forall (List.forall_mem_singleton.mpr hsame) fun hm =>
    List.forall_mem_singleton.mpr (h hm)

/-- A critical section.  Of the controller itself it is not entered with the mutex held. -/
theorem balanced_section {c : Controller} {m : Bool} (c' : Controller) (body : List (Instr ρ τ))
    (hm : m = true → c' ≠ c) (hbody : Balanced P c (m || c' = c) body) :
    Balanced P c m (.lock c' :: (body ++ [.unlock c'])) := by
  by_cases hc : c' = c
  · subst hc
    have hfree : m = false := by
      cases m with
      | false => rfl
      | true => exact absurd rfl (hm rfl)
    subst hfree
    simp only [decide_true, Bool.or_true] at hbody
    refine ⟨⟨fun h => absurd h Bool.false_ne_true, ?_⟩, ?_⟩
    · simp only [heldAfter, decide_true, Bool.or_true]
      exact orderly_append.mpr ⟨hbody.1, fun _ => trivial, trivial⟩
    · simp [heldAfter, hbody.2]
  · simp only [hc, decide_false, Bool.or_false] at hbody
    refine ⟨⟨fun _ => hc, ?_⟩, ?_⟩
    · simp only [heldAfter, hc, decide_false, Bool.or_false]
      exact orderly_append.mpr ⟨hbody.1, fun _ => trivial, trivial⟩
    · simp [heldAfter, hbody.2, hc]

theorem balanced_events {c : Controller} {m : Bool} (n : Nat) (h : m = true → Submits P c) :
    Balanced P c m (List.replicate n (.event : Instr ρ τ)) :=
  balanced_of_forall
    (fun i hi => by rw [List.eq_of_mem_replicate hi]; rfl)
    (fun hm i hi => by rw [List.eq_of_mem_replicate hi]; exact h hm)

/-- An inline emit to the handler of another controller: its section is over when the handler is. -/
theorem balanced_handler {c c' : Controller} {m : Bool} {body : List (Instr ρ τ)}
    (h : m = true → Submits P c ∧ c' ≠ c) (hbody : Balanced P c (m || c' = c) body) :
    Balanced P c m (handler c' body) := by
  have hevents := balanced_events (P := P) (c := c) (m := m) 2 fun hm => (h hm).1
  have hsection := balanced_section c' body (fun hm => (h hm).2) hbody
  have hall := (hevents.append hsection).append hevents
  simpa [handler, List.replicate] using hall

/-! ## What an instruction leads to -/

theorem balanced_submits {c : Controller} {m : Bool} {request : Bool} {l : List ρ}
    (h : m = true → ∀ r ∈ l, Allowed P c (.submit r request : Instr ρ τ)) :
    Balanced P c m (l.map fun r => (.submit r request : Instr ρ τ)) := by
  refine balanced_of_forall (fun i hi => ?_) fun hm i hi => ?_
  · obtain ⟨r, -, rfl⟩ := List.mem_map.mp hi
    rfl
  · obtain ⟨r, hr, rfl⟩ := List.mem_map.mp hi
    exact h hm r hr

/-- The commands of a reaction that is run under the mutex are allowed, since the reaction does not
operate on the controller. -/
theorem allowed_command {c : Controller} (hP : Apart P c) {r : ρ} (hr : RunsUnder P c r)
    {l : List (Command τ)} (hl : (P.reaction r).traces l = true) {x : Command τ} (hx : x ∈ l) :
    Allowed P c (x.instr : Instr ρ τ) := by
  have hoff : ¬ x.operatesOn c = true := fun h => hP r hr ⟨l, hl, .inl ⟨x, hx, h⟩⟩
  cases x with
  | emitLocal t =>
    intro r' ht
    exact ⟨hr.submits, fun hin => hr.emitted hl hx ht (always_of_runInline_false hin)⟩
  | emitInline t =>
    intro r' ht
    exact ⟨hr.submits, fun hin => hr.emittedInline hl hx ht (ne_never_of_runInline hin)⟩
  | emitDelay t | bind c' | unbind c' | steer =>
    exact ⟨hr.submits, fun h => hoff (by simp [Command.operatesOn, h])⟩

omit [DecidableEq τ] in
@[simp] theorem heldAfter_command (c : Controller) (m : Bool) (x : Command τ) :
    heldAfter c m (x.instr : Instr ρ τ) = m := by
  cases x <;> rfl

/-- A run of a reaction, from its first event to its last, with all that its commands lead to. -/
theorem balanced_run {c : Controller} {m : Bool} (hP : Apart P c) {r : ρ}
    (hr : m = true → RunsUnder P c r) {l : List (Command τ)} (hl : (P.reaction r).traces l = true)
    (returns : Bool) :
    Balanced P c m (.event :: (l.map Command.instr ++
      (if triggeredBy P (.bound .io) r && returns then [.finish] else []) ++
      [.event, .event])) := by
  have hevents (n : Nat) := balanced_events (P := P) (m := m) n fun hm => (hr hm).submits
  have hcommands : Balanced P c m (l.map (Command.instr (ρ := ρ))) := by
    refine balanced_of_forall (fun i hi => ?_) fun hm i hi => ?_
    · obtain ⟨x, -, rfl⟩ := List.mem_map.mp hi
      exact heldAfter_command c m x
    · obtain ⟨x, hx, rfl⟩ := List.mem_map.mp hi
      exact allowed_command hP (hr hm) hl hx
  have hfinish : Balanced P c m
      (if triggeredBy P (.bound .io) r && returns then [(.finish : Instr ρ τ)] else []) := by
    split
    · next hio =>
      rw [Bool.and_eq_true] at hio
      exact balanced_singleton rfl fun hm => ⟨(hr hm).submits,
        fun hc => hP r (hr hm) ⟨l, hl, .inr ⟨hc, hio.1⟩⟩,
        fun r' hf hin => (hr hm).finished hl hio.1 hf hin⟩
    · exact balanced_nil
  have hall := (hevents 1).append ((hcommands.append hfinish).append (hevents 2))
  simpa [List.replicate] using hall

/-- What a controller submits with its mutex held is allowed there. -/
theorem allowed_fired {c c' : Controller} (h : Allowed P c (.fire c' : Instr ρ τ)) {f : Fired ρ τ}
    (hf : mayFire P c' f = true) : Allowed P c f.instr := by
  -- every reaction that it submits is one that this controller fires
  have hruns (r : ρ) (hr : FiredBy P c' r) :
      Submits P c ∧ (runInline P r false = true → RunsUnder P c r) := by
    obtain rfl | ⟨hsub, hall⟩ := h
    · exact ⟨⟨r, hr⟩, fun hin => .fired hr (always_of_runInline_false hin)⟩
    · exact ⟨hsub, fun hin => hall r hr (always_of_runInline_false hin)⟩
  cases f with
  | reaction r => exact hruns r (.bound hf)
  | message t =>
    simp only [mayFire, decide_eq_true_eq] at hf
    exact fun r ht => hruns r (.delayed hf.1 hf.2 ht)

omit [DecidableEq τ] in
@[simp] theorem heldAfter_fired (c : Controller) (m : Bool) (f : Fired ρ τ) :
    heldAfter c m f.instr = m := by
  cases f <;> rfl

/-- With the mutex free, a critical section that submits what its controller fires. -/
theorem balanced_round (c c' : Controller) :
    Balanced P c false [(.lock c' : Instr ρ τ), .fire c', .unlock c'] := by
  refine balanced_section c' [.fire c'] (fun h => absurd h Bool.false_ne_true) ?_
  refine balanced_singleton rfl fun hm => ?_
  simp only [Bool.false_or, decide_eq_true_eq] at hm
  exact .inl hm

/-- **What an instruction leads to** keeps the mutex as it was, and is allowed if the instruction
is. -/
theorem balanced_expand {c : Controller} {m : Bool} (hP : Apart P c) {i : Instr ρ τ}
    {x : Choice ρ τ} {l : List (Instr ρ τ)} (h : expand P i x = some l)
    (hi : m = true → Allowed P c i) :
    Balanced P c m l := by
  unfold expand at h
  split at h
  · next request t l' =>
    obtain ⟨hall, hl⟩ := Option.ite_none_right_eq_some.mp h
    obtain rfl := Option.some.inj hl
    rw [List.all_eq_true] at hall
    exact balanced_submits fun hm r hr => hi hm r (hall r hr)
  · next l' =>
    obtain ⟨hall, hl⟩ := Option.ite_none_right_eq_some.mp h
    obtain rfl := Option.some.inj hl
    rw [List.all_eq_true] at hall
    refine balanced_submits fun hm r hr => ⟨hi hm, fun hin => ?_⟩
    obtain ⟨r', hr'⟩ := hi hm
    exact .event hr' (hall r hr) (always_of_runInline_false hin)
  · next r request free =>
    obtain rfl := Option.some.inj h
    have hevent := balanced_events (P := P) (m := m) 1 fun hm => (hi hm).1
    have hrun : Balanced P c m
        (if runInline P r request && free then [(.run r : Instr ρ τ)] else []) := by
      split
      · next hin =>
        rw [Bool.and_eq_true] at hin
        exact balanced_singleton rfl fun hm => (hi hm).2 hin.1
      · exact balanced_nil
    exact hevent.append hrun
  · next r l' returns =>
    obtain ⟨htrace, hl⟩ := Option.ite_none_right_eq_some.mp h
    obtain rfl := Option.some.inj hl
    exact balanced_run hP hi htrace returns
  · next c' =>
    obtain rfl := Option.some.inj h
    exact balanced_handler hi balanced_nil
  · obtain rfl := Option.some.inj h
    refine balanced_handler (fun hm => ⟨(hi hm).1, fun hc => (hi hm).2.1 hc.symm⟩) ?_
    refine balanced_singleton rfl fun hm => ?_
    rw [Bool.or_eq_true, decide_eq_true_eq] at hm
    obtain hm | hc := hm
    · exact .inr ⟨(hi hm).1, (hi hm).2.2⟩
    · exact .inl hc
  · next c' l' =>
    obtain ⟨hall, hl⟩ := Option.ite_none_right_eq_some.mp h
    obtain rfl := Option.some.inj hl
    rw [List.all_eq_true] at hall
    refine balanced_of_forall (fun i hi => ?_) fun hm i hmem => ?_
    · obtain ⟨f, -, rfl⟩ := List.mem_map.mp hi
      exact heldAfter_fired c m f
    · obtain ⟨f, hf, rfl⟩ := List.mem_map.mp hmem
      exact allowed_fired (hi hm) (hall f hf)
  · next l' =>
    obtain rfl := Option.some.inj h
    have hfree : m = false := by
      cases m with
      | false => rfl
      | true => exact (hi rfl).elim
    subst hfree
    rw [List.flatMap_def]
    refine balanced_flatten fun ls hls => ?_
    obtain ⟨p, -, rfl⟩ := List.mem_map.mp hls
    cases p with
    | packet => exact balanced_round c .network
    | nextEvent =>
      exact balanced_singleton rfl fun hm => absurd hm Bool.false_ne_true
    | join t =>
      exact balanced_singleton rfl fun hm => absurd hm Bool.false_ne_true
  · exact absurd h (by simp)

/-! ## Runs -/

/-- What a step can be: work begins, a mutex is locked or unlocked, or the next instruction is
replaced by what it leads to. -/
theorem step_cases {s s' : Thread ρ τ} {x : Choice ρ τ} (h : step P s x = some s') :
    (∃ w : Work ρ, s.todo = [] ∧ s' = { s with todo := w.instrs }) ∨
    (∃ c rest, s.todo = .lock c :: rest ∧ s' = ⟨Function.update s.held c true, rest⟩) ∨
    (∃ c rest, s.todo = .unlock c :: rest ∧ s' = ⟨Function.update s.held c false, rest⟩) ∨
    ∃ i rest l, s.todo = i :: rest ∧ (∀ (c : Controller) (m : Bool), heldAfter c m i = m) ∧
      expand P i x = some l ∧ s' = { s with todo := l ++ rest } := by
  unfold step at h
  split at h
  · next w htodo => exact .inl ⟨w, htodo, (Option.some.inj h).symm⟩
  · next c rest htodo =>
    split at h
    · exact absurd h (by simp)
    · exact .inr (.inl ⟨c, rest, htodo, (Option.some.inj h).symm⟩)
  · next c rest htodo => exact .inr (.inr (.inl ⟨c, rest, htodo, (Option.some.inj h).symm⟩))
  · next i rest htodo _ _ =>
    obtain ⟨l, hl, rfl⟩ := Option.map_eq_some_iff.mp h
    have hsame (c : Controller) (m : Bool) : heldAfter c m i = m := by
      cases i with
      | lock c' | unlock c' => simp [expand] at hl
      | _ => rfl
    exact .inr (.inr (.inr ⟨i, rest, l, htodo, hsame, hl, rfl⟩))
  · exact absurd h (by simp)

theorem balanced_work (c : Controller) (w : Work ρ) : Balanced P c false w.instrs := by
  have hfree {p : Prop} (h : false = true) : p := absurd h Bool.false_ne_true
  have hevents (n : Nat) := balanced_events (P := P) (c := c) (m := false) n hfree
  cases w with
  | task r => exact balanced_singleton rfl hfree
  | round c' => exact balanced_round c c'
  | handler c' =>
    have hlock := balanced_section (P := P) (c := c) c' [] hfree balanced_nil
    have hall := ((hevents 1).append hlock).append (hevents 2)
    simpa [Work.instrs, List.replicate] using hall
  | network io =>
    have hprocess : Balanced P c false [(.process : Instr ρ τ)] := balanced_singleton rfl hfree
    have hfinish : Balanced P c false (if io then [(.finish : Instr ρ τ)] else []) := by
      cases io with
      | false => exact balanced_nil
      | true => exact balanced_singleton rfl hfree
    have hall := (((hevents 1).append hprocess).append hfinish).append (hevents 2)
    simpa [Work.instrs, List.replicate] using hall

variable (P) in
/-- What the thread has before it is in order, and at its end the mutex is free. -/
structure EndsFree (c : Controller) (s : Thread ρ τ) : Prop where
  orderly : Orderly P c (s.held c) s.todo
  free : s.todo.foldl (heldAfter c) (s.held c) = false

omit [DecidableEq τ] in
theorem update_lock (held : Controller → Bool) (c c' : Controller) :
    heldAfter c (held c) (.lock c' : Instr ρ τ) = Function.update held c' true c := by
  by_cases hc : c = c'
  · simp [heldAfter, hc]
  · simp [heldAfter, hc, Ne.symm hc]

omit [DecidableEq τ] in
theorem update_unlock (held : Controller → Bool) (c c' : Controller) :
    heldAfter c (held c) (.unlock c' : Instr ρ τ) = Function.update held c' false c := by
  by_cases hc : c = c'
  · simp [heldAfter, hc]
  · simp [heldAfter, hc, Ne.symm hc]

theorem endsFree_idle (c : Controller) : EndsFree P c .idle := ⟨trivial, rfl⟩

theorem EndsFree.step {c : Controller} (hP : Apart P c) {s s' : Thread ρ τ} {x : Choice ρ τ}
    (hs : EndsFree P c s) (h : step P s x = some s') : EndsFree P c s' := by
  obtain ⟨horder, hfree⟩ := hs
  obtain ⟨w, htodo, rfl⟩ | ⟨c', rest, htodo, rfl⟩ | ⟨c', rest, htodo, rfl⟩ |
    ⟨i, rest, l, htodo, hsame, hl, rfl⟩ := step_cases h
  · rw [htodo] at hfree
    obtain ⟨hw, hfold⟩ := balanced_work (P := P) c w
    refine ⟨?_, ?_⟩
    · rw [show s.held c = false from hfree]
      exact hw
    · rw [show s.held c = false from hfree]
      exact hfold
  · rw [htodo] at horder hfree
    have hheld := update_lock (ρ := ρ) (τ := τ) s.held c c'
    have hrest : Orderly P c (Function.update s.held c' true c) rest := hheld ▸ horder.2
    have hend : rest.foldl (heldAfter c) (Function.update s.held c' true c) = false := hheld ▸ hfree
    exact ⟨hrest, hend⟩
  · rw [htodo] at horder hfree
    have hheld := update_unlock (ρ := ρ) (τ := τ) s.held c c'
    have hrest : Orderly P c (Function.update s.held c' false c) rest := hheld ▸ horder.2
    have hend : rest.foldl (heldAfter c) (Function.update s.held c' false c) = false :=
      hheld ▸ hfree
    exact ⟨hrest, hend⟩
  · rw [htodo] at horder hfree
    obtain ⟨hnew, hfold⟩ := balanced_expand hP hl horder.1
    have hrest := horder.2
    rw [List.foldl_cons] at hfree
    rw [hsame] at hrest hfree
    refine ⟨orderly_append.mpr ⟨hnew, ?_⟩, ?_⟩
    · rw [hfold]
      exact hrest
    · rw [List.foldl_append, hfold]
      exact hfree

/-- A thread in order does not lock a mutex that it holds. -/
theorem EndsFree.not_reenters {c : Controller} {s : Thread ρ τ} (hs : EndsFree P c s) :
    ¬ s.Reenters c := by
  rintro ⟨hheld, rest, htodo⟩
  have horder := hs.orderly
  rw [htodo] at horder
  exact horder.1 hheld rfl

/-- **No controller meets its own mutex** as long as no reaction that runs under the mutex operates
on the controller. -/
theorem not_reenters_of_reaches {c : Controller} (hP : Apart P c) {s : Thread ρ τ}
    (h : Reaches (Reentry.step P) Always .idle s) : ¬ s.Reenters c :=
  (h.invariant (endsFree_idle c) fun _ _ _ hs _ hst => hs.step hP hst).not_reenters

end

/-- An `Every` that always runs inline and emits locally (`false`), to a reaction that always runs
inline and binds an IO event (`true`). -/
def listens : Program Bool Unit where
  reaction
    | false =>
      { triggers := [.bound .chrono], inline := .always, traces := fun l => l = [.emitLocal ()] }
    | true => { triggers := [.message ()], inline := .always, traces := fun l => l = [.bind .io] }
  delayed _ := false

theorem apart_listens : Apart listens .chrono := by
  rintro r - ⟨l, hl, h⟩
  cases r with
  | false =>
    obtain rfl : l = [.emitLocal ()] := of_decide_eq_true hl
    simp [Command.operatesOn] at h
  | true =>
    obtain rfl : l = [.bind .io] := of_decide_eq_true hl
    simp [Command.operatesOn] at h

theorem not_reenters_of_reaches_listens :
    ∃ s, Reaches (step listens) Always .idle s ∧
      (s.held .chrono = true ∧ s.held .io = true) ∧ ¬ s.Reenters .chrono := by
  let run : List (Choice Bool Unit) :=
    [.start (.round .chrono), .go, .fired [.reaction false], .task true, .bound [],
      .trace [.emitLocal ()] true, .bound [], .bound [true], .task true, .bound [],
      .trace [.bind .io] true, .bound [], .go, .bound [], .bound [], .go]
  have hrun : (exec (step listens) .idle run).any
      (fun s => s.held .chrono && s.held .io) = true := by decide +kernel
  obtain ⟨s, hs, hheld⟩ := (Option.any_eq_true _ _).mp hrun
  have hreach := reaches_always_of_exec hs
  rw [Bool.and_eq_true] at hheld
  exact ⟨s, hreach, hheld, not_reenters_of_reaches apart_listens hreach⟩

/-- An `Every` that always runs inline and emits with a delay. -/
def defers : Program Unit Unit where
  reaction _ :=
    { triggers := [.bound .chrono], inline := .always, traces := fun l => l = [.emitDelay ()] }
  delayed _ := true

theorem reenters_defers : ∃ s, Reaches (step defers) Always .idle s ∧ s.Reenters .chrono := by
  let run : List (Choice Unit Unit) :=
    [.start (.round .chrono), .go, .fired [.reaction ()], .task true, .bound [],
      .trace [.emitDelay ()] true, .bound [], .go, .bound [], .bound []]
  have hrun : (exec (step defers) .idle run).any
      (fun s => s.held .chrono && s.todo.head?.any
        fun i => match i with | .lock .chrono => true | _ => false) = true := by decide +kernel
  obtain ⟨s, hs, hlast⟩ := (Option.any_eq_true _ _).mp hrun
  rw [Bool.and_eq_true] at hlast
  refine ⟨s, reaches_always_of_exec hs, hlast.1, ?_⟩
  obtain ⟨i, hi, hlock⟩ := (Option.any_eq_true _ _).mp hlast.2
  obtain ⟨rest, hrest⟩ := List.head?_eq_some_iff.mp hi
  split at hlock
  · exact ⟨rest, hrest⟩
  · exact absurd hlock Bool.false_ne_true

end Reentry
end Extension
end NUClear
