import NUClear.Dsl.Last
import NUClear.Foundation.Reachability
import Mathlib.Data.Fintype.Sum

/-!
# Transient data (`CallbackGenerator.hpp`, `MergeTransient.hpp`, `Last.hpp`)

A word such as `Network` has data at the calls of `get_task` that it makes itself, and none at those
that other words of the reaction make.  Such data is transient: what the word offers is kept for the
reaction, and a call without data is given what was kept.  Then `check_data` decides whether a task
is made.

## What is kept

The type of a datum decides how it is merged (`Merging`).  With the generic `MergeTransients` what
is kept is what was last offered and valid, and before that the value with which the transient data
is constructed.  Nothing but its `operator bool` says that this value was not offered by anybody.  A
`LastItemStorage` has a `MergeTransients` of its own: what is kept is the last `n` of all the items
that were offered, valid or not.

A call that makes no task has merged its data all the same.

* `step`: the calls of `get_task`, for a reaction with any data.
* `given`: what a call is given, by what the calls have been offered so far.
* `tasks_exact_of_reaches`: which calls make a task, and that it is bound to what the call is given.
* `same_call_of_reaches`: what one word gives to a task comes from one call.
* `io_made_of_reaches`: with `IO`, whose `Event` is valid when it is constructed so, a call makes a
  task although there has been no event.
-/

namespace NUClear
namespace Dsl
namespace Transient

open Foundation Last

universe u v w

/-! ## The reaction -/

/-- How the data of a type is merged: not at all, when `is_transient` is false; by the generic
`MergeTransients`; or by that of `LastItemStorage`. -/
inductive Merging : Type v → Type (v + 1) where
  | never {β : Type v} : Merging β
  | generic {β : Type v} : Merging β
  | last {β : Type v} (n : ℕ) : Merging (LastItemStorage β)

/-- `is_transient`: whether the reaction keeps a datum of the type between its calls. -/
def Merging.isTransient {β : Type v} : Merging β → Bool
  | .never => false
  | _ => true

/-- The generic `MergeTransients` merges it: the last valid datum takes the place of one that is
not. -/
def Merging.isGeneric {β : Type v} : Merging β → Bool
  | .generic => true
  | _ => false

/-- `MergeTransients::merge`: the transient datum and that of the task.  `valid` is `operator
bool`. -/
def Merging.merge {β : Type v} : Merging β → (β → Bool) → β → β → β × β
  | .never, _, t, d => (t, d)
  | .generic, valid, t, d =>
      let t := if valid d then d else t
      (t, t)
  | .last n, _, t, d => LastItemStorage.merge n t d

/-- What the types of the data of a reaction say: when a datum is valid, how it is merged, and what
it is at first. -/
structure Data (ι : Type u) (α : ι → Type v) where
  /-- `operator bool`. -/
  valid : ∀ i, α i → Bool
  merging : ∀ i, Merging (α i)
  /-- The value of an element of the tuple `transients` when it is constructed. -/
  initial : ∀ i, α i

variable {ι : Type u} {α : ι → Type v}

/-- A task: the data that is bound into it.  `offered` is a history: what the words have returned to
the calls so far, the last first. -/
structure Task (α : ι → Type v) where
  bound : ∀ i, α i
  offered : List (∀ i, α i)

/-- The reaction, its transient data and the tasks that were made.  `offered` is a history. -/
structure Reaction (α : ι → Type v) where
  enabled : Bool
  transients : ∀ i, α i
  offered : List (∀ i, α i)
  tasks : List (Task α)

inductive Action (α : ι → Type v) where
  /-- `get_task`: whether the preconditions hold, and what `DSL::get` returns. -/
  | getTask (precondition : Bool) (items : ∀ i, α i)
  | enable (enabled : Bool)

namespace Data

variable (W : Data ι α)

def start : Reaction α := ⟨true, W.initial, [], []⟩

/-- A datum, after `merge_transients`: the transient one and that of the task. -/
def merged (s : Reaction α) (items : ∀ i, α i) (i : ι) : α i × α i :=
  (W.merging i).merge (W.valid i) (s.transients i) (items i)

/-- `CallbackGenerator::operator()`, when `get_task` has found the reaction enabled: the data is
merged, and a task is made when all of it is valid. -/
def generate [Fintype ι] (s : Reaction α) (precondition : Bool) (items : ∀ i, α i) : Reaction α :=
  if precondition then
    let s' : Reaction α :=
      { s with transients := fun i => (W.merged s items i).1, offered := items :: s.offered }
    -- `check_data`
    if ∀ i, W.valid i (W.merged s items i).2 = true then
      { s' with tasks := ⟨fun i => (W.merged s items i).2, s'.offered⟩ :: s.tasks }
    else s'
  else s

def step [Fintype ι] (s : Reaction α) : Action α → Option (Reaction α)
  | .getTask precondition items => some (if s.enabled then W.generate s precondition items else s)
  | .enable enabled => some { s with enabled := enabled }

/-! ## What a task is given -/

end Data

/-- What a call is given that obtains the datum `d`, when `older` was offered before, the last
first: what it obtains itself; what was last offered and valid; or the last items. -/
def Merging.given {β : Type v} : Merging β → (β → Bool) → β → β → List β → β
  | .never, _, _, d, _ => d
  | .generic, valid, initial, d, older => ((d :: older).find? valid).getD initial
  | .last n, _, initial, d, older =>
      ⟨lastN n (initial.list ++ (older.reverse ++ [d]).flatMap LastItemStorage.list)⟩

/-- **The merging**, of what the call before was given, or of what was constructed: it gives the
task what it should be given, and keeps the same. -/
theorem Merging.merge_given {β : Type v} (m : Merging β) (hm : m.isTransient = true)
    (valid : β → Bool) (initial d : β) (older : List β) :
    m.merge valid (older.casesOn initial fun d' older' => m.given valid initial d' older') d =
      (m.given valid initial d older, m.given valid initial d older) := by
  cases m with
  | never => exact absurd hm Bool.false_ne_true
  | generic =>
    have hkept : (older.casesOn initial fun d' older' =>
        Merging.generic.given valid initial d' older' : β) = (older.find? valid).getD initial := by
      cases older <;> rfl
    rw [merge, hkept, given]
    by_cases hv : valid d = true
    · rw [if_pos hv, List.find?_cons_of_pos hv]
      rfl
    · rw [if_neg hv, List.find?_cons_of_neg hv]
  | last n =>
    rw [merge, LastItemStorage.merge_eq]
    cases older with
    | nil =>
      show (LastItemStorage.mk (lastN n (initial.list ++ d.list)), _) = _
      rw [given, List.reverse_nil, List.nil_append, List.flatMap_singleton]
    | cons d' older =>
      have hsplit : ((d' :: older).reverse ++ [d]).flatMap LastItemStorage.list =
          (older.reverse ++ [d']).flatMap LastItemStorage.list ++ d.list := by
        rw [List.reverse_cons, List.flatMap_append, List.flatMap_singleton]
      have hlast : lastN n (lastN n (initial.list ++
          (older.reverse ++ [d']).flatMap LastItemStorage.list) ++ d.list) =
          lastN n (initial.list ++ ((d' :: older).reverse ++ [d]).flatMap
            LastItemStorage.list) := by
        rw [lastN_append, List.append_assoc, hsplit]
      exact Prod.ext (congrArg LastItemStorage.mk hlast) (congrArg LastItemStorage.mk hlast)

/-- Data that is not transient stays as it is: the task has what its own call obtained. -/
theorem Merging.merge_of_never {β : Type v} (m : Merging β) (hm : m.isTransient = false)
    (valid : β → Bool) (initial t d : β) (older : List β) :
    (m.merge valid t d).2 = m.given valid initial d older := by
  cases m with
  | never => rfl
  | generic => exact absurd hm.symm Bool.false_ne_true
  | last n => exact absurd hm.symm Bool.false_ne_true

theorem Merging.given_of_generic {β : Type v} (m : Merging β) (hm : m.isGeneric = true)
    (valid : β → Bool) (initial d : β) (older : List β) :
    m.given valid initial d older = ((d :: older).find? valid).getD initial := by
  cases m with
  | generic => rfl
  | never => exact absurd hm Bool.false_ne_true
  | last n => exact absurd hm Bool.false_ne_true

namespace Data

variable (W : Data ι α)

/-- What a call is given, by what it obtains itself and what was offered before. -/
def given (items : ∀ i, α i) (older : List (∀ i, α i)) (i : ι) : α i :=
  (W.merging i).given (W.valid i) (W.initial i) (items i) (older.map fun items => items i)

/-- The transient data is what the last call was given, or what it was constructed with. -/
def Kept (s : Reaction α) : Prop :=
  ∀ i, (W.merging i).isTransient = true →
    s.transients i = s.offered.casesOn (W.initial i) fun items older => W.given items older i

variable {W} {s : Reaction α}

theorem Kept.merged_eq (h : W.Kept s) (items : ∀ i, α i) {i : ι}
    (hi : (W.merging i).isTransient = true) :
    W.merged s items i = (W.given items s.offered i, W.given items s.offered i) := by
  rw [merged, h i hi, given, ← (W.merging i).merge_given hi]
  cases s.offered <;> rfl

theorem Kept.merged_snd (h : W.Kept s) (items : ∀ i, α i) :
    (fun i => (W.merged s items i).2) = W.given items s.offered := by
  funext i
  cases hi : (W.merging i).isTransient with
  | true => rw [h.merged_eq items hi]
  | false => exact (W.merging i).merge_of_never hi _ _ _ _ _

section

variable {items : ∀ i, α i} {older : List (∀ i, α i)} {i : ι}

/-- The call that last offered a valid datum. -/
def lastValid (W : Data ι α) (i : ι) (offered : List (∀ i, α i)) : Option (∀ i, α i) :=
  offered.find? fun items => W.valid i (items i)

theorem lastValid_cons_of_valid (h : W.valid i (items i) = true) :
    W.lastValid i (items :: older) = some items := List.find?_cons_of_pos h

theorem lastValid_cons_of_invalid (h : ¬ W.valid i (items i) = true) :
    W.lastValid i (items :: older) = W.lastValid i older := List.find?_cons_of_neg h

/-- **The generic `MergeTransients`**: a call is given what was last offered and valid, or what was
constructed when nothing valid was. -/
theorem given_of_generic (hi : (W.merging i).isGeneric = true) :
    W.given items older i =
      (W.lastValid i (items :: older)).elim (W.initial i) fun items => items i := by
  rw [given, Merging.given_of_generic _ hi, ← List.map_cons (f := fun items : ∀ i, α i => items i),
    List.find?_map]
  show (Option.map _ (W.lastValid i (items :: older))).getD _ = _
  cases W.lastValid i (items :: older) <;> rfl

/-- The call that last offered a datum of a word is the same for its other data. -/
theorem lastValid_congr {offered : List (∀ i, α i)} {i j : ι}
    (h : ∀ items ∈ offered, W.valid i (items i) = W.valid j (items j)) :
    W.lastValid i offered = W.lastValid j offered := by
  induction offered with
  | nil => rfl
  | cons items offered ih =>
    obtain ⟨hitems, hrest⟩ := List.forall_mem_cons.mp h
    by_cases hv : W.valid i (items i) = true
    · rw [lastValid_cons_of_valid hv, lastValid_cons_of_valid (hitems ▸ hv)]
    · rw [lastValid_cons_of_invalid hv, lastValid_cons_of_invalid (hitems ▸ hv), ih hrest]

end

variable (W)

/-- **The tasks.**  A call makes a task exactly when all that it is given is valid, and the task is
given that. -/
structure Exact (s : Reaction α) : Prop where
  made : ∀ (newer : List (∀ i, α i)) (items : ∀ i, α i) (older : List (∀ i, α i)),
    s.offered = newer ++ items :: older →
      ((∃ t ∈ s.tasks, t.offered = items :: older) ↔ ∀ i, W.valid i (W.given items older i) = true)
  bound : ∀ t ∈ s.tasks, ∃ newer items older, s.offered = newer ++ items :: older ∧
    t.offered = items :: older ∧ t.bound = W.given items older

variable {W}

/-- A call that makes no task offers its data nevertheless. -/
theorem Exact.refuse (h : Exact W s) {items : ∀ i, α i} {transients : ∀ i, α i}
    (hcheck : ¬ ∀ i, W.valid i (W.given items s.offered i) = true) :
    Exact W { s with transients := transients, offered := items :: s.offered } where
  made newer items' older heq := by
    cases newer with
    | nil =>
      obtain ⟨rfl, rfl⟩ := List.cons.inj heq
      refine iff_of_false ?_ hcheck
      rintro ⟨t, ht, htask⟩
      obtain ⟨newer, items', older, hoffered, htask', -⟩ := h.bound t ht
      -- the tasks are those of earlier calls
      have hlength := congrArg List.length
        (hoffered.trans (congrArg (newer ++ ·) (htask'.symm.trans htask)))
      rw [List.length_append, List.length_cons] at hlength
      omega
    | cons _ newer => exact h.made newer items' older (List.cons.inj heq).2
  bound t ht := by
    obtain ⟨newer, items', older, hoffered, htask⟩ := h.bound t ht
    exact ⟨items :: newer, items', older, congrArg (items :: ·) hoffered, htask⟩

/-- A call that makes a task gives it what the merging says. -/
theorem Exact.make (h : Exact W s) {items : ∀ i, α i} {transients : ∀ i, α i}
    (hcheck : ∀ i, W.valid i (W.given items s.offered i) = true) :
    Exact W { s with
      transients := transients
      offered := items :: s.offered
      tasks := ⟨W.given items s.offered, items :: s.offered⟩ :: s.tasks } where
  made newer items' older heq := by
    cases newer with
    | nil =>
      obtain ⟨rfl, rfl⟩ := List.cons.inj heq
      exact iff_of_true ⟨_, List.mem_cons_self .., rfl⟩ hcheck
    | cons first newer =>
      have hrest := (List.cons.inj heq).2
      rw [← h.made newer items' older hrest]
      constructor
      · rintro ⟨t, ht, htask⟩
        rcases List.mem_cons.mp ht with rfl | ht
        · -- the new task has seen all the calls
          have hlength := congrArg List.length (hrest.trans (congrArg (newer ++ ·) htask.symm))
          rw [List.length_append, List.length_cons] at hlength
          omega
        · exact ⟨t, ht, htask⟩
      · rintro ⟨t, ht, htask⟩
        exact ⟨t, List.mem_cons_of_mem _ ht, htask⟩
  bound t ht := by
    rcases List.mem_cons.mp ht with rfl | ht
    · exact ⟨[], items, s.offered, rfl, rfl, rfl⟩
    · obtain ⟨newer, items', older, hoffered, htask⟩ := h.bound t ht
      exact ⟨items :: newer, items', older, congrArg (items :: ·) hoffered, htask⟩

/-! ## Every run -/

theorem Kept.offer (h : W.Kept s) (items : ∀ i, α i) {tasks : List (Task α)} : W.Kept { s with
    transients := fun i => (W.merged s items i).1, offered := items :: s.offered, tasks :=
  tasks } := by
  intro i hi
  show (W.merged s items i).1 = _
  rw [h.merged_eq items hi]

theorem invariant_start : W.Kept W.start ∧ Exact W W.start :=
  ⟨fun _ _ => rfl, fun newer _ _ heq =>
    absurd heq.symm (List.append_ne_nil_of_right_ne_nil newer nofun),
    fun _ ht => absurd ht List.not_mem_nil⟩

variable [Fintype ι]

theorem generate_invariant (h : W.Kept s ∧ Exact W s) (precondition : Bool) (items : ∀ i, α i) :
    W.Kept (W.generate s precondition items) ∧ Exact W (W.generate s precondition items) := by
  obtain ⟨hkept, hexact⟩ := h
  have hmerged (i : ι) : (W.merged s items i).2 = W.given items s.offered i :=
    congrFun (hkept.merged_snd items) i
  rw [generate]
  split_ifs with hpre hcheck
  · refine ⟨hkept.offer items, ?_⟩
    rw [hkept.merged_snd items]
    exact hexact.make fun i => (hmerged i).symm ▸ hcheck i
  · exact ⟨hkept.offer items, hexact.refuse fun hall => hcheck fun i => (hmerged i).symm ▸ hall i⟩
  · exact ⟨hkept, hexact⟩

/-- **Every step keeps the invariant**: the transient data is merged step by step as the rule says
for all calls at once. -/
theorem invariant_step {a : Action α} {s' : Reaction α} (h : W.Kept s ∧ Exact W s)
    (hst : W.step s a = some s') : W.Kept s' ∧ Exact W s' := by
  cases a with
  | getTask precondition items =>
    obtain rfl := Option.some.inj hst
    split_ifs
    · exact generate_invariant h precondition items
    · exact h
  | enable enabled =>
    obtain rfl := Option.some.inj hst
    exact ⟨h.1, h.2.made, h.2.bound⟩

/-- **Which calls make a task, and what it is given**, in every run of any reaction, whatever its
words return. -/
theorem tasks_exact_of_reaches (h : Reaches W.step Always W.start s) : Exact W s :=
  (h.invariant (P := fun s => W.Kept s ∧ Exact W s) invariant_start fun _ _ _ hs _ hst =>
    invariant_step hs hst).2

/-- `on<Last<2, Trigger<T>>, Network<U>>`: the last `T`s, and pointers to the source of the `U` and
to the `U`. -/
def LastNetwork : Unit ⊕ Bool → Type := Sum.elim (fun _ => LastItemStorage ℕ) fun _ => Option ℕ

def lastNetwork : Data (Unit ⊕ Bool) LastNetwork where
  valid
    | .inl _, d => LastItemStorage.toBool d
    | .inr _, d => Option.isSome d
  merging
    | .inl _ => .last (β := ℕ) 2
    | .inr _ => .generic
  initial
    | .inl _ => (⟨[]⟩ : LastItemStorage ℕ)
    | .inr _ => (none : Option ℕ)

def call (trigger : ℕ) (source message : Option ℕ) : Action LastNetwork :=
  .getTask true fun
    | .inl _ => LastItemStorage.ofItem trigger
    | .inr false => source
    | .inr true => message

/-- The parts of what is bound into a task. -/
def boundParts (t : Task LastNetwork) : List ℕ × Option ℕ × Option ℕ :=
  ((t.bound (.inl ()) : LastItemStorage ℕ).list, t.bound (.inr false), t.bound (.inr true))

/-- A `T` is emitted before and after a `U` arrives. -/
def calls : List (Action LastNetwork) :=
  [call 1 none none, call 2 (some 5) (some 6), call 3 none none]

theorem tasks_exact_of_reaches_calls : ∃ s, exec lastNetwork.step lastNetwork.start calls = some s ∧
    s.tasks.map boundParts = [([2, 3], some 5, some 6), ([1, 2], some 5, some 6)] ∧
      Exact lastNetwork s := by
  have hrun : (exec lastNetwork.step lastNetwork.start calls).any (fun s =>
      decide (s.tasks.map boundParts =
        [([2, 3], some 5, some 6), ([1, 2], some 5, some 6)])) = true := by decide +kernel
  obtain ⟨s, hs, hstate⟩ := (Option.any_eq_true _ _).mp hrun
  exact ⟨s, hs, of_decide_eq_true hstate, tasks_exact_of_reaches (reaches_always_of_exec hs)⟩

/-! ## The data of one word -/

/-- A word returns all its data to a call, or none of it. -/
def Together {ω : Type w} (W : Data ι α) (word : ι → ω) (k : ω) (_ : Reaction α) : Action α → Prop
  | .getTask _ items =>
      ∀ i j, word i = k → word j = k → W.valid i (items i) = W.valid j (items j)
  | .enable _ => True

instance {ω : Type w} [DecidableEq ω] (W : Data ι α) (word : ι → ω) (k : ω) (s : Reaction α) :
    ∀ a, Decidable (Together W word k s a)
  | .getTask _ items => inferInstanceAs
      (Decidable (∀ i j, word i = k → word j = k → W.valid i (items i) = W.valid j (items j)))
  | .enable _ => .isTrue trivial

variable {ω : Type w} {word : ι → ω} {k : ω}

theorem together_offered (h : Reaches W.step (Together W word k) W.start s) :
    ∀ items ∈ s.offered, ∀ i j, word i = k → word j = k →
      W.valid i (items i) = W.valid j (items j) := by
  refine h.invariant (P := fun s => ∀ items ∈ s.offered, ∀ i j, word i = k → word j = k →
    W.valid i (items i) = W.valid j (items j)) (fun _ hi => absurd hi List.not_mem_nil)
    fun s a s' hs hok hst => ?_
  cases a with
  | getTask precondition items =>
    obtain rfl := Option.some.inj hst
    have hcons : ∀ items' ∈ items :: s.offered, ∀ i j, word i = k → word j = k →
        W.valid i (items' i) = W.valid j (items' j) := List.forall_mem_cons.mpr ⟨hok, hs⟩
    rw [generate]
    split_ifs
    · exact hcons
    · exact hcons
    · exact hs
    · exact hs
  | enable enabled =>
    obtain rfl := Option.some.inj hst
    exact hs

/-- **The data of one word come from one call**, when the generic `MergeTransients` merges them and
the values that they are constructed with are not valid: a task is given what the last call obtained
that obtained something of the word.  Nothing is asked of the other words. -/
theorem same_call_of_reaches (h : Reaches W.step (Together W word k) W.start s)
    (hinitial : ∀ i, word i = k → (W.merging i).isGeneric = true →
      W.valid i (W.initial i) = false) {t : Task α} (ht : t ∈ s.tasks) {i : ι} (hword : word i = k)
    (hi : (W.merging i).isGeneric = true) :
    ∃ newer items older, t.offered = newer ++ items :: older ∧
      (∀ j, word j = k → (W.merging j).isGeneric = true →
        t.bound j = items j ∧ W.valid j (items j) = true) ∧
      ∀ items' ∈ newer, ∀ j, word j = k → W.valid j (items' j) = false := by
  have hexact := tasks_exact_of_reaches (h.mono fun _ _ _ => trivial)
  obtain ⟨front, current, past, hoffered, htask, hbound⟩ := hexact.bound t ht
  have htogether : ∀ items ∈ current :: past, ∀ i j, word i = k → word j = k →
      W.valid i (items i) = W.valid j (items j) := fun items hmem =>
    together_offered h items (hoffered ▸ List.mem_append_right _ hmem)
  have hvalid := (hexact.made front current past hoffered).mp ⟨t, ht, htask⟩
  have hgiven := hvalid i
  rw [given_of_generic hi] at hgiven
  -- the first valid datum of the history is not the initial one, so some call has offered it
  cases hlast : W.lastValid i (current :: past) with
  | none =>
    rw [hlast] at hgiven
    exact absurd ((hinitial i hword hi).symm.trans hgiven) Bool.false_ne_true
  | some items =>
    obtain ⟨hv, newer, older, hsplit, hnewer⟩ := List.find?_eq_some_iff_append.mp hlast
    have hmem : ∀ items' ∈ newer, items' ∈ current :: past := fun items' hmem => by
      rw [hsplit]
      exact List.mem_append_left _ hmem
    refine ⟨newer, items, older, htask.trans hsplit, fun j hj hgeneric => ?_,
      fun items' hi' j hj => ?_⟩
    · have hlastj : W.lastValid j (current :: past) = some items :=
        (lastValid_congr fun items hmem => htogether items hmem j i hj hword).trans hlast
      rw [hbound, given_of_generic hgeneric, hlastj]
      exact ⟨rfl, (htogether items (List.mem_of_find?_eq_some hlast) j i hj hword).trans hv⟩
    · rw [htogether items' (hmem items' hi') j i hj hword]
      exact Bool.not_eq_true' _ ▸ hnewer items' hi'

/-- The `T` that is emitted after the `U` has arrived is given both the `U` and its source. -/
theorem same_call_of_reaches_calls : ∃ s, exec lastNetwork.step lastNetwork.start calls = some s ∧
    ∃ t ∈ s.tasks, boundParts t = ([2, 3], some 5, some 6) ∧
      ∃ newer items older, t.offered = newer ++ items :: older ∧
        (∀ j, Sum.isRight j = true → (lastNetwork.merging j).isGeneric = true →
          t.bound j = items j ∧ lastNetwork.valid j (items j) = true) ∧
        ∀ items' ∈ newer, ∀ j, Sum.isRight j = true → lastNetwork.valid j (items' j) = false := by
  have hrun : (exec lastNetwork.step lastNetwork.start calls).any (fun s =>
      s.tasks.any fun t => boundParts t == ([2, 3], some 5, some 6)) = true := by decide +kernel
  obtain ⟨s, hs, htasks⟩ := (Option.any_eq_true _ _).mp hrun
  obtain ⟨t, ht, hbound⟩ := List.any_eq_true.mp htasks
  have hreach : Reaches lastNetwork.step (Together lastNetwork Sum.isRight true)
    lastNetwork.start s :=
    reaches_of_exec hs (by decide +kernel)
  have hinitial : ∀ i, Sum.isRight i = true → (lastNetwork.merging i).isGeneric = true →
      lastNetwork.valid i (lastNetwork.initial i) = false
    | .inl _, hright, _ => absurd hright Bool.false_ne_true
    | .inr _, _, _ => rfl
  exact ⟨s, hs, t, ht, eq_of_beq hbound,
    same_call_of_reaches hreach hinitial ht (i := .inr false) rfl rfl⟩

end Data

/-! ## `IO` -/

/-- `IO::Event`: the descriptor and the events on it. -/
structure Event where
  fd : ℤ
  events : BitVec 16
  deriving DecidableEq, Repr

/-- `operator bool`: the descriptor is not `INVALID_SOCKET`. -/
def Event.toBool (e : Event) : Bool := e.fd != -1

namespace Data

/-- `on<IO, Words...>`.  `Event` has no initial values, so the one in the tuple `transients` is
zero. -/
def withEvent {β : κ → Type} (V : Data κ β) : Data (Unit ⊕ κ) (Sum.elim (fun _ => Event) β) where
  valid
    | .inl _, e => Event.toBool e
    | .inr k, x => V.valid k x
  merging
    | .inl _ => .generic
    | .inr k => V.merging k
  initial
    | .inl _ => (⟨0, 0⟩ : Event)
    | .inr k => V.initial k

/-- What the other words of the reaction have returned to a call. -/
def others {κ : Type} {β : κ → Type} (items : ∀ i, Sum.elim (fun _ : Unit => Event) β i) (k : κ) :
    β k :=
  items (.inr k)

section

variable {κ : Type} {β : κ → Type} {V : Data κ β}
  {items : ∀ i, Sum.elim (fun _ : Unit => Event) β i}
  {newer older : List (∀ i, Sum.elim (fun _ : Unit => Event) β i)}
  {s : Reaction (Sum.elim (fun _ : Unit => Event) β)}

/-- The value that an `Event` is constructed with is valid, so every call is given a valid one, also
before the first event. -/
theorem valid_given_io : (withEvent V).valid (.inl ())
    ((withEvent V).given items older (.inl ())) = true := by
  have hgeneric : ((withEvent V).merging (.inl ())).isGeneric = true := rfl
  rw [given_of_generic hgeneric]
  cases hlast : (withEvent V).lastValid (.inl ()) (items :: older) with
  | none => rfl
  | some items' => exact (List.find?_eq_some_iff_append.mp hlast).1

theorem given_others {k : κ} :
    (withEvent V).given items older (.inr k) = V.given (others items) (older.map others) k := by
  rw [given, given, List.map_map]
  rfl

variable [Fintype κ]

/-- **`IO` stops no task**: a call makes a task exactly when the reaction without `IO` would have
made one, and when there has been no event the task is given one of the descriptor 0. -/
theorem io_made_of_reaches (h : Reaches (withEvent V).step Always (withEvent V).start s)
    (hoffered : s.offered = newer ++ items :: older) :
    ((∃ t ∈ s.tasks, t.offered = items :: older) ↔
      ∀ k, V.valid k (V.given (others items) (older.map others) k) = true) ∧
    ∀ t ∈ s.tasks, t.offered = items :: older →
      (∀ items' ∈ items :: older, Event.toBool (items' (.inl ())) = false) →
        t.bound (.inl ()) = (⟨0, 0⟩ : Event) := by
  have hexact := tasks_exact_of_reaches h
  constructor
  · rw [hexact.made newer items older hoffered]
    constructor
    · intro hall k
      rw [← given_others]
      exact hall (.inr k)
    · rintro hall (_ | k)
      · exact valid_given_io
      · rw [given_others]
        exact hall k
  · intro t ht htask hnone
    obtain ⟨_, items', older', -, htask', hbound⟩ := hexact.bound t ht
    obtain ⟨rfl, rfl⟩ := List.cons.inj (htask'.symm.trans htask)
    have hlast : (withEvent V).lastValid (.inl ()) (items' :: older') = none :=
      List.find?_eq_none.mpr fun x hx => Bool.eq_false_iff.mp (hnone x hx)
    have hgiven : (withEvent V).given items' older' (.inl ()) = (withEvent V).initial
      (.inl ()) := by
      have hgeneric : ((withEvent V).merging (.inl ())).isGeneric = true := rfl
      rw [given_of_generic hgeneric, hlast]
      rfl
    exact (congrFun hbound (.inl ())).trans hgiven

end

/-- `on<IO, Trigger<T>>`: a pointer to the `T`. -/
def triggered : Data Unit fun _ => Option ℕ :=
  ⟨fun _ => Option.isSome, fun _ => .never, fun _ => none⟩

/-- A `T` is emitted, and `IO::get` returns no event. -/
def triggeredItems : ∀ i, Sum.elim (fun _ : Unit => Event) (fun _ : Unit => Option ℕ) i
  | .inl _ => (⟨-1, 0⟩ : Event)
  | .inr _ => some 3

theorem io_made_of_reaches_triggered : ∃ s,
    Reaches (withEvent triggered).step Always (withEvent triggered).start s ∧
    (∃ t ∈ s.tasks, t.offered = [triggeredItems]) ∧
      ∀ t ∈ s.tasks, t.offered = [triggeredItems] → t.bound (.inl ()) = (⟨0, 0⟩ : Event) := by
  have hstep : (withEvent triggered).step (withEvent triggered).start
    (.getTask true triggeredItems) =
      some ((withEvent triggered).generate (withEvent triggered).start true triggeredItems) := rfl
  have hoffered : ((withEvent triggered).generate
    (withEvent triggered).start true triggeredItems).offered =
      [] ++ [triggeredItems] := by
    rw [generate]
    split_ifs <;> first | rfl | contradiction
  have hreach : Reaches (withEvent triggered).step Always (withEvent triggered).start _ :=
    .single trivial hstep
  obtain ⟨hmade, hzero⟩ := io_made_of_reaches hreach hoffered
  refine ⟨_, hreach, hmade.mpr fun _ => rfl, fun t ht htask => hzero t ht htask fun items' hi => ?_⟩
  rw [List.mem_singleton.mp hi]
  rfl

end Data
end Transient
end Dsl
end NUClear
