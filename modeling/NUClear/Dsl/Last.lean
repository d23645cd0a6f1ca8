import NUClear.Foundation.Reachability
import Mathlib.Data.Fintype.Basic
import Mathlib.Data.List.TakeDrop

/-!
# `Last`

`Last<n, Words...>` wraps each item that its words obtain in a `LastItemStorage`, a list of one
item.  The storage is transient: when a task is made, its list is appended to the one that is kept
for the reaction, which is cut to the last `n` items and copied back.  Then `check_data` looks at
the storage, which says that its list is not empty, and not at the items in it.

* `getTask`: one call of `get_task`, on a reaction with any number of wrapped items.
* `ValidWindow`: the condition on a call.  It speaks of the items that the words have obtained, now
  and before, and not of what is stored.
* `delivers_iff_of_exec`: a task was given an invalid item, or not the last valid ones, exactly when
  a call was made with an invalid item among the last `n`.

## The proof

* `lastN_append`, `lastN_filter`: cutting before and after appending is cutting after it, and a list
  whose last `n` elements are all kept by a filter has the same last ones as the filtered list.
* `Kept`: the transient lists are those of the last items, whatever they are.  Every call keeps this
  (`Kept.getTask`), so the storage is read off the history.
* `toBool_data`: the test of the storage succeeds unless `n` is zero, so it never refuses an item.
* `delivers_getTask_iff`: a call gives a task what it should if and only if the window is valid; an
  invalid task stays what it is, so the rule for runs gives both directions.
-/

namespace NUClear
namespace Dsl
namespace Last

open Foundation

universe u v

/-- The last `n` elements of a list, or all of them when there are no more. -/
def lastN {α : Type u} (n : ℕ) (l : List α) : List α := l.drop (l.length - n)

section

variable {α : Type u} {n : ℕ}

theorem lastN_append (l m : List α) : lastN n (lastN n l ++ m) = lastN n (l ++ m) := by
  rw [lastN, lastN, lastN, List.length_append, List.length_drop, List.length_append]
  by_cases h : l.length ≤ n
  · rw [Nat.sub_eq_zero_of_le h, List.drop_zero, Nat.sub_zero]
  · have hsplit : l.length + m.length - n = l.length - n + m.length := by omega
    have hkept : l.length - (l.length - n) + m.length - n = m.length := by omega
    rw [hsplit, hkept, ← List.drop_drop, List.drop_append_of_le_length (Nat.sub_le _ _)]

/-- What is cut off does not matter for what is left, when all that is left is kept by a filter. -/
theorem lastN_filter {p : α → Bool} {l : List α} (h : ∀ x ∈ lastN n l, p x = true) :
    lastN n (l.filter p) = lastN n l := by
  have hsplit : l.filter p = (l.take (l.length - n)).filter p ++ lastN n l := by
    conv_lhs => rw [← List.take_append_drop (l.length - n) l, List.filter_append]
    rw [← lastN, List.filter_eq_self.mpr h]
  by_cases hn : l.length ≤ n
  · rw [hsplit, lastN, lastN, Nat.sub_eq_zero_of_le hn, List.take_zero, List.drop_zero,
      List.filter_nil,
      List.nil_append, Nat.sub_eq_zero_of_le hn, List.drop_zero]
  · have hlen : (lastN n l).length = n := by
      rw [lastN, List.length_drop]
      omega
    rw [hsplit]
    generalize (l.take (l.length - n)).filter p = front
    rw [lastN, List.length_append, hlen, Nat.add_sub_cancel, List.drop_left]

theorem forall_of_lastN_filter {p : α → Bool} {l : List α} (h : lastN n l = lastN n (l.filter p)) :
    ∀ x ∈ lastN n l, p x = true := fun x hx =>
  (List.mem_filter.mp (List.mem_of_mem_drop (h ▸ hx : x ∈ lastN n (l.filter p)))).2

end

/-! ## The storage -/

/-- `LastItemStorage`: the list of the last items of a word, the oldest first. -/
structure LastItemStorage (α : Type u) where
  list : List α
  deriving DecidableEq, Repr

namespace LastItemStorage

variable {α : Type u}

/-- `LastItemStorage(T&& data)`: what a word has obtained, valid or not, is a list of one item. -/
def ofItem (data : α) : LastItemStorage α := ⟨[data]⟩

/-- `operator bool`: there is an item; whether it is valid is not asked. -/
def toBool (s : LastItemStorage α) : Bool := !s.list.isEmpty

/-- `MergeTransients::merge`: the lists of the transient storage and of the task are put together,
cut to the last `n` items, and both are given the result. -/
def merge (n : ℕ) (t d : LastItemStorage α) : LastItemStorage α × LastItemStorage α :=
  let list := t.list ++ d.list
  let list := if list.length > n then list.drop (list.length - n) else list
  (⟨list⟩, ⟨list⟩)

theorem merge_eq (n : ℕ) (t d : LastItemStorage α) :
    merge n t d = (⟨lastN n (t.list ++ d.list)⟩, ⟨lastN n (t.list ++ d.list)⟩) := by
  have hlist : (if (t.list ++ d.list).length > n then
      (t.list ++ d.list).drop ((t.list ++ d.list).length - n) else t.list ++ d.list) =
        lastN n (t.list ++ d.list) := by
    split_ifs with h
    · rfl
    · rw [lastN, Nat.sub_eq_zero_of_le (not_lt.mp h), List.drop_zero]
  rw [merge, hlist]

end LastItemStorage

/-! ## The reaction -/

section

variable {ι : Type u} {α : ι → Type v}

/-- What a call of `get_task` meets: whether the reaction is enabled and its preconditions hold, the
items that the words in `Last` obtain, and whether the other data of the reaction exists. -/
structure Call (α : ι → Type v) where
  precondition : Bool
  items : ∀ i, α i
  others : Bool

/-- A task: the lists that are bound into it.  `obtained` is a history: the items that the calls
have obtained so far, the oldest first. -/
structure Task (α : ι → Type v) where
  bound : ∀ i, List (α i)
  obtained : List (∀ i, α i)

/-- The transient data of the reaction and the tasks that were made.  `obtained` is a history. -/
structure Reaction (α : ι → Type v) where
  transients : ∀ i, LastItemStorage (α i)
  obtained : List (∀ i, α i)
  tasks : List (Task α)

namespace Reaction

def bound : Reaction α := ⟨fun _ => ⟨[]⟩, [], []⟩

/-- The data of a task, after its transient data is merged: the new transient list of a word, and
the list for the task. -/
def data (n : ℕ) (s : Reaction α) (c : Call α) (i : ι) :
    LastItemStorage (α i) × LastItemStorage (α i) :=
  LastItemStorage.merge n (s.transients i) (LastItemStorage.ofItem (c.items i))

/-- `CallbackGenerator::operator()`: the data is obtained and merged when the preconditions hold,
and a task is made when all of it is there. -/
def getTask [Fintype ι] (n : ℕ) (s : Reaction α) (c : Call α) : Reaction α :=
  if c.precondition then
    let s' : Reaction α :=
      { s with transients := fun i => (s.data n c i).1, obtained := s.obtained ++ [c.items] }
    -- `check_data`
    if (∀ i, (s.data n c i).2.toBool = true) ∧ c.others = true then
      { s' with tasks := ⟨fun i => (s.data n c i).2.list, s'.obtained⟩ :: s.tasks }
    else s'
  else s

def step [Fintype ι] (n : ℕ) (s : Reaction α) (c : Call α) : Option (Reaction α) :=
  some (s.getTask n c)

/-- The items that a word has obtained, the oldest first. -/
def column (obtained : List (∀ i, α i)) (i : ι) : List (α i) := obtained.map fun items => items i

variable (valid : ∀ i, α i → Bool)

/-- **What `Last` is for**: every list in a task is that of the last `n` valid items that were
obtained before, the oldest first. -/
def Delivers (n : ℕ) (s : Reaction α) : Prop :=
  ∀ t ∈ s.tasks, ∀ i, t.bound i = lastN n ((column t.obtained i).filter (valid i))

/-- The call makes a task: it obtains items, the other data is there, and the lists are not empty.
-/
def MakesTask (n : ℕ) (c : Call α) : Prop :=
  c.precondition = true ∧ c.others = true ∧ (0 < n ∨ IsEmpty ι)

/-- **The condition** on a call that makes a task: no item is invalid of those that are the last `n`
with the new ones. -/
def ValidWindow (n : ℕ) (s : Reaction α) (c : Call α) : Prop :=
  MakesTask n c → ∀ i, ∀ x ∈ lastN n (column (s.obtained ++ [c.items]) i), valid i x = true

/-! ## One call -/

/-- The transient lists are those of the last items, whatever they are: also invalid ones are kept.
-/
def Kept (n : ℕ) (s : Reaction α) : Prop :=
  ∀ i, (s.transients i).list = lastN n (column s.obtained i)

variable {valid} {n : ℕ} {s : Reaction α} {c : Call α}

theorem kept_bound : Kept n (bound : Reaction α) := fun _ => by
  rw [lastN]
  exact List.drop_nil.symm

theorem Kept.data_eq (h : Kept n s) (c : Call α) (i : ι) :
    s.data n c i = (⟨lastN n (column (s.obtained ++ [c.items]) i)⟩,
      ⟨lastN n (column (s.obtained ++ [c.items]) i)⟩) := by
  have hcolumn : column (s.obtained ++ [c.items]) i = column s.obtained i ++ [c.items i] := by
    rw [column, List.map_append]
    rfl
  rw [data, LastItemStorage.merge_eq, h i, LastItemStorage.ofItem, lastN_append, hcolumn]

variable [Fintype ι]

omit [Fintype ι] in
theorem toBool_data (h : Kept n s) : (∀ i, (s.data n c i).2.toBool = true) ↔ 0 < n ∨ IsEmpty ι := by
  have hbool (i : ι) : (s.data n c i).2.toBool = true ↔ 0 < n := by
    rw [h.data_eq, LastItemStorage.toBool, Bool.not_eq_true', ← Bool.not_eq_true,
      List.isEmpty_iff, lastN,
      List.drop_eq_nil_iff, column, List.length_map, List.length_append, List.length_singleton]
    omega
  constructor
  · intro hall
    by_cases hn : 0 < n
    · exact .inl hn
    · exact .inr ⟨fun i => hn ((hbool i).mp (hall i))⟩
  · rintro (hn | hempty) i
    · exact (hbool i).mpr hn
    · exact hempty.elim i

/-- What a call does: nothing, or the item is obtained, and then a task is made or not. -/
theorem getTask_cases (h : Kept n s) (c : Call α) :
    (¬ MakesTask n c ∧ s.getTask n c = s) ∨
    ((s.getTask n c).obtained = s.obtained ++ [c.items] ∧ Kept n (s.getTask n c) ∧
      (¬ MakesTask n c ∧ (s.getTask n c).tasks = s.tasks ∨
        MakesTask n c ∧ (s.getTask n c).tasks =
          ⟨fun i => lastN n (column (s.obtained ++ [c.items]) i), s.obtained ++ [c.items]⟩ ::
            s.tasks)) := by
  have hkept : ∀ i, (s.data n c i).1.list = lastN n (column (s.obtained ++ [c.items]) i) :=
    fun i => by
    rw [h.data_eq]
  have hbound : (fun i => (s.data n c i).2.list) = fun i =>
    lastN n (column (s.obtained ++ [c.items]) i) :=
    funext fun i => by rw [h.data_eq]
  rw [getTask]
  split_ifs with hpre hcheck
  · refine .inr ⟨rfl, hkept, .inr ⟨⟨hpre, hcheck.2, (toBool_data h).mp hcheck.1⟩, ?_⟩⟩
    rw [hbound]
  · exact .inr ⟨rfl, hkept, .inl ⟨fun hm => hcheck ⟨(toBool_data h).mpr hm.2.2, hm.2.1⟩, rfl⟩⟩
  · exact .inl ⟨fun hm => hpre hm.1, rfl⟩

theorem Kept.getTask (h : Kept n s) : Kept n (s.getTask n c) := by
  obtain ⟨-, heq⟩ | ⟨-, hkept, -⟩ := getTask_cases h c
  · rwa [heq]
  · exact hkept

/-- **A call gives a task what it should if and only if the window is valid**: an invalid item that
is still in the list is bound in the place of an older valid one. -/
theorem delivers_getTask_iff (h : Kept n s) (hs : Delivers valid n s) :
    Delivers valid n (s.getTask n c) ↔ ValidWindow valid n s c := by
  obtain ⟨hnot, heq⟩ | ⟨-, -, ⟨hnot, heq⟩ | ⟨hmakes, heq⟩⟩ := getTask_cases h c
  · rw [heq]
    exact iff_of_true hs fun hm => absurd hm hnot
  · rw [Delivers, heq]
    exact iff_of_true hs fun hm => absurd hm hnot
  · rw [Delivers, heq, List.forall_mem_cons]
    constructor
    · exact fun hall _ i => forall_of_lastN_filter (hall.1 i)
    · exact fun hwindow => ⟨fun i => (lastN_filter (hwindow hmakes i)).symm, hs⟩

theorem Delivers.of_getTask (h : Kept n s) (hs : Delivers valid n (s.getTask n c)) :
    Delivers valid n s := by
  obtain ⟨-, heq⟩ | ⟨-, -, ⟨-, heq⟩ | ⟨-, heq⟩⟩ := getTask_cases h c
  · rwa [heq] at hs
  · rwa [Delivers, heq] at hs
  · rw [Delivers, heq, List.forall_mem_cons] at hs
    exact hs.2

end Reaction

end

/-! ## Every sequence of calls -/

namespace Reaction

variable {ι : Type u} {α : ι → Type v} [Fintype ι] {valid : ∀ i, α i → Bool} {n : ℕ}
  {s : Reaction α}
  {l : List (Call α)}

/-- **`Last`.**  Every task of a sequence of calls was given the last `n` valid items of each word
if and only if no call made a task while an invalid item was among the last `n`. -/
theorem delivers_iff_of_exec (h : exec (step n) bound l = some s) :
    Delivers valid n s ↔ execOk (step n) (ValidWindow valid n) bound l := by
  refine execOk_iff (I := Kept n) ?_ ?_ ?_ kept_bound (fun t ht => absurd ht List.not_mem_nil) h
  · intro x c y hst hx
    obtain rfl := Option.some.inj hst
    exact hx.getTask
  · intro x c y hst hx hd
    obtain rfl := Option.some.inj hst
    exact delivers_getTask_iff hx hd
  · intro x c y hst hx hd
    obtain rfl := Option.some.inj hst
    exact hd.of_getTask hx

/-- `on<Trigger<U>, Last<2, With<T>>>`: the calls, with the pointer to the `T` that there is, if
any. -/
def withLast (item : Option ℕ) : Call fun _ : Unit => Option ℕ := ⟨true, fun _ => item, true⟩

/-- There is a `T` at each call. -/
theorem delivers_iff_of_exec_present :
    ∃ s, exec (step 2) bound [withLast (some 1), withLast (some 2), withLast (some 3)] = some s ∧
      Delivers (fun _ item => item.isSome) 2 s ∧
        s.tasks.map (fun t => t.bound ()) = [[some 2, some 3], [some 1, some 2], [some 1]] := by
  have hrun : exec (step 2) bound [withLast (some 1), withLast (some 2), withLast (some 3)] =
      some (((bound.getTask 2 (withLast (some 1))).getTask 2 (withLast (some 2))).getTask 2
        (withLast (some 3))) := rfl
  refine ⟨_, hrun, (delivers_iff_of_exec hrun).mpr ?_, rfl⟩
  refine ⟨fun _ => by decide, fun t ht => ?_⟩
  obtain rfl := Option.some.inj ht
  refine ⟨fun _ => by decide, fun t ht => ?_⟩
  obtain rfl := Option.some.inj ht
  exact ⟨fun _ => by decide, fun _ _ => trivial⟩

/-- There is none at the first call: its task is made, and runs with a list of one null pointer. -/
theorem not_delivers_absent : ¬ ∀ (n : ℕ) (l : List (Call fun _ : Unit => Option ℕ))
    (s : Reaction fun _ : Unit => Option ℕ), 1 ≤ n → exec (step n) bound l = some s →
      Delivers (fun _ item => item.isSome) n s := by
  intro h
  have hrun : exec (step 2) bound [withLast none] = some (bound.getTask 2 (withLast none)) := rfl
  have hbound := h 2 _ _ (by decide) hrun ⟨fun _ => [none], [fun _ => none]⟩
    (List.mem_singleton.mpr rfl) ()
  exact absurd hbound (by decide)

end Reaction

end Last
end Dsl
end NUClear
