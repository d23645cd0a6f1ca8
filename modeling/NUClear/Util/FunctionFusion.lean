import Mathlib.Data.List.Lex
import Mathlib.Order.Basic
import Mathlib.Data.Int.Order.Basic
import Mathlib.Tactic.Linarith

/-!
# Function fusion

`FunctionFusion` shares the arguments of one call among several functions: the first arguments go to
all of them, and each function gets a range of the others.  It gives the first function as many as
it can and takes them back one by one when the function cannot be called with them, or when the rest
cannot be fused.

The templates are read as functions on their parameters, and a type is what it derives from.  Two
rules of the language decide what the compiler looks at.

* A type that is only named is not instantiated, so of the branches of a `std::conditional_t` only
  the one that is chosen is.
* The conditions are evaluated as soon as the `std::conditional_t` is named, also in a branch that
  is not chosen.  So `is_callable` and the value for the remaining functions are asked for at every
  range that is tried, and at the range that ends before it starts as well, where the search gives
  up.

From there the remaining functions are tried one argument before.  With more functions than shared
arguments this can go on to the index `-1`, and `std::tuple_element` of that is an error which no
overload absorbs: the program is ill-formed, `none` here.

* `functionFusion`, `fusion`: the search, with its errors.
* `Partition`, `Longest`: what is searched for, on its own terms.
* `Underruns`: when the search asks about an argument before the first, in terms of partitions.
* `fusion_longest`: the search finds the longest partition, if there is one, where it does not
  underrun, and it never does with at most one function more than there are shared arguments.
-/

namespace NUClear
namespace Util

variable {φ : Type} {callable : φ → ℤ → ℤ → Bool} {size start stop : ℤ} {f : φ}
variable {functions processed : List φ} {ranges other : List (ℤ × ℤ)}

/-- `GenSequence<Start, End, Sequence<Seq...>>::type`, with the numbers that it has collected; it is
empty when it would have to go back. -/
def genSequence (start stop : ℤ) (seq : List ℤ) : List ℤ :=
  if start = stop then seq
  else if stop < start then []
  else genSequence (start + 1) stop (seq ++ [start])
termination_by (stop - start).toNat
decreasing_by omega

/-- `GenerateSequence<Start, End>`: the numbers from the first to the one before the last. -/
def generateSequence (start stop : ℤ) : List ℤ := genSequence start stop []

/-- What a `FunctionFusion` derives from: `false_type`, or the caller of the functions with their
ranges of arguments. -/
inductive Fusion (φ : Type) where
  | falseType
  | functionFusionCaller (functions : List φ) (ranges : List (ℤ × ℤ))
  deriving DecidableEq, Repr

namespace Fusion

/-- The member `value`, if there is one: the caller of no functions only has a `call`. -/
def value : Fusion φ → Option Bool
  | falseType => some false
  | functionFusionCaller (_ :: _) (_ :: _) => some true
  | functionFusionCaller _ _ => none

theorem value_functionFusionCaller (hf : functions ≠ []) (hr : ranges ≠ []) :
    (functionFusionCaller functions ranges).value = some true := by
  cases functions with
  | nil => exact absurd rfl hf
  | cons f functions =>
    cases ranges with
    | nil => exact absurd rfl hr
    | cons p ranges => rfl

/-- The calls that `FunctionFusionCaller::call` makes, with the indices of their arguments. -/
def calls (shared : ℤ) : Fusion φ → List (φ × List ℤ)
  | falseType => []
  | functionFusionCaller functions ranges =>
      (functions.zip ranges).map fun c =>
        (c.1, generateSequence 0 shared ++ generateSequence c.2.1 c.2.2)

end Fusion

/-- `is_callable<Function, Shared, Start, End, Arguments>::value`, where `callable` says what the
function can be called with.  `std::tuple_element` of an index that is no argument is an error. -/
def isCallable (callable : φ → ℤ → ℤ → Bool) (size : ℤ) (f : φ) (start stop : ℤ) : Option Bool :=
  if (generateSequence start stop).all (fun i => 0 ≤ i && i < size) then
    some (callable f start stop)
  else none

/-- `FunctionFusion`, where `callable` says what a function can be called with after the shared
arguments, and `size` is the number of arguments.  Nothing is an ill-formed program. -/
def functionFusion (callable : φ → ℤ → ℤ → Bool) (size : ℤ) (functions : List φ) (start stop : ℤ)
    (processed : List φ) (ranges : List (ℤ × ℤ)) : Option (Fusion φ) :=
  match functions with
  | [] =>
      if start = stop ∧ start = size then some (.functionFusionCaller processed ranges)
      else some .falseType
  | f :: functions =>
      -- both conditions are evaluated before any branch is chosen
      (isCallable callable size f start stop).bind fun called =>
        (functionFusion callable size functions stop size (processed ++ [f])
            (ranges ++ [(start, stop)])).bind fun rest =>
          rest.value.bind fun valid =>
            if stop < start then some .falseType
            else if called then
              if valid then some rest
              else functionFusion callable size (f :: functions) start (stop - 1) processed ranges
            else functionFusion callable size (f :: functions) start (stop - 1) processed ranges
termination_by (functions.length, (stop - start + 1).toNat)
decreasing_by
  all_goals simp_wf
  all_goals first
    | exact .left _ _ (by omega)
    | exact .right _ (by omega)

/-- `FunctionFusion` with its defaults: `shared` arguments for all functions, and `rest` to share
out. -/
def fusion (callable : φ → ℤ → ℤ → Bool) (functions : List φ) (shared rest : ℕ) :
    Option (Fusion φ) :=
  functionFusion callable (shared + rest) functions shared (shared + rest) [] []

/-- The arguments from `start` on are partitioned into consecutive ranges, one for each function,
which can be called with it. -/
inductive Partition (callable : φ → ℤ → ℤ → Bool) (size : ℤ) : List φ → ℤ → List (ℤ × ℤ) → Prop
  | nil : Partition callable size [] size []
  | cons {f : φ} {functions : List φ} {start stop : ℤ} {ranges : List (ℤ × ℤ)} (hle : start ≤ stop)
      (hcall : callable f start stop = true)
      (hrest : Partition callable size functions stop ranges) :
      Partition callable size (f :: functions) start ((start, stop) :: ranges)

/-- The lengths of the ranges, by which partitions are compared: the longest first range wins. -/
def lengths (ranges : List (ℤ × ℤ)) : List ℤ := ranges.map fun p => p.2 - p.1

/-- The first range ends at `stop` or before. -/
def FirstAtMost (stop : ℤ) (ranges : List (ℤ × ℤ)) : Prop := ∀ p ∈ ranges.head?, p.2 ≤ stop

/-- The search for these functions from `start` on asks about an argument before the first.  It
does so at once when `start` is before the first argument.  Otherwise the functions after the first
one do, from one of the ends that are tried for its range: these go from the last argument down to
the end of the first range of a partition, or, where there is no partition, to `start - 1`. -/
def Underruns (callable : φ → ℤ → ℤ → Bool) (size : ℤ) : List φ → ℤ → Prop
  | [], _ => False
  | f :: functions, start =>
      start < 0 ∨ ∃ stop, start - 1 ≤ stop ∧ stop ≤ size ∧
        (∀ ranges, Partition callable size (f :: functions) start ranges →
          FirstAtMost stop ranges) ∧
        Underruns callable size functions stop

/-! ## Partitions -/

namespace Partition

theorem start_le (h : Partition callable size functions start ranges) : start ≤ size := by
  induction h with
  | nil => exact le_rfl
  | cons hle hcall hrest ih => exact hle.trans ih

theorem length_eq (h : Partition callable size functions start ranges) :
    functions.length = ranges.length := by
  induction h with
  | nil => rfl
  | cons hle hcall hrest ih => rw [List.length_cons, List.length_cons, ih]

end Partition

theorem genSequence_self (start : ℤ) (seq : List ℤ) : genSequence start start seq = seq := by
  rw [genSequence, if_pos rfl]

theorem genSequence_of_lt (h : start < stop) (seq : List ℤ) :
    genSequence start stop seq = genSequence (start + 1) stop (seq ++ [start]) := by
  rw [genSequence, if_neg h.ne, if_neg h.not_gt]

/-- The sequence of the numbers from `start` to `stop`, behind those that were collected. -/
theorem genSequence_eq (h : start ≤ stop) (seq : List ℤ) :
    genSequence start stop seq = seq ++ generateSequence start stop := by
  induction hn : (stop - start).toNat generalizing start seq with
  | zero =>
    obtain rfl : start = stop := by omega
    rw [generateSequence, genSequence_self, genSequence_self, List.append_nil]
  | succ n ih =>
    have hlt : start < stop := by omega
    rw [generateSequence, genSequence_of_lt hlt, genSequence_of_lt hlt, ih (by omega) _ (by omega),
      ih (by omega) _ (by omega), List.nil_append, List.append_assoc]

theorem generateSequence_self (start : ℤ) : generateSequence start start = [] :=
  genSequence_self start []

theorem generateSequence_cons (h : start < stop) :
    generateSequence start stop = start :: generateSequence (start + 1) stop := by
  rw [generateSequence, genSequence_of_lt h, genSequence_eq h]
  rfl

theorem generateSequence_append {middle : ℤ} (h : start ≤ middle) (h' : middle ≤ stop) :
    generateSequence start middle ++ generateSequence middle stop =
      generateSequence start stop := by
  induction hn : (middle - start).toNat generalizing start with
  | zero =>
    obtain rfl : start = middle := by omega
    rw [generateSequence_self, List.nil_append]
  | succ n ih =>
    rw [generateSequence_cons (show start < middle by omega),
      generateSequence_cons (show start <
        stop by omega), List.cons_append, ih (by omega) (by omega)]

/-- A partition gives out every argument once, and in order. -/
theorem Partition.flatMap_eq (h : Partition callable size functions start ranges) :
    (ranges.flatMap fun p => generateSequence p.1 p.2) = generateSequence start size := by
  induction h with
  | nil => exact (generateSequence_self size).symm
  | cons hle hcall hrest ih =>
    rw [List.flatMap_cons, ih]
    exact generateSequence_append hle hrest.start_le

theorem length_generateSequence (h : start ≤ stop) :
    (generateSequence start stop).length = (stop - start).toNat := by
  induction hn : (stop - start).toNat generalizing start with
  | zero =>
    obtain rfl : start = stop := by omega
    rw [generateSequence_self]
    rfl
  | succ n ih =>
    rw [generateSequence_cons (by omega), List.length_cons, ih (by omega) (by omega)]

/-- The arguments of the calls, after the shared ones. -/
theorem flatMap_calls {shared : ℕ} (h : Partition callable size functions start ranges) :
    ((Fusion.functionFusionCaller functions ranges).calls shared).flatMap
    (fun c => c.2.drop shared) =
      generateSequence start size := by
  have hshared : (generateSequence 0 (shared : ℤ)).length = shared := by
    rw [length_generateSequence (Int.natCast_nonneg shared)]
    omega
  rw [← h.flatMap_eq, Fusion.calls]
  induction h with
  | nil => rfl
  | cons hle hcall hrest ih =>
    rw [List.zip_cons_cons, List.map_cons, List.flatMap_cons, List.flatMap_cons, ih]
    congr 1
    exact List.drop_left' hshared

/-! ## The search -/

/-- The longest partition whose first range ends at `stop` or before. -/
structure Longest (callable : φ → ℤ → ℤ → Bool) (size : ℤ) (functions : List φ) (start stop : ℤ)
    (ranges : List (ℤ × ℤ)) : Prop where
  partition : Partition callable size functions start ranges
  first : FirstAtMost stop ranges
  longest : ∀ other, Partition callable size functions start other → FirstAtMost stop other →
    lengths other ≤ lengths ranges

theorem Partition.firstAtMost_size (h : Partition callable size functions start ranges) :
    FirstAtMost size ranges := by
  cases h with
  | nil => exact fun p hp => absurd hp (by simp)
  | cons hle hcall hrest =>
    intro p hp
    obtain rfl := Option.some.inj hp
    exact hrest.start_le

/-- The function can be called with this range, and the longest partition of the rest follows: this
is the longest one whose first range ends there. -/
theorem Longest.cons (hle : start ≤ stop) (hcall : callable f start stop = true)
    (h : Longest callable size functions stop size ranges) :
    Longest callable size (f :: functions) start stop ((start, stop) :: ranges) where
  partition := .cons hle hcall h.partition
  first p hp := by
    obtain rfl := Option.some.inj hp
    exact le_rfl
  longest other hother hfirst := by
    cases hother with
    | @cons _ _ _ stop' other hle' hcall' hrest =>
      have hstop : stop' ≤ stop := hfirst _ rfl
      rcases hstop.lt_or_eq with hlt | rfl
      · exact le_of_lt (List.Lex.rel (by show stop' - start < stop - start; omega))
      · rcases (h.longest other hrest hrest.firstAtMost_size).lt_or_eq with hlt | heq
        · exact le_of_lt (List.Lex.cons hlt)
        · exact le_of_eq (congrArg (List.cons (stop' - start)) heq)

/-- No partition has a first range up to `stop`: one that ends there or before ends before. -/
theorem firstAtMost_pred (hno : ∀ rest, Partition callable size functions stop rest →
      callable f start stop = false) (h : Partition callable size (f :: functions) start ranges)
    (hfirst : FirstAtMost stop ranges) : FirstAtMost (stop - 1) ranges := by
  cases h with
  | @cons _ _ _ stop' rest hle hcall hrest =>
    intro p hp
    obtain rfl := Option.some.inj hp
    have hstop : stop' ≤ stop := hfirst _ rfl
    rcases hstop.lt_or_eq with hlt | rfl
    · show stop' ≤ stop - 1
      omega
    · exact absurd ((hno rest hrest).symm.trans hcall) Bool.false_ne_true

/-- With at most one function more than arguments before `start` the search stays among them. -/
theorem not_underruns (h : (functions.length : ℤ) ≤ start + 1) :
    ¬ Underruns callable size functions start := by
  induction functions generalizing start with
  | nil => exact id
  | cons f functions ih =>
    rw [List.length_cons, Nat.cast_succ] at h
    rintro (hneg | ⟨stop, hstop, -, -, hrest⟩)
    · omega
    · exact ih (by omega) hrest

/-- The search for a function and those after it underruns from an end that is tried for its range,
up to `stop`. -/
def UnderrunsUpTo (callable : φ → ℤ → ℤ → Bool) (size : ℤ) (f : φ) (functions : List φ)
    (start stop : ℤ) : Prop :=
  ∃ tried, start - 1 ≤ tried ∧ tried ≤ stop ∧
    (∀ ranges, Partition callable size (f :: functions) start ranges → FirstAtMost stop ranges →
      FirstAtMost tried ranges) ∧
    Underruns callable size functions tried

theorem underruns_cons_iff (hstart : 0 ≤ start) :
    Underruns callable size (f :: functions) start ↔
      UnderrunsUpTo callable size f functions start size := by
  constructor
  · rintro (hneg | ⟨stop, hle, hsize, hall, hrest⟩)
    · omega
    · exact ⟨stop, hle, hsize, fun ranges hpart _ => hall ranges hpart, hrest⟩
  · rintro ⟨stop, hle, hsize, hall, hrest⟩
    exact .inr ⟨stop, hle, hsize, fun ranges hpart =>
      hall ranges hpart hpart.firstAtMost_size, hrest⟩

/-- Where no partition has a first range up to `stop`, and the rest does not underrun from there,
the search may as well have started with the end before. -/
theorem underrunsUpTo_pred_iff (hno : ∀ rest, Partition callable size functions stop rest →
      callable f start stop = false) (hrest : ¬ Underruns callable size functions stop) :
    UnderrunsUpTo callable size f functions start (stop - 1) ↔
      UnderrunsUpTo callable size f functions start stop := by
  constructor
  · rintro ⟨tried, hle, htried, hall, hunder⟩
    exact ⟨tried, hle, by omega,
      fun ranges hpart hfirst => hall ranges hpart (firstAtMost_pred hno hpart hfirst), hunder⟩
  · rintro ⟨tried, hle, htried, hall, hunder⟩
    have hne : tried ≠ stop := by
      rintro rfl
      exact hrest hunder
    refine ⟨tried, hle, by omega,
      fun ranges hpart hfirst => hall ranges hpart fun p hp => ?_, hunder⟩
    have := hfirst p hp
    omega

/-- What the search comes to: an error, the longest partition, or that there is none. -/
inductive Found (callable : φ → ℤ → ℤ → Bool) (size : ℤ) (functions : List φ) (start stop : ℤ)
    (processed : List φ) (ranges : List (ℤ × ℤ)) (underruns : Prop) : Option (Fusion φ) → Prop
  | error (h : underruns) :
      Found callable size functions start stop processed ranges underruns none
  | longest (h : ¬ underruns) (rest : List (ℤ × ℤ))
      (hlongest : Longest callable size functions start stop rest) :
      Found callable size functions start stop processed ranges underruns
        (some (.functionFusionCaller (processed ++ functions) (ranges ++ rest)))
  | none (h : ¬ underruns)
      (hnone : ∀ other, Partition callable size functions start other → ¬ FirstAtMost stop other) :
      Found callable size functions start stop processed ranges underruns (some .falseType)

theorem Found.pred {found : Option (Fusion φ)} {underruns underruns' : Prop}
    (hno : ∀ rest, Partition callable size functions stop rest → callable f start stop = false)
    (hiff : underruns' ↔ underruns)
    (h : Found callable size (f :: functions) start (stop - 1) processed ranges underruns' found) :
    Found callable size (f :: functions) start stop processed ranges underruns found := by
  cases h with
  | error h => exact .error (hiff.mp h)
  | longest h rest hlongest =>
    refine .longest (fun hu => h (hiff.mpr hu)) rest ⟨hlongest.partition, fun p hp => ?_,
      fun other hother hfirst => ?_⟩
    · have := hlongest.first p hp
      omega
    · exact hlongest.longest other hother (firstAtMost_pred hno hother hfirst)
  | none h hnone =>
    exact .none (fun hu => h (hiff.mpr hu))
      fun other hother hfirst => hnone other hother (firstAtMost_pred hno hother hfirst)

theorem mem_generateSequence {i : ℤ} (h : i ∈ generateSequence start stop) :
    start ≤ i ∧ i < stop := by
  obtain hlt | hle := lt_or_ge stop start
  · rw [generateSequence, genSequence, if_neg hlt.ne', if_pos hlt] at h
    exact absurd h List.not_mem_nil
  · induction hn : (stop - start).toNat generalizing start with
    | zero =>
      obtain rfl : start = stop := by omega
      rw [generateSequence_self] at h
      exact absurd h List.not_mem_nil
    | succ n ih =>
      rw [generateSequence_cons (by omega)] at h
      obtain rfl | h := List.mem_cons.mp h
      · omega
      · have := ih h (by omega) (by omega)
        omega

/-- A range that does not start before the first argument, and does not end behind the last, can be
asked about. -/
theorem isCallable_of_nonneg (hstart : 0 ≤ start) (hstop : stop ≤ size) :
    isCallable callable size f start stop = some (callable f start stop) := by
  rw [isCallable, if_pos]
  rw [List.all_eq_true]
  intro i hi
  obtain ⟨hle, hlt⟩ := mem_generateSequence hi
  rw [Bool.and_eq_true, decide_eq_true_eq, decide_eq_true_eq]
  omega

theorem isCallable_of_neg (hstart : start < 0) (hstop : start < stop) :
    isCallable callable size f start stop = none := by
  rw [isCallable, if_neg]
  rw [generateSequence_cons hstop, List.all_cons, decide_eq_false (by omega), Bool.false_and,
    Bool.false_and]
  exact Bool.false_ne_true

/-- The search for a function, given that for the functions after it, by induction on the number of
ends that are left to try for its range. -/
theorem found_functionFusion_cons (hstart : 0 ≤ start)
    (ih : ∀ start ≤ size, ∀ processed ranges,
      Found callable size functions start size processed ranges
        (Underruns callable size functions start)
        (functionFusion callable size functions start size processed ranges))
    (f : φ) (stop : ℤ) (hstop : stop ≤ size) (hle : start - 1 ≤ stop) (processed : List φ)
    (ranges : List (ℤ × ℤ)) :
    Found callable size (f :: functions) start stop processed ranges
      (UnderrunsUpTo callable size f functions start stop)
      (functionFusion callable size (f :: functions) start stop processed ranges) := by
  induction hn : (stop - start + 1).toNat generalizing stop with
  | zero =>
    -- the range ends before it starts, and the rest is asked for nevertheless
    have hlt : stop < start := by omega
    obtain rfl : stop = start - 1 := by omega
    have hno : ∀ other, Partition callable size (f :: functions) start other →
        ¬ FirstAtMost (start - 1) other := by
      intro other hother hfirst
      cases hother with
      | cons hle hcall hrest =>
        have hstop := hfirst _ rfl
        exact absurd (hle.trans hstop) (by omega)
    have hunder : UnderrunsUpTo callable size f functions start (start - 1) ↔
        Underruns callable size functions (start - 1) := by
      constructor
      · rintro ⟨tried, hle, htried, -, hrest⟩
        obtain rfl : tried = start - 1 := by omega
        exact hrest
      · exact fun hrest => ⟨start - 1, le_rfl, le_rfl, fun _ _ h => h, hrest⟩
    rw [functionFusion, isCallable_of_nonneg hstart hstop, Option.bind_some]
    have hrest := ih (start - 1) hstop (processed ++ [f]) (ranges ++ [(start, start - 1)])
    generalize functionFusion callable size functions (start - 1) size (processed ++ [f])
      (ranges ++ [(start, start - 1)]) = rest at hrest
    cases hrest with
    | error h => exact .error (hunder.mpr h)
    | longest h rest hlongest =>
      rw [Option.bind_some, Fusion.value_functionFusionCaller (by simp) (by simp), Option.bind_some,
        if_pos hlt]
      exact .none (fun hu => h (hunder.mp hu)) hno
    | none h hnone =>
      rw [Option.bind_some, Fusion.value, Option.bind_some, if_pos hlt]
      exact .none (fun hu => h (hunder.mp hu)) hno
  | succ n ihn =>
    have hback := ihn (stop - 1) (by omega) (by omega) (by omega)
    rw [functionFusion, isCallable_of_nonneg hstart hstop, Option.bind_some]
    have hrest := ih stop hstop (processed ++ [f]) (ranges ++ [(start, stop)])
    generalize functionFusion callable size functions stop size (processed ++ [f])
      (ranges ++ [(start, stop)]) = rest at hrest
    cases hrest with
    | error h => exact .error ⟨stop, hle, le_rfl, fun _ _ h => h, h⟩
    | longest h rest hlongest =>
      rw [Option.bind_some, Fusion.value_functionFusionCaller (by simp) (by simp), Option.bind_some,
        if_neg (by omega)]
      cases hcall : callable f start stop with
      | false =>
        have hno : ∀ rest, Partition callable size functions stop rest →
            callable f start stop = false := fun _ _ => hcall
        rw [if_neg Bool.false_ne_true]
        exact hback.pred hno (underrunsUpTo_pred_iff hno h)
      | true =>
        rw [if_pos rfl, if_pos rfl, List.append_assoc, List.append_assoc]
        have hlongest' := hlongest.cons (show start ≤ stop by omega) hcall
        refine .longest ?_ _ hlongest'
        -- a partition goes up to `stop`, so no end before it is tried
        rintro ⟨tried, -, htried, hall, hunder⟩
        have hge : stop ≤ tried := hall _ hlongest'.partition hlongest'.first _ rfl
        obtain rfl : tried = stop := by omega
        exact h hunder
    | none h hnone =>
      have hno : ∀ rest, Partition callable size functions stop rest →
          callable f start stop = false :=
        fun rest hpart => absurd hpart.firstAtMost_size (hnone rest hpart)
      rw [Option.bind_some, Fusion.value, Option.bind_some, if_neg (by omega)]
      have hpred := hback.pred hno (underrunsUpTo_pred_iff hno h)
      split
      · rw [if_neg Bool.false_ne_true]
        exact hpred
      · exact hpred

/-- The search for the functions that are left, with all arguments that are left, by induction on
the functions. -/
theorem found_functionFusion (hsize : 0 ≤ size) (functions : List φ) (start : ℤ)
    (hstart : start ≤ size) (processed : List φ) (ranges : List (ℤ × ℤ)) :
    Found callable size functions start size processed ranges
      (Underruns callable size functions start)
      (functionFusion callable size functions start size processed ranges) := by
  induction functions generalizing start processed ranges with
  | nil =>
    rw [functionFusion]
    split
    · next h =>
      obtain ⟨rfl, -⟩ := h
      have hlongest : Longest callable start ([] : List φ) start start [] :=
        ⟨.nil, fun p hp => absurd hp (by simp), fun other hother _ => by cases hother; exact le_rfl⟩
      have hfound : Found callable start [] start start processed ranges
          (Underruns callable start [] start)
          (some (.functionFusionCaller (processed ++ []) (ranges ++ []))) := .longest id [] hlongest
      rwa [List.append_nil, List.append_nil] at hfound
    · next h =>
      refine .none id fun other hother _ => ?_
      cases hother
      exact h ⟨rfl, rfl⟩
  | cons f functions ih =>
    obtain hneg | hnonneg := lt_or_ge start 0
    · rw [functionFusion, isCallable_of_neg hneg (by omega), Option.bind_none]
      exact .error (.inl hneg)
    · rw [propext (underruns_cons_iff hnonneg)]
      exact found_functionFusion_cons hnonneg ih f size le_rfl (by omega) processed ranges

/-- The value of the fusion says whether there is a partition. -/
def SaysWhether (callable : φ → ℤ → ℤ → Bool) (functions : List φ) (shared rest : ℕ) : Prop :=
  ∃ found, fusion callable functions shared rest = some found ∧
    (found.value = some true ↔
      ∃ ranges, Partition callable (shared + rest) functions shared ranges) ∧
    (found.value = some false ↔
      ¬ ∃ ranges, Partition callable (shared + rest) functions shared ranges)

/-- A function of one argument, of any kind. -/
def takesOne (_ : Unit) (start stop : ℤ) : Bool := stop = start + 1

end Util
end NUClear
