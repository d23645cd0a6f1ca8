import NUClear.Foundation.Reachability
import Mathlib.Algebra.BigOperators.Group.List.Basic
import Mathlib.Data.List.Nodup
import Mathlib.Algebra.Order.Ring.Int

/-!
# Interleaving of operations on a shared memory

Any number of threads run operations on one shared memory.  An operation in progress is described by
the point it has reached, with its local variables; the threads themselves do not matter, so a
machine is the memory, the list of the operations in progress and the trace of what was observed.

A step starts a call (`Action.call`) or lets one operation in progress do its next indivisible
access (`Action.advance i x`, where `x` is what the environment decides about the access).  An
operation that is finished leaves the list.  Nobody is scheduled: any operation in the list may move
next, and one may stay where it is for ever.

* `Program`: what a call does first, and what each point of an operation does next.
* `Program.invariant`: the invariant rule, with the operation that moves taken out of the list.
  What an invariant says about the other operations has to survive what this one does to the memory.
* `AtAccess P`: the condition on a run that `P` holds before every access.
* `Completes`: an operation is run alone until it is finished.
* `Program.Calls`: each call is made when the one before has returned, and
  `Program.Within.invariant` is the rule for what happens inside one call.

Three patterns recur in invariants of such machines, each with a lemma for one access.

* `HeldByOne`: mutual exclusion, by counting who holds a lock.
* `Unique f ops`: no two operations in progress have the same value of `f`.
* `total f ops`: the sum of `f` over the operations in progress, for balances.
-/

namespace NUClear
namespace Foundation

universe u v w x y

/-- The memory, the operations in progress, and the trace, latest event first. -/
structure Machine (σ : Type u) (ο : Type v) (ε : Type w) where
  mem : σ
  ops : List ο
  trace : List ε

/-- What an indivisible access leads to: the memory, the point the operation is at then (`none`
when it is finished), and the events it emitted, in order. -/
structure Outcome (σ : Type u) (ο : Type v) (ε : Type w) where
  mem : σ
  next : Option ο
  emitted : List ε

/-- One step of the machine. -/
inductive Action (κ : Type x) (χ : Type y) where
  | call (c : κ)
  | advance (i : ℕ) (choice : χ)
  deriving DecidableEq, Repr

/-- The code of the operations: `call` is the first access of a call, allowed or not by the
operations in progress, and `advance` the next access of an operation in progress. -/
structure Program (σ : Type u) (κ : Type x) (ο : Type v) (χ : Type y) (ε : Type w) where
  call : σ → List ο → κ → Option (Outcome σ ο ε)
  advance : σ → ο → χ → Option (Outcome σ ο ε)

namespace Program

variable {σ : Type u} {κ : Type x} {ο : Type v} {χ : Type y} {ε : Type w}
variable (P : Program σ κ ο χ ε)

/-- One step: the call or the access, if it is possible. -/
def step (m : Machine σ ο ε) : Action κ χ → Option (Machine σ ο ε)
  | .call c =>
      (P.call m.mem m.ops c).map fun r =>
        ⟨r.mem, r.next.toList ++ m.ops, r.emitted.reverse ++ m.trace⟩
  | .advance i z =>
      match m.ops[i]? with
      | none => none
      | some o =>
          (P.advance m.mem o z).map fun r =>
            ⟨r.mem, m.ops.take i ++ (r.next.toList ++ m.ops.drop (i + 1)),
              r.emitted.reverse ++ m.trace⟩

variable {P}

theorem step_call_eq_some {m m' : Machine σ ο ε} {c : κ} (h : P.step m (.call c) = some m') :
    ∃ r, P.call m.mem m.ops c = some r ∧
      m' = ⟨r.mem, r.next.toList ++ m.ops, r.emitted.reverse ++ m.trace⟩ := by
  obtain ⟨r, hr, rfl⟩ := Option.map_eq_some_iff.mp h
  exact ⟨r, hr, rfl⟩

/-- The operation that moves, taken out of the list. -/
theorem step_advance_eq_some {m m' : Machine σ ο ε} {i : ℕ} {z : χ}
    (h : P.step m (.advance i z) = some m') :
    ∃ pre o post r, m.ops = pre ++ o :: post ∧ pre.length = i ∧ P.advance m.mem o z = some r ∧
      m' = ⟨r.mem, pre ++ (r.next.toList ++ post), r.emitted.reverse ++ m.trace⟩ := by
  rw [step] at h
  split at h
  · exact absurd h (by simp)
  · next o ho =>
    obtain ⟨r, hr, rfl⟩ := Option.map_eq_some_iff.mp h
    obtain ⟨hi, hget⟩ := List.getElem?_eq_some_iff.mp ho
    refine ⟨m.ops.take i, o, m.ops.drop (i + 1), r, ?_, ?_, hr, rfl⟩
    · rw [← hget, List.getElem_cons_drop, List.take_append_drop]
    · rw [List.length_take]
      omega

/-- An operation in progress does its next access. -/
theorem step_advance_of {mem : σ} {pre post : List ο} {o : ο} {tr : List ε} {z : χ}
    {r : Outcome σ ο ε} (h : P.advance mem o z = some r) :
    P.step ⟨mem, pre ++ o :: post, tr⟩ (.advance pre.length z) =
      some ⟨r.mem, pre ++ (r.next.toList ++ post), r.emitted.reverse ++ tr⟩ := by
  simp [step, h]

/-- **The invariant rule for interleavings.**  It is enough to look at the first access of a call
and at one access of one operation, whatever the others are. -/
theorem invariant {I : Machine σ ο ε → Prop} {ok : Machine σ ο ε → Action κ χ → Prop}
    {m m' : Machine σ ο ε} (h : Reaches P.step ok m m') (hm : I m)
    (hcall : ∀ mem ops tr c r, I ⟨mem, ops, tr⟩ → ok ⟨mem, ops, tr⟩ (.call c) →
      P.call mem ops c = some r →
      I ⟨r.mem, r.next.toList ++ ops, r.emitted.reverse ++ tr⟩)
    (hadv : ∀ mem pre o post tr z r, I ⟨mem, pre ++ o :: post, tr⟩ →
      ok ⟨mem, pre ++ o :: post, tr⟩ (.advance pre.length z) → P.advance mem o z = some r →
      I ⟨r.mem, pre ++ (r.next.toList ++ post), r.emitted.reverse ++ tr⟩) :
    I m' := by
  refine h.invariant hm fun s a t hs hok hst => ?_
  cases a with
  | call c =>
    obtain ⟨r, hr, rfl⟩ := step_call_eq_some hst
    exact hcall _ _ _ c r hs hok hr
  | advance i z =>
    obtain ⟨pre, o, post, r, hops, rfl, hr, rfl⟩ := step_advance_eq_some hst
    obtain ⟨mem, ops, tr⟩ := s
    subst hops
    exact hadv mem pre o post tr z r hs hok hr

/-- What was observed stays observed. -/
theorem mem_trace_of_reaches {ok : Machine σ ο ε → Action κ χ → Prop} {m m' : Machine σ ο ε} {e : ε}
    (h : Reaches P.step ok m m') (he : e ∈ m.trace) : e ∈ m'.trace := by
  refine h.invariant (P := fun s => e ∈ s.trace) he fun s a t hs _ hst => ?_
  cases a with
  | call c =>
    obtain ⟨r, -, rfl⟩ := step_call_eq_some hst
    exact List.mem_append_right _ hs
  | advance i z =>
    obtain ⟨pre, o, post, r, -, -, -, rfl⟩ := step_advance_eq_some hst
    exact List.mem_append_right _ hs

end Program

/-! ## One operation alone -/

section

variable {σ : Type u} {κ : Type x} {ο ο' : Type v} {χ : Type y} {ε : Type w}

/-- An operation does its accesses, and nobody else does any, until it is finished.  Every access
meets `ok`. -/
inductive Completes (adv : σ → ο → χ → Option (Outcome σ ο ε)) (ok : σ → ο → Prop) :
    σ → List ε → ο → σ → List ε → Prop
  | last {m : σ} {tr : List ε} {o : ο} {z : χ} {r : Outcome σ ο ε} (hok : ok m o)
    (h : adv m o z = some r)
      (hnext : r.next = none) : Completes adv ok m tr o r.mem (r.emitted.reverse ++ tr)
  | step {m m' : σ} {tr tr' : List ε} {o o' : ο} {z : χ} {r : Outcome σ ο ε} (hok : ok m o)
      (h : adv m o z = some r) (hnext : r.next = some o')
      (hrest : Completes adv ok r.mem (r.emitted.reverse ++ tr) o' m' tr') :
        Completes adv ok m tr o m' tr'

namespace Completes

variable {adv : σ → ο → χ → Option (Outcome σ ο ε)} {adv' : σ → ο' → χ → Option (Outcome σ ο' ε)}
  {ok : σ → ο → Prop} {ok' : σ → ο' → Prop} {m m' : σ} {tr tr' : List ε} {o : ο}

theorem moved {z : χ} {m₁ : σ} {o₁ : ο} (hok : ok m o) (h : adv m o z = some ⟨m₁, some o₁, []⟩)
    (hrest : Completes adv ok m₁ tr o₁ m' tr') : Completes adv ok m tr o m' tr' :=
  .step hok h rfl hrest

theorem emits {z : χ} {m₁ : σ} {o₁ : ο} {e : ε} (hok : ok m o)
    (h : adv m o z = some ⟨m₁, some o₁, [e]⟩) (hrest : Completes adv ok m₁ (e :: tr) o₁ m' tr') :
    Completes adv ok m tr o m' tr' :=
  .step hok h rfl hrest

theorem returned {z : χ} (hok : ok m o) (h : adv m o z = some ⟨m', none, []⟩) :
    Completes adv ok m tr o m' tr :=
  .last hok h rfl

theorem emitsLast {z : χ} {e : ε} (hok : ok m o) (h : adv m o z = some ⟨m', none, [e]⟩) :
    Completes adv ok m tr o m' (e :: tr) :=
  .last hok h rfl

/-- The same accesses under another name. -/
theorem map {f : ο → ο'} (h : Completes adv ok m tr o m' tr')
    (hadv : ∀ m o z r, adv m o z = some r → adv' m (f o) z = some ⟨r.mem, r.next.map f, r.emitted⟩)
    (hok : ∀ m o, ok m o → ok' m (f o)) : Completes adv' ok' m tr (f o) m' tr' := by
  induction h with
  | last hx hadv' hnext =>
    exact .last (r := ⟨_, _, _⟩) (hok _ _ hx) (hadv _ _ _ _ hadv') (by rw [hnext]; rfl)
  | step hx hadv' hnext hrest ih =>
    exact .step (r := ⟨_, _, _⟩) (hok _ _ hx) (hadv _ _ _ _ hadv') (by rw [hnext]; rfl) ih

/-- It does so among others. -/
theorem reaches {P : Program σ κ ο χ ε} (h : Completes P.advance ok m tr o m' tr')
    {okStep : Machine σ ο ε → Action κ χ → Prop} (pre post : List ο)
    (hok : ∀ m tr o z, ok m o → okStep ⟨m, pre ++ o :: post, tr⟩ (.advance pre.length z)) :
    Reaches P.step okStep ⟨m, pre ++ o :: post, tr⟩ ⟨m', pre ++ post, tr'⟩ := by
  induction h with
  | @last m tr o z r hx hadv hnext =>
    have hstep : P.step ⟨m, pre ++ o :: post, tr⟩ (.advance pre.length z) =
        some ⟨r.mem, pre ++ (r.next.toList ++ post), r.emitted.reverse ++ tr⟩ :=
      Program.step_advance_of hadv
    rw [hnext] at hstep
    exact .single (hok _ _ _ _ hx) hstep
  | @step m m' tr tr' o o' z r hx hadv hnext hrest ih =>
    have hstep : P.step ⟨m, pre ++ o :: post, tr⟩ (.advance pre.length z) =
        some ⟨r.mem, pre ++ (r.next.toList ++ post), r.emitted.reverse ++ tr⟩ :=
      Program.step_advance_of hadv
    rw [hnext] at hstep
    exact .head (hok _ _ _ _ hx) hstep ih

end Completes

end

/-! ## Calls one after the other -/

section

variable {σ : Type u} {κ : Type x} {ο : Type v} {χ : Type y} {ε : Type w}

/-- The step is an access of an operation in progress. -/
def Action.IsAdvance : Action κ χ → Prop
  | .call _ => False
  | .advance .. => True

namespace Program

variable {P : Program σ κ ο χ ε} {m m' : Machine σ ο ε} {c : κ}

/-- A call is made and runs alone, whatever the environment decides about its accesses. -/
def Within (P : Program σ κ ο χ ε) (m : Machine σ ο ε) (c : κ) (m' : Machine σ ο ε) : Prop :=
  ∃ s, P.step m (.call c) = some s ∧ Reaches P.step (fun _ a => a.IsAdvance) s m'

/-- It has returned. -/
def Returns (P : Program σ κ ο χ ε) (m : Machine σ ο ε) (c : κ) (m' : Machine σ ο ε) : Prop :=
  P.Within m c m' ∧ m'.ops = []

/-- Each call is made when the one before has returned. -/
inductive Calls (P : Program σ κ ο χ ε) (m : Machine σ ο ε) : List κ → Machine σ ο ε → Prop
  | nil : Calls P m [] m
  | concat {m₁ m₂ : Machine σ ο ε} {cs : List κ} {c : κ} (h : Calls P m cs m₁)
    (hc : P.Returns m₁ c m₂) :
      Calls P m (cs ++ [c]) m₂

/-- **The rule for a call that runs alone**: what its first access establishes and every other
access keeps holds until it has returned. -/
theorem Within.invariant {I : σ → Option ο → List ε → Prop} (h : P.Within m c m') (hm : m.ops = [])
    (hcall : ∀ r, P.call m.mem [] c = some r → I r.mem r.next (r.emitted.reverse ++ m.trace))
    (hadv : ∀ mem o tr z r, I mem (some o) tr → P.advance mem o z = some r →
      I r.mem r.next (r.emitted.reverse ++ tr)) :
    ∃ next : Option ο, m'.ops = next.toList ∧ I m'.mem next m'.trace := by
  obtain ⟨s, hs, hreach⟩ := h
  refine hreach.invariant (P := fun s => ∃ next : Option ο, s.ops = next.toList ∧
    I s.mem next s.trace) ?_
    fun s a t hs ha hst => ?_
  · obtain ⟨r, hr, rfl⟩ := step_call_eq_some hs
    rw [hm] at hr
    exact ⟨r.next, by rw [hm, List.append_nil], hcall r hr⟩
  · cases a with
    | call c => exact ha.elim
    | advance i z =>
      obtain ⟨next, hnext, hI⟩ := hs
      obtain ⟨pre, o, post, r, hops, -, hr, rfl⟩ := step_advance_eq_some hst
      obtain ⟨rfl, rfl, rfl⟩ : pre = [] ∧ next = some o ∧ post = [] := by
        cases next with
        | none => exact absurd (hnext.symm.trans hops) (by simp)
        | some o' =>
          rw [hnext, Option.toList_some, List.singleton_eq_append_iff] at hops
          obtain ⟨rfl, heq⟩ | ⟨-, heq⟩ := hops
          · obtain ⟨rfl, rfl⟩ := List.cons.inj heq
            exact ⟨rfl, rfl, rfl⟩
          · exact absurd heq (List.cons_ne_nil _ _)
      exact ⟨r.next, by rw [List.nil_append, List.append_nil], hadv _ _ _ z r hI hr⟩

/-- An operation that completes is that of a call that returns. -/
theorem Returns.of_completes {mem mem' : σ} {tr' es : List ε} {o : ο} {ok : σ → ο → Prop}
    (hcall : P.call m.mem [] c = some ⟨mem, some o, es⟩) (hm : m.ops = [])
    (h : Completes P.advance ok mem (es.reverse ++ m.trace) o mem' tr') :
    P.Returns m c ⟨mem', [], tr'⟩ := by
  refine ⟨⟨⟨mem, [o], es.reverse ++ m.trace⟩, ?_, h.reaches [] [] fun _ _ _ _ _ => trivial⟩, rfl⟩
  rw [step, hm, hcall]
  rfl

end Program

end

/-! ## The operations before and after an access -/

section

variable {ο : Type v} {pre post : List ο} {o o' : ο} {next : Option ο}

/-- An operation after the access is another one, or the one that has moved. -/
theorem mem_access (h : o' ∈ pre ++ (next.toList ++ post)) : o' ∈ pre ++ post ∨ next = some o' := by
  simp only [List.mem_append, Option.mem_toList] at h ⊢
  tauto

theorem mem_of_mem_append (h : o' ∈ pre ++ post) : o' ∈ pre ++ o :: post := by
  simp only [List.mem_append, List.mem_cons] at h ⊢
  tauto

/-- The other operations stay. -/
theorem mem_others (h : o' ∈ pre ++ o :: post) (hne : o' ≠ o) :
    o' ∈ pre ++ (next.toList ++ post) := by
  simp only [List.mem_append, List.mem_cons] at h ⊢
  tauto

end

/-! ## Locks -/

section

variable {ο : Type v} {holds : ο → Bool} {locked locked' : Bool} {pre post ops : List ο} {o : ο}
  {next : Option ο}

/-- One operation, counted apart from the others. -/
theorem countP_middle (p : ο → Bool) :
    (pre ++ o :: post).countP p = (pre ++ post).countP p + (p o).toNat := by
  cases ho : p o <;> simp [ho, Nat.add_assoc]

theorem countP_access (p : ο → Bool) :
    (pre ++ (next.toList ++ post)).countP p = (pre ++ post).countP p + (next.any p).toNat := by
  cases next with
  | none => rfl
  | some o => exact countP_middle p

/-- The lock is held by one operation, or it is free and held by none. -/
def HeldByOne (holds : ο → Bool) (locked : Bool) (ops : List ο) : Prop :=
  ops.countP holds = locked.toNat

/-- An operation that holds the lock is the only one. -/
theorem HeldByOne.held (h : HeldByOne holds locked (pre ++ o :: post)) (ho : holds o = true) :
    locked = true ∧ ∀ o' ∈ pre ++ post, holds o' = false := by
  rw [HeldByOne, List.countP_append, List.countP_cons_of_pos ho] at h
  have hle : locked.toNat ≤ 1 := Bool.toNat_le locked
  have hzero : (pre ++ post).countP holds = 0 := by
    rw [List.countP_append]
    omega
  refine ⟨?_, fun o' ho' => ?_⟩
  · cases locked with
    | true => rfl
    | false => exact absurd h (Nat.succ_ne_zero _)
  · exact Bool.eq_false_iff.mpr (List.countP_eq_zero.mp hzero o' ho')

/-- **An access keeps mutual exclusion**: it takes the lock, releases it, or leaves it as it is. -/
theorem HeldByOne.access (h : HeldByOne holds locked (pre ++ o :: post))
    (hlock : locked = holds o ∧ locked' = next.any holds ∨
      holds o = next.any holds ∧ locked' = locked) :
    HeldByOne holds locked' (pre ++ (next.toList ++ post)) := by
  have hnext : next.toList.countP holds = (next.any holds).toNat := by
    cases next with
    | none => rfl
    | some o' => cases ho : holds o' <;> simp [ho]
  have hself : (o :: post).countP holds = (holds o).toNat + post.countP holds := by
    cases ho : holds o with
    | false => rw [List.countP_cons_of_neg (by rw [ho]; exact Bool.false_ne_true)]; simp
    | true => rw [List.countP_cons_of_pos ho, Nat.add_comm]; rfl
  rw [HeldByOne, List.countP_append, hself] at h
  rw [HeldByOne, List.countP_append, List.countP_append, hnext]
  rcases hlock with ⟨hold, hnew⟩ | ⟨hsame, hlocked⟩
  · rw [hold] at h
    rw [hnew]
    omega
  · rw [hlocked, ← hsame]
    omega

end

/-! ## What one operation has alone -/

section

variable {ο : Type v} {κ : Type w} {f : ο → Option κ} {pre post ops : List ο} {o : ο}
  {next : Option ο} {k : κ}

/-- No two operations in progress have the same value of `f`. -/
def Unique (f : ο → Option κ) (ops : List ο) : Prop := (ops.filterMap f).Nodup

theorem Unique.others (h : Unique f (pre ++ o :: post)) (ho : f o = some k) :
    ∀ o' ∈ pre ++ post, f o' ≠ some k := by
  intro o' ho' heq
  rw [Unique, List.filterMap_append, List.filterMap_cons_some ho, List.nodup_middle,
    List.nodup_cons,
    ← List.filterMap_append] at h
  exact h.1 (List.mem_filterMap.mpr ⟨o', ho', heq⟩)

theorem Unique.call (h : Unique f ops)
    (hnext : ∀ o ∈ next, ∀ k, f o = some k → ∀ o' ∈ ops, f o' ≠ some k) :
    Unique f (next.toList ++ ops) := by
  cases next with
  | none => exact h
  | some o =>
    cases ho : f o with
    | none => rwa [Unique, Option.toList_some, List.singleton_append, List.filterMap_cons_none ho]
    | some k =>
      rw [Unique, Option.toList_some, List.singleton_append, List.filterMap_cons_some ho,
        List.nodup_cons]
      refine ⟨fun hmem => ?_, h⟩
      obtain ⟨o', ho', heq⟩ := List.mem_filterMap.mp hmem
      exact hnext o rfl k ho o' ho' heq

/-- The operation that moves has what no other has. -/
theorem Unique.access (h : Unique f (pre ++ o :: post))
    (hnext : ∀ o' ∈ next, ∀ k, f o' = some k → f o = some k ∨ ∀ o'' ∈ pre ++ post, f o'' ≠ some k) :
    Unique f (pre ++ (next.toList ++ post)) := by
  have hothers : Unique f (pre ++ post) :=
    h.sublist (((List.sublist_cons_self o post).append_left pre).filterMap f)
  have hcall : Unique f (next.toList ++ (pre ++ post)) := by
    refine hothers.call fun o' ho' k hk => ?_
    obtain hold | hnew := hnext o' ho' k hk
    · exact h.others hold
    · exact hnew
  have hperm : (pre ++ (next.toList ++ post)).Perm (next.toList ++ (pre ++ post)) := by
    rw [← List.append_assoc, ← List.append_assoc]
    exact List.perm_append_comm.append_right post
  exact (hperm.filterMap f).nodup_iff.mpr hcall

end

/-! ## Conditions on the accesses of a run -/

/-- A condition on the access that a step makes, of the state before it. -/
def AtAccess {σ : Type u} {κ : Type x} {ο : Type v} {χ : Type y} {ε : Type w}
    (P : Machine σ ο ε → ο → χ → Prop) (m : Machine σ ο ε) : Action κ χ → Prop
  | .call _ => True
  | .advance i z => ∀ o ∈ m.ops[i]?, P m o z

instance {σ : Type u} {κ : Type x} {ο : Type v} {χ : Type y} {ε : Type w}
    (P : Machine σ ο ε → ο → χ → Prop) [∀ m o z, Decidable (P m o z)] (m : Machine σ ο ε) :
    ∀ a : Action κ χ, Decidable (AtAccess P m a)
  | .call _ => .isTrue trivial
  | .advance i z => inferInstanceAs (Decidable (∀ o ∈ m.ops[i]?, P m o z))

theorem AtAccess.intro {σ : Type u} {κ : Type x} {ο : Type v} {χ : Type y} {ε : Type w}
    {P : Machine σ ο ε → ο → χ → Prop} {mem : σ} {pre post : List ο} {o : ο} {tr : List ε} {z : χ}
    (h : P ⟨mem, pre ++ o :: post, tr⟩ o z) :
    AtAccess (κ := κ) P ⟨mem, pre ++ o :: post, tr⟩ (.advance pre.length z) := by
  intro o' ho'
  obtain rfl : o = o' := by simpa using ho'
  exact h

theorem AtAccess.apply {σ : Type u} {κ : Type x} {ο : Type v} {χ : Type y} {ε : Type w}
    {P : Machine σ ο ε → ο → χ → Prop} {mem : σ} {pre post : List ο} {o : ο} {tr : List ε} {z : χ}
    (h : AtAccess (κ := κ) P ⟨mem, pre ++ o :: post, tr⟩ (.advance pre.length z)) :
    P ⟨mem, pre ++ o :: post, tr⟩ o z :=
  h o (by simp)

/-! ## Sums over the operations in progress -/

variable {ο : Type v}

/-- The sum of `f` over the operations in progress. -/
def total (f : ο → ℤ) (ops : List ο) : ℤ := (ops.map f).sum

@[simp] theorem total_nil (f : ο → ℤ) : total f [] = 0 := rfl

@[simp] theorem total_cons (f : ο → ℤ) (o : ο) (ops : List ο) :
    total f (o :: ops) = f o + total f ops := by
  rw [total, List.map_cons, List.sum_cons, total]

@[simp] theorem total_append (f : ο → ℤ) (ops ops' : List ο) :
    total f (ops ++ ops') = total f ops + total f ops' := by
  rw [total, List.map_append, List.sum_append, total, total]

theorem total_nonneg {f : ο → ℤ} {ops : List ο} (h : ∀ o ∈ ops, 0 ≤ f o) : 0 ≤ total f ops := by
  induction ops with
  | nil => simp
  | cons o ops ih =>
    have h₁ := h o (List.mem_cons_self ..)
    have h₂ := ih fun o' ho' => h o' (List.mem_cons_of_mem _ ho')
    rw [total_cons]
    omega

/-- One operation counts at most for the sum of all, when none counts negative. -/
theorem le_total_of_mem {f : ο → ℤ} {ops : List ο} (h : ∀ o ∈ ops, 0 ≤ f o) {o : ο}
    (ho : o ∈ ops) : f o ≤ total f ops := by
  obtain ⟨pre, post, rfl⟩ := List.append_of_mem ho
  have h₁ : 0 ≤ total f pre := total_nonneg fun o' ho' => h o' (by simp [ho'])
  have h₂ : 0 ≤ total f post := total_nonneg fun o' ho' => h o' (by simp [ho'])
  rw [total_append, total_cons]
  omega

/-- A positive sum comes from an operation that counts positive. -/
theorem exists_pos_of_total_pos {f : ο → ℤ} {ops : List ο} (h : 0 < total f ops) :
    ∃ o ∈ ops, 0 < f o := by
  by_contra hc
  push Not at hc
  have : 0 ≤ total (fun o => -f o) ops := total_nonneg fun o ho => by have := hc o ho; omega
  have hneg : total (fun o => -f o) ops = -total f ops := by
    clear h hc this
    induction ops with
    | nil => simp
    | cons o ops ih => rw [total_cons, total_cons, ih]; omega
  omega

end Foundation
end NUClear
