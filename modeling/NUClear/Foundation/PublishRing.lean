import Mathlib.Logic.Function.Basic
import NUClear.Foundation.Interleaving

/-!
# Publication through a ring of slots

A record with several fields is kept in a ring of `N` slots, and an index tells which one is active.
An update takes a mutex, writes the next slot field by field from what the active one holds, and
then makes that slot the active one.  A reader loads the index and copies fields of the slot,
without the mutex; by then the slot may have been written again.

* `Ring.program`: any number of updates and readers, one access at a time.
* `Ring.got_eq`: what a reader has copied is the record that was active when it loaded the index,
  which is the updates until then applied one after the other, if fewer than `N` updates have begun
  after them.

For the statements, the memory also has the records in the order of their publication, and the
number of updates that have begun.

## The invariant

`RecordsKept` says that a published record is in its slot until as many updates have begun as there
are slots: the update number `k` writes slot `k` modulo `N` (`mod_ne_mod`).  An update that has
begun has written the fields that it has come to, and the other fields of its slot are of no use to
anybody (`Op.Placed`).  A reader knows which record it is copying, and as long as few enough updates
have begun every field that it copies is of that record (`Event.Holds`).

An access of an update is one of three: it begins, it writes a field, it publishes
(`RecordsKept.begin`, `RecordsKept.write`, `RecordsKept.publish`); all others leave the slots and
the records as they are (`RecordsKept.frame`).
-/

namespace NUClear
namespace Foundation

universe u v w

/-- The slots, with the records that were published and how many updates have begun. -/
structure Ring (ι : Type u) (V : ι → Type v) where
  slots : ℕ → (f : ι) → V f
  active : ℕ
  locked : Bool
  records : List ((f : ι) → V f)
  begun : ℕ

namespace Ring

variable {ι : Type u} {V : ι → Type v} {U : Type w}

/-- The first record is in all slots, so that a reader never finds a slot without a record. -/
def start (r : (f : ι) → V f) : Ring ι V where
  slots := fun _ => r
  active := 0
  locked := false
  records := [r]
  begun := 0

/-- The number of updates that were published; the first record was not published by an update. -/
def published (m : Ring ι V) : ℕ := m.records.length - 1

/-- The points of the operations, before their accesses: an update copies the active record field by
field, and so does a reader. -/
inductive Op (ι : Type u) (V : ι → Type v) (U : Type w) where
  /-- An update: the mutex is taken. -/
  | lock (x : U)
  /-- The index is loaded. -/
  | load (x : U)
  /-- The first of the rest of the fields is written, in the slot after `c`. -/
  | write (x : U) (c : ℕ) (rest : List ι)
  /-- The mutex is released. -/
  | unlock
  /-- A reader of these fields: the index is loaded. -/
  | find (fields : List ι)
  /-- The first of the rest of the fields is copied from the slot `i`, which was active with the
  record `k`. -/
  | read (k i : ℕ) (copy : (f : ι) → Option (V f)) (rest : List ι)

inductive Call (ι : Type u) (U : Type w) where
  | update (x : U)
  | read (fields : List ι)
  deriving DecidableEq, Repr

inductive Event (ι : Type u) (V : ι → Type v) (U : Type w) where
  /-- An update was published. -/
  | updated (x : U)
  /-- A reader that has loaded the index with the record `k` is done, when so many updates had
  begun. -/
  | got (k begun : ℕ) (copy : (f : ι) → Option (V f))

section program

variable [DecidableEq ι] (N : ℕ) (fields : List ι) (apply : U → ((f : ι) → V f) → (f : ι) → V f)

/-- A field of a slot is written, and the other fields and slots stay. -/
def setField (m : Ring ι V) (i : ℕ) (f : ι) (v : V f) : Ring ι V :=
  { m with slots := Function.update m.slots i (Function.update (m.slots i) f v) }

/-- The next access of an operation.  Only an update waits for the mutex; a reader never does. -/
def advance (m : Ring ι V) : Op ι V U → Option (Outcome (Ring ι V) (Op ι V U) (Event ι V U))
  | .lock x => if m.locked then none else some ⟨{ m with locked := true }, some (.load x), []⟩
  | .load x => some ⟨{ m with begun := m.begun + 1 }, some (.write x m.active fields), []⟩
  | .write x c (f :: rest) =>
      some ⟨m.setField ((c + 1) % N) f (apply x (m.slots c) f), some (.write x c rest), []⟩
  | .write x c [] =>
      some ⟨{ m with active := (c + 1) % N, records := m.records ++ [m.slots ((c + 1) % N)] },
        some .unlock, [.updated x]⟩
  | .unlock => some ⟨{ m with locked := false }, none, []⟩
  | .find fields => some ⟨m, some (.read m.published m.active (fun _ => none) fields), []⟩
  | .read k i copy (f :: rest) =>
      some ⟨m, some (.read k i (Function.update copy f (some (m.slots i f))) rest), []⟩
  | .read k _ copy [] => some ⟨m, none, [.got k m.begun copy]⟩

def call (m : Ring ι V) : Call ι U → Option (Outcome (Ring ι V) (Op ι V U) (Event ι V U))
  | .update x => some ⟨m, some (.lock x), []⟩
  | .read fields => some ⟨m, some (.find fields), []⟩

/-- Any number of updates and readers, interleaved freely.  `fields` is the order in which an update
writes. -/
def program : Program (Ring ι V) (Call ι U) (Op ι V U) Unit (Event ι V U) where
  call m _ := call m
  advance m o _ := advance N fields apply m o

end program

/-! ## Updates exclude each other -/

/-- The operation holds the mutex before the access, so that there is one such operation at most. -/
def Op.holds : Op ι V U → Bool
  | .load _ | .write .. | .unlock => true
  | _ => false

/-- The operation has begun an update and not published it. -/
def Op.writing : Op ι V U → Bool
  | .write .. => true
  | _ => false

section

variable [DecidableEq ι] {N : ℕ} {fields : List ι} {apply : U → ((f : ι) → V f) → (f : ι) → V f}
variable {m : Ring ι V} {o : Op ι V U} {r : Outcome (Ring ι V) (Op ι V U) (Event ι V U)}
  {pre post : List (Op ι V U)}
  {tr : List (Event ι V U)} {init : (f : ι) → V f}

/-- What is known before the access of an operation.  An update has written the fields that are not
left; what a reader has copied is of record `k`, unless the ring came round meanwhile. -/
def Op.Placed (N : ℕ) (apply : U → ((f : ι) → V f) → (f : ι) → V f) (m : Ring ι V) : Op ι V U → Prop
  | .write x c rest =>
    c = m.active ∧ ∀ f, f ∉ rest → m.slots ((c + 1) % N) f = apply x (m.slots c) f
  | .read k i copy _ => k ≤ m.published ∧ i = k % N ∧
      (m.begun < k + N → ∀ f v, copy f = some v → ∃ r, m.records[k]? = some r ∧ v = r f)
  | _ => True

/-- What has been observed: a copy is of the record that was active when the reader began, unless
the ring came round meanwhile. -/
def Event.Holds (N : ℕ) (m : Ring ι V) : Event ι V U → Prop
  | .updated _ => True
  | .got k begun copy =>
    begun < k + N → ∀ f v, copy f = some v → ∃ r, m.records[k]? = some r ∧ v = r f

/-- The updates that were published, in their order: the history that the records are compared with.
-/
def updates : List (Event ι V U) → List U
  | [] => []
  | .updated x :: tr => updates tr ++ [x]
  | .got .. :: tr => updates tr

/-- What holds of every state: updates exclude each other, the records are those of the updates in
their order, and each is in its slot until the ring comes round. -/
structure RecordsKept (N : ℕ) (apply : U → ((f : ι) → V f) → (f : ι) → V f)
    (init : (f : ι) → V f) (m : Ring ι V) (ops : List (Op ι V U)) (tr : List (Event ι V U)) :
    Prop where
  mutex : HeldByOne Op.holds m.locked ops
  writer : HeldByOne Op.writing (decide (m.begun ≠ m.published)) ops
  begun : m.published ≤ m.begun ∧ m.begun ≤ m.published + 1
  length : m.records.length = (updates tr).length + 1
  records : ∀ k r, m.records[k]? = some r →
    r = ((updates tr).take k).foldl (fun r x => apply x r) init
  active : m.active = m.published % N
  /-- A record is in its slot until the update comes that writes the slot again. -/
  slots : ∀ k r, m.records[k]? = some r → m.begun < k + N → m.slots (k % N) = r
  placed : ∀ o ∈ ops, o.Placed N apply m
  events : ∀ e ∈ tr, e.Holds N m

theorem setField_slots_self (m : Ring ι V) (i : ℕ) (f : ι) (v : V f) :
    (m.setField i f v).slots i f = v := by
  simp [setField]

theorem setField_slots_of_ne {i : ℕ} {f g : ι} {v : V f} (h : g ≠ f) :
    (m.setField i f v).slots i g = m.slots i g := by
  simp [setField, h]

/-- What an access does to the mutex: it takes or releases it, or leaves it as it is. -/
theorem mutex_of_advance (h : advance N fields apply m o = some r)
    (hm : o.holds = true → m.locked = true) :
    m.locked = o.holds ∧ r.mem.locked = r.next.any Op.holds ∨
      o.holds = r.next.any Op.holds ∧ r.mem.locked = m.locked := by
  cases o with
  | lock x =>
    rw [advance, Option.ite_none_left_eq_some] at h
    obtain ⟨hl, h⟩ := h
    cases h
    exact Or.inl ⟨Bool.eq_false_iff.mpr hl, rfl⟩
  | unlock => cases h; exact Or.inl ⟨hm rfl, rfl⟩
  | write x c rest => cases rest <;> cases h <;> exact Or.inr ⟨rfl, rfl⟩
  | read k i copy rest => cases rest <;> cases h <;> exact Or.inr ⟨rfl, rfl⟩
  | load x => cases h; exact Or.inr ⟨rfl, rfl⟩
  | find l => cases h; exact Or.inr ⟨rfl, rfl⟩

omit [DecidableEq ι] in
/-- More updates have begun, and the records are still there. -/
theorem Event.Holds.mono {e : Event ι V U} {m' : Ring ι V} (h : e.Holds N m)
    (hrecords : ∀ (k : ℕ) (r : (f : ι) → V f), m.records[k]? = some r → m'.records[k]? = some r) :
    e.Holds N m' := by
  cases e with
  | updated x => trivial
  | got k begun copy =>
    intro hlt f v hv
    obtain ⟨r, hr, hval⟩ := h hlt f v hv
    exact ⟨r, hrecords k r hr, hval⟩

omit [DecidableEq ι] in
/-- What an operation knows stays true when others move; only an update relies on the slots. -/
theorem Op.Placed.mono {m' : Ring ι V} (h : o.Placed N apply m)
    (hpublished : m.published ≤ m'.published) (hbegun : m.begun ≤ m'.begun)
    (hrecords : ∀ (k : ℕ) (r : (f : ι) → V f), m.records[k]? = some r → m'.records[k]? = some r)
    (hslots : o.writing = true → m'.slots = m.slots ∧ m'.active = m.active) :
    o.Placed N apply m' := by
  cases o with
  | write x c rest =>
    obtain ⟨hs, ha⟩ := hslots rfl
    rw [Op.Placed, hs, ha]
    exact h
  | read k i copy rest =>
    refine ⟨h.1.trans hpublished, h.2.1, fun hlt f v hv => ?_⟩
    obtain ⟨r, hr, hval⟩ := h.2.2 (hbegun.trans_lt hlt) f v hv
    exact ⟨r, hrecords k r hr, hval⟩
  | lock x => trivial
  | load x => trivial
  | unlock => trivial
  | find l => trivial

omit [DecidableEq ι] in
theorem holds_of_writing (h : o.writing = true) : o.holds = true := by
  cases o <;> first | rfl | exact Bool.noConfusion h

omit [DecidableEq ι] in
theorem RecordsKept.length_eq (h : RecordsKept N apply init m (pre ++ o :: post) tr) :
    m.records.length = m.published + 1 ∧ m.published = (updates tr).length := by
  have := h.length
  rw [published]
  omega

omit [DecidableEq ι] in
/-- The access leaves the slots and the records as they are. -/
theorem RecordsKept.frame {m' : Ring ι V} {next : Option (Op ι V U)} {evs : List (Event ι V U)}
    (h : RecordsKept N apply init m (pre ++ o :: post) tr)
    (hm : m'.slots = m.slots ∧ m'.active = m.active ∧ m'.records = m.records ∧ m'.begun = m.begun)
    (hmutex : HeldByOne Op.holds m'.locked (pre ++ (next.toList ++ post)))
    (hwriting : o.writing = next.any Op.writing) (hnext : ∀ o' ∈ next, o'.Placed N apply m)
    (hupdates : updates (evs.reverse ++ tr) = updates tr) (hevs : ∀ e ∈ evs, e.Holds N m) :
    RecordsKept N apply init m' (pre ++ (next.toList ++ post)) (evs.reverse ++ tr) := by
  obtain ⟨hslots, hactive, hrecords, hbegun⟩ := hm
  have hpublished : m'.published = m.published := by rw [published, published, hrecords]
  constructor
  case mutex => exact hmutex
  case writer =>
    rw [hbegun, hpublished]
    exact h.writer.access (Or.inr ⟨hwriting, rfl⟩)
  case begun => exact hbegun ▸ hpublished ▸ h.begun
  case length => rw [hrecords, hupdates]; exact h.length
  case records => rw [hrecords, hupdates]; exact h.records
  case active => exact hactive ▸ hpublished ▸ h.active
  case slots => rw [hrecords, hbegun, hslots]; exact h.slots
  case placed =>
    intro o' ho'
    have hp : o'.Placed N apply m := by
      rcases mem_access ho' with ho' | ho'
      · exact h.placed o' (mem_of_mem_append ho')
      · exact hnext o' ho'
    exact hp.mono hpublished.ge hbegun.ge (fun k r hr => hrecords ▸ hr) fun _ => ⟨hslots, hactive⟩
  case events =>
    intro e he
    have hp : e.Holds N m := by
      rcases List.mem_append.mp he with he | he
      · exact hevs e (List.mem_reverse.mp he)
      · exact h.events e he
    exact hp.mono fun k r hr => hrecords ▸ hr

theorem mod_ne_mod {k j : ℕ} (hlt : k < j) (hj : j < k + N) : k % N ≠ j % N := by
  intro heq
  have hdvd : N ∣ j - k := Nat.dvd_of_mod_eq_zero (Nat.sub_mod_eq_zero_of_mod_eq heq.symm)
  have := Nat.le_of_dvd (by omega) hdvd
  omega

omit [DecidableEq ι] in
/-- An operation that holds the mutex: no other one writes. -/
theorem RecordsKept.countP_writing (h : RecordsKept N apply init m (pre ++ o :: post) tr)
    (ho : o.holds = true) :
    (pre ++ post).countP Op.writing = 0 := by
  refine List.countP_eq_zero.mpr fun o' ho' hw => ?_
  exact absurd (holds_of_writing hw) (by rw [(h.mutex.held ho).2 o' ho']; exact Bool.false_ne_true)

omit [DecidableEq ι] in
theorem RecordsKept.begun_of_not_writing (h : RecordsKept N apply init m (pre ++ o :: post) tr)
    (ho : o.holds = true) (hw : o.writing = false) : m.begun = m.published := by
  have hwriter := h.writer
  rw [HeldByOne, countP_middle, h.countP_writing ho, hw] at hwriter
  by_contra hne
  rw [decide_eq_true hne] at hwriter
  exact absurd hwriter (by decide)

omit [DecidableEq ι] in
theorem RecordsKept.begun_of_writing (h : RecordsKept N apply init m (pre ++ o :: post) tr)
    (hw : o.writing = true) :
    m.begun = m.published + 1 := by
  have hne : m.begun ≠ m.published := of_decide_eq_true (h.writer.held hw).1
  have := h.begun
  omega

omit [DecidableEq ι] in
/-- What the others know when a writer moves: no other operation is writing. -/
theorem RecordsKept.placed_others {m' : Ring ι V}
    (h : RecordsKept N apply init m (pre ++ o :: post) tr) (next : Option (Op ι V U))
    (ho : o.holds = true) (hpublished : m.published ≤ m'.published) (hbegun : m.begun ≤ m'.begun)
    (hrecords : ∀ (k : ℕ) (r : (f : ι) → V f), m.records[k]? = some r → m'.records[k]? = some r)
    (hnext : ∀ o' ∈ next, o'.Placed N apply m') :
    ∀ o' ∈ pre ++ (next.toList ++ post), o'.Placed N apply m' := by
  intro o' ho'
  rcases mem_access ho' with ho' | ho'
  · refine (h.placed o' (mem_of_mem_append ho')).mono hpublished hbegun hrecords fun hw => ?_
    have hnot : o'.holds = false := (h.mutex.held ho).2 o' ho'
    exact absurd ((holds_of_writing hw).symm.trans hnot) (by decide)
  · exact hnext o' ho'

omit [DecidableEq ι] in
/-- An update begins: from now on it may write the slot of the oldest record. -/
theorem RecordsKept.begin {x : U} (h : RecordsKept N apply init m (pre ++ .load x :: post) tr)
    (hmutex : HeldByOne Op.holds m.locked (pre ++ (.write x m.active fields :: post)))
    (hfields : ∀ f, f ∈ fields) :
    RecordsKept N apply init { m with begun := m.begun + 1 }
      (pre ++ (.write x m.active fields :: post)) tr := by
  have hbegun := h.begun_of_not_writing rfl rfl
  constructor
  case mutex => exact hmutex
  case writer =>
    have hne : m.begun + 1 ≠ m.published := by omega
    have hone : (pre ++ (.write x m.active fields :: post)).countP Op.writing = 1 := by
      rw [countP_middle, h.countP_writing rfl]
      rfl
    exact hone.trans (congrArg Bool.toNat (decide_eq_true hne)).symm
  case begun => exact ⟨hbegun ▸ Nat.le_succ _, (congrArg Nat.succ hbegun).le⟩
  case length => exact h.length
  case records => exact h.records
  case active => exact h.active
  case slots => exact fun k r hr hlt => h.slots k r hr ((Nat.lt_succ_self _).trans hlt)
  case placed =>
    refine h.placed_others (some (.write x m.active fields)) rfl le_rfl (Nat.le_succ _)
      (fun k r hr => hr) ?_
    rintro _ ⟨⟩
    exact ⟨rfl, fun f hf => absurd (hfields f) hf⟩
  case events => exact fun e he => (h.events e he).mono fun k r hr => hr

/-- A field of the next slot is written, which no record is kept in any more. -/
theorem RecordsKept.write {x : U} {c : ℕ} {f : ι} {rest : List ι}
    (h : RecordsKept N apply init m (pre ++ .write x c (f :: rest) :: post) tr) (hN : 2 ≤ N)
    (hmutex : HeldByOne Op.holds m.locked (pre ++ (.write x c rest :: post))) :
    RecordsKept N apply init (m.setField ((c + 1) % N) f (apply x (m.slots c) f))
      (pre ++ (.write x c rest :: post)) tr := by
  have hbegun : m.begun = m.published + 1 := h.begun_of_writing rfl
  obtain ⟨rfl, hwritten⟩ := h.placed _ (List.mem_append_right _ (List.mem_cons_self ..))
  have hnext : (m.active + 1) % N = (m.published + 1) % N := by rw [h.active, Nat.mod_add_mod]
  have hslot {i : ℕ} (hi : i ≠ (m.active + 1) % N) :
      (m.setField ((m.active + 1) % N) f (apply x (m.slots m.active) f)).slots i = m.slots i :=
    Function.update_of_ne hi _ _
  have hkept : m.active ≠ (m.active + 1) % N := by
    rw [hnext, h.active]
    exact mod_ne_mod (Nat.lt_succ_self _) (by omega)
  constructor
  case mutex => exact hmutex
  case writer =>
    have hw : HeldByOne Op.writing (decide (m.begun ≠ m.published))
        (pre ++ ((some (.write x m.active rest) : Option (Op ι V U)).toList ++ post)) :=
      h.writer.access (Or.inr ⟨rfl, rfl⟩)
    exact hw
  case begun => exact h.begun
  case length => exact h.length
  case records => exact h.records
  case active => exact h.active
  case slots =>
    intro k r hr hlt
    have hk : k < m.published + 1 := h.length_eq.1 ▸ (List.getElem?_eq_some_iff.mp hr).1
    have hlt : m.begun < k + N := hlt
    rw [hslot (hnext ▸ mod_ne_mod hk (hbegun ▸ hlt))]
    exact h.slots k r hr hlt
  case placed =>
    refine h.placed_others (some (.write x m.active rest)) rfl le_rfl le_rfl (fun k r hr => hr) ?_
    rintro _ ⟨⟩
    refine ⟨rfl, fun g hg => ?_⟩
    rw [hslot hkept]
    by_cases hgf : g = f
    · subst hgf
      exact setField_slots_self ..
    · rw [setField_slots_of_ne hgf]
      exact hwritten g (by simp [hgf, hg])
  case events => exact fun e he => (h.events e he).mono fun k r hr => hr

omit [DecidableEq ι] in
/-- The next slot becomes the active one, and its record is the one that the update has made. -/
theorem RecordsKept.publish {x : U} {c : ℕ}
    (h : RecordsKept N apply init m (pre ++ .write x c [] :: post) tr) (hN : 2 ≤ N)
    (hmutex : HeldByOne Op.holds m.locked (pre ++ (.unlock :: post))) :
    RecordsKept N apply init
      { m with active := (c + 1) % N, records := m.records ++ [m.slots ((c + 1) % N)] }
      (pre ++ (.unlock :: post)) (.updated x :: tr) := by
  have hbegun : m.begun = m.published + 1 := h.begun_of_writing rfl
  obtain ⟨rfl, hwritten⟩ := h.placed _ (List.mem_append_right _ (List.mem_cons_self ..))
  obtain ⟨hlength, hupdates⟩ := h.length_eq
  have hnext : (m.active + 1) % N = (m.published + 1) % N := by rw [h.active, Nat.mod_add_mod]
  obtain ⟨r, hr⟩ : ∃ r, m.records[m.published]? = some r := ⟨_, List.getElem?_eq_getElem (by omega)⟩
  have hcurrent : m.slots m.active = r := h.active ▸ h.slots _ r hr (by omega)
  have hnew : m.slots ((m.active + 1) % N) = apply x r :=
    funext fun f => hcurrent ▸ hwritten f List.not_mem_nil
  have hold : ∀ (k : ℕ) (r : (f : ι) → V f), m.records[k]? = some r →
      (m.records ++ [m.slots ((m.active + 1) % N)])[k]? = some r := fun k r hr => by
    rw [List.getElem?_append_left (List.getElem?_eq_some_iff.mp hr).1, hr]
  have hcases : ∀ (k : ℕ) (r' : (f : ι) → V f),
    (m.records ++ [m.slots ((m.active + 1) % N)])[k]? = some r' →
      m.records[k]? = some r' ∨ k = m.published + 1 ∧ r' = apply x r := fun k r' hr' => by
    rcases Nat.lt_or_ge k m.records.length with hk | hk
    · exact Or.inl ((List.getElem?_append_left hk).symm.trans hr')
    · have hlt := (List.getElem?_eq_some_iff.mp hr').1
      rw [List.length_append, List.length_singleton] at hlt
      obtain rfl : k = m.records.length := by omega
      rw [List.getElem?_concat_length, Option.some.injEq, hnew] at hr'
      exact Or.inr ⟨hlength, hr'.symm⟩
  let m' : Ring ι V :=
    { m with
      active := (m.active + 1) % N, records := m.records ++ [m.slots ((m.active + 1) % N)] }
  have hpublished : m'.published = m.published + 1 := by
    rw [published, List.length_append, List.length_singleton]
    omega
  constructor
  case mutex => exact hmutex
  case writer =>
    have hzero : (pre ++ (.unlock :: post)).countP Op.writing = 0 := by
      rw [countP_middle, h.countP_writing rfl]
      rfl
    refine hzero.trans (congrArg Bool.toNat (decide_eq_false ?_)).symm
    exact fun hne => hne (hbegun.trans hpublished.symm)
  case begun =>
    exact ⟨(hpublished.trans hbegun.symm).le,
    (hbegun.trans hpublished.symm).le.trans (Nat.le_succ _)⟩
  case length => simp [updates, h.length]
  case records =>
    intro k r' hr'
    rw [updates]
    rcases hcases k r' hr' with hr' | ⟨rfl, rfl⟩
    · have hk := (List.getElem?_eq_some_iff.mp hr').1
      rw [List.take_append_of_le_length (by omega)]
      exact h.records k r' hr'
    · rw [List.take_of_length_le (by simp [hupdates]), List.foldl_concat, h.records _ r hr,
        hupdates, List.take_length]
  case active => exact hnext.trans (congrArg (· % N) hpublished.symm)
  case slots =>
    intro k r' hr' hlt
    rcases hcases k r' hr' with hr' | ⟨rfl, rfl⟩
    · exact h.slots k r' hr' hlt
    · exact hnext ▸ hnew
  case placed =>
    refine h.placed_others (some .unlock) rfl (hpublished ▸ Nat.le_succ _) le_rfl hold ?_
    rintro _ ⟨⟩
    trivial
  case events =>
    intro e he
    rcases List.mem_cons.mp he with rfl | he
    · trivial
    · exact (h.events e he).mono hold

/-- **An access keeps the invariant.**  There are at least two slots, and an update writes all
fields. -/
theorem RecordsKept.access (h : RecordsKept N apply init m (pre ++ o :: post) tr) (hN : 2 ≤ N)
    (hfields : ∀ f, f ∈ fields) (ha : advance N fields apply m o = some r) :
    RecordsKept N apply init r.mem (pre ++ (r.next.toList ++ post)) (r.emitted.reverse ++ tr) := by
  have ho : o ∈ pre ++ o :: post := List.mem_append_right _ (List.mem_cons_self ..)
  have hplaced := h.placed o ho
  have hmutex := h.mutex.access (mutex_of_advance ha fun hm => (h.mutex.held hm).1)
  cases o with
  | lock x =>
    rw [advance, Option.ite_none_left_eq_some] at ha
    obtain ⟨-, ha⟩ := ha
    cases ha
    exact h.frame ⟨rfl, rfl, rfl, rfl⟩ hmutex rfl
      (by rintro _ ⟨⟩; trivial) rfl (List.forall_mem_nil _)
  | load x =>
    cases ha
    exact h.begin hmutex hfields
  | write x c rest =>
    cases rest with
    | nil =>
      cases ha
      exact h.publish hN hmutex
    | cons f rest =>
      cases ha
      exact h.write hN hmutex
  | unlock =>
    cases ha
    exact h.frame ⟨rfl, rfl, rfl, rfl⟩ hmutex rfl (by rintro _ ⟨⟩) rfl (List.forall_mem_nil _)
  | find l =>
    cases ha
    refine h.frame ⟨rfl, rfl, rfl, rfl⟩ hmutex rfl ?_ rfl (List.forall_mem_nil _)
    rintro _ ⟨⟩
    exact ⟨le_rfl, h.active, fun _ f v hv => absurd hv (by simp)⟩
  | read k i copy rest =>
    cases rest with
    | nil =>
      cases ha
      refine h.frame ⟨rfl, rfl, rfl, rfl⟩ hmutex rfl (by rintro _ ⟨⟩) rfl ?_
      exact List.forall_mem_singleton.mpr hplaced.2.2
    | cons f rest =>
      cases ha
      refine h.frame ⟨rfl, rfl, rfl, rfl⟩ hmutex rfl ?_ rfl (List.forall_mem_nil _)
      rintro _ ⟨⟩
      refine ⟨hplaced.1, hplaced.2.1, fun hlt g v hv => ?_⟩
      -- the field that is copied now, or one that was copied before
      by_cases hg : g = f
      · subst hg
        rw [Function.update_self, Option.some.injEq] at hv
        obtain ⟨r, hr⟩ : ∃ r, m.records[k]? = some r :=
          ⟨_, List.getElem?_eq_getElem (by
            have := h.length_eq
            have hk : k ≤ m.published := hplaced.1
            omega)⟩
        exact ⟨r, hr, by rw [← hv, hplaced.2.1, h.slots k r hr hlt]⟩
      · rw [Function.update_of_ne hg] at hv
        exact hplaced.2.2 hlt g v hv

omit [DecidableEq ι] in
theorem recordsKept_start (init : (f : ι) → V f) : RecordsKept N apply init (start init) [] [] where
  mutex := rfl
  writer := rfl
  begun := ⟨le_rfl, Nat.le_succ _⟩
  length := rfl
  records k r hr := by
    obtain rfl : k = 0 := Nat.lt_one_iff.mp (List.getElem?_eq_some_iff.mp hr).1
    exact (Option.some.inj hr).symm
  active := (Nat.zero_mod N).symm
  slots k r hr _ := by
    obtain rfl : k = 0 := Nat.lt_one_iff.mp (List.getElem?_eq_some_iff.mp hr).1
    exact Option.some.inj hr
  placed := List.forall_mem_nil _
  events := List.forall_mem_nil _

theorem recordsKept_of_reaches {s : Machine (Ring ι V) (Op ι V U) (Event ι V U)}
    {ok : Machine (Ring ι V) (Op ι V U) (Event ι V U) → Action (Call ι U) Unit → Prop}
    (h : Reaches (program N fields apply).step ok ⟨start init, [], []⟩ s) (hN : 2 ≤ N)
    (hfields : ∀ f, f ∈ fields) :
    RecordsKept N apply init s.mem s.ops s.trace := by
  refine Program.invariant (I := fun s => RecordsKept N apply init s.mem s.ops s.trace) h
    (recordsKept_start init) ?_ ?_
  · intro mem ops tr c r hI _ hr
    have hpush {o : Op ι V U} (hh : o.holds = false) (hw : o.writing = false)
      (hp : o.Placed N apply mem) :
        RecordsKept N apply init mem (o :: ops) tr := by
      refine { hI with
        mutex := ?_, writer := ?_, placed := List.forall_mem_cons.mpr ⟨hp, hI.placed⟩ }
      · simpa [HeldByOne, hh] using hI.mutex
      · simpa [HeldByOne, hw] using hI.writer
    cases c with
    | update x => cases hr; exact hpush rfl rfl trivial
    | read fields => cases hr; exact hpush rfl rfl trivial
  · intro mem pre o post tr z r hI _ hr
    exact hI.access hN hfields hr

/-- **A reader that is not too slow has copied one record**, that of the updates which were
published when it loaded the index. -/
theorem got_eq {s : Machine (Ring ι V) (Op ι V U) (Event ι V U)}
    {ok : Machine (Ring ι V) (Op ι V U) (Event ι V U) → Action (Call ι U) Unit → Prop}
    (h : Reaches (program N fields apply).step ok ⟨start init, [], []⟩ s) (hN : 2 ≤ N)
    (hfields : ∀ f, f ∈ fields) {k begun : ℕ} {copy : (f : ι) → Option (V f)}
    (he : .got k begun copy ∈ s.trace) (hlt : begun < k + N) (f : ι) {v : V f}
    (hv : copy f = some v) : v = ((updates s.trace).take k).foldl
    (fun r x => apply x r) init f := by
  have hs := recordsKept_of_reaches h hN hfields
  obtain ⟨r, hr, rfl⟩ := hs.events _ he hlt f v hv
  rw [hs.records k r hr]

end

end Ring

end Foundation
end NUClear
