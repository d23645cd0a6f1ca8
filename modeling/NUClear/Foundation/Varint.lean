import NUClear.Foundation.CheckedMemory

/-!
# Readers of bytes, and base-128 varints

A reader takes bytes from the front of a list and gives what it has read with what is left, or
nothing when the bytes are malformed or end too early.  It is `Local` when it does not look at what
comes after the bytes that it takes: then it reads the same with other bytes behind them.

* `Reader.all`: a reader, again and again until the bytes end.  A reader that takes a byte at least
  needs no more rounds than there are bytes (`allWithin_of_le`).
* `readBytes`, `readFixed`, `readVarint`: so many bytes, a little-endian number, a varint.
* `digits n v`: `n` base-128 digits of `v` that say that there are more, and the next one that says
  that it is the last.  `readVarint_digits` reads them back, also when the number has less digits: a
  varint may be padded, which is how a length is reserved before it is known.
* `readDigits_local`, `readVarint_takes`: what the general lemmas about readers ask for.
-/

namespace NUClear
namespace Foundation

/-- A reader gives what it has read and the bytes that are left. -/
abbrev Reader (α : Type) := Bytes → Option (α × Bytes)

namespace Reader

variable {α : Type} {p : Reader α} {bs rest more : Bytes} {a : α} {n : ℕ}

/-- The reader looks at the bytes that it takes only. -/
def Local (p : Reader α) : Prop :=
  ∀ ⦃bs a rest⦄, p bs = some (a, rest) → ∀ more, p (bs ++ more) = some (a, rest ++ more)

/-- The reader takes a byte at least. -/
def Takes (p : Reader α) : Prop := ∀ ⦃bs a rest⦄, p bs = some (a, rest) → rest.length < bs.length

/-- One local reading with two continuations. -/
theorem Local.eq_of_append (hp : Local p) (h : p bs = some (a, rest)) {b : α} {rest' : Bytes}
    (h' : p (bs ++ more) = some (b, rest')) : b = a ∧ rest' = rest ++ more := by
  have hsame := (hp h more).symm.trans h'
  simp only [Option.some.injEq, Prod.mk.injEq] at hsame
  exact ⟨hsame.1.symm, hsame.2.symm⟩

/-- At most `n` readings, until the bytes end. -/
def allWithin (p : Reader α) : ℕ → Bytes → Option (List α)
  | _, [] => some []
  | 0, _ :: _ => none
  | n + 1, b :: bs => (p (b :: bs)).bind fun r => (allWithin p n r.2).map (r.1 :: ·)

/-- The readings until the bytes end. -/
def all (p : Reader α) (bs : Bytes) : Option (List α) := allWithin p bs.length bs

@[simp] theorem allWithin_nil (p : Reader α) (n : ℕ) : allWithin p n [] = some [] := by
  cases n <;> rfl

@[simp] theorem all_nil (p : Reader α) : all p [] = some [] := rfl

/-- More rounds than bytes change nothing. -/
theorem allWithin_of_le (hp : Takes p) (h : bs.length ≤ n) : allWithin p n bs = all p bs := by
  induction n using Nat.strongRecOn generalizing bs with
  | ind n ih =>
    cases bs with
    | nil => rw [allWithin_nil, all_nil]
    | cons b bs =>
      cases n with
      | zero => exact absurd h (by simp)
      | succ n =>
        have hlen : bs.length ≤ n := Nat.le_of_succ_le_succ h
        rw [all, List.length_cons, allWithin, allWithin]
        refine Option.bind_congr fun r hr => ?_
        have hlt : r.2.length ≤ bs.length := Nat.le_of_lt_succ (hp hr)
        rw [ih n (Nat.lt_succ_self n) (Nat.le_trans hlt hlen)]
        by_cases hn : bs.length = n
        · rw [hn, ih n (Nat.lt_succ_self n) (Nat.le_trans hlt hlen)]
        · rw [ih bs.length (by omega) hlt]

theorem all_cons (hp : Takes p) (h : bs ≠ []) :
    all p bs = (p bs).bind fun r => (all p r.2).map (r.1 :: ·) := by
  cases bs with
  | nil => exact absurd rfl h
  | cons b bs =>
    rw [all, List.length_cons, allWithin]
    refine Option.bind_congr fun r hr => ?_
    rw [allWithin_of_le hp (Nat.le_of_lt_succ (hp hr))]

/-- The first reading, and the others. -/
theorem all_of_eq_some (hp : Takes p) (h : p bs = some (a, rest)) :
    all p bs = (all p rest).map (a :: ·) := by
  have hne : bs ≠ [] := by
    rintro rfl
    exact absurd (hp h) (Nat.not_lt_zero _)
  rw [all_cons hp hne, h, Option.bind_some]

theorem eq_nil_of_all (hp : Takes p) (h : all p bs = some []) : bs = [] := by
  by_contra hne
  rw [all_cons hp hne] at h
  obtain ⟨r, -, hr⟩ := Option.bind_eq_some_iff.mp h
  obtain ⟨as, -, has⟩ := Option.map_eq_some_iff.mp hr
  exact absurd has (List.cons_ne_nil _ _)

theorem exists_of_all_cons (hp : Takes p) {as : List α} (h : all p bs = some (a :: as)) :
    ∃ rest, p bs = some (a, rest) ∧ all p rest = some as := by
  have hne : bs ≠ [] := by
    rintro rfl
    exact absurd h nofun
  rw [all_cons hp hne] at h
  obtain ⟨⟨a', rest⟩, hread, hr⟩ := Option.bind_eq_some_iff.mp h
  obtain ⟨as', has, heq⟩ := Option.map_eq_some_iff.mp hr
  obtain ⟨rfl, rfl⟩ := List.cons.inj heq
  exact ⟨rest, hread, has⟩

end Reader

/-! ## Bytes and fixed-width numbers -/

/-- The next `n` bytes. -/
def readBytes (n : ℕ) : Reader Bytes := fun bs =>
  if n ≤ bs.length then some (bs.take n, bs.drop n) else none

/-- A number of `n` bytes, the least significant first. -/
def readFixed (n : ℕ) : Reader ℕ := fun bs => (readBytes n bs).map fun r => (leValue r.1, r.2)

variable {bs rest more : Bytes} {n v : ℕ}

theorem readBytes_eq_some {b : Bytes} (h : readBytes n bs = some (b, rest)) :
    bs = b ++ rest ∧ b.length = n := by
  unfold readBytes at h
  split_ifs at h with hn
  obtain ⟨rfl, rfl⟩ := Prod.mk.inj (Option.some.inj h)
  exact ⟨(List.take_append_drop n bs).symm, List.length_take_of_le hn⟩

theorem readBytes_append (b rest : Bytes) : readBytes b.length (b ++ rest) = some (b, rest) := by
  have hle : b.length ≤ (b ++ rest).length := by
    rw [List.length_append]
    exact Nat.le_add_right _ _
  rw [readBytes, if_pos hle, List.take_left, List.drop_left]

theorem readBytes_local (n : ℕ) : Reader.Local (readBytes n) := by
  intro bs b rest h more
  obtain ⟨rfl, rfl⟩ := readBytes_eq_some h
  rw [List.append_assoc, readBytes_append]

theorem readFixed_leBytes {k : ℕ} (hv : v < 256 ^ k) (rest : Bytes) :
    readFixed k (leBytes k v ++ rest) = some (v, rest) := by
  have hread := readBytes_append (leBytes k v) rest
  rw [length_leBytes] at hread
  rw [readFixed, hread, Option.map_some, leValue_leBytes_of_lt hv]

theorem readFixed_local (n : ℕ) : Reader.Local (readFixed n) := by
  intro bs v rest h more
  obtain ⟨⟨b, rest'⟩, hread, heq⟩ := Option.map_eq_some_iff.mp h
  obtain ⟨rfl, rfl⟩ := Prod.mk.inj heq
  rw [readFixed, readBytes_local n hread more, Option.map_some]

theorem length_le_of_readFixed (h : readFixed n bs = some (v, rest)) : rest.length ≤ bs.length := by
  obtain ⟨⟨b, rest'⟩, hread, heq⟩ := Option.map_eq_some_iff.mp h
  obtain ⟨rfl, rfl⟩ := Prod.mk.inj heq
  rw [(readBytes_eq_some hread).1, List.length_append]
  exact Nat.le_add_left _ _

/-! ## Varints -/

/-- A varint of at most `n` bytes: seven bits a byte, and the eighth says that there are more. -/
def readDigits : ℕ → Reader ℕ
  | 0, _ => none
  | _ + 1, [] => none
  | n + 1, b :: bs =>
      if b.toNat < 128 then some (b.toNat, bs)
      else (readDigits n bs).map fun r => (b.toNat - 128 + 128 * r.1, r.2)

/-- A varint has at most ten bytes, and 64 bits of it count. -/
def readVarint : Reader ℕ := fun bs => (readDigits 10 bs).map fun r => (r.1 % 2 ^ 64, r.2)

/-- `n` digits of `v` with more to come, and the last.  With enough digits the number is read back,
and the leading ones may be zero. -/
def digits : ℕ → ℕ → Bytes
  | 0, v => [BitVec.ofNat 8 (v % 128)]
  | n + 1, v => BitVec.ofNat 8 (v % 128 + 128) :: digits n (v / 128)

@[simp] theorem length_digits (n v : ℕ) : (digits n v).length = n + 1 := by
  induction n generalizing v with
  | zero => rfl
  | succ n ih => rw [digits, List.length_cons, ih]

/-- The digits are those of the number modulo a power of 128. -/
theorem readDigits_digits {k : ℕ} (hn : n < k) (v : ℕ) (rest : Bytes) :
    readDigits k (digits n v ++ rest) = some (v % 128 ^ (n + 1), rest) := by
  induction n generalizing k v with
  | zero =>
    obtain ⟨k, rfl⟩ := Nat.exists_eq_add_one_of_ne_zero (Nat.ne_of_gt hn)
    have hbyte : (BitVec.ofNat 8 (v % 128)).toNat = v % 128 := by
      rw [BitVec.toNat_ofNat]
      omega
    rw [digits, List.singleton_append, readDigits, hbyte,
      if_pos (Nat.mod_lt _ (by decide)), pow_one]
  | succ n ih =>
    obtain ⟨k, rfl⟩ := Nat.exists_eq_add_one_of_ne_zero (Nat.ne_of_gt (Nat.zero_lt_of_lt hn))
    have hbyte : (BitVec.ofNat 8 (v % 128 + 128)).toNat = v % 128 + 128 := by
      rw [BitVec.toNat_ofNat]
      omega
    have hpow : 128 ^ (n + 1 + 1) = 128 * 128 ^ (n + 1) := Nat.pow_succ'
    rw [digits, List.cons_append, readDigits, hbyte,
      if_neg (by omega), ih (by omega), Option.map_some,
      hpow, Nat.mod_mul, Nat.add_sub_cancel]

theorem readVarint_digits (hn : n < 10) (hv : v % 128 ^ (n + 1) < 2 ^ 64) (rest : Bytes) :
    readVarint (digits n v ++ rest) = some (v % 128 ^ (n + 1), rest) := by
  rw [readVarint, readDigits_digits hn, Option.map_some, Nat.mod_eq_of_lt hv]

theorem readDigits_local (n : ℕ) : Reader.Local (readDigits n) := by
  induction n with
  | zero => exact fun bs v rest h => absurd h nofun
  | succ n ih =>
    intro bs v rest h more
    cases bs with
    | nil => exact absurd h nofun
    | cons b bs =>
      rw [readDigits] at h
      rw [List.cons_append, readDigits]
      split_ifs at h ⊢ with hb
      · obtain ⟨rfl, rfl⟩ := Prod.mk.inj (Option.some.inj h)
        rfl
      · obtain ⟨⟨w, rest'⟩, hread, heq⟩ := Option.map_eq_some_iff.mp h
        obtain ⟨rfl, rfl⟩ := Prod.mk.inj heq
        rw [ih hread more, Option.map_some]

theorem readVarint_local : Reader.Local readVarint := by
  intro bs v rest h more
  obtain ⟨⟨w, rest'⟩, hread, heq⟩ := Option.map_eq_some_iff.mp h
  obtain ⟨rfl, rfl⟩ := Prod.mk.inj heq
  rw [readVarint, readDigits_local 10 hread more, Option.map_some]

theorem length_lt_of_readDigits (h : readDigits n bs = some (v, rest)) :
    rest.length < bs.length := by
  induction n generalizing bs v with
  | zero => exact absurd h nofun
  | succ n ih =>
    cases bs with
    | nil => exact absurd h nofun
    | cons b bs =>
      rw [readDigits] at h
      split_ifs at h
      · obtain ⟨rfl, rfl⟩ := Prod.mk.inj (Option.some.inj h)
        exact Nat.lt_succ_self _
      · obtain ⟨⟨w, rest'⟩, hread, heq⟩ := Option.map_eq_some_iff.mp h
        obtain ⟨rfl, rfl⟩ := Prod.mk.inj heq
        exact Nat.lt_succ_of_lt (ih hread)

theorem readVarint_takes : Reader.Takes readVarint := by
  intro bs v rest h
  obtain ⟨⟨w, rest'⟩, hread, heq⟩ := Option.map_eq_some_iff.mp h
  obtain ⟨rfl, rfl⟩ := Prod.mk.inj heq
  exact length_lt_of_readDigits hread

end Foundation
end NUClear
