import NUClear.Foundation.Pieces
import NUClear.Util.Xxhash

/-!
# The serialisation of messages (`Serialise.hpp`)

A type that is trivially copyable is serialised by copying its bytes, and an iterable of such a type
by copying the bytes of its elements one after another.  Both refuse bytes whose number is not
right; a protocol buffer refuses nothing.  The hash of a type is that of its name.

* `TriviallyCopyable`: a type whose values are copied with their bytes, so that a value is got back
  from its own.  The field of the structure says so.
* `Serialise.trivial`, `Serialise.iterable`, `Serialise.protobuf`: the specialisations.
* `Serialise.Lawful`: what is serialised is deserialised to the same value; `lawful_trivial`,
  `lawful_iterable`.
* `deserialise_iterable_eq_ok_iff`: which bytes an iterable is deserialised from.  They are read as
  an array of elements (`Foundation.pieces`).
* `iterable_exact`: an iterable is deserialised exactly from the bytes that it is serialised to,
  when the element type has no padding and no values that are not in use (`Compact`); bytes are
  refused exactly when their number is not a multiple of the size of an element.
-/

namespace NUClear
namespace Util

open Foundation

universe u

/-- `std::length_error`, with its message. -/
structure LengthError where
  what : String
  deriving DecidableEq, Repr

/-- What both specialisations throw when the bytes cannot be a value of the type. -/
def wrongSize : LengthError := ⟨"Serialised data is not the correct size"⟩

/-- The serialisation of a type: its two functions, and the hash by which its messages are told from
those of other types. -/
structure Serialise (α : Type u) where
  serialise : α → Bytes
  deserialise : Bytes → Except LengthError α
  hash : BitVec 64

/-- A type that is trivially copyable: its values are copied with their bytes, and the bytes of a
value give the value. -/
structure TriviallyCopyable (α : Type u) where
  /-- `sizeof(T)`. -/
  sizeof : ℕ
  sizeof_pos : 0 < sizeof
  toBytes : α → Bytes
  length_toBytes : ∀ a, (toBytes a).length = sizeof
  ofBytes : Bytes → α
  ofBytes_toBytes : ∀ a, ofBytes (toBytes a) = a

namespace TriviallyCopyable

/-- No bytes of the type are padding, and all their values are in use. -/
def Compact {α : Type u} (c : TriviallyCopyable α) : Prop :=
  ∀ b : Bytes, b.length = c.sizeof → c.toBytes (c.ofBytes b) = b

end TriviallyCopyable

/-- `xxhash64`, of the name of a type on a host, with the seed of the source. -/
def hashName (littleEndian : Bool) (name : Bytes) : BitVec 64 :=
  (Xxhash.xxhash64 littleEndian name 0x4e55436c).value

namespace Serialise

variable {α : Type u}

/-- Trivially copyable data: its bytes, and it is refused when there are more or fewer of them. -/
def trivial (littleEndian : Bool) (name : Bytes) (c : TriviallyCopyable α) : Serialise α where
  serialise a := c.toBytes a
  deserialise b := if b.length ≠ c.sizeof then .error wrongSize else .ok (c.ofBytes b)
  hash := hashName littleEndian name

/-- An iterable of trivially copyable data: the bytes of its elements one behind the other, without
their number. -/
def iterable (littleEndian : Bool) (name : Bytes) (c : TriviallyCopyable α) :
    Serialise (List α) where
  serialise l := l.flatMap c.toBytes
  deserialise b :=
    if b.length % c.sizeof ≠ 0 then .error wrongSize else .ok ((pieces c.sizeof b).map c.ofBytes)
  hash := hashName littleEndian name

/-- A protocol buffer.  What `ParseFromArray` returns is not looked at. -/
def protobuf (littleEndian : Bool) (name : Bytes) (serializeToArray : α → Bytes)
    (parseFromArray : Bytes → α) :
    Serialise α where
  serialise := serializeToArray
  deserialise b := .ok (parseFromArray b)
  hash := hashName littleEndian name

/-- What is serialised is deserialised to the same value, without an exception. -/
def Lawful (s : Serialise α) : Prop := ∀ a, s.deserialise (s.serialise a) = .ok a

variable {littleEndian : Bool} {name : Bytes} {c : TriviallyCopyable α}

theorem lawful_trivial : (trivial littleEndian name c).Lawful := by
  intro a
  simp only [trivial, c.length_toBytes, ne_eq, not_true, if_false, c.ofBytes_toBytes]

theorem length_flatMap_toBytes (l : List α) :
    (l.flatMap c.toBytes).length = c.sizeof * l.length := by
  induction l with
  | nil => rfl
  | cons a l ih =>
    rw [List.flatMap_cons, List.length_append, ih, c.length_toBytes, List.length_cons,
      Nat.mul_succ, Nat.add_comm]

theorem lawful_iterable : (iterable littleEndian name c).Lawful := by
  intro l
  have hcopies : c.ofBytes ∘ c.toBytes = id := funext c.ofBytes_toBytes
  simp only [iterable, length_flatMap_toBytes, Nat.mul_mod_right, ne_eq, not_true, if_false,
    pieces_flatMap c.sizeof_pos c.length_toBytes, List.map_map, hcopies, List.map_id]

theorem deserialise_iterable_eq_ok_iff {b : Bytes} {l : List α} :
    (iterable littleEndian name c).deserialise b = .ok l ↔
      c.sizeof ∣ b.length ∧ (pieces c.sizeof b).map c.ofBytes = l := by
  simp only [iterable]
  split_ifs with h
  · exact iff_of_false (fun he => nomatch he) fun hd => h (Nat.mod_eq_zero_of_dvd hd.1)
  · rw [Except.ok.injEq, and_iff_right (Nat.dvd_of_mod_eq_zero (not_not.mp h))]

/-- The bytes of what is deserialised are those that it was deserialised from. -/
theorem serialise_of_deserialise (hc : c.Compact) {b : Bytes} {l : List α}
    (h : (iterable littleEndian name c).deserialise b = .ok l) :
    (iterable littleEndian name c).serialise l = b := by
  obtain ⟨hdvd, rfl⟩ := deserialise_iterable_eq_ok_iff.mp h
  show ((pieces c.sizeof b).map c.ofBytes).flatMap c.toBytes = b
  have hblocks : (pieces c.sizeof b).map (fun x => c.toBytes (c.ofBytes x)) =
    pieces c.sizeof b := by
    conv_rhs => rw [← List.map_id (pieces c.sizeof b)]
    exact List.map_congr_left fun x hx => hc x (length_of_mem_pieces hx)
  rw [List.flatMap_map, List.flatMap_def, hblocks, flatten_pieces c.sizeof_pos hdvd]

/-- **The format of an iterable.**  The bytes that a list is serialised to are deserialised to the
list; bytes are refused exactly when their number is not a multiple of the size of an element; and
when the type has no padding, the bytes that are deserialised to a list are those that the list is
serialised to, and no others. -/
theorem iterable_exact (littleEndian : Bool) (name : Bytes) (c : TriviallyCopyable α) :
    (∀ l, (iterable littleEndian name c).deserialise
    ((iterable littleEndian name c).serialise l) = .ok l) ∧
    (∀ b, (iterable littleEndian name c).deserialise b = .error wrongSize ↔ ¬ c.sizeof ∣ b.length) ∧
    (c.Compact → ∀ b l, (iterable littleEndian name c).deserialise b = .ok l ↔
      (iterable littleEndian name c).serialise l = b) := by
  refine ⟨lawful_iterable, fun b => ?_, fun hc b l => ⟨serialise_of_deserialise hc, ?_⟩⟩
  · simp only [iterable, Nat.dvd_iff_mod_eq_zero]
    split_ifs with h
    · exact iff_of_true rfl h
    · exact iff_of_false (fun he => nomatch he) h
  · rintro rfl
    exact lawful_iterable l

end Serialise

end Util
end NUClear
