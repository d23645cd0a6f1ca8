import Mathlib.Data.List.Basic
import NUClear.Foundation.Varint

/-!
# The protobuf encoding of the trace (`extension/trace/protobuf.cpp`)

A message is written field by field to the end of the data.  A sub-message reserves the bytes of its
length before its fields are written, and fills them in when it is destroyed.

* `Entry.write`, `writeAll`: the calls that write a tree, and `Entry.write_eq`, `writeAll_eq`: what
  they append.  A sub-message lives while its fields are written, so the writers of trees and of
  lists of trees call each other.
* `decode`: the wire format read back.  The format does not have the types of the fields, so that
  the decoder is given them (`Kind`).  It is written from the format and not from the encoder.
* `decode_writeAll_iff`: the tree is read back if and only if every sub-message fits in the bytes
  that are reserved for its length (`Fits`).

## The proof

A varint that is written is so many base-128 digits (`varint_eq_digits`, `redundantVarintFrom_eq`),
and the readers of the library read digits back, whatever comes behind them.

* `Entry.readRecord_encoding`: a field that fits is read back, by induction on the tree;
  `decode_encodings` is the same for the fields of a message.
* `Entry.fits_of_read`: the other direction.  A field that is read back fits: a length that is cut
  off makes the reading end too early, and then something is left that cannot be what comes next
  (`eq_append_of_readRecord`).
* `not_roundTrip_longMessage`: a sub-message of more than `2 ^ 14` bytes.
-/

namespace NUClear
namespace Extension
namespace Trace
namespace Protobuf

open Foundation

/-! ## `encode` -/

namespace Encode

/-- The loop of `redundant_varint`, with the number of its rounds to come: every byte but the last
says that another one follows. -/
def redundantVarintFrom : ℕ → ℕ → Bytes
  | 0, v => [BitVec.ofNat 8 (v &&& 0x7F)]
  | i + 1, v => BitVec.ofNat 8 (v &&& 0x7F ||| 0x80) :: redundantVarintFrom i (v >>> 7)

/-- `redundant_varint`, of at least one byte.  The value is a `uint32_t`. -/
def redundantVarint (value nBytes : ℕ) : Bytes := redundantVarintFrom (nBytes - 1) (value % 2 ^ 32)

/-- `varint`, of a value that is unsigned already: seven bits at a time, the low ones first. -/
def varint (v : ℕ) : Bytes :=
  if 0x80 ≤ v then BitVec.ofNat 8 (v &&& 0x7F ||| 0x80) :: varint (v >>> 7)
  else [BitVec.ofNat 8 (v &&& 0x7F)]
termination_by v
decreasing_by
  rw [Nat.shiftRight_eq_div_pow]
  omega

/-- `fixed`, of a type of `size` bytes, the low one first on any host. -/
def fixed (size v : ℕ) : Bytes := (List.range size).map fun i =>
    BitVec.ofNat 8 (v >>> (i * 8) &&& 0xFF)

/-- `length_delimited`: the length, and then the bytes.  The length is cast to a `uint32_t`. -/
def lengthDelimited (value : Bytes) : Bytes := varint (value.length % 2 ^ 32) ++ value

end Encode

/-! ## `field` -/

namespace Field

/-- The first bytes of a field: the wire type is in the three low bits. -/
def tag (id wireType : UInt32) : Bytes := Encode.varint (id <<< 3 ||| wireType).toNat

def varint (id : UInt32) (value : ℕ) : Bytes := tag id 0 ++ Encode.varint value

def fixed (id : UInt32) (size value : ℕ) : Bytes := tag id 1 ++ Encode.fixed size value

def lengthDelimited (id : UInt32) (value : Bytes) : Bytes :=
  tag id 2 ++ Encode.lengthDelimited value

end Field

/-! ## What is written to the data -/

def uint64 (id : UInt32) (value : UInt64) (data : Bytes) : Bytes :=
  data ++ Field.varint id value.toNat

def int64 (id : UInt32) (value : Int64) (data : Bytes) : Bytes :=
  data ++ Field.varint id value.toUInt64.toNat

def fixed64 (id : UInt32) (value : UInt64) (data : Bytes) : Bytes :=
  data ++ Field.fixed id 8 value.toNat

def uint32 (id : UInt32) (value : UInt32) (data : Bytes) : Bytes :=
  data ++ Field.varint id value.toNat

def int32 (id : UInt32) (value : Int32) (data : Bytes) : Bytes :=
  data ++ Field.varint id value.toUInt32.toNat

def string (id : UInt32) (value data : Bytes) : Bytes := data ++ Field.lengthDelimited id value

/-- `SubMessage`, without the reference to the data: where the length is to be written, and how many
bytes it has. -/
structure SubMessage where
  varintBytes : ℕ
  start : ℕ
  deriving DecidableEq, Repr

/-- The default of `varint_bytes`; the trace controller never asks for another number. -/
def defaultVarintBytes : ℕ := 2

/-- The constructor: the tag, and the bytes that are reserved for the length. -/
def SubMessage.construct (id : UInt32) (data : Bytes) (varintBytes : ℕ) : SubMessage × Bytes :=
  let data := data ++ Field.tag id 2
  (⟨varintBytes, data.length⟩, data ++ List.replicate varintBytes 0)

/-- Bytes written over those from `start` on, as many as there are. -/
def overwrite (data : Bytes) (start : ℕ) (bytes : Bytes) : Bytes :=
  data.take start ++ bytes ++ data.drop (start + bytes.length)

/-- The destructor: the length of what has been written since is put into the reserved bytes, with
as many digits as fit there. -/
def SubMessage.destroy (m : SubMessage) (data : Bytes) : Bytes :=
  let size := (data.length - m.start - m.varintBytes) % 2 ^ 32
  overwrite data m.start (Encode.redundantVarint size m.varintBytes)

/-! ## Trees of fields -/

/-- The number of a field: protobuf allows those of 29 bits, without zero. -/
abbrev FieldId := {id : ℕ // 1 ≤ id ∧ id < 2 ^ 29}

/-- The number as it is handed over, a `uint32_t`. -/
def FieldId.id (i : FieldId) : UInt32 := UInt32.ofNat i.val

/-- A field of a message with its value; a sub-message has fields of its own, to any depth. -/
inductive Entry where
  | uint64 (id : FieldId) (value : UInt64)
  | int64 (id : FieldId) (value : Int64)
  | fixed64 (id : FieldId) (value : UInt64)
  | uint32 (id : FieldId) (value : UInt32)
  | int32 (id : FieldId) (value : Int32)
  | string (id : FieldId) (value : Bytes)
  | subMessage (id : FieldId) (entries : List Entry)

mutual

/-- The calls that write a field.  A sub-message lives while its fields are written. -/
def Entry.write : Entry → Bytes → Bytes
  | .uint64 id value, data => Protobuf.uint64 id.id value data
  | .int64 id value, data => Protobuf.int64 id.id value data
  | .fixed64 id value, data => Protobuf.fixed64 id.id value data
  | .uint32 id value, data => Protobuf.uint32 id.id value data
  | .int32 id value, data => Protobuf.int32 id.id value data
  | .string id value, data => Protobuf.string id.id value data
  | .subMessage id entries, data =>
      let m := SubMessage.construct id.id data defaultVarintBytes
      m.1.destroy (writeAll entries m.2)

/-- The calls that write the fields of a message, one after the other to the same data. -/
def writeAll : List Entry → Bytes → Bytes
  | [], data => data
  | e :: es, data => writeAll es (e.write data)

end

mutual

/-- The bytes of a field, by themselves: what its call appends, wherever it is written. -/
def Entry.encoding : Entry → Bytes
  | .uint64 id value => Field.varint id.id value.toNat
  | .int64 id value => Field.varint id.id value.toUInt64.toNat
  | .fixed64 id value => Field.fixed id.id 8 value.toNat
  | .uint32 id value => Field.varint id.id value.toNat
  | .int32 id value => Field.varint id.id value.toUInt32.toNat
  | .string id value => Field.lengthDelimited id.id value
  | .subMessage id entries =>
      Field.tag id.id 2 ++ (digits 1 ((encodings entries).length % 2 ^ 32) ++ encodings entries)

/-- The bytes of the fields of a message, one behind the other. -/
def encodings : List Entry → Bytes
  | [] => []
  | e :: es => e.encoding ++ encodings es

end

/-! ## The encodings are digits -/

theorem and_0x7F (v : ℕ) : v &&& 0x7F = v % 128 := Nat.and_two_pow_sub_one_eq_mod v 7

theorem and_0x7F_or_0x80 (v : ℕ) : v &&& 0x7F ||| 0x80 = v % 128 + 128 := by
  have hor := Nat.two_pow_add_eq_or_of_lt (i := 7) (Nat.mod_lt v (by decide)) 1
  rw [and_0x7F, Nat.or_comm, Nat.add_comm]
  exact hor.symm

theorem shiftRight_7 (v : ℕ) : v >>> 7 = v / 128 := Nat.shiftRight_eq_div_pow v 7

theorem redundantVarintFrom_eq (n v : ℕ) : Encode.redundantVarintFrom n v = digits n v := by
  induction n generalizing v with
  | zero => rw [Encode.redundantVarintFrom, digits, and_0x7F]
  | succ n ih => rw [Encode.redundantVarintFrom, digits, and_0x7F_or_0x80, shiftRight_7, ih]

/-- A varint is as many digits to the base 128 as the value has. -/
theorem varint_eq_digits {k v : ℕ} (hv : v < 128 ^ (k + 1)) :
    ∃ n ≤ k, v < 128 ^ (n + 1) ∧ Encode.varint v = digits n v := by
  induction k generalizing v with
  | zero =>
    refine ⟨0, Nat.le_refl 0, hv, ?_⟩
    rw [Encode.varint, if_neg (by simpa using hv), digits, and_0x7F]
  | succ k ih =>
    by_cases hlt : 0x80 ≤ v
    · have hdiv : v / 128 < 128 ^ (k + 1) := by
        rw [Nat.div_lt_iff_lt_mul (by decide), ← Nat.pow_succ]
        exact hv
      obtain ⟨n, hn, hvn, heq⟩ := ih hdiv
      refine ⟨n + 1, Nat.succ_le_succ hn, ?_, ?_⟩
      · rw [Nat.pow_succ]
        exact (Nat.div_lt_iff_lt_mul (by decide)).mp hvn
      · rw [Encode.varint, if_pos hlt, and_0x7F_or_0x80, shiftRight_7, heq, digits]
    · refine ⟨0, Nat.zero_le _, by simpa using hlt, ?_⟩
      rw [Encode.varint, if_neg hlt, digits, and_0x7F]

theorem readVarint_varint {v : ℕ} (hv : v < 2 ^ 64) (rest : Bytes) :
    readVarint (Encode.varint v ++ rest) = some (v, rest) := by
  obtain ⟨n, hn, hvn, heq⟩ := varint_eq_digits (k := 9) (v := v) (Nat.lt_trans hv (by decide))
  have hmod := Nat.mod_eq_of_lt hvn
  rw [heq, readVarint_digits (by omega) (hmod.symm ▸ hv), hmod]

theorem fixed_eq (size v : ℕ) : Encode.fixed size v = leBytes size v := by
  induction size generalizing v with
  | zero => rfl
  | succ n ih =>
    have hbyte : BitVec.ofNat 8 (v &&& 0xFF) = BitVec.ofNat 8 v := by
      apply BitVec.eq_of_toNat_eq
      have hand : v &&& 0xFF = v % 256 := Nat.and_two_pow_sub_one_eq_mod v 8
      rw [hand, BitVec.toNat_ofNat, BitVec.toNat_ofNat, Nat.mod_mod]
    have hshift (i : ℕ) : v >>> ((i + 1) * 8) = (v / 256) >>> (i * 8) := by
      have hdiv : v / 256 = v >>> 8 := (Nat.shiftRight_eq_div_pow v 8).symm
      rw [hdiv, ← Nat.shiftRight_add, Nat.add_comm 8, Nat.succ_mul]
    rw [leBytes, ← ih, Encode.fixed, List.range_succ_eq_map, List.map_cons,
      List.map_map, Nat.zero_mul,
      Nat.shiftRight_zero, hbyte]
    refine congrArg _ (List.map_congr_left fun i _ => ?_)
    simp only [Function.comp_apply, Nat.succ_eq_add_one, hshift]

theorem toNat_tag (i : FieldId) {w : UInt32} (hw : w.toNat < 8) :
    (i.id <<< 3 ||| w).toNat = 8 * i.val + w.toNat := by
  obtain ⟨id, hlo, hhi⟩ := i
  have hid : (UInt32.ofNat id).toNat = id := by
    rw [UInt32.toNat_ofNat']
    exact Nat.mod_eq_of_lt (by omega)
  have hshift : (UInt32.ofNat id <<< 3).toNat = 8 * id := by
    rw [UInt32.toNat_shiftLeft, hid]
    show id <<< 3 % 2 ^ 32 = 8 * id
    rw [Nat.shiftLeft_eq]
    omega
  have hor := Nat.two_pow_add_eq_or_of_lt (i := 3) hw id
  show (UInt32.ofNat id <<< 3 ||| w).toNat = 8 * id + w.toNat
  rw [UInt32.toNat_or, hshift]
  exact hor.symm

/-! ## What is appended -/

theorem SubMessage.destroy_construct (id : UInt32) (data body : Bytes) :
    let m := SubMessage.construct id data defaultVarintBytes
    m.1.destroy (m.2 ++ body) =
      data ++ (Field.tag id 2 ++ (digits 1 (body.length % 2 ^ 32) ++ body)) := by
  have hsize : (data ++ Field.tag id 2 ++ List.replicate defaultVarintBytes 0 ++ body).length -
      (data ++ Field.tag id 2).length - defaultVarintBytes = body.length := by
    simp only [List.length_append, List.length_replicate]
    omega
  have hpatch : Encode.redundantVarint (body.length % 2 ^ 32) defaultVarintBytes =
      digits 1 (body.length % 2 ^ 32) := by
    rw [Encode.redundantVarint, redundantVarintFrom_eq, Nat.mod_mod]
    rfl
  have hdigits : (digits 1 (body.length % 2 ^ 32)).length = defaultVarintBytes := length_digits 1 _
  have hskip : (data ++ Field.tag id 2 ++ List.replicate defaultVarintBytes 0 ++ body).drop
      ((data ++ Field.tag id 2).length + defaultVarintBytes) = body := by
    refine List.drop_left' ?_
    simp only [List.length_append, List.length_replicate]
  simp only [SubMessage.construct, SubMessage.destroy]
  rw [hsize, overwrite, hpatch, hdigits, hskip, List.append_assoc _ (List.replicate _ _) body,
    List.take_left]
  simp only [List.append_assoc]

mutual

theorem Entry.write_eq (e : Entry) (data : Bytes) : e.write data = data ++ e.encoding := by
  cases e with
  | uint64 id value | int64 id value | fixed64 id value | uint32 id value | int32 id value
    | string id value =>
    rfl
  | subMessage id entries =>
    rw [Entry.write, writeAll_eq, Entry.encoding]
    exact SubMessage.destroy_construct id.id data (encodings entries)

/-- The fields are appended one after the other, and the length of a sub-message is written over the
bytes that were reserved for it. -/
theorem writeAll_eq (es : List Entry) (data : Bytes) : writeAll es data = data ++ encodings es := by
  cases es with
  | nil => rw [writeAll, encodings, List.append_nil]
  | cons e es => rw [writeAll, Entry.write_eq, writeAll_eq, encodings, List.append_assoc]

end

/-! ## The wire format, read -/

/-- What a field holds, by its wire type.  (The types of groups are not in use any more.) -/
inductive Payload where
  | varint (value : UInt64)
  | i64 (value : UInt64)
  | len (value : Bytes)
  | i32 (value : UInt32)
  deriving DecidableEq

/-- A field as it is on the wire: its number, and what it holds by its wire type. -/
structure Record where
  id : FieldId
  payload : Payload
  deriving DecidableEq

/-- The bytes behind a tag, read by the wire type in it; an unknown one is refused. -/
def readPayload (wireType : ℕ) : Reader Payload := fun bs =>
  match wireType with
  | 0 => (readVarint bs).map fun r => (.varint (UInt64.ofNat r.1), r.2)
  | 1 => (readFixed 8 bs).map fun r => (.i64 (UInt64.ofNat r.1), r.2)
  | 2 => (readVarint bs).bind fun n => (readBytes n.1 n.2).map fun r => (.len r.1, r.2)
  | 5 => (readFixed 4 bs).map fun r => (.i32 (UInt32.ofNat r.1), r.2)
  | _ => none

/-- A tag, and the bytes behind it.  The number in the tag must be one that a field can have. -/
def readRecord : Reader Record := fun bs =>
  (readVarint bs).bind fun tag =>
    if h : 1 ≤ tag.1 / 8 ∧ tag.1 / 8 < 2 ^ 29 then
      (readPayload (tag.1 % 8) tag.2).map fun r => (⟨⟨tag.1 / 8, h⟩, r.1⟩, r.2)
    else none

/-- The fields of a message, read to the end of the bytes; nothing may be left over. -/
def decodeMessage (bs : Bytes) : Option (List Record) := Reader.all readRecord bs

/-- The type of a field, which the wire format does not have. -/
inductive Kind where
  | uint64
  | int64
  | fixed64
  | uint32
  | int32
  | string
  | subMessage (kinds : List Kind)

mutual

/-- A field read as its type: numbers are cast, sub-messages decoded.  A field of another wire type
is refused. -/
def Kind.read : Kind → Record → Option Entry
  | .uint64, ⟨id, .varint v⟩ => some (.uint64 id v)
  | .int64, ⟨id, .varint v⟩ => some (.int64 id v.toInt64)
  | .fixed64, ⟨id, .i64 v⟩ => some (.fixed64 id v)
  | .uint32, ⟨id, .varint v⟩ => some (.uint32 id v.toUInt32)
  | .int32, ⟨id, .varint v⟩ => some (.int32 id v.toUInt32.toInt32)
  | .string, ⟨id, .len b⟩ => some (.string id b)
  | .subMessage kinds, ⟨id, .len b⟩ =>
      ((decodeMessage b).bind fun records => readAll kinds records).map (.subMessage id)
  | _, _ => none

/-- The fields of a message, read as their types, one for each. -/
def readAll : List Kind → List Record → Option (List Entry)
  | [], [] => some []
  | k :: ks, r :: rs => (k.read r).bind fun e => (readAll ks rs).map (e :: ·)
  | _, _ => none

end

/-- The message of the bytes, with fields of the given types.  It is defined from the wire format,
and knows nothing of how the code writes. -/
def decode (kinds : List Kind) (bs : Bytes) : Option (List Entry) :=
  (decodeMessage bs).bind fun records => readAll kinds records

mutual

/-- The type that a field is written with. -/
def Entry.kind : Entry → Kind
  | .uint64 .. => .uint64
  | .int64 .. => .int64
  | .fixed64 .. => .fixed64
  | .uint32 .. => .uint32
  | .int32 .. => .int32
  | .string .. => .string
  | .subMessage _ entries => .subMessage (kindsOf entries)

def kindsOf : List Entry → List Kind
  | [] => []
  | e :: es => e.kind :: kindsOf es

end

mutual

/-- The length of every sub-message fits in the bytes that are reserved for it, and that of every
string in a `uint32_t`. -/
def Entry.Fits : Entry → Prop
  | .string _ value => value.length < 2 ^ 32
  | .subMessage _ entries => (encodings entries).length < 2 ^ 14 ∧ AllFit entries
  | _ => True

def AllFit : List Entry → Prop
  | [] => True
  | e :: es => e.Fits ∧ AllFit es

end

/-! ## The readers are local -/

theorem readPayload_local (wireType : ℕ) : Reader.Local (readPayload wireType) := by
  intro bs a rest h more
  unfold readPayload at h ⊢
  split at h
  · obtain ⟨⟨v, rest'⟩, hread, heq⟩ := Option.map_eq_some_iff.mp h
    obtain ⟨rfl, rfl⟩ := Prod.mk.inj heq
    rw [readVarint_local hread more, Option.map_some]
  · obtain ⟨⟨v, rest'⟩, hread, heq⟩ := Option.map_eq_some_iff.mp h
    obtain ⟨rfl, rfl⟩ := Prod.mk.inj heq
    rw [readFixed_local 8 hread more, Option.map_some]
  · obtain ⟨⟨n, bs'⟩, hlen, hread⟩ := Option.bind_eq_some_iff.mp h
    obtain ⟨⟨b, rest'⟩, hbytes, heq⟩ := Option.map_eq_some_iff.mp hread
    obtain ⟨rfl, rfl⟩ := Prod.mk.inj heq
    rw [readVarint_local hlen more, Option.bind_some, readBytes_local n hbytes more,
      Option.map_some]
  · obtain ⟨⟨v, rest'⟩, hread, heq⟩ := Option.map_eq_some_iff.mp h
    obtain ⟨rfl, rfl⟩ := Prod.mk.inj heq
    rw [readFixed_local 4 hread more, Option.map_some]
  · exact absurd h nofun

theorem length_le_of_readPayload {wireType : ℕ} {bs rest : Bytes} {p : Payload}
    (h : readPayload wireType bs = some (p, rest)) : rest.length ≤ bs.length := by
  unfold readPayload at h
  split at h
  · obtain ⟨⟨v, rest'⟩, hread, heq⟩ := Option.map_eq_some_iff.mp h
    obtain ⟨rfl, rfl⟩ := Prod.mk.inj heq
    exact Nat.le_of_lt (readVarint_takes hread)
  · obtain ⟨⟨v, rest'⟩, hread, heq⟩ := Option.map_eq_some_iff.mp h
    obtain ⟨rfl, rfl⟩ := Prod.mk.inj heq
    exact length_le_of_readFixed hread
  · obtain ⟨⟨n, bs'⟩, hlen, hread⟩ := Option.bind_eq_some_iff.mp h
    obtain ⟨⟨b, rest'⟩, hbytes, heq⟩ := Option.map_eq_some_iff.mp hread
    obtain ⟨rfl, rfl⟩ := Prod.mk.inj heq
    have hlt : bs'.length < bs.length := readVarint_takes hlen
    have hsplit : bs' = b ++ rest' := (readBytes_eq_some hbytes).1
    rw [hsplit, List.length_append] at hlt
    show rest'.length ≤ bs.length
    omega
  · obtain ⟨⟨v, rest'⟩, hread, heq⟩ := Option.map_eq_some_iff.mp h
    obtain ⟨rfl, rfl⟩ := Prod.mk.inj heq
    exact length_le_of_readFixed hread
  · exact absurd h nofun

/-- A record is a tag and the bytes behind it. -/
theorem readRecord_eq_some {bs rest : Bytes} {r : Record} (h : readRecord bs = some (r, rest)) :
    ∃ tag bs', readVarint bs = some (tag, bs') ∧ ∃ h : 1 ≤ tag / 8 ∧ tag / 8 < 2 ^ 29,
      r.id = ⟨tag / 8, h⟩ ∧ readPayload (tag % 8) bs' = some (r.payload, rest) := by
  obtain ⟨⟨tag, bs'⟩, htag, hread⟩ := Option.bind_eq_some_iff.mp h
  split_ifs at hread with hid
  obtain ⟨⟨p, rest'⟩, hpayload, heq⟩ := Option.map_eq_some_iff.mp hread
  obtain ⟨rfl, rfl⟩ := Prod.mk.inj heq
  exact ⟨tag, bs', htag, hid, rfl, hpayload⟩

theorem readRecord_local : Reader.Local readRecord := by
  intro bs r rest h more
  obtain ⟨tag, bs', htag, hid, hrid, hpayload⟩ := readRecord_eq_some h
  rw [readRecord, readVarint_local htag more, Option.bind_some, dif_pos hid,
    readPayload_local _ hpayload more, Option.map_some, ← hrid]

theorem readRecord_takes : Reader.Takes readRecord := by
  intro bs r rest h
  obtain ⟨tag, bs', htag, -, -, hpayload⟩ := readRecord_eq_some h
  exact Nat.lt_of_le_of_lt (length_le_of_readPayload hpayload) (readVarint_takes htag)

/-! ## One field -/

/-- A tag that is written is read back: its number and its wire type, whatever follows. -/
theorem readRecord_tag (i : FieldId) {w : UInt32} (hw : w.toNat < 8) {bs rest : Bytes} {p : Payload}
    (h : readPayload w.toNat bs = some (p, rest)) :
    readRecord (Field.tag i.id w ++ bs) = some (⟨i, p⟩, rest) := by
  have htag := toNat_tag i hw
  have hlt : 8 * i.val + w.toNat < 2 ^ 64 := by
    have hhi := i.property.2
    omega
  have hdiv : (8 * i.val + w.toNat) / 8 = i.val := by omega
  have hmod : (8 * i.val + w.toNat) % 8 = w.toNat := by omega
  rw [readRecord, Field.tag, htag, readVarint_varint hlt, Option.bind_some]
  simp only [hdiv, hmod, h, Option.map_some, i.property, and_self, dite_true]

theorem readRecord_varint (i : FieldId) {v : ℕ} (hv : v < 2 ^ 64) (tail : Bytes) :
    readRecord (Field.varint i.id v ++ tail) = some (⟨i, .varint (UInt64.ofNat v)⟩, tail) := by
  rw [Field.varint, List.append_assoc]
  refine readRecord_tag i (by decide) ?_
  show (readVarint _).map _ = _
  rw [readVarint_varint hv, Option.map_some]

theorem readRecord_fixed (i : FieldId) {v : ℕ} (hv : v < 2 ^ 64) (tail : Bytes) :
    readRecord (Field.fixed i.id 8 v ++ tail) = some (⟨i, .i64 (UInt64.ofNat v)⟩, tail) := by
  rw [Field.fixed, List.append_assoc]
  refine readRecord_tag i (by decide) ?_
  show (readFixed 8 (Encode.fixed 8 v ++ tail)).map
    (fun r => (Payload.i64 (UInt64.ofNat r.1), r.2)) = _
  rw [fixed_eq, readFixed_leBytes (Nat.lt_of_lt_of_eq hv (by decide)), Option.map_some]

/-- A length that is less than what follows. -/
theorem readRecord_len (i : FieldId) {n : ℕ} {len bs : Bytes}
    (hlen : readVarint (len ++ bs) = some (n, bs)) (hn : n ≤ bs.length) :
    readRecord (Field.tag i.id 2 ++ (len ++ bs)) = some (⟨i, .len (bs.take n)⟩, bs.drop n) := by
  refine readRecord_tag i (by decide) ?_
  show (readVarint _).bind _ = _
  rw [hlen, Option.bind_some, readBytes, if_pos hn, Option.map_some]

/-- A string is read as far as its length says. -/
theorem readRecord_string (i : FieldId) (value tail : Bytes) :
    readRecord (Field.lengthDelimited i.id value ++ tail) =
      some (⟨i, .len ((value ++ tail).take (value.length % 2 ^ 32))⟩,
        (value ++ tail).drop (value.length % 2 ^ 32)) := by
  have hlt : value.length % 2 ^ 32 < 2 ^ 64 := Nat.lt_trans (Nat.mod_lt _ (by decide)) (by decide)
  have hle : value.length % 2 ^ 32 ≤ (value ++ tail).length := by
    rw [List.length_append]
    exact Nat.le_trans (Nat.mod_le _ _) (Nat.le_add_right _ _)
  rw [Field.lengthDelimited, Encode.lengthDelimited, List.append_assoc, List.append_assoc]
  exact readRecord_len i (readVarint_varint hlt _) hle

/-- A sub-message is read as far as its two bytes of length say, which is less than it has when it
is too long. -/
theorem readRecord_subMessage (i : FieldId) (body tail : Bytes) :
    readRecord (Field.tag i.id 2 ++ (digits 1 (body.length % 2 ^ 32) ++ body) ++ tail) =
      some (⟨i, .len ((body ++ tail).take (body.length % 2 ^ 14))⟩,
        (body ++ tail).drop (body.length % 2 ^ 14)) := by
  have hmod : body.length % 2 ^ 32 % 128 ^ (1 + 1) = body.length % 2 ^ 14 :=
    Nat.mod_mod_of_dvd _ (by decide)
  have hread := readVarint_digits (n := 1) (v := body.length % 2 ^ 32) (by decide)
    (Nat.lt_trans (Nat.mod_lt _ (by decide)) (by decide)) (body ++ tail)
  have hle : body.length % 2 ^ 14 ≤ (body ++ tail).length := by
    rw [List.length_append]
    exact Nat.le_trans (Nat.mod_le _ _) (Nat.le_add_right _ _)
  rw [hmod] at hread
  rw [List.append_assoc, List.append_assoc]
  exact readRecord_len i hread hle

/-! ## Trees -/

@[simp] theorem toUInt32_ofNat_toNat (v : UInt32) : (UInt64.ofNat v.toNat).toUInt32 = v := by
  apply UInt32.toNat_inj.mp
  have hlt := v.toNat_lt
  rw [UInt64.toNat_toUInt32, UInt64.toNat_ofNat', Nat.mod_eq_of_lt (by omega : v.toNat < 2 ^ 64),
    Nat.mod_eq_of_lt hlt]

mutual

/-- A field that fits is read back, whatever comes behind it. -/
theorem Entry.readRecord_encoding (e : Entry) (h : e.Fits) (tail : Bytes) :
    ∃ r, readRecord (e.encoding ++ tail) = some (r, tail) ∧ e.kind.read r = some e := by
  cases e with
  | uint64 id value =>
    refine ⟨_, readRecord_varint id value.toNat_lt tail, ?_⟩
    rw [UInt64.ofNat_toNat]
    rfl
  | int64 id value =>
    refine ⟨_, readRecord_varint id value.toUInt64.toNat_lt tail, ?_⟩
    rw [UInt64.ofNat_toNat]
    rfl
  | fixed64 id value =>
    refine ⟨_, readRecord_fixed id value.toNat_lt tail, ?_⟩
    rw [UInt64.ofNat_toNat]
    rfl
  | uint32 id value =>
    refine ⟨_, readRecord_varint id (Nat.lt_trans value.toNat_lt (by decide)) tail, ?_⟩
    rw [Entry.kind, Kind.read, toUInt32_ofNat_toNat]
  | int32 id value =>
    refine ⟨_, readRecord_varint id (Nat.lt_trans value.toUInt32.toNat_lt (by decide)) tail, ?_⟩
    rw [Entry.kind, Kind.read, toUInt32_ofNat_toNat]
    rfl
  | string id value =>
    have hlt : value.length % 2 ^ 32 = value.length := Nat.mod_eq_of_lt h
    have hread := readRecord_string id value tail
    rw [hlt, List.take_left, List.drop_left] at hread
    exact ⟨_, hread, rfl⟩
  | subMessage id entries =>
    have hlt : (encodings entries).length % 2 ^ 14 = (encodings entries).length :=
      Nat.mod_eq_of_lt h.1
    have hread := readRecord_subMessage id (encodings entries) tail
    rw [hlt, List.take_left, List.drop_left] at hread
    refine ⟨_, hread, ?_⟩
    have hbody : (decodeMessage (encodings entries)).bind (fun rs => readAll (kindsOf entries) rs) =
        some entries := decode_encodings entries h.2
    rw [Entry.kind, Kind.read, hbody, Option.map_some]

theorem decode_encodings (es : List Entry) (h : AllFit es) :
    decode (kindsOf es) (encodings es) = some es := by
  cases es with
  | nil => rfl
  | cons e es =>
    obtain ⟨r, hread, hkind⟩ := Entry.readRecord_encoding e h.1 (encodings es)
    obtain ⟨rs, hrs, hes⟩ := Option.bind_eq_some_iff.mp (decode_encodings es h.2)
    have hall : decodeMessage (e.encoding ++ encodings es) = some (r :: rs) := by
      rw [decodeMessage, Reader.all_of_eq_some readRecord_takes hread]
      exact congrArg (Option.map (r :: ·)) hrs
    rw [decode, encodings, hall, Option.bind_some, kindsOf, readAll, hkind, Option.bind_some, hes,
      Option.map_some]

end

/-- A reading that ends where the field ends takes the field: no other part of the bytes can be
meant. -/
theorem eq_append_of_readRecord {bs rest more enc tail : Bytes} {r r' : Record}
    (h : readRecord bs = some (r, rest)) (hsplit : bs ++ more = enc ++ tail)
    (henc : readRecord (enc ++ tail) = some (r', tail)) : bs = enc ++ rest := by
  obtain ⟨-, rfl⟩ := readRecord_local.eq_of_append h (hsplit.symm ▸ henc)
  rw [← List.append_assoc] at hsplit
  exact List.append_cancel_right hsplit

mutual

/-- A field that is read back from a part of the bytes fits, and that part has all of it. -/
theorem Entry.fits_of_read (e : Entry) {bs rest more tail : Bytes} {r : Record}
    (h : readRecord bs = some (r, rest)) (hkind : e.kind.read r = some e)
    (hsplit : bs ++ more = e.encoding ++ tail) : e.Fits ∧ bs = e.encoding ++ rest := by
  cases e with
  | uint64 id value =>
    exact ⟨trivial, eq_append_of_readRecord h hsplit (readRecord_varint id value.toNat_lt tail)⟩
  | int64 id value =>
    exact ⟨trivial, eq_append_of_readRecord h hsplit
      (readRecord_varint id value.toUInt64.toNat_lt tail)⟩
  | fixed64 id value =>
    exact ⟨trivial, eq_append_of_readRecord h hsplit (readRecord_fixed id value.toNat_lt tail)⟩
  | uint32 id value =>
    have hlt := Nat.lt_trans value.toNat_lt (by decide : 2 ^ 32 < 2 ^ 64)
    exact ⟨trivial, eq_append_of_readRecord h hsplit (readRecord_varint id hlt tail)⟩
  | int32 id value =>
    have hlt := Nat.lt_trans value.toUInt32.toNat_lt (by decide : 2 ^ 32 < 2 ^ 64)
    exact ⟨trivial, eq_append_of_readRecord h hsplit (readRecord_varint id hlt tail)⟩
  | string id value =>
    have henc := readRecord_string id value tail
    obtain ⟨hr, -⟩ := readRecord_local.eq_of_append h (hsplit.symm ▸ henc)
    rw [← hr] at hkind
    have hvalue : (value ++ tail).take (value.length % 2 ^ 32) = value :=
      (Entry.string.inj (Option.some.inj hkind)).2
    have hle : value.length % 2 ^ 32 ≤ (value ++ tail).length := by
      rw [List.length_append]
      exact Nat.le_trans (Nat.mod_le _ _) (Nat.le_add_right _ _)
    have hlen : value.length % 2 ^ 32 = value.length := by
      rw [← List.length_take_of_le hle, hvalue]
    rw [hlen, List.take_left, List.drop_left] at henc
    have hlt : value.length < 2 ^ 32 := lt_of_eq_of_lt hlen.symm (Nat.mod_lt _ (by decide))
    exact ⟨hlt, eq_append_of_readRecord h hsplit henc⟩
  | subMessage id entries =>
    have henc := readRecord_subMessage id (encodings entries) tail
    obtain ⟨hr, -⟩ := readRecord_local.eq_of_append h (hsplit.symm ▸ henc)
    rw [← hr, Entry.kind, Kind.read] at hkind
    obtain ⟨entries', hdecode, heq⟩ := Option.map_eq_some_iff.mp hkind
    obtain ⟨-, rfl⟩ := Entry.subMessage.inj heq
    -- what is read as the body is the front of the body and of what comes behind it
    obtain ⟨hfits, hbody⟩ := allFit_of_decode entries' hdecode (List.take_append_drop _ _)
    have hle : (encodings entries').length % 2 ^ 14 ≤ (encodings entries' ++ tail).length := by
      rw [List.length_append]
      exact Nat.le_trans (Nat.mod_le _ _) (Nat.le_add_right _ _)
    have hlen : (encodings entries').length % 2 ^ 14 = (encodings entries').length := by
      rw [← List.length_take_of_le hle, hbody]
    rw [hlen, List.take_left, List.drop_left] at henc
    have hlt : (encodings entries').length < 2 ^ 14 :=
      lt_of_eq_of_lt hlen.symm (Nat.mod_lt _ (by decide))
    exact ⟨⟨hlt, hfits⟩, eq_append_of_readRecord h hsplit henc⟩

theorem allFit_of_decode (es : List Entry) {bs more tail : Bytes}
    (h : decode (kindsOf es) bs = some es) (hsplit : bs ++ more = encodings es ++ tail) :
    AllFit es ∧ bs = encodings es := by
  obtain ⟨rs, hrs, hall⟩ := Option.bind_eq_some_iff.mp h
  cases es with
  | nil =>
    cases rs with
    | nil => exact ⟨trivial, Reader.eq_nil_of_all readRecord_takes hrs⟩
    | cons r rs => exact absurd hall nofun
  | cons e es =>
    cases rs with
    | nil => exact absurd hall nofun
    | cons r rs =>
      rw [kindsOf, readAll] at hall
      obtain ⟨e', hkind, hmap⟩ := Option.bind_eq_some_iff.mp hall
      obtain ⟨es', hes, heq⟩ := Option.map_eq_some_iff.mp hmap
      obtain ⟨rfl, rfl⟩ := List.cons.inj heq
      obtain ⟨rest, hread, hrest⟩ := Reader.exists_of_all_cons readRecord_takes hrs
      rw [encodings, List.append_assoc] at hsplit
      obtain ⟨hfits, rfl⟩ := Entry.fits_of_read e' hread hkind hsplit
      rw [List.append_assoc] at hsplit
      have hdecode : decode (kindsOf es') rest = some es' := by
        exact Option.bind_eq_some_iff.mpr ⟨rs, hrest, hes⟩
      obtain ⟨hfit, rfl⟩ := allFit_of_decode es' hdecode (List.append_cancel_left hsplit)
      exact ⟨⟨hfits, hfit⟩, rfl⟩

end

/-- **The round trip.**  The tree that is written is read back if and only if every sub-message fits
in the two bytes of its length (and every string in a `uint32_t`). -/
theorem decode_writeAll_iff (es : List Entry) :
    decode (kindsOf es) (writeAll es []) = some es ↔ AllFit es := by
  rw [writeAll_eq, List.nil_append]
  have hsplit : encodings es ++ [] = encodings es ++ [] := rfl
  constructor
  · exact fun h => (allFit_of_decode es h hsplit).1
  · exact decode_encodings es

/-- A sub-message with one string of `2 ^ 14` bytes. -/
def longMessage : List Entry :=
  [.subMessage ⟨1, by decide⟩ [.string ⟨2, by decide⟩ (List.replicate (2 ^ 14) 0)]]

/-- It is longer than its two bytes of length can say. -/
theorem not_roundTrip_longMessage :
    ¬ ∀ es : List Entry, decode (kindsOf es) (writeAll es []) = some es := by
  intro h
  have hdecode := h longMessage
  rw [writeAll_eq, List.nil_append] at hdecode
  have hsplit : encodings longMessage ++ [] = encodings longMessage ++ [] := rfl
  obtain ⟨hfits, -⟩ := (allFit_of_decode longMessage hdecode hsplit).1
  have hlen : 2 ^ 14 ≤ (encodings [.string ⟨2, by decide⟩ (List.replicate (2 ^ 14) 0)]).length := by
    rw [encodings, Entry.encoding, Field.lengthDelimited, Encode.lengthDelimited]
    simp only [List.length_append, List.length_replicate]
    omega
  exact absurd hfits.1 (Nat.not_lt_of_le hlen)

end Protobuf
end Trace
end Extension
end NUClear
