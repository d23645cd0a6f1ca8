import NUClear.Extension.Network.Reception

/-!
# The packets of a message (`NUClearNetwork.cpp`)

`reset` subtracts the sizes of the headers from the MTU of the network, in sixteen bits and without
a test, and `send` narrows the number of packets to sixteen bits.  A node reads a datagram into a
buffer of 1500 bytes.  `wellFragmented_iff` says exactly for which MTU and which length of a message
the packets are right (`WellFragmented`): their number has not been narrowed, every packet is a
range of the payload, every datagram fits into the buffer, and the packets are the payload.

* `packetDataMtu`, `messageCount`, `sendPacket`: the arithmetic, in the widths that the code has.
* `flatMap_take_drop`: a list is the concatenation of its pieces.
* `flatMap_packetRange`, `flatMap_messagePackets`: and so is a message.  There is one packet more
  than full ones, which may be empty.
* `length_packetRange_le`, `length_packetRange_zero`: the longest packet is the first one, so the
  datagrams fit when that does.
* `mul_lt_of_fits`: the offset of a packet, which the code computes as an `int`, does not overflow
  then.
* `not_wellFragmented_sixty`: an MTU below the sizes of the headers wraps.
-/

namespace NUClear
namespace Extension
namespace Network

open Foundation

/-! ## The arithmetic -/

/-- `packet_data_mtu`: the MTU without the headers of the packet, of IP and of UDP, in sixteen bits.
It wraps when the MTU is smaller than these. -/
def packetDataMtu (networkMtu : BitVec 16) : BitVec 16 :=
  networkMtu - BitVec.ofNat 16 (sizeofDataPacket - 1) - 40 - 8

/-- The size of the buffer of `read_socket`; what is longer is cut off by the receiver. -/
def readBufferSize : ℕ := 1500

/-- The packets of a message are right: the receiver that gets them all has the payload, and nothing
on the way overflows or reads outside of it. -/
structure WellFragmented (networkMtu : BitVec 16) (type : PacketType) (id : ℕ)
    (rel : Bool) (hash : ℕ) (payload : Bytes) : Prop where
  positive : 0 < (packetDataMtu networkMtu).toNat
  /-- The headers have been subtracted without wrapping. -/
  notWrapped : (packetDataMtu networkMtu).toNat + (sizeofDataPacket - 1) + 40 + 8 = networkMtu.toNat
  /-- The number of packets has not been narrowed. -/
  count_eq : messageCount (packetDataMtu networkMtu).toNat payload =
    payload.length / (packetDataMtu networkMtu).toNat + 1
  /-- Every packet is a range of the payload. -/
  inside : ∀ p ∈ messagePackets (packetDataMtu networkMtu).toNat type id rel hash payload, p.Safe
  /-- Every datagram fits into the buffer that it is read into. -/
  fits : ∀ p ∈ messagePackets (packetDataMtu networkMtu).toNat type id rel hash payload,
    p.value.length ≤ readBufferSize
  /-- The packets are the payload. -/
  concat : ((messagePackets (packetDataMtu networkMtu).toNat type id rel hash payload).flatMap
    fun p => packetData p.value) = payload

/-! ## Pieces of a list -/

/-- The first pieces of a list. -/
theorem flatMap_take_drop {α : Type*} (m k : ℕ) (l : List α) :
    ((List.range k).flatMap fun i => (l.drop (i * m)).take m) = l.take (k * m) := by
  induction k with
  | zero => rw [List.range_zero, List.flatMap_nil, Nat.zero_mul, List.take_zero]
  | succ k ih =>
    rw [List.range_succ, List.flatMap_append, ih, List.flatMap_singleton,
      Nat.succ_mul, List.take_add]

/-! ## One packet -/

section

variable {mtu id count hash no : ℕ} {type : PacketType} {rel : Bool} {payload data : Bytes}
  {networkMtu : BitVec 16}

/-- The data of a packet: as many bytes as the MTU allows from its place on, and what is left for
the last one. -/
def packetRange (mtu count : ℕ) (payload : Bytes) (no : ℕ) : Bytes :=
  (payload.drop (no * mtu)).take (if no + 1 < count then mtu else payload.length % mtu)

theorem value_packetLength : (packetLength mtu count payload no).value =
    if no + 1 < count then mtu else payload.length % mtu := by
  unfold packetLength
  rw [Checked.value_ite]
  rfl

theorem value_sendPacket : (sendPacket mtu type id count rel hash payload no).value =
    dataPacket type id no count rel hash (packetRange mtu count payload no) := by
  show dataPacket type id no count rel hash
    ((payload.drop (no * mtu)).take (packetLength mtu count payload no).value) = _
  rw [value_packetLength]
  rfl

@[simp] theorem packetData_dataPacket :
    packetData (dataPacket type id no count rel hash data) = data := rfl

theorem safe_sendPacket : (sendPacket mtu type id count rel hash payload no).Safe ↔
    no * mtu < 2 ^ 31 ∧ (¬ no + 1 < count → mtu ≠ 0) ∧
      no * mtu + (if no + 1 < count then mtu else payload.length % mtu) ≤ payload.length := by
  unfold sendPacket
  rw [Checked.safe_bind, Checked.safe_checked, Checked.value_checked, Checked.safe_bind,
    value_packetLength, Checked.safe_checked, packetLength, Checked.safe_ite, Checked.safe_checked]
  simp only [Checked.safe_pure, implies_true, true_and]

/-! ## The whole message -/

/-- **The packets of a message are the message.**  The ranges of the packets follow each other, and
the last one ends where the payload does. -/
theorem flatMap_packetRange (mtu : ℕ) (payload : Bytes) :
    ((List.range (payload.length / mtu + 1)).flatMap
      (packetRange mtu (payload.length / mtu + 1) payload)) = payload := by
  have hfirst : (List.range (payload.length / mtu)).flatMap
      (packetRange mtu (payload.length / mtu + 1) payload) =
        payload.take (payload.length / mtu * mtu) := by
    rw [← flatMap_take_drop]
    refine List.flatMap_congr fun i hi => ?_
    rw [packetRange, if_pos (Nat.succ_lt_succ (List.mem_range.mp hi))]
  have hlast : packetRange mtu (payload.length / mtu + 1) payload (payload.length / mtu) =
      payload.drop (payload.length / mtu * mtu) := by
    rw [packetRange, if_neg (lt_irrefl _)]
    refine List.take_of_length_le ?_
    have hdiv := Nat.div_add_mod' payload.length mtu
    rw [List.length_drop]
    omega
  rw [List.range_succ, List.flatMap_append, List.flatMap_singleton, hfirst, hlast,
    List.take_append_drop]

theorem toNat_packetDataMtu (h : 68 ≤ networkMtu.toNat) :
    (packetDataMtu networkMtu).toNat = networkMtu.toNat - 68 := by
  unfold packetDataMtu sizeofDataPacket
  bv_omega

theorem mem_messagePackets {p : Checked Bytes} :
    p ∈ messagePackets mtu type id rel hash payload ↔ ∃ no < messageCount mtu payload,
      sendPacket mtu type id (messageCount mtu payload) rel hash payload no = p := by
  simp only [messagePackets, List.mem_map, List.mem_range]

theorem flatMap_messagePackets (h : payload.length / mtu + 1 < 2 ^ 16) :
    ((messagePackets mtu type id rel hash payload).flatMap fun p => packetData p.value) =
      payload := by
  have hcount : messageCount mtu payload = payload.length / mtu + 1 := Nat.mod_eq_of_lt h
  rw [messagePackets, List.flatMap_map, hcount]
  simp only [value_sendPacket, packetData_dataPacket]
  exact flatMap_packetRange mtu payload

/-- The range of a packet ends in the payload. -/
theorem packetRange_le (hno : no < payload.length / mtu + 1) :
    no * mtu + (if no + 1 < payload.length / mtu + 1 then mtu else payload.length % mtu) ≤
      payload.length := by
  have hdiv := Nat.div_add_mod' payload.length mtu
  split_ifs with hlt
  · have hmul : (no + 1) * mtu ≤ payload.length / mtu * mtu := Nat.mul_le_mul_right mtu (by omega)
    rw [Nat.succ_mul] at hmul
    omega
  · obtain rfl : no = payload.length / mtu := by omega
    exact hdiv.le

theorem length_packetRange (hno : no < payload.length / mtu + 1) :
    (packetRange mtu (payload.length / mtu + 1) payload no).length =
      if no + 1 < payload.length / mtu + 1 then mtu else payload.length % mtu := by
  have hle := packetRange_le hno
  rw [packetRange, List.length_take, List.length_drop]
  omega

/-- The longest packet is the first one; so all datagrams fit into the buffer of the receiver if the
first does. -/
theorem length_packetRange_le (hmtu : 0 < mtu) (hno : no < payload.length / mtu + 1) :
    (packetRange mtu (payload.length / mtu + 1) payload no).length ≤ min mtu payload.length := by
  rw [length_packetRange hno]
  split_ifs with hlt
  · have hle : mtu ≤ payload.length := (Nat.div_pos_iff.mp (by omega : 0 < payload.length / mtu)).2
    omega
  · have hlt := Nat.mod_lt payload.length hmtu
    have hle := Nat.mod_le payload.length mtu
    omega

theorem length_packetRange_zero (hmtu : 0 < mtu) :
    (packetRange mtu (payload.length / mtu + 1) payload 0).length = min mtu payload.length := by
  rw [length_packetRange (Nat.succ_pos _)]
  split_ifs with hlt
  · have hle : mtu ≤ payload.length := (Nat.div_pos_iff.mp (by omega : 0 < payload.length / mtu)).2
    omega
  · have hzero : payload.length / mtu = 0 := Nat.le_zero.mp (by omega)
    have hlt : payload.length < mtu := (Nat.div_eq_zero_iff_lt hmtu).mp hzero
    rw [Nat.mod_eq_of_lt hlt]
    omega

/-- Nothing overflows when the datagrams fit: the place of a packet in the payload stays below the
bound of an `int`. -/
theorem mul_lt_of_fits (hcount : payload.length / mtu + 1 < 2 ^ 16)
    (hfits : min mtu payload.length ≤ 1480) (hno : no < payload.length / mtu + 1) :
    no * mtu < 2 ^ 31 := by
  by_cases hle : mtu ≤ 1480
  · have hmul : no * mtu ≤ 2 ^ 16 * 1480 := Nat.mul_le_mul (by omega) hle
    omega
  · have hzero : payload.length / mtu = 0 := Nat.div_eq_of_lt (by omega)
    obtain rfl : no = 0 := by omega
    rw [Nat.zero_mul]
    decide

/-- **When the packets of a message are right.**  The MTU has room for more than the headers, the
number of packets fits into sixteen bits, and either the message is one packet that the receiver can
read whole or the MTU lets every packet be so. -/
theorem wellFragmented_iff (networkMtu : BitVec 16) (type : PacketType) (id : ℕ) (rel : Bool)
    (hash : ℕ) (payload : Bytes) : WellFragmented networkMtu type id rel hash payload ↔
      68 < networkMtu.toNat ∧ payload.length / (networkMtu.toNat - 68) + 1 < 2 ^ 16 ∧
        (payload.length ≤ 1480 ∨ networkMtu.toNat ≤ 1548) := by
  constructor
  · intro h
    have hwrap := h.notWrapped
    have hpos := h.positive
    have hcount := h.count_eq
    have hmtu : (packetDataMtu networkMtu).toNat = networkMtu.toNat - 68 :=
      toNat_packetDataMtu (by rw [sizeofDataPacket] at hwrap; omega)
    rw [hmtu] at hpos hcount
    have hlt : messageCount (networkMtu.toNat - 68) payload < 2 ^ 16 := Nat.mod_lt _ (by decide)
    rw [hcount] at hlt
    refine ⟨by omega, hlt, ?_⟩
    have hfirst := h.fits _ (mem_messagePackets.mpr
      ⟨0, by rw [hmtu, hcount]; exact Nat.succ_pos _, rfl⟩)
    rw [hmtu, hcount, value_sendPacket, length_dataPacket, length_packetRange_zero hpos,
      readBufferSize] at hfirst
    omega
  · rintro ⟨hnetwork, hcount, hfits⟩
    have hmtu : (packetDataMtu networkMtu).toNat = networkMtu.toNat - 68 :=
      toNat_packetDataMtu hnetwork.le
    have hpos : 0 < networkMtu.toNat - 68 := by omega
    have hsize : min (networkMtu.toNat - 68) payload.length ≤ 1480 := by omega
    have heq : messageCount (networkMtu.toNat - 68) payload =
        payload.length / (networkMtu.toNat - 68) + 1 := Nat.mod_eq_of_lt hcount
    constructor
    · rwa [hmtu]
    · rw [hmtu, sizeofDataPacket]
      omega
    · rw [hmtu, heq]
    · intro p hp
      rw [hmtu] at hp
      obtain ⟨no, hno, rfl⟩ := mem_messagePackets.mp hp
      rw [heq] at hno ⊢
      exact safe_sendPacket.mpr
        ⟨mul_lt_of_fits hcount hsize hno, fun _ => hpos.ne', packetRange_le hno⟩
    · intro p hp
      rw [hmtu] at hp
      obtain ⟨no, hno, rfl⟩ := mem_messagePackets.mp hp
      rw [heq] at hno ⊢
      have hle := length_packetRange_le hpos hno
      rw [value_sendPacket, length_dataPacket, readBufferSize]
      omega
    · rw [hmtu]
      exact flatMap_messagePackets hcount

/-- An MTU of sixty is taken for one of 65528 bytes of data, since the headers are subtracted in
sixteen bits. -/
theorem not_wellFragmented_sixty :
    ¬ ∀ (networkMtu : BitVec 16) (type : PacketType) (id : ℕ) (rel : Bool) (hash : ℕ)
      (payload : Bytes), WellFragmented networkMtu type id rel hash payload := by
  intro h
  have hwrap := (h 60 .data 1 true 7 [1, 2, 3]).notWrapped
  exact absurd hwrap (by decide)

end

end Network
end Extension
end NUClear
