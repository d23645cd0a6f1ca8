import NUClear.Foundation.CheckedMemory

/-!
# The packets of the wire protocol (`wire_protocol.hpp`)

The packets are packed structs, laid over the bytes of a datagram.  A field is read where the struct
has it, whatever the length of the datagram; numbers have their least significant byte first.  The
code casts the bytes to the struct and tests no length but that of the header, so a read of a field
is safe exactly when the datagram reaches to the end of it (`safe_readId` and the others).

* `dataPacket`, `ackPacket`, `nackPacket`: the datagrams that a node makes.
* `packetId` and so on: the fields of a datagram, read as that packet.
* `readId` and so on: the same as checked reads.
* `packetId_dataPacket` and so on: the fields of a datagram that a node has made are what it put
  there, as far as they fit into the field.

A struct with a set of bits or with data at its end declares one byte of it, which is why the sizes
are one more than where these begin (`ackBits`, `nackBits`).  `packetNo` and `packetCount` of a
datagram are what it says, and nothing tells whether the sender has ever sent such a message.
-/

namespace NUClear
namespace Extension
namespace Network

open Foundation

/-! ## Sizes -/

def sizeofPacketHeader : ℕ := 5

def sizeofAnnouncePacket : ℕ := 6

def sizeofDataPacket : ℕ := 21

def sizeofACKPacket : ℕ := 12

def sizeofNACKPacket : ℕ := 10

/-! ## The fields -/

/-- `Type`: what a packet is for.  A message that is sent again has a type of its own, so that the
receiver can ignore it when it has processed the message. -/
inductive PacketType where
  | announce
  | leave
  | data
  | dataRetransmission
  | ack
  | nack
  deriving DecidableEq, Repr

/-- The byte of a type in the header, counted from one. -/
def PacketType.byte : PacketType → Byte
  | .announce => 1
  | .leave => 2
  | .data => 3
  | .dataRetransmission => 4
  | .ack => 5
  | .nack => 6

/-- The type of a datagram, by the byte behind the version, if it is one of the protocol. -/
def packetType (payload : Bytes) : Option PacketType :=
  match payload.getD 4 0 with
  | 1 => some .announce
  | 2 => some .leave
  | 3 => some .data
  | 4 => some .dataRetransmission
  | 5 => some .ack
  | 6 => some .nack
  | _ => none

/-- The first bytes of every packet: the radioactive symbol and the version. -/
def magic : Bytes := [0xE2, 0x98, 0xA2, 0x02]

/-- The datagram has a header, and it is one of the protocol: it is long enough for a header and
starts with the symbol and the version. -/
def isPacket (payload : Bytes) : Bool :=
  decide (sizeofPacketHeader ≤ payload.length) && payload.take 4 == magic

/-- The datagram carries data: it is a packet of the protocol, and its type is one of the two that a
`DataPacket` has. -/
def isData (payload : Bytes) : Bool :=
  isPacket payload &&
    (packetType payload == some .data || packetType payload == some .dataRetransmission)

/-- `packet_id`, which stands at the same place in a `DataPacket`, an `ACKPacket` and a
`NACKPacket`: two bytes, the low one first. -/
def packetId (payload : Bytes) : ℕ := field payload 5 2

/-- `packet_no`, of a `DataPacket`: which of the packets of its message it is, counted from zero. -/
def packetNo (payload : Bytes) : ℕ := field payload 7 2

/-- `packet_count`, of a `DataPacket` or an `ACKPacket`: how many packets the message has. -/
def packetCount (payload : Bytes) : ℕ := field payload 9 2

/-- `packet_count`, of a `NACKPacket`; it stands two bytes earlier, since such a packet has no
`packet_no`. -/
def nackCount (payload : Bytes) : ℕ := field payload 7 2

/-- `reliable`, of a `DataPacket`: the sender waits for an ACK.  Any byte but zero is `true`. -/
def reliable (payload : Bytes) : Bool := payload.getD 11 0 != 0

/-- `hash`, of a `DataPacket`: the eight bytes that identify the type of the message. -/
def packetHash (payload : Bytes) : ℕ := field payload 12 8

/-- The bytes from `&data` to the end, of a `DataPacket`; `data` itself is the first of them. -/
def packetData (payload : Bytes) : Bytes := payload.drop 20

/-- Where the bits of an `ACKPacket` start, one for each packet of the message, the lowest bit of a
byte first. -/
def ackBits : ℕ := 11

/-- Where the bits of a `NACKPacket` start, in the same order as those of an `ACKPacket`. -/
def nackBits : ℕ := 9

/-! ## The fields, read -/

def readId (payload : Bytes) : Checked ℕ := readField payload 5 2

def readNo (payload : Bytes) : Checked ℕ := readField payload 7 2

def readCount (payload : Bytes) : Checked ℕ := readField payload 9 2

def readNackCount (payload : Bytes) : Checked ℕ := readField payload 7 2

def readReliable (payload : Bytes) : Checked Bool :=
  .checked (11 < payload.length) .outOfBounds (reliable payload)

def readHash (payload : Bytes) : Checked ℕ := readField payload 12 8

/-- The range from `&data` to `&data + payload.size() - sizeof(DataPacket) + 1`.  It ends behind the
datagram when this is shorter than the header. -/
def readData (payload : Bytes) : Checked Bytes :=
  .checked (sizeofDataPacket ≤ payload.length + 1) .outOfBounds (packetData payload)

section

variable {payload : Bytes} {type : PacketType}

theorem isData_iff (h : isPacket payload = true) (htype : packetType payload = some type) :
    isData payload = true ↔ type = .data ∨ type = .dataRetransmission := by
  unfold isData
  rw [h, htype, Bool.true_and, Bool.or_eq_true, beq_iff_eq, beq_iff_eq, Option.some.injEq,
    Option.some.injEq]

@[simp] theorem value_readId : (readId payload).value = packetId payload := rfl

@[simp] theorem value_readNo : (readNo payload).value = packetNo payload := rfl

@[simp] theorem value_readCount : (readCount payload).value = packetCount payload := rfl

@[simp] theorem value_readNackCount : (readNackCount payload).value = nackCount payload := rfl

@[simp] theorem value_readReliable : (readReliable payload).value = reliable payload := rfl

@[simp] theorem value_readHash : (readHash payload).value = packetHash payload := rfl

@[simp] theorem value_readData : (readData payload).value = packetData payload := rfl

@[simp] theorem safe_readId : (readId payload).Safe ↔ 7 ≤ payload.length := safe_readField

@[simp] theorem safe_readNo : (readNo payload).Safe ↔ 9 ≤ payload.length := safe_readField

@[simp] theorem safe_readCount : (readCount payload).Safe ↔ 11 ≤ payload.length := safe_readField

@[simp] theorem safe_readNackCount : (readNackCount payload).Safe ↔ 9 ≤ payload.length :=
  safe_readField

@[simp] theorem safe_readReliable : (readReliable payload).Safe ↔ 12 ≤ payload.length :=
  Checked.safe_checked

@[simp] theorem safe_readHash : (readHash payload).Safe ↔ 20 ≤ payload.length := safe_readField

@[simp] theorem safe_readData : (readData payload).Safe ↔ 20 ≤ payload.length := by
  rw [readData, Checked.safe_checked, sizeofDataPacket]
  omega

end

/-! ## The datagrams of a node -/

/-- A `DataPacket` with its data, as it goes over the network: a packed struct, with the low byte of
each number first. -/
def dataPacket (type : PacketType) (id no count : ℕ) (reliable : Bool) (hash : ℕ) (data : Bytes) :
    Bytes :=
  magic ++ [type.byte] ++ leBytes 2 id ++ leBytes 2 no ++ leBytes 2 count ++
    [if reliable then 1 else 0] ++ leBytes 8 hash ++ data

/-- An `ACKPacket` with room for the bits of `count` packets, none of them set. -/
def ackPacket (id no count : ℕ) : Bytes :=
  magic ++ [PacketType.ack.byte] ++ leBytes 2 id ++ leBytes 2 no ++ leBytes 2 count ++
    List.replicate (1 + count / 8) 0

/-- A `NACKPacket` with room for the bits of `count` packets, none of them set. -/
def nackPacket (id count : ℕ) : Bytes :=
  magic ++ [PacketType.nack.byte] ++ leBytes 2 id ++ leBytes 2 count ++
    List.replicate (1 + count / 8) 0

section

variable {type : PacketType} {id no count hash : ℕ} {rel : Bool} {data : Bytes}

@[simp] theorem length_dataPacket :
    (dataPacket type id no count rel hash data).length = 20 + data.length := by
  simp [dataPacket, magic]
  omega

/-! What a `DataPacket` says. -/

theorem isPacket_dataPacket : isPacket (dataPacket type id no count rel hash data) = true := by
  rw [isPacket, Bool.and_eq_true, decide_eq_true_eq, length_dataPacket, sizeofPacketHeader]
  exact ⟨by omega, rfl⟩

theorem packetType_dataPacket :
    packetType (dataPacket type id no count rel hash data) = some type := by
  cases type <;> rfl

theorem packetId_dataPacket (h : id < 2 ^ 16) :
    packetId (dataPacket type id no count rel hash data) = id :=
  leValue_leBytes_of_lt (k := 2) h

theorem packetNo_dataPacket (h : no < 2 ^ 16) :
    packetNo (dataPacket type id no count rel hash data) = no :=
  leValue_leBytes_of_lt (k := 2) h

theorem packetCount_dataPacket (h : count < 2 ^ 16) :
    packetCount (dataPacket type id no count rel hash data) = count :=
  leValue_leBytes_of_lt (k := 2) h

theorem packetHash_dataPacket (h : hash < 2 ^ 64) :
    packetHash (dataPacket type id no count rel hash data) = hash :=
  leValue_leBytes_of_lt (k := 8) h

theorem reliable_dataPacket : reliable (dataPacket type id no count rel hash data) = rel := by
  cases rel <;> rfl

/-! What an `ACKPacket` says. -/

theorem packetId_ackPacket (h : id < 2 ^ 16) : packetId (ackPacket id no count) = id :=
  leValue_leBytes_of_lt (k := 2) h

theorem packetCount_ackPacket (h : count < 2 ^ 16) : packetCount (ackPacket id no count) = count :=
  leValue_leBytes_of_lt (k := 2) h

@[simp] theorem length_ackPacket : (ackPacket id no count).length =
    sizeofACKPacket + count / 8 := by
  simp [ackPacket, magic, sizeofACKPacket]
  omega

@[simp] theorem length_nackPacket : (nackPacket id count).length = sizeofNACKPacket +
    count / 8 := by
  simp [nackPacket, magic, sizeofNACKPacket]
  omega

end

end Network
end Extension
end NUClear
