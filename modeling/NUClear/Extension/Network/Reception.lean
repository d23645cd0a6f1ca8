import NUClear.Extension.Network.Wire
import Mathlib.Logic.Function.Basic

/-!
# What a node does with a datagram of a peer (`NUClearNetwork.cpp`)

`process_packet` for the datagrams that carry data or acknowledge it, from a source that is a target
of the node: what it reads of the datagram, what it keeps for the target and in its send queue, the
responses that it sends, and the message that it hands over.  Every access to the datagram, to a
response and to a set of acknowledged packets is checked.

Time is left out: the environment decides which assemblers have timed out.

## The paths

* A datagram whose number is larger than its count is ignored.
* A retransmission of a reliable message that is in `recent_packets` is answered with an ACK of all
  its packets (`acknowledgeAll`) and not processed.
* The only packet of a message is handed over (`receiveSingle`).
* One of several packets joins its assembler (`receiveFragment`): the assembler is purged when it is
  corrupted, the packets in it are acknowledged, and the message is handed over when it is complete.
* An ACK and a NACK change the send queue; a NACK has packets sent again.

## The lemmas

The last two sections say when each of these stays within its bounds and what its value is.
`value_receiveData` and `value_receiveAck` are what the modules on reassembly, on the peers and on
what is acknowledged go on with; none of them unfolds a handler.
-/

namespace NUClear
namespace Extension
namespace Network

open Foundation

/-! ## What a node keeps -/

/-- The packets of a group that have been received, in the order of their numbers, as the `std::map`
of an assembler keeps them. -/
abbrev Fragments := List (ℕ × Bytes)

/-- `recent_packets.size()`, one less than the values that its index of eight bits has. -/
def recentPacketsSize : ℕ := 255

/-- What changes of a `NetworkTarget`: the ring of recent packets with its index, and the assemblers
by packet id. -/
structure TargetData where
  recentPackets : List ℤ
  recentPacketsIndex : ℕ
  /-- An assembler that is empty is one that is not there. -/
  assemblers : ℕ → Fragments

/-- A new `NetworkTarget`: no packet is recent (`-1` is no packet id), and nothing is assembled. -/
def TargetData.new : TargetData := ⟨List.replicate recentPacketsSize (-1), 0, fun _ => []⟩

/-- `PacketQueue::PacketTarget`: the target by its number, and the bits of the packets that it has
acknowledged. -/
structure PacketTarget where
  target : ℕ
  acked : Bytes
  deriving DecidableEq, Repr

/-- `PacketQueue`: a reliable message with the targets that have not acknowledged it, and what is
read of its header. -/
structure PacketQueue where
  targets : List PacketTarget
  packetCount : ℕ
  hash : ℕ
  payload : Bytes
  deriving DecidableEq, Repr

/-- `send_queue`: the reliable messages that are kept, by their packet ids. -/
abbrev SendQueue := ℕ → Option PacketQueue

/-- A message that is handed to `packet_callback`: the hash of its type, whether it was sent
reliably, and its bytes. -/
structure Delivery where
  hash : ℕ
  reliable : Bool
  data : Bytes
  deriving DecidableEq, Repr

/-- What the reception of a datagram leads to: what is kept of the target and in the send queue, the
responses, and the message that is handed over, if one is. -/
structure Reception where
  target : TargetData
  sendQueue : SendQueue
  responses : List Bytes
  delivered : Option Delivery
  /-- The packet group of which every packet is acknowledged now. -/
  acknowledged : Option ℕ

/-- The datagram is ignored: nothing changes, nothing is answered and nothing is handed over. -/
def Reception.ignored (t : TargetData) (queue : SendQueue) : Reception := ⟨t, queue, [], none, none⟩

/-! ## Sending -/

/-- `while (send_queue.count(++packet_id_source) > 0)`: the next id of sixteen bits that is not in
use, for as many tries as there are ids. -/
def nextFree (queue : SendQueue) : ℕ → ℕ → Option ℕ
  | 0, _ => none
  | k + 1, id =>
      if (queue ((id + 1) % 2 ^ 16)).isNone then some ((id + 1) % 2 ^ 16)
      else nextFree queue k ((id + 1) % 2 ^ 16)

/-- `packet_count` of a message: it has sixteen bits, and one packet more than the payload fills, so
that the last one may be empty. -/
def messageCount (mtu : ℕ) (payload : Bytes) : ℕ := (payload.length / mtu + 1) % 2 ^ 16

/-- `iov_len` of the data of a packet: all packets but the last are full, and the last has what is
left. -/
def packetLength (mtu count : ℕ) (payload : Bytes) (no : ℕ) : Checked ℕ :=
  if no + 1 < count then pure mtu
  else .checked (mtu ≠ 0) .divisionByZero (payload.length % mtu)

/-- `send_packet`: the packet with number `no` of a payload, as a header and a range of the payload.
The range is read whatever the number is. -/
def sendPacket (mtu : ℕ) (type : PacketType) (id count : ℕ) (rel : Bool) (hash : ℕ)
    (payload : Bytes) (no : ℕ) : Checked Bytes := do
  -- two numbers of sixteen bits are multiplied as `int`s
  let start ← Checked.checked (no * mtu < 2 ^ 31) .overflow (no * mtu)
  let length ← packetLength mtu count payload no
  .checked (start + length ≤ payload.length) .outOfBounds
    (dataPacket type id no count rel hash ((payload.drop start).take length))

/-- `send`: the packets of a message for one target, in the order of their numbers. -/
def messagePackets (mtu : ℕ) (type : PacketType) (id : ℕ) (rel : Bool) (hash : ℕ)
    (payload : Bytes) :
    List (Checked Bytes) :=
  (List.range (messageCount mtu payload)).map
    (sendPacket mtu type id (messageCount mtu payload) rel hash payload)

/-! ## DATA and DATA_RETRANSMISSION -/

/-- The packet goes into `recent_packets`, at the index, which is increased for the next one.  The
index has eight bits and the ring has 255 places, so one value of it is outside. -/
def TargetData.addRecent (t : TargetData) (id : ℕ) : Checked TargetData :=
  .checked (t.recentPacketsIndex < recentPacketsSize) .outOfBounds
    { t with
      recentPackets := t.recentPackets.set t.recentPacketsIndex id
      recentPacketsIndex := (t.recentPacketsIndex + 1) % 2 ^ 8 }

/-- `std::find` in `recent_packets`: a packet with this id was processed recently. -/
def TargetData.isRecent (t : TargetData) (id : ℕ) : Bool := decide ((id : ℤ) ∈ t.recentPackets)

/-- `assembler.second[no] = payload`: a packet with the same number is replaced, otherwise it goes
where the order of the numbers puts it. -/
def insertFragment (no : ℕ) (payload : Bytes) (l : Fragments) : Fragments :=
  l.filter (fun p => p.1 < no) ++ (no, payload) :: l.filter fun p => no < p.1

/-- The last packet of the assembler is not one of `count` packets, so that it is left over from
another message with the same id. -/
def corrupted (count : ℕ) (l : Fragments) : Bool := l.getLast?.any fun p => count ≤ p.1

/-- `payload_size`, the sum of the sizes of the data.  Only memory is reserved by it; it is computed
without signs, so a short packet makes it wrap. -/
def payloadSize : Fragments → Checked ℕ
  | [] => pure 0
  | p :: l => do
      let size ← subSize p.2.length sizeofDataPacket
      let rest ← payloadSize l
      pure ((size + 1 + rest) % 2 ^ 64)

/-- The data of the packets, one behind the other, in the order of their numbers. -/
def assemble : Fragments → Checked Bytes
  | [] => pure []
  | p :: l => do
      let part ← readData p.2
      let out ← assemble l
      pure (part ++ out)

/-- The response to a retransmission of a recent packet: all packets of the group are acknowledged,
since the whole message was processed. -/
def acknowledgeAll (payload : Bytes) : Checked Bytes := do
  let id ← readId payload
  let no ← readNo payload
  let count ← readCount payload
  setBits ackBits (List.range count) (ackPacket id no count)

/-- The NACK of a corrupted assembler: the packets that were thought to have come, without the one
that has come now. -/
def rejectAll (payload : Bytes) (stored : Fragments) : Checked Bytes := do
  let id ← readId payload
  let no ← readNo payload
  let count ← readCount payload
  let response ← setBits nackBits (stored.map Prod.fst) (nackPacket id count)
  clearBit nackBits no response

/-- The ACK of the packets of an assembler: it repeats those that were acknowledged before. -/
def acknowledge (payload : Bytes) (stored : Fragments) : Checked Bytes := do
  let id ← readId payload
  let no ← readNo payload
  let count ← readCount payload
  setBits ackBits (stored.map Prod.fst) (ackPacket id no count)

/-- The ACK of the only packet of a group, whose first bit is set. -/
def acknowledgeOne (payload : Bytes) : Checked Bytes := do
  let id ← readId payload
  let no ← readNo payload
  let count ← readCount payload
  setBits ackBits [0] (ackPacket id no count)

/-- A response that is sent for a reliable packet only; the sender of another one does not wait for
it. -/
def ifReliable (payload : Bytes) (response : Checked Bytes) : Checked (List Bytes) := do
  let rel ← readReliable payload
  if rel then do
    let r ← response
    pure [r]
  else pure []

/-- A reliable packet goes into `recent_packets`; an unreliable one is never sent again. -/
def TargetData.remember (t : TargetData) (payload : Bytes) : Checked TargetData := do
  let rel ← readReliable payload
  if rel then do
    let id ← readId payload
    t.addRecent id
  else pure t

/-- The assembler of a group is changed, those of the other groups stay. -/
@[simps assemblers] def TargetData.setAssembler (t : TargetData) (id : ℕ) (l : Fragments) :
    TargetData :=
  { t with assemblers := Function.update t.assemblers id l }

/-- The assemblers that have timed out are deleted; which these are depends on the clock and is
arbitrary here. -/
@[simps assemblers] def TargetData.expire (t : TargetData) (timedOut : List ℕ) : TargetData :=
  { t with assemblers := fun id => if id ∈ timedOut then [] else t.assemblers id }

/-- A retransmission of a packet that was processed recently, of a reliable message.  `DATA` is not
looked for among the recent packets. -/
def isRepeated (t : TargetData) (retransmission : Bool) (payload : Bytes) : Checked Bool :=
  if retransmission then do
    let id ← readId payload
    if t.isRecent id then readReliable payload else pure false
  else pure false

/-- The only packet of its group: it is acknowledged and remembered if it is reliable, and its data
is the message. -/
def receiveSingle (t : TargetData) (queue : SendQueue) (payload : Bytes) : Checked Reception := do
  let out ← readData payload
  let acks ← ifReliable payload (acknowledgeOne payload)
  let t' ← t.remember payload
  let hash ← readHash payload
  let rel ← readReliable payload
  pure ⟨t', queue, acks, some ⟨hash, rel, out⟩, none⟩

/-- What is left of an assembler, and the NACK that is sent, when its last packet is not one of the
group. -/
def purge (payload : Bytes) (stored : Fragments) : Checked (Fragments × List Bytes) := do
  let count ← readCount payload
  if corrupted count stored then do
    let nacks ← ifReliable payload (rejectAll payload stored)
    pure ([], nacks)
  else pure (stored, [])

/-- The message whose last packet has come.  Its hash and reliability are those of the packet that
came last. -/
def assembleMessage (payload : Bytes) (stored : Fragments) : Checked Delivery := do
  let _ ← payloadSize stored
  let out ← assemble stored
  let hash ← readHash payload
  let rel ← readReliable payload
  pure ⟨hash, rel, out⟩

/-- One of several packets of its group.  It goes into the assembler, which is acknowledged; when as
many packets are there as the group has, the message is assembled and the assembler is erased. -/
def receiveFragment (t : TargetData) (queue : SendQueue) (payload : Bytes) (timedOut : List ℕ) :
    Checked Reception := do
  let id ← readId payload
  let no ← readNo payload
  let count ← readCount payload
  let purged ← purge payload (t.assemblers id)
  let stored := insertFragment no payload purged.1
  let acks ← ifReliable payload (acknowledge payload stored)
  if stored.length = count then do
    let message ← assembleMessage payload stored
    let t' ← t.remember payload
    pure ⟨(t'.setAssembler id []).expire timedOut, queue, purged.2 ++ acks, some message, none⟩
  else
    pure ⟨(t.setAssembler id stored).expire timedOut, queue, purged.2 ++ acks, none, none⟩

/-- DATA and DATA_RETRANSMISSION, of a known target and with a valid number: a repeated packet is
only acknowledged, and otherwise it depends on whether it is the only one of its group. -/
def receiveData (t : TargetData) (queue : SendQueue) (retransmission : Bool) (payload : Bytes)
    (timedOut : List ℕ) : Checked Reception := do
  let repeated ← isRepeated t retransmission payload
  if repeated then do
    let response ← acknowledgeAll payload
    pure ⟨t, queue, [response], none, none⟩
  else do
    let count ← readCount payload
    if count = 1 then receiveSingle t queue payload else receiveFragment t queue payload timedOut

/-- The packet is obviously corrupt: its number is larger than its count.  A number that equals the
count is let pass. -/
def isCorrupt (payload : Bytes) : Checked Bool := do
  let no ← readNo payload
  let count ← readCount payload
  pure (decide (count < no))

/-! ## ACK and NACK -/

/-- What a byte of a set looks like when every packet is acknowledged.  The last byte has only some
bits, unless the number of packets is a multiple of eight; then all of its bits are asked for,
though no packet has them. -/
def expectedByte (count size i : ℕ) : Byte :=
  if i + 1 < size ∨ count % 8 = 0 then 0xFF else 0xFF >>> (8 - count % 8)

/-- `all_acked`: every byte of the set has the bits that are expected of it. -/
def allAcked (count : ℕ) (acked : Bytes) : Bool :=
  (List.range acked.length).all fun i =>
    acked.getD i 0 &&& expectedByte count acked.length i == expectedByte count acked.length i

/-- The first entry of a target, by `std::find_if` over the targets of the queue. -/
def PacketQueue.find (q : PacketQueue) (remote : ℕ) : ℕ :=
  q.targets.findIdx fun s => s.target == remote

/-- The queue without the entry at place `k`; it is erased itself when it has no other. -/
def PacketQueue.without (q : PacketQueue) (k : ℕ) : Option PacketQueue :=
  if q.targets.eraseIdx k = [] then none else some { q with targets := q.targets.eraseIdx k }

/-- The queue with other acknowledged packets for the entry at place `k`. -/
def PacketQueue.setAcked (q : PacketQueue) (k : ℕ) (s : PacketTarget) (acked : Bytes) :
    PacketQueue :=
  { q with targets := q.targets.set k { s with acked := acked } }

/-- ACK.  It is ignored unless the message waits for this target, and the packet has the count of
the message and the length that goes with it.  The bits are added, and the entry is erased when all
are there. -/
def receiveAck (t : TargetData) (queue : SendQueue) (remote : ℕ) (payload : Bytes) :
    Checked Reception := do
  let id ← readId payload
  match queue id with
  | none => pure (.ignored t queue)
  | some q =>
      match q.targets[q.find remote]? with
      | none => pure (.ignored t queue)
      | some s => do
          let count ← readCount payload
          if count = q.packetCount ∧ payload.length = sizeofACKPacket + q.packetCount / 8 then do
            let acked ← combine (· ||| ·) payload ackBits s.acked
            if allAcked count acked then
              pure ⟨t, Function.update queue id (q.without (q.find remote)), [], none, some id⟩
            else
              pure ⟨t, Function.update queue id (q.setAcked (q.find remote) s acked),
                [], none, none⟩
          else pure (.ignored t queue)

/-- A packet of a queue is sent again, with the type of a retransmission. -/
def PacketQueue.resendPacket (q : PacketQueue) (mtu id no : ℕ) : Checked Bytes :=
  sendPacket mtu .dataRetransmission id q.packetCount true q.hash q.payload no

/-- A packet is sent again if it is NACKed.  The byte is looked up by the number of the packet, not
by that of its byte. -/
def resendNacked (mtu id : ℕ) (q : PacketQueue) (payload : Bytes) (i : ℕ) :
    Checked (List Bytes) := do
  let b ← readByte payload (nackBits + i)
  if b &&& bit i = bit i then do
    let packet ← q.resendPacket mtu id i
    pure [packet]
  else pure []

/-- The loop over the NACKed packets, in the order of their numbers. -/
def resend (mtu id : ℕ) (q : PacketQueue) (payload : Bytes) : List ℕ → Checked (List Bytes)
  | [] => pure []
  | i :: l => do
      let sent ← resendNacked mtu id q payload i
      let rest ← resend mtu id q payload l
      pure (sent ++ rest)

/-- NACK.  The loop's counter is of 16 bits. -/
def receiveNack (mtu : ℕ) (t : TargetData) (queue : SendQueue) (remote : ℕ) (payload : Bytes) :
    Checked Reception := do
  let id ← readId payload
  match queue id with
  | none => pure (.ignored t queue)
  | some q =>
      match q.targets[q.find remote]? with
      | none => pure (.ignored t queue)
      | some s => do
          let count ← readNackCount payload
          if count = q.packetCount ∧ payload.length = sizeofNACKPacket + q.packetCount / 8 then do
            let acked ← combine (fun a b => a &&& ~~~b) payload nackBits s.acked
            let _ ← Checked.check (count * 8 < 2 ^ 16) .endless
            let sent ← resend mtu id q payload (List.range (count * 8))
            pure ⟨t, Function.update queue id (q.setAcked (q.find remote) s acked),
              sent, none, none⟩
          else pure (.ignored t queue)

/-- A datagram of a known target that carries data or acknowledges it; the other types change no
message. -/
def receive (mtu : ℕ) (t : TargetData) (queue : SendQueue) (remote : ℕ) (type : PacketType)
    (payload : Bytes) (timedOut : List ℕ) : Checked Reception :=
  match type with
  | .data | .dataRetransmission => do
      let corrupt ← isCorrupt payload
      if corrupt then pure (.ignored t queue)
      else receiveData t queue (type == .dataRetransmission) payload timedOut
  | .ack => receiveAck t queue remote payload
  | .nack => receiveNack mtu t queue remote payload
  | _ => pure (.ignored t queue)

/-! ## The accesses to datagrams and responses -/

section

variable {t : TargetData} {queue : SendQueue} {payload : Bytes} {stored : Fragments}
  {timedOut : List ℕ}
  {id no : ℕ} {retransmission : Bool}

@[simp] theorem safe_addRecent : (t.addRecent id).Safe ↔ t.recentPacketsIndex < recentPacketsSize :=
  Checked.safe_checked

/-- All packets of a group fit into an ACK. -/
@[simp] theorem safe_acknowledgeAll : (acknowledgeAll payload).Safe ↔ 11 ≤ payload.length := by
  unfold acknowledgeAll
  simp only [Checked.safe_bind, safe_readId, safe_readNo, safe_readCount,
    safe_setBits, value_readId,
    value_readNo, value_readCount, length_ackPacket, ackBits, sizeofACKPacket, List.mem_range]
  have hbits : ∀ n < packetCount payload, 11 + n / 8 < 12 + packetCount payload / 8 := by
    intro n hn
    omega
  constructor
  · rintro ⟨-, -, h, -⟩
    exact h
  · exact fun h => ⟨by omega, by omega, h, hbits⟩

@[simp] theorem safe_acknowledgeOne : (acknowledgeOne payload).Safe ↔ 11 ≤ payload.length := by
  unfold acknowledgeOne
  simp only [Checked.safe_bind, safe_readId, safe_readNo, safe_readCount,
    safe_setBits, value_readId,
    value_readNo, value_readCount, length_ackPacket, ackBits, sizeofACKPacket, List.mem_singleton,
    forall_eq]
  omega

/-- Those packets of an assembler fit into an ACK whose byte is not behind that of the last
packet. -/
theorem safe_acknowledge : (acknowledge payload stored).Safe ↔
    11 ≤ payload.length ∧ ∀ p ∈ stored, p.1 / 8 ≤ packetCount payload / 8 := by
  unfold acknowledge
  simp only [Checked.safe_bind, safe_readId, safe_readNo, safe_readCount,
    safe_setBits, value_readId,
    value_readNo, value_readCount, length_ackPacket, ackBits, sizeofACKPacket, List.forall_mem_map]
  have hbits : (∀ p ∈ stored, 11 + p.1 / 8 < 12 + packetCount payload / 8) ↔
      ∀ p ∈ stored, p.1 / 8 ≤ packetCount payload / 8 :=
    forall₂_congr fun p _ => by omega
  rw [hbits]
  constructor
  · rintro ⟨-, -, h, hall⟩
    exact ⟨h, hall⟩
  · rintro ⟨h, hall⟩
    exact ⟨by omega, by omega, h, hall⟩

/-- And into a NACK, with that of the packet that has come. -/
theorem safe_rejectAll : (rejectAll payload stored).Safe ↔
    11 ≤ payload.length ∧ (∀ p ∈ stored, p.1 / 8 ≤ packetCount payload / 8) ∧
      packetNo payload / 8 ≤ packetCount payload / 8 := by
  unfold rejectAll clearBit
  simp only [Checked.safe_bind, safe_readId, safe_readNo, safe_readCount,
    safe_setBits, value_readId,
    value_readNo, value_readCount, length_nackPacket, nackBits, sizeofNACKPacket,
      List.forall_mem_map,
    safe_modifyByte, length_setBits]
  have hbits : (∀ p ∈ stored, 9 + p.1 / 8 < 10 + packetCount payload / 8) ↔
      ∀ p ∈ stored, p.1 / 8 ≤ packetCount payload / 8 :=
    forall₂_congr fun p _ => by omega
  rw [hbits]
  constructor
  · rintro ⟨-, -, h, hall, hno⟩
    exact ⟨h, hall, by omega⟩
  · rintro ⟨h, hall, hno⟩
    exact ⟨by omega, by omega, h, hall, by omega⟩

theorem safe_payloadSize : (payloadSize stored).Safe ↔ ∀ p ∈ stored, 21 ≤ p.2.length := by
  induction stored with
  | nil => simp [payloadSize]
  | cons p l ih =>
    rw [payloadSize, Checked.safe_bind, Checked.safe_bind, ih, List.forall_mem_cons, subSize,
      Checked.safe_checked, sizeofDataPacket]
    simp only [Checked.safe_pure, and_true]

theorem safe_assemble : (assemble stored).Safe ↔ ∀ p ∈ stored, 20 ≤ p.2.length := by
  induction stored with
  | nil => simp [assemble]
  | cons p l ih =>
    rw [assemble, Checked.safe_bind, Checked.safe_bind, ih, List.forall_mem_cons, safe_readData]
    simp only [Checked.safe_pure, and_true]

@[simp] theorem value_isRepeated : (isRepeated t retransmission payload).value =
    (retransmission && t.isRecent (packetId payload) && reliable payload) := by
  unfold isRepeated
  cases retransmission
  · rfl
  · rw [if_pos rfl, Checked.value_bind, value_readId, Checked.value_ite, Bool.true_and]
    cases t.isRecent (packetId payload) <;> rfl

theorem safe_isRepeated (h : 11 ≤ payload.length) : (isRepeated t retransmission payload).Safe ↔
    (retransmission = true → t.isRecent (packetId payload) = true → 12 ≤ payload.length) := by
  unfold isRepeated
  rw [Checked.safe_ite, Checked.safe_bind, value_readId, Checked.safe_ite, safe_readId,
    safe_readReliable]
  simp only [Checked.safe_pure, implies_true, and_true]
  have hid : 7 ≤ payload.length := by omega
  simp only [hid, true_and]

@[simp] theorem value_isCorrupt : (isCorrupt payload).value =
    decide (packetCount payload < packetNo payload) := rfl

@[simp] theorem safe_isCorrupt : (isCorrupt payload).Safe ↔ 11 ≤ payload.length := by
  unfold isCorrupt
  simp only [Checked.safe_bind, safe_readNo, safe_readCount, Checked.safe_pure, and_true]
  omega

theorem safe_ifReliable (h : 12 ≤ payload.length) {response : Checked Bytes} :
    (ifReliable payload response).Safe ↔ (reliable payload = true → response.Safe) := by
  unfold ifReliable
  rw [Checked.safe_bind, Checked.safe_ite, Checked.safe_bind, safe_readReliable, value_readReliable]
  simp only [h, Checked.safe_pure, and_true, implies_true, true_and]

theorem safe_remember (h : 12 ≤ payload.length) : (t.remember payload).Safe ↔
    (reliable payload = true → t.recentPacketsIndex < recentPacketsSize) := by
  unfold TargetData.remember
  rw [Checked.safe_bind, Checked.safe_ite, Checked.safe_bind, safe_readReliable, value_readReliable,
    safe_readId, safe_addRecent]
  have hid : 7 ≤ payload.length := by omega
  simp only [h, hid, Checked.safe_pure, and_true, implies_true, true_and]

theorem safe_receiveSingle : (receiveSingle t queue payload).Safe ↔
    20 ≤ payload.length ∧ (reliable payload = true → t.recentPacketsIndex < recentPacketsSize) := by
  unfold receiveSingle
  simp only [Checked.safe_bind, safe_readData, safe_readReliable, safe_readHash, Checked.safe_pure,
    and_true]
  constructor
  · rintro ⟨hlen, -, hrel, -⟩
    exact ⟨hlen, (safe_remember (by omega)).mp hrel⟩
  · rintro ⟨hlen, hrel⟩
    have h : 12 ≤ payload.length := by omega
    refine ⟨hlen, (safe_ifReliable h).mpr fun _ => ?_, (safe_remember h).mpr hrel, hlen, h⟩
    exact safe_acknowledgeOne.mpr (by omega)

theorem safe_assembleMessage : (assembleMessage payload stored).Safe ↔
    (∀ p ∈ stored, 21 ≤ p.2.length) ∧ 20 ≤ payload.length := by
  unfold assembleMessage
  simp only [Checked.safe_bind, safe_payloadSize, safe_assemble, safe_readHash, safe_readReliable,
    Checked.safe_pure, and_true]
  constructor
  · rintro ⟨hsize, -, hlen, -⟩
    exact ⟨hsize, hlen⟩
  · rintro ⟨hsize, hlen⟩
    exact ⟨hsize, fun p hp => (Nat.le_succ 20).trans (hsize p hp), hlen, by omega⟩

/-! ## What the handlers do -/

theorem value_remember : (t.remember payload).value =
    if reliable payload = true then (t.addRecent (packetId payload)).value else t := by
  unfold TargetData.remember
  rw [Checked.value_bind, value_readReliable, Checked.value_ite]
  rfl

@[simp] theorem assemblers_remember : (t.remember payload).value.assemblers = t.assemblers := by
  rw [value_remember]
  split_ifs <;> rfl

theorem value_ifReliable (response : Checked Bytes) : (ifReliable payload response).value =
    if reliable payload = true then [response.value] else [] := by
  unfold ifReliable
  rw [Checked.value_bind, value_readReliable, Checked.value_ite]
  rfl

/-- The data of the packets of an assembler, one behind the other: the message when all of them are
there. -/
def messageData (l : Fragments) : Bytes := l.flatMap fun p => packetData p.2

@[simp] theorem value_assemble : (assemble stored).value = messageData stored := by
  induction stored with
  | nil => rfl
  | cons p l ih =>
    show packetData p.2 ++ (assemble l).value = _
    rw [ih]
    rfl

/-- What is kept of an assembler when a packet comes: nothing, when it is corrupted for the count of
this packet. -/
def keptFragments (payload : Bytes) (stored : Fragments) : Fragments :=
  if corrupted (packetCount payload) stored then [] else stored

theorem value_purge : (purge payload stored).value.1 = keptFragments payload stored := by
  unfold purge keptFragments
  rw [Checked.value_bind, value_readCount, Checked.value_ite]
  split_ifs <;> rfl

/-- The packets in the assembler of a packet, with this one added; so what `receiveFragment` counts
and acknowledges. -/
def TargetData.fragments (t : TargetData) (payload : Bytes) : Fragments :=
  insertFragment (packetNo payload) payload
    (keptFragments payload (t.assemblers (packetId payload)))

theorem value_receiveSingle : (receiveSingle t queue payload).value =
    ⟨(t.remember payload).value, queue, (ifReliable payload (acknowledgeOne payload)).value,
      some ⟨packetHash payload, reliable payload, packetData payload⟩, none⟩ :=
  rfl

/-- **One of several packets**: the message is handed over when it is complete. -/
theorem value_receiveFragment : (receiveFragment t queue payload timedOut).value =
    if (t.fragments payload).length = packetCount payload then
      ⟨((t.remember payload).value.setAssembler (packetId payload) []).expire timedOut, queue,
        (purge payload (t.assemblers (packetId payload))).value.2 ++
          (ifReliable payload (acknowledge payload (t.fragments payload))).value,
        some ⟨packetHash payload, reliable payload, messageData (t.fragments payload)⟩, none⟩
    else
      ⟨(t.setAssembler (packetId payload) (t.fragments payload)).expire timedOut, queue,
        (purge payload (t.assemblers (packetId payload))).value.2 ++
          (ifReliable payload (acknowledge payload (t.fragments payload))).value, none, none⟩ := by
  unfold receiveFragment TargetData.fragments
  simp only [Checked.value_bind, value_readId, value_readNo, value_readCount, value_purge,
    Checked.value_ite, Checked.value_pure, assembleMessage, value_assemble, value_readHash,
    value_readReliable]

/-- A retransmission that is answered from `recent_packets`: it was processed recently, and its
sender waits for an ACK. -/
def TargetData.suppresses (t : TargetData) (retransmission : Bool) (payload : Bytes) : Bool :=
  retransmission && t.isRecent (packetId payload) && reliable payload

theorem value_receiveData : (receiveData t queue retransmission payload timedOut).value =
    if t.suppresses retransmission payload then
      ⟨t, queue, [(acknowledgeAll payload).value], none, none⟩
    else if packetCount payload = 1 then (receiveSingle t queue payload).value
    else (receiveFragment t queue payload timedOut).value := by
  unfold receiveData TargetData.suppresses
  rw [Checked.value_bind, value_isRepeated, Checked.value_ite]
  refine if_congr Iff.rfl rfl ?_
  rw [Checked.value_bind, value_readCount, Checked.value_ite]

/-- The packets that an entry has acknowledged, with those of an ACK: a bit is set if it is set in
one of the two. -/
def ackedWith (payload acked : Bytes) : Bytes := (combine (· ||| ·) payload ackBits acked).value

/-- The packets that an entry has acknowledged, without those of a NACK: a bit that is set there is
cleared. -/
def ackedWithout (payload acked : Bytes) : Bytes :=
  (combine (fun a b => a &&& ~~~b) payload nackBits acked).value

/-- The datagram is a valid ACK for the queue: it has the count of the message, and it is neither
truncated nor longer. -/
def validAck (q : PacketQueue) (payload : Bytes) : Prop :=
  packetCount payload = q.packetCount ∧ payload.length = sizeofACKPacket + q.packetCount / 8

/-- The datagram is a valid NACK for the queue: it has the count of the message, and it is neither
truncated nor longer. -/
def validNack (q : PacketQueue) (payload : Bytes) : Prop :=
  nackCount payload = q.packetCount ∧ payload.length = sizeofNACKPacket + q.packetCount / 8

instance (q : PacketQueue) (payload : Bytes) : Decidable (validAck q payload) :=
  inferInstanceAs (Decidable (_ ∧ _))

instance (q : PacketQueue) (payload : Bytes) : Decidable (validNack q payload) :=
  inferInstanceAs (Decidable (_ ∧ _))

variable {remote mtu : ℕ} {q : PacketQueue} {s : PacketTarget}

/-- An ACK that is not for an entry of the send queue is ignored. -/
theorem value_receiveAck_ignored
    (h : ∀ q ∈ queue (packetId payload), ∀ s ∈ q.targets[q.find remote]?, ¬ validAck q payload) :
    (receiveAck t queue remote payload).value = .ignored t queue := by
  unfold receiveAck
  rw [Checked.value_bind, value_readId]
  cases hq : queue (packetId payload) with
  | none => rfl
  | some q =>
    cases hs : q.targets[q.find remote]? with
    | none => simp only [hs, Checked.value_pure]
    | some s =>
      simp only [hs]
      rw [Checked.value_bind, value_readCount, Checked.value_ite]
      exact if_neg (h q hq s hs)

/-- **An ACK for an entry**: its packets are acknowledged, and if these are all, the entry is
erased. -/
theorem value_receiveAck (hq : queue (packetId payload) = some q)
    (hs : q.targets[q.find remote]? = some s) (hvalid : validAck q payload) :
    (receiveAck t queue remote payload).value =
      if allAcked q.packetCount (ackedWith payload s.acked) then
        ⟨t, Function.update queue (packetId payload) (q.without (q.find remote)), [], none,
          some (packetId payload)⟩
      else
        ⟨t, Function.update queue (packetId payload)
          (q.setAcked (q.find remote) s (ackedWith payload s.acked)), [], none, none⟩ := by
  unfold receiveAck ackedWith
  rw [Checked.value_bind, value_readId, hq]
  simp only [hs]
  rw [Checked.value_bind, value_readCount, Checked.value_ite]
  refine (if_pos hvalid).trans ?_
  rw [Checked.value_bind, Checked.value_ite, hvalid.1]
  rfl

/-- A NACK that is not for an entry of the send queue is ignored. -/
theorem value_receiveNack_ignored
    (h : ∀ q ∈ queue (packetId payload), ∀ s ∈ q.targets[q.find remote]?, ¬ validNack q payload) :
    (receiveNack mtu t queue remote payload).value = .ignored t queue := by
  unfold receiveNack
  rw [Checked.value_bind, value_readId]
  cases hq : queue (packetId payload) with
  | none => rfl
  | some q =>
    cases hs : q.targets[q.find remote]? with
    | none => simp only [hs, Checked.value_pure]
    | some s =>
      simp only [hs]
      rw [Checked.value_bind, value_readNackCount, Checked.value_ite]
      exact if_neg (h q hq s hs)

/-- A NACK for an entry: its packets are not acknowledged any more, and are sent again. -/
theorem value_receiveNack (hq : queue (packetId payload) = some q)
    (hs : q.targets[q.find remote]? = some s) (hvalid : validNack q payload) :
    (receiveNack mtu t queue remote payload).value =
      ⟨t, Function.update queue (packetId payload)
          (q.setAcked (q.find remote) s (ackedWithout payload s.acked)),
        (resend mtu (packetId payload) q payload (List.range (nackCount payload * 8))).value, none,
        none⟩ := by
  unfold receiveNack ackedWithout
  rw [Checked.value_bind, value_readId, hq]
  simp only [hs]
  rw [Checked.value_bind, value_readNackCount, Checked.value_ite]
  exact if_pos hvalid

/-- What an ACK does. -/
theorem receiveAck_cases (t : TargetData) (queue : SendQueue) (remote : ℕ) (payload : Bytes) :
    (receiveAck t queue remote payload).value = .ignored t queue ∨
    ∃ q s, queue (packetId payload) = some q ∧ q.targets[q.find remote]? = some s ∧
      validAck q payload ∧ (receiveAck t queue remote payload).value =
        if allAcked q.packetCount (ackedWith payload s.acked) then
          ⟨t, Function.update queue (packetId payload) (q.without (q.find remote)), [], none,
            some (packetId payload)⟩
        else
          ⟨t, Function.update queue (packetId payload)
            (q.setAcked (q.find remote) s (ackedWith payload s.acked)), [], none, none⟩ := by
  by_cases hvalid : ∃ q ∈ queue (packetId payload), ∃ s ∈ q.targets[q.find remote]?,
      validAck q payload
  · obtain ⟨q, hq, s, hs, hvalid⟩ := hvalid
    exact .inr ⟨q, s, hq, hs, hvalid, value_receiveAck hq hs hvalid⟩
  · exact .inl (value_receiveAck_ignored fun q hq s hs hv => hvalid ⟨q, hq, s, hs, hv⟩)

/-- What a NACK does. -/
theorem receiveNack_cases (mtu : ℕ) (t : TargetData) (queue : SendQueue) (remote : ℕ)
    (payload : Bytes) : (receiveNack mtu t queue remote payload).value = .ignored t queue ∨
    ∃ q s, queue (packetId payload) = some q ∧ q.targets[q.find remote]? = some s ∧
      validNack q payload ∧ (receiveNack mtu t queue remote payload).value =
        ⟨t, Function.update queue (packetId payload)
            (q.setAcked (q.find remote) s (ackedWithout payload s.acked)),
          (resend mtu (packetId payload) q payload (List.range (nackCount payload * 8))).value,
            none,
          none⟩ := by
  by_cases hvalid : ∃ q ∈ queue (packetId payload), ∃ s ∈ q.targets[q.find remote]?,
      validNack q payload
  · obtain ⟨q, hq, s, hs, hvalid⟩ := hvalid
    exact .inr ⟨q, s, hq, hs, hvalid, value_receiveNack hq hs hvalid⟩
  · exact .inl (value_receiveNack_ignored fun q hq s hs hv => hvalid ⟨q, hq, s, hs, hv⟩)

@[simp] theorem target_receiveAck : (receiveAck t queue remote payload).value.target = t := by
  obtain hvalue | ⟨q, s, -, -, -, hvalue⟩ := receiveAck_cases t queue remote payload
  · rw [hvalue]
    rfl
  · rw [hvalue]
    split_ifs <;> rfl

@[simp] theorem target_receiveNack : (receiveNack mtu t queue remote payload).value.target = t := by
  obtain hvalue | ⟨q, s, -, -, -, hvalue⟩ := receiveNack_cases mtu t queue remote payload <;>
    rw [hvalue]
  rfl

/-- An ACK hands nothing over. -/
@[simp] theorem delivered_receiveAck : (receiveAck t queue remote payload).value.delivered =
    none := by
  obtain hvalue | ⟨q, s, -, -, -, hvalue⟩ := receiveAck_cases t queue remote payload
  · rw [hvalue]
    rfl
  · rw [hvalue]
    split_ifs <;> rfl

/-- Nor does a NACK. -/
@[simp] theorem delivered_receiveNack :
    (receiveNack mtu t queue remote payload).value.delivered = none := by
  obtain hvalue | ⟨q, s, -, -, -, hvalue⟩ := receiveNack_cases mtu t queue remote payload <;>
    rw [hvalue]
  rfl

theorem receive_data {type : PacketType} (htype : type = .data ∨ type = .dataRetransmission) :
    receive mtu t queue remote type payload timedOut = (do
      let corrupt ← isCorrupt payload
      if corrupt then pure (.ignored t queue)
      else receiveData t queue (type == .dataRetransmission) payload timedOut) := by
  rcases htype with rfl | rfl <;> rfl

/-- A datagram whose number is larger than its count is ignored. -/
theorem value_receive_data {type : PacketType}
    (htype : type = .data ∨ type = .dataRetransmission) :
    (receive mtu t queue remote type payload timedOut).value =
      if packetCount payload < packetNo payload then .ignored t queue
      else (receiveData t queue (type == .dataRetransmission) payload timedOut).value := by
  rw [receive_data htype, Checked.value_bind, value_isCorrupt, Checked.value_ite]
  simp only [decide_eq_true_eq, Checked.value_pure]

end

end Network
end Extension
end NUClear
