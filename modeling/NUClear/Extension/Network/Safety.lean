import NUClear.Extension.Network.Peers
import NUClear.Extension.Network.Reception

/-!
# The accesses of `process_packet`

The first section says, for each kind of datagram and each state, exactly when the handlers stay
within the datagram, the responses and the sets of acknowledged packets.  They need that the packets
of an assembler are in order, as in a `std::map`, and that the set of acknowledged packets of an
entry in the send queue has the size that `send` gives it.  Both hold in every state that a node
reaches (`WellFormed`), so that `process_packet` is safe if and only if `InBounds` holds
(`safe_iff_of_reaches`).

A datagram that is shorter than the struct it is read as is not the only way to leave the bounds:
the reassembly subtracts the size of the struct from that of every packet it has kept, a NACK is
built from the numbers of packets kept under another packet count, the loop over a NACK takes bits
for bytes, and the index of the recent packets has one value more than there are places.

* `DataInBounds`, `AckInBounds`, `NackInBounds`: the conditions, in the lengths of the datagram and
  of what is kept, and in the numbers that these say.
* `safe_receive_data`, `safe_receiveAck`, `safe_receiveNack`: each handler stays within its bounds
  if and only if its condition holds.
* `Node`, `nodeStep`: a node with its peers, what it keeps for each and its send queue, and what may
  happen to it.
* `WellFormed.step`: every step keeps a node well formed, by one lemma for each of the things that
  it does.
-/

namespace NUClear
namespace Extension
namespace Network

open Foundation

/-! ## Assemblers -/

/-- The packets are in order, each number once, as the `std::map` of an assembler keeps them. -/
def Ordered (l : Fragments) : Prop := l.Pairwise fun p q => p.1 < q.1

section

variable {l : Fragments} {no count : ℕ} {payload : Bytes}

theorem mem_insertFragment {p : ℕ × Bytes} :
    p ∈ insertFragment no payload l ↔ p = (no, payload) ∨ p ∈ l ∧ p.1 ≠ no := by
  simp only [insertFragment, List.mem_append, List.mem_filter, List.mem_cons, decide_eq_true_eq]
  have : p.1 ≠ no ↔ p.1 < no ∨ no < p.1 := ne_iff_lt_or_gt
  tauto

theorem Ordered.insertFragment (h : Ordered l) : Ordered (insertFragment no payload l) := by
  unfold Ordered Network.insertFragment
  rw [List.pairwise_append, List.pairwise_cons]
  refine ⟨h.filter _, ⟨fun p hp => ?_, h.filter _⟩, fun p hp q hq => ?_⟩
  · exact of_decide_eq_true (List.mem_filter.mp hp).2
  · have hp : p.1 < no := of_decide_eq_true (List.mem_filter.mp hp).2
    rcases List.mem_cons.mp hq with rfl | hq
    · exact hp
    · exact hp.trans (of_decide_eq_true (List.mem_filter.mp hq).2)

/-- An assembler that is not corrupted has only packets of the group: the last packet is one, so all
are. -/
theorem Ordered.lt_of_not_corrupted (h : Ordered l) (hc : corrupted count l = false)
    {p : ℕ × Bytes} (hp : p ∈ l) : p.1 < count := by
  rcases List.eq_nil_or_concat l with rfl | ⟨l', x, rfl⟩
  · exact absurd hp List.not_mem_nil
  · rw [List.concat_eq_append] at h hc hp
    have hx : x.1 < count := by
      unfold corrupted at hc
      rw [List.getLast?_concat] at hc
      simpa using hc
    obtain ⟨-, -, hlast⟩ := List.pairwise_append.mp h
    rcases List.mem_append.mp hp with hp | hp
    · exact (hlast p hp x (List.mem_singleton_self x)).trans hx
    · rw [List.mem_singleton.mp hp]
      exact hx

end

/-! ## When the handlers stay within their bounds -/

/-- For one of several packets of its group: the datagram has the fields up to `reliable`; when the
assembler is corrupted, the packets in it are among those that a NACK has room for; and when the
message is complete, all its packets have the size of a `DataPacket`. -/
def FragmentInBounds (t : TargetData) (payload : Bytes) : Prop :=
  12 ≤ payload.length ∧
    (corrupted (packetCount payload) (t.assemblers (packetId payload)) = true →
      reliable payload = true →
        ∀ p ∈ t.assemblers (packetId payload), p.1 / 8 ≤ packetCount payload / 8) ∧
    ((t.fragments payload).length = packetCount payload →
      (∀ p ∈ t.fragments payload, sizeofDataPacket ≤ p.2.length) ∧
        (reliable payload = true → t.recentPacketsIndex < recentPacketsSize))

/-- For DATA and DATA_RETRANSMISSION: the datagram has the fields that are read, and if it is
processed its data; the rest is about the recent packets and the assembler. -/
def DataInBounds (t : TargetData) (retransmission : Bool) (payload : Bytes) : Prop :=
  11 ≤ payload.length ∧ (packetNo payload ≤ packetCount payload →
    (retransmission = true → t.isRecent (packetId payload) = true → 12 ≤ payload.length) ∧
      (t.suppresses retransmission payload = false →
        if packetCount payload = 1 then
          20 ≤ payload.length ∧
            (reliable payload = true → t.recentPacketsIndex < recentPacketsSize)
        else FragmentInBounds t payload))

/-- The target has an entry in the send queue for the packet group: the message waits for its ACK.
-/
def HasEntry (queue : SendQueue) (remote id : ℕ) : Prop :=
  ∃ q ∈ queue id, ∃ s ∈ q.targets, s.target = remote

/-- For ACK: the id is there; and if the message waits for the target, the count is.  The bits are
read only when the length was found to be right. -/
def AckInBounds (queue : SendQueue) (remote : ℕ) (payload : Bytes) : Prop :=
  7 ≤ payload.length ∧ (HasEntry queue remote (packetId payload) → 11 ≤ payload.length)

/-- For NACK: the id is there, and the count if the message waits for the target.  A valid one has
no packets, since the loop over the packets reads behind the datagram as soon as there is one. -/
def NackInBounds (queue : SendQueue) (remote : ℕ) (payload : Bytes) : Prop :=
  7 ≤ payload.length ∧ ∀ q ∈ queue (packetId payload), (∃ s ∈ q.targets, s.target = remote) →
    9 ≤ payload.length ∧ (nackCount payload = q.packetCount →
      payload.length = sizeofNACKPacket + q.packetCount / 8 → q.packetCount = 0)

/-- The sizes that `send` gives to the sets of acknowledged packets; no handler changes them. -/
def AckedSizes (queue : SendQueue) : Prop :=
  ∀ id, ∀ q ∈ queue id, ∀ s ∈ q.targets, s.acked.length = q.packetCount / 8 + 1

section

variable {t : TargetData} {queue : SendQueue} {payload : Bytes} {stored : Fragments}
  {timedOut : List ℕ} {retransmission : Bool} {remote mtu : ℕ}

theorem safe_purge (h : 12 ≤ payload.length) (hno : packetNo payload ≤ packetCount payload) :
    (purge payload stored).Safe ↔ (corrupted (packetCount payload) stored = true →
      reliable payload = true → ∀ p ∈ stored, p.1 / 8 ≤ packetCount payload / 8) := by
  unfold purge
  rw [Checked.safe_bind, value_readCount, Checked.safe_ite, Checked.safe_bind, safe_ifReliable h,
    safe_rejectAll, safe_readCount]
  have hlen : 11 ≤ payload.length := by omega
  have hno : packetNo payload / 8 ≤ packetCount payload / 8 := Nat.div_le_div_right hno
  simp only [Checked.safe_pure, implies_true, and_true, hlen, hno, true_and]

theorem Ordered.keptFragments (h : Ordered stored) : Ordered (keptFragments payload stored) := by
  unfold Network.keptFragments
  split_ifs
  · exact List.Pairwise.nil
  · exact h

/-- The packets that an ACK is about fit into it. -/
theorem div_le_of_mem_insertFragment (h : Ordered stored)
    (hno : packetNo payload ≤ packetCount payload) {p : ℕ × Bytes}
    (hp : p ∈ insertFragment (packetNo payload) payload (Network.keptFragments payload stored)) :
    p.1 / 8 ≤ packetCount payload / 8 := by
  rcases mem_insertFragment.mp hp with rfl | ⟨hp, -⟩
  · exact Nat.div_le_div_right hno
  · unfold Network.keptFragments at hp
    split_ifs at hp with hc
    · exact absurd hp List.not_mem_nil
    · exact Nat.div_le_div_right (h.lt_of_not_corrupted (by simpa using hc) hp).le

theorem safe_receiveFragment (h : Ordered (t.assemblers (packetId payload)))
    (hno : packetNo payload ≤ packetCount payload) :
    (receiveFragment t queue payload timedOut).Safe ↔ FragmentInBounds t payload := by
  unfold receiveFragment FragmentInBounds TargetData.fragments
  simp only [Checked.safe_bind, Checked.safe_ite, safe_readId, safe_readNo, safe_readCount,
    value_readId, value_readNo, value_readCount, value_purge, safe_assembleMessage,
    Checked.safe_pure, implies_true, and_true, sizeofDataPacket]
  constructor
  · rintro ⟨-, -, -, hpurge, hacks, hcomplete⟩
    have hlen : 12 ≤ payload.length := by
      unfold ifReliable at hacks
      rw [Checked.safe_bind, safe_readReliable] at hacks
      exact hacks.1
    refine ⟨hlen, (safe_purge hlen hno).mp hpurge, fun hc => ?_⟩
    obtain ⟨⟨hsize, -⟩, hrecent⟩ := hcomplete hc
    exact ⟨hsize, (safe_remember hlen).mp hrecent⟩
  · rintro ⟨hlen, hpurge, hcomplete⟩
    refine ⟨by omega, by omega, by omega, (safe_purge hlen hno).mpr hpurge,
      (safe_ifReliable hlen).mpr fun _ => ?_, fun hc => ?_⟩
    · exact safe_acknowledge.mpr ⟨by omega, fun p hp => div_le_of_mem_insertFragment h hno hp⟩
    · obtain ⟨hsize, hrecent⟩ := hcomplete hc
      have hself : 21 ≤ payload.length := hsize _ (mem_insertFragment.mpr (Or.inl rfl))
      exact ⟨⟨hsize, by omega⟩, (safe_remember hlen).mpr hrecent⟩

theorem safe_receiveData (h : Ordered (t.assemblers (packetId payload)))
    (hlen : 11 ≤ payload.length) (hno : packetNo payload ≤ packetCount payload) :
    (receiveData t queue retransmission payload timedOut).Safe ↔
      DataInBounds t retransmission payload := by
  unfold receiveData DataInBounds TargetData.suppresses
  rw [Checked.safe_bind, value_isRepeated, safe_isRepeated hlen, Checked.safe_ite,
    Checked.safe_bind,
    Checked.safe_bind, value_readCount, Checked.safe_ite, safe_receiveSingle,
    safe_receiveFragment h hno, safe_acknowledgeAll, safe_readCount]
  simp only [hlen, hno, true_and, and_true, Checked.safe_pure, implies_true, forall_const,
    Bool.not_eq_true]
  split_ifs with hc <;> simp [hc]

/-- **DATA and DATA_RETRANSMISSION** are processed without reading or writing outside of anything
exactly when they are in bounds. -/
theorem safe_receive_data {type : PacketType} (htype : type = .data ∨ type = .dataRetransmission)
    (h : Ordered (t.assemblers (packetId payload))) :
    (receive mtu t queue remote type payload timedOut).Safe ↔
      DataInBounds t (type == .dataRetransmission) payload := by
  rw [receive_data htype, Checked.safe_bind, safe_isCorrupt, value_isCorrupt, Checked.safe_ite]
  simp only [Checked.safe_pure, implies_true, true_and, decide_eq_true_eq, not_lt]
  constructor
  · rintro ⟨hlen, hdata⟩
    refine ⟨hlen, fun hno => ?_⟩
    exact ((safe_receiveData h hlen hno).mp (hdata hno)).2 hno
  · intro hdata
    refine ⟨hdata.1, fun hno => (safe_receiveData h hdata.1 hno).mpr hdata⟩

/-! ## ACK and NACK -/

/-- The entry of a target in a queue. -/
theorem getElem?_find {q : PacketQueue} {s : PacketTarget}
    (h : q.targets[q.find remote]? = some s) : s ∈ q.targets ∧ s.target = remote := by
  obtain ⟨hlt, hs⟩ := List.getElem?_eq_some_iff.mp h
  refine ⟨hs ▸ List.getElem_mem hlt, ?_⟩
  have := List.findIdx_getElem (p := fun s : PacketTarget => s.target == remote) (w := hlt)
  rw [← hs]
  exact eq_of_beq this

theorem getElem?_find_eq_none {q : PacketQueue} (h : q.targets[q.find remote]? = none) :
    ¬ ∃ s ∈ q.targets, s.target = remote := by
  rintro ⟨s, hs, hr⟩
  have hlt := List.findIdx_lt_length_of_exists (p := fun s : PacketTarget => s.target == remote)
    ⟨s, hs, beq_iff_eq.mpr hr⟩
  rw [List.getElem?_eq_none_iff] at h
  exact absurd hlt (not_lt.mpr h)

theorem safe_combine_acked {f : Byte → Byte → Byte} {acked : Bytes} {o n : ℕ}
    (hacked : acked.length = n / 8 + 1) (hlen : payload.length = o + 1 + n / 8) :
    (combine f payload o acked).Safe :=
  safe_combine.mpr (Or.inr (by omega))

/-- **ACK** is processed safely exactly when its fields are there; for the bits the length is
checked by the code. -/
theorem safe_receiveAck (h : AckedSizes queue) :
    (receiveAck t queue remote payload).Safe ↔ AckInBounds queue remote payload := by
  unfold receiveAck AckInBounds HasEntry
  rw [Checked.safe_bind, safe_readId, value_readId]
  refine and_congr_right fun _ => ?_
  cases hq : queue (packetId payload) with
  | none => simp
  | some q =>
    simp only [Option.mem_def, Option.some.injEq, exists_eq_left']
    cases hs : q.targets[q.find remote]? with
    | none =>
      have := getElem?_find_eq_none hs
      simp [this]
    | some s =>
      obtain ⟨hmem, hr⟩ := getElem?_find hs
      have hentry : ∃ s ∈ q.targets, s.target = remote := ⟨s, hmem, hr⟩
      rw [Checked.safe_bind, safe_readCount, value_readCount, Checked.safe_ite, Checked.safe_bind,
        Checked.safe_ite]
      simp only [Checked.safe_pure, implies_true, and_true, hentry, forall_const]
      refine and_iff_left fun hvalid => ?_
      exact safe_combine_acked (h _ q hq s hmem) hvalid.2

/-- The loop over a NACK reads one byte for each of its numbers, so it is safe only when the
datagram has all of them. -/
theorem lt_of_safe_resend {id : ℕ} {q : PacketQueue} {l : List ℕ}
    (h : (resend mtu id q payload l).Safe) {i : ℕ} (hi : i ∈ l) :
    nackBits + i < payload.length := by
  induction l with
  | nil => exact absurd hi List.not_mem_nil
  | cons n l ih =>
    rw [resend, Checked.safe_bind, Checked.safe_bind] at h
    rcases List.mem_cons.mp hi with rfl | hi
    · have hread := h.1
      rw [resendNacked, Checked.safe_bind, safe_readByte] at hread
      exact hread.1
    · exact ih h.2.1 hi

/-- And there is not a byte for each: a valid NACK has one for eight packets. -/
theorem not_safe_resend {id count : ℕ} {q : PacketQueue} (hpos : 0 < count)
    (hlen : payload.length = sizeofNACKPacket + count / 8) :
    ¬ (resend mtu id q payload (List.range (count * 8))).Safe := by
  intro h
  have hlast := lt_of_safe_resend h (i := count * 8 - 1) (List.mem_range.mpr (by omega))
  rw [hlen, nackBits, sizeofNACKPacket] at hlast
  omega

/-- **NACK** is processed safely exactly when it is in bounds: it is refused, or its message has no
packets. -/
theorem safe_receiveNack (h : AckedSizes queue) :
    (receiveNack mtu t queue remote payload).Safe ↔ NackInBounds queue remote payload := by
  unfold receiveNack NackInBounds
  rw [Checked.safe_bind, safe_readId, value_readId]
  refine and_congr_right fun _ => ?_
  cases hq : queue (packetId payload) with
  | none => simp
  | some q =>
    simp only [Option.mem_def, Option.some.injEq, forall_eq']
    cases hs : q.targets[q.find remote]? with
    | none =>
      have := getElem?_find_eq_none hs
      simp [this]
    | some s =>
      obtain ⟨hmem, hr⟩ := getElem?_find hs
      have hentry : ∃ s ∈ q.targets, s.target = remote := ⟨s, hmem, hr⟩
      rw [Checked.safe_bind, safe_readNackCount, value_readNackCount, Checked.safe_ite]
      simp only [Checked.safe_bind, Checked.safe_check, Checked.safe_pure, implies_true, and_true,
        hentry, forall_const]
      refine and_congr_right fun _ => ?_
      rw [and_imp]
      refine forall₂_congr fun hcount hlen => ?_
      rw [hcount]
      constructor
      · rintro ⟨-, -, hresend⟩
        by_contra hne
        exact not_safe_resend (Nat.pos_of_ne_zero hne) hlen hresend
      · intro hzero
        refine ⟨safe_combine_acked (h _ q hq s hmem) hlen, ?_, ?_⟩ <;> rw [hzero]
        · decide
        · rfl

end

/-! ## The node -/

/-- A node: its peers, what it keeps for each of them, and the reliable messages that it has sent.
-/
structure Node where
  peers : Peers
  /-- The identity of the next target. -/
  nextTarget : ℕ
  /-- What is kept for each target, by its identity. -/
  data : ℕ → TargetData
  sendQueue : SendQueue
  packetIdSource : ℕ
  packetDataMtu : ℕ

namespace Node

/-- `reset`: the target for multicast packets is the only one, and no message waits. -/
def reset (announceTarget : Sock) (packetDataMtu : ℕ) : Node where
  peers := .reset announceTarget
  nextTarget := 1
  data := fun _ => .new
  sendQueue := fun _ => none
  packetIdSource := 0
  packetDataMtu := packetDataMtu

/-- The name in an `AnnouncePacket`: the bytes behind the header, whose number is computed without
signs. -/
def readName (payload : Bytes) : Checked String := do
  let size ← subSize payload.length sizeofAnnouncePacket
  .checked (5 + size ≤ payload.length) .outOfBounds
    (String.ofList (((payload.drop 5).take size).map fun b => Char.ofNat b.toNat))

/-- A new target, if it has a name, with a number of its own.  The empty name is reserved for the
target for multicast packets. -/
def join (s : Node) (name : String) (address : Sock) : Node :=
  if name = "" then s
  else { s with
    peers := s.peers.addTarget ⟨s.nextTarget, name, address⟩
    nextTarget := s.nextTarget + 1
    data := Function.update s.data s.nextTarget .new }

/-- ANNOUNCE: an unknown node joins; the name of a known one is not read. -/
def announced (s : Node) (address : Sock) (payload : Bytes) : Checked Node :=
  match s.peers.udpTarget (udpKey address) with
  | none => do
      let name ← readName payload
      pure (s.join name address)
  | some _ => pure s

/-- LEAVE: the target at the address is removed, if there is one. -/
def left (s : Node) (address : Sock) : Node :=
  match s.peers.udpTarget (udpKey address) with
  | none => s
  | some remote => { s with peers := s.peers.removeTarget remote }

/-- The node after a datagram of a target: what the reception has made of the target and of the send
queue. -/
def received (s : Node) (remote : NetworkTarget) (r : Reception) : Node :=
  { s with data := Function.update s.data remote.id r.target, sendQueue := r.sendQueue }

/-- Datagrams that carry data or acknowledge it.  From an unknown node they are ignored, but the
numbers of a packet with data are compared before. -/
def exchanged (s : Node) (type : PacketType) (address : Sock) (payload : Bytes)
    (timedOut : List ℕ) :
    Checked Node :=
  match s.peers.udpTarget (udpKey address), type with
  | some remote, _ => do
      let r ← receive s.packetDataMtu (s.data remote.id) s.sendQueue remote.id type payload timedOut
      pure (s.received remote r)
  | none, .data | none, .dataRetransmission => do
      let _ ← isCorrupt payload
      pure s
  | none, _ => pure s

/-- `process_packet`: a datagram that does not start as the protocol asks, or is too short for it,
is ignored. -/
def processPacket (s : Node) (address : Sock) (payload : Bytes) (timedOut : List ℕ) :
    Checked Node :=
  if isPacket payload then
    match packetType payload with
    | some .announce => s.announced address payload
    | some .leave => pure (s.left address)
    | some type => s.exchanged type address payload timedOut
    | none => pure s
  else pure s

/-- `process`: those who have timed out are removed, and the first target is skipped. -/
def removeTimedOut (s : Node) (timedOut : List NetworkTarget) : Node :=
  { s with peers := (s.peers.targets.tail.filter (· ∈ timedOut)).foldl Peers.removeTarget s.peers }

/-- `retransmit`: the entries of targets that are gone are erased, and the queues that have none
left. -/
def eraseGone (s : Node) : Node :=
  { s with sendQueue := fun id => (s.sendQueue id).bind fun q =>
      let targets := q.targets.filter fun t => s.peers.targets.any fun r => r.id == t.target
      if targets = [] then none else some { q with targets := targets } }

/-- The next packet id that is not in the send queue, if there is one. -/
def nextPacketId (s : Node) : Option ℕ := nextFree s.sendQueue (2 ^ 16) s.packetIdSource

/-- The targets that a message is sent to: all, or those of a name; the target for multicast packets
is not one of them. -/
def recipients (s : Node) (target : String) : List NetworkTarget :=
  ((s.peers.nameTarget.filter fun x => target = "" ∨ x.1 = target).map Prod.snd).filter
    fun t => t.name ≠ ""

/-- `send` of a reliable message, by a node that is connected: what is kept of it. -/
def send (s : Node) (hash : ℕ) (payload : Bytes) (target : String) : Option Node :=
  if s.peers.targets = [] then none
  else s.nextPacketId.map fun id =>
    let count := messageCount s.packetDataMtu payload
    let acks : Bytes := List.replicate (count / 8 + 1) 0
    { s with
      packetIdSource := id
      sendQueue := Function.update s.sendQueue id
        (some ⟨(s.recipients target).map fun t => ⟨t.id, acks⟩, count, hash, payload⟩) }

end Node

/-- What happens to a node: a datagram comes from anywhere, with any content, or one of its
functions is called. -/
inductive NodeAction where
  | receive (address : Sock) (payload : Bytes) (timedOut : List ℕ)
  | process (timedOut : List NetworkTarget)
  | retransmit
  | send (hash : ℕ) (payload : Bytes) (target : String) (reliable : Bool)
  deriving DecidableEq, Repr

/-- One step of a node.  A message that is not reliable takes a packet id only, and nothing of it is
kept. -/
def nodeStep (s : Node) : NodeAction → Option Node
  | .receive address payload timedOut => some (s.processPacket address payload timedOut).value
  | .process timedOut => some (s.removeTimedOut timedOut)
  | .retransmit => some s.eraseGone
  | .send hash payload target true => s.send hash payload target
  | .send _ _ _ false => s.nextPacketId.map fun id => { s with packetIdSource := id }

/-! ## What every node keeps -/

/-- What holds of every state that a node reaches: the assemblers are in order, and the sets of
acknowledged packets have the size that `send` gives them. -/
structure WellFormed (s : Node) : Prop where
  ordered : ∀ i id, Ordered ((s.data i).assemblers id)
  acked : AckedSizes s.sendQueue

section

variable {t : TargetData} {queue : SendQueue} {payload : Bytes} {timedOut : List ℕ}
  {remote mtu : ℕ} {type : PacketType} {q : PacketQueue} {k id : ℕ}

theorem ordered_expire (h : ∀ id, Ordered (t.assemblers id)) (id : ℕ) :
    Ordered ((t.expire timedOut).assemblers id) := by
  rw [TargetData.expire_assemblers]
  split_ifs
  · exact List.Pairwise.nil
  · exact h id

theorem ordered_setAssembler (h : ∀ id, Ordered (t.assemblers id)) {l : Fragments} (hl : Ordered l)
    (k id : ℕ) : Ordered ((t.setAssembler k l).assemblers id) := by
  rw [TargetData.setAssembler_assemblers]
  by_cases hk : id = k
  · rw [hk, Function.update_self]
    exact hl
  · rw [Function.update_of_ne hk]
    exact h id

theorem ordered_receiveData (h : ∀ id, Ordered (t.assemblers id)) {retransmission : Bool} (id : ℕ) :
    Ordered ((receiveData t queue retransmission payload timedOut).value.target.assemblers id) := by
  rw [value_receiveData]
  split_ifs
  · exact h id
  · rw [value_receiveSingle, assemblers_remember]
    exact h id
  · rw [value_receiveFragment]
    have hfragments : Ordered (t.fragments payload) := (h _).keptFragments.insertFragment
    split_ifs
    · refine ordered_expire (fun id => ordered_setAssembler (fun id => ?_) List.Pairwise.nil _ id)
        id
      rw [assemblers_remember]
      exact h id
    · exact ordered_expire (fun id => ordered_setAssembler h hfragments _ id) id

theorem sendQueue_receiveData {retransmission : Bool} :
    (receiveData t queue retransmission payload timedOut).value.sendQueue = queue := by
  rw [value_receiveData]
  split_ifs
  · rfl
  · rfl
  · rw [value_receiveFragment]
    split_ifs <;> rfl

theorem AckedSizes.update (h : AckedSizes queue) (id : ℕ) {q' : Option PacketQueue}
    (hq : ∀ q ∈ q', ∀ s ∈ q.targets, s.acked.length = q.packetCount / 8 + 1) :
    AckedSizes (Function.update queue id q') := by
  intro id' q hmem s hs
  by_cases hid : id' = id
  · rw [hid, Function.update_self] at hmem
    exact hq q hmem s hs
  · rw [Function.update_of_ne hid] at hmem
    exact h id' q hmem s hs

theorem ackedSizes_without (h : ∀ s ∈ q.targets, s.acked.length = q.packetCount / 8 + 1) :
    ∀ q' ∈ q.without k, ∀ s ∈ q'.targets, s.acked.length = q'.packetCount / 8 + 1 := by
  intro q' hq' s hs
  unfold PacketQueue.without at hq'
  split_ifs at hq' with hnil
  · exact absurd hq' (by simp)
  · obtain rfl := Option.some.inj hq'
    exact h s (List.mem_of_mem_eraseIdx hs)

theorem ackedSizes_setAcked (h : ∀ s ∈ q.targets, s.acked.length = q.packetCount / 8 + 1)
    {s : PacketTarget} {acked : Bytes} (hacked : acked.length = q.packetCount / 8 + 1) :
    ∀ q' ∈ some (q.setAcked k s acked), ∀ s ∈ q'.targets,
      s.acked.length = q'.packetCount / 8 + 1 := by
  intro q' hq' s' hs'
  obtain rfl := Option.some.inj hq'
  rcases List.mem_or_eq_of_mem_set hs' with hs' | rfl
  · exact h s' hs'
  · exact hacked

theorem ackedSizes_receiveAck (h : AckedSizes queue) :
    AckedSizes (receiveAck t queue remote payload).value.sendQueue := by
  obtain hvalue | ⟨q, s, hq, hs, -, hvalue⟩ := receiveAck_cases t queue remote payload
  · rw [hvalue]
    exact h
  · rw [hvalue]
    have hsizes := h _ q hq
    split_ifs
    · exact h.update _ (ackedSizes_without hsizes)
    · refine h.update _ (ackedSizes_setAcked hsizes ?_)
      rw [ackedWith, length_combine]
      exact hsizes s (getElem?_find hs).1

theorem ackedSizes_receiveNack (h : AckedSizes queue) :
    AckedSizes (receiveNack mtu t queue remote payload).value.sendQueue := by
  obtain hvalue | ⟨q, s, hq, hs, -, hvalue⟩ := receiveNack_cases mtu t queue remote payload
  · rw [hvalue]
    exact h
  · rw [hvalue]
    have hsizes := h _ q hq
    refine h.update _ (ackedSizes_setAcked hsizes ?_)
    rw [ackedWithout, length_combine]
    exact hsizes s (getElem?_find hs).1

/-- **A datagram keeps the assemblers in order and the sets of acknowledged packets of their
size.** -/
theorem receive_keeps (h : ∀ id, Ordered (t.assemblers id)) (hq : AckedSizes queue) :
    (∀ id, Ordered ((receive mtu t queue remote type payload timedOut).value.target.assemblers
      id)) ∧
      AckedSizes (receive mtu t queue remote type payload timedOut).value.sendQueue := by
  have hdata : ∀ type : PacketType, type = .data ∨ type = .dataRetransmission →
      (∀ id, Ordered
        ((receive mtu t queue remote type payload timedOut).value.target.assemblers id)) ∧
        AckedSizes (receive mtu t queue remote type payload timedOut).value.sendQueue := by
    intro type htype
    rw [value_receive_data htype]
    split_ifs
    · exact ⟨h, hq⟩
    · exact ⟨fun id => ordered_receiveData h id, by rw [sendQueue_receiveData]; exact hq⟩
  cases type with
  | data => exact hdata _ (Or.inl rfl)
  | dataRetransmission => exact hdata _ (Or.inr rfl)
  | ack =>
    refine ⟨fun id => ?_, ackedSizes_receiveAck hq⟩
    show Ordered ((receiveAck t queue remote payload).value.target.assemblers id)
    rw [target_receiveAck]
    exact h id
  | nack =>
    refine ⟨fun id => ?_, ackedSizes_receiveNack hq⟩
    show Ordered ((receiveNack mtu t queue remote payload).value.target.assemblers id)
    rw [target_receiveNack]
    exact h id
  | announce | leave => exact ⟨h, hq⟩

end

/-- When `process_packet` stays within its bounds, by the length of the datagram, its fields, and
what the node keeps for its sender before it comes.  What does not start as the protocol asks is
ignored. -/
def InBounds (s : Node) (address : Sock) (payload : Bytes) : Prop :=
  isPacket payload = true →
    match packetType payload, s.peers.udpTarget (udpKey address) with
    | some .announce, none => sizeofAnnouncePacket ≤ payload.length
    | some .data, none => 11 ≤ payload.length
    | some .dataRetransmission, none => 11 ≤ payload.length
    | some .data, some r => DataInBounds (s.data r.id) false payload
    | some .dataRetransmission, some r => DataInBounds (s.data r.id) true payload
    | some .ack, some r => AckInBounds s.sendQueue r.id payload
    | some .nack, some r => NackInBounds s.sendQueue r.id payload
    | _, _ => True

section

variable {s s' : Node} {a : Sock} {mtu : ℕ} {address : Sock} {payload : Bytes} {timedOut : List ℕ}
  {type : PacketType}

theorem wellFormed_reset (a : Sock) (mtu : ℕ) : WellFormed (.reset a mtu) where
  ordered _ _ := List.Pairwise.nil
  acked _ _ hq := absurd hq (by simp [Node.reset])

theorem ordered_update {data : ℕ → TargetData} (h : ∀ i id, Ordered ((data i).assemblers id))
    {t : TargetData} (ht : ∀ id, Ordered (t.assemblers id)) (k i id : ℕ) :
    Ordered ((Function.update data k t i).assemblers id) := by
  by_cases hk : i = k
  · rw [hk, Function.update_self]
    exact ht id
  · rw [Function.update_of_ne hk]
    exact h i id

theorem ordered_new (id : ℕ) : Ordered (TargetData.new.assemblers id) := List.Pairwise.nil

theorem WellFormed.join (h : WellFormed s) (name : String) : WellFormed (s.join name address) := by
  unfold Node.join
  split_ifs
  · exact h
  · exact ⟨fun i id => ordered_update h.ordered ordered_new _ i id, h.acked⟩

theorem WellFormed.announced (h : WellFormed s) :
    WellFormed (s.announced address payload).value := by
  unfold Node.announced
  cases s.peers.udpTarget (udpKey address) with
  | none =>
    rw [Checked.value_bind, Checked.value_pure]
    exact h.join _
  | some remote => exact h

theorem WellFormed.exchanged (h : WellFormed s) :
    WellFormed (s.exchanged type address payload timedOut).value := by
  unfold Node.exchanged
  split
  · next remote _ =>
    rw [Checked.value_bind, Checked.value_pure]
    exact ⟨ordered_update h.ordered (receive_keeps (h.ordered remote.id) h.acked).1 remote.id,
      (receive_keeps (h.ordered remote.id) h.acked).2⟩
  · exact h
  · exact h
  · exact h

theorem WellFormed.processPacket (h : WellFormed s) :
    WellFormed (s.processPacket address payload timedOut).value := by
  unfold Node.processPacket
  split_ifs
  · split
    · exact h.announced
    · unfold Node.left
      split
      · exact h
      · exact ⟨h.ordered, h.acked⟩
    · exact h.exchanged
    · exact h
  · exact h

theorem WellFormed.eraseGone (h : WellFormed s) : WellFormed s.eraseGone where
  ordered := h.ordered
  acked id q hq u hu := by
    obtain ⟨q', hq', hsome⟩ := Option.bind_eq_some_iff.mp hq
    dsimp only at hsome
    split_ifs at hsome with hnil
    obtain rfl := Option.some.inj hsome
    exact h.acked id q' hq' u (List.mem_of_mem_filter hu)

theorem WellFormed.send (h : WellFormed s) {hash : ℕ} {target : String}
    (hs : s.send hash payload target = some s') : WellFormed s' := by
  unfold Node.send at hs
  split_ifs at hs
  rw [Option.map_eq_some_iff] at hs
  obtain ⟨id, -, rfl⟩ := hs
  refine ⟨h.ordered, h.acked.update id fun q hq u hu => ?_⟩
  obtain rfl := Option.some.inj hq
  obtain ⟨t, -, rfl⟩ := List.mem_map.mp hu
  exact List.length_replicate

theorem WellFormed.step (h : WellFormed s) {action : NodeAction}
    (hs : nodeStep s action = some s') : WellFormed s' := by
  cases action with
  | receive address payload timedOut =>
    rw [nodeStep, Option.some.injEq] at hs
    exact hs ▸ h.processPacket
  | process timedOut =>
    rw [nodeStep, Option.some.injEq] at hs
    exact hs ▸ ⟨h.ordered, h.acked⟩
  | retransmit =>
    rw [nodeStep, Option.some.injEq] at hs
    exact hs ▸ h.eraseGone
  | send hash payload target rel =>
    cases rel with
    | true =>
      rw [nodeStep] at hs
      exact h.send hs
    | false =>
      rw [nodeStep, Option.map_eq_some_iff] at hs
      obtain ⟨id, -, rfl⟩ := hs
      exact ⟨h.ordered, h.acked⟩

theorem safe_readName : (Node.readName payload).Safe ↔ sizeofAnnouncePacket ≤ payload.length := by
  unfold Node.readName
  rw [Checked.safe_bind, safe_subSize, Checked.safe_checked]
  refine and_iff_left_of_imp fun hle => ?_
  rw [value_subSize hle]
  have := Nat.mod_le (payload.length - sizeofAnnouncePacket) (2 ^ 64)
  unfold sizeofAnnouncePacket at *
  omega

theorem safe_announced : (s.announced address payload).Safe ↔
    (s.peers.udpTarget (udpKey address) = none → sizeofAnnouncePacket ≤ payload.length) := by
  unfold Node.announced
  cases s.peers.udpTarget (udpKey address) with
  | none =>
    rw [Checked.safe_bind, safe_readName]
    simp only [Checked.safe_pure, and_true, forall_const]
  | some remote => simp

theorem safe_exchanged (h : WellFormed s) : (s.exchanged type address payload timedOut).Safe ↔
    match type, s.peers.udpTarget (udpKey address) with
    | .data, none => 11 ≤ payload.length
    | .dataRetransmission, none => 11 ≤ payload.length
    | .data, some r => DataInBounds (s.data r.id) false payload
    | .dataRetransmission, some r => DataInBounds (s.data r.id) true payload
    | .ack, some r => AckInBounds s.sendQueue r.id payload
    | .nack, some r => NackInBounds s.sendQueue r.id payload
    | _, _ => True := by
  unfold Node.exchanged
  cases s.peers.udpTarget (udpKey address) with
  | none =>
    cases type
    case data | dataRetransmission =>
      rw [Checked.safe_bind, safe_isCorrupt]
      simp only [Checked.safe_pure, and_true]
    all_goals exact Iff.rfl.trans (iff_of_true rfl trivial)
  | some r =>
    rw [Checked.safe_bind]
    simp only [Checked.safe_pure, and_true]
    cases type
    case data => exact safe_receive_data (Or.inl rfl) (h.ordered _ _)
    case dataRetransmission => exact safe_receive_data (Or.inr rfl) (h.ordered _ _)
    case ack => exact safe_receiveAck h.acked
    case nack => exact safe_receiveNack h.acked
    case announce | leave => exact iff_of_true rfl trivial

/-- **`process_packet` stays within its bounds if and only if `InBounds` holds**, for any datagram
and any well-formed state. -/
theorem WellFormed.safe_iff (h : WellFormed s) :
    (s.processPacket address payload timedOut).Safe ↔ InBounds s address payload := by
  unfold Node.processPacket InBounds
  rw [Checked.safe_ite]
  simp only [Checked.safe_pure, implies_true, and_true]
  refine imp_congr_right fun _ => ?_
  cases packetType payload with
  | none => simp
  | some type =>
    cases type with
    | announce =>
      refine safe_announced.trans ?_
      cases s.peers.udpTarget (udpKey address) <;> simp
    | leave => simp
    | data =>
      refine (safe_exchanged h).trans ?_
      cases s.peers.udpTarget (udpKey address) <;> rfl
    | dataRetransmission =>
      refine (safe_exchanged h).trans ?_
      cases s.peers.udpTarget (udpKey address) <;> rfl
    | ack =>
      refine (safe_exchanged h).trans ?_
      cases s.peers.udpTarget (udpKey address) <;> rfl
    | nack =>
      refine (safe_exchanged h).trans ?_
      cases s.peers.udpTarget (udpKey address) <;> rfl

end

/-- **The accesses of `process_packet`.**  In every state that a node reaches, a datagram from any
source is processed within its bounds if and only if `InBounds` holds. -/
theorem safe_iff_of_reaches {a : Sock} {mtu : ℕ} {s : Node}
    (h : Reaches nodeStep Always (.reset a mtu) s) (address : Sock) (payload : Bytes)
    (timedOut : List ℕ) :
    (s.processPacket address payload timedOut).Safe ↔ InBounds s address payload :=
  (h.invariant (wellFormed_reset a mtu) fun _ _ _ hx _ hst => hx.step hst).safe_iff

instance (t : TargetData) (payload : Bytes) : Decidable (FragmentInBounds t payload) :=
  inferInstanceAs (Decidable (_ ∧ _ ∧ _))

instance (t : TargetData) (retransmission : Bool) (payload : Bytes) :
    Decidable (DataInBounds t retransmission payload) :=
  inferInstanceAs (Decidable (11 ≤ payload.length ∧ (packetNo payload ≤ packetCount payload →
    (retransmission = true → t.isRecent (packetId payload) = true → 12 ≤ payload.length) ∧
      (t.suppresses retransmission payload = false →
        if packetCount payload = 1 then
          20 ≤ payload.length ∧
            (reliable payload = true → t.recentPacketsIndex < recentPacketsSize)
        else FragmentInBounds t payload))))

/-- The other node announces itself. -/
def announceRobot : Bytes := magic ++ [PacketType.announce.byte] ++ [114, 111, 98, 111, 116, 0]

/-- A message of three bytes in one packet. -/
def smallMessage : Bytes := dataPacket .data 1 0 1 true 7 [1, 2, 3]

theorem safe_iff_of_reaches_smallMessage :
    ∃ s, exec nodeStep (.reset multicastAddress 1412) [.receive peerAddress announceRobot []] =
        some s ∧ (s.peers.udpTarget (udpKey peerAddress)).isSome = true ∧
      (s.processPacket peerAddress smallMessage []).Safe := by
  have hs : exec nodeStep (.reset multicastAddress 1412)
      [.receive peerAddress announceRobot []] =
        some ((Node.reset multicastAddress 1412).processPacket peerAddress
          announceRobot []).value :=
    rfl
  have hdata : ∀ r ∈ ((Node.reset multicastAddress 1412).processPacket peerAddress announceRobot
      []).value.peers.udpTarget (udpKey peerAddress),
      DataInBounds (((Node.reset multicastAddress 1412).processPacket peerAddress announceRobot
        []).value.data r.id) false smallMessage := by decide +kernel
  refine ⟨_, hs, by decide +kernel, ?_⟩
  rw [safe_iff_of_reaches (reaches_always_of_exec hs)]
  intro _
  have htype : packetType smallMessage = some .data := by decide
  rw [htype]
  cases hr : ((Node.reset multicastAddress 1412).processPacket peerAddress announceRobot
    []).value.peers.udpTarget (udpKey peerAddress) with
  | none => exact (by decide : 11 ≤ smallMessage.length)
  | some r => exact hdata r hr

/-- A header with the type of an announcement, and nothing behind it: it is one byte shorter than an
`AnnouncePacket` without a name. -/
def headerOnly : Bytes := magic ++ [PacketType.announce.byte]

/-- The length of the name is computed as five minus six, which is a very large number without a
sign. -/
theorem not_safe_headerOnly :
    ¬ ∀ (a : Sock) (mtu : ℕ) (s : Node), Reaches nodeStep Always (.reset a mtu) s →
      ∀ (address : Sock) (payload : Bytes) (timedOut : List ℕ),
        (s.processPacket address payload timedOut).Safe := by
  intro h
  have hsafe := h multicastAddress 1412 _ .start peerAddress headerOnly []
  exact absurd hsafe (by decide +kernel)

end Network
end Extension
end NUClear
