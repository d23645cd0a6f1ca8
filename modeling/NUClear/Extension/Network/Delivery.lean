import NUClear.Extension.Network.Repetition

/-!
# Reliable delivery (`NUClearNetwork.cpp`)

A node takes a message for received when all of its packets are acknowledged: an ACK names the
packets that the assembler of the other node holds, and the sender adds them up.

There are three ways in which this goes wrong.

* The other node deletes an assembler that has not got a packet for ten round trip times, and says
  nothing.  So a packet that was acknowledged may be gone when the last one comes, and all are
  acknowledged of a message that was never handed over.
* The other node sends the ACK before it invokes `packet_callback`.  When the ACK is quick, or the
  thread is slow, the target is erased while the message is still to be handed over.
* Packet ids are used again, so an ACK, a packet or a recent id of an earlier message with the same
  id misleads a node, too.

The condition on a step (`keepsAcknowledged`) excludes them by what is there before the step, and
under it a target is erased only after the message was handed over, with its bytes
(`confirmed_of_reaches`).

* `IsPacketOf`: the datagrams of a message.
* `HandsOver`: a message is handed over, or a thread has it and is going to.
* `Backed`: the invariant of one direction.  What is acknowledged, or will be by an ACK that is in
  flight, is in the assembler, or the message is handed over in this sense.
* `Reliable.worked`: what a node does with a packet keeps the invariant; each step of a thread is a
  case of it.
* `Reliable.received_ack`: when all packets are acknowledged the message is handed over, and as no
  thread is going to do it any more, it was.
-/

namespace NUClear
namespace Extension
namespace Network

open Foundation

/-! ## The packets of a message -/

/-- The datagram is a packet of a message: the one with some number, sent for the first time or
again. -/
def IsPacketOf (mtu id hash : ℕ) (message payload : Bytes) : Prop :=
  ∃ type no, (type = .data ∨ type = .dataRetransmission) ∧ no < message.length / mtu + 1 ∧
    payload = dataPacket type id no (message.length / mtu + 1) true hash
      (packetRange mtu (message.length / mtu + 1) message no)

/-- The sizes of a message fit into the fields of its packets, so that these say what is meant. -/
structure Sendable (mtu hash : ℕ) (message : Bytes) : Prop where
  mtu_pos : 0 < mtu
  count_lt : message.length / mtu + 1 < 2 ^ 16
  hash_lt : hash < 2 ^ 64

section

variable {mtu id no count hash : ℕ} {type : PacketType} {rel : Bool} {message payload data : Bytes}

/-- What a packet of a message says, as the receiver reads it off the datagram. -/
structure PacketOf (mtu id hash : ℕ) (message payload : Bytes) : Prop where
  isData : isData payload = true
  id_eq : packetId payload = id
  count_eq : packetCount payload = message.length / mtu + 1
  no_lt : packetNo payload < packetCount payload
  hash_eq : packetHash payload = hash
  reliable_eq : reliable payload = true
  data_eq : packetData payload =
    packetRange mtu (message.length / mtu + 1) message (packetNo payload)

theorem IsPacketOf.says (h : IsPacketOf mtu id hash message payload)
    (hsend : Sendable mtu hash message) (hid : id < 2 ^ 16) :
    PacketOf mtu id hash message payload := by
  obtain ⟨type, no, htype, hno, rfl⟩ := h
  have hno_lt : no < 2 ^ 16 := hno.trans hsend.count_lt
  have hno_eq : packetNo (dataPacket type id no (message.length / mtu + 1) true hash
      (packetRange mtu (message.length / mtu + 1) message no)) = no := packetNo_dataPacket hno_lt
  refine ⟨(isData_iff isPacket_dataPacket packetType_dataPacket).mpr htype, packetId_dataPacket hid,
    packetCount_dataPacket hsend.count_lt, ?_, packetHash_dataPacket hsend.hash_lt,
    reliable_dataPacket, ?_⟩
  · rw [hno_eq, packetCount_dataPacket hsend.count_lt]
    exact hno
  · rw [hno_eq]
    rfl

/-- The response to a packet of a reliable message. -/
theorem PacketOf.value_ifReliable (hp : PacketOf mtu id hash message payload)
    (response : Checked Bytes) : (ifReliable payload response).value = [response.value] := by
  rw [Network.value_ifReliable, if_pos hp.reliable_eq]

/-- The only packet of a message has all of it as its data. -/
theorem PacketOf.data_eq_of_one (hp : PacketOf mtu id hash message payload)
    (hone : packetCount payload = 1) : packetData payload = message := by
  have hcount : message.length / mtu + 1 = 1 := hp.count_eq.symm.trans hone
  have hno : packetNo payload = 0 := by
    have hlt := hp.no_lt
    omega
  have hflat := flatMap_packetRange mtu message
  rw [hcount, List.range_one, List.flatMap_singleton] at hflat
  rw [hp.data_eq, hno, hcount, hflat]

end

/-! ## What a node has -/

namespace Link

/-- Node `c` hands a message over for a send: `packet_callback` was invoked, or a thread has the
message and is going to invoke it. -/
def HandsOver (s : Link) (c : Bool) (n : ℕ) (d : Delivery) : Prop :=
  .delivered n d ∈ s.trace ∨ ∃ h ∈ s.handlers c, h.send = n ∧ h.stage.due = some d

/-- The latest message of node `b` with a packet id is handed over by node `c`. -/
def Handed (s : Link) (b c : Bool) (id : ℕ) : Prop :=
  ∃ hash message, .sent (s.latest b id) b hash message ∈ s.trace ∧
    s.HandsOver c (s.latest b id) ⟨hash, true, message⟩

/-- Node `c` has a packet of node `b`: its message is handed over, or it is in the assembler.  This
is what an ACK of the packet promises. -/
def Has (s : Link) (b c : Bool) (id no : ℕ) : Prop :=
  s.Handed b c id ∨ ∃ p ∈ (s.nodes c).target.assemblers id, p.1 = no

/-- An entry of the send queue is about the latest message with its id, and the other node has what
is acknowledged. -/
structure Queued (s : Link) (b c : Bool) (id : ℕ) (q : PacketQueue) (hash : ℕ)
    (message acked : Bytes) : Prop where
  sent : .sent (s.latest b id) b hash message ∈ s.trace
  sendable : Sendable (s.nodes b).packetDataMtu hash message
  id_lt : id < 2 ^ 16
  eq : q = ⟨[⟨otherNode, acked⟩], message.length / (s.nodes b).packetDataMtu + 1, hash, message⟩
  length_eq : acked.length = q.packetCount / 8 + 1
  has : ∀ no < q.packetCount, bitAt acked no = true → s.Has b c id no

/-- A datagram is a packet of the latest message with its id, and is marked with it. -/
def Flies (s : Link) (b : Bool) (x : ℕ × Bytes) : Prop :=
  x.1 = s.latest b (packetId x.2) ∧ ∃ hash message, .sent x.1 b hash message ∈ s.trace ∧
    PacketOf (s.nodes b).packetDataMtu (packetId x.2) hash message x.2

/-- A thread processes a packet of the latest message with its id, and what it is going to hand over
is that message. -/
structure Processes (s : Link) (b : Bool) (h : Handler) : Prop where
  flies : s.Flies b (h.send, h.payload)
  due : ∀ d ∈ h.stage.due, ∃ hash message, .sent h.send b hash message ∈ s.trace ∧
    d = ⟨hash, true, message⟩

/-- The packets of an assembler are packets of the latest message with its id, in order, and one is
missing or the message is handed over. -/
structure Stored (s : Link) (b c : Bool) (id : ℕ) (l : Fragments) : Prop where
  ordered : Ordered l
  no_eq : ∀ p ∈ l, p.1 = packetNo p.2
  packets : ∀ p ∈ l, ∃ hash message, .sent (s.latest b id) b hash message ∈ s.trace ∧
    PacketOf (s.nodes b).packetDataMtu id hash message p.2
  incomplete : s.Handed b c id ∨ ∀ p ∈ l, l.length < packetCount p.2

/-- **The invariant of one direction**, from node `b` to node `c`. -/
structure Backed (s : Link) (b c : Bool) : Prop where
  flight : ∀ x ∈ s.inFlight c, isData x.2 = true → s.Flies b x
  threads : ∀ h ∈ s.handlers c, s.Processes b h
  stored : ∀ id, s.Stored b c id ((s.nodes c).target.assemblers id)
  queued : ∀ id, ∀ q ∈ (s.nodes b).sendQueue id, ∃ hash message acked,
    s.Queued b c id q hash message acked
  acks : ∀ x ∈ s.inFlight b, packetType x.2 = some .ack →
    ∀ q ∈ (s.nodes b).sendQueue (packetId x.2), validAck q x.2 →
      ∀ no < q.packetCount, acknowledges x.2 no = true → s.Has b c (packetId x.2) no
  not_nack : ∀ x ∈ s.inFlight b, packetType x.2 ≠ some .nack
  recent : ∀ id, (s.nodes c).target.isRecent id = true → s.Handed b c id

/-- The sends are numbered, and what is handed over was sent, with its bytes and its hash. -/
structure Sends (s : Link) : Prop extends Numbered s where
  delivered : ∀ n d, .delivered n d ∈ s.trace →
    ∃ b hash message, .sent n b hash message ∈ s.trace ∧ d = ⟨hash, true, message⟩

/-- **Reliable delivery**: each time a target is erased, as all packets are acknowledged, the
message was handed over before, with its bytes. -/
def Confirmed : List LinkEvent → Prop
  | [] => True
  | .acknowledged n :: l =>
      (∃ b hash message, .sent n b hash message ∈ l ∧ .delivered n ⟨hash, true, message⟩ ∈ l) ∧
        Confirmed l
  | _ :: l => Confirmed l

/-- The invariant of the runs: both directions keep what they have acknowledged, and no target was
erased before its message was handed over. -/
structure Reliable (s : Link) : Prop where
  sends : Sends s
  backed : ∀ b, s.Backed b (!b)
  confirmed : Confirmed s.trace

/-! ## The condition -/

/-- A packet id of node `b` is not in use: no ACK and no packet with it is in flight, and node `c`
has no assembler for it, processes no packet with it and has not received a message with it
recently. -/
structure Unused (s : Link) (b c : Bool) (id : ℕ) : Prop where
  acks : ∀ x ∈ s.inFlight b, packetType x.2 = some .ack → packetId x.2 ≠ id
  packets : ∀ x ∈ s.inFlight c, isData x.2 = true → packetId x.2 ≠ id
  threads : ∀ h ∈ s.handlers c, packetId h.payload ≠ id
  assembler : (s.nodes c).target.assemblers id = []
  recent : (s.nodes c).target.isRecent id = false

/-- No ACK of a packet has come, and none is in flight; so the sender will send it again if it has
to. -/
def NotAcknowledged (s : Link) (b : Bool) (id no : ℕ) : Prop :=
  (∀ q ∈ (s.nodes b).sendQueue id, ∀ t ∈ q.targets, bitAt t.acked no = false) ∧
    ∀ x ∈ s.inFlight b, packetType x.2 = some .ack → packetId x.2 = id →
      acknowledges x.2 no = false

/-- An assembler of node `c` may be deleted: its message is handed over, or no packet in it is
acknowledged. -/
def Deletable (s : Link) (b c : Bool) (id : ℕ) : Prop :=
  s.isHanded c (s.latest b id) ∨
    ∀ p ∈ (s.nodes c).target.assemblers id, s.NotAcknowledged b id p.1

/-- When all packets of a message are acknowledged with an ACK that comes to node `b`, no thread of
the other node has still to invoke the callback for it. -/
def CalledBack (s : Link) (b : Bool) (ack : Bytes) : Prop :=
  ∀ q ∈ (s.nodes b).sendQueue (packetId ack), ∀ t ∈ q.targets[q.find otherNode]?, validAck q ack →
    allAcked q.packetCount (ackedWith ack t.acked) = true →
      ∀ h ∈ s.handlers (!b), h.send = s.latest b (packetId ack) → h.stage.due = none

/-- **The condition** on a step.  A message has sizes that fit, and an id that is not in use; an ACK
does not overtake the callback; and the assemblers that have timed out when a thread looks may be
deleted, and are others than that of its packet. -/
def keepsAcknowledged (s : Link) : LinkAction → Prop
  | .send b hash message => Sendable (s.nodes b).packetDataMtu hash message ∧
      ∀ id ∈ (s.nodes b).nextPacketId, s.Unused b (!b) id
  | .receive b k => ∀ x ∈ (s.inFlight b)[k]?, packetType x.2 = some .ack → s.CalledBack b x.2
  | .proceed c j timedOut => ∀ h ∈ (s.handlers c)[j]?,
      ∀ id ∈ timedOut, id ≠ packetId h.payload ∧ s.Deletable (!c) c id
  | _ => True

variable {s s' : Link} {b c : Bool} {id no n hash : ℕ} {message payload : Bytes} {x : ℕ × Bytes}
  {q : PacketQueue} {l : Fragments} {h' : Handler}

/-! ## What stays -/

/-- From `s` to `s'` more has happened, and what node `c` hands over it still hands over. -/
structure Later (s s' : Link) (b c : Bool) : Prop where
  trace : s.trace ⊆ s'.trace
  mtu_eq : (s'.nodes b).packetDataMtu = (s.nodes b).packetDataMtu
  hands : ∀ n d, s.HandsOver c n d → s'.HandsOver c n d

/-- The threads of a node stay, so what they are going to hand over is still due. -/
theorem Later.of_handlers (htrace : s.trace ⊆ s'.trace)
    (hmtu : (s'.nodes b).packetDataMtu = (s.nodes b).packetDataMtu)
    (hhandlers : s'.handlers c = s.handlers c) : Later s s' b c :=
  ⟨htrace, hmtu, fun _ _ hd => hd.imp (fun hd => htrace hd) fun hd => hhandlers.symm ▸ hd⟩

/-- More has happened, and the latest message with the id is the same. -/
theorem Handed.mono (h : s.Handed b c id) (hlater : Later s s' b c)
    (hlatest : s'.latest b id = s.latest b id) : s'.Handed b c id := by
  obtain ⟨hash, message, hsent, hhands⟩ := h
  exact ⟨hash, message, hlater.trace (hlatest.symm ▸ hsent), hlatest.symm ▸ hlater.hands _ _ hhands⟩

theorem Stored.mono (h : s.Stored b c id l) (hlater : Later s s' b c)
    (hlatest : s'.latest b id = s.latest b id) : s'.Stored b c id l where
  ordered := h.ordered
  no_eq := h.no_eq
  packets p hp := by
    obtain ⟨hash, message, hsent, hp⟩ := h.packets p hp
    exact ⟨hash, message, hlater.trace (hlatest.symm ▸ hsent), hlater.mtu_eq.symm ▸ hp⟩
  incomplete := h.incomplete.imp_left fun hhanded => hhanded.mono hlater hlatest

theorem Flies.mono (h : s.Flies b x) (hlater : Later s s' b c)
    (hlatest : s'.latest b (packetId x.2) = s.latest b (packetId x.2)) : s'.Flies b x := by
  obtain ⟨hmark, hash, message, hsent, hp⟩ := h
  exact ⟨hmark.trans hlatest.symm, hash, message, hlater.trace hsent, hlater.mtu_eq.symm ▸ hp⟩

theorem Processes.mono (h : s.Processes b h') (hlater : Later s s' b c)
    (hlatest : s'.latest b (packetId h'.payload) = s.latest b (packetId h'.payload)) :
    s'.Processes b h' where
  flies := h.flies.mono hlater hlatest
  due d hd := by
    obtain ⟨hash, message, hsent, heq⟩ := h.due d hd
    exact ⟨hash, message, hlater.trace hsent, heq⟩

theorem stored_nil : s.Stored b c id [] where
  ordered := List.Pairwise.nil
  no_eq _ hp := absurd hp List.not_mem_nil
  packets _ hp := absurd hp List.not_mem_nil
  incomplete := .inr fun _ hp => absurd hp List.not_mem_nil

/-- An entry whose packets the other node still has, after something has happened. -/
theorem Queued.mono {acked : Bytes} (h : s.Queued b c id q hash message acked)
    (hlater : Later s s' b c) (hlatest : s'.latest b id = s.latest b id)
    (hhas : ∀ no < q.packetCount, bitAt acked no = true → s.Has b c id no → s'.Has b c id no) :
    s'.Queued b c id q hash message acked where
  sent := hlater.trace (hlatest.symm ▸ h.sent)
  sendable := hlater.mtu_eq.symm ▸ h.sendable
  id_lt := h.id_lt
  eq := hlater.mtu_eq.symm ▸ h.eq
  length_eq := h.length_eq
  has no hno hbit := hhas no hno hbit (h.has no hno hbit)

theorem Has.mono (h : s.Has b c id no) (hlater : Later s s' b c)
    (hlatest : s'.latest b id = s.latest b id)
    (htarget : (s'.nodes c).target = (s.nodes c).target) : s'.Has b c id no :=
  h.imp (fun hhanded => hhanded.mono hlater hlatest) fun hstored => htarget.symm ▸ hstored

/-- The nodes stay, and no packet and no response is new that does not belong in flight. -/
theorem Backed.of_flight (h : s.Backed b c) (hlater : Later s s' b c)
    (hqueue : (s'.nodes b).sendQueue = (s.nodes b).sendQueue)
    (htarget : (s'.nodes c).target = (s.nodes c).target) (hlatest : s'.latest b = s.latest b)
    (hhandlers : ∀ h ∈ s'.handlers c, h ∈ s.handlers c)
    (hflight : ∀ x ∈ s'.inFlight c, isData x.2 = true → s.Flies b x)
    (hacks : ∀ x ∈ s'.inFlight b, packetType x.2 = some .ack ∨ packetType x.2 = some .nack →
      x ∈ s.inFlight b) :
    s'.Backed b c where
  flight x hx hdata := (hflight x hx hdata).mono hlater (congrFun hlatest _)
  threads h' hh := (h.threads h' (hhandlers h' hh)).mono hlater (congrFun hlatest _)
  stored id := htarget.symm ▸ (h.stored id).mono hlater (congrFun hlatest id)
  queued id q hq := by
    obtain ⟨hash, message, acked, hqueued⟩ := h.queued id q (hqueue ▸ hq)
    exact ⟨hash, message, acked, hqueued.mono hlater (congrFun hlatest id) fun no _ _ hhas =>
      hhas.mono hlater (congrFun hlatest id) htarget⟩
  acks x hx hack q hq hvalid no hno hbit :=
    (h.acks x (hacks x hx (.inl hack)) hack q (hqueue ▸ hq) hvalid no hno hbit).mono hlater
      (congrFun hlatest _) htarget
  not_nack x hx hnack := h.not_nack x (hacks x hx (.inr hnack)) hnack
  recent id hrecent := (h.recent id (htarget ▸ hrecent)).mono hlater (congrFun hlatest id)

/-! ## A packet comes -/

/-- The message of a packet is handed over, or a thread is going to hand it over: it is this one. -/
theorem Backed.handed_of_isHanded (hs : Sends s) (h : s.Backed b c)
    (hsent : .sent (s.latest b id) b hash message ∈ s.trace)
    (hd : s.isHanded c (s.latest b id)) : s.Handed b c id := by
  refine ⟨hash, message, hsent, ?_⟩
  rcases hd with hpos | ⟨h', hh, hsend, hsome⟩
  · obtain ⟨e, he, hdelivery⟩ := List.countP_pos_iff.mp hpos
    cases e with
    | delivered m d =>
      obtain rfl : m = s.latest b id := eq_of_beq hdelivery
      obtain ⟨b', hash', message', hsent', rfl⟩ := hs.delivered _ d he
      obtain ⟨rfl, rfl, rfl⟩ := hs.unique _ _ _ _ _ _ _ hsent hsent'
      exact .inl he
    | _ => exact absurd hdelivery Bool.false_ne_true
  · obtain ⟨d, hd⟩ := Option.isSome_iff_exists.mp hsome
    obtain ⟨hash', message', hsent', rfl⟩ := (h.threads h' hh).due d hd
    rw [hsend] at hsent'
    obtain ⟨-, rfl, rfl⟩ := hs.unique _ _ _ _ _ _ _ hsent hsent'
    exact .inr ⟨h', hh, hsend, hd⟩

/-- What the reception of a packet makes of a direction: the responses are on their way, and the
other parts change only as said. -/
theorem Backed.of_reception (responses : List Bytes) {t : TargetData} (hs : Sends s)
    (h : s.Backed b c) (hlater : Later s s' b c)
    (hqueue : (s'.nodes b).sendQueue = (s.nodes b).sendQueue)
    (htarget : (s'.nodes c).target = t) (hlatest : s'.latest b = s.latest b)
    (hthreads : ∀ h ∈ s'.handlers c, h ∈ s.handlers c ∨ s'.Processes b h)
    (hflight : ∀ x ∈ s'.inFlight c, isData x.2 = true → x ∈ s.inFlight c)
    (hresponses : ∀ x ∈ s'.inFlight b, x ∈ s.inFlight b ∨ x.2 ∈ responses)
    -- the assembler of the packet, and the others
    (hown : s'.Stored b c id (t.assemblers id))
    (hkeeps : s'.Handed b c id ∨
      ∀ p ∈ (s.nodes c).target.assemblers id, ∃ p' ∈ t.assemblers id, p'.1 = p.1)
    (hothers : ∀ id', id' ≠ id → t.assemblers id' = (s.nodes c).target.assemblers id' ∨
      t.assemblers id' = [] ∧ s.Deletable b c id')
    (hrecent : ∀ id', t.isRecent id' = true →
      (s.nodes c).target.isRecent id' = true ∨ id' = id ∧ s'.Handed b c id)
    -- the response
    (hack : ∀ a ∈ responses, packetType a = some .ack ∧ packetId a = id ∧
      ∀ q ∈ (s.nodes b).sendQueue id, validAck q a →
        ∀ no < q.packetCount, acknowledges a no = true → s'.Has b c id no) :
    s'.Backed b c := by
  -- what a node has it keeps, but for packets that are not acknowledged
  have hhas (id' no : ℕ) (hhad : s.Has b c id' no) (hacked : ¬ s.NotAcknowledged b id' no) :
      s'.Has b c id' no := by
    rcases hhad with hhanded | ⟨p, hp, rfl⟩
    · exact .inl (hhanded.mono hlater (congrFun hlatest id'))
    · by_cases hid : id' = id
      · subst hid
        exact hkeeps.imp id fun hkeeps => htarget.symm ▸ hkeeps p hp
      · rcases hothers id' hid with hsame | ⟨-, hhanded | hnot⟩
        · exact .inr ⟨p, by rwa [htarget, hsame], rfl⟩
        · obtain ⟨hash, message, hsent, -⟩ := (h.stored id').packets p hp
          exact .inl ((h.handed_of_isHanded hs hsent hhanded).mono hlater (congrFun hlatest id'))
        · exact absurd (hnot p hp) hacked
  refine ⟨fun x hx hdata => ?_, fun h' hh => ?_, fun id' => ?_, fun id' q hq => ?_,
    fun x hx hx_ack q hq hvalid no hno hbit => ?_, fun x hx => ?_, fun id' hid' => ?_⟩
  · exact (h.flight x (hflight x hx hdata) hdata).mono hlater (congrFun hlatest _)
  · rcases hthreads h' hh with hh | hprocesses
    · exact (h.threads h' hh).mono hlater (congrFun hlatest _)
    · exact hprocesses
  · rw [htarget]
    by_cases hid : id' = id
    · exact hid ▸ hown
    · rcases hothers id' hid with hsame | ⟨hnil, -⟩
      · exact hsame ▸ (h.stored id').mono hlater (congrFun hlatest id')
      · exact hnil ▸ stored_nil
  · rw [hqueue] at hq
    obtain ⟨hash, message, acked, hqueued⟩ := h.queued id' q hq
    refine ⟨hash, message, acked, hqueued.mono hlater (congrFun hlatest id')
      fun no _ hbit hhad => ?_⟩
    refine hhas id' no hhad fun hnot => ?_
    have hfalse := hnot.1 q hq ⟨otherNode, acked⟩ (hqueued.eq ▸ List.mem_cons_self)
    exact Bool.noConfusion (hbit.symm.trans hfalse)
  · rw [hqueue] at hq
    rcases hresponses x hx with hx | hx
    · refine hhas _ no (h.acks x hx hx_ack q hq hvalid no hno hbit) fun hnot => ?_
      exact Bool.noConfusion (hbit.symm.trans (hnot.2 x hx hx_ack rfl))
    · obtain ⟨-, hid, hall⟩ := hack x.2 hx
      rw [hid] at hq ⊢
      exact hall q hq hvalid no hno hbit
  · rcases hresponses x hx with hx | hx
    · exact h.not_nack x hx
    · rw [(hack x.2 hx).1]
      simp
  · rw [htarget] at hid'
    rcases hrecent id' hid' with hrecent | ⟨rfl, hhanded⟩
    · exact (h.recent id' hrecent).mono hlater (congrFun hlatest id')
    · exact hhanded

/-! ### What the node does with it -/

section

variable {mtu count : ℕ} {a : Bytes} {t : TargetData} {type : PacketType}

theorem packetType_of_ackFor (h : AckFor id count a) : packetType a = some .ack := by
  obtain ⟨-, -, no, l, -, rfl⟩ := h.exists_setBits
  exact packetType_setBits ..

/-- An ACK for an assembler names the packets in it, and no others. -/
theorem acknowledges_acknowledge (h : no < packetCount payload) :
    acknowledges (acknowledge payload l).value no = decide (no ∈ l.map Prod.fst) := by
  have hlen : ackBits + no / 8 <
      (ackPacket (packetId payload) (packetNo payload) (packetCount payload)).length := by
    rw [length_ackPacket, sizeofACKPacket, ackBits]
    omega
  have hnone : bitAt ((ackPacket (packetId payload) (packetNo payload) (packetCount payload)).drop
      ackBits) no = false := bitAt_replicate (1 + packetCount payload / 8) no
  show bitAt ((setBits ackBits (l.map Prod.fst) (ackPacket (packetId payload) (packetNo payload)
    (packetCount payload))).value.drop ackBits) no = _
  rw [bitAt_setBits hlen, hnone, Bool.false_or]

theorem isRecent_remember (h : (t.remember payload).value.isRecent id = true) :
    t.isRecent id = true ∨ id = packetId payload := by
  rw [value_remember] at h
  split_ifs at h
  · have hmem : (id : ℤ) ∈ t.recentPackets.set t.recentPacketsIndex (packetId payload) :=
      of_decide_eq_true h
    rcases List.mem_or_eq_of_mem_set hmem with hmem | heq
    · exact .inl (decide_eq_true hmem)
    · exact .inr (Int.ofNat_inj.mp heq)
  · exact .inl h

/-- The packets of the message of a packet. -/
theorem packets_eq (hs : Sends s) (hl : s.Stored b c id l)
    (hsent : .sent (s.latest b id) b hash message ∈ s.trace) {p : ℕ × Bytes} (hp : p ∈ l) :
    PacketOf (s.nodes b).packetDataMtu id hash message p.2 := by
  obtain ⟨hash', message', hsent', hof⟩ := hl.packets p hp
  obtain ⟨-, rfl, rfl⟩ := hs.unique _ _ _ _ _ _ _ hsent hsent'
  exact hof

/-- With one more packet of its message an assembler is still in order, and it has the numbers of
packets. -/
structure Filled (mtu id hash : ℕ) (message : Bytes) (l : Fragments) : Prop where
  ordered : Ordered l
  no_eq : ∀ p ∈ l, p.1 = packetNo p.2
  packets : ∀ p ∈ l, PacketOf mtu id hash message p.2

theorem Filled.lt (h : Filled mtu id hash message l) {p : ℕ × Bytes} (hp : p ∈ l) :
    p.1 < message.length / mtu + 1 := by
  have hof := h.packets p hp
  rw [h.no_eq p hp, ← hof.count_eq]
  exact hof.no_lt

theorem Filled.length_le (h : Filled mtu id hash message l) :
    l.length ≤ message.length / mtu + 1 := by
  have hsub : l.map Prod.fst ⊆ List.range (message.length / mtu + 1) := fun no hno => by
    obtain ⟨p, hp, rfl⟩ := List.mem_map.mp hno
    exact List.mem_range.mpr (h.lt hp)
  have hle := (List.subperm_of_subset h.ordered.pairwise_map_fst.nodup hsub).length_le
  rwa [List.length_map, List.length_range] at hle

/-- **A full assembler is the message**: it has every packet once, in order, and the ranges of the
packets follow each other. -/
theorem Filled.messageData_eq (h : Filled mtu id hash message l)
    (hlen : l.length = message.length / mtu + 1) :
    messageData l = message := by
  have hmap := (h.ordered.length_eq_iff fun _ hp => h.lt hp).mp hlen
  have hdata : messageData l =
      (l.map Prod.fst).flatMap (packetRange mtu (message.length / mtu + 1) message) := by
    rw [messageData, List.flatMap_map]
    refine List.flatMap_congr fun p hp => ?_
    rw [(h.packets p hp).data_eq, h.no_eq p hp]
  rw [hdata, hmap]
  exact flatMap_packetRange mtu message

theorem Filled.insertFragment (h : Filled mtu id hash message l)
    (hp : PacketOf mtu id hash message payload) :
    Filled mtu id hash message (insertFragment (packetNo payload) payload l) where
  ordered := h.ordered.insertFragment
  no_eq p hmem := by
    rcases mem_insertFragment.mp hmem with rfl | ⟨hmem, -⟩
    · rfl
    · exact h.no_eq p hmem
  packets p hmem := by
    rcases mem_insertFragment.mp hmem with rfl | ⟨hmem, -⟩
    · exact hp
    · exact h.packets p hmem

/-- Nothing of it is purged. -/
theorem Filled.not_corrupted (h : Filled mtu id hash message l)
    (hp : PacketOf mtu id hash message payload) :
    corrupted (packetCount payload) l = false := by
  unfold corrupted
  cases hlast : l.getLast? with
  | none => rfl
  | some p =>
    have hlt := h.lt (List.mem_of_getLast? hlast)
    exact decide_eq_false (by rw [hp.count_eq]; omega)

/-- A packet of its message is added to an assembler, and nothing of it is purged. -/
theorem Filled.fragments_eq (h : Filled mtu (packetId payload) hash message
    (t.assemblers (packetId payload))) (hp : PacketOf mtu (packetId payload) hash message payload) :
    t.fragments payload =
      Network.insertFragment (packetNo payload) payload (t.assemblers (packetId payload)) := by
  rw [TargetData.fragments, keptFragments, h.not_corrupted hp, if_neg Bool.false_ne_true]

theorem Filled.fragments (h : Filled mtu (packetId payload) hash message
    (t.assemblers (packetId payload))) (hp : PacketOf mtu (packetId payload) hash message payload) :
    Filled mtu (packetId payload) hash message (t.fragments payload) :=
  h.fragments_eq hp ▸ h.insertFragment hp

/-- **What a thread does with a packet** that was not answered from `recent_packets`: it
acknowledges it, and the message is due if it was the only packet, or the last that was missing. -/
theorem proceed_looked (hp : PacketOf mtu (packetId payload) hash message payload)
    (hl : Filled mtu (packetId payload) hash message (t.assemblers (packetId payload)))
    (timedOut : List ℕ) :
    packetCount payload = 1 ∧ t.proceed payload timedOut .looked =
        ⟨t, [(acknowledgeOne payload).value], some (.answered ⟨hash, true, message⟩), none⟩ ∨
      t.proceed payload timedOut .looked =
        ⟨t.setAssembler (packetId payload) (t.fragments payload),
          [(acknowledge payload (t.fragments payload)).value],
          some (.assembled ⟨hash, true, message⟩), none⟩ ∨
      (t.fragments payload).length < packetCount payload ∧ t.proceed payload timedOut .looked =
        ⟨(t.setAssembler (packetId payload) (t.fragments payload)).expire timedOut,
          [(acknowledge payload (t.fragments payload)).value], none, none⟩ := by
  have hpurge : (purge payload (t.assemblers (packetId payload))).value.2 = [] := by
    unfold purge
    rw [Checked.value_bind, value_readCount, Checked.value_ite, hl.not_corrupted hp,
      if_neg Bool.false_ne_true]
    rfl
  have hresponses : t.fragmentResponses payload =
      [(acknowledge payload (t.fragments payload)).value] := by
    rw [TargetData.fragmentResponses, hpurge, hp.value_ifReliable, List.nil_append]
  have hfilled := hl.fragments hp
  by_cases hone : packetCount payload = 1
  · refine .inl ⟨hone, (proceed_single hone).trans ?_⟩
    rw [hp.value_ifReliable, hp.hash_eq, hp.reliable_eq, hp.data_eq_of_one hone]
  · by_cases hlen : (t.fragments payload).length = packetCount payload
    · refine .inr (.inl ((proceed_last hone hlen).trans ?_))
      rw [hresponses, hp.hash_eq, hp.reliable_eq, hfilled.messageData_eq (hlen.trans hp.count_eq)]
    · have hle := hfilled.length_le
      rw [← hp.count_eq] at hle
      refine .inr (.inr ⟨lt_of_le_of_ne hle hlen, (proceed_fragment hone hlen).trans ?_⟩)
      rw [hresponses]

end

/-! ### The step -/

section

variable {t : TargetData} {timedOut : List ℕ} {type : PacketType} {responses : List Bytes}
  {handlers : List Handler} {events : List LinkEvent} {h₀ : Handler} {j : ℕ}

theorem isData_of_ack (h : packetType payload = some .ack) : isData payload = false :=
  isData_of_packetType (.inl h)

/-- Nothing is acknowledged, so what was confirmed stays so. -/
theorem Confirmed.append {trace : List LinkEvent} (h : Confirmed trace)
    (hevents : ∀ n, .acknowledged n ∉ events) : Confirmed (events ++ trace) := by
  induction events with
  | nil => exact h
  | cons e events ih =>
    have hrest := ih fun n hn => hevents n (List.mem_cons_of_mem _ hn)
    cases e with
    | acknowledged n => exact absurd List.mem_cons_self (hevents n)
    | _ => exact hrest

/-- What is handed over was sent. -/
theorem Sends.worked (hs : Sends s) (hsent : .sent n (!c) hash message ∈ s.trace)
    (hsents : ∀ m b hash message, .sent m b hash message ∉ events)
    (hdelivered : ∀ m d, .delivered m d ∈ events → m = n ∧ d = ⟨hash, true, message⟩) :
    Sends (s.worked c n t responses handlers events) where
  toNumbered := hs.toNumbered.of_trace rfl fun m b hash message hmem =>
    sent_mem_worked (fun m hash message => hsents m b hash message) hmem
  delivered m d hmem := by
    rcases List.mem_append.mp hmem with hmem | hmem
    · obtain ⟨rfl, rfl⟩ := hdelivered m d hmem
      exact ⟨!c, hash, message, List.mem_append_right _ hsent, rfl⟩
    · obtain ⟨b, hash', message', hsent', heq⟩ := hs.delivered m d hmem
      exact ⟨b, hash', message', List.mem_append_right _ hsent', heq⟩

/-- The direction of the responses: nothing changes but that there are more ACKs on the way, and
these are for packets of the other direction. -/
theorem Backed.worked_back (h : s.Backed c (!c))
    (hack : ∀ a ∈ responses, packetType a = some .ack) :
    (s.worked c n t responses handlers events).Backed c (!c) := by
  have hne : (!c) ≠ c := Bool.not_ne_self c
  refine h.of_flight (.of_handlers (List.subset_append_right _ _) packetDataMtu_worked
    (handlers_worked_of_ne hne)) sendQueue_worked (by rw [nodes_worked_of_ne hne]) rfl
    (fun h' hh => handlers_worked_of_ne hne ▸ hh) (fun x hx hdata => ?_) fun x hx _ => ?_
  · rcases mem_launch hx with hx | ⟨-, -, hx⟩
    · exact h.flight x hx hdata
    · exact Bool.noConfusion ((isData_of_ack (hack x.2 hx)).symm.trans hdata)
  · exact (mem_launch hx).resolve_right fun hc => hne hc.1.symm

/-- The message of the packet is handed over. -/
theorem handed_worked (hn : n = s.latest (!c) id) (hsent : .sent n (!c) hash message ∈ s.trace)
    (hhands : .delivered n ⟨hash, true, message⟩ ∈ events ∨
      ∃ h ∈ handlers, h.send = n ∧ h.stage.due = some ⟨hash, true, message⟩) :
    (s.worked c n t responses handlers events).Handed (!c) c id := by
  subst hn
  refine ⟨hash, message, List.mem_append_right _ hsent, hhands.imp
    (fun hmem => List.mem_append_left _ hmem) fun hmem => ?_⟩
  rwa [handlers_worked_self]

/-- What a node was going to hand over it hands over. -/
theorem later_worked (hdue : ∀ h ∈ s.handlers c, ∀ d ∈ h.stage.due, .delivered h.send d ∈ events ∨
      ∃ h' ∈ handlers, h'.send = h.send ∧ h'.stage.due = some d) :
    Later s (s.worked c n t responses handlers events) b c where
  trace := List.subset_append_right _ _
  mtu_eq := packetDataMtu_worked
  hands m d hd := by
    rcases hd with hd | ⟨h, hh, rfl, hd⟩
    · exact .inl (List.mem_append_right _ hd)
    · refine (hdue h hh d hd).imp (fun hmem => List.mem_append_left _ hmem) fun hmem => ?_
      rwa [handlers_worked_self]

/-- **A node does something with a packet**: this keeps the invariant, when its assembler, the
recent packets and the responses are as the packet makes them, and what else is deleted may be. -/
theorem Reliable.worked (h : Reliable s) (hn : n = s.latest (!c) (packetId payload))
    (hsent : .sent n (!c) hash message ∈ s.trace)
    -- what has happened
    (hsents : ∀ m b hash message, .sent m b hash message ∉ events)
    (hacknowledged : ∀ m, .acknowledged m ∉ events)
    (hdelivered : ∀ m d, .delivered m d ∈ events → m = n ∧ d = ⟨hash, true, message⟩)
    -- the threads
    (hthreads : ∀ h ∈ handlers, h ∈ s.handlers c ∨ s.Processes (!c) h)
    (hlater : Later s (s.worked c n t responses handlers events) (!c) c)
    -- the assembler of the packet, and the others
    (hown : (s.worked c n t responses handlers events).Stored (!c) c (packetId payload)
      (t.assemblers (packetId payload)))
    (hkeeps : (s.worked c n t responses handlers events).Handed (!c) c (packetId payload) ∨
      ∀ p ∈ (s.nodes c).target.assemblers (packetId payload),
        ∃ p' ∈ t.assemblers (packetId payload), p'.1 = p.1)
    (hothers : ∀ id ≠ packetId payload, t.assemblers id = (s.nodes c).target.assemblers id ∨
      t.assemblers id = [] ∧ s.Deletable (!c) c id)
    (hrecent : ∀ id, t.isRecent id = true → (s.nodes c).target.isRecent id = true ∨
      id = packetId payload ∧
        (s.worked c n t responses handlers events).Handed (!c) c (packetId payload))
    -- the response
    (hfor : ∀ a ∈ responses, AckFor (packetId payload) (packetCount payload) a)
    (hack : ∀ a ∈ responses,
      (s.worked c n t responses handlers events).Handed (!c) c (packetId payload) ∨
        ∀ no < packetCount payload, acknowledges a no = true →
          ∃ p ∈ t.assemblers (packetId payload), p.1 = no) :
    Reliable (s.worked c n t responses handlers events) := by
  have hforward : (s.worked c n t responses handlers events).Backed (!c) c := by
    have hbacked : s.Backed (!c) c := by simpa using h.backed (!c)
    have htarget : ((s.worked c n t responses handlers events).nodes c).target = t := by
      rw [nodes_worked_self]
    refine hbacked.of_reception responses h.sends hlater sendQueue_worked htarget rfl
      (fun h' hh => ?_) (fun x hx _ => ?_) (fun x hx => ?_) hown hkeeps hothers hrecent
      fun a ha => ?_
    · rw [handlers_worked_self] at hh
      exact (hthreads h' hh).imp_right fun hprocesses => hprocesses.mono hlater rfl
    · exact (mem_launch hx).resolve_right fun hc => Bool.not_ne_self c hc.1.symm
    · exact (mem_launch hx).imp_right fun hx => hx.2.2
    · refine ⟨packetType_of_ackFor (hfor a ha), (hfor a ha).packetId_eq,
        fun q _ hvalid no hno hbit => ?_⟩
      refine (hack a ha).imp_right fun hstored => htarget.symm ▸ hstored no ?_ hbit
      rwa [← hvalid.1, (hfor a ha).packetCount_eq] at hno
  refine ⟨h.sends.worked hsent hsents hdelivered, fun b => ?_, h.confirmed.append hacknowledged⟩
  rcases Bool.eq_or_eq_not b c with rfl | rfl
  · exact (h.backed b).worked_back fun a ha => packetType_of_ackFor (hfor a ha)
  · simpa using hforward

theorem Stored.filled (hs : Sends s) (h : s.Stored b c id l)
    (hsent : .sent (s.latest b id) b hash message ∈ s.trace) :
    Filled (s.nodes b).packetDataMtu id hash message l :=
  ⟨h.ordered, h.no_eq, fun _ hp => packets_eq hs h hsent hp⟩

theorem Filled.stored (h : Filled (s.nodes b).packetDataMtu id hash message l)
    (hsent : .sent (s.latest b id) b hash message ∈ s.trace)
    (hlt : s.Handed b c id ∨ l.length < message.length / (s.nodes b).packetDataMtu + 1) :
    s.Stored b c id l where
  ordered := h.ordered
  no_eq := h.no_eq
  packets p hp := ⟨hash, message, hsent, h.packets p hp⟩
  incomplete := hlt.imp_right fun hlt p hp => (h.packets p hp).count_eq ▸ hlt

/-- **A packet is received**: it is dropped, answered from `recent_packets`, or a thread goes on
with it. -/
theorem Reliable.lookUp (h : Reliable s) {retransmission : Bool} (hx : (n, payload) ∈ s.inFlight c)
    (hdata : isData payload = true) : Reliable (s.lookUp c retransmission n payload) := by
  have hbacked : s.Backed (!c) c := by simpa using h.backed (!c)
  have hflies := hbacked.flight _ hx hdata
  obtain ⟨hmark, hash, message, hsent, hp⟩ := hflies
  have hn : n = s.latest (!c) (packetId payload) := hmark
  have hsame (d : Delivery) (h' : Handler) {l : List Handler} (hh : h' ∈ s.handlers c)
      (hsub : s.handlers c ⊆ l) (hd : d ∈ h'.stage.due) :
      .delivered h'.send d ∈ ([] : List LinkEvent) ∨
        ∃ h'' ∈ l, h''.send = h'.send ∧ h''.stage.due = some d :=
    .inr ⟨h', hsub hh, rfl, hd⟩
  unfold Link.lookUp
  split_ifs with hno hsup
  · exact h
  · -- answered from `recent_packets`
    rw [TargetData.suppresses, Bool.and_eq_true, Bool.and_eq_true] at hsup
    have hlater : Later s (s.worked c n (s.nodes c).target [(acknowledgeAll payload).value]
        (s.handlers c) []) (!c) c :=
      later_worked fun h' hh d hd => hsame d h' hh (List.Subset.refl _) hd
    exact h.worked hn hsent (fun _ _ _ _ => List.not_mem_nil) (fun _ => List.not_mem_nil)
      (fun _ _ hmem => absurd hmem List.not_mem_nil) (fun _ hh => .inl hh) hlater
      ((hbacked.stored _).mono hlater rfl) (.inr fun p hp => ⟨p, hp, rfl⟩) (fun _ _ => .inl rfl)
      (fun _ hid => .inl hid) (fun a ha => List.mem_singleton.mp ha ▸ .all rfl rfl)
      fun a _ => .inl ((hbacked.recent _ hsup.1.2).mono hlater rfl)
  · -- a thread goes on with it
    have hlater : Later s (s.worked c n (s.nodes c).target []
        (s.handlers c ++ [⟨n, payload, .looked⟩]) []) (!c) c :=
      later_worked fun h' hh d hd => hsame d h' hh (List.subset_append_left _ _) hd
    refine h.worked hn hsent (fun _ _ _ _ => List.not_mem_nil) (fun _ => List.not_mem_nil)
      (fun _ _ hmem => absurd hmem List.not_mem_nil) (fun h' hh => ?_) hlater
      ((hbacked.stored _).mono hlater rfl) (.inr fun p hp => ⟨p, hp, rfl⟩) (fun _ _ => .inl rfl)
      (fun _ hid => .inl hid) (fun a ha => absurd ha List.not_mem_nil)
      fun a ha => absurd ha List.not_mem_nil
    refine (List.mem_append.mp hh).imp_right fun hh => ?_
    obtain rfl := List.mem_singleton.mp hh
    exact ⟨⟨hmark, hash, message, hsent, hp⟩,
      fun d hd => absurd hd (Option.not_mem_none d)⟩

/-- The assemblers after those that have timed out are deleted. -/
theorem expire_or {id : ℕ} (hok : ∀ id ∈ timedOut, id ≠ packetId payload ∧ s.Deletable (!c) c id)
    (hsame : t.assemblers id = (s.nodes c).target.assemblers id) :
    (t.expire timedOut).assemblers id = (s.nodes c).target.assemblers id ∨
      (t.expire timedOut).assemblers id = [] ∧ s.Deletable (!c) c id := by
  by_cases hout : id ∈ timedOut
  · exact .inr ⟨if_pos hout, (hok id hout).2⟩
  · exact .inl ((if_neg hout).trans hsame)

/-- What a node was going to hand over it hands over after a step of a thread, or it is still going
to. -/
theorem later_proceeded (hj : (s.handlers c)[j]? = some h₀) :
    Later s (s.proceeded c j h₀ timedOut) b c := by
  refine later_worked fun h' hh d hd => ?_
  by_cases heq : h' = h₀
  · subst heq
    refine (due_proceed (t := (s.nodes c).target) hd).imp
      (fun hd => delivered_mem_events.mpr ⟨rfl, hd⟩) ?_
    rintro ⟨stage, hstage, hd⟩
    exact ⟨{ h' with stage := stage }, hstage ▸ mem_settle_self hj, rfl, hd⟩
  · exact .inr ⟨h', mem_settle_of_ne hj hh heq, rfl, hd⟩

/-- The message is handed over when the thread has it. -/
theorem handed_proceeded {p : Progress} (hj : (s.handlers c)[j]? = some h₀)
    (hn : h₀.send = s.latest (!c) id) (hsent : .sent h₀.send (!c) hash message ∈ s.trace)
    (hp : (s.nodes c).target.proceed h₀.payload timedOut h₀.stage = p)
    (hd : p.delivered = some ⟨hash, true, message⟩ ∨
      ∃ stage ∈ p.stage, stage.due = some ⟨hash, true, message⟩) :
    (s.proceeded c j h₀ timedOut).Handed (!c) c id := by
  subst hp
  refine handed_worked hn hsent (hd.imp (fun hd => delivered_mem_events.mpr ⟨rfl, hd⟩) ?_)
  rintro ⟨stage, hstage, hd⟩
  exact ⟨{ h₀ with stage := stage }, hstage ▸ mem_settle_self hj, rfl, hd⟩

/-- What a step of a thread makes of the invariant. -/
theorem Reliable.proceeded_of_eq (h : Reliable s) {p : Progress}
    (hj : (s.handlers c)[j]? = some h₀)
    (hp : (s.nodes c).target.proceed h₀.payload timedOut h₀.stage = p)
    (hsent : .sent h₀.send (!c) hash message ∈ s.trace)
    (hprocesses : s.Processes (!c) h₀)
    (hdue : ∀ d ∈ h₀.stage.due, d = ⟨hash, true, message⟩)
    (hnext : ∀ stage ∈ p.stage, ∀ d ∈ stage.due, d = ⟨hash, true, message⟩)
    -- the assembler of the packet, and the others
    (hown : (s.proceeded c j h₀ timedOut).Stored (!c) c (packetId h₀.payload)
      (p.target.assemblers (packetId h₀.payload)))
    (hkeeps : (s.proceeded c j h₀ timedOut).Handed (!c) c (packetId h₀.payload) ∨
      ∀ x ∈ (s.nodes c).target.assemblers (packetId h₀.payload),
        ∃ x' ∈ p.target.assemblers (packetId h₀.payload), x'.1 = x.1)
    (hothers : ∀ id ≠ packetId h₀.payload,
      p.target.assemblers id = (s.nodes c).target.assemblers id ∨
        p.target.assemblers id = [] ∧ s.Deletable (!c) c id)
    (hrecent : ∀ id, p.target.isRecent id = true → (s.nodes c).target.isRecent id = true ∨
      id = packetId h₀.payload ∧
        (s.proceeded c j h₀ timedOut).Handed (!c) c (packetId h₀.payload))
    -- the response
    (hack : ∀ a ∈ p.responses, AckFor (packetId h₀.payload) (packetCount h₀.payload) a ∧
      ((s.proceeded c j h₀ timedOut).Handed (!c) c (packetId h₀.payload) ∨
        ∀ no < packetCount h₀.payload, acknowledges a no = true →
          ∃ x ∈ p.target.assemblers (packetId h₀.payload), x.1 = no)) :
    Reliable (s.proceeded c j h₀ timedOut) := by
  subst hp
  refine h.worked hprocesses.flies.1 hsent (fun _ _ _ _ => not_sent_mem_events)
    (fun _ => not_acknowledged_mem_events) (fun m d hmem => ?_) (fun h' hh => ?_)
    (later_proceeded hj) hown hkeeps hothers hrecent (fun a ha => (hack a ha).1)
    fun a ha => (hack a ha).2
  · obtain ⟨hm, hd⟩ := (delivered_mem_events (t := (s.nodes c).target)).mp hmem
    exact ⟨hm, hdue d (due_of_delivered hd)⟩
  · refine (mem_settle hh).imp_right ?_
    rintro ⟨stage, hstage, rfl⟩
    exact ⟨hprocesses.flies, fun d hd => ⟨hash, message, hsent, hnext stage hstage d hd⟩⟩

/-- **A thread takes a step.**  It puts its packet into the assembler and acknowledges it, or hands
its message over; what has timed out may be deleted. -/
theorem Reliable.proceeded (h : Reliable s) (hj : (s.handlers c)[j]? = some h₀)
    (hok : ∀ id ∈ timedOut, id ≠ packetId h₀.payload ∧ s.Deletable (!c) c id) :
    Reliable (s.proceeded c j h₀ timedOut) := by
  have hbacked : s.Backed (!c) c := by simpa using h.backed (!c)
  have hprocesses := hbacked.threads h₀ (List.mem_of_getElem? hj)
  obtain ⟨hn, hash, message, hsent, hp⟩ := hprocesses.flies
  have hdue (d : Delivery) (hd : d ∈ h₀.stage.due) : d = ⟨hash, true, message⟩ := by
    obtain ⟨hash', message', hsent', rfl⟩ := hprocesses.due d hd
    obtain ⟨-, rfl, rfl⟩ := h.sends.unique _ _ _ _ _ _ _ hsent hsent'
    rfl
  have hlater : Later s (s.proceeded c j h₀ timedOut) (!c) c := later_proceeded hj
  have hstored := hbacked.stored (packetId h₀.payload)
  have hfilled := hstored.filled h.sends (hn ▸ hsent)
  have hfragments := hfilled.fragments hp
  have hmine {t : TargetData} :
      (t.expire timedOut).assemblers (packetId h₀.payload) = t.assemblers (packetId h₀.payload) :=
    if_neg fun hout => (hok _ hout).1 rfl
  have hset {t : TargetData} {id : ℕ} {l : Fragments} (hid : id ≠ packetId h₀.payload) :
      (t.setAssembler (packetId h₀.payload) l).assemblers id = t.assemblers id := by
    rw [TargetData.setAssembler_assemblers, Function.update_of_ne hid]
  have hself {t : TargetData} {l : Fragments} :
      (t.setAssembler (packetId h₀.payload) l).assemblers (packetId h₀.payload) = l := by
    rw [TargetData.setAssembler_assemblers, Function.update_self]
  -- a packet that goes into its assembler takes the place of another with its number
  have hinserted (x : ℕ × Bytes) (hx : x ∈ (s.nodes c).target.assemblers (packetId h₀.payload)) :
      ∃ x' ∈ (s.nodes c).target.fragments h₀.payload, x'.1 = x.1 := by
    rw [hfilled.fragments_eq hp]
    by_cases hno : x.1 = packetNo h₀.payload
    · exact ⟨_, mem_insertFragment.mpr (.inl rfl), hno.symm⟩
    · exact ⟨x, mem_insertFragment.mpr (.inr ⟨hx, hno⟩), rfl⟩
  have hfor : AckFor (packetId h₀.payload) (packetCount h₀.payload)
      (acknowledge h₀.payload ((s.nodes c).target.fragments h₀.payload)).value :=
    .stored rfl rfl fun x hx => hp.count_eq ▸ hfragments.lt hx
  have hmonoFilled {s' : Link} (hmtu : (s'.nodes (!c)).packetDataMtu =
    (s.nodes (!c)).packetDataMtu) :
      Filled (s'.nodes (!c)).packetDataMtu (packetId h₀.payload) hash message
        ((s.nodes c).target.fragments h₀.payload) :=
    hmtu.symm ▸ hfragments
  have hsent' : .sent ((s.proceeded c j h₀ timedOut).latest (!c) (packetId h₀.payload)) (!c) hash
      message ∈ (s.proceeded c j h₀ timedOut).trace :=
    hlater.trace (show .sent (s.latest (!c) (packetId h₀.payload)) (!c) hash message ∈ s.trace from
      hn ▸ hsent)
  cases hstage : h₀.stage with
  | looked =>
    obtain ⟨hone, hproceed⟩ | hproceed | ⟨hlt, hproceed⟩ := proceed_looked hp hfilled timedOut
    · -- the only packet
      have hproceed' := hstage ▸ hproceed
      have hhanded : (s.proceeded c j h₀ timedOut).Handed (!c) c (packetId h₀.payload) :=
        handed_proceeded hj hn hsent hproceed' (.inr ⟨_, rfl, rfl⟩)
      refine h.proceeded_of_eq hj hproceed' hsent hprocesses hdue (fun stage hst d hd => ?_)
        (hstored.mono hlater rfl) (.inl hhanded) (fun _ _ => .inl rfl) (fun _ hid => .inl hid)
        fun a ha => ⟨List.mem_singleton.mp ha ▸ .one rfl rfl hone, .inl hhanded⟩
      obtain rfl := Option.some.inj hst
      exact (Option.some.inj hd).symm
    · -- the last packet
      have hproceed' := hstage ▸ hproceed
      have hhanded : (s.proceeded c j h₀ timedOut).Handed (!c) c (packetId h₀.payload) :=
        handed_proceeded hj hn hsent hproceed' (.inr ⟨_, rfl, rfl⟩)
      refine h.proceeded_of_eq hj hproceed' hsent hprocesses hdue (fun stage hst d hd => ?_)
        ?_ (.inl hhanded) (fun id hid => .inl (hset hid)) (fun _ hid => .inl hid)
        fun a ha => ⟨List.mem_singleton.mp ha ▸ hfor, .inl hhanded⟩
      · obtain rfl := Option.some.inj hst
        exact (Option.some.inj hd).symm
      · rw [hself]
        exact (hmonoFilled hlater.mtu_eq).stored hsent' (.inl hhanded)
    · -- one of several
      have hproceed' := hstage ▸ hproceed
      refine h.proceeded_of_eq hj hproceed' hsent hprocesses hdue (fun stage hst => nomatch hst) ?_
        (.inr fun x hx => ?_) (fun id hid => expire_or hok (hset hid)) (fun _ hid => .inl hid)
        fun a ha => ⟨List.mem_singleton.mp ha ▸ hfor, .inr fun no hno hbit => ?_⟩
      · rw [hmine, hself]
        refine (hmonoFilled hlater.mtu_eq).stored hsent' (.inr ?_)
        rw [hlater.mtu_eq, ← hp.count_eq]
        exact hlt
      · rw [hmine, hself]
        exact hinserted x hx
      · rw [List.mem_singleton.mp ha, acknowledges_acknowledge hno, decide_eq_true_eq] at hbit
        obtain ⟨x, hx, heq⟩ := List.mem_map.mp hbit
        exact ⟨x, by rwa [hmine, hself], heq⟩
  | answered d =>
    -- the id goes into `recent_packets`
    obtain rfl := hdue d (by rw [hstage]; rfl)
    have hproceed : (s.nodes c).target.proceed h₀.payload timedOut h₀.stage = _ :=
      congrArg _ hstage
    have hhanded : (s.proceeded c j h₀ timedOut).Handed (!c) c (packetId h₀.payload) :=
      handed_proceeded hj hn hsent hproceed (.inr ⟨_, rfl, rfl⟩)
    refine h.proceeded_of_eq hj hproceed hsent hprocesses hdue (fun stage hst d hd => ?_) ?_
      (.inl hhanded) (fun id _ => .inl ?_)
      (fun id hid => (isRecent_remember hid).imp_right fun heq => ⟨heq, hhanded⟩)
      fun a ha => absurd ha List.not_mem_nil
    · obtain rfl := Option.some.inj hst
      exact (Option.some.inj hd).symm
    · show Stored _ _ _ _ ((((s.nodes c).target.remember h₀.payload).value).assemblers _)
      rw [assemblers_remember]
      exact hstored.mono hlater rfl
    · exact congrFun assemblers_remember id
  | remembered d =>
    -- the callback for the only packet
    obtain rfl := hdue d (by rw [hstage]; rfl)
    have hproceed : (s.nodes c).target.proceed h₀.payload timedOut h₀.stage = _ :=
      congrArg _ hstage
    have hhanded : (s.proceeded c j h₀ timedOut).Handed (!c) c (packetId h₀.payload) :=
      handed_proceeded hj hn hsent hproceed (.inl rfl)
    exact h.proceeded_of_eq hj hproceed hsent hprocesses hdue (fun stage hst => nomatch hst)
      (hstored.mono hlater rfl) (.inl hhanded) (fun id _ => .inl rfl) (fun id hid => .inl hid)
      fun a ha => absurd ha List.not_mem_nil
  | assembled d =>
    -- the callback for the last packet
    obtain rfl := hdue d (by rw [hstage]; rfl)
    have hproceed : (s.nodes c).target.proceed h₀.payload timedOut h₀.stage = _ :=
      congrArg _ hstage
    have hhanded : (s.proceeded c j h₀ timedOut).Handed (!c) c (packetId h₀.payload) :=
      handed_proceeded hj hn hsent hproceed (.inl rfl)
    refine h.proceeded_of_eq hj hproceed hsent hprocesses hdue (fun stage hst => nomatch hst) ?_
      (.inl hhanded) (fun id hid => expire_or hok ?_)
      (fun id hid => (isRecent_remember hid).imp_right fun heq => ⟨heq, hhanded⟩)
      fun a ha => absurd ha List.not_mem_nil
    · show Stored _ _ _ _ ((((((s.nodes c).target.remember h₀.payload).value).setAssembler
        (packetId h₀.payload) []).expire timedOut).assemblers (packetId h₀.payload))
      rw [hmine, hself]
      exact stored_nil
    · rw [hset hid, assemblers_remember]

end

/-! ### An ACK comes -/

/-- **A message is handed over when the other node has all its packets**: an assembler with all of
them would be complete, and is not kept. -/
theorem Backed.handed_of_has {acked : Bytes} (hs : Sends s) (h : s.Backed b c)
    (hq : s.Queued b c id q hash message acked) (hall : ∀ no < q.packetCount, s.Has b c id no) :
    s.Handed b c id := by
  by_contra hnot
  have hstored := h.stored id
  have hfilled := hstored.filled hs hq.sent
  have hcount : q.packetCount = message.length / (s.nodes b).packetDataMtu + 1 :=
    congrArg PacketQueue.packetCount hq.eq
  have hhas (no : ℕ) (hno : no < message.length / (s.nodes b).packetDataMtu + 1) :
      ∃ p ∈ (s.nodes c).target.assemblers id, p.1 = no :=
    (hall no (hcount ▸ hno)).resolve_left hnot
  -- all packets are in the assembler, which lacks one
  obtain ⟨p, hp, -⟩ := hhas 0 (Nat.succ_pos _)
  have hlt := hstored.incomplete.resolve_left hnot p hp
  rw [(hfilled.packets p hp).count_eq] at hlt
  have hmap := (hfilled.ordered.forall_exists_iff fun _ hp => hfilled.lt hp).mp hhas
  exact hlt.ne ((hfilled.ordered.length_eq_iff fun _ hp => hfilled.lt hp).mpr hmap)

/-- **It was handed over** when no thread is going to do it: that is what is left of the two cases.
-/
theorem Handed.delivered (h : s.Handed b c id)
    (hnone : ∀ h' ∈ s.handlers c, h'.send = s.latest b id → h'.stage.due = none) :
    ∃ hash message, .sent (s.latest b id) b hash message ∈ s.trace ∧
      .delivered (s.latest b id) ⟨hash, true, message⟩ ∈ s.trace := by
  obtain ⟨hash, message, hsent, hhands⟩ := h
  refine ⟨hash, message, hsent, hhands.resolve_right ?_⟩
  rintro ⟨h', hh, hsend, hd⟩
  exact nomatch (hnone h' hh hsend).symm.trans hd

/-- Only the send queue changes, and it has no entry that is new; so nothing more is promised. -/
theorem Backed.of_queue (h : s.Backed b c) (hlater : Later s s' b c)
    (htarget : (s'.nodes c).target = (s.nodes c).target) (hlatest : s'.latest b = s.latest b)
    (hhandlers : ∀ h ∈ s'.handlers c, h ∈ s.handlers c)
    (hflight : ∀ x ∈ s'.inFlight c, x ∈ s.inFlight c)
    (hacks : ∀ x ∈ s'.inFlight b, x ∈ s.inFlight b)
    (hqueue : ∀ id, ∀ q' ∈ (s'.nodes b).sendQueue id, ∃ q ∈ (s.nodes b).sendQueue id,
      q.packetCount = q'.packetCount ∧
        ∃ hash message acked, s.Queued b c id q' hash message acked) :
    s'.Backed b c where
  flight x hx hdata := (h.flight x (hflight x hx) hdata).mono hlater (congrFun hlatest _)
  threads h' hh := (h.threads h' (hhandlers h' hh)).mono hlater (congrFun hlatest _)
  stored id := htarget.symm ▸ (h.stored id).mono hlater (congrFun hlatest id)
  queued id q' hq' := by
    obtain ⟨-, -, -, hash, message, acked, hqueued⟩ := hqueue id q' hq'
    exact ⟨hash, message, acked, hqueued.mono hlater (congrFun hlatest id) fun no _ _ hhas =>
      hhas.mono hlater (congrFun hlatest id) htarget⟩
  acks x hx hack q' hq' hvalid no hno hbit := by
    obtain ⟨q, hq, hcount, -⟩ := hqueue _ q' hq'
    have hvalid' : validAck q x.2 := ⟨hvalid.1.trans hcount.symm, by rw [hvalid.2, hcount]⟩
    exact (h.acks x (hacks x hx) hack q hq hvalid' no (hcount ▸ hno) hbit).mono hlater
      (congrFun hlatest _) htarget
  not_nack x hx := h.not_nack x (hacks x hx)
  recent id hrecent := (h.recent id (htarget ▸ hrecent)).mono hlater (congrFun hlatest id)

theorem find_otherNode {acked : Bytes} (h : s.Queued b c id q hash message acked) :
    q.find otherNode = 0 := by
  rw [h.eq]
  rfl

/-- What is acknowledged with an ACK the other node has, since the ACK was sent for packets that it
had. -/
theorem Queued.ackedWith {acked : Bytes} (h : s.Backed b c)
    (hq : s.Queued b c (packetId payload) q hash message acked)
    (hmem : q ∈ (s.nodes b).sendQueue (packetId payload)) (hx : (n, payload) ∈ s.inFlight b)
    (hack : packetType payload = some .ack) (hvalid : validAck q payload) :
    s.Queued b c (packetId payload)
      { q with targets := [⟨otherNode, Network.ackedWith payload acked⟩] } hash message
      (Network.ackedWith payload acked) where
  sent := hq.sent
  sendable := hq.sendable
  id_lt := hq.id_lt
  eq := by rw [hq.eq]
  length_eq := length_ackedWith.trans hq.length_eq
  has no hno hbit := by
    have hno : no < q.packetCount := hno
    have hlen : no / 8 < acked.length := by
      rw [hq.length_eq]
      omega
    rw [bitAt_ackedWith hlen, Bool.or_eq_true] at hbit
    exact hbit.elim (hq.has no hno) (h.acks _ hx hack q hmem hvalid no hno)

/-- A datagram that is ignored leaves the link as it is. -/
theorem responded_ignored :
    s.responded b payload (.ignored (s.nodes b).target (s.nodes b).sendQueue) = s := by
  have hnodes : Function.update s.nodes b
      { s.nodes b with sendQueue := (s.nodes b).sendQueue } = s.nodes :=
    Function.update_eq_self b s.nodes
  have hflight (m : ℕ) : s.launch (!b) m [] = s.inFlight := by
    rw [launch, List.map_nil, List.append_nil, Function.update_eq_self]
  rw [responded]
  show (⟨Function.update s.nodes b { s.nodes b with sendQueue := (s.nodes b).sendQueue },
    s.handlers, s.launch (!b) (s.latest b (packetId payload)) [], s.nextSend, s.latest,
    s.trace⟩ : Link) = s
  rw [hnodes, hflight]

section

variable {r : Reception}

theorem later_responded {d : Bool} : Later s (s.responded b payload r) d c :=
  .of_handlers (List.subset_append_right _ _) packetDataMtu_responded rfl

/-- The direction from node `b`, when an ACK has come to it: its entry has more packets
acknowledged, or is erased. -/
theorem Backed.responded (h : s.Backed b (!b)) (hresponses : r.responses = [])
    (hqueue : ∀ id, ∀ q' ∈ r.sendQueue id, ∃ q ∈ (s.nodes b).sendQueue id,
      q.packetCount = q'.packetCount ∧
        ∃ hash message acked, s.Queued b (!b) id q' hash message acked) :
    (s.responded b payload r).Backed b (!b) := by
  have hflight (d : Bool) (x : ℕ × Bytes) (hx : x ∈ (s.responded b payload r).inFlight d) :
      x ∈ s.inFlight d := by
    refine (mem_launch hx).resolve_right fun hx => ?_
    rw [hresponses] at hx
    exact absurd hx.2.2 List.not_mem_nil
  refine h.of_queue later_responded target_responded rfl (fun _ hh => hh)
    (fun x hx => hflight _ x hx) (fun x hx => hflight _ x hx) ?_
  rw [nodes_responded_self]
  exact hqueue

/-- The direction to node `b`, when an ACK has come to it, which is nothing to that direction. -/
theorem Backed.responded_back (h : s.Backed (!b) b) (hresponses : r.responses = []) :
    (s.responded b payload r).Backed (!b) b := by
  have hflight (d : Bool) (x : ℕ × Bytes) (hx : x ∈ (s.responded b payload r).inFlight d) :
      x ∈ s.inFlight d := by
    refine (mem_launch hx).resolve_right fun hx => ?_
    rw [hresponses] at hx
    exact absurd hx.2.2 List.not_mem_nil
  exact h.of_flight later_responded (by rw [nodes_responded_of_ne (Bool.not_ne_self b)])
    target_responded rfl (fun _ hh => hh) (fun x hx => h.flight x (hflight _ x hx))
    fun x hx _ => hflight _ x hx

/-- Nothing is sent or handed over. -/
theorem Sends.responded (h : Sends s) : Sends (s.responded b payload r) where
  toNumbered := h.toNumbered.of_trace rfl fun _ _ _ _ => sent_mem_responded
  delivered n d hmem := by
    have hold : .delivered n d ∈ s.trace := by
      refine (List.mem_append.mp hmem).resolve_left fun hmem => ?_
      obtain ⟨id, -, heq⟩ := Option.map_eq_some_iff.mp (Option.mem_toList.mp hmem)
      exact LinkEvent.noConfusion heq
    obtain ⟨b', hash, message, hsent, heq⟩ := h.delivered n d hold
    exact ⟨b', hash, message, List.mem_append_right _ hsent, heq⟩

end

/-- **An ACK comes.**  When it is the last that was missing the target is erased; the other node has
all packets then, so the message was handed over, or a thread is going to do it, which the condition
excludes. -/
theorem Reliable.received_ack (h : Reliable s) (hx : (n, payload) ∈ s.inFlight b)
    (hack : packetType payload = some .ack) (hok : s.CalledBack b payload) :
    Reliable (s.received b .ack n payload) := by
  have hr := receiveAck_cases (s.nodes b).target (s.nodes b).sendQueue otherNode payload
  show Reliable (s.responded b payload
    (receiveAck (s.nodes b).target (s.nodes b).sendQueue otherNode payload).value)
  obtain hr | ⟨q, t, hq, ht, hvalid, hr⟩ := hr
  · rw [hr, responded_ignored]
    exact h
  have hbacked := h.backed b
  obtain ⟨hash, message, acked, hqueued⟩ := hbacked.queued _ q hq
  have hfind := find_otherNode hqueued
  have hentry : t = ⟨otherNode, acked⟩ := by
    rw [hfind, hqueued.eq] at ht
    exact (Option.some.inj ht).symm
  have hacked := Queued.ackedWith hbacked hqueued hq hx hack hvalid
  have hback : s.Backed (!b) b := by simpa using h.backed (!b)
  have hwithout : q.without (q.find otherNode) = none := by
    rw [hfind, hqueued.eq]
    rfl
  have hset : q.setAcked (q.find otherNode) t (ackedWith payload t.acked) =
      { q with targets := [⟨otherNode, ackedWith payload acked⟩] } := by
    rw [hfind, hentry, hqueued.eq]
    rfl
  rw [hwithout, hset] at hr
  -- the other entries stay
  have hboth {o : Option PacketQueue} {acknowledged : Option ℕ}
      (ho : ∀ q' ∈ o, q.packetCount = q'.packetCount ∧
        ∃ hash message acked, s.Queued b (!b) (packetId payload) q' hash message acked) (d : Bool) :
      (s.responded b payload ⟨(s.nodes b).target, Function.update (s.nodes b).sendQueue
        (packetId payload) o, [], none, acknowledged⟩).Backed d (!d) := by
    rcases Bool.eq_or_eq_not d b with rfl | rfl
    · refine hbacked.responded rfl fun id q' hq' => ?_
      have hq' : q' ∈ Function.update (s.nodes d).sendQueue (packetId payload) o id := hq'
      by_cases hid : id = packetId payload
      · subst hid
        rw [Function.update_self] at hq'
        exact ⟨q, hq, ho q' hq'⟩
      · rw [Function.update_of_ne hid] at hq'
        exact ⟨q', hq', rfl, hbacked.queued id q' hq'⟩
    · simpa using hback.responded_back rfl
  by_cases hall : allAcked q.packetCount (ackedWith payload t.acked) = true
  · rw [if_pos hall] at hr
    have hhanded : s.Handed b (!b) (packetId payload) := by
      refine hbacked.handed_of_has h.sends hqueued fun no hno => hacked.has no hno ?_
      rw [hentry] at hall
      refine (allAcked_iff (length_ackedWith.trans hqueued.length_eq)).mp hall no ?_
      unfold testedBits
      split_ifs <;> omega
    -- no thread is still going to hand it over
    obtain ⟨hash', message', hsent, hdelivered⟩ := hhanded.delivered (hok q hq t ht hvalid hall)
    rw [hr]
    exact ⟨h.sends.responded, hboth fun q' hq' => absurd hq' (by simp),
      ⟨b, hash', message', hsent, hdelivered⟩, h.confirmed⟩
  · rw [if_neg hall] at hr
    rw [hr]
    refine ⟨h.sends.responded, hboth fun q' hq' => ?_, h.confirmed⟩
    obtain rfl := Option.some.inj hq'
    exact ⟨rfl, hash, message, ackedWith payload acked, hacked⟩

/-! ### The other steps -/

theorem nextFree_lt {queue : SendQueue} {k i : ℕ} (h : nextFree queue k i = some id) :
    id < 2 ^ 16 := by
  induction k generalizing i with
  | zero => exact absurd h (by simp [nextFree])
  | succ k ih =>
    rw [nextFree] at h
    split_ifs at h
    · exact Option.some.inj h ▸ Nat.mod_lt _ (by decide)
    · exact ih h

theorem messageCount_eq {mtu : ℕ} (h : Sendable mtu hash message) :
    messageCount mtu message = message.length / mtu + 1 :=
  Nat.mod_eq_of_lt h.count_lt

/-- The packets that `send` makes are packets of the message. -/
theorem packetOf_of_mem_packets (h : Sendable (s.nodes b).packetDataMtu hash message)
    (hid : id < 2 ^ 16) (hp : payload ∈ (s.nodes b).packets id hash message) :
    PacketOf (s.nodes b).packetDataMtu id hash message payload := by
  obtain ⟨p, hmem, rfl⟩ := List.mem_map.mp hp
  obtain ⟨no, hno, rfl⟩ := mem_messagePackets.mp hmem
  rw [messageCount_eq h] at hno ⊢
  rw [value_sendPacket]
  exact IsPacketOf.says ⟨.data, no, .inl rfl, hno, rfl⟩ h hid

/-- The packets that `retransmit` makes are packets of the message, too. -/
theorem packetOf_of_mem_unacknowledged {acked : Bytes} {t : PacketTarget}
    (hq : s.Queued b c id q hash message acked)
    (hp : payload ∈ (s.nodes b).unacknowledged id q t) :
    PacketOf (s.nodes b).packetDataMtu id hash message payload := by
  obtain ⟨no, hno, rfl⟩ := List.mem_map.mp hp
  have hno := List.mem_range.mp (List.mem_of_mem_filter hno)
  rw [hq.eq] at hno ⊢
  rw [PacketQueue.resendPacket, value_sendPacket]
  exact IsPacketOf.says ⟨.dataRetransmission, no, .inr rfl, hno, rfl⟩ hq.sendable hq.id_lt

theorem packetType_of_isData (h : isData payload = true) :
    packetType payload ≠ some .ack ∧ packetType payload ≠ some .nack := by
  rw [isData, Bool.and_eq_true, Bool.or_eq_true, beq_iff_eq, beq_iff_eq] at h
  rcases h.2 with heq | heq <;> rw [heq] <;> exact ⟨by simp, by simp⟩

/-- A node sends packets of its own: nothing changes in the other direction. -/
theorem Backed.launch_back {l : List Bytes} (h : s.Backed (!b) b)
    (hlater : Later s s' (!b) b) (hflight : s'.inFlight = s.launch (!b) n l)
    (hdata : ∀ d ∈ l, isData d = true) (hqueue : (s'.nodes (!b)).sendQueue =
    (s.nodes (!b)).sendQueue) (htarget : (s'.nodes b).target = (s.nodes b).target)
    (hlatest : s'.latest (!b) = s.latest (!b)) (hhandlers : s'.handlers = s.handlers) :
    s'.Backed (!b) b := by
  refine h.of_flight hlater hqueue htarget hlatest (fun h' hh => hhandlers ▸ hh)
    (fun x hx hx_data => ?_) fun x hx htype => ?_
  · rw [hflight, launch_of_ne (Bool.not_ne_self b).symm] at hx
    exact h.flight x hx hx_data
  · rw [hflight] at hx
    rcases mem_launch hx with hx | ⟨-, -, hx⟩
    · exact hx
    · exact absurd htype (not_or.mpr (packetType_of_isData (hdata _ hx)))

/-- **`retransmit`** sends packets of the latest message with the id, and changes nothing else. -/
theorem Reliable.retransmit (h : Reliable s) (hst : s.retransmit b id = some s') : Reliable s' := by
  obtain ⟨q, hq, hst⟩ := Option.bind_eq_some_iff.mp hst
  obtain ⟨t, -, hst⟩ := Option.bind_eq_some_iff.mp hst
  obtain rfl := Option.some.inj hst
  have hbacked := h.backed b
  have hback : s.Backed (!b) b := by simpa using h.backed (!b)
  obtain ⟨hash, message, acked, hqueued⟩ := hbacked.queued id q hq
  have hpackets (d : Bytes) (hd : d ∈ (s.nodes b).unacknowledged id q t) :=
    packetOf_of_mem_unacknowledged hqueued hd
  have hlater (c d : Bool) : Later s { s with
      inFlight := s.launch (!b) (s.latest b id) ((s.nodes b).unacknowledged id q t) } c d :=
    .of_handlers (List.Subset.refl _) rfl rfl
  refine ⟨⟨⟨h.sends.lt, h.sends.unique⟩, h.sends.delivered⟩, fun d => ?_, h.confirmed⟩
  rcases Bool.eq_or_eq_not d b with rfl | rfl
  · refine hbacked.of_flight (hlater _ _) rfl rfl rfl (fun _ hh => hh) (fun x hx hdata => ?_)
      fun x hx _ => ?_
    · rcases mem_launch hx with hx | ⟨-, hmark, hx⟩
      · exact hbacked.flight x hx hdata
      · have hp := hpackets x.2 hx
        rw [Flies, hp.id_eq]
        exact ⟨hmark, hash, message, hmark ▸ hqueued.sent, hp⟩
    · exact (mem_launch hx).resolve_right fun hd => Bool.not_ne_self d hd.1.symm
  · have hsame : Backed { s with
        inFlight := s.launch (!b) (s.latest b id) ((s.nodes b).unacknowledged id q t) } (!b) b :=
      hback.launch_back (hlater _ _) rfl (fun d hd => (hpackets d hd).isData) rfl rfl rfl rfl
    simpa using hsame

/-- **A datagram is lost**: what is said of all datagrams in flight is said of those that are left.
-/
theorem Reliable.lose (h : Reliable s) (k : ℕ) :
    Reliable { s with inFlight := Function.update s.inFlight b ((s.inFlight b).eraseIdx k) } := by
  refine ⟨⟨⟨h.sends.lt, h.sends.unique⟩, h.sends.delivered⟩, fun d => ?_, h.confirmed⟩
  exact (h.backed d).of_flight (.of_handlers (List.Subset.refl _) rfl rfl) rfl rfl rfl
    (fun _ hh => hh) (fun x hx => (h.backed d).flight x (mem_inFlight_lose hx))
    fun x hx _ => mem_inFlight_lose hx

theorem Sends.sendAs (h : Sends s) : Sends (s.sendAs b id hash message) where
  toNumbered := h.toNumbered.sendAs
  delivered n d hmem := by
    obtain ⟨b', hash', message', hsent, heq⟩ :=
      h.delivered n d ((List.mem_cons.mp hmem).resolve_left LinkEvent.noConfusion)
    exact ⟨b', hash', message', List.mem_cons_of_mem _ hsent, heq⟩

/-- The direction of a message that is sent: its id was not in use, so nothing that is left over is
about it. -/
theorem Backed.sendAs (h : s.Backed b (!b)) (hid : id < 2 ^ 16)
    (hsend : Sendable (s.nodes b).packetDataMtu hash message) (hunused : s.Unused b (!b) id) :
    (s.sendAs b id hash message).Backed b (!b) := by
  have hlater : Later s (s.sendAs b id hash message) b (!b) :=
    .of_handlers (List.subset_cons_self _ _) packetDataMtu_sendAs rfl
  have hsent : .sent s.nextSend b hash message ∈ (s.sendAs b id hash message).trace :=
    List.mem_cons_self
  have hflight : (s.sendAs b id hash message).inFlight b = s.inFlight b :=
    launch_of_ne (Bool.not_ne_self b).symm
  have hmono {id' no : ℕ} (hne : id' ≠ id) (hhas : s.Has b (!b) id' no) :
      (s.sendAs b id hash message).Has b (!b) id' no :=
    hhas.mono hlater (latest_sendAs_of_ne hne) target_sendAs
  refine ⟨fun x hx hdata => ?_, fun h' hh => ?_, fun id' => ?_, fun id' q hq => ?_,
    fun x hx hack q hq hvalid no hno hbit => ?_, fun x hx => h.not_nack x (hflight ▸ hx),
    fun id' hrecent => ?_⟩
  · rcases mem_launch hx with hx | ⟨-, hmark, hx⟩
    · exact (h.flight x hx hdata).mono hlater (latest_sendAs_of_ne (hunused.packets x hx hdata))
    · have hp := packetOf_of_mem_packets hsend hid hx
      refine ⟨by rw [hp.id_eq, latest_sendAs_self, hmark], hash, message, hmark ▸ hsent, ?_⟩
      rw [packetDataMtu_sendAs, hp.id_eq]
      exact hp
  · exact (h.threads h' hh).mono hlater (latest_sendAs_of_ne (hunused.threads h' hh))
  · rw [target_sendAs]
    by_cases hne : id' = id
    · rw [hne, hunused.assembler]
      exact stored_nil
    · exact (h.stored id').mono hlater (latest_sendAs_of_ne hne)
  · by_cases hne : id' = id
    · subst hne
      rw [sendQueue_sendAs, Function.update_self] at hq
      obtain rfl := Option.some.inj hq
      have hcount : (s.nodes b).count message = message.length / (s.nodes b).packetDataMtu + 1 :=
        messageCount_eq hsend
      refine ⟨hash, message, List.replicate ((s.nodes b).count message / 8 + 1) 0,
        latest_sendAs_self ▸ hsent, packetDataMtu_sendAs.symm ▸ hsend, hid, ?_,
        List.length_replicate, fun no _ hbit => ?_⟩
      · rw [packetDataMtu_sendAs, ← hcount]
        rfl
      · rw [bitAt_replicate] at hbit
        exact Bool.noConfusion hbit
    · rw [sendQueue_sendAs, Function.update_of_ne hne] at hq
      obtain ⟨hash', message', acked, hqueued⟩ := h.queued id' q hq
      exact ⟨hash', message', acked, hqueued.mono hlater (latest_sendAs_of_ne hne)
        fun no _ _ hhas => hmono hne hhas⟩
  · rw [hflight] at hx
    have hne := hunused.acks x hx hack
    rw [sendQueue_sendAs, Function.update_of_ne hne] at hq
    exact hmono hne (h.acks x hx hack q hq hvalid no hno hbit)
  · rw [target_sendAs] at hrecent
    by_cases hne : id' = id
    · rw [hne, hunused.recent] at hrecent
      exact Bool.noConfusion hrecent
    · exact (h.recent id' hrecent).mono hlater (latest_sendAs_of_ne hne)

/-- **`send`** with an id that is not in use keeps the invariant: nothing of the message is
acknowledged. -/
theorem Reliable.sendAs (h : Reliable s) (hid : id < 2 ^ 16)
    (hsend : Sendable (s.nodes b).packetDataMtu hash message) (hunused : s.Unused b (!b) id) :
    Reliable (s.sendAs b id hash message) := by
  have hback : s.Backed (!b) b := by simpa using h.backed (!b)
  refine ⟨h.sends.sendAs, fun d => ?_, h.confirmed⟩
  rcases Bool.eq_or_eq_not d b with rfl | rfl
  · exact (h.backed d).sendAs hid hsend hunused
  · have hsame : (s.sendAs b id hash message).Backed (!b) b :=
      hback.launch_back (.of_handlers (List.subset_cons_self _ _) packetDataMtu_sendAs rfl) rfl
        (fun d hd => (packetOf_of_mem_packets hsend hid hd).isData)
        (by rw [nodes_sendAs_of_ne (Bool.not_ne_self b)]) target_sendAs
        (latest_sendAs_other (Bool.not_ne_self b)) rfl
    simpa using hsame

/-! ## Every run -/

theorem reliable_start (mtu : Bool → ℕ) : Reliable (Link.start mtu) := by
  refine ⟨⟨numbered_start mtu, fun _ _ h => absurd h List.not_mem_nil⟩, fun b => ?_, trivial⟩
  refine ⟨fun x hx => absurd hx List.not_mem_nil, fun _ hh => absurd hh List.not_mem_nil,
    fun _ => stored_nil, fun _ _ hq => absurd hq (by simp [Link.start]),
    fun x hx => absurd hx List.not_mem_nil, fun x hx => absurd hx List.not_mem_nil,
    fun id hid => ?_⟩
  have hmem : (id : ℤ) ∈ List.replicate recentPacketsSize (-1 : ℤ) := of_decide_eq_true hid
  have heq := List.eq_of_mem_replicate hmem
  omega

/-- **A step** that keeps what is acknowledged keeps the invariant; one case for each kind of step.
-/
theorem Reliable.step {a : LinkAction} (h : Reliable s) (hok : keepsAcknowledged s a)
    (hst : linkStep s a = some s') : Reliable s' := by
  cases a with
  | send b hash payload =>
    obtain ⟨id, hid, rfl⟩ := Option.map_eq_some_iff.mp hst
    exact h.sendAs (nextFree_lt hid) hok.1 (hok.2 id hid)
  | retransmit b id => exact h.retransmit hst
  | lose b k =>
    obtain rfl := Option.some.inj hst
    exact h.lose k
  | receive c k =>
    obtain ⟨x, hx, ⟨type, hpacket, htype, rfl⟩ | ⟨-, rfl⟩⟩ := linkStep_receive hst
    · have hmem := List.mem_of_getElem? hx
      cases type with
      | data => exact h.lookUp hmem ((isData_iff hpacket htype).mpr (.inl rfl))
      | dataRetransmission => exact h.lookUp hmem ((isData_iff hpacket htype).mpr (.inr rfl))
      | ack => exact h.received_ack hmem htype (hok x hx htype)
      | nack => exact absurd htype ((h.backed c).not_nack x hmem)
      | announce | leave => exact h
    · exact h
  | proceed c j timedOut =>
    obtain ⟨h₀, hj, -, rfl⟩ := linkStep_proceed hst
    exact h.proceeded hj (hok h₀ hj)

/-- What is acknowledged was handed over: the last event of a confirmed trace that erases a target
has a delivery before it. -/
theorem Confirmed.delivered {trace : List LinkEvent} (hc : Confirmed trace)
    (hn : .acknowledged n ∈ trace) : ∃ d, .delivered n d ∈ trace := by
  induction trace with
  | nil => exact absurd hn List.not_mem_nil
  | cons e trace ih =>
    have hrest (hc : Confirmed trace) (hn : .acknowledged n ∈ trace) :
        ∃ d, .delivered n d ∈ e :: trace := by
      obtain ⟨d, hd⟩ := ih hc hn
      exact ⟨d, List.mem_cons_of_mem _ hd⟩
    cases e with
    | acknowledged m =>
      rcases List.mem_cons.mp hn with heq | hn
      · obtain rfl := LinkEvent.acknowledged.inj heq
        obtain ⟨⟨b, hash, message, -, hd⟩, -⟩ := hc
        exact ⟨_, List.mem_cons_of_mem _ hd⟩
      · exact hrest hc.2 hn
    | _ => exact hrest hc ((List.mem_cons.mp hn).resolve_left LinkEvent.noConfusion)

theorem Confirmed.deliveries_pos (hc : Confirmed s.trace) (hn : .acknowledged n ∈ s.trace) :
    0 < s.deliveries n := by
  obtain ⟨d, hd⟩ := hc.delivered hn
  exact List.countP_pos_iff.mpr ⟨_, hd, beq_self_eq_true n⟩

/-! ### Runs -/

instance (mtu hash : ℕ) (message : Bytes) : Decidable (Sendable mtu hash message) :=
  decidable_of_iff (0 < mtu ∧ message.length / mtu + 1 < 2 ^ 16 ∧ hash < 2 ^ 64)
    ⟨fun h => ⟨h.1, h.2.1, h.2.2⟩, fun h => ⟨h.mtu_pos, h.count_lt, h.hash_lt⟩⟩

instance (s : Link) (b c : Bool) (id : ℕ) : Decidable (s.Unused b c id) :=
  decidable_of_iff ((∀ x ∈ s.inFlight b, packetType x.2 = some .ack → packetId x.2 ≠ id) ∧
      (∀ x ∈ s.inFlight c, isData x.2 = true → packetId x.2 ≠ id) ∧
      (∀ h ∈ s.handlers c, packetId h.payload ≠ id) ∧
      (s.nodes c).target.assemblers id = [] ∧ (s.nodes c).target.isRecent id = false)
    ⟨fun h => ⟨h.1, h.2.1, h.2.2.1, h.2.2.2.1, h.2.2.2.2⟩,
      fun h => ⟨h.acks, h.packets, h.threads, h.assembler, h.recent⟩⟩

instance (s : Link) (b : Bool) (id no : ℕ) : Decidable (s.NotAcknowledged b id no) :=
  inferInstanceAs (Decidable (_ ∧ _))

instance (s : Link) (b c : Bool) (id : ℕ) : Decidable (s.Deletable b c id) :=
  inferInstanceAs (Decidable (_ ∨ _))

instance (s : Link) (b : Bool) (ack : Bytes) : Decidable (s.CalledBack b ack) :=
  inferInstanceAs (Decidable (∀ q ∈ (s.nodes b).sendQueue (packetId ack),
    ∀ t ∈ q.targets[q.find otherNode]?, validAck q ack →
      allAcked q.packetCount (ackedWith ack t.acked) = true →
        ∀ h ∈ s.handlers (!b), h.send = s.latest b (packetId ack) → h.stage.due = none))

instance (s : Link) : ∀ a, Decidable (keepsAcknowledged s a)
  | .send b hash message =>
    inferInstanceAs (Decidable (Sendable (s.nodes b).packetDataMtu hash message ∧
      ∀ id ∈ (s.nodes b).nextPacketId, s.Unused b (!b) id))
  | .receive b k => inferInstanceAs (Decidable (∀ x ∈ (s.inFlight b)[k]?,
      packetType x.2 = some .ack → s.CalledBack b x.2))
  | .proceed c j timedOut => inferInstanceAs (Decidable (∀ h ∈ (s.handlers c)[j]?,
      ∀ id ∈ timedOut, id ≠ packetId h.payload ∧ s.Deletable (!c) c id))
  | .retransmit .. => .isTrue trivial
  | .lose .. => .isTrue trivial

/-- The sizes of the messages fit; otherwise the steps are free. -/
def fits (s : Link) : LinkAction → Prop
  | .send b hash message => Sendable (s.nodes b).packetDataMtu hash message
  | _ => True

instance (s : Link) : ∀ a, Decidable (fits s a)
  | .send b hash message =>
    inferInstanceAs (Decidable (Sendable (s.nodes b).packetDataMtu hash message))
  | .receive .. => .isTrue trivial
  | .proceed .. => .isTrue trivial
  | .retransmit .. => .isTrue trivial
  | .lose .. => .isTrue trivial

/-- A message in two packets; the second is sent again, and comes after the first is
acknowledged. -/
def twoPackets : List LinkAction :=
  [.send true 7 [1, 2, 3], .receive false 0, .proceed false 0 [], .lose false 1, .receive true 0,
    .retransmit true 1, .receive false 1, .proceed false 0 [], .proceed false 0 [],
    .receive true 1]

/-- The assembler times out between the two packets, when a packet of another message comes. -/
def timesOut : List LinkAction :=
  [.send true 7 [1, 2, 3], .receive false 0, .proceed false 0 [], .receive true 0,
    .send true 8 [4, 5, 6], .receive false 2, .proceed false 0 [1], .receive false 1,
    .proceed false 0 [], .receive true 2]

/-- The ACK of the only packet comes before the callback is invoked. -/
def comesEarly : List LinkAction :=
  [.send true 7 [1], .receive false 0, .proceed false 0 [], .receive true 0]

example : (exec linkStep (Link.start fun _ => 2) comesEarly).any (fun s =>
    decide (LinkEvent.acknowledged 0 ∈ s.trace ∧ s.deliveries 0 = 0)) = true := by decide +kernel

end Link

end Network
end Extension
end NUClear
