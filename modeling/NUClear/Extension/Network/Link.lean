import NUClear.Extension.Network.Reception
import NUClear.Foundation.Reachability

/-!
# Two nodes and the datagrams between them (`NUClearNetwork.cpp`)

Two nodes are connected and send reliable messages to each other.  A datagram that is in flight may
be received any number of times, in any order, or be lost; the environment decides when a node sends
again what has not been acknowledged, and which assemblers have timed out.

The sends are numbered, and a datagram in flight is marked with the number of the send that it is
about.  The nodes do not see the mark: a packet id has sixteen bits and is used again.

## The threads of a node

`process` is called by several tasks at once (one for each descriptor, and the one of the
announcements), so several threads may be in `process_packet`.  An ACK is handled under
`send_queue_mutex`, in one step, and a NACK, for which the source takes no mutex, is one step here,
too.  A packet of a message is handled in several, and what the steps of a thread do is what the
source does between two accesses that another thread may see:

* the thread reads `recent_packets`, without a lock, and either answers from it or goes on;
* the only packet of a message is acknowledged, then its id goes into `recent_packets`, then
  `packet_callback` is invoked: three steps, no lock;
* one of several packets goes into its assembler and is acknowledged under `assemblers_mutex`.  With
  the last one the thread keeps the mutex, invokes `packet_callback`, puts the id into
  `recent_packets` and deletes the assembler.

So the ACK of a message is in flight before the message is handed over.  The write behind the end of
`recent_packets`, at index 255, changes nothing here: `RecentPackets` is about it.

* `TargetData.proceed`: the next step of a thread.
* `finish_looked`: a thread that no other interrupts does what `receiveData` says.
* `linkStep`: one step of the two nodes and what is between them.
* `linkStep_receive`, `linkStep_proceed`: what these steps do.
-/

namespace NUClear
namespace Extension
namespace Network

open Foundation

/-! ## The nodes -/

/-- What a node keeps for the other one, and what it has sent to it, with the source of its packet
ids. -/
structure Endpoint where
  target : TargetData
  sendQueue : SendQueue
  packetIdSource : ℕ
  packetDataMtu : ℕ

/-- The identity of the other node: each node knows one, besides the target for multicast packets.
-/
def otherNode : ℕ := 1

/-- The next packet id that is not in the send queue, if there is one. -/
def Endpoint.nextPacketId (e : Endpoint) : Option ℕ :=
  nextFree e.sendQueue (2 ^ 16) e.packetIdSource

/-- `packet_count` of a message of this node, with the size of the packets that it has worked out.
-/
def Endpoint.count (e : Endpoint) (payload : Bytes) : ℕ := messageCount e.packetDataMtu payload

/-- What `send` keeps of a message: the other node is its only target, and nothing of it is
acknowledged. -/
def Endpoint.queued (e : Endpoint) (hash : ℕ) (payload : Bytes) : PacketQueue :=
  ⟨[⟨otherNode, List.replicate (e.count payload / 8 + 1) 0⟩], e.count payload, hash, payload⟩

/-- The node after `send`: the message waits under the packet id, and this is the last that was
given. -/
def Endpoint.afterSend (e : Endpoint) (id hash : ℕ) (payload : Bytes) : Endpoint :=
  { e with
    packetIdSource := id
    sendQueue := Function.update e.sendQueue id (some (e.queued hash payload)) }

/-- The packets of a message, in the order in which `send` hands them to the socket. -/
def Endpoint.packets (e : Endpoint) (id hash : ℕ) (payload : Bytes) : List Bytes :=
  (messagePackets e.packetDataMtu .data id true hash payload).map Checked.value

/-- `retransmit`, for an entry that has timed out: the packets that are not acknowledged. -/
def Endpoint.unacknowledged (e : Endpoint) (id : ℕ) (q : PacketQueue) (s : PacketTarget) :
    List Bytes :=
  ((List.range q.packetCount).filter fun i => !bitAt s.acked i).map fun i =>
    (q.resendPacket e.packetDataMtu id i).value

/-! ## The threads of a node -/

/-- How far a thread is in `process_packet` with a packet of a message.  Between two stages it
answers, remembers the message or hands it over, and other threads and the other node may come in
between. -/
inductive Stage where
  /-- The packet was not answered from `recent_packets`. -/
  | looked
  /-- The only packet of its message has been acknowledged. -/
  | answered (message : Delivery)
  /-- Its id is in `recent_packets`, and `packet_callback` is next. -/
  | remembered (message : Delivery)
  /-- The last of several packets has been acknowledged, and `packet_callback` is next.  The thread
  has `assemblers_mutex`. -/
  | assembled (message : Delivery)
  deriving DecidableEq, Repr

/-- The message that the thread is going to hand over: its ACK has been sent, and `packet_callback`
has not been invoked. -/
def Stage.due : Stage → Option Delivery
  | .looked => none
  | .answered message | .remembered message | .assembled message => some message

/-- The thread has `assemblers_mutex` between two of its steps, so no other one can put a packet
into an assembler. -/
def Stage.locks : Stage → Bool
  | .assembled _ => true
  | _ => false

/-- A thread that is in `process_packet`, with the datagram and the send that this is about. -/
structure Handler where
  send : ℕ
  payload : Bytes
  stage : Stage
  deriving DecidableEq, Repr

/-- What a step of a thread leads to: what the node keeps, the responses that it sends, and the
message if it hands it over. -/
structure Progress where
  target : TargetData
  responses : List Bytes
  /-- How far the thread is then, unless it has left `process_packet`. -/
  stage : Option Stage
  delivered : Option Delivery

/-- The next step of a thread, in the order of the source: a packet is put into its assembler and
acknowledged, and only then, as a step of its own, is the message handed over. -/
def TargetData.proceed (t : TargetData) (payload : Bytes) (timedOut : List ℕ) : Stage → Progress
  | .looked =>
    if packetCount payload = 1 then
      ⟨t, (ifReliable payload (acknowledgeOne payload)).value,
        some (.answered ⟨packetHash payload, reliable payload, packetData payload⟩), none⟩
    else
      let purged := (purge payload (t.assemblers (packetId payload))).value
      let stored := insertFragment (packetNo payload) payload purged.1
      let t' := t.setAssembler (packetId payload) stored
      let responses := purged.2 ++ (ifReliable payload (acknowledge payload stored)).value
      if stored.length = packetCount payload then
        ⟨t', responses, some (.assembled (assembleMessage payload stored).value), none⟩
      else ⟨t'.expire timedOut, responses, none, none⟩
  | .answered message => ⟨(t.remember payload).value, [], some (.remembered message), none⟩
  | .remembered message => ⟨t, [], none, some message⟩
  | .assembled message =>
    ⟨((t.remember payload).value.setAssembler (packetId payload) []).expire timedOut, [], none,
      some message⟩

/-- The steps of a thread that no other interrupts, so many of them at most. -/
def TargetData.finish (t : TargetData) (payload : Bytes) (timedOut : List ℕ) : ℕ → Stage → Progress
  | 0, stage => ⟨t, [], some stage, none⟩
  | k + 1, stage =>
    let p := t.proceed payload timedOut stage
    match p.stage with
    | none => p
    | some stage' =>
      let p' := p.target.finish payload timedOut k stage'
      ⟨p'.target, p.responses ++ p'.responses, p'.stage, p'.delivered⟩

/-! ## The link -/

/-- What happens on the link, as far as the statements and their invariants speak of it. -/
inductive LinkEvent where
  /-- Node `b` sends. -/
  | sent (n : ℕ) (b : Bool) (hash : ℕ) (payload : Bytes)
  /-- Node `b` puts the packet with a number into the assembler of an id. -/
  | stored (b : Bool) (id no : ℕ)
  /-- Node `b` deletes the assemblers of some ids. -/
  | deleted (b : Bool) (ids : List ℕ)
  /-- Node `b` puts an id into `recent_packets`, for a send. -/
  | remembered (b : Bool) (n id : ℕ)
  /-- `packet_callback` is invoked, for a send. -/
  | delivered (n : ℕ) (d : Delivery)
  /-- The sender erases the target, as all packets are acknowledged. -/
  | acknowledged (n : ℕ)
  deriving DecidableEq, Repr

/-- What a step of a thread of node `b` adds to the trace; `left` tells that it has left
`process_packet`, which looks for assemblers that have timed out at its end. -/
def Handler.events (h : Handler) (b : Bool) (timedOut : List ℕ) (left : Bool) : List LinkEvent :=
  let id := packetId h.payload
  let remembers : List LinkEvent := if reliable h.payload then [.remembered b h.send id] else []
  match h.stage with
  | .looked =>
    if packetCount h.payload = 1 then []
    else (if left then [.deleted b timedOut] else []) ++ [.stored b id (packetNo h.payload)]
  | .answered _ => remembers
  | .remembered message => [.delivered h.send message]
  | .assembled message => .deleted b (id :: timedOut) :: remembers ++ [.delivered h.send message]

/-- The two nodes and what is in flight.  The sends are numbered, for the statements only; a
datagram is marked with the send that it is about. -/
structure Link where
  nodes : Bool → Endpoint
  /-- The threads of a node that are processing a packet. -/
  handlers : Bool → List Handler
  /-- The datagrams on the way to a node, each with the send that it is about. -/
  inFlight : Bool → List (ℕ × Bytes)
  /-- The number of the next send. -/
  nextSend : ℕ
  /-- The latest send of a node with a packet id. -/
  latest : Bool → ℕ → ℕ
  trace : List LinkEvent

namespace Link

/-- Two nodes that have just met: each knows the other, and neither has sent anything. -/
def start (mtu : Bool → ℕ) : Link where
  nodes b := ⟨.new, fun _ => none, 0, mtu b⟩
  handlers _ := []
  inFlight _ := []
  nextSend := 0
  latest _ _ := 0
  trace := []

/-- More datagrams are on the way to a node.  They may be received in any order. -/
def launch (s : Link) (b : Bool) (n : ℕ) (l : List Bytes) : Bool → List (ℕ × Bytes) :=
  Function.update s.inFlight b (s.inFlight b ++ l.map fun d => (n, d))

/-- `send`, by node `b`, with a packet id: the message is kept, and its packets are on the way. -/
def sendAs (s : Link) (b : Bool) (id hash : ℕ) (payload : Bytes) : Link :=
  { s with
    nodes := Function.update s.nodes b ((s.nodes b).afterSend id hash payload)
    inFlight := s.launch (!b) s.nextSend ((s.nodes b).packets id hash payload)
    nextSend := s.nextSend + 1
    latest := Function.update s.latest b (Function.update (s.latest b) id s.nextSend)
    trace := .sent s.nextSend b hash payload :: s.trace }

/-- `retransmit`, by node `b`, of the message with a packet id. -/
def retransmit (s : Link) (b : Bool) (id : ℕ) : Option Link := do
  let q ← (s.nodes b).sendQueue id
  let t ← q.targets[q.find otherNode]?
  some { s with
    inFlight := s.launch (!b) (s.latest b id) ((s.nodes b).unacknowledged id q t) }

/-- Node `b` has done something with a packet about a send: what it keeps for the other node, what
it has sent to it, the threads that are processing packets, and what has happened. -/
def worked (s : Link) (b : Bool) (n : ℕ) (t : TargetData) (responses : List Bytes)
    (handlers : List Handler) (events : List LinkEvent) : Link :=
  { s with
    nodes := Function.update s.nodes b { s.nodes b with target := t }
    handlers := Function.update s.handlers b handlers
    inFlight := s.launch (!b) n responses
    trace := events ++ s.trace }

/-- Node `b` has received a packet of a message: it drops it, answers it from `recent_packets`, or
goes on with it. -/
def lookUp (s : Link) (b : Bool) (retransmission : Bool) (n : ℕ) (payload : Bytes) : Link :=
  if packetCount payload < packetNo payload then s
  else if (s.nodes b).target.suppresses retransmission payload then
    s.worked b n (s.nodes b).target [(acknowledgeAll payload).value] (s.handlers b) []
  else
    s.worked b n (s.nodes b).target [] (s.handlers b ++ [⟨n, payload, .looked⟩]) []

/-- Node `b` has received an ACK or a NACK.  The packets that it sends again are those of the
latest message with the id. -/
def responded (s : Link) (b : Bool) (payload : Bytes) (r : Reception) : Link :=
  { s with
    nodes := Function.update s.nodes b { s.nodes b with sendQueue := r.sendQueue }
    inFlight := s.launch (!b) (s.latest b (packetId payload)) r.responses
    trace := (r.acknowledged.map fun id => .acknowledged (s.latest b id)).toList ++ s.trace }

/-- Node `b` has received a datagram about a send. -/
def received (s : Link) (b : Bool) (type : PacketType) (n : ℕ) (payload : Bytes) : Link :=
  match type with
  | .data => s.lookUp b false n payload
  | .dataRetransmission => s.lookUp b true n payload
  | .ack => s.responded b payload
      (receiveAck (s.nodes b).target (s.nodes b).sendQueue otherNode payload).value
  | .nack => s.responded b payload (receiveNack (s.nodes b).packetDataMtu (s.nodes b).target
      (s.nodes b).sendQueue otherNode payload).value
  | .announce | .leave => s

/-- A packet of several cannot go into its assembler while another thread has `assemblers_mutex`; a
message of one packet does not need it. -/
def blocked (s : Link) (b : Bool) (h : Handler) : Bool :=
  h.stage == .looked && packetCount h.payload != 1 && (s.handlers b).any fun h' => h'.stage.locks

/-- The threads of a node when the one at place `j` is at another stage, or has left. -/
def settle (l : List Handler) (j : ℕ) (h : Handler) : Option Stage → List Handler
  | some stage => l.set j { h with stage := stage }
  | none => l.eraseIdx j

/-- The thread at place `j` of node `b` has taken a step; what it sends is about the same send as
its packet. -/
def proceeded (s : Link) (b : Bool) (j : ℕ) (h : Handler) (timedOut : List ℕ) : Link :=
  let p := (s.nodes b).target.proceed h.payload timedOut h.stage
  s.worked b h.send p.target p.responses (settle (s.handlers b) j h p.stage)
    (h.events b timedOut p.stage.isNone)

end Link

/-- What happens on the link.  A copy of what is received stays in flight, so a datagram may come
any number of times, and any one may be lost. -/
inductive LinkAction where
  | send (b : Bool) (hash : ℕ) (payload : Bytes)
  | retransmit (b : Bool) (id : ℕ)
  /-- Node `b` receives the datagram at a place; a copy stays in flight. -/
  | receive (b : Bool) (k : ℕ)
  /-- The thread at a place of node `b` takes a step; if it looks for assemblers that have timed
  out, these are the ones that it finds. -/
  | proceed (b : Bool) (j : ℕ) (timedOut : List ℕ)
  /-- The datagram at a place is lost. -/
  | lose (b : Bool) (k : ℕ)
  deriving DecidableEq, Repr

/-- One step.  A datagram that is not of the protocol is ignored, and a thread that waits for the
mutex cannot take one. -/
def linkStep (s : Link) : LinkAction → Option Link
  | .send b hash payload => (s.nodes b).nextPacketId.map fun id => s.sendAs b id hash payload
  | .retransmit b id => s.retransmit b id
  | .receive b k => do
      let x ← (s.inFlight b)[k]?
      match isPacket x.2, packetType x.2 with
      | true, some type => some (s.received b type x.1 x.2)
      | _, _ => some s
  | .proceed b j timedOut => do
      let h ← (s.handlers b)[j]?
      if s.blocked b h then none else some (s.proceeded b j h timedOut)
  | .lose b k =>
    some { s with inFlight := Function.update s.inFlight b ((s.inFlight b).eraseIdx k) }

/-- The event is a delivery of a send. -/
def LinkEvent.isDelivery (n : ℕ) : LinkEvent → Bool
  | .delivered m _ => m == n
  | _ => false

/-- How many times a message has been handed over. -/
def Link.deliveries (s : Link) (n : ℕ) : ℕ := s.trace.countP (·.isDelivery n)

/-- The message of a send has been handed over, or a thread of node `c` is going to do it. -/
def Link.isHanded (s : Link) (c : Bool) (n : ℕ) : Prop :=
  0 < s.deliveries n ∨ ∃ h ∈ s.handlers c, h.send = n ∧ h.stage.due.isSome = true

instance (s : Link) (c : Bool) (n : ℕ) : Decidable (s.isHanded c n) :=
  inferInstanceAs (Decidable (_ ∨ _))

/-! ## A thread that no other interrupts -/

section

variable {t : TargetData} {payload : Bytes} {timedOut : List ℕ} {message : Delivery}
  {queue : SendQueue} {retransmission : Bool}

/-- The only packet of its message: it is acknowledged first, and the message is due. -/
theorem proceed_single (h : packetCount payload = 1) : t.proceed payload timedOut .looked =
    ⟨t, (ifReliable payload (acknowledgeOne payload)).value,
      some (.answered ⟨packetHash payload, reliable payload, packetData payload⟩), none⟩ :=
  if_pos h

theorem value_assembleMessage (stored : Fragments) : (assembleMessage payload stored).value =
    ⟨packetHash payload, reliable payload, messageData stored⟩ := by
  simp only [assembleMessage, Checked.value_bind, value_assemble, value_readHash,
    value_readReliable, Checked.value_pure]

/-- The responses to one of several packets: the NACK of a corrupted assembler, if it was one, and
the ACK. -/
def TargetData.fragmentResponses (t : TargetData) (payload : Bytes) : List Bytes :=
  (purge payload (t.assemblers (packetId payload))).value.2 ++
    (ifReliable payload (acknowledge payload (t.fragments payload))).value

/-- The last of several packets: the message is due, and the thread keeps the mutex until it has
handed it over. -/
theorem proceed_last (h : packetCount payload ≠ 1)
    (hlen : (t.fragments payload).length = packetCount payload) :
    t.proceed payload timedOut .looked =
      ⟨t.setAssembler (packetId payload) (t.fragments payload), t.fragmentResponses payload,
        some (.assembled ⟨packetHash payload, reliable payload, messageData (t.fragments payload)⟩),
        none⟩ := by
  rw [TargetData.proceed, if_neg h]
  simp only [value_purge, value_assembleMessage]
  exact if_pos hlen

/-- One of several packets, and others are missing: it is kept, and the thread leaves. -/
theorem proceed_fragment (h : packetCount payload ≠ 1)
    (hlen : (t.fragments payload).length ≠ packetCount payload) :
    t.proceed payload timedOut .looked =
      ⟨(t.setAssembler (packetId payload) (t.fragments payload)).expire timedOut,
        t.fragmentResponses payload, none, none⟩ := by
  rw [TargetData.proceed, if_neg h]
  simp only [value_purge]
  exact if_neg hlen

@[simp] theorem remember_setAssembler (id : ℕ) (l : Fragments) :
    ((t.setAssembler id l).remember payload).value =
      (t.remember payload).value.setAssembler id l := by
  rw [value_remember, value_remember]
  split_ifs <;> rfl

@[simp] theorem setAssembler_setAssembler (id : ℕ) (l l' : Fragments) :
    (t.setAssembler id l).setAssembler id l' = t.setAssembler id l' := by
  simp only [TargetData.setAssembler, Function.update_idem]

/-- The thread leaves `process_packet`. -/
theorem finish_of_left {p : Progress} {stage : Stage} (hp : t.proceed payload timedOut stage = p)
    (hleft : p.stage = none) (k : ℕ) : t.finish payload timedOut (k + 1) stage = p := by
  subst hp
  simp only [TargetData.finish, hleft]

/-- The thread goes on. -/
theorem finish_of_some {p : Progress} {stage stage' : Stage}
    (hp : t.proceed payload timedOut stage = p) (hstage : p.stage = some stage') (k : ℕ) :
    t.finish payload timedOut (k + 1) stage =
      ⟨(p.target.finish payload timedOut k stage').target,
        p.responses ++ (p.target.finish payload timedOut k stage').responses,
        (p.target.finish payload timedOut k stage').stage,
        (p.target.finish payload timedOut k stage').delivered⟩ := by
  subst hp
  simp only [TargetData.finish, hstage]

/-- **A thread that no other interrupts** does what `receiveData` says: the stages are a division of
it. -/
theorem finish_looked (h : t.suppresses retransmission payload = false) :
    (receiveData t queue retransmission payload timedOut).value =
      ⟨(t.finish payload timedOut 3 .looked).target, queue,
        (t.finish payload timedOut 3 .looked).responses,
        (t.finish payload timedOut 3 .looked).delivered, none⟩ ∧
      (t.finish payload timedOut 3 .looked).stage = none := by
  rw [value_receiveData, h, if_neg Bool.false_ne_true]
  by_cases hone : packetCount payload = 1
  · rw [if_pos hone, value_receiveSingle, finish_of_some (proceed_single hone) rfl,
      finish_of_some rfl rfl, finish_of_left rfl rfl]
    exact ⟨by simp only [TargetData.proceed, List.append_nil], rfl⟩
  · rw [if_neg hone, value_receiveFragment]
    by_cases hlen : (t.fragments payload).length = packetCount payload
    · rw [if_pos hlen, finish_of_some (proceed_last hone hlen) rfl, finish_of_left rfl rfl]
      simp only [TargetData.proceed, List.append_nil, remember_setAssembler,
        setAssembler_setAssembler, TargetData.fragmentResponses, and_self]
    · rw [if_neg hlen, finish_of_left (proceed_fragment hone hlen) rfl]
      simp only [TargetData.fragmentResponses, and_self]

end

/-! ## The steps -/

section

variable {s s' : Link} {b : Bool} {n k j : ℕ} {type : PacketType} {payload : Bytes}
  {timedOut : List ℕ} {h : Handler}

namespace Link

/-! ### What stays -/

section

variable {c d : Bool} {t : TargetData} {responses l : List Bytes} {handlers : List Handler}
  {events : List LinkEvent} {r : Reception} {x : ℕ × Bytes}

theorem mem_launch (hx : x ∈ s.launch b n l d) : x ∈ s.inFlight d ∨ d = b ∧ x.1 = n ∧ x.2 ∈ l := by
  by_cases hd : d = b
  · subst hd
    rw [launch, Function.update_self] at hx
    refine (List.mem_append.mp hx).imp_right fun hx => ?_
    obtain ⟨y, hy, rfl⟩ := List.mem_map.mp hx
    exact ⟨rfl, rfl, hy⟩
  · rw [launch, Function.update_of_ne hd] at hx
    exact .inl hx

theorem launch_of_ne (hd : d ≠ b) : s.launch b n l d = s.inFlight d := Function.update_of_ne hd ..

theorem nodes_worked_self : (s.worked c n t responses handlers events).nodes c =
    { s.nodes c with target := t } :=
  Function.update_self ..

theorem nodes_worked_of_ne (hb : b ≠ c) :
    (s.worked c n t responses handlers events).nodes b = s.nodes b :=
  Function.update_of_ne hb ..

theorem sendQueue_worked : ((s.worked c n t responses handlers events).nodes b).sendQueue =
    (s.nodes b).sendQueue := by
  by_cases hb : b = c
  · rw [hb, nodes_worked_self]
  · rw [nodes_worked_of_ne hb]

theorem packetDataMtu_worked : ((s.worked c n t responses handlers events).nodes b).packetDataMtu =
    (s.nodes b).packetDataMtu := by
  by_cases hb : b = c
  · rw [hb, nodes_worked_self]
  · rw [nodes_worked_of_ne hb]

theorem handlers_worked_self : (s.worked c n t responses handlers events).handlers c = handlers :=
  Function.update_self ..

theorem handlers_worked_of_ne (hb : b ≠ c) :
    (s.worked c n t responses handlers events).handlers b = s.handlers b :=
  Function.update_of_ne hb ..

theorem nodes_responded_self : (s.responded c payload r).nodes c =
    { s.nodes c with sendQueue := r.sendQueue } :=
  Function.update_self ..

theorem nodes_responded_of_ne (hb : b ≠ c) : (s.responded c payload r).nodes b = s.nodes b :=
  Function.update_of_ne hb ..

theorem target_responded :
    ((s.responded c payload r).nodes b).target = (s.nodes b).target := by
  by_cases hb : b = c
  · rw [hb, nodes_responded_self]
  · rw [nodes_responded_of_ne hb]

theorem packetDataMtu_responded :
    ((s.responded c payload r).nodes b).packetDataMtu = (s.nodes b).packetDataMtu := by
  by_cases hb : b = c
  · rw [hb, nodes_responded_self]
  · rw [nodes_responded_of_ne hb]

/-- What is left when a datagram is lost. -/
theorem mem_inFlight_lose
    (hx : x ∈ Function.update s.inFlight b ((s.inFlight b).eraseIdx k) d) : x ∈ s.inFlight d := by
  by_cases hd : d = b
  · subst hd
    rw [Function.update_self] at hx
    exact (List.eraseIdx_sublist ..).subset hx
  · rwa [Function.update_of_ne hd] at hx

variable {id id' hash : ℕ} {q : PacketQueue}

theorem nodes_sendAs_self :
    (s.sendAs b id hash payload).nodes b = (s.nodes b).afterSend id hash payload :=
  Function.update_self ..

theorem sendQueue_sendAs : ((s.sendAs b id hash payload).nodes b).sendQueue =
    Function.update (s.nodes b).sendQueue id (some ((s.nodes b).queued hash payload)) := by
  rw [nodes_sendAs_self]
  rfl

theorem nodes_sendAs_of_ne (hd : d ≠ b) : (s.sendAs b id hash payload).nodes d = s.nodes d :=
  Function.update_of_ne hd ..

theorem packetDataMtu_sendAs :
    ((s.sendAs b id hash payload).nodes d).packetDataMtu = (s.nodes d).packetDataMtu := by
  by_cases hd : d = b
  · subst hd
    rw [nodes_sendAs_self]
    rfl
  · rw [nodes_sendAs_of_ne hd]

theorem target_sendAs : ((s.sendAs b id hash payload).nodes d).target = (s.nodes d).target := by
  by_cases hd : d = b
  · subst hd
    rw [nodes_sendAs_self]
    rfl
  · rw [nodes_sendAs_of_ne hd]

theorem latest_sendAs : (s.sendAs b id hash payload).latest b =
    Function.update (s.latest b) id s.nextSend :=
  Function.update_self ..

theorem latest_sendAs_self : (s.sendAs b id hash payload).latest b id = s.nextSend := by
  rw [latest_sendAs, Function.update_self]

theorem latest_sendAs_of_ne (hne : id' ≠ id) :
    (s.sendAs b id hash payload).latest b id' = s.latest b id' := by
  rw [latest_sendAs, Function.update_of_ne hne]

theorem latest_sendAs_other (hd : d ≠ b) :
    (s.sendAs b id hash payload).latest d = s.latest d :=
  Function.update_of_ne hd ..

/-- The entries of the send queues after `send`: one is new. -/
theorem mem_sendQueue_sendAs (hq : q ∈ ((s.sendAs b id hash payload).nodes d).sendQueue id') :
    d = b ∧ id' = id ∧ q = (s.nodes b).queued hash payload ∨
      (s.sendAs b id hash payload).latest d id' = s.latest d id' ∧
        q ∈ (s.nodes d).sendQueue id' := by
  by_cases hd : d = b
  · subst hd
    rw [sendQueue_sendAs] at hq
    by_cases hid : id' = id
    · subst hid
      rw [Function.update_self] at hq
      exact .inl ⟨rfl, rfl, (Option.some.inj hq).symm⟩
    · rw [Function.update_of_ne hid] at hq
      exact .inr ⟨latest_sendAs_of_ne hid, hq⟩
  · rw [nodes_sendAs_of_ne hd] at hq
    exact .inr ⟨congrFun (latest_sendAs_other hd) id', hq⟩

/-- A thread sends no message; it only answers. -/
theorem not_sent_mem_events {m hash : ℕ} {message : Bytes} {left : Bool} :
    .sent m d hash message ∉ h.events b timedOut left := by
  unfold Handler.events
  cases h.stage <;> cases left <;> cases reliable h.payload <;> simp

theorem not_acknowledged_mem_events {m : ℕ} {left : Bool} :
    .acknowledged m ∉ h.events b timedOut left := by
  unfold Handler.events
  cases h.stage <;> cases left <;> cases reliable h.payload <;> simp

/-- What a thread hands over is in the trace. -/
theorem delivered_mem_events {m : ℕ} {message : Delivery} {left : Bool} :
    .delivered m message ∈ h.events b timedOut left ↔
      m = h.send ∧ (t.proceed h.payload timedOut h.stage).delivered = some message := by
  obtain ⟨send, payload, stage⟩ := h
  unfold Handler.events
  cases stage with
  | looked =>
    by_cases hone : packetCount payload = 1
    · rw [proceed_single hone]
      simp [hone]
    · by_cases hlen : (t.fragments payload).length = packetCount payload
      · rw [proceed_last hone hlen]
        cases left <;> simp [hone]
      · rw [proceed_fragment hone hlen]
        cases left <;> simp [hone]
  | answered d => cases reliable payload <;> simp [TargetData.proceed]
  | remembered d => simp [TargetData.proceed, eq_comm]
  | assembled d => cases reliable payload <;> simp [TargetData.proceed, eq_comm]

/-- What a thread is going to hand over it hands over in its next step, or it is still going to
after it. -/
theorem due_proceed {stage : Stage} {message : Delivery} (hd : stage.due = some message) :
    (t.proceed payload timedOut stage).delivered = some message ∨
      ∃ stage' ∈ (t.proceed payload timedOut stage).stage, stage'.due = some message := by
  cases stage with
  | looked => exact nomatch hd
  | answered d => exact .inr ⟨.remembered d, rfl, hd⟩
  | remembered d => exact .inl hd
  | assembled d => exact .inl hd

/-- A thread hands over what it was going to. -/
theorem due_of_delivered {stage : Stage} {message : Delivery}
    (hd : (t.proceed payload timedOut stage).delivered = some message) :
    stage.due = some message := by
  cases stage with
  | looked =>
    rw [TargetData.proceed] at hd
    split_ifs at hd
    simp only at hd
    split_ifs at hd
  | answered d => exact nomatch hd
  | remembered d => exact hd
  | assembled d => exact hd

end

/-! ### What the steps do -/

/-- What a reception does: the datagram is one in flight, and its type decides. -/
theorem linkStep_receive (hst : linkStep s (.receive b k) = some s') :
    ∃ x, (s.inFlight b)[k]? = some x ∧
      ((∃ type, isPacket x.2 = true ∧ packetType x.2 = some type ∧
          s' = s.received b type x.1 x.2) ∨
        (isData x.2 = false ∧ s' = s)) := by
  obtain ⟨x, hx, hst⟩ := Option.bind_eq_some_iff.mp hst
  refine ⟨x, hx, ?_⟩
  cases hp : isPacket x.2 with
  | false =>
    rw [hp] at hst
    exact .inr ⟨by rw [isData, hp, Bool.false_and], (Option.some.inj hst).symm⟩
  | true =>
    rw [hp] at hst
    cases htype : packetType x.2 with
    | none =>
      rw [htype] at hst
      exact .inr ⟨by rw [isData, hp, htype]; rfl, (Option.some.inj hst).symm⟩
    | some type =>
      rw [htype] at hst
      exact .inl ⟨type, rfl, rfl, (Option.some.inj hst).symm⟩

/-- What a step of a thread does: there is such a thread, it does not wait for the mutex, and it has
taken its next step. -/
theorem linkStep_proceed (hst : linkStep s (.proceed b j timedOut) = some s') :
    ∃ h, (s.handlers b)[j]? = some h ∧ s.blocked b h = false ∧
      s' = s.proceeded b j h timedOut := by
  obtain ⟨h, hj, hst⟩ := Option.bind_eq_some_iff.mp hst
  cases hblocked : s.blocked b h with
  | true =>
    rw [hblocked, if_pos rfl] at hst
    exact nomatch hst
  | false =>
    rw [hblocked, if_neg Bool.false_ne_true] at hst
    exact ⟨h, hj, hblocked, (Option.some.inj hst).symm⟩

/-- What a node does with a packet of a message. -/
theorem received_data (htype : type = .data ∨ type = .dataRetransmission) :
    s.received b type n payload = s.lookUp b (type == .dataRetransmission) n payload := by
  rcases htype with rfl | rfl <;> rfl

/-- The threads after a step: the others, and the one that has taken it. -/
theorem mem_settle {l : List Handler} {o : Option Stage} {h' : Handler}
    (hmem : h' ∈ settle l j h o) : h' ∈ l ∨ ∃ stage ∈ o, h' = { h with stage := stage } := by
  cases o with
  | none => exact .inl (List.mem_of_mem_eraseIdx hmem)
  | some stage => exact (List.mem_or_eq_of_mem_set hmem).imp_right fun heq => ⟨stage, rfl, heq⟩

/-- Another thread stays. -/
theorem mem_settle_of_ne {l : List Handler} {o : Option Stage} {h' : Handler} (hj : l[j]? = some h)
    (hmem : h' ∈ l) (hne : h' ≠ h) : h' ∈ settle l j h o := by
  obtain ⟨i, hi⟩ := List.mem_iff_getElem?.mp hmem
  have hij : i ≠ j := by
    rintro rfl
    exact hne (Option.some.inj (hi.symm.trans hj))
  cases o with
  | none => exact List.mem_eraseIdx_iff_getElem?.mpr ⟨i, hij, hi⟩
  | some stage =>
    refine List.mem_iff_getElem?.mpr ⟨i, ?_⟩
    show (l.set j _)[i]? = _
    rw [List.getElem?_set_ne (Ne.symm hij)]
    exact hi

theorem mem_settle_self {l : List Handler} {stage : Stage} (hj : l[j]? = some h) :
    { h with stage := stage } ∈ settle l j h (some stage) := by
  obtain ⟨hlt, -⟩ := List.getElem?_eq_some_iff.mp hj
  exact List.mem_iff_getElem?.mpr ⟨j, List.getElem?_set_self hlt⟩

/-- The threads of a node, up to their order: one, and the others. -/
theorem perm_eraseIdx {l : List Handler} (hj : l[j]? = some h) : l.Perm (h :: l.eraseIdx j) := by
  obtain ⟨hlt, rfl⟩ := List.getElem?_eq_some_iff.mp hj
  exact (List.getElem_cons_eraseIdx_perm hlt).symm

theorem perm_settle {l : List Handler} {o : Option Stage} (hj : l[j]? = some h) :
    (settle l j h o).Perm
      ((o.toList.map fun stage => { h with stage := stage }) ++ l.eraseIdx j) := by
  obtain ⟨hlt, -⟩ := List.getElem?_eq_some_iff.mp hj
  cases o with
  | none => exact List.Perm.refl _
  | some stage => exact List.set_perm_cons_eraseIdx hlt _

/-! ### The numbers of the sends -/

/-- The sends are numbered: each number is of one send, and below the number of the next one. -/
structure Numbered (s : Link) : Prop where
  lt : ∀ n b hash message, .sent n b hash message ∈ s.trace → n < s.nextSend
  unique : ∀ n b hash message b' hash' message', .sent n b hash message ∈ s.trace →
    .sent n b' hash' message' ∈ s.trace → b = b' ∧ hash = hash' ∧ message = message'

theorem numbered_start (mtu : Bool → ℕ) : Numbered (.start mtu) :=
  ⟨fun _ _ _ _ hmem => absurd hmem List.not_mem_nil,
    fun _ _ _ _ _ _ _ hmem => absurd hmem List.not_mem_nil⟩

/-- Nothing is sent. -/
theorem Numbered.of_trace (hs : Numbered s) (hnext : s'.nextSend = s.nextSend)
    (hsent : ∀ n b hash message, .sent n b hash message ∈ s'.trace →
      .sent n b hash message ∈ s.trace) : Numbered s' :=
  ⟨fun n b hash message hmem => hnext ▸ hs.lt n b hash message (hsent _ _ _ _ hmem),
    fun _ _ _ _ _ _ _ hmem hmem' =>
      hs.unique _ _ _ _ _ _ _ (hsent _ _ _ _ hmem) (hsent _ _ _ _ hmem')⟩

theorem Numbered.sendAs {id hash : ℕ} (hs : Numbered s) :
    Numbered (s.sendAs b id hash payload) := by
  have hcases {n : ℕ} {b' : Bool} {hash' : ℕ} {message' : Bytes}
      (hmem : .sent n b' hash' message' ∈ (s.sendAs b id hash payload).trace) :
      (n = s.nextSend ∧ b' = b ∧ hash' = hash ∧ message' = payload) ∨
        .sent n b' hash' message' ∈ s.trace ∧ n < s.nextSend := by
    rcases List.mem_cons.mp hmem with heq | hmem
    · obtain ⟨rfl, rfl, rfl, rfl⟩ := LinkEvent.sent.inj heq
      exact .inl ⟨rfl, rfl, rfl, rfl⟩
    · exact .inr ⟨hmem, hs.lt _ _ _ _ hmem⟩
  refine ⟨fun n b' hash' message' hmem => ?_, fun n b₁ hash₁ message₁ b₂ hash₂ message₂ h₁ h₂ => ?_⟩
  · show n < s.nextSend + 1
    rcases hcases hmem with ⟨rfl, -⟩ | ⟨-, hlt⟩ <;> omega
  · rcases hcases h₁ with ⟨rfl, rfl, rfl, rfl⟩ | ⟨h₁, hlt⟩
    · rcases hcases h₂ with ⟨-, rfl, rfl, rfl⟩ | ⟨-, hlt⟩
      · exact ⟨rfl, rfl, rfl⟩
      · exact absurd hlt (Nat.lt_irrefl _)
    · rcases hcases h₂ with ⟨rfl, -⟩ | ⟨h₂, -⟩
      · exact absurd hlt (Nat.lt_irrefl _)
      · exact hs.unique _ _ _ _ _ _ _ h₁ h₂

/-- What is sent is only what `send` sends. -/
theorem sent_mem_worked {t : TargetData} {responses : List Bytes} {handlers : List Handler}
    {events : List LinkEvent} {c d : Bool} {m hash : ℕ} {message : Bytes}
    (hevents : ∀ m hash message, .sent m d hash message ∉ events)
    (hmem : .sent m d hash message ∈ (s.worked c n t responses handlers events).trace) :
    .sent m d hash message ∈ s.trace :=
  (List.mem_append.mp hmem).resolve_left (hevents m hash message)

theorem sent_mem_responded {r : Reception} {d : Bool} {m hash : ℕ} {message : Bytes}
    (hmem : .sent m d hash message ∈ (s.responded b payload r).trace) :
    .sent m d hash message ∈ s.trace := by
  refine (List.mem_append.mp hmem).resolve_left fun hmem => ?_
  obtain ⟨id, -, heq⟩ := Option.map_eq_some_iff.mp (Option.mem_toList.mp hmem)
  exact LinkEvent.noConfusion heq

/-- **The steps with which nothing is sent.**  All steps but `send` leave the number of the next
send, and the sends in the trace. -/
theorem quiet_of_step {a : LinkAction} (hst : linkStep s a = some s')
    (ha : ∀ b hash payload, a ≠ .send b hash payload) : s'.nextSend = s.nextSend ∧
      ∀ m d hash message, .sent m d hash message ∈ s'.trace → .sent m d hash message ∈ s.trace := by
  cases a with
  | send b hash payload => exact absurd rfl (ha b hash payload)
  | retransmit b id =>
    obtain ⟨q, -, hst⟩ := Option.bind_eq_some_iff.mp hst
    obtain ⟨t, -, hst⟩ := Option.bind_eq_some_iff.mp hst
    obtain rfl := Option.some.inj hst
    exact ⟨rfl, fun _ _ _ _ hmem => hmem⟩
  | lose b k =>
    obtain rfl := Option.some.inj hst
    exact ⟨rfl, fun _ _ _ _ hmem => hmem⟩
  | receive b k =>
    obtain ⟨x, -, ⟨type, -, -, rfl⟩ | ⟨-, rfl⟩⟩ := linkStep_receive hst
    · cases type with
      | data | dataRetransmission =>
        rw [received_data (by simp), lookUp]
        split_ifs <;> exact ⟨rfl, fun _ _ _ _ hmem => hmem⟩
      | ack | nack => exact ⟨rfl, fun _ _ _ _ => sent_mem_responded⟩
      | announce | leave => exact ⟨rfl, fun _ _ _ _ hmem => hmem⟩
    · exact ⟨rfl, fun _ _ _ _ hmem => hmem⟩
  | proceed b j timedOut =>
    obtain ⟨h, -, -, rfl⟩ := linkStep_proceed hst
    exact ⟨rfl, fun _ _ _ _ => sent_mem_worked fun _ _ _ => not_sent_mem_events⟩

theorem Numbered.step {a : LinkAction} (hs : Numbered s) (hst : linkStep s a = some s') :
    Numbered s' := by
  cases a with
  | send b hash payload =>
    obtain ⟨id, -, rfl⟩ := Option.map_eq_some_iff.mp hst
    exact hs.sendAs
  | _ =>
    obtain ⟨hnext, hsent⟩ := quiet_of_step hst fun _ _ _ => LinkAction.noConfusion
    exact hs.of_trace hnext fun n b hash message => hsent n b hash message

end Link

end

end Network
end Extension
end NUClear
