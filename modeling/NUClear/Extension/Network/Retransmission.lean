import NUClear.Extension.Network.Fragmentation
import NUClear.Extension.Network.Peers
import NUClear.Foundation.Reachability
import NUClear.Foundation.SharedDeadline

/-!
# The send queue of a node, in time (`NUClearNetwork.cpp`)

A reliable message stays in the send queue of a node until its targets have acknowledged it.
`retransmit`, which `process` calls, sends it again to a target that has not done so within the time
of a round trip.  Nothing but a wake-up or a packet calls `process`, so when a message is sent again
depends on the wake-ups that the node has asked for: `next_event_callback` was called with their
times.

This module is the model: what the calls do to the queues, to the targets and to the timer.  What
follows for the wake-ups is in `NextEvent`.

* `Node`: what the timer depends on.  A target is known by a number, as a node may leave and join
  again, and a queue holds `weak_ptr`s to the targets.
* `step`: a call reads the clock at its start, and `process` once more for `retransmit`.  The filter
  of the round trip time calculates in floats; what it makes of a measurement is an input of the
  step.

## What a step can do

* `Calls`, `calls_of_step`: the calls, one constructor for each.
* `Continues`, `continues_of_step`: every target that waits in a queue after a call waited before
  it, or is sent to by it.
* `Numbered`: the numbers are the targets' own, those of targets that have left too.
* `SentBy`: no message was sent later than the clock says.
* `timer_retransmit`, `mem_retransmit`: what `retransmit` asks for, and what it leaves in the
  queues.
-/

namespace NUClear
namespace Extension
namespace Network
namespace Retransmission

open Foundation

/-! ## The state -/

/-- Times are in nanoseconds, as those of `steady_clock`; the intervals of the source are given in
milliseconds. -/
def milliseconds (n : ℕ) : ℤ := n * 10 ^ 6

/-- `NetworkTarget`, as far as the timer depends on it.  The number tells the objects apart that
`weak_ptr`s may refer to, also when two of them have had the same name and address. -/
structure NetworkTarget where
  number : ℕ
  name : String
  address : Key
  lastUpdate : ℤ
  roundTripTime : ℤ
  deriving DecidableEq, Repr

/-- `PacketQueue::PacketTarget`: the target by its number, the bits of the packets that it has
acknowledged, and when the message was sent to it last. -/
structure PacketTarget where
  target : ℕ
  acked : Bytes
  lastSend : ℤ
  deriving DecidableEq, Repr

/-- `PacketQueue`: a reliable message that is kept until all its targets have acknowledged it or
have left. -/
structure PacketQueue where
  packetId : ℕ
  packetCount : ℕ
  targets : List PacketTarget
  deriving DecidableEq, Repr

/-- What the timer of a node depends on: the targets, the messages that wait for an ACK, the time of
the last announcement, and `next_event` itself. -/
structure Node where
  /-- The list of targets has its first, for all. -/
  connected : Bool
  /-- `targets` without the first. -/
  targets : List NetworkTarget
  /-- `send_queue`, in the order of the ids. -/
  sendQueue : List PacketQueue
  packetIdSource : ℕ
  packetDataMtu : ℕ
  lastAnnounce : ℤ
  /-- `next_event`, and the wake-ups that `next_event_callback` was called for. -/
  timer : Timer ℤ
  /-- The number of the next target. -/
  nextNumber : ℕ
  /-- The latest reading of the clock. -/
  clock : ℤ

namespace Node

/-- A node before its first `reset`: it is not connected and has asked for no wake-up. -/
def start : Node := ⟨false, [], [], 0, 1000, 0, ⟨0, []⟩, 0, 0⟩

/-- `udp_target.find`: the target that a packet has come from, by its address and port. -/
def remote (s : Node) (address : Key) : Option NetworkTarget :=
  s.targets.find? (·.address = address)

/-- `lock`, of the `weak_ptr` to a target: the target, as long as it has not been removed from the
list. -/
def lock (s : Node) (t : PacketTarget) : Option NetworkTarget :=
  s.targets.find? (·.number = t.target)

/-- The target with this number is changed in place; there is none when it has left. -/
def modifyTarget (s : Node) (number : ℕ) (f : NetworkTarget → NetworkTarget) : Node :=
  { s with targets := s.targets.map fun p => if p.number = number then f p else p }

/-- The queue with this packet id is changed in place, where it is in the order of the ids. -/
def setQueue (s : Node) (q : PacketQueue) : Node :=
  { s with sendQueue := s.sendQueue.map fun r => if r.packetId = q.packetId then q else r }

/-- `send_queue.erase`: all that is kept of the message with this packet id is dropped. -/
def eraseQueue (s : Node) (id : ℕ) : Node :=
  { s with sendQueue := s.sendQueue.filter (·.packetId ≠ id) }

/-- `send_queue[id]`, for an id that is not in it: the map is ordered by the ids. -/
def insertQueue (s : Node) (q : PacketQueue) : Node :=
  { s with sendQueue := s.sendQueue.takeWhile (·.packetId < q.packetId) ++ q ::
      s.sendQueue.dropWhile (·.packetId < q.packetId) }

/-! ## The calls -/

/-- `reset`: the node is connected, all it knew of its peers and all messages that waited are
dropped, and the size of the packets follows from the MTU.  `next_event` and `last_announce` stay as
they were. -/
def reset (s : Node) (networkMtu : BitVec 16) : Node :=
  { s with
    connected := true
    targets := []
    sendQueue := []
    packetDataMtu := (Network.packetDataMtu networkMtu).toNat }

/-- `while (send_queue.count(++packet_id_source) > 0)`: the next 16 bit id that is not in use.  The
search ends when all the ids have been tried. -/
def nextId (s : Node) : ℕ → ℕ → Option ℕ
  | 0, _ => none
  | k + 1, id =>
      if s.sendQueue.all (·.packetId ≠ (id + 1) % 2 ^ 16) then some ((id + 1) % 2 ^ 16)
      else nextId s k ((id + 1) % 2 ^ 16)

/-- The targets that a message is for; the source goes through them by name, and by age for one
name. -/
def addressed (s : Node) (target : String) : List NetworkTarget :=
  if target = "" then s.targets else s.targets.filter (·.name = target)

/-- What `send` keeps of a reliable message: a queue with a target for each peer that it is for,
none of whose packets is acknowledged, and a wake-up for each of them after its round trip time. -/
def keep (s : Node) (now : ℤ) (id count : ℕ) (target : String) : Node :=
  { s.insertQueue
      ⟨id, count, (s.addressed target).map fun p =>
        ⟨p.number, List.replicate (count / 8 + 1) 0, now⟩⟩ with
    timer := s.timer.requestAll ((s.addressed target).map fun p => now + p.roundTripTime) }

/-- `send`.  It throws when the node is not connected, and then nothing is changed.  An unreliable
message takes a packet id too, and nothing else is kept of it. -/
def send (s : Node) (now : ℤ) (payload : Bytes) (target : String) (reliable : Bool) :
    Option Node :=
  if s.connected then
    (s.nextId (2 ^ 16) s.packetIdSource).map fun id =>
      let s := { s with packetIdSource := id }
      if reliable then s.keep now id (messageCount s.packetDataMtu payload) target else s
  else some s

/-- `retransmit`, for the targets of a queue.  A target that has left is dropped.  One whose ACK is
overdue is sent to, and the timer is asked to wake the node up after another round trip time. -/
def retransmitTargets (s : Node) (now : ℤ) :
    Timer ℤ → List PacketTarget → Timer ℤ × List PacketTarget
  | m, [] => (m, [])
  | m, t :: l =>
      match s.lock t with
      | some p =>
          if t.lastSend + p.roundTripTime < now then
            let r := s.retransmitTargets now (m.request (now + p.roundTripTime)) l
            (r.1, { t with lastSend := now } :: r.2)
          else
            let r := s.retransmitTargets now m l
            (r.1, t :: r.2)
      | none => s.retransmitTargets now m l

/-- `retransmit`, for the queues in the order of their ids: those that have no target left are
erased. -/
def retransmitQueues (s : Node) (now : ℤ) :
    Timer ℤ → List PacketQueue → Timer ℤ × List PacketQueue
  | m, [] => (m, [])
  | m, q :: l =>
      let r := s.retransmitTargets now m q.targets
      let r' := s.retransmitQueues now r.1 l
      (r'.1, if r.2 = [] then r'.2 else { q with targets := r.2 } :: r'.2)

/-- `retransmit`: all the queues are gone through.  The source reads the clock for each target; here
one reading serves for all of them. -/
def retransmit (s : Node) (now : ℤ) : Node :=
  let r := s.retransmitQueues now s.timer s.sendQueue
  { s with timer := r.1, sendQueue := r.2 }

/-- It is time to announce: the last announcement was more than 500 ms ago. -/
def announces (s : Node) (now : ℤ) : Prop := milliseconds 500 < now - s.lastAnnounce

instance (s : Node) (now : ℤ) : Decidable (s.announces now) :=
  inferInstanceAs (Decidable (_ < _))

/-- The first part of `process`: when it is time to, it announces and moves `next_event` to the next
announcement, but only to a later time. -/
def afterAnnounce (s : Node) (now : ℤ) : Node :=
  if s.announces now then
    { s with lastAnnounce := now, timer := s.timer.postpone (now + milliseconds 500) }
  else s

/-- Nothing was heard of the target for more than 2 s. -/
def timedOut (now : ℤ) (p : NetworkTarget) : Prop := milliseconds 2000 < now - p.lastUpdate

instance (now : ℤ) (p : NetworkTarget) : Decidable (timedOut now p) :=
  inferInstanceAs (Decidable (_ < _))

/-- The second part of `process`: the targets of which nothing was heard for too long are removed.
What waits for them in the queues is dropped by the next `retransmit`. -/
def withoutTimedOut (s : Node) (now : ℤ) : Node :=
  { s with targets := s.targets.filter fun p => ¬ timedOut now p }

/-- The wake-up that a call of `process` is for has come, and is not pending any more; there is none
when `process` is called since a socket has something to read. -/
def wake (s : Node) (woken : Option ℤ) : Node :=
  { s with timer := woken.elim s.timer s.timer.consume }

/-- `process`, up to the packets, which are steps of their own here.  The clock is read at its
start, and again by `retransmit`, which is called only when a message waits. -/
def process (s : Node) (now later : ℤ) : Node :=
  let s := (s.afterAnnounce now).withoutTimedOut now
  if s.sendQueue = [] then s else s.retransmit later

/-- `process` when the announcement is not sent: it throws when it has stored the time of the
announcement, and before it has looked at `next_event`. -/
def processThrows (s : Node) (now : ℤ) : Node := { s with lastAnnounce := now }

/-- ANNOUNCE, from a node that is not known.  It becomes a target with a round trip time of one
second, unless its name is empty, which is reserved for the targets that stand for all. -/
def join (s : Node) (now : ℤ) (address : Key) (name : String) : Node :=
  if name = "" then s
  else
    { s with
      targets := s.targets ++ [⟨s.nextNumber, name, address, now, milliseconds 1000⟩]
      nextNumber := s.nextNumber + 1 }

/-- A packet has come from a target that is known: the time is stored, so that it does not time out.
-/
def heard (s : Node) (now : ℤ) (p : NetworkTarget) : Node :=
  s.modifyTarget p.number fun p => { p with lastUpdate := now }

/-- ANNOUNCE: a node that is not known joins, and of one that is known something was heard. -/
def receiveAnnounce (s : Node) (now : ℤ) (address : Key) (name : String) : Node :=
  match s.remote address with
  | none => s.join now address name
  | some p => s.heard now p

/-- LEAVE: `remove_target`, when the node is known.  The queues keep their entries for it. -/
def receiveLeave (s : Node) (address : Key) : Node :=
  { s with targets := s.targets.filter (·.address ≠ address) }

/-- DATA, as far as the timer goes: something was heard of the target, if it is known. -/
def receiveData (s : Node) (now : ℤ) (address : Key) : Node :=
  (s.remote address).elim s (s.heard now)

/-- A target that waits in a queue, with the place of its entry: what the handlers of ACK and NACK
look for. -/
structure Waiting where
  target : NetworkTarget
  queue : PacketQueue
  place : ℕ
  entry : PacketTarget

/-- What a packet is about: the target that it has come from, the queue with the packet's id, and
the first entry of the target in it. -/
def about (s : Node) (address : Key) (payload : Bytes) : Option Waiting := do
  let p ← s.remote address
  let q ← s.sendQueue.find? (·.packetId = packetId payload)
  let i := q.targets.findIdx (·.target = p.number)
  let t ← q.targets[i]?
  return ⟨p, q, i, t⟩

/-- What a valid ACK is about: it counts the packets as the message does, and it is as long as its
bits for that count are. -/
def aboutAck (s : Node) (address : Key) (payload : Bytes) : Option Waiting :=
  (s.about address payload).filter fun x =>
    packetCount payload = x.queue.packetCount ∧
      payload.length = sizeofACKPacket + x.queue.packetCount / 8

/-- What a valid NACK is about: it counts the packets as the message does, and it is as long as its
bits for that count are. -/
def aboutNack (s : Node) (address : Key) (payload : Bytes) : Option Waiting :=
  (s.about address payload).filter fun x =>
    nackCount payload = x.queue.packetCount ∧
      payload.length = sizeofNACKPacket + x.queue.packetCount / 8

/-- All packets of the message are acknowledged when the bits of this ACK are added to those of the
earlier ones. -/
def Waiting.allAcked (x : Waiting) (payload : Bytes) : Bool :=
  Network.allAcked (packetCount payload) (ackedWith payload x.entry.acked)

/-- `measure_round_trip`: the filter makes a round trip time of the measurement, here an arbitrary
one. -/
def measureRoundTrip (s : Node) (p : NetworkTarget) (roundTripTime : ℤ) : Node :=
  s.modifyTarget p.number fun p => { p with roundTripTime := roundTripTime }

/-- The packets of an ACK are acknowledged.  A target that has acknowledged all of them is erased
from its queue, and the queue with its last target. -/
def acknowledge (s : Node) (x : Waiting) (payload : Bytes) : Node :=
  if x.allAcked payload then
    if x.queue.targets.eraseIdx x.place = [] then s.eraseQueue x.queue.packetId
    else s.setQueue { x.queue with targets := x.queue.targets.eraseIdx x.place }
  else
    s.setQueue { x.queue with
      targets := x.queue.targets.set x.place
        { x.entry with acked := ackedWith payload x.entry.acked } }

/-- ACK: something was heard of the target, and if the packet is valid the round trip time is
measured and the packets are acknowledged.  The timer is left as it is. -/
def receiveAck (s : Node) (now : ℤ) (address : Key) (payload : Bytes) (roundTripTime : ℤ) :
    Node :=
  match s.aboutAck address payload with
  | some x =>
      ((s.receiveData now address).measureRoundTrip x.target roundTripTime).acknowledge x payload
  | none => s.receiveData now address

/-- The packets of a NACK are not acknowledged any more.  The time is stored, since they are sent
again, and the timer is asked for a wake-up after the round trip time. -/
def reject (s : Node) (now : ℤ) (x : Waiting) (payload : Bytes) : Node :=
  { s.setQueue { x.queue with
      targets := x.queue.targets.set x.place
        { x.entry with lastSend := now, acked := ackedWithout payload x.entry.acked } } with
    timer := s.timer.request (now + x.target.roundTripTime) }

/-- NACK: something was heard of the target, and if the packet is valid its packets are sent again.
-/
def receiveNack (s : Node) (now : ℤ) (address : Key) (payload : Bytes) : Node :=
  match s.aboutNack address payload with
  | some x => (s.receiveData now address).reject now x payload
  | none => s.receiveData now address

end Node

/-! ## The runs -/

inductive Action where
  | reset (networkMtu : BitVec 16)
  | send (now : ℤ) (payload : Bytes) (target : String) (reliable : Bool)
  /-- `later` is when `retransmit` reads the clock. -/
  | process (woken : Option ℤ) (now later : ℤ)
  /-- The announcement is not sent. -/
  | processThrows (woken : Option ℤ) (now : ℤ)
  | retransmit (now : ℤ)
  | announce (now : ℤ) (address : Key) (name : String)
  | leave (address : Key)
  | data (now : ℤ) (address : Key)
  /-- `roundTripTime` is what the filter makes of the measurement, if there is one. -/
  | ack (now : ℤ) (address : Key) (payload : Bytes) (roundTripTime : ℤ)
  | nack (now : ℤ) (address : Key) (payload : Bytes)
  deriving DecidableEq, Repr

/-- The wake-up that a call is for; only `process` is called for one. -/
def Action.woken : Action → Option ℤ
  | .process woken .. | .processThrows woken _ => woken
  | _ => none

namespace Node

/-- The clock is read: `steady_clock` never goes back. -/
def readClock (s : Node) (now : ℤ) : Option Node :=
  if s.clock ≤ now then some { s with clock := now } else none

/-- The wake-up, if the call is for one, is one that `next_event_callback` was called for and that
is still pending, and its time has come. -/
def Wakes (s : Node) (woken : Option ℤ) (now : ℤ) : Prop :=
  ∀ w ∈ woken, w ∈ s.timer.pending ∧ w ≤ now

instance (s : Node) (woken : Option ℤ) (now : ℤ) : Decidable (s.Wakes woken now) :=
  inferInstanceAs (Decidable (∀ w ∈ woken, _))

/-- One step: a call of a public function, or one packet of those that `process` reads, each with
its readings of the clock. -/
def step (s : Node) : Action → Option Node
  | .reset networkMtu => some (s.reset networkMtu)
  | .send now payload target reliable =>
      (s.readClock now).bind fun s => s.send now payload target reliable
  | .process woken now later =>
      if s.Wakes woken now ∧ now ≤ later then
        (s.readClock now).bind fun s => ((s.wake woken).process now later).readClock later
      else none
  | .processThrows woken now =>
      if s.Wakes woken now ∧ s.announces now then
        (s.readClock now).map fun s => (s.wake woken).processThrows now
      else none
  | .retransmit now => (s.readClock now).map fun s => s.retransmit now
  | .announce now address name => (s.readClock now).map fun s => s.receiveAnnounce now address name
  | .leave address => some (s.receiveLeave address)
  | .data now address => (s.readClock now).map fun s => s.receiveData now address
  | .ack now address payload roundTripTime =>
      (s.readClock now).map fun s => s.receiveAck now address payload roundTripTime
  | .nack now address payload => (s.readClock now).map fun s => s.receiveNack now address payload

/-- When a target is to have acknowledged a message: a round trip time after it was sent to it last.
-/
def deadline (t : PacketTarget) (p : NetworkTarget) : ℤ := t.lastSend + p.roundTripTime

/-- The targets of the queue that an ACK leaves: without this one, if it has acknowledged all
packets. -/
def Waiting.left (x : Waiting) (payload : Bytes) : List PacketTarget :=
  if x.allAcked payload then x.queue.targets.eraseIdx x.place else x.queue.targets

/-! ## Numbers -/

/-- The numbers of the targets are their own, and those of targets that have left are not used
again.  So an entry of a queue refers to at most one target. -/
structure Numbered (s : Node) : Prop where
  unique : ∀ p ∈ s.targets, ∀ p' ∈ s.targets, p.number = p'.number → p = p'
  number_lt : ∀ p ∈ s.targets, p.number < s.nextNumber
  target_lt : ∀ q ∈ s.sendQueue, ∀ t ∈ q.targets, t.target < s.nextNumber

/-- No message that waits was sent later than this; so it is for the time of the last reading of the
clock. -/
def SentBy (s : Node) (time : ℤ) : Prop :=
  ∀ q ∈ s.sendQueue, ∀ t ∈ q.targets, t.lastSend ≤ time

theorem numbered_start : Numbered start where
  unique _ h := absurd h List.not_mem_nil
  number_lt _ h := absurd h List.not_mem_nil
  target_lt _ h := absurd h List.not_mem_nil

variable {s s' : Node} {now later time rtt : ℤ} {address : Key} {payload : Bytes}
  {t : PacketTarget} {p : NetworkTarget} {q : PacketQueue} {x : Waiting} {m : Timer ℤ}
  {f : NetworkTarget → NetworkTarget} {n : ℕ}

/-! ### The lists -/

theorem mem_insertQueue {r : PacketQueue} (h : r ∈ (s.insertQueue q).sendQueue) :
    r = q ∨ r ∈ s.sendQueue := by
  rcases List.mem_append.mp h with hmem | hmem
  · exact .inr (List.takeWhile_subset _ hmem)
  · exact (List.mem_cons.mp hmem).imp id fun hmem => List.dropWhile_subset _ hmem

theorem mem_setQueue {r : PacketQueue} (h : r ∈ (s.setQueue q).sendQueue) :
    r = q ∨ r ∈ s.sendQueue ∧ r.packetId ≠ q.packetId := by
  obtain ⟨r', hr', rfl⟩ := List.mem_map.mp h
  split_ifs with hid
  · exact .inl rfl
  · exact .inr ⟨hr', hid⟩

theorem mem_eraseQueue {r : PacketQueue} {id : ℕ} (h : r ∈ (s.eraseQueue id).sendQueue) :
    r ∈ s.sendQueue ∧ r.packetId ≠ id := by
  obtain ⟨hr, hid⟩ := List.mem_filter.mp h
  exact ⟨hr, of_decide_eq_true hid⟩

theorem mem_modifyTarget (h : p ∈ (s.modifyTarget n f).targets) :
    ∃ p' ∈ s.targets, p = if p'.number = n then f p' else p' := by
  obtain ⟨p', hp', rfl⟩ := List.mem_map.mp h
  exact ⟨p', hp', rfl⟩

theorem mem_addressed {target : String} (h : p ∈ s.addressed target) : p ∈ s.targets := by
  rw [addressed] at h
  split_ifs at h
  · exact h
  · exact List.mem_of_mem_filter h

/-- What a packet is about is a target of the node, a queue of it, and an entry of that queue for
that target. -/
theorem mem_about (h : s.about address payload = some x) :
    x.target ∈ s.targets ∧ x.queue ∈ s.sendQueue ∧ x.queue.targets[x.place]? = some x.entry ∧
      x.entry.target = x.target.number := by
  obtain ⟨p, hp, h⟩ := Option.bind_eq_some_iff.mp h
  obtain ⟨q, hq, h⟩ := Option.bind_eq_some_iff.mp h
  obtain ⟨t, ht, h⟩ := Option.bind_eq_some_iff.mp h
  obtain rfl := Option.some.inj h
  refine ⟨List.mem_of_find?_eq_some hp, List.mem_of_find?_eq_some hq, ht, ?_⟩
  obtain ⟨hlt, hget⟩ := List.getElem?_eq_some_iff.mp ht
  exact hget ▸ of_decide_eq_true (List.findIdx_getElem (w := hlt))

theorem mem_aboutAck (h : s.aboutAck address payload = some x) :
    s.about address payload = some x :=
  (Option.filter_eq_some_iff.mp h).1

theorem mem_aboutNack (h : s.aboutNack address payload = some x) :
    s.about address payload = some x :=
  (Option.filter_eq_some_iff.mp h).1

theorem mem_of_mem_left (h : t ∈ x.left payload) : t ∈ x.queue.targets := by
  rw [Waiting.left] at h
  split_ifs at h
  · exact (List.eraseIdx_sublist ..).subset h
  · exact h

/-- What a queue holds after an ACK. -/
theorem mem_acknowledge (ht : x.queue.targets[x.place]? = some x.entry)
    (hq : q ∈ (s.acknowledge x payload).sendQueue) (hmem : t ∈ q.targets) :
    ∃ t', t'.target = t.target ∧ t'.lastSend = t.lastSend ∧
      ((∃ q' ∈ s.sendQueue, q'.packetId ≠ x.queue.packetId ∧ t' ∈ q'.targets) ∨
        t' ∈ x.left payload) := by
  rw [acknowledge] at hq
  rw [Waiting.left]
  split_ifs at hq ⊢ with hall hempty
  · obtain ⟨hq, hid⟩ := mem_eraseQueue hq
    exact ⟨t, rfl, rfl, .inl ⟨q, hq, hid, hmem⟩⟩
  · rcases mem_setQueue hq with rfl | ⟨hq, hid⟩
    · exact ⟨t, rfl, rfl, .inr hmem⟩
    · exact ⟨t, rfl, rfl, .inl ⟨q, hq, hid, hmem⟩⟩
  · rcases mem_setQueue hq with rfl | ⟨hq, hid⟩
    · rcases List.mem_or_eq_of_mem_set hmem with hmem | rfl
      · exact ⟨t, rfl, rfl, .inr hmem⟩
      · exact ⟨x.entry, rfl, rfl, .inr (List.mem_of_getElem? ht)⟩
    · exact ⟨t, rfl, rfl, .inl ⟨q, hq, hid, hmem⟩⟩

/-- An ACK leaves targets that were in the queues. -/
theorem mem_queues_of_mem_acknowledge (hqueue : x.queue ∈ s.sendQueue)
    (ht : x.queue.targets[x.place]? = some x.entry)
    (hq : q ∈ (s.acknowledge x payload).sendQueue) (hmem : t ∈ q.targets) :
    ∃ q' ∈ s.sendQueue, ∃ t' ∈ q'.targets, t'.target = t.target ∧ t'.lastSend = t.lastSend := by
  obtain ⟨t', htarget, hsend, ⟨q', hq', -, hmem'⟩ | hmem'⟩ := mem_acknowledge ht hq hmem
  · exact ⟨q', hq', t', hmem', htarget, hsend⟩
  · exact ⟨x.queue, hqueue, t', mem_of_mem_left hmem', htarget, hsend⟩

/-- What a queue holds after a NACK. -/
theorem mem_reject (hqueue : x.queue ∈ s.sendQueue) (hq : q ∈ (s.reject now x payload).sendQueue)
    (hmem : t ∈ q.targets) : (∃ q' ∈ s.sendQueue, t ∈ q'.targets) ∨
      t.target = x.entry.target ∧ t.lastSend = now := by
  rcases mem_setQueue hq with rfl | ⟨hq, -⟩
  · rcases List.mem_or_eq_of_mem_set hmem with hmem | rfl
    · exact .inl ⟨x.queue, hqueue, hmem⟩
    · exact .inr ⟨rfl, rfl⟩
  · exact .inl ⟨q, hq, hmem⟩

/-! ### `retransmit` -/

/-- The wake-up that `retransmit` asks for when it comes to a target: one round trip time from now,
if the target has not left and its ACK is overdue. -/
def asked (s : Node) (now : ℤ) (t : PacketTarget) : Option ℤ :=
  (s.lock t).bind fun p => if deadline t p < now then some (now + p.roundTripTime) else none

theorem requestAll_append (m : Timer ℤ) (l l' : List ℤ) :
    m.requestAll (l ++ l') = (m.requestAll l).requestAll l' :=
  List.foldl_append

theorem fst_retransmitTargets (m : Timer ℤ) (l : List PacketTarget) :
    (s.retransmitTargets now m l).1 = m.requestAll (l.filterMap (s.asked now)) := by
  induction l generalizing m with
  | nil => rfl
  | cons t l ih =>
    rw [retransmitTargets]
    cases hlock : s.lock t with
    | none =>
      have hnone : s.asked now t = none := by rw [asked, hlock, Option.bind_none]
      rw [List.filterMap_cons_none hnone]
      exact ih m
    | some p =>
      by_cases hdue : deadline t p < now
      · have hsome : s.asked now t = some (now + p.roundTripTime) := by
          rw [asked, hlock, Option.bind_some, if_pos hdue]
        rw [List.filterMap_cons_some hsome]
        show (if deadline t p < now then _ else _ : Timer ℤ × List PacketTarget).1 = _
        rw [if_pos hdue]
        exact ih _
      · have hnone : s.asked now t = none := by rw [asked, hlock, Option.bind_some, if_neg hdue]
        rw [List.filterMap_cons_none hnone]
        show (if deadline t p < now then _ else _ : Timer ℤ × List PacketTarget).1 = _
        rw [if_neg hdue]
        exact ih m

/-- What has become of a target that was due, and of one that was not: it was sent to now, or it is
as it was; in both cases it has not left. -/
theorem mem_retransmitTargets {l : List PacketTarget} (h : t ∈ (s.retransmitTargets now m l).2) :
    ∃ t' ∈ l, ∃ p, s.lock t' = some p ∧
      t = if deadline t' p < now then { t' with lastSend := now } else t' := by
  induction l generalizing m with
  | nil => exact absurd h List.not_mem_nil
  | cons t' l ih =>
    have hrest {m : Timer ℤ} (h : t ∈ (s.retransmitTargets now m l).2) :
        ∃ t'' ∈ t' :: l, ∃ p, s.lock t'' = some p ∧
          t = if deadline t'' p < now then { t'' with lastSend := now } else t'' := by
      obtain ⟨t'', hmem, hp⟩ := ih h
      exact ⟨t'', List.mem_cons_of_mem _ hmem, hp⟩
    rw [retransmitTargets] at h
    split at h
    · next p hlock =>
      split_ifs at h with hdue
      · rcases List.mem_cons.mp h with rfl | h
        · exact ⟨t', List.mem_cons_self, p, hlock, (if_pos hdue).symm⟩
        · exact hrest h
      · rcases List.mem_cons.mp h with rfl | h
        · exact ⟨t, List.mem_cons_self, p, hlock, (if_neg hdue).symm⟩
        · exact hrest h
    · exact hrest h

theorem fst_retransmitQueues (m : Timer ℤ) (l : List PacketQueue) :
    (s.retransmitQueues now m l).1 =
      m.requestAll (l.flatMap fun q => q.targets.filterMap (s.asked now)) := by
  induction l generalizing m with
  | nil => rfl
  | cons q l ih =>
    rw [List.flatMap_cons, requestAll_append, ← fst_retransmitTargets]
    exact ih _

theorem mem_retransmitQueues {l : List PacketQueue} (h : q ∈ (s.retransmitQueues now m l).2)
    (ht : t ∈ q.targets) : ∃ q' ∈ l, ∃ m', t ∈ (s.retransmitTargets now m' q'.targets).2 := by
  induction l generalizing m with
  | nil => exact absurd h List.not_mem_nil
  | cons q' l ih =>
    have hrest {m : Timer ℤ} (h : q ∈ (s.retransmitQueues now m l).2) :
        ∃ q'' ∈ q' :: l, ∃ m', t ∈ (s.retransmitTargets now m' q''.targets).2 := by
      obtain ⟨q'', hmem, hm⟩ := ih h
      exact ⟨q'', List.mem_cons_of_mem _ hmem, hm⟩
    rw [retransmitQueues] at h
    split_ifs at h with hempty
    · exact hrest h
    · rcases List.mem_cons.mp h with rfl | h
      · exact ⟨q', List.mem_cons_self, m, ht⟩
      · exact hrest h

/-- What a queue holds after `retransmit`. -/
theorem mem_retransmit (hq : q ∈ (s.retransmit now).sendQueue) (ht : t ∈ q.targets) :
    ∃ q' ∈ s.sendQueue, ∃ t' ∈ q'.targets, ∃ p, s.lock t' = some p ∧
      t = if deadline t' p < now then { t' with lastSend := now } else t' := by
  obtain ⟨q', hq', m', hmem⟩ := mem_retransmitQueues hq ht
  exact ⟨q', hq', mem_retransmitTargets hmem⟩

theorem timer_retransmit : (s.retransmit now).timer =
    s.timer.requestAll (s.sendQueue.flatMap fun q => q.targets.filterMap (s.asked now)) :=
  fst_retransmitQueues ..

theorem lock_eq (h : Numbered s) (hp : p ∈ s.targets) (ht : p.number = t.target) :
    s.lock t = some p := by
  cases hlock : s.lock t with
  | none => exact absurd (decide_eq_true ht) (List.find?_eq_none.mp hlock p hp)
  | some p' =>
    have hmem := List.mem_of_find?_eq_some hlock
    have hnumber : p'.number = t.target := of_decide_eq_true
      (List.find?_some (p := fun p : NetworkTarget => decide (p.number = t.target)) hlock)
    rw [h.unique p' hmem p hp (hnumber.trans ht.symm)]

/-! ### What a call leaves -/

/-- Every target that waits after a call at `now` waited before, and was sent to when it was or is;
or it is known, and is sent to. -/
def Continues (s s' : Node) (now : ℤ) : Prop :=
  ∀ q ∈ s'.sendQueue, ∀ t ∈ q.targets,
    (∃ q' ∈ s.sendQueue, ∃ t' ∈ q'.targets,
      t'.target = t.target ∧ (t.lastSend = t'.lastSend ∨ t.lastSend = now)) ∨
    t.lastSend = now ∧ ∃ p ∈ s.targets, p.number = t.target

/-- The queues stay as they are, so every target that waits has waited before. -/
theorem continues_of_eq (h : s'.sendQueue = s.sendQueue) : Continues s s' now :=
  fun q hq t ht => .inl ⟨q, h ▸ hq, t, ht, rfl, .inl rfl⟩

theorem SentBy.of_continues (h : s.SentBy time) (hc : Continues s s' now) (hle : now ≤ time) :
    s'.SentBy time := by
  intro q hq t ht
  rcases hc q hq t ht with ⟨q', hq', t', ht', -, heq | heq⟩ | ⟨heq, -⟩
  · exact heq.trans_le (h q' hq' t' ht')
  · exact heq.trans_le hle
  · exact heq.trans_le hle

/-- No target is new, and the queues refer to no others than before: the numbers stay unique. -/
theorem Numbered.of_targets (h : Numbered s) (htargets : ∀ p ∈ s'.targets, p ∈ s.targets)
    (hc : Continues s s' now) (hnumber : s'.nextNumber = s.nextNumber) : Numbered s' where
  unique p hp p' hp' := h.unique p (htargets p hp) p' (htargets p' hp')
  number_lt p hp := hnumber ▸ h.number_lt p (htargets p hp)
  target_lt q hq t ht := by
    rw [hnumber]
    rcases hc q hq t ht with ⟨q', hq', t', ht', heq, -⟩ | ⟨-, p, hp, heq⟩
    · exact heq ▸ h.target_lt q' hq' t' ht'
    · exact heq ▸ h.number_lt p hp

theorem Numbered.modifyTarget (h : Numbered s) (hf : ∀ p, (f p).number = p.number) :
    Numbered (s.modifyTarget n f) := by
  have hnumber (p : NetworkTarget) : (if p.number = n then f p else p).number = p.number := by
    split_ifs
    · exact hf p
    · rfl
  refine ⟨fun p hp p' hp' heq => ?_, fun p hp => ?_, h.target_lt⟩
  · obtain ⟨r, hr, rfl⟩ := mem_modifyTarget hp
    obtain ⟨r', hr', rfl⟩ := mem_modifyTarget hp'
    rw [hnumber, hnumber] at heq
    rw [h.unique r hr r' hr' heq]
  · obtain ⟨r, hr, rfl⟩ := mem_modifyTarget hp
    rw [hnumber]
    exact h.number_lt r hr

theorem continues_keep {id count : ℕ} {target : String} :
    Continues s (s.keep now id count target) now := by
  intro r hr t ht
  rcases mem_insertQueue hr with rfl | hr
  · obtain ⟨p, hp, rfl⟩ := List.mem_map.mp ht
    exact .inr ⟨rfl, p, mem_addressed hp, rfl⟩
  · exact .inl ⟨r, hr, t, ht, rfl, .inl rfl⟩

theorem continues_retransmit : Continues s (s.retransmit now) now := by
  intro q hq t ht
  obtain ⟨q', hq', t', ht', p, -, rfl⟩ := mem_retransmit hq ht
  refine .inl ⟨q', hq', t', ht', ?_⟩
  split_ifs
  · exact ⟨rfl, .inr rfl⟩
  · exact ⟨rfl, .inl rfl⟩

theorem sendQueue_afterAnnounce : (s.afterAnnounce now).sendQueue = s.sendQueue := by
  rw [afterAnnounce]
  split_ifs <;> rfl

theorem targets_afterAnnounce : (s.afterAnnounce now).targets = s.targets := by
  rw [afterAnnounce]
  split_ifs <;> rfl

theorem nextNumber_afterAnnounce : (s.afterAnnounce now).nextNumber = s.nextNumber := by
  rw [afterAnnounce]
  split_ifs <;> rfl

/-- The targets that `process` leaves. -/
theorem mem_targets_process (h : p ∈ (s.process now later).targets) : p ∈ s.targets := by
  have hbefore (h : p ∈ ((s.afterAnnounce now).withoutTimedOut now).targets) : p ∈ s.targets := by
    have hp : p ∈ (s.afterAnnounce now).targets := List.mem_of_mem_filter h
    rwa [targets_afterAnnounce] at hp
  rw [process] at h
  split_ifs at h
  · exact hbefore h
  · exact hbefore h

theorem nextNumber_process : (s.process now later).nextNumber = s.nextNumber := by
  rw [process]
  split_ifs <;> exact nextNumber_afterAnnounce

theorem continues_process : Continues s (s.process now later) later := by
  have hqueue : ((s.afterAnnounce now).withoutTimedOut now).sendQueue = s.sendQueue :=
    sendQueue_afterAnnounce
  intro q hq t ht
  rw [process] at hq
  split_ifs at hq
  · exact continues_of_eq hqueue q hq t ht
  · obtain ⟨q', hq', t', ht', p, -, rfl⟩ := mem_retransmit hq ht
    refine .inl ⟨q', hqueue ▸ hq', t', ht', ?_⟩
    split_ifs
    · exact ⟨rfl, .inr rfl⟩
    · exact ⟨rfl, .inl rfl⟩

/-- Only when a packet has come from a target is changed. -/
theorem receiveData_eq (s : Node) (now : ℤ) (address : Key) : ∃ l,
    s.receiveData now address = { s with targets := l } ∧
      ∀ p ∈ l, ∃ p' ∈ s.targets, p'.number = p.number ∧ p'.roundTripTime = p.roundTripTime := by
  rw [receiveData]
  cases s.remote address with
  | none => exact ⟨s.targets, rfl, fun p hp => ⟨p, hp, rfl, rfl⟩⟩
  | some r =>
    refine ⟨_, rfl, fun p hp => ?_⟩
    obtain ⟨p', hp', rfl⟩ := List.mem_map.mp hp
    refine ⟨p', hp', ?_⟩
    split_ifs <;> exact ⟨rfl, rfl⟩

theorem Numbered.receiveData (h : Numbered s) : Numbered (s.receiveData now address) := by
  rw [Node.receiveData]
  cases s.remote address with
  | none => exact h
  | some p => exact h.modifyTarget fun _ => rfl

theorem Numbered.join {name : String} (h : Numbered s) : Numbered (s.join now address name) := by
  rw [Node.join]
  split_ifs
  · exact h
  · have hne (p : NetworkTarget) (hp : p ∈ s.targets) : p.number ≠ s.nextNumber :=
      (h.number_lt p hp).ne
    refine ⟨fun p hp p' hp' heq => ?_, fun p hp => ?_,
      fun q hq t ht => Nat.lt_succ_of_lt (h.target_lt q hq t ht)⟩
    · rcases List.mem_append.mp hp with hp | hp <;> rcases List.mem_append.mp hp' with hp' | hp'
      · exact h.unique p hp p' hp' heq
      · rw [List.mem_singleton.mp hp'] at heq
        exact absurd heq (hne p hp)
      · rw [List.mem_singleton.mp hp] at heq
        exact absurd heq.symm (hne p' hp')
      · rw [List.mem_singleton.mp hp, List.mem_singleton.mp hp']
    · rcases List.mem_append.mp hp with hp | hp
      · exact Nat.lt_succ_of_lt (h.number_lt p hp)
      · rw [List.mem_singleton.mp hp]
        exact Nat.lt_succ_self _

theorem targets_acknowledge : (s.acknowledge x payload).targets = s.targets := by
  rw [acknowledge]
  split_ifs <;> rfl

theorem timer_acknowledge : (s.acknowledge x payload).timer = s.timer := by
  rw [acknowledge]
  split_ifs <;> rfl

theorem nextNumber_acknowledge : (s.acknowledge x payload).nextNumber = s.nextNumber := by
  rw [acknowledge]
  split_ifs <;> rfl

theorem clock_acknowledge : (s.acknowledge x payload).clock = s.clock := by
  rw [acknowledge]
  split_ifs <;> rfl

theorem lastAnnounce_acknowledge : (s.acknowledge x payload).lastAnnounce = s.lastAnnounce := by
  rw [acknowledge]
  split_ifs <;> rfl

/-- The queues before an ACK is looked at, with the round trip that is measured. -/
theorem sendQueue_measured :
    ((s.receiveData now address).measureRoundTrip x.target rtt).sendQueue = s.sendQueue := by
  obtain ⟨l, heq, -⟩ := receiveData_eq s now address
  rw [heq]
  rfl

theorem continues_receiveAck : Continues s (s.receiveAck now address payload rtt) now := by
  obtain ⟨l, heq, -⟩ := receiveData_eq s now address
  rw [receiveAck]
  cases hx : s.aboutAck address payload with
  | none => exact continues_of_eq (heq ▸ rfl)
  | some x =>
    obtain ⟨-, hqueue, ht, -⟩ := mem_about (mem_aboutAck hx)
    intro q hq t hmem
    obtain ⟨q', hq', t', ht', htarget, hsend⟩ := mem_queues_of_mem_acknowledge
      (sendQueue_measured.symm ▸ hqueue) ht hq hmem
    exact .inl ⟨q', sendQueue_measured ▸ hq', t', ht', htarget, .inl hsend.symm⟩

theorem continues_receiveNack : Continues s (s.receiveNack now address payload) now := by
  obtain ⟨l, heq, -⟩ := receiveData_eq s now address
  have hqueues : (s.receiveData now address).sendQueue = s.sendQueue := heq ▸ rfl
  rw [receiveNack]
  cases hx : s.aboutNack address payload with
  | none => exact continues_of_eq hqueues
  | some x =>
    obtain ⟨hp, hqueue, ht, hnumber⟩ := mem_about (mem_aboutNack hx)
    intro q hq t hmem
    rcases mem_reject (hqueues.symm ▸ hqueue) hq hmem with ⟨q', hq', hmem⟩ | ⟨htarget, hsend⟩
    · exact .inl ⟨q', hqueues ▸ hq', t, hmem, rfl, .inl rfl⟩
    · exact .inr ⟨hsend, x.target, hp, hnumber.symm.trans htarget.symm⟩

theorem timer_afterAnnounce : (s.afterAnnounce now).timer =
    if s.announces now then s.timer.postpone (now + milliseconds 500) else s.timer := by
  rw [afterAnnounce]
  split_ifs <;> rfl

theorem lastAnnounce_afterAnnounce : (s.afterAnnounce now).lastAnnounce =
    if s.announces now then now else s.lastAnnounce := by
  rw [afterAnnounce]
  split_ifs <;> rfl

/-- `process` asks for wake-ups when it has announced. -/
theorem timer_process :
    ∃ l, (s.process now later).timer = (s.afterAnnounce now).timer.requestAll l := by
  rw [process]
  split_ifs
  · exact ⟨[], rfl⟩
  · exact ⟨_, timer_retransmit⟩

theorem lastAnnounce_process :
    (s.process now later).lastAnnounce = (s.afterAnnounce now).lastAnnounce := by
  rw [process]
  split_ifs <;> rfl

theorem clock_receiveAck : (s.receiveAck now address payload rtt).clock = s.clock := by
  obtain ⟨l, heq, -⟩ := receiveData_eq s now address
  rw [receiveAck, heq]
  cases s.aboutAck address payload with
  | none => rfl
  | some x => exact clock_acknowledge

theorem timer_receiveAck : (s.receiveAck now address payload rtt).timer = s.timer := by
  obtain ⟨l, heq, -⟩ := receiveData_eq s now address
  rw [receiveAck, heq]
  cases s.aboutAck address payload with
  | none => rfl
  | some x => exact timer_acknowledge

theorem lastAnnounce_receiveAck :
    (s.receiveAck now address payload rtt).lastAnnounce = s.lastAnnounce := by
  obtain ⟨l, heq, -⟩ := receiveData_eq s now address
  rw [receiveAck, heq]
  cases s.aboutAck address payload with
  | none => rfl
  | some x => exact lastAnnounce_acknowledge

theorem Numbered.receiveAck (h : Numbered s) : Numbered (s.receiveAck now address payload rtt) := by
  rw [Node.receiveAck]
  cases hx : s.aboutAck address payload with
  | none => exact h.receiveData
  | some x =>
    obtain ⟨-, hqueue, ht, -⟩ := mem_about (mem_aboutAck hx)
    have hmeasured : Numbered ((s.receiveData now address).measureRoundTrip x.target rtt) :=
      h.receiveData.modifyTarget fun _ => rfl
    have hc : Continues ((s.receiveData now address).measureRoundTrip x.target rtt)
        (((s.receiveData now address).measureRoundTrip x.target rtt).acknowledge x payload)
          now := by
      intro q hq t hmem
      obtain ⟨q', hq', t', ht', htarget, hsend⟩ := mem_queues_of_mem_acknowledge
        (sendQueue_measured.symm ▸ hqueue) ht hq hmem
      exact .inl ⟨q', hq', t', ht', htarget, .inl hsend.symm⟩
    exact hmeasured.of_targets (fun p hp => targets_acknowledge ▸ hp) hc nextNumber_acknowledge

theorem Numbered.receiveNack (h : Numbered s) : Numbered (s.receiveNack now address payload) := by
  have hc : Continues s (s.receiveNack now address payload) now := continues_receiveNack
  obtain ⟨l, heq, hl⟩ := receiveData_eq s now address
  have hdata : Numbered (s.receiveData now address) := h.receiveData
  rw [Node.receiveNack] at hc ⊢
  cases hx : s.aboutNack address payload with
  | none => exact hdata
  | some x =>
    rw [hx] at hc
    refine ⟨hdata.unique, hdata.number_lt, fun q hq t ht => ?_⟩
    have hnumber : ((s.receiveData now address).reject now x payload).nextNumber =
        s.nextNumber := by
      rw [heq]
      rfl
    rw [hnumber]
    rcases hc q hq t ht with ⟨q', hq', t', ht', htarget, -⟩ | ⟨-, p, hp, htarget⟩
    · exact htarget ▸ h.target_lt q' hq' t' ht'
    · exact htarget ▸ h.number_lt p hp

/-! ## One step -/

/-- What a step does, one constructor for each case that the timer tells apart.  The invariants of
the timer are shown over these, and do not unfold `step`. -/
inductive Calls (s : Node) : Action → Node → Prop
  | reset {networkMtu : BitVec 16} : Calls s (.reset networkMtu) (s.reset networkMtu)
  /-- `send`, when it keeps nothing of the message. -/
  | sent {now : ℤ} {payload : Bytes} {target : String} {reliable : Bool} (h : s.clock ≤ now)
      (id : ℕ) : Calls s (.send now payload target reliable)
        { s with clock := now, packetIdSource := id }
  | kept {now : ℤ} {payload : Bytes} {target : String} (h : s.clock ≤ now) (id count : ℕ) :
      Calls s (.send now payload target true)
        (Node.keep { s with clock := now, packetIdSource := id } now id count target)
  | process {woken : Option ℤ} {now later : ℤ} (h : s.clock ≤ now) (hlater : now ≤ later) :
      Calls s (.process woken now later)
        { (wake { s with clock := now } woken).process now later with clock := later }
  | processThrows {woken : Option ℤ} {now : ℤ} (h : s.clock ≤ now) (hdue : s.announces now) :
      Calls s (.processThrows woken now) ((wake { s with clock := now } woken).processThrows now)
  | retransmit {now : ℤ} (h : s.clock ≤ now) :
      Calls s (.retransmit now) (Node.retransmit { s with clock := now } now)
  /-- ANNOUNCE, from a node that is not known. -/
  | joined {now : ℤ} {address : Key} {name : String} (h : s.clock ≤ now) :
      Calls s (.announce now address name) (join { s with clock := now } now address name)
  | announce {now : ℤ} {address : Key} {name : String} (h : s.clock ≤ now) :
      Calls s (.announce now address name) (receiveData { s with clock := now } now address)
  | leave {address : Key} : Calls s (.leave address) (s.receiveLeave address)
  | data {now : ℤ} {address : Key} (h : s.clock ≤ now) :
      Calls s (.data now address) (receiveData { s with clock := now } now address)
  | ack {now : ℤ} {address : Key} {payload : Bytes} {rtt : ℤ} (h : s.clock ≤ now) :
      Calls s (.ack now address payload rtt)
        (receiveAck { s with clock := now } now address payload rtt)
  | nack {now : ℤ} {address : Key} {payload : Bytes} (h : s.clock ≤ now) :
      Calls s (.nack now address payload) (receiveNack { s with clock := now } now address payload)

theorem readClock_eq (h : s.readClock now = some s') :
    s.clock ≤ now ∧ s' = { s with clock := now } := by
  rw [readClock, Option.ite_none_right_eq_some] at h
  exact ⟨h.1, (Option.some.inj h.2).symm⟩

theorem receiveAnnounce_cases (s : Node) (now : ℤ) (address : Key) (name : String) :
    s.receiveAnnounce now address name = s.join now address name ∨
      s.receiveAnnounce now address name = s.receiveData now address := by
  rw [receiveAnnounce, receiveData]
  cases s.remote address with
  | none => exact .inl rfl
  | some p => exact .inr rfl

theorem send_cases {target : String} {reliable : Bool}
    (h : s.send now payload target reliable = some s') :
    ∃ id, s' = { s with packetIdSource := id } ∨
      reliable = true ∧ ∃ count, s' = { s with packetIdSource := id }.keep now id count target := by
  rw [send] at h
  split_ifs at h with hconnected hreliable
  · obtain ⟨id, -, rfl⟩ := Option.map_eq_some_iff.mp h
    exact ⟨id, .inr ⟨hreliable, _, rfl⟩⟩
  · obtain ⟨id, -, rfl⟩ := Option.map_eq_some_iff.mp h
    exact ⟨id, .inl rfl⟩
  · exact ⟨s.packetIdSource, .inl (Option.some.inj h).symm⟩

/-- **What a step can do.**  Every step is one of `Calls`; a step that the clock or the wake-ups do
not allow gives no state. -/
theorem calls_of_step {a : Action} (hst : step s a = some s') : Calls s a s' := by
  cases a with
  | reset networkMtu =>
    obtain rfl := Option.some.inj hst
    exact .reset
  | send now payload target reliable =>
    obtain ⟨s₁, hclock, hst⟩ := Option.bind_eq_some_iff.mp hst
    obtain ⟨hle, rfl⟩ := readClock_eq hclock
    obtain ⟨id, rfl | ⟨rfl, count, rfl⟩⟩ := send_cases hst
    · exact .sent hle id
    · exact .kept hle id count
  | process woken now later =>
    rw [step, Option.ite_none_right_eq_some] at hst
    obtain ⟨s₁, hclock, hlast⟩ := Option.bind_eq_some_iff.mp hst.2
    obtain ⟨hle, rfl⟩ := readClock_eq hclock
    obtain ⟨-, rfl⟩ := readClock_eq hlast
    exact .process hle hst.1.2
  | processThrows woken now =>
    rw [step, Option.ite_none_right_eq_some] at hst
    obtain ⟨s₁, hclock, rfl⟩ := Option.map_eq_some_iff.mp hst.2
    obtain ⟨hle, rfl⟩ := readClock_eq hclock
    exact .processThrows hle hst.1.2
  | retransmit now =>
    obtain ⟨s₁, hclock, rfl⟩ := Option.map_eq_some_iff.mp hst
    obtain ⟨hle, rfl⟩ := readClock_eq hclock
    exact .retransmit hle
  | announce now address name =>
    obtain ⟨s₁, hclock, rfl⟩ := Option.map_eq_some_iff.mp hst
    obtain ⟨hle, rfl⟩ := readClock_eq hclock
    rcases receiveAnnounce_cases { s with clock := now } now address name with heq | heq
    · exact heq ▸ .joined hle
    · exact heq ▸ .announce hle
  | leave address =>
    obtain rfl := Option.some.inj hst
    exact .leave
  | data now address =>
    obtain ⟨s₁, hclock, rfl⟩ := Option.map_eq_some_iff.mp hst
    obtain ⟨hle, rfl⟩ := readClock_eq hclock
    exact .data hle
  | ack now address payload rtt =>
    obtain ⟨s₁, hclock, rfl⟩ := Option.map_eq_some_iff.mp hst
    obtain ⟨hle, rfl⟩ := readClock_eq hclock
    exact .ack hle
  | nack now address payload =>
    obtain ⟨s₁, hclock, rfl⟩ := Option.map_eq_some_iff.mp hst
    obtain ⟨hle, rfl⟩ := readClock_eq hclock
    exact .nack hle

/-- A step leaves the targets that wait, and sends to none later than its clock says. -/
theorem continues_of_step {a : Action} (hst : step s a = some s') :
    s.clock ≤ s'.clock ∧ Continues s s' s'.clock := by
  cases calls_of_step hst with
  | reset => exact ⟨le_rfl, fun q hq => absurd hq List.not_mem_nil⟩
  | sent hle id => exact ⟨hle, continues_of_eq rfl⟩
  | kept hle id count =>
    exact ⟨hle, continues_keep (s := { s with clock := _, packetIdSource := id })⟩
  | @process woken now later hle hlater =>
    have hqueue : (wake { s with clock := now } woken).sendQueue = s.sendQueue := by
      cases woken <;> rfl
    exact ⟨hle.trans hlater, continues_process (s := wake { s with clock := now } woken)⟩
  | processThrows hle hdue => exact ⟨hle, continues_of_eq rfl⟩
  | @retransmit now hle => exact ⟨hle, continues_retransmit (s := { s with clock := now })⟩
  | @joined now address name hle =>
    rw [join]
    split_ifs
    · exact ⟨hle, continues_of_eq rfl⟩
    · exact ⟨hle, continues_of_eq rfl⟩
  | @announce now address name hle =>
    obtain ⟨l, heq, -⟩ := receiveData_eq { s with clock := now } now address
    rw [heq]
    exact ⟨hle, continues_of_eq rfl⟩
  | leave => exact ⟨le_rfl, continues_of_eq rfl⟩
  | @data now address hle =>
    obtain ⟨l, heq, -⟩ := receiveData_eq { s with clock := now } now address
    rw [heq]
    exact ⟨hle, continues_of_eq rfl⟩
  | @ack now address payload rtt hle =>
    rw [clock_receiveAck]
    exact ⟨hle, continues_receiveAck (s := { s with clock := now })⟩
  | @nack now address payload hle =>
    have hclock : (receiveNack { s with clock := now } now address payload).clock = now := by
      obtain ⟨l, heq, -⟩ := receiveData_eq { s with clock := now } now address
      rw [receiveNack, heq]
      cases aboutNack { s with clock := now } address payload <;> rfl
    rw [hclock]
    exact ⟨hle, continues_receiveNack (s := { s with clock := now })⟩

theorem SentBy.step {a : Action} (h : s.SentBy s.clock) (hst : step s a = some s') :
    s'.SentBy s'.clock := by
  obtain ⟨hle, hc⟩ := continues_of_step hst
  exact SentBy.of_continues (fun q hq t ht => (h q hq t ht).trans hle) hc le_rfl

theorem Numbered.setClock (h : Numbered s) (now : ℤ) : Numbered { s with clock := now } :=
  ⟨h.unique, h.number_lt, h.target_lt⟩

theorem Numbered.step {a : Action} (h : Numbered s) (hst : step s a = some s') : Numbered s' := by
  obtain ⟨-, hc⟩ := continues_of_step hst
  cases calls_of_step hst with
  | reset => exact h.of_targets (fun _ hp => absurd hp List.not_mem_nil) hc rfl
  | sent | kept | processThrows | retransmit => exact h.of_targets (fun _ hp => hp) hc rfl
  | @process woken now later hle hlater =>
    refine h.of_targets (fun p hp => ?_) hc ?_
    · exact mem_targets_process (s := wake { s with clock := now } woken) hp
    · exact nextNumber_process (s := wake { s with clock := now } woken)
  | joined => exact (h.setClock _).join
  | announce | data => exact (h.setClock _).receiveData
  | leave => exact h.of_targets (fun _ hp => List.mem_of_mem_filter hp) hc rfl
  | ack => exact (h.setClock _).receiveAck
  | nack => exact (h.setClock _).receiveNack

end Node

end Retransmission
end Network
end Extension
end NUClear
