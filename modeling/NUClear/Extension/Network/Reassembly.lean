import NUClear.Extension.Network.Safety
import NUClear.Extension.Network.Fragmentation
import NUClear.Foundation.Reachability
import Mathlib.Data.List.Sort

/-!
# What is reassembled (`NUClearNetwork.cpp`)

A node receives any datagrams of a peer.  Next to what the node keeps, the model keeps what should
have been kept: for each packet id and each number of packets the packets that have come
(`Arrived`), until the message is complete or the environment says that the packet id has timed out.
A message is due when all its packets have come, and it is their concatenation.

The node keeps the packets by their id alone and compares the size of an assembler with the number
of packets that the last packet has, and it takes a packet whose number is the number of packets.
When neither of the two matters (`wellNumbered`), it hands over exactly what is due
(`delivered_eq_due_of_reaches`).

## The proof

* `Ordered.length_eq_iff`: packets in order with numbers below the count are complete when there are
  as many as the count.
* `Arrived.Matches`: the assemblers hold what has come.  `Matches.put`, `Matches.discard` and
  `Matches.expire` are the three things that happen to both.
* `Assembled`: the invariant of the receiver; `Assembled.single` and `Assembled.fragment` are the
  two paths of a packet that is not done with, and any other datagram changes no assembler
  (`reception_of_not_contributes`).
* `Receiver.expected_of_sent`: when the packets that have come are those of a message that was sent,
  what is due is this message.

Neither duplicates nor the order of the datagrams matter, and messages of several ids may be under
way at once.
-/

namespace NUClear
namespace Extension
namespace Network

open Foundation

/-! ## Packets that have come -/

/-- The data of the packets that have come, by packet id, number of packets and number: what the
peer has sent, without regard to how it is kept. -/
abbrev Arrived := ℕ → ℕ → ℕ → Option Bytes

namespace Arrived

/-- A packet comes: its data is there, and replaces what has come under the same three numbers. -/
def put (a : Arrived) (payload : Bytes) : Arrived := fun id count no =>
  if id = packetId payload ∧ count = packetCount payload ∧ no = packetNo payload then
    some (packetData payload)
  else a id count no

/-- All packets of a message have come: those of every number below the number of packets. -/
def complete (a : Arrived) (id count : ℕ) : Prop := ∀ no < count, (a id count no).isSome = true

instance (a : Arrived) (id count : ℕ) : Decidable (a.complete id count) :=
  inferInstanceAs (Decidable (∀ no < count, (a id count no).isSome = true))

/-- The message: the data of its packets one behind the other, in the order of their numbers. -/
def message (a : Arrived) (id count : ℕ) : Bytes :=
  (List.range count).flatMap fun no => (a id count no).getD []

/-- The packets of a message are done with, since it was handed over; a packet of it that comes
later begins anew. -/
def discard (a : Arrived) (id count : ℕ) : Arrived := fun id' count' no =>
  if id' = id ∧ count' = count then none else a id' count' no

/-- Those of some ids have timed out, whatever the number of packets they were sent with. -/
def expire (a : Arrived) (timedOut : List ℕ) : Arrived := fun id count no =>
  if id ∈ timedOut then none else a id count no

end Arrived

/-! ## The receiver -/

/-- A datagram, with the assemblers that have timed out and the send queue at its reception. -/
structure Datagram where
  payload : Bytes
  timedOut : List ℕ
  sendQueue : SendQueue

/-- What a node keeps for a peer, what has come from it, the messages that have been handed over and
those that were due. -/
structure Receiver where
  target : TargetData
  arrived : Arrived
  delivered : List Delivery
  due : List Delivery

namespace Receiver

/-- A peer that has just joined: nothing has come from it. -/
def new : Receiver := ⟨.new, fun _ _ _ => none, [], []⟩

/-- `process_packet`, for the datagrams of a known peer: it must be a packet of the protocol with a
type of it. -/
def reception (mtu remote : ℕ) (s : Receiver) (d : Datagram) : Reception :=
  match isPacket d.payload, packetType d.payload with
  | true, some type =>
      (receive mtu s.target d.sendQueue remote type d.payload d.timedOut).value
  | _, _ => .ignored s.target d.sendQueue

/-- The datagram is answered from `recent_packets`, so that its data is not looked at. -/
def suppresses (s : Receiver) (payload : Bytes) : Bool :=
  s.target.suppresses (packetType payload == some .dataRetransmission) payload

/-- The datagram is a packet of a message that is not done with: it carries data, its number is one
of its message, and it is not answered as a repetition. -/
def contributes (s : Receiver) (payload : Bytes) : Prop :=
  isData payload = true ∧ packetNo payload < packetCount payload ∧ s.suppresses payload = false

instance (s : Receiver) (payload : Bytes) : Decidable (s.contributes payload) :=
  inferInstanceAs (Decidable (isData payload = true ∧ packetNo payload < packetCount payload ∧
    s.suppresses payload = false))

/-- The datagram is the last packet of its message: with it all packets have come. -/
def completes (s : Receiver) (payload : Bytes) : Prop :=
  s.contributes payload ∧
    (s.arrived.put payload).complete (packetId payload) (packetCount payload)

instance (s : Receiver) (payload : Bytes) : Decidable (s.completes payload) :=
  inferInstanceAs (Decidable (s.contributes payload ∧
    (s.arrived.put payload).complete (packetId payload) (packetCount payload)))

/-- The message that is due at a datagram: the one that it completes, with the hash and the
reliability of this packet. -/
def expected (s : Receiver) (payload : Bytes) : Option Delivery :=
  if s.completes payload then
    some ⟨packetHash payload, reliable payload,
      (s.arrived.put payload).message (packetId payload) (packetCount payload)⟩
  else none

/-- The packets that have come, without those of a message that is done. -/
def kept (s : Receiver) (payload : Bytes) : Arrived :=
  if s.completes payload then
    (s.arrived.put payload).discard (packetId payload) (packetCount payload)
  else if s.contributes payload then s.arrived.put payload
  else s.arrived

/-- The packets that have come, after a datagram.  Time is looked at when there are several
packets. -/
def arrivedAfter (s : Receiver) (d : Datagram) : Arrived :=
  if s.contributes d.payload ∧ packetCount d.payload ≠ 1 then (s.kept d.payload).expire d.timedOut
  else s.kept d.payload

/-- The receiver after a datagram: what the code keeps and hands over, and beside it what has come
and what was due. -/
def after (mtu remote : ℕ) (s : Receiver) (d : Datagram) : Receiver where
  target := (s.reception mtu remote d).target
  arrived := s.arrivedAfter d
  delivered := (s.reception mtu remote d).delivered.toList ++ s.delivered
  due := (s.expected d.payload).toList ++ s.due

end Receiver

/-- One step: any datagram is received, at any time. -/
def receiverStep (mtu remote : ℕ) (s : Receiver) (d : Datagram) : Option Receiver :=
  some (s.after mtu remote d)

/-- The condition on a step: a packet that is processed has a number below that of its packets, and
the packets that are kept under its id have the same number of packets. -/
def wellNumbered (s : Receiver) (d : Datagram) : Prop :=
  isData d.payload = true → packetNo d.payload ≤ packetCount d.payload →
    s.suppresses d.payload = false →
      packetNo d.payload < packetCount d.payload ∧
        (packetCount d.payload ≠ 1 → ∀ p ∈ s.target.assemblers (packetId d.payload),
          packetCount p.2 = packetCount d.payload)

instance (s : Receiver) (d : Datagram) : Decidable (wellNumbered s d) :=
  inferInstanceAs (Decidable (isData d.payload = true → packetNo d.payload ≤ packetCount d.payload →
    s.suppresses d.payload = false → packetNo d.payload < packetCount d.payload ∧
      (packetCount d.payload ≠ 1 → ∀ p ∈ s.target.assemblers (packetId d.payload),
        packetCount p.2 = packetCount d.payload)))

/-! ## Assemblers in order -/

section

variable {l : Fragments} {count : ℕ}

theorem Ordered.pairwise_map_fst (h : Ordered l) : (l.map Prod.fst).Pairwise (· < ·) :=
  List.pairwise_map.mpr h

/-- An assembler is complete when it has as many packets as the message, since its packets have
different numbers below that. -/
theorem Ordered.length_eq_iff (h : Ordered l) (hlt : ∀ p ∈ l, p.1 < count) :
    l.length = count ↔ l.map Prod.fst = List.range count := by
  constructor
  · intro hlen
    have hsub : l.map Prod.fst ⊆ List.range count := by
      intro n hn
      obtain ⟨p, hp, rfl⟩ := List.mem_map.mp hn
      exact List.mem_range.mpr (hlt p hp)
    have hperm : (l.map Prod.fst).Perm (List.range count) :=
      (List.subperm_of_subset h.pairwise_map_fst.nodup hsub).perm_of_length_le
        (by rw [List.length_range, List.length_map, hlen])
    exact hperm.eq_of_pairwise' h.pairwise_map_fst List.pairwise_lt_range
  · intro hmap
    have hlen := congrArg List.length hmap
    rwa [List.length_map, List.length_range] at hlen

theorem Ordered.forall_exists_iff (h : Ordered l) (hlt : ∀ p ∈ l, p.1 < count) :
    (∀ n < count, ∃ p ∈ l, p.1 = n) ↔ l.map Prod.fst = List.range count := by
  constructor
  · intro hall
    refine List.Pairwise.eq_of_mem_iff h.pairwise_map_fst List.pairwise_lt_range fun n => ?_
    rw [List.mem_map, List.mem_range]
    constructor
    · rintro ⟨p, hp, rfl⟩
      exact hlt p hp
    · exact hall n
  · intro hmap n hn
    exact List.mem_map.mp (hmap ▸ List.mem_range.mpr hn)

end

/-! ## Assemblers and what has come -/

/-- The assemblers hold what has come: each packet is there under its numbers with its data, and
nothing else is. -/
def Arrived.Matches (a : Arrived) (assemblers : ℕ → Fragments) : Prop :=
  ∀ id count no data, a id count no = some data ↔
    ∃ p ∈ assemblers id, p.1 = no ∧ packetCount p.2 = count ∧ packetData p.2 = data

namespace Arrived

variable {a : Arrived} {assemblers : ℕ → Fragments} {payload : Bytes} {id count : ℕ}

theorem Matches.put (h : a.Matches assemblers)
    (hcount : ∀ p ∈ assemblers (packetId payload), packetCount p.2 = packetCount payload) :
    (a.put payload).Matches (Function.update assemblers (packetId payload)
      (insertFragment (packetNo payload) payload (assemblers (packetId payload)))) := by
  intro id count no data
  unfold Arrived.put
  by_cases hid : id = packetId payload
  · subst hid
    rw [Function.update_self]
    simp only [mem_insertFragment, true_and]
    split_ifs with hself
    · obtain ⟨rfl, rfl⟩ := hself
      constructor
      · intro hdata
        exact ⟨_, .inl rfl, rfl, rfl, Option.some.inj hdata⟩
      · rintro ⟨p, rfl | ⟨-, hne⟩, hno, -, hdata⟩
        · exact congrArg some hdata
        · exact absurd hno hne
    · rw [h]
      constructor
      · rintro ⟨p, hp, hno, hc, hdata⟩
        refine ⟨p, .inr ⟨hp, fun hno' => hself ⟨?_, ?_⟩⟩, hno, hc, hdata⟩
        · rw [← hc, hcount p hp]
        · rw [← hno, hno']
      · rintro ⟨p, rfl | ⟨hp, -⟩, hno, hc, hdata⟩
        · exact absurd ⟨hc.symm, hno.symm⟩ hself
        · exact ⟨p, hp, hno, hc, hdata⟩
  · rw [Function.update_of_ne hid, if_neg fun hself => hid hself.1]
    exact h id count no data

theorem Matches.discard (h : a.Matches assemblers)
    (hcount : ∀ p ∈ assemblers id, packetCount p.2 = count) :
    (a.discard id count).Matches (Function.update assemblers id []) := by
  intro id' count' no data
  unfold Arrived.discard
  by_cases hid : id' = id
  · subst hid
    rw [Function.update_self]
    refine iff_of_false (fun hdata => ?_) fun ⟨p, hp, _⟩ => absurd hp List.not_mem_nil
    split_ifs at hdata with hself
    obtain ⟨p, hp, -, hc, -⟩ := (h _ _ _ _).mp hdata
    exact hself ⟨rfl, hc.symm.trans (hcount p hp)⟩
  · rw [Function.update_of_ne hid, if_neg fun hself => hid hself.1]
    exact h id' count' no data

theorem Matches.expire (h : a.Matches assemblers) (timedOut : List ℕ) :
    (a.expire timedOut).Matches fun id => if id ∈ timedOut then [] else assemblers id := by
  intro id count no data
  show (if id ∈ timedOut then none else a id count no) = some data ↔
    ∃ p ∈ (if id ∈ timedOut then [] else assemblers id), _
  split_ifs
  · exact iff_of_false (fun hdata => nomatch hdata) fun ⟨p, hp, _⟩ => absurd hp List.not_mem_nil
  · exact h id count no data

theorem Matches.isSome_iff (h : a.Matches assemblers)
    (hcount : ∀ p ∈ assemblers id, packetCount p.2 = count) {no : ℕ} :
    (a id count no).isSome = true ↔ ∃ p ∈ assemblers id, p.1 = no := by
  rw [Option.isSome_iff_exists]
  constructor
  · rintro ⟨data, hdata⟩
    obtain ⟨p, hp, hno, -⟩ := (h _ _ _ _).mp hdata
    exact ⟨p, hp, hno⟩
  · rintro ⟨p, hp, hno⟩
    exact ⟨_, (h _ _ _ _).mpr ⟨p, hp, hno, hcount p hp, rfl⟩⟩

/-- All packets have come when the assembler is complete; the code compares the numbers of packets
only. -/
theorem Matches.complete_iff (h : a.Matches assemblers) (hordered : Ordered (assemblers id))
    (hlt : ∀ p ∈ assemblers id, p.1 < count)
    (hcount : ∀ p ∈ assemblers id, packetCount p.2 = count) :
    a.complete id count ↔ (assemblers id).length = count := by
  rw [hordered.length_eq_iff hlt, ← hordered.forall_exists_iff hlt]
  exact forall₂_congr fun no _ => h.isSome_iff hcount

/-- And the message is then what is in it. -/
theorem Matches.message_eq (h : a.Matches assemblers) (hordered : Ordered (assemblers id))
    (hlt : ∀ p ∈ assemblers id, p.1 < count)
    (hcount : ∀ p ∈ assemblers id, packetCount p.2 = count)
    (hlen : (assemblers id).length = count) :
    a.message id count = messageData (assemblers id) := by
  have hmap := (hordered.length_eq_iff hlt).mp hlen
  unfold message messageData
  rw [← hmap, List.flatMap_map]
  refine List.flatMap_congr fun p hp => ?_
  have hdata : a id count p.1 = some (packetData p.2) :=
    (h _ _ _ _).mpr ⟨p, hp, rfl, hcount p hp, rfl⟩
  rw [hdata]
  rfl

end Arrived

/-! ## Every run -/

/-- The packets of an assembler are in order, and each is one of several. -/
structure Numbered (l : Fragments) : Prop where
  ordered : Ordered l
  lt_count : ∀ p ∈ l, p.1 < packetCount p.2
  ne_one : ∀ p ∈ l, packetCount p.2 ≠ 1

/-- The invariant: the assemblers hold what has come, and every message that was due was handed over
when it was. -/
structure Assembled (s : Receiver) : Prop where
  numbered : ∀ id, Numbered (s.target.assemblers id)
  arrived : s.arrived.Matches s.target.assemblers
  delivered_eq : s.delivered = s.due

section

variable {s s' : Receiver} {d : Datagram} {mtu remote : ℕ}

theorem numbered_nil : Numbered [] where
  ordered := List.Pairwise.nil
  lt_count _ hp := absurd hp List.not_mem_nil
  ne_one _ hp := absurd hp List.not_mem_nil

theorem assembled_new : Assembled .new where
  numbered _ := numbered_nil
  arrived _ _ _ _ := iff_of_false (fun h => nomatch h) fun ⟨_, hp, _⟩ => absurd hp List.not_mem_nil
  delivered_eq := rfl

namespace Receiver

/-- A datagram of a message that is not done with is processed by one of the two paths. -/
theorem reception_of_contributes (mtu remote : ℕ) (h : s.contributes d.payload) :
    s.reception mtu remote d =
      if packetCount d.payload = 1 then (receiveSingle s.target d.sendQueue d.payload).value
      else (receiveFragment s.target d.sendQueue d.payload d.timedOut).value := by
  obtain ⟨hdata, hno, hsup⟩ := h
  have hp : isPacket d.payload = true := by
    unfold isData at hdata
    exact (Bool.and_eq_true_iff.mp hdata).1
  unfold reception
  cases htype : packetType d.payload with
  | none =>
    rw [isData, hp, htype] at hdata
    exact absurd hdata Bool.false_ne_true
  | some type =>
    have hkind := (isData_iff hp htype).mp hdata
    rw [suppresses, htype] at hsup
    have hret : (some type == some PacketType.dataRetransmission) = (type == .dataRetransmission) :=
      rfl
    rw [hret] at hsup
    rw [hp]
    show (receive mtu s.target d.sendQueue remote type d.payload d.timedOut).value = _
    rw [value_receive_data hkind, if_neg hno.le.not_gt, value_receiveData, hsup,
      if_neg Bool.false_ne_true]

/-- Any other datagram changes no assembler. -/
theorem reception_of_not_contributes (mtu remote : ℕ) (h : ¬ s.contributes d.payload)
    (hcond : wellNumbered s d) :
    (s.reception mtu remote d).target.assemblers = s.target.assemblers ∧
      (s.reception mtu remote d).delivered = none := by
  unfold reception
  cases hp : isPacket d.payload with
  | false => exact ⟨rfl, rfl⟩
  | true =>
    cases htype : packetType d.payload with
    | none => exact ⟨rfl, rfl⟩
    | some type =>
      show (receive mtu s.target d.sendQueue remote type d.payload
        d.timedOut).value.target.assemblers =
        _ ∧ (receive mtu s.target d.sendQueue remote type d.payload d.timedOut).value.delivered =
          none
      by_cases hkind : type = .data ∨ type = .dataRetransmission
      · have hdata : isData d.payload = true := (isData_iff hp htype).mpr hkind
        rw [value_receive_data hkind]
        by_cases hno : packetCount d.payload < packetNo d.payload
        · rw [if_pos hno]
          exact ⟨rfl, rfl⟩
        · rw [if_neg hno, value_receiveData]
          have hret : s.suppresses d.payload =
              s.target.suppresses (type == .dataRetransmission) d.payload := by
            rw [suppresses, htype]
            rfl
          cases hsup : s.suppresses d.payload with
          | true =>
            rw [← hret, hsup]
            exact ⟨rfl, rfl⟩
          | false =>
            exact absurd ⟨hdata, (hcond hdata (not_lt.mp hno) hsup).1, hsup⟩ h
      · cases type with
        | data => exact absurd (.inl rfl) hkind
        | dataRetransmission => exact absurd (.inr rfl) hkind
        | ack => exact ⟨congrArg _ target_receiveAck, delivered_receiveAck⟩
        | nack => exact ⟨congrArg _ target_receiveNack, delivered_receiveNack⟩
        | announce | leave => exact ⟨rfl, rfl⟩

end Receiver

/-- Nothing that is kept is purged, when the packets under the id are of a message with the same
number of packets. -/
theorem Assembled.keptFragments_eq (h : Assembled s) {payload : Bytes}
    (hcount : ∀ p ∈ s.target.assemblers (packetId payload), packetCount p.2 = packetCount payload) :
    keptFragments payload (s.target.assemblers (packetId payload)) =
      s.target.assemblers (packetId payload) := by
  unfold keptFragments corrupted
  refine if_neg fun hcorrupt => ?_
  cases hlast : (s.target.assemblers (packetId payload)).getLast? with
  | none =>
    rw [hlast] at hcorrupt
    exact absurd hcorrupt Bool.false_ne_true
  | some p =>
    rw [hlast, Option.any_some, decide_eq_true_eq] at hcorrupt
    have hp := List.mem_of_getLast? hlast
    have hlt := (h.numbered _).lt_count p hp
    rw [hcount p hp] at hlt
    exact absurd hlt hcorrupt.not_gt

/-- **The only packet of a message** is handed over at once, and the assemblers are not looked at.
-/
theorem Assembled.single (h : Assembled s) (hc : s.contributes d.payload)
    (hone : packetCount d.payload = 1) : Assembled (s.after mtu remote d) := by
  have hno : packetNo d.payload = 0 := by
    have hlt := hc.2.1
    omega
  have hput : (s.arrived.put d.payload) (packetId d.payload) 1 0 = some (packetData d.payload) :=
    if_pos ⟨rfl, hone.symm, hno.symm⟩
  have hcomplete : s.completes d.payload := by
    refine ⟨hc, fun no hlt => ?_⟩
    rw [hone] at hlt ⊢
    obtain rfl : no = 0 := Nat.lt_one_iff.mp hlt
    rw [hput]
    rfl
  have htarget : (s.after mtu remote d).target.assemblers = s.target.assemblers := by
    show (s.reception mtu remote d).target.assemblers = _
    rw [Receiver.reception_of_contributes mtu remote hc, if_pos hone, value_receiveSingle,
      assemblers_remember]
  have harrived : (s.after mtu remote d).arrived = s.arrived := by
    show s.arrivedAfter d = _
    rw [Receiver.arrivedAfter, if_neg fun hne => hne.2 hone, Receiver.kept, if_pos hcomplete]
    funext id count no
    unfold Arrived.discard Arrived.put
    split_ifs with hself hput
    · -- no packet of a message with one packet is kept
      obtain ⟨rfl, rfl⟩ := hself
      cases hnone : s.arrived (packetId d.payload) (packetCount d.payload) no with
      | none => rfl
      | some data =>
        obtain ⟨p, hp, -, hcount, -⟩ := (h.arrived _ _ _ _).mp hnone
        exact absurd (hcount.trans hone) ((h.numbered _).ne_one p hp)
    · exact absurd ⟨hput.1, hput.2.1⟩ hself
    · rfl
  refine ⟨fun id => ?_, ?_, ?_⟩
  · rw [htarget]
    exact h.numbered id
  · rw [htarget, harrived]
    exact h.arrived
  · show (s.reception mtu remote d).delivered.toList ++ s.delivered =
      (s.expected d.payload).toList ++ s.due
    have hmessage : (s.arrived.put d.payload).message (packetId d.payload) 1 =
      packetData d.payload := by
      unfold Arrived.message
      rw [List.range_one, List.flatMap_singleton, hput]
      rfl
    rw [Receiver.reception_of_contributes mtu remote hc, if_pos hone, value_receiveSingle,
      Receiver.expected,
      if_pos hcomplete, hone, hmessage, h.delivered_eq]

theorem Numbered.insertFragment {l : Fragments} {payload : Bytes} (h : Numbered l)
    (hno : packetNo payload < packetCount payload) (hne : packetCount payload ≠ 1) :
    Numbered (insertFragment (packetNo payload) payload l) where
  ordered := h.ordered.insertFragment
  lt_count p hp := by
    rcases mem_insertFragment.mp hp with rfl | ⟨hp, -⟩
    · exact hno
    · exact h.lt_count p hp
  ne_one p hp := by
    rcases mem_insertFragment.mp hp with rfl | ⟨hp, -⟩
    · exact hne
    · exact h.ne_one p hp

/-- An assembler is replaced, and some time out. -/
theorem numbered_expire {assemblers : ℕ → Fragments} (h : ∀ id, Numbered (assemblers id)) {id : ℕ}
    {l : Fragments} (hl : Numbered l) (timedOut : List ℕ) (id' : ℕ) :
    Numbered (if id' ∈ timedOut then [] else Function.update assemblers id l id') := by
  split_ifs
  · exact numbered_nil
  · by_cases hid : id' = id
    · rw [hid, Function.update_self]
      exact hl
    · rw [Function.update_of_ne hid]
      exact h id'

/-- **One of several packets**: it is added to the assembler, and the message is handed over when
this is complete. -/
theorem Assembled.fragment (h : Assembled s) (hc : s.contributes d.payload)
    (hne : packetCount d.payload ≠ 1)
    (hcount : ∀ p ∈ s.target.assemblers (packetId d.payload),
      packetCount p.2 = packetCount d.payload) :
    Assembled (s.after mtu remote d) := by
  have hfragments : s.target.fragments d.payload = insertFragment (packetNo d.payload) d.payload
      (s.target.assemblers (packetId d.payload)) := by
    rw [TargetData.fragments, h.keptFragments_eq hcount]
  have hnumbered : Numbered (s.target.fragments d.payload) := by
    rw [hfragments]
    exact (h.numbered _).insertFragment hc.2.1 hne
  have hall : ∀ p ∈ s.target.fragments d.payload, packetCount p.2 = packetCount d.payload := by
    intro p hp
    rw [hfragments] at hp
    rcases mem_insertFragment.mp hp with rfl | ⟨hp, -⟩
    · rfl
    · exact hcount p hp
  have hlt : ∀ p ∈ s.target.fragments d.payload, p.1 < packetCount d.payload := by
    intro p hp
    rw [← hall p hp]
    exact hnumbered.lt_count p hp
  have hput : (s.arrived.put d.payload).Matches (Function.update s.target.assemblers
      (packetId d.payload) (s.target.fragments d.payload)) := by
    rw [hfragments]
    exact h.arrived.put hcount
  have hself : Function.update s.target.assemblers (packetId d.payload)
      (s.target.fragments d.payload) (packetId d.payload) = s.target.fragments d.payload :=
    Function.update_self ..
  rw [← hself] at hall hlt
  have hordered := hnumbered.ordered
  rw [← hself] at hordered
  have hcomplete := hput.complete_iff hordered hlt hall
  have hmessage := hput.message_eq hordered hlt hall
  rw [hself] at hcomplete hmessage
  have hreception := (Receiver.reception_of_contributes mtu remote hc).trans (if_neg hne)
  rw [value_receiveFragment] at hreception
  by_cases hlen : (s.target.fragments d.payload).length = packetCount d.payload
  · have hcompletes : s.completes d.payload := ⟨hc, hcomplete.mpr hlen⟩
    rw [if_pos hlen] at hreception
    have htarget : (s.after mtu remote d).target.assemblers = fun id =>
        if id ∈ d.timedOut then []
        else Function.update s.target.assemblers (packetId d.payload) [] id := by
      show (s.reception mtu remote d).target.assemblers = _
      rw [hreception]
      show (fun id => if id ∈ d.timedOut then []
        else Function.update (s.target.remember d.payload).value.assemblers
          (packetId d.payload) [] id) =
          _
      rw [assemblers_remember]
    refine ⟨fun id => ?_, ?_, ?_⟩
    · rw [htarget]
      exact numbered_expire h.numbered numbered_nil _ id
    · rw [htarget]
      show (s.arrivedAfter d).Matches _
      rw [Receiver.arrivedAfter, if_pos ⟨hc, hne⟩, Receiver.kept, if_pos hcompletes]
      have hdiscard := (hput.discard hall).expire d.timedOut
      rwa [Function.update_idem] at hdiscard
    · show (s.reception mtu remote d).delivered.toList ++ s.delivered =
        (s.expected d.payload).toList ++ s.due
      rw [hreception, Receiver.expected, if_pos hcompletes, hmessage hlen, h.delivered_eq]
  · have hcompletes : ¬ s.completes d.payload := fun hcompletes => hlen (hcomplete.mp hcompletes.2)
    rw [if_neg hlen] at hreception
    have htarget : (s.after mtu remote d).target.assemblers = fun id =>
        if id ∈ d.timedOut then []
        else Function.update s.target.assemblers (packetId d.payload)
          (s.target.fragments d.payload) id := by
      show (s.reception mtu remote d).target.assemblers = _
      rw [hreception]
      rfl
    refine ⟨fun id => ?_, ?_, ?_⟩
    · rw [htarget]
      exact numbered_expire h.numbered hnumbered _ id
    · rw [htarget]
      show (s.arrivedAfter d).Matches _
      rw [Receiver.arrivedAfter, if_pos ⟨hc, hne⟩, Receiver.kept, if_neg hcompletes, if_pos hc]
      exact hput.expire d.timedOut
    · show (s.reception mtu remote d).delivered.toList ++ s.delivered =
        (s.expected d.payload).toList ++ s.due
      rw [hreception, Receiver.expected, if_neg hcompletes, h.delivered_eq]

/-- **One datagram** keeps the invariant, whatever it is, if the packets that are processed are well
numbered. -/
theorem Assembled.step (h : Assembled s) (hcond : wellNumbered s d)
    (hst : receiverStep mtu remote s d = some s') : Assembled s' := by
  obtain rfl := Option.some.inj hst
  by_cases hc : s.contributes d.payload
  · have hcount := (hcond hc.1 hc.2.1.le hc.2.2).2
    by_cases hone : packetCount d.payload = 1
    · exact h.single hc hone
    · exact h.fragment hc hone (hcount hone)
  · obtain ⟨hassemblers, hnone⟩ := Receiver.reception_of_not_contributes mtu remote
      hc hcond
    have htarget : (s.after mtu remote d).target.assemblers = s.target.assemblers := hassemblers
    have hcompletes : ¬ s.completes d.payload := fun hcompletes => hc hcompletes.1
    have harrived : (s.after mtu remote d).arrived = s.arrived := by
      show s.arrivedAfter d = _
      rw [Receiver.arrivedAfter, if_neg fun hboth => hc hboth.1, Receiver.kept, if_neg hcompletes,
        if_neg hc]
    refine ⟨fun id => ?_, ?_, ?_⟩
    · rw [htarget]
      exact h.numbered id
    · rw [htarget, harrived]
      exact h.arrived
    · show (s.reception mtu remote d).delivered.toList ++ s.delivered =
        (s.expected d.payload).toList ++ s.due
      rw [hnone, Receiver.expected, if_neg hcompletes, h.delivered_eq]

/-- The last packet of a message that `send` has split: what is due is the message. -/
theorem Receiver.expected_of_sent (hc : s.contributes d.payload) {mtu' : ℕ} {message : Bytes}
    (hcount : packetCount d.payload = message.length / mtu' + 1)
    (hsent : ∀ no < packetCount d.payload,
      s.arrived.put d.payload (packetId d.payload) (packetCount d.payload) no =
        some (packetRange mtu' (packetCount d.payload) message no)) :
    s.expected d.payload = some ⟨packetHash d.payload, reliable d.payload, message⟩ := by
  have hcompletes : s.completes d.payload := by
    refine ⟨hc, fun no hno => ?_⟩
    rw [hsent no hno]
    rfl
  have hmessage : (s.arrived.put d.payload).message (packetId d.payload) (packetCount d.payload) =
      message := by
    unfold Arrived.message
    have hrange := flatMap_packetRange mtu' message
    rw [← hcount] at hrange
    refine (List.flatMap_congr fun no hno => ?_).trans hrange
    rw [hsent no (List.mem_range.mp hno)]
    rfl
  rw [expected, if_pos hcompletes, hmessage]

/-- **What is handed over is what is due**, in every run all of whose packets are well numbered; and
when the packets that have come are those of a message that has been sent, this is the message. -/
theorem delivered_eq_due_of_reaches (h : Reaches (receiverStep mtu remote) wellNumbered .new s) :
    s.delivered = s.due ∧ ∀ (d : Datagram) (mtu' : ℕ) (message : Bytes), s.contributes d.payload →
      packetCount d.payload = message.length / mtu' + 1 →
        (∀ no < packetCount d.payload,
          s.arrived.put d.payload (packetId d.payload) (packetCount d.payload) no =
            some (packetRange mtu' (packetCount d.payload) message no)) →
          s.expected d.payload = some ⟨packetHash d.payload, reliable d.payload, message⟩ :=
  ⟨(h.invariant assembled_new fun _ _ _ hx hok hst => hx.step hok hst).delivered_eq,
    fun _ _ _ hc hcount hsent => Receiver.expected_of_sent hc hcount hsent⟩

end

/-- A packet of a message of five bytes that is sent in three packets, the last of them with one
byte. -/
def packetOfThree (no : ℕ) : Datagram :=
  ⟨(sendPacket 2 .data 1 3 true 7 [1, 2, 3, 4, 5] no).value, [], fun _ => none⟩

/-- The packets come in another order, and one of them twice. -/
def outOfOrder : List Datagram := [packetOfThree 2, packetOfThree 0, packetOfThree 2,
    packetOfThree 1]

theorem delivered_eq_due_of_reaches_outOfOrder :
    ∃ s, exec (receiverStep 2 1) .new outOfOrder = some s ∧
    s.delivered = [⟨7, true, [1, 2, 3, 4, 5]⟩] ∧ s.delivered = s.due := by
  have hrun : (exec (receiverStep 2 1) .new outOfOrder).any
      (fun s => s.delivered == [⟨7, true, [1, 2, 3, 4, 5]⟩]) = true := by decide +kernel
  obtain ⟨s, hs, hdelivered⟩ := (Option.any_eq_true _ _).mp hrun
  have hreaches : Reaches (receiverStep 2 1) wellNumbered .new s :=
    reaches_of_exec hs (by decide +kernel)
  exact ⟨s, hs, eq_of_beq hdelivered, (delivered_eq_due_of_reaches hreaches).1⟩

/-- Packets zero and two of a message of two packets. -/
def numberedAsCount : List Datagram :=
  [⟨dataPacket .data 1 0 2 true 7 [1, 2], [], fun _ => none⟩,
    ⟨dataPacket .data 1 2 2 true 7 [3], [], fun _ => none⟩]

/-- `packet_no > packet_count` lets a packet through whose number is the number of packets. -/
theorem delivered_numberedAsCount : ¬ ∀ (mtu remote : ℕ) (s : Receiver),
    Reaches (receiverStep mtu remote) Always .new s → s.delivered = s.due := by
  intro h
  have hrun : (exec (receiverStep 2 1) .new numberedAsCount).any
      (fun s => s.delivered == [⟨7, true, [1, 2, 3]⟩] && s.due.isEmpty) = true := by decide +kernel
  obtain ⟨s, hs, hboth⟩ := (Option.any_eq_true _ _).mp hrun
  obtain ⟨hdelivered, hdue⟩ := Bool.and_eq_true_iff.mp hboth
  have heq := h 2 1 s (reaches_always_of_exec hs)
  rw [eq_of_beq hdelivered, List.isEmpty_iff.mp hdue] at heq
  exact absurd heq (List.cons_ne_nil _ _)

end Network
end Extension
end NUClear
