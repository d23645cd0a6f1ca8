import NUClear.Extension.Network.Reassembly

/-!
# The recent packets of a peer (`NUClearNetwork.hpp`)

`NetworkTarget::recent_packets` is a ring of the ids of the reliable messages that a peer has
delivered.  Its index is a `uint8_t`, so it takes 256 values, and the array has
`numeric_limits<uint8_t>::max()` places, which are 255.  The message with the number 256 is written
behind the array.

Next to the receiver the model keeps the ids of the reliable messages that were handed over, and the
places of the array that were written to (`Recorder`).  The array is as it should be if and only if
there were no more than 255 of them (`recent_iff_of_reaches`).

* `Recent`: what the array is for.  It holds the ids of the most recent messages, as many as it has
  room for, and only its places were written to.
* `records_receiveData`: a datagram hands over a reliable message and writes its id, or it does
  neither.  This is read off the handlers, one path after the other.
* `Kept`: the invariant.  As long as there is room the array is that of the ids in their order
  (`ring`); from then on it stays a fact that a place behind it was written to.
* `not_recent_smallMessage`: a message of one packet, delivered 256 times.
-/

namespace NUClear
namespace Extension
namespace Network

open Foundation

/-- A receiver, the ids of the reliable messages that it has handed over and the places of
`recent_packets` that were written to, the latest first. -/
structure Recorder where
  receiver : Receiver
  ids : List ℕ
  writes : List ℕ

namespace Recorder

def new : Recorder := ⟨.new, [], []⟩

/-- After a datagram.  Each write to `recent_packets` advances the index. -/
def after (mtu remote : ℕ) (s : Recorder) (d : Datagram) : Recorder where
  receiver := s.receiver.after mtu remote d
  ids := if (s.receiver.reception mtu remote d).delivered.any (·.reliable) then
    packetId d.payload :: s.ids
    else s.ids
  writes :=
    if (s.receiver.reception mtu remote d).target.recentPacketsIndex =
      s.receiver.target.recentPacketsIndex then
      s.writes
    else s.receiver.target.recentPacketsIndex :: s.writes

/-- The ring holds the ids of the most recent reliable messages, as many as it has room for, and
only its places were written to.  A place that is not used yet holds `-1`. -/
structure Recent (s : Recorder) : Prop where
  inside : ∀ i ∈ s.writes, i < recentPacketsSize
  holds : (s.receiver.target.recentPackets.filter (· ≠ -1)).Perm
    ((s.ids.take recentPacketsSize).map fun id : ℕ => (id : ℤ))

end Recorder

/-- One step: any datagram of the peer. -/
def recorderStep (mtu remote : ℕ) (s : Recorder) (d : Datagram) : Option Recorder :=
  some (s.after mtu remote d)

/-! ## One datagram -/

section

variable {t : TargetData} {queue : SendQueue} {payload : Bytes} {timedOut : List ℕ}

/-- What a reception does to the recent packets: it hands over a reliable message and writes its id,
or it does neither. -/
def Reception.Records (t : TargetData) (payload : Bytes) (r : Reception) : Prop :=
  r.delivered.any (·.reliable) = true ∧
      r.target.recentPackets = t.recentPackets.set t.recentPacketsIndex (packetId payload) ∧
      r.target.recentPacketsIndex = (t.recentPacketsIndex + 1) % 2 ^ 8 ∨
    r.delivered.any (·.reliable) = false ∧ r.target.recentPackets = t.recentPackets ∧
      r.target.recentPacketsIndex = t.recentPacketsIndex

theorem Reception.Records.of_same {r : Reception} (hdelivered : r.delivered = none)
    (ht : r.target.recentPackets = t.recentPackets)
    (hi : r.target.recentPacketsIndex = t.recentPacketsIndex) :
    r.Records t payload :=
  .inr ⟨by rw [hdelivered]; rfl, ht, hi⟩

/-- A message is remembered when it is reliable: `remember` writes the id at the index, and the
index advances. -/
theorem Reception.Records.of_remember {r : Reception} {m : Delivery}
    (hdelivered : r.delivered = some m) (hm : m.reliable = reliable payload)
    (ht : r.target.recentPackets = (t.remember payload).value.recentPackets)
    (hi : r.target.recentPacketsIndex = (t.remember payload).value.recentPacketsIndex) :
    r.Records t payload := by
  rw [value_remember] at ht hi
  cases hrel : reliable payload with
  | true =>
    rw [hrel, if_pos rfl] at ht hi
    exact .inl ⟨by rw [hdelivered, Option.any_some, hm, hrel], ht, hi⟩
  | false =>
    rw [hrel, if_neg Bool.false_ne_true] at ht hi
    exact .inr ⟨by rw [hdelivered, Option.any_some, hm, hrel], ht, hi⟩

theorem records_receiveData {retransmission : Bool} :
    (receiveData t queue retransmission payload timedOut).value.Records t payload := by
  rw [value_receiveData]
  split_ifs
  · exact .of_same rfl rfl rfl
  · exact .of_remember rfl rfl rfl rfl
  · rw [value_receiveFragment]
    split_ifs
    · exact .of_remember rfl rfl rfl rfl
    · exact .of_same rfl rfl rfl

theorem Receiver.records_reception (s : Receiver) (mtu remote : ℕ) (d : Datagram) :
    (s.reception mtu remote d).Records s.target d.payload := by
  unfold Receiver.reception
  split
  · next type _ _ =>
    cases type with
    | data | dataRetransmission =>
      rw [value_receive_data (by simp)]
      split_ifs
      · exact .of_same rfl rfl rfl
      · exact records_receiveData
    | ack =>
      show ((receiveAck s.target d.sendQueue remote d.payload).value).Records _ _
      exact .of_same delivered_receiveAck (by rw [target_receiveAck]) (by rw [target_receiveAck])
    | nack =>
      show ((receiveNack mtu s.target d.sendQueue remote d.payload).value).Records _ _
      exact .of_same delivered_receiveNack (by rw [target_receiveNack]) (by rw [target_receiveNack])
    | announce | leave => exact .of_same rfl rfl rfl
  · exact .of_same rfl rfl rfl

end

/-! ## Every run -/

namespace Recorder

/-- The array after the messages with these ids, the latest first, when there is room for them: the
places behind are still unused. -/
def ring (ids : List ℕ) : List ℤ :=
  ids.reverse.map (fun id : ℕ => (id : ℤ)) ++ List.replicate (recentPacketsSize - ids.length) (-1)

/-- The invariant: the index counts the messages in eight bits, and from the message on for which
the array has no place there is a write behind it. -/
structure Kept (s : Recorder) : Prop where
  index : s.receiver.target.recentPacketsIndex = s.ids.length % 2 ^ 8
  /-- As long as there is room, the places are taken one after the other. -/
  fits : s.ids.length ≤ recentPacketsSize → s.receiver.target.recentPackets = ring s.ids ∧
    ∀ i ∈ s.writes, i < s.ids.length
  /-- Then there is a write behind the array. -/
  overruns : recentPacketsSize < s.ids.length → recentPacketsSize ∈ s.writes

variable {s s' : Recorder} {mtu remote : ℕ} {d : Datagram}

theorem kept_new : Kept new where
  index := rfl
  fits _ := ⟨rfl, fun _ hi => absurd hi List.not_mem_nil⟩
  overruns h := absurd h (Nat.not_lt_zero _)

theorem ring_cons {ids : List ℕ} {id : ℕ} (h : ids.length < recentPacketsSize) :
    (ring ids).set ids.length (id : ℤ) = ring (id :: ids) := by
  obtain ⟨n, hn⟩ : ∃ n, recentPacketsSize - ids.length = n + 1 :=
    ⟨_, (Nat.succ_pred (by omega)).symm⟩
  have hlen : (ids.reverse.map fun id : ℕ => (id : ℤ)).length = ids.length := by simp
  have hrest : recentPacketsSize - (id :: ids).length = n := by
    rw [List.length_cons]
    omega
  unfold ring
  rw [hrest, hn, List.replicate_succ, List.set_append_right _ _ hlen.le, hlen, Nat.sub_self,
    List.set_cons_zero,
    List.reverse_cons, List.map_append, List.append_assoc]
  rfl

/-- **One datagram** keeps the invariant: it writes one id at the index, or nothing. -/
theorem Kept.after (h : Kept s) : Kept (s.after mtu remote d) := by
  have hsize : recentPacketsSize = 255 := rfl
  have hindex := h.index
  obtain ⟨hrel, hring, hnext⟩ | ⟨hrel, hring, hnext⟩ := s.receiver.records_reception mtu remote d
  · have hids : (s.after mtu remote d).ids = packetId d.payload :: s.ids := if_pos hrel
    have hlen : (s.after mtu remote d).ids.length = s.ids.length + 1 := by
      rw [hids, List.length_cons]
    have hwrites : (s.after mtu remote d).writes =
      s.receiver.target.recentPacketsIndex :: s.writes := by
      refine if_neg fun heq => ?_
      rw [hnext] at heq
      omega
    refine ⟨?_, fun hle => ?_, fun hlt => ?_⟩
    · rw [hlen]
      show (s.receiver.reception mtu remote d).target.recentPacketsIndex = _
      rw [hnext, hindex]
      omega
    · rw [hlen] at hle
      obtain ⟨hkept, hwritten⟩ := h.fits (by omega)
      have hplace : s.receiver.target.recentPacketsIndex = s.ids.length := by omega
      refine ⟨?_, ?_⟩
      · show (s.receiver.reception mtu remote d).target.recentPackets = _
        rw [hring, hkept, hplace, ring_cons (by omega), hids]
      · rw [hwrites, hlen, List.forall_mem_cons]
        exact ⟨by omega, fun i hi => Nat.lt_succ_of_lt (hwritten i hi)⟩
    · rw [hlen] at hlt
      rw [hwrites]
      obtain hlt | heq := Nat.lt_or_eq_of_le (Nat.le_of_lt_succ hlt)
      · exact List.mem_cons_of_mem _ (h.overruns hlt)
      · exact List.mem_cons.mpr (.inl (by omega))
  · have hids : (s.after mtu remote d).ids = s.ids :=
      if_neg (by rw [hrel]; exact Bool.false_ne_true)
    have hwrites : (s.after mtu remote d).writes = s.writes := if_pos hnext
    refine ⟨?_, ?_, ?_⟩
    · rw [hids, ← hindex]
      exact hnext
    · rw [hids, hwrites]
      exact fun hle => ⟨hring.trans (h.fits hle).1, (h.fits hle).2⟩
    · rw [hids, hwrites]
      exact h.overruns

theorem kept_of_reaches (h : Reaches (recorderStep mtu remote) Always new s) : Kept s :=
  h.invariant kept_new fun _ _ _ hx _ hst => by
    obtain rfl := Option.some.inj hst
    exact hx.after

theorem filter_ring {ids : List ℕ} :
    (ring ids).filter (· ≠ -1) = ids.reverse.map fun id : ℕ => (id : ℤ) := by
  unfold ring
  have hids : ((ids.reverse.map fun id : ℕ => (id : ℤ)).filter (· ≠ -1)) =
      ids.reverse.map fun id : ℕ => (id : ℤ) := by
    refine List.filter_eq_self.mpr fun i hi => ?_
    obtain ⟨id, -, rfl⟩ := List.mem_map.mp hi
    rw [decide_eq_true_eq]
    omega
  have hempty : (List.replicate (recentPacketsSize - ids.length) (-1 : ℤ)).filter
    (· ≠ -1) = [] := by
    refine List.filter_eq_nil_iff.mpr fun i hi => ?_
    rw [List.eq_of_mem_replicate hi]
    decide
  rw [List.filter_append, hids, hempty, List.append_nil]

theorem Kept.recent (h : Kept s) (hle : s.ids.length ≤ recentPacketsSize) : Recent s := by
  obtain ⟨hring, hwrites⟩ := h.fits hle
  refine ⟨fun i hi => (hwrites i hi).trans_le hle, ?_⟩
  rw [hring, filter_ring, List.take_of_length_le hle]
  exact (List.reverse_perm _).map _

theorem Kept.not_recent (h : Kept s) (hlt : recentPacketsSize < s.ids.length) : ¬ Recent s :=
  fun hr =>
  absurd (hr.inside _ (h.overruns hlt)) (Nat.lt_irrefl _)

/-- **The recent packets.**  In every run the array is as it should be if and only if the peer has
delivered no more reliable messages than it has places. -/
theorem recent_iff_of_reaches (h : Reaches (recorderStep mtu remote) Always new s) :
    Recent s ↔ s.ids.length ≤ recentPacketsSize :=
  ⟨fun hr => not_lt.mp fun hlt => (kept_of_reaches h).not_recent hlt hr, (kept_of_reaches h).recent⟩

/-- The message `smallMessage`, a reliable one of one packet, which can be sent again and again. -/
def smallDatagram : Datagram := ⟨smallMessage, [], fun _ => none⟩

theorem recent_iff_of_reaches_twoMessages :
    ∃ s, exec (recorderStep 1412 1) new [smallDatagram, smallDatagram] = some s ∧
      s.ids = [1, 1] ∧ Recent s := by
  have hids : ((new.after 1412 1 smallDatagram).after 1412 1 smallDatagram).ids = [1, 1] := by
    decide +kernel
  have hrun : exec (recorderStep 1412 1) new [smallDatagram, smallDatagram] =
      some ((new.after 1412 1 smallDatagram).after 1412 1 smallDatagram) := rfl
  refine ⟨_, hrun, hids, ?_⟩
  rw [recent_iff_of_reaches (reaches_always_of_exec hrun), hids]
  decide

/-- Each time it is delivered, since it comes as DATA, for which the recent packets are not asked.
-/
theorem after_smallDatagram (s : Recorder) :
    (s.after 1412 1 smallDatagram).ids = packetId smallMessage :: s.ids := by
  show (if (s.receiver.reception 1412 1 smallDatagram).delivered.any (·.reliable) = true then
    packetId smallMessage :: s.ids else s.ids) = _
  refine if_pos ?_
  have htype : packetType smallMessage = some .data := by decide
  have hpacket : isPacket smallMessage = true := by decide
  have hno : ¬ packetCount smallMessage < packetNo smallMessage := by decide
  have hcount : packetCount smallMessage = 1 := by decide
  have hrel : reliable smallMessage = true := by decide
  unfold Receiver.reception smallDatagram
  rw [hpacket, htype]
  show ((receive 1412 s.receiver.target (fun _ => none) 1 .data smallMessage
    []).value).delivered.any _ = true
  rw [value_receive_data (.inl rfl), if_neg hno, value_receiveData, TargetData.suppresses]
  simp only [hcount, hrel]
  rw [value_receiveSingle]
  exact hrel

theorem exists_reaches_smallDatagram (n : ℕ) :
    ∃ s, Reaches (recorderStep 1412 1) Always new s ∧ s.ids.length = n := by
  induction n with
  | zero => exact ⟨new, .start, rfl⟩
  | succ n ih =>
    obtain ⟨s, hs, hlen⟩ := ih
    refine ⟨s.after 1412 1 smallDatagram, .step hs trivial rfl, ?_⟩
    rw [after_smallDatagram, List.length_cons, hlen]

/-- The message with the number 256 is written behind the array, whose index has 256 values. -/
theorem not_recent_smallMessage : ¬ ∀ (mtu remote : ℕ) (s : Recorder),
    Reaches (recorderStep mtu remote) Always new s → Recent s := by
  intro h
  obtain ⟨s, hs, hlen⟩ := exists_reaches_smallDatagram 256
  exact (kept_of_reaches hs).not_recent (hlen ▸ by decide) (h 1412 1 s hs)

end Recorder

end Network
end Extension
end NUClear
