import NUClear.Extension.Network.Safety
import NUClear.Extension.Network.Link

/-!
# What is acknowledged (`NUClearNetwork.cpp`)

The sender keeps for each target the set of the packets that it has acknowledged, and erases the
target from the message's entry when a test on these bytes succeeds.

* `allAcked_iff`: what the test of the sender asks for.  The mask of the last byte is that of a full
  byte when the number of packets is a multiple of eight, and then this byte has no packets, so its
  bits never come.
* `AckFor`: the ACKs that a node makes for a message; `ackFor_of_mem_responses` says that these are
  all that the receiver sends.
* `removed_iff`: when a target has been removed after any ACKs of it (`Fresh.not_hasEntry_iff`).  It
  is removed as it should be if and only if the number of packets is no multiple of eight, or some
  packet is not acknowledged.
* `nackHandled_iff`: when a NACK is handled as it should be.  The loop takes the number of a bit for
  that of a byte, and reads behind the datagram.

The statements are about the bits one by one (`bitAt`), and the code about whole bytes:
`bitAt_ackedWith` and `bitAt_ackedWithout` connect the two, from the lemmas about sets of numbers as
the bits of a buffer.
-/

namespace NUClear
namespace Extension
namespace Network

open Foundation

/-! ## The test of the sender -/

section

variable {acked payload : Bytes} {count n : ℕ}

theorem and_eq_right_iff {x e : Byte} :
    x &&& e = e ↔ ∀ i < 8, e.getLsbD i = true → x.getLsbD i = true := by
  constructor
  · intro h i _ hi
    rw [← h, BitVec.getLsbD_and, Bool.and_eq_true] at hi
    exact hi.1
  · intro h
    ext i hi
    rw [BitVec.getElem_and, ← BitVec.getLsbD_eq_getElem, ← BitVec.getLsbD_eq_getElem]
    cases he : e.getLsbD i with
    | false => rw [Bool.and_false]
    | true => rw [h i hi he, Bool.and_true]

/-- The mask of a byte has the bits of the packets that are there, and all eight when the last
packet ends a byte. -/
theorem getLsbD_expectedByte {size i j : ℕ} (hj : j < 8) :
    (expectedByte count size i).getLsbD j =
      decide (i + 1 < size ∨ count % 8 = 0 ∨ j < count % 8) := by
  have hfull : ∀ k, Nat.testBit 255 k = decide (k < 8) := Nat.testBit_two_pow_sub_one 8
  have hr : count % 8 < 8 := Nat.mod_lt _ (by decide)
  unfold expectedByte
  split_ifs with h
  · show (BitVec.ofNat 8 255).getLsbD j = _
    rw [BitVec.getLsbD_ofNat, hfull, ← Bool.decide_and]
    exact decide_eq_decide.mpr (by omega)
  · rw [BitVec.natCast_eq_ofNat, BitVec.getLsbD_ofNat, Nat.testBit_shiftRight, hfull,
      ← Bool.decide_and]
    exact decide_eq_decide.mpr (by omega)

/-- The number of bits that the test asks for: one for each packet, and eight more when the number
of packets is a multiple of eight, since the set has a byte more then. -/
def testedBits (count : ℕ) : ℕ := if count % 8 = 0 then count + 8 else count

/-- **What the test asks for**: that every bit is set, up to the number of tested bits, whatever the
others are. -/
theorem allAcked_iff (h : acked.length = count / 8 + 1) :
    allAcked count acked = true ↔ ∀ n < testedBits count, bitAt acked n = true := by
  unfold allAcked testedBits
  simp only [List.all_eq_true, List.mem_range, beq_iff_eq, and_eq_right_iff]
  constructor
  · intro hall n hn
    have hlt : n / 8 < acked.length := by
      split_ifs at hn <;> omega
    refine hall (n / 8) hlt (n % 8) (Nat.mod_lt _ (by decide)) ?_
    rw [getLsbD_expectedByte (Nat.mod_lt _ (by decide)), decide_eq_true_eq]
    split_ifs at hn <;> omega
  · intro hall i hi j hj hbit
    rw [getLsbD_expectedByte hj, decide_eq_true_eq] at hbit
    have hn := hall (8 * i + j) (by split_ifs <;> omega)
    unfold bitAt at hn
    have hdiv : (8 * i + j) / 8 = i := by omega
    have hmod : (8 * i + j) % 8 = j := by omega
    rwa [hdiv, hmod] at hn

/-- The packet is acknowledged by the ACK: its bit is set behind the header. -/
def acknowledges (ack : Bytes) (n : ℕ) : Bool := bitAt (ack.drop ackBits) n

theorem length_ackedWith : (ackedWith payload acked).length = acked.length := length_combine ..

theorem bitAt_ackedWith (h : n / 8 < acked.length) :
    bitAt (ackedWith payload acked) n = (bitAt acked n || acknowledges payload n) :=
  bitAt_combine (fun _ _ _ _ => BitVec.getLsbD_or) h

theorem length_ackedWithout : (ackedWithout payload acked).length = acked.length :=
  length_combine ..

theorem bitAt_ackedWithout (h : n / 8 < acked.length) :
    bitAt (ackedWithout payload acked) n = (bitAt acked n && !bitAt (payload.drop nackBits) n) := by
  refine bitAt_combine (g := fun x y => x && !y) (fun x y i hi => ?_) h
  rw [BitVec.getLsbD_and, BitVec.getLsbD_not, decide_eq_true hi, Bool.true_and]

end

/-! ## The ACKs of a message -/

/-- The ACKs that a node makes for a message of `count` packets, one constructor for each place
where the source makes one. -/
inductive AckFor (id count : ℕ) : Bytes → Prop
  /-- For a retransmission of a message that was processed recently. -/
  | all {payload : Bytes} (hid : packetId payload = id) (hcount : packetCount payload = count) :
      AckFor id count (acknowledgeAll payload).value
  /-- For the only packet. -/
  | one {payload : Bytes} (hid : packetId payload = id) (hcount : packetCount payload = count)
      (hone : count = 1) : AckFor id count (acknowledgeOne payload).value
  /-- For the packets in the assembler. -/
  | stored {payload : Bytes} {stored : Fragments} (hid : packetId payload = id)
      (hcount : packetCount payload = count) (hstored : ∀ p ∈ stored, p.1 < count) :
      AckFor id count (acknowledge payload stored).value

section

variable {t : TargetData} {queue : SendQueue} {payload p : Bytes} {timedOut : List ℕ}
  {remote mtu id count n : ℕ} {type : PacketType}

/-- An ACK of a message is made from the numbers of some of its packets: their bits are set in an
empty one. -/
theorem AckFor.exists_setBits (h : AckFor id count p) : id < 2 ^ 16 ∧ count < 2 ^ 16 ∧
    ∃ no l, (∀ n ∈ l, n < count) ∧ p = (setBits ackBits l (ackPacket id no count)).value := by
  cases h with
  | @all payload hid hcount =>
    subst hid hcount
    exact ⟨field_lt payload 5 2, field_lt payload 9 2, packetNo payload,
      List.range (packetCount payload), fun n hn => List.mem_range.mp hn, rfl⟩
  | @one payload hid hcount hone =>
    subst hid hcount
    refine ⟨field_lt payload 5 2, field_lt payload 9 2, packetNo payload, [0], fun n hn => ?_, rfl⟩
    rw [List.mem_singleton.mp hn, hone]
    exact Nat.one_pos
  | @stored payload stored hid hcount hstored =>
    subst hid hcount
    refine ⟨field_lt payload 5 2, field_lt payload 9 2, packetNo payload, stored.map Prod.fst,
      fun n hn => ?_, rfl⟩
    obtain ⟨x, hx, rfl⟩ := List.mem_map.mp hn
    exact hstored x hx

theorem AckFor.packetId_eq (h : AckFor id count p) : packetId p = id := by
  obtain ⟨hid, -, no, l, -, rfl⟩ := h.exists_setBits
  exact (field_eq_of_take (take_setBits ackBits l _) (by decide)).trans (packetId_ackPacket hid)

theorem AckFor.packetCount_eq (h : AckFor id count p) : packetCount p = count := by
  obtain ⟨-, hcount, no, l, -, rfl⟩ := h.exists_setBits
  exact (field_eq_of_take (take_setBits ackBits l _)
    (by decide)).trans (packetCount_ackPacket hcount)

theorem AckFor.length_eq (h : AckFor id count p) : p.length = sizeofACKPacket + count / 8 := by
  obtain ⟨-, -, no, l, -, rfl⟩ := h.exists_setBits
  rw [length_setBits, length_ackPacket]

/-- Only packets of the message are acknowledged. -/
theorem AckFor.lt_of_acknowledges (h : AckFor id count p) (hn : acknowledges p n = true)
    (hbit : n / 8 ≤ count / 8) : n < count := by
  obtain ⟨-, -, no, l, hl, rfl⟩ := h.exists_setBits
  have hlen : ackBits + n / 8 < (ackPacket id no count).length := by
    rw [length_ackPacket, sizeofACKPacket, ackBits]
    omega
  have hnone : bitAt ((ackPacket id no count).drop ackBits) n = false :=
    bitAt_replicate (1 + count / 8) n
  rw [acknowledges, bitAt_setBits hlen, hnone, Bool.false_or, decide_eq_true_eq] at hn
  exact hl n hn

theorem AckFor.validAck (h : AckFor id count p) {q : PacketQueue} (hq : q.packetCount = count) :
    validAck q p :=
  ⟨h.packetCount_eq.trans hq.symm, by rw [h.length_eq, hq]⟩

/-- An ACK keeps its type when bits of it are set. -/
theorem packetType_setBits (id no count : ℕ) (l : List ℕ) :
    packetType (setBits ackBits l (ackPacket id no count)).value = some .ack := by
  have hbyte : (setBits ackBits l (ackPacket id no count)).value.getD 4 0 = PacketType.ack.byte :=
    getD_eq_of_take (take_setBits ackBits l _) (by decide)
  unfold packetType
  rw [hbyte]
  rfl

theorem packetType_rejectAll {stored : Fragments} :
    packetType (rejectAll payload stored).value = some .nack := by
  have htake : (rejectAll payload stored).value.take nackBits =
      (nackPacket (packetId payload) (packetCount payload)).take nackBits :=
    (take_modify _ nackBits _ _).trans (take_setBits nackBits _ _)
  have hbyte : (rejectAll payload stored).value.getD 4 0 = PacketType.nack.byte :=
    getD_eq_of_take htake (by decide)
  unfold packetType
  rw [hbyte]
  rfl

theorem mem_ifReliable {response : Checked Bytes} (hp : p ∈ (ifReliable payload response).value) :
    p = response.value := by
  rw [value_ifReliable] at hp
  split_ifs at hp
  · exact List.mem_singleton.mp hp
  · exact absurd hp List.not_mem_nil

/-- What the purge of an assembler sends is a NACK. -/
theorem packetType_purge {stored : Fragments} (hp : p ∈ (purge payload stored).value.2) :
    packetType p = some .nack := by
  unfold purge at hp
  rw [Checked.value_bind, value_readCount, Checked.value_ite] at hp
  split_ifs at hp
  · rw [mem_ifReliable hp, packetType_rejectAll]
  · exact absurd hp List.not_mem_nil

/-- A thread that processes a packet sends ACKs and NACKs only, in whatever stage it is. -/
theorem packetType_proceed {stage : Stage} (hp : p ∈ (t.proceed payload timedOut stage).responses) :
    packetType p = some .ack ∨ packetType p = some .nack := by
  have hfragment (hp : p ∈ t.fragmentResponses payload) :
      packetType p = some .ack ∨ packetType p = some .nack := by
    rcases List.mem_append.mp hp with hp | hp
    · exact .inr (packetType_purge hp)
    · rw [mem_ifReliable hp]
      exact .inl (packetType_setBits ..)
  cases stage with
  | looked =>
    by_cases hone : packetCount payload = 1
    · rw [proceed_single hone] at hp
      rw [mem_ifReliable hp]
      exact .inl (packetType_setBits ..)
    · by_cases hlen : (t.fragments payload).length = packetCount payload
      · rw [proceed_last hone hlen] at hp
        exact hfragment hp
      · rw [proceed_fragment hone hlen] at hp
        exact hfragment hp
  | answered | remembered | assembled => exact absurd hp List.not_mem_nil

/-- **The ACKs that the receiver sends** are ACKs of the message of the packet that it has
received. -/
theorem ackFor_of_mem_responses (htype : type = .data ∨ type = .dataRetransmission)
    (hno : packetNo payload < packetCount payload)
    (hordered : Ordered (t.assemblers (packetId payload)))
    (hp : p ∈ (receive mtu t queue remote type payload timedOut).value.responses)
    (hack : packetType p = some .ack) : AckFor (packetId payload) (packetCount payload) p := by
  rw [value_receive_data htype, if_neg hno.le.not_gt, value_receiveData] at hp
  split_ifs at hp with hsup hone
  · obtain rfl := List.mem_singleton.mp hp
    exact .all rfl rfl
  · rw [mem_ifReliable hp]
    exact .one rfl rfl hone
  · have hmem : p ∈ (purge payload (t.assemblers (packetId payload))).value.2 ∨
        p ∈ (ifReliable payload (acknowledge payload (t.fragments payload))).value := by
      rw [value_receiveFragment] at hp
      split_ifs at hp <;> exact List.mem_append.mp hp
    rcases hmem with hmem | hmem
    · rw [packetType_purge hmem] at hack
      exact absurd hack (by decide)
    · rw [mem_ifReliable hmem]
      refine .stored rfl rfl fun x hx => ?_
      rcases mem_insertFragment.mp hx with rfl | ⟨hx, -⟩
      · exact hno
      · unfold keptFragments at hx
        split_ifs at hx with hc
        · exact absurd hx List.not_mem_nil
        · exact hordered.lt_of_not_corrupted (by simpa using hc) hx

end

/-! ## The sender, over any ACKs -/

/-- The send queue after some ACKs of a target, received one after the other. -/
def receiveAcks (t : TargetData) (remote : ℕ) (queue : SendQueue) (acks : List Bytes) : SendQueue :=
  acks.foldl (fun queue ack => (receiveAck t queue remote ack).value.sendQueue) queue

/-- The entry of a target for a message, with the packets that it has acknowledged.  A target has
one entry in a queue, and room for a bit of every packet. -/
structure Entry (queue : SendQueue) (id remote count : ℕ) (acked : Bytes) : Prop where
  exists_queue : ∃ q ∈ queue id, q.packetCount = count ∧ (q.targets.map PacketTarget.target).Nodup ∧
    ∃ s, q.targets[q.find remote]? = some s ∧ s.acked = acked
  length_eq : acked.length = count / 8 + 1

section

variable {t : TargetData} {queue : SendQueue} {q : PacketQueue} {s : PacketTarget}
  {ack acked : Bytes}
  {acks : List Bytes} {remote id count k : ℕ}

/-- The first entry of a target, by the targets alone. -/
theorem find_eq (q : PacketQueue) (remote : ℕ) :
    q.find remote = (q.targets.map PacketTarget.target).findIdx (· == remote) := by
  rw [List.findIdx_map]
  rfl

theorem map_target_setAcked (hs : q.targets[k]? = some s) :
    (q.setAcked k s acked).targets.map PacketTarget.target = q.targets.map PacketTarget.target := by
  obtain ⟨hk, rfl⟩ := List.getElem?_eq_some_iff.mp hs
  show (q.targets.set k _).map PacketTarget.target = _
  rw [List.map_set]
  refine List.ext_getElem (List.length_set ..) fun i h₁ h₂ => ?_
  rw [List.getElem_set]
  split_ifs with hik
  · subst hik
    rw [List.getElem_map]
  · rfl

/-- Nothing of a target is left when its only entry is erased. -/
theorem not_hasEntry_without (hnodup : (q.targets.map PacketTarget.target).Nodup)
    (hs : q.targets[q.find remote]? = some s) :
    ¬ HasEntry (Function.update queue id (q.without (q.find remote))) remote id := by
  rintro ⟨q', hq', s', hs', hr⟩
  obtain ⟨hk, hsk⟩ := List.getElem?_eq_some_iff.mp hs
  rw [Function.update_self, Option.mem_def, PacketQueue.without] at hq'
  split_ifs at hq' with hnil
  obtain rfl := Option.some.inj hq'
  obtain ⟨i, hi, hne, rfl⟩ := List.mem_eraseIdx_iff_getElem.mp hs'
  have hdistinct := List.pairwise_iff_getElem.mp (List.pairwise_map.mp hnodup)
  have hsame : q.targets[i].target = q.targets[q.find remote].target := by
    rw [hr, hsk]
    exact (getElem?_find hs).2.symm
  rcases lt_or_gt_of_ne hne with hlt | hgt
  · exact hdistinct i _ hi hk hlt hsame
  · exact hdistinct _ i hk hi hgt hsame.symm

/-- A target that has no entry gets none by an ACK; so an entry that is erased stays so. -/
theorem hasEntry_of_receiveAck (h : HasEntry
    (receiveAck t queue remote ack).value.sendQueue remote id) :
    HasEntry queue remote id := by
  obtain hvalue | ⟨q, s, hq, hs, -, hvalue⟩ := receiveAck_cases t queue remote ack
  · rw [hvalue] at h
    exact h
  · by_cases hid : id = packetId ack
    · rw [hid]
      exact ⟨q, hq, s, getElem?_find hs⟩
    · rw [hvalue] at h
      obtain ⟨q', hq', hs'⟩ := h
      refine ⟨q', ?_, hs'⟩
      split_ifs at hq' <;> simpa only [Function.update_of_ne hid] using hq'

theorem hasEntry_of_receiveAcks (h : HasEntry (receiveAcks t remote queue acks) remote id) :
    HasEntry queue remote id := by
  induction acks generalizing queue with
  | nil => exact h
  | cons ack acks ih => exact hasEntry_of_receiveAck (ih h)

/-- **One ACK**: the entry is erased, or the packets of the ACK are added to those that it has
acknowledged. -/
theorem Entry.receiveAck (h : Entry queue id remote count acked) (hack : AckFor id count ack) :
    if allAcked count (ackedWith ack acked) then
      ¬ HasEntry (receiveAck t queue remote ack).value.sendQueue remote id
    else
      Entry (receiveAck t queue remote ack).value.sendQueue id remote count
        (ackedWith ack acked) := by
  obtain ⟨⟨q, hq, hcount, hnodup, s, hs, rfl⟩, hlen⟩ := h
  have hid := hack.packetId_eq
  rw [value_receiveAck (hid ▸ hq) hs (hack.validAck hcount), hcount, hid]
  split_ifs with hall
  · exact not_hasEntry_without hnodup hs
  · refine ⟨⟨_, Function.update_self .., hcount, ?_, ?_⟩, length_ackedWith.trans hlen⟩
    · rwa [map_target_setAcked hs]
    · obtain ⟨hk, -⟩ := List.getElem?_eq_some_iff.mp hs
      have hfind : (q.setAcked (q.find remote) s (ackedWith ack s.acked)).find remote =
        q.find remote := by
        rw [find_eq, map_target_setAcked hs, ← find_eq]
      refine ⟨{ s with acked := ackedWith ack s.acked }, ?_, rfl⟩
      rw [hfind]
      exact List.getElem?_set_self hk

theorem Entry.hasEntry (h : Entry queue id remote count acked) : HasEntry queue remote id := by
  obtain ⟨⟨q, hq, -, -, s, hs, -⟩, -⟩ := h
  exact ⟨q, hq, s, getElem?_find hs⟩

/-- **Any ACKs**: the entry is erased if and only if every bit that is tested is acknowledged, by
one of them or before. -/
theorem Entry.not_hasEntry_iff (h : Entry queue id remote count acked)
    (hpending : ¬ allAcked count acked = true) (hacks : ∀ ack ∈ acks, AckFor id count ack) :
    ¬ HasEntry (receiveAcks t remote queue acks) remote id ↔
      ∀ n < testedBits count, bitAt acked n = true ∨ ∃ ack ∈ acks, acknowledges ack n = true := by
  induction acks generalizing queue acked with
  | nil =>
    rw [allAcked_iff h.length_eq] at hpending
    refine iff_of_false (fun hno => hno h.hasEntry) fun hall => hpending fun n hn => ?_
    exact (hall n hn).resolve_right (by simp)
  | cons ack acks ih =>
    obtain ⟨hack, hacks⟩ := List.forall_mem_cons.mp hacks
    have hbits : ∀ n < testedBits count, (bitAt (ackedWith ack acked) n = true ↔
        bitAt acked n = true ∨ acknowledges ack n = true) := by
      intro n hn
      have hlen := h.length_eq
      rw [bitAt_ackedWith, Bool.or_eq_true]
      unfold testedBits at hn
      split_ifs at hn <;> omega
    have hone := h.receiveAck (t := t) hack
    show ¬ HasEntry (receiveAcks t remote
      (Network.receiveAck t queue remote ack).value.sendQueue acks)
      remote id ↔ _
    by_cases hall : allAcked count (ackedWith ack acked) = true
    · rw [if_pos hall] at hone
      rw [allAcked_iff (length_ackedWith.trans h.length_eq)] at hall
      refine iff_of_true (fun hentry => hone (hasEntry_of_receiveAcks hentry)) fun n hn => ?_
      exact ((hbits n hn).mp (hall n hn)).imp_right fun hn => ⟨ack, List.mem_cons_self, hn⟩
    · rw [if_neg hall] at hone
      rw [ih hone hall hacks]
      refine forall₂_congr fun n hn => ?_
      rw [hbits n hn, or_assoc, List.exists_mem_cons_iff]

/-- The entry as `send` makes it: no packet of the message is acknowledged. -/
def Fresh (queue : SendQueue) (id remote count : ℕ) : Prop :=
  Entry queue id remote count (List.replicate (count / 8 + 1) 0)

theorem fresh_afterSend (e : Endpoint) (id hash : ℕ) (payload : Bytes) :
    Fresh (e.afterSend id hash payload).sendQueue id otherNode (e.count payload) where
  exists_queue := ⟨e.queued hash payload, Function.update_self .., rfl, List.nodup_singleton _,
    ⟨otherNode, List.replicate (e.count payload / 8 + 1) 0⟩, rfl, rfl⟩
  length_eq := List.length_replicate

/-- After any ACKs for a message the target is removed if and only if every bit that is tested has
been acknowledged. -/
theorem Fresh.not_hasEntry_iff (h : Fresh queue id remote count)
    (hacks : ∀ ack ∈ acks, AckFor id count ack) :
    ¬ HasEntry (receiveAcks t remote queue acks) remote id ↔
      ∀ n < testedBits count, ∃ ack ∈ acks, acknowledges ack n = true := by
  have hpos : 0 < testedBits count := by
    unfold testedBits
    split_ifs <;> omega
  have hpending : ¬ allAcked count (List.replicate (count / 8 + 1) 0) = true := by
    rw [allAcked_iff h.length_eq]
    intro hall
    exact absurd (hall 0 hpos) (by rw [bitAt_replicate]; exact Bool.false_ne_true)
  rw [Entry.not_hasEntry_iff h hpending hacks]
  refine forall₂_congr fun n _ => ?_
  rw [bitAt_replicate]
  simp

/-- **When the target is removed as it should be.**  All packets being acknowledged is enough only
when their number is not a multiple of eight; the byte behind the packets, of which an ACK never
sets a bit, is tested otherwise. -/
theorem removed_iff (h : Fresh queue id remote count) (hacks : ∀ ack ∈ acks, AckFor id count ack) :
    (¬ HasEntry (receiveAcks t remote queue acks) remote id ↔
        ∀ n < count, ∃ ack ∈ acks, acknowledges ack n = true) ↔
      (count % 8 ≠ 0 ∨ ¬ ∀ n < count, ∃ ack ∈ acks, acknowledges ack n = true) := by
  rw [h.not_hasEntry_iff hacks, testedBits]
  by_cases hmod : count % 8 = 0
  · rw [if_pos hmod]
    have hnever : ¬ ∀ n < count + 8, ∃ ack ∈ acks, acknowledges ack n = true := by
      intro hall
      obtain ⟨ack, hack, hbit⟩ := hall count (by omega)
      exact absurd ((hacks ack hack).lt_of_acknowledges hbit le_rfl) (lt_irrefl _)
    rw [iff_false_left hnever]
    exact (or_iff_right (not_not.mpr hmod)).symm
  · rw [if_neg hmod]
    exact iff_of_true Iff.rfl (.inl hmod)

end

/-- A message of `n` packets of one byte, the last of them empty, has been sent. -/
def sentBytes (n : ℕ) : Endpoint :=
  (⟨.new, fun _ => none, 0, 1⟩ : Endpoint).afterSend 1 7 (List.replicate (n - 1) 0)

/-- A packet of it that comes again. -/
def repeatedPacket (n : ℕ) : Bytes := dataPacket .dataRetransmission 1 0 n true 7 [0]

theorem removed_iff_two : ¬ HasEntry (receiveAcks .new otherNode (sentBytes 2).sendQueue
    [(acknowledgeAll (repeatedPacket 2)).value]) otherNode 1 := by
  have hacks : ∀ ack ∈ [(acknowledgeAll (repeatedPacket 2)).value], AckFor 1 2 ack := by
    intro ack hack
    rw [List.mem_singleton.mp hack]
    exact .all rfl rfl
  have hfresh : Fresh (sentBytes 2).sendQueue 1 otherNode 2 := fresh_afterSend _ 1 7 _
  have hiff := (removed_iff (t := .new) hfresh hacks).mpr (.inl (by decide))
  exact hiff.mpr (by decide)

/-- Eight packets, all of them acknowledged. -/
theorem not_removed_eight :
    ¬ ∀ (t : TargetData) (queue : SendQueue) (remote id count : ℕ) (acks : List Bytes), 1 ≤ count →
      Fresh queue id remote count → (∀ ack ∈ acks, AckFor id count ack) →
        (¬ HasEntry (receiveAcks t remote queue acks) remote id ↔
          ∀ n < count, ∃ ack ∈ acks, acknowledges ack n = true) := by
  intro h
  have hfresh : Fresh (sentBytes 8).sendQueue 1 otherNode 8 := fresh_afterSend _ 1 7 _
  have hacks : ∀ ack ∈ [(acknowledgeAll (repeatedPacket 8)).value], AckFor 1 8 ack := by
    intro ack hack
    rw [List.mem_singleton.mp hack]
    exact .all rfl rfl
  have hremoved := (h .new _ _ _ _ _ (by decide) hfresh hacks).mpr (by decide)
  rw [hfresh.not_hasEntry_iff hacks] at hremoved
  exact absurd (hremoved 8 (by decide)) (by decide)

/-! ## NACKs -/

/-- The packets that a NACK asks for, in the order of their numbers. -/
def requested (count : ℕ) (payload : Bytes) : List ℕ :=
  (List.range count).filter fun n => bitAt (payload.drop nackBits) n

/-- A valid NACK for an entry is handled as it should be: its packets are not acknowledged any more,
and just these are sent again. -/
structure NackHandled (mtu : ℕ) (t : TargetData) (queue : SendQueue) (remote : ℕ) (payload : Bytes)
    (q : PacketQueue) (s : PacketTarget) : Prop where
  /-- It ends, and reads nothing behind the datagram. -/
  safe : (receiveNack mtu t queue remote payload).Safe
  /-- Of what is acknowledged the requested packets are cleared, and nothing else changes. -/
  cleared : ∃ acked : Bytes, acked.length = s.acked.length ∧
    (∀ n, n / 8 < s.acked.length →
      bitAt acked n = (bitAt s.acked n && !bitAt (payload.drop nackBits) n)) ∧
    (receiveNack mtu t queue remote payload).value.sendQueue =
      Function.update queue (packetId payload) (q.setAcked (q.find remote) s acked)
  /-- Each of the requested packets is sent once. -/
  sent : (receiveNack mtu t queue remote payload).value.responses =
    (requested q.packetCount payload).map fun n =>
      (q.resendPacket mtu (packetId payload) n).value

section

variable {mtu remote : ℕ} {t : TargetData} {queue : SendQueue} {payload : Bytes} {q : PacketQueue}
  {e : PacketTarget}

/-- The bits are cleared as they should be, whatever happens to the packets that are sent again. -/
theorem cleared_receiveNack (hq : queue (packetId payload) = some q)
    (he : q.targets[q.find remote]? = some e) (hvalid : validNack q payload) :
    ∃ acked : Bytes, acked.length = e.acked.length ∧
      (∀ n, n / 8 < e.acked.length →
        bitAt acked n = (bitAt e.acked n && !bitAt (payload.drop nackBits) n)) ∧
      (receiveNack mtu t queue remote payload).value.sendQueue =
        Function.update queue (packetId payload) (q.setAcked (q.find remote) e acked) := by
  refine ⟨ackedWithout payload e.acked, length_ackedWithout, fun n hn => bitAt_ackedWithout hn, ?_⟩
  rw [value_receiveNack hq he hvalid]

/-- **A NACK is handled as it should be only for a message without packets**: the loop takes the
number of a bit for that of a byte, so it reads behind the datagram. -/
theorem nackHandled_iff {a : Sock} {s : Node} (h : Reaches nodeStep Always (.reset a mtu) s)
    (hq : s.sendQueue (packetId payload) = some q) (he : q.targets[q.find remote]? = some e)
    (hvalid : validNack q payload) :
    NackHandled s.packetDataMtu (s.data remote) s.sendQueue remote payload q e ↔
      q.packetCount = 0 := by
  have hwell : WellFormed s :=
    h.invariant (wellFormed_reset a mtu) fun _ _ _ hx _ hst => hx.step hst
  have hentry : ∃ e ∈ q.targets, e.target = remote := ⟨e, getElem?_find he⟩
  constructor
  · intro hh
    have hbounds := (safe_receiveNack hwell.acked).mp hh.safe
    exact (hbounds.2 q hq hentry).2 hvalid.1 hvalid.2
  · intro hzero
    have hlen : payload.length = 10 := by
      rw [hvalid.2, hzero]
      rfl
    refine ⟨(safe_receiveNack hwell.acked).mpr
      ⟨by omega, fun q' hq' _ => ⟨by omega, fun _ _ => ?_⟩⟩,
      cleared_receiveNack hq he hvalid, ?_⟩
    · obtain rfl := Option.some.inj (hq.symm.trans hq')
      exact hzero
    · rw [value_receiveNack hq he hvalid, hvalid.1, requested, hzero]
      rfl

end

/-- The other node announces itself, and a message of nine packets is sent to it. -/
def sendsNine : List NodeAction :=
  [.receive peerAddress announceRobot [], .send 7 (List.replicate 8 0) "" true]

/-- The other node asks for packet one again. -/
def nackOne : Bytes := (setBits nackBits [1] (nackPacket 1 9)).value

/-- What the example is about: the entry of the message, and that nothing is sent again. -/
def ignoresNack (s : Node) : Bool :=
  (s.sendQueue (packetId nackOne)).any fun q => (q.targets[q.find 1]?).any fun _ =>
    decide (validNack q nackOne) &&
      (receiveNack s.packetDataMtu (s.data 1) s.sendQueue 1 nackOne).value.responses.isEmpty

theorem nackHandled_iff_sendsNine : ∃ (s : Node) (q : PacketQueue) (e : PacketTarget),
    s.sendQueue (packetId nackOne) = some q ∧
      ¬ NackHandled s.packetDataMtu (s.data 1) s.sendQueue 1 nackOne q e := by
  have hrun : (exec nodeStep (.reset multicastAddress 1) sendsNine).any ignoresNack = true := by
    decide +kernel
  obtain ⟨s, hs, hn⟩ := (Option.any_eq_true _ _).mp hrun
  obtain ⟨q, hq, hn⟩ := (Option.any_eq_true _ _).mp hn
  obtain ⟨e, he, hn⟩ := (Option.any_eq_true _ _).mp hn
  have hvalid : validNack q nackOne := of_decide_eq_true (Bool.and_eq_true_iff.mp hn).1
  refine ⟨s, q, e, hq, fun hh => ?_⟩
  have hzero := (nackHandled_iff (reaches_always_of_exec hs) hq he hvalid).mp hh
  rw [← hvalid.1] at hzero
  exact absurd hzero (by decide)

/-- Packet one is asked for by a bit of byte zero, and the loop looks for it in byte one. -/
theorem not_nackHandled_sendsNine :
    ¬ ∀ (a : Sock) (mtu : ℕ) (s : Node), Reaches nodeStep Always (.reset a mtu) s →
      ∀ (remote : ℕ) (payload : Bytes) (q : PacketQueue) (e : PacketTarget),
        s.sendQueue (packetId payload) = some q → q.targets[q.find remote]? = some e →
          validNack q payload →
            NackHandled s.packetDataMtu (s.data remote) s.sendQueue remote payload q e := by
  intro h
  have hrun : (exec nodeStep (.reset multicastAddress 1) sendsNine).any ignoresNack = true := by
    decide +kernel
  obtain ⟨s, hs, hn⟩ := (Option.any_eq_true _ _).mp hrun
  obtain ⟨q, hq, hn⟩ := (Option.any_eq_true _ _).mp hn
  obtain ⟨e, he, hn⟩ := (Option.any_eq_true _ _).mp hn
  obtain ⟨hvalid, hnone⟩ := Bool.and_eq_true_iff.mp hn
  have hvalid : validNack q nackOne := of_decide_eq_true hvalid
  have hsent := (h _ _ s (reaches_always_of_exec hs) 1 nackOne q e hq he hvalid).sent
  rw [List.isEmpty_iff.mp hnone, ← hvalid.1] at hsent
  have hone : requested (nackCount nackOne) nackOne = [1] := by decide +kernel
  rw [hone] at hsent
  exact absurd hsent (List.cons_ne_nil _ _).symm

end Network
end Extension
end NUClear
