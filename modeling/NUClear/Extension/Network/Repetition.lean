import NUClear.Extension.Network.Acknowledgement
import NUClear.Extension.Network.Reassembly

/-!
# At most one delivery (`NUClearNetwork.cpp`)

Two mechanisms keep a node from handing a message over twice.  A retransmission is looked up in
`recent_packets`, a ring of 255 ids, and answered from there.  And a message of several packets is
handed over when its assembler is full, and the assembler is deleted then.

Neither covers every arrival.  A DATA datagram is not looked up: when the only packet of a message
comes twice as DATA, or as DATA behind its own retransmission, it is handed over twice.  Nor is a
packet of several kept from starting a new assembler, so the message is handed over again when all
its packets come again.  And an id leaves the ring when 255 others have come, or was never in it:
the index runs up to 255, and the array has no such place.

The theorem says that there are no other ways, by what arrives and what was done before:

* the only packet of a message comes again as a retransmission, after its id was put into
  `recent_packets` and before the index of the ring starts again (`remembers`);
* of a message of several packets fewer than `packet_count` different ones have come since the node
  deleted the assembler of the id (`numbersSince`), which it does when it hands the message over.

Then every message is handed over at most once in every run (`deliveries_le_one_of_reaches`).

The argument counts, for each send, its deliveries and the threads that will deliver it (`total`):
the second kind of thread is one with the only packet of its message, or one that has assembled it.
Three invariants carry the count: all datagrams of a send have the same number of packets and come
from one node (`Uniform`), an assembler holds only packets that have come since it was deleted, and
what was remembered since the index was last zero is in the ring (`Holds`).
-/

namespace NUClear
namespace Extension
namespace Network

open Foundation

/-! ## What has come -/

/-- The numbers of the packets that node `b` has put into the assembler of an id since it deleted
it, the latest first. -/
def numbersSince (b : Bool) (id : ℕ) : List LinkEvent → List ℕ
  | [] => []
  | .stored b' id' no :: l =>
    if b' = b ∧ id' = id then no :: numbersSince b id l else numbersSince b id l
  | .deleted b' ids :: l => if b' = b ∧ id ∈ ids then [] else numbersSince b id l
  | _ :: l => numbersSince b id l

/-- The sends whose ids node `b` has put into `recent_packets`, with the ids, the latest first. -/
def rememberedBy (b : Bool) : List LinkEvent → List (ℕ × ℕ)
  | [] => []
  | .remembered b' n id :: l => if b' = b then (n, id) :: rememberedBy b l else rememberedBy b l
  | _ :: l => rememberedBy b l

namespace Link

/-- Node `b` answers the datagram from `recent_packets`: it is a retransmission, and its message was
remembered since the index of the ring was last zero. -/
def remembers (s : Link) (b : Bool) (x : ℕ × Bytes) : Prop :=
  packetType x.2 = some .dataRetransmission ∧ reliable x.2 = true ∧
    (x.1, packetId x.2) ∈ (rememberedBy b s.trace).take (s.nodes b).target.recentPacketsIndex

/-- **The condition** on a step.  When the only packet of a message comes again, the node remembers
the message; and when a packet of several is put into an assembler again, not all the others have
come again before. -/
def repeatsNothing (s : Link) : LinkAction → Prop
  | .receive b k => ∀ x ∈ (s.inFlight b)[k]?, isData x.2 = true → packetNo x.2 ≤ packetCount x.2 →
      packetCount x.2 = 1 → (s.isHanded b x.1 ∨ ∃ h ∈ s.handlers b, h.send = x.1) → s.remembers b x
  | .proceed b j _ => ∀ h ∈ (s.handlers b)[j]?, h.stage = .looked → packetCount h.payload ≠ 1 →
      s.isHanded b h.send →
        (packetNo h.payload :: numbersSince b (packetId h.payload) s.trace).dedup.length <
          packetCount h.payload
  | _ => True

/-! ## The number of packets -/

/-- Node `b` sent the message, and it has so many packets, with the size of the packets of this
node. -/
def HasCount (s : Link) (b : Bool) (n count : ℕ) : Prop :=
  ∃ hash message, .sent n b hash message ∈ s.trace ∧ count = (s.nodes b).count message

/-- Every datagram of a message comes from the node that sent it, and has its number of packets. -/
structure Uniform (s : Link) : Prop where
  flight : ∀ b, ∀ x ∈ s.inFlight (!b), isData x.2 = true → s.HasCount b x.1 (packetCount x.2)
  threads : ∀ b, ∀ h ∈ s.handlers (!b), s.HasCount b h.send (packetCount h.payload)
  queued : ∀ b id, ∀ q ∈ (s.nodes b).sendQueue id, s.HasCount b (s.latest b id) q.packetCount

variable {s s' : Link} {b c : Bool} {n m count j k : ℕ} {payload : Bytes} {timedOut : List ℕ}
  {h : Handler} {a : LinkAction} {t : TargetData}

/-- A message has one sender and one number of packets, since the sends are numbered. -/
theorem HasCount.unique {count' : ℕ} (hs : Numbered s) (hn : s.HasCount b n count)
    (hn' : s.HasCount c n count') : b = c ∧ count = count' := by
  obtain ⟨hash, message, hsent, rfl⟩ := hn
  obtain ⟨hash', message', hsent', rfl⟩ := hn'
  obtain ⟨rfl, -, rfl⟩ := hs.unique _ _ _ _ _ _ _ hsent hsent'
  exact ⟨rfl, rfl⟩

theorem HasCount.lt (hn : s.HasCount b n count) : count < 2 ^ 16 := by
  obtain ⟨hash, message, -, rfl⟩ := hn
  exact Nat.mod_lt _ (by decide)

theorem HasCount.mono (hn : s.HasCount b n count) (htrace : s.trace ⊆ s'.trace)
    (hmtu : (s'.nodes b).packetDataMtu = (s.nodes b).packetDataMtu) : s'.HasCount b n count := by
  obtain ⟨hash, message, hsent, rfl⟩ := hn
  exact ⟨hash, message, htrace hsent, by rw [Endpoint.count, Endpoint.count, hmtu]⟩

/-- A node has done something with a packet. -/
theorem Uniform.worked {responses : List Bytes} {handlers : List Handler} {events : List LinkEvent}
    {m : ℕ}
    (hu : Uniform s) (hresponses : ∀ d ∈ responses, isData d = false)
    (hhandlers : ∀ h ∈ handlers, s.HasCount (!c) h.send (packetCount h.payload)) :
    Uniform (s.worked c m t responses handlers events) := by
  have hmono {b : Bool} {n count : ℕ} (hn : s.HasCount b n count) :
      (s.worked c m t responses handlers events).HasCount b n count :=
    hn.mono (List.subset_append_right _ _) packetDataMtu_worked
  refine ⟨fun b x hx hdata => ?_, fun b h hh => ?_, fun b id q hq => ?_⟩
  · rcases mem_launch hx with hx | ⟨-, -, hx⟩
    · exact hmono (hu.flight b x hx hdata)
    · exact Bool.noConfusion ((hresponses x.2 hx).symm.trans hdata)
  · by_cases hb : (!b) = c
    · subst hb
      rw [handlers_worked_self] at hh
      have hcount := hhandlers h hh
      rw [Bool.not_not] at hcount
      exact hmono hcount
    · rw [handlers_worked_of_ne hb] at hh
      exact hmono (hu.threads b h hh)
  · rw [sendQueue_worked] at hq
    exact hmono (hu.queued b id q hq)

/-- A node has received an ACK or a NACK: what it sends again has the number of packets of its
queue. -/
theorem Uniform.responded {r : Reception} (hu : Uniform s)
    (hresponses : ∀ d ∈ r.responses, isData d = true →
      s.HasCount c (s.latest c (packetId payload)) (packetCount d))
    (hqueue : ∀ id, ∀ q ∈ r.sendQueue id, ∃ q' ∈ (s.nodes c).sendQueue id,
      q'.packetCount = q.packetCount) :
    Uniform (s.responded c payload r) := by
  have hmono {b : Bool} {n count : ℕ} (hn : s.HasCount b n count) :
      (s.responded c payload r).HasCount b n count :=
    hn.mono (List.subset_append_right _ _) packetDataMtu_responded
  refine ⟨fun b x hx hdata => ?_, fun b h hh => hmono (hu.threads b h hh), fun b id q hq => ?_⟩
  · rcases mem_launch hx with hx | ⟨hb, hmark, hx⟩
    · exact hmono (hu.flight b x hx hdata)
    · rw [Bool.not_inj hb, hmark]
      exact hmono (hresponses x.2 hx hdata)
  · by_cases hb : b = c
    · subst hb
      rw [nodes_responded_self] at hq
      obtain ⟨q', hq', hcount⟩ := hqueue id q hq
      exact hcount ▸ hmono (hu.queued b id q' hq')
    · rw [nodes_responded_of_ne hb] at hq
      exact hmono (hu.queued b id q hq)

/-- A packet that is sent again has the number of packets of its queue in its header. -/
theorem packetCount_resendPacket {mtu id i : ℕ} {q : PacketQueue} (hq : q.packetCount < 2 ^ 16) :
    packetCount (q.resendPacket mtu id i).value = q.packetCount := by
  rw [PacketQueue.resendPacket, value_sendPacket]
  exact packetCount_dataPacket hq

theorem mem_value_resend {mtu id : ℕ} {q : PacketQueue} {l : List ℕ} {d : Bytes}
    (hd : d ∈ (resend mtu id q payload l).value) : ∃ i, d = (q.resendPacket mtu id i).value := by
  induction l with
  | nil => exact absurd hd List.not_mem_nil
  | cons i l ih =>
    rw [resend, Checked.value_bind, Checked.value_bind, Checked.value_pure] at hd
    rcases List.mem_append.mp hd with hd | hd
    · rw [resendNacked, Checked.value_bind, Checked.value_ite] at hd
      split_ifs at hd
      · exact ⟨i, List.mem_singleton.mp hd⟩
      · exact absurd hd List.not_mem_nil
    · exact ih hd

/-- The entries of the send queue after an ACK. -/
theorem packetCount_receiveAck {queue : SendQueue} {remote id : ℕ} {q : PacketQueue}
    (hq : q ∈ (receiveAck t queue remote payload).value.sendQueue id) :
    ∃ q' ∈ queue id, q'.packetCount = q.packetCount := by
  obtain hr | ⟨q', e, hq', -, -, hr⟩ := receiveAck_cases t queue remote payload
  · rw [hr] at hq
    exact ⟨q, hq, rfl⟩
  · have hupdate {o : Option PacketQueue} (ho : ∀ q ∈ o, q'.packetCount = q.packetCount)
        (hq : q ∈ Function.update queue (packetId payload) o id) :
        ∃ q' ∈ queue id, q'.packetCount = q.packetCount := by
      by_cases hid : id = packetId payload
      · subst hid
        rw [Function.update_self] at hq
        exact ⟨q', hq', ho q hq⟩
      · rw [Function.update_of_ne hid] at hq
        exact ⟨q, hq, rfl⟩
    rw [hr] at hq
    split_ifs at hq with hall
    · refine hupdate (fun q hq => ?_) hq
      rw [PacketQueue.without] at hq
      split_ifs at hq
      · exact absurd hq (Option.not_mem_none q)
      · obtain rfl := Option.some.inj hq
        rfl
    · refine hupdate (fun q hq => ?_) hq
      obtain rfl := Option.some.inj hq
      rfl

theorem isData_of_packetType (hp : packetType payload = some .ack ∨
    packetType payload = some .nack) :
    isData payload = false := by
  rw [isData]
  rcases hp with hp | hp <;> rw [hp] <;> cases isPacket payload <;> rfl

theorem packetType_of_mem_singleton {d : Bytes} (hd : d ∈ [(acknowledgeAll payload).value]) :
    isData d = false := by
  obtain rfl := List.mem_singleton.mp hd
  exact isData_of_packetType (.inl (packetType_setBits ..))

/-- A message is sent. -/
theorem Uniform.sendAs {id hash : ℕ} {message : Bytes} (hu : Uniform s) :
    Uniform (s.sendAs b id hash message) := by
  have hmono {c : Bool} {n count : ℕ} (hn : s.HasCount c n count) :
      (s.sendAs b id hash message).HasCount c n count :=
    hn.mono (List.subset_cons_self _ _) packetDataMtu_sendAs
  have hnew : (s.sendAs b id hash message).HasCount b s.nextSend ((s.nodes b).count message) :=
    ⟨hash, message, List.mem_cons_self,
      by rw [Endpoint.count, Endpoint.count, packetDataMtu_sendAs]⟩
  refine ⟨fun c x hx hdata => ?_, fun c h hh => hmono (hu.threads c h hh), fun c id' q hq => ?_⟩
  · rcases mem_launch hx with hx | ⟨hc, hmark, hx⟩
    · exact hmono (hu.flight c x hx hdata)
    · obtain ⟨p, hp, heq⟩ := List.mem_map.mp hx
      obtain ⟨no, hno, rfl⟩ := mem_messagePackets.mp hp
      have hlt : messageCount (s.nodes b).packetDataMtu message < 2 ^ 16 := hnew.lt
      rw [Bool.not_inj hc, hmark, ← heq, value_sendPacket, packetCount_dataPacket hlt]
      exact hnew
  · rcases mem_sendQueue_sendAs hq with ⟨rfl, rfl, rfl⟩ | ⟨hlatest, hq⟩
    · rw [latest_sendAs_self]
      exact hnew
    · rw [hlatest]
      exact hmono (hu.queued c id' q hq)

/-- **A step** keeps the numbers of packets. -/
theorem Uniform.step (hu : Uniform s) (hst : linkStep s a = some s') : Uniform s' := by
  cases a with
  | send b hash message =>
    obtain ⟨id, -, rfl⟩ := Option.map_eq_some_iff.mp hst
    exact hu.sendAs
  | retransmit b id =>
    obtain ⟨q, hq, hst⟩ := Option.bind_eq_some_iff.mp hst
    obtain ⟨e, -, hst⟩ := Option.bind_eq_some_iff.mp hst
    obtain rfl := Option.some.inj hst
    refine ⟨fun c x hx hdata => ?_, hu.threads, hu.queued⟩
    rcases mem_launch hx with hx | ⟨hc, hmark, hx⟩
    · exact hu.flight c x hx hdata
    · obtain ⟨no, -, heq⟩ := List.mem_map.mp hx
      have hcount := hu.queued b id q hq
      rw [Bool.not_inj hc, hmark, ← heq, packetCount_resendPacket hcount.lt]
      exact hcount
  | lose b k =>
    obtain rfl := Option.some.inj hst
    exact ⟨fun c x hx hdata => hu.flight c x (mem_inFlight_lose hx) hdata, hu.threads, hu.queued⟩
  | receive b k =>
    obtain ⟨x, hx, ⟨type, hpacket, htype, rfl⟩ | ⟨-, rfl⟩⟩ := linkStep_receive hst
    · have hmem := List.mem_of_getElem? hx
      cases type with
      | data | dataRetransmission =>
        rw [received_data (by simp), lookUp]
        have hdata : isData x.2 = true := (isData_iff hpacket htype).mpr (by simp)
        have hcount : s.HasCount (!b) x.1 (packetCount x.2) :=
          hu.flight (!b) x ((Bool.not_not b).symm ▸ hmem) hdata
        have hthreads : ∀ h ∈ s.handlers b, s.HasCount (!b) h.send (packetCount h.payload) :=
          fun h hh => hu.threads (!b) h ((Bool.not_not b).symm ▸ hh)
        split_ifs
        · exact hu
        · exact hu.worked (fun d hd => packetType_of_mem_singleton hd) hthreads
        · refine hu.worked (fun d hd => absurd hd List.not_mem_nil) fun h hh => ?_
          rcases List.mem_append.mp hh with hh | hh
          · exact hthreads h hh
          · obtain rfl := List.mem_singleton.mp hh
            exact hcount
      | ack =>
        refine hu.responded (fun d hd => ?_) fun id q hq => packetCount_receiveAck hq
        obtain hr | ⟨q, e, -, -, -, hr⟩ := receiveAck_cases (s.nodes b).target
          (s.nodes b).sendQueue otherNode x.2
        · rw [hr] at hd
          exact absurd hd List.not_mem_nil
        · rw [hr] at hd
          split_ifs at hd <;> exact absurd hd List.not_mem_nil
      | nack =>
        obtain hr | ⟨q, e, hq, -, -, hr⟩ := receiveNack_cases (s.nodes b).packetDataMtu
          (s.nodes b).target (s.nodes b).sendQueue otherNode x.2
        · refine hu.responded (fun d hd => ?_) fun id q hq => ?_
          · rw [hr] at hd
            exact absurd hd List.not_mem_nil
          · rw [hr] at hq
            exact ⟨q, hq, rfl⟩
        · have hcount := hu.queued b _ q hq
          refine hu.responded (fun d hd _ => ?_) fun id q' hq' => ?_
          · rw [hr] at hd
            obtain ⟨i, rfl⟩ := mem_value_resend hd
            rw [packetCount_resendPacket hcount.lt]
            exact hcount
          · simp only [hr] at hq'
            by_cases hid : id = packetId x.2
            · subst hid
              rw [Function.update_self] at hq'
              obtain rfl := Option.some.inj hq'
              exact ⟨q, hq, rfl⟩
            · rw [Function.update_of_ne hid] at hq'
              exact ⟨q', hq', rfl⟩
      | announce | leave => exact hu
    · exact hu
  | proceed b j timedOut =>
    obtain ⟨h, hj, -, rfl⟩ := linkStep_proceed hst
    have hthreads (h' : Handler) (hh : h' ∈ s.handlers b) :
        s.HasCount (!b) h'.send (packetCount h'.payload) :=
      hu.threads (!b) h' ((Bool.not_not b).symm ▸ hh)
    refine hu.worked (fun d hd => isData_of_packetType (packetType_proceed hd)) fun h' hh => ?_
    rcases mem_settle hh with hh | ⟨stage, -, rfl⟩
    · exact hthreads h' hh
    · exact hthreads h (List.mem_of_getElem? hj)

end Link

/-! ## What a node holds -/

/-- What a node keeps, and what has happened: an assembler is in order and holds only packets that
have come since it was deleted, and what was remembered since the index of the ring was last zero
stands in front of the index. -/
structure Holds (b : Bool) (t : TargetData) (trace : List LinkEvent) : Prop where
  ordered : ∀ id, Ordered (t.assemblers id)
  came : ∀ id, ∀ p ∈ t.assemblers id, p.1 ∈ numbersSince b id trace
  length_eq : t.recentPackets.length = recentPacketsSize
  index_le : t.recentPacketsIndex ≤ recentPacketsSize
  ring : t.recentPackets.take t.recentPacketsIndex =
    (((rememberedBy b trace).take t.recentPacketsIndex).map fun p => (p.2 : ℤ)).reverse

section

variable {b c : Bool} {t : TargetData} {trace : List LinkEvent} {n id : ℕ} {payload : Bytes}
  {timedOut : List ℕ} {h : Handler} {e : LinkEvent}

theorem holds_new (b : Bool) : Holds b .new [] where
  ordered _ := List.Pairwise.nil
  came _ _ hp := absurd hp List.not_mem_nil
  length_eq := List.length_replicate
  index_le := Nat.zero_le _
  ring := rfl

/-- Something happens that the node does not keep. -/
theorem Holds.of_eq {trace' : List LinkEvent} (hk : Holds b t trace)
    (hnumbers : ∀ id, numbersSince b id trace' = numbersSince b id trace)
    (hremembered : rememberedBy b trace' = rememberedBy b trace) : Holds b t trace' where
  ordered := hk.ordered
  came id p hp := (hnumbers id).symm ▸ hk.came id p hp
  length_eq := hk.length_eq
  index_le := hk.index_le
  ring := hremembered.symm ▸ hk.ring

/-- The other node's threads. -/
theorem Holds.other {left : Bool} (hk : Holds b t trace) (hc : c ≠ b) :
    Holds b t (h.events c timedOut left ++ trace) := by
  refine hk.of_eq (fun id => ?_) ?_ <;> unfold Handler.events <;> cases h.stage <;> cases left <;>
    cases reliable h.payload <;> simp [numbersSince, rememberedBy, hc] <;> split_ifs <;>
    simp [numbersSince, rememberedBy, hc]

/-- A packet goes into its assembler, and is one of those that have come since this was deleted. -/
theorem Holds.store (payload : Bytes) (hk : Holds b t trace) :
    Holds b (t.setAssembler (packetId payload) (t.fragments payload))
      (.stored b (packetId payload) (packetNo payload) :: trace) where
  ordered id := by
    rw [TargetData.setAssembler_assemblers]
    by_cases hid : id = packetId payload
    · subst hid
      rw [Function.update_self]
      exact (hk.ordered _).keptFragments.insertFragment
    · rw [Function.update_of_ne hid]
      exact hk.ordered id
  came id p hp := by
    rw [TargetData.setAssembler_assemblers] at hp
    by_cases hid : id = packetId payload
    · subst hid
      rw [Function.update_self] at hp
      rw [numbersSince, if_pos ⟨rfl, rfl⟩]
      rcases mem_insertFragment.mp hp with rfl | ⟨hp, -⟩
      · exact List.mem_cons_self
      · refine List.mem_cons_of_mem _ (hk.came _ p ?_)
        unfold keptFragments at hp
        split_ifs at hp
        · exact absurd hp List.not_mem_nil
        · exact hp
    · rw [Function.update_of_ne hid] at hp
      rw [numbersSince, if_neg fun heq => hid heq.2.symm]
      exact hk.came id p hp
  length_eq := hk.length_eq
  index_le := hk.index_le
  ring := hk.ring

/-- Assemblers are deleted, with what was said of the packets in them. -/
theorem Holds.expire (timedOut : List ℕ) (hk : Holds b t trace) :
    Holds b (t.expire timedOut) (.deleted b timedOut :: trace) where
  ordered id := by
    rw [TargetData.expire_assemblers]
    split_ifs
    · exact List.Pairwise.nil
    · exact hk.ordered id
  came id p hp := by
    rw [TargetData.expire_assemblers] at hp
    split_ifs at hp with hid
    · exact absurd hp List.not_mem_nil
    · rw [numbersSince, if_neg fun heq => hid heq.2]
      exact hk.came id p hp
  length_eq := hk.length_eq
  index_le := hk.index_le
  ring := hk.ring

/-- The assembler of a message that has been handed over is deleted, and those that have timed
out. -/
theorem expire_setAssembler_nil :
    (t.setAssembler id []).expire timedOut = t.expire (id :: timedOut) := by
  refine congrArg (TargetData.mk t.recentPackets t.recentPacketsIndex) (funext fun id' => ?_)
  show (if id' ∈ timedOut then [] else Function.update t.assemblers id [] id') =
    if id' ∈ id :: timedOut then [] else t.assemblers id'
  by_cases hout : id' ∈ timedOut
  · rw [if_pos hout, if_pos (List.mem_cons_of_mem _ hout)]
  · rw [if_neg hout]
    by_cases hid : id' = id
    · subst hid
      rw [Function.update_self, if_pos List.mem_cons_self]
    · rw [Function.update_of_ne hid, if_neg fun hmem => (List.mem_cons.mp hmem).elim hid hout]

/-- An id goes into the ring, or behind its end; then the index is zero again, and nothing is said
of the ring. -/
theorem Holds.addRecent (hk : Holds b t trace) :
    Holds b (t.addRecent id).value (.remembered b n id :: trace) := by
  have hlog : rememberedBy b (.remembered b n id :: trace) = (n, id) :: rememberedBy b trace :=
    if_pos rfl
  have hlen : (t.recentPackets.set t.recentPacketsIndex id).length = recentPacketsSize :=
    List.length_set.trans hk.length_eq
  refine ⟨hk.ordered, hk.came, hlen, ?_, ?_⟩
  · show (t.recentPacketsIndex + 1) % 2 ^ 8 ≤ recentPacketsSize
    exact Nat.le_of_lt_succ (Nat.mod_lt _ (by decide))
  · show (t.recentPackets.set t.recentPacketsIndex id).take ((t.recentPacketsIndex + 1) % 2 ^ 8) =
      (((rememberedBy b (.remembered b n id :: trace)).take
        ((t.recentPacketsIndex + 1) % 2 ^ 8)).map fun p => (p.2 : ℤ)).reverse
    rw [hlog]
    rcases hk.index_le.lt_or_eq with hlt | heq
    · have hmod : (t.recentPacketsIndex + 1) % 2 ^ 8 = t.recentPacketsIndex + 1 :=
        Nat.mod_eq_of_lt (by unfold recentPacketsSize at hlt; omega)
      have hget : (t.recentPackets.set t.recentPacketsIndex (id : ℤ))[t.recentPacketsIndex]? =
          some (id : ℤ) := List.getElem?_set_self (hk.length_eq.symm ▸ hlt)
      rw [hmod, List.take_add_one, hget, List.take_set_of_le le_rfl, hk.ring, List.take_succ_cons,
        List.map_cons, List.reverse_cons]
      rfl
    · -- the index starts again
      have hmod : (t.recentPacketsIndex + 1) % 2 ^ 8 = 0 := by rw [heq]; rfl
      rw [hmod]
      rfl

theorem Holds.remember (n : ℕ) (payload : Bytes) (hk : Holds b t trace) :
    Holds b (t.remember payload).value
    ((if reliable payload then [.remembered b n (packetId payload)] else []) ++ trace) := by
  rw [value_remember]
  split_ifs
  · exact hk.addRecent
  · exact hk

/-- **A step of a thread** of the node changes what it keeps and adds the events to the trace that
say so. -/
theorem Holds.proceed (hk : Holds b t trace) :
    Holds b (t.proceed h.payload timedOut h.stage).target
      (h.events b timedOut (t.proceed h.payload timedOut h.stage).stage.isNone ++ trace) := by
  unfold Handler.events
  cases h.stage with
  | looked =>
    by_cases hone : packetCount h.payload = 1
    · rw [proceed_single hone]
      simp only [if_pos hone]
      exact hk
    · simp only [if_neg hone]
      by_cases hlen : (t.fragments h.payload).length = packetCount h.payload
      · rw [proceed_last hone hlen]
        exact hk.store _
      · rw [proceed_fragment hone hlen]
        exact (hk.store _).expire _
  | answered message => exact hk.remember _ _
  | remembered message => exact hk.of_eq (fun _ => rfl) rfl
  | assembled message =>
    have hcalled : Holds b t (.delivered h.send message :: trace) := hk.of_eq (fun _ => rfl) rfl
    show Holds b (((t.remember h.payload).value.setAssembler (packetId h.payload)
      []).expire timedOut) _
    rw [expire_setAssembler_nil]
    have hdone := (hcalled.remember h.send h.payload).expire (packetId h.payload :: timedOut)
    simpa using hdone

/-- What was remembered since the index was zero is recent: it stands in front of the index. -/
theorem Holds.isRecent (hk : Holds b t trace)
    (hmem : (n, id) ∈ (rememberedBy b trace).take t.recentPacketsIndex) : t.isRecent id = true := by
  have hring : (id : ℤ) ∈ t.recentPackets.take t.recentPacketsIndex := by
    rw [hk.ring, List.mem_reverse]
    exact List.mem_map.mpr ⟨(n, id), hmem, rfl⟩
  exact decide_eq_true (List.mem_of_mem_take hring)

/-- The packets in an assembler, with one more, are as many as different ones have come since it was
deleted, at most. -/
theorem Holds.length_fragments_le (payload : Bytes) (hk : Holds b t trace) :
    (t.fragments payload).length ≤
      (packetNo payload :: numbersSince b (packetId payload) trace).dedup.length := by
  have hordered : Ordered (t.fragments payload) := (hk.ordered _).keptFragments.insertFragment
  have hsub : (t.fragments payload).map Prod.fst ⊆
      (packetNo payload :: numbersSince b (packetId payload) trace).dedup := by
    intro no hno
    obtain ⟨p, hp, rfl⟩ := List.mem_map.mp hno
    have hcame := (hk.store payload).came (packetId payload) p
      (by rw [TargetData.setAssembler_assemblers, Function.update_self]; exact hp)
    rw [numbersSince, if_pos ⟨rfl, rfl⟩] at hcame
    exact List.mem_dedup.mpr hcame
  have hle := (List.subperm_of_subset hordered.pairwise_map_fst.nodup hsub).length_le
  rwa [List.length_map] at hle

end

/-! ## The count -/

/-- The thread will hand over the message of a send, when no other packet comes: it has the whole
message, or the only packet of it. -/
def Handler.delivers (n : ℕ) (h : Handler) : Bool :=
  h.send == n && (h.stage.due.isSome || packetCount h.payload == 1)

namespace Link

/-- The threads of both nodes that are processing a packet. -/
def threads (s : Link) : List Handler := s.handlers true ++ s.handlers false

/-- How many times a message has been handed over, and how many threads will do it. -/
def total (s : Link) (n : ℕ) : ℕ := s.deliveries n + s.threads.countP (Handler.delivers n)

variable {s s' : Link} {b c : Bool} {n m count j k : ℕ} {payload : Bytes} {timedOut : List ℕ}
  {h : Handler} {a : LinkAction} {t : TargetData}

/-- The threads when those of a node change. -/
theorem countP_threads_worked (responses : List Bytes) (handlers : List Handler)
    (events : List LinkEvent) (p : Handler → Bool) :
    (s.worked b m t responses handlers events).threads.countP p + (s.handlers b).countP p =
      s.threads.countP p + handlers.countP p := by
  unfold threads
  rw [List.countP_append, List.countP_append]
  cases b with
  | true =>
    rw [handlers_worked_self, handlers_worked_of_ne (by decide : false ≠ true)]
    omega
  | false =>
    rw [handlers_worked_self, handlers_worked_of_ne (by decide : true ≠ false)]
    omega

theorem deliveries_worked {responses : List Bytes} {handlers : List Handler}
    {events : List LinkEvent} : (s.worked b m t responses handlers events).deliveries n =
      events.countP (·.isDelivery n) + s.deliveries n :=
  List.countP_append

/-- The threads of a node after a step of one of them. -/
theorem countP_settle {l : List Handler} {o : Option Stage} (p : Handler → Bool)
    (hj : l[j]? = some h) : (settle l j h o).countP p + (if p h then 1 else 0) =
      l.countP p + o.toList.countP fun stage => p { h with stage := stage } := by
  rw [(perm_settle hj).countP_eq, (perm_eraseIdx hj).countP_eq, List.countP_append,
    List.countP_cons, List.countP_map]
  show _ + _ + _ = _ + _ + o.toList.countP (p ∘ fun stage => { h with stage := stage })
  omega

/-- The step of the thread puts the last of several packets into an assembler, as far as their
number goes. -/
def fills (t : TargetData) (h : Handler) : Prop :=
  h.stage = .looked ∧ packetCount h.payload ≠ 1 ∧
    (t.fragments h.payload).length = packetCount h.payload

instance (t : TargetData) (h : Handler) : Decidable (fills t h) :=
  inferInstanceAs (Decidable (_ ∧ _ ∧ _))

/-- What a step of a thread makes of what it will deliver: it delivers it, or will still do, and
only the last of several packets adds to it. -/
theorem countP_events (timedOut : List ℕ) :
    (h.events b timedOut (t.proceed h.payload timedOut h.stage).stage.isNone).countP
        (·.isDelivery n) +
      (t.proceed h.payload timedOut h.stage).stage.toList.countP
        (fun stage => Handler.delivers n { h with stage := stage }) =
      (if h.delivers n then 1 else 0) + if h.send = n ∧ fills t h then 1 else 0 := by
  obtain ⟨send, payload, stage⟩ := h
  have hremembers : (if reliable payload then [LinkEvent.remembered b send (packetId payload)]
      else []).countP (·.isDelivery n) = 0 := by
    split_ifs <;> rfl
  unfold Handler.events Handler.delivers fills
  cases stage with
  | looked =>
    by_cases hone : packetCount payload = 1
    · rw [proceed_single hone]
      simp [hone, Stage.due]
    · by_cases hlen : (t.fragments payload).length = packetCount payload
      · rw [proceed_last hone hlen]
        simp [hone, hlen, Stage.due, LinkEvent.isDelivery]
      · rw [proceed_fragment hone hlen]
        simp [hone, hlen, Stage.due, LinkEvent.isDelivery]
  | answered message =>
    simp [TargetData.proceed, hremembers, Stage.due]
  | remembered message =>
    simp [TargetData.proceed, Stage.due, LinkEvent.isDelivery, List.countP_cons]
  | assembled message =>
    simp [TargetData.proceed, Stage.due, LinkEvent.isDelivery, List.countP_cons, List.countP_append]

/-- **The count after a step of a thread.**  It is one more when the step fills an assembler of the
message, and the same otherwise. -/
theorem total_proceeded (hj : (s.handlers b)[j]? = some h) :
    (s.proceeded b j h timedOut).total n =
      s.total n + if h.send = n ∧ fills (s.nodes b).target h then 1 else 0 := by
  obtain ⟨p, hp⟩ : ∃ p, p = (s.nodes b).target.proceed h.payload timedOut h.stage := ⟨_, rfl⟩
  have hproceeded : s.proceeded b j h timedOut = s.worked b h.send p.target p.responses
      (settle (s.handlers b) j h p.stage) (h.events b timedOut p.stage.isNone) := hp ▸ rfl
  have hevents := countP_events timedOut (b := b) (h := h) (n := n) (t := (s.nodes b).target)
  rw [← hp] at hevents
  have hthreads := countP_threads_worked p.responses (settle (s.handlers b) j h p.stage)
    (h.events b timedOut p.stage.isNone) (Handler.delivers n) (s := s) (b := b) (m := h.send)
    (t := p.target)
  have hsettle := countP_settle (o := p.stage) (Handler.delivers n) hj
  rw [total, total, hproceeded, deliveries_worked]
  omega

/-- The count when a node goes on with a packet: it is one more if this is the only packet of the
message. -/
theorem total_append (x : Handler) :
    (s.worked b m t [] (s.handlers b ++ [x]) []).total n =
      s.total n + if x.delivers n then 1 else 0 := by
  have hthreads := countP_threads_worked [] (s.handlers b ++ [x]) [] (Handler.delivers n) (s := s)
    (b := b) (m := m) (t := t)
  rw [List.countP_append, List.countP_singleton] at hthreads
  rw [total, total, deliveries_worked, List.countP_nil]
  omega

theorem total_answered {responses : List Bytes} :
    (s.worked b m t responses (s.handlers b) []).total n = s.total n := by
  have hthreads := countP_threads_worked responses (s.handlers b) [] (Handler.delivers n) (s := s)
    (b := b) (m := m) (t := t)
  rw [total, total, deliveries_worked, List.countP_nil]
  omega

theorem total_responded {r : Reception} : (s.responded b payload r).total n = s.total n := by
  have hack : (r.acknowledged.map fun id => LinkEvent.acknowledged (s.latest b id)).toList.countP
      (·.isDelivery n) = 0 := by
    cases r.acknowledged <;> rfl
  have hdeliveries : (s.responded b payload r).deliveries n = s.deliveries n := by
    show List.countP _ (_ ++ s.trace) = _
    rw [List.countP_append, hack, Nat.zero_add]
    rfl
  rw [total, total, hdeliveries]
  rfl

theorem total_sendAs {id hash : ℕ} : (s.sendAs b id hash payload).total n = s.total n := by
  have hdeliveries : (s.sendAs b id hash payload).deliveries n = s.deliveries n :=
    List.countP_cons_of_neg (by simp [LinkEvent.isDelivery])
  rw [total, total, hdeliveries]
  rfl

/-- **The invariant of the runs.**  No message was, or will be, handed over more than once; the rest
is what this follows from. -/
structure AtMostOnce (s : Link) : Prop where
  numbered : Numbered s
  uniform : Uniform s
  holds : ∀ b, Holds b (s.nodes b).target s.trace
  total_le : ∀ n, s.total n ≤ 1

/-- Nobody delivers a message that has not been handed over, of which no only packet is
processed. -/
theorem AtMostOnce.total_eq_zero (hs : AtMostOnce s) (hcount : s.HasCount (!b) n count)
    (hnot : ¬ s.isHanded b n) (hothers : count ≠ 1 ∨ ∀ h ∈ s.handlers b, h.send ≠ n) :
    s.total n = 0 := by
  obtain ⟨hzero, hdue⟩ := not_or.mp hnot
  have hthread (h : Handler) (hh : h ∈ s.threads) : ¬ h.delivers n = true := by
    intro hdelivers
    rw [Handler.delivers, Bool.and_eq_true, beq_iff_eq, Bool.or_eq_true, beq_iff_eq] at hdelivers
    obtain ⟨rfl, hdelivers⟩ := hdelivers
    have hmem : h ∈ s.handlers b := by
      by_contra hmem
      have hmem' : h ∈ s.handlers (!b) := by
        rcases List.mem_append.mp hh with hh |
          hh <;> cases b <;> first | exact hh | exact absurd hh hmem
      exact Bool.not_ne_self b (hcount.unique hs.numbered (hs.uniform.threads b h hmem')).1
    have hsame := hs.uniform.threads (!b) h ((Bool.not_not b).symm ▸ hmem)
    rcases hdelivers with hdelivers | hone
    · exact hdue ⟨h, hmem, rfl, hdelivers⟩
    · rcases hothers with hne | hne
      · exact hne ((hcount.unique hs.numbered hsame).2.trans hone)
      · exact hne h hmem rfl
  rw [total, Nat.le_zero.mp (not_lt.mp hzero), List.countP_eq_zero.mpr hthread]

/-- A node does something with a packet that does not add to the count. -/
theorem AtMostOnce.worked {responses : List Bytes} {handlers : List Handler}
    {events : List LinkEvent} (hs : AtMostOnce s)
    (hresponses : ∀ d ∈ responses, isData d = false)
    (hhandlers : ∀ h ∈ handlers, s.HasCount (!c) h.send (packetCount h.payload))
    (hsent : ∀ m d hash message, .sent m d hash message ∉ events)
    (hholds : Holds c t (events ++ s.trace))
    (hother : Holds (!c) (s.nodes (!c)).target (events ++ s.trace))
    (htotal : ∀ n, (s.worked c m t responses handlers events).total n ≤ 1) :
    AtMostOnce (s.worked c m t responses handlers events) where
  numbered := hs.numbered.of_trace rfl fun _ d _ _ hmem =>
    sent_mem_worked (fun m hash message => hsent m d hash message) hmem
  uniform := hs.uniform.worked hresponses hhandlers
  holds b := by
    rcases Bool.eq_or_eq_not b c with rfl | rfl
    · rw [nodes_worked_self]
      exact hholds
    · rw [nodes_worked_of_ne (Bool.not_ne_self c)]
      exact hother
  total_le := htotal

/-- **A packet is received.**  A node goes on with the only packet of a message when it has not
handed that over, or it does not repeat it. -/
theorem AtMostOnce.lookUp {x : ℕ × Bytes} {retransmission : Bool} (hs : AtMostOnce s)
    (hx : (s.inFlight b)[k]? = some x) (hdata : isData x.2 = true)
    (hret : retransmission = (packetType x.2 == some .dataRetransmission))
    (hok : repeatsNothing s (.receive b k)) : AtMostOnce (s.lookUp b retransmission x.1 x.2) := by
  have hcount : s.HasCount (!b) x.1 (packetCount x.2) :=
    hs.uniform.flight (!b) x ((Bool.not_not b).symm ▸ List.mem_of_getElem? hx) hdata
  have hthreads (h : Handler) (hh : h ∈ s.handlers b) :
      s.HasCount (!b) h.send (packetCount h.payload) :=
    hs.uniform.threads (!b) h ((Bool.not_not b).symm ▸ hh)
  unfold Link.lookUp
  split_ifs with hno hsup
  · exact hs
  · exact hs.worked (fun d hd => packetType_of_mem_singleton hd) hthreads
      (fun _ _ _ _ => List.not_mem_nil) (hs.holds b) (hs.holds (!b))
      fun n => total_answered.trans_le (hs.total_le n)
  · refine hs.worked (fun d hd => absurd hd List.not_mem_nil) (fun h hh => ?_)
      (fun _ _ _ _ => List.not_mem_nil) (hs.holds b) (hs.holds (!b)) fun n => ?_
    · rcases List.mem_append.mp hh with hh | hh
      · exact hthreads h hh
      · obtain rfl := List.mem_singleton.mp hh
        exact hcount
    · rw [total_append]
      split_ifs with hdelivers
      · -- the only packet of a message, and it has not come before
        rw [Handler.delivers, Bool.and_eq_true, beq_iff_eq, Bool.or_eq_true,
          beq_iff_eq] at hdelivers
        obtain ⟨rfl, hone⟩ := hdelivers
        have hone : packetCount x.2 = 1 := hone.resolve_left Bool.false_ne_true
        have hfirst : ¬ (s.isHanded b x.1 ∨ ∃ h ∈ s.handlers b, h.send = x.1) := by
          intro hagain
          obtain ⟨htype, hrel, hmem⟩ := hok x hx hdata (not_lt.mp hno) hone hagain
          refine hsup ?_
          rw [TargetData.suppresses, hret, htype, hrel, (hs.holds b).isRecent hmem]
          rfl
        obtain ⟨hnot, hnone⟩ := not_or.mp hfirst
        rw [hs.total_eq_zero hcount hnot (.inr fun h hh hsend => hnone ⟨h, hh, hsend⟩)]
      · exact hs.total_le n

/-- **A thread takes a step.**  It fills an assembler of a message that was handed over only if all
packets of it have come again. -/
theorem AtMostOnce.proceeded (hs : AtMostOnce s) (hj : (s.handlers b)[j]? = some h)
    (hok : repeatsNothing s (.proceed b j timedOut)) :
    AtMostOnce (s.proceeded b j h timedOut) := by
  have hmem := List.mem_of_getElem? hj
  have hthreads (h' : Handler) (hh : h' ∈ s.handlers b) :
      s.HasCount (!b) h'.send (packetCount h'.payload) :=
    hs.uniform.threads (!b) h' ((Bool.not_not b).symm ▸ hh)
  refine hs.worked (fun d hd => isData_of_packetType (packetType_proceed hd)) (fun h' hh => ?_)
    (fun _ _ _ _ => not_sent_mem_events) (hs.holds b).proceed
    ((hs.holds (!b)).other (Bool.not_ne_self b).symm) fun n => ?_
  · rcases mem_settle hh with hh | ⟨stage, -, rfl⟩
    · exact hthreads h' hh
    · exact hthreads h hmem
  · refine (total_proceeded hj).trans_le ?_
    split_ifs with hfills
    · -- the last of several packets, and the message has not been handed over
      obtain ⟨rfl, hstage, hcount, hlen⟩ := hfills
      have hnot : ¬ s.isHanded b h.send := by
        intro hagain
        have hlt := hok h hj hstage hcount hagain
        have hle := (hs.holds b).length_fragments_le h.payload
        omega
      rw [hs.total_eq_zero (hthreads h hmem) hnot (.inl hcount)]
    · exact hs.total_le n

theorem atMostOnce_start (mtu : Bool → ℕ) : AtMostOnce (.start mtu) where
  numbered := numbered_start mtu
  uniform := ⟨fun _ _ hx => absurd hx List.not_mem_nil, fun _ _ hh => absurd hh List.not_mem_nil,
    fun _ _ _ hq => nomatch hq⟩
  holds b := holds_new b
  total_le _ := Nat.zero_le 1

/-- What happens to the send queue is nothing to what a node holds. -/
theorem AtMostOnce.of_quiet (hs : AtMostOnce s) (hst : linkStep s a = some s')
    (htarget : ∀ b, (s'.nodes b).target = (s.nodes b).target)
    (hnumbers : ∀ b id, numbersSince b id s'.trace = numbersSince b id s.trace)
    (hremembered : ∀ b, rememberedBy b s'.trace = rememberedBy b s.trace)
    (htotal : ∀ n, s'.total n = s.total n) : AtMostOnce s' where
  numbered := hs.numbered.step hst
  uniform := hs.uniform.step hst
  holds b := htarget b ▸ (hs.holds b).of_eq (hnumbers b) (hremembered b)
  total_le n := (htotal n).trans_le (hs.total_le n)

theorem AtMostOnce.responded {r : Reception} (hs : AtMostOnce s)
    (hst : linkStep s a = some (s.responded b payload r)) :
    AtMostOnce (s.responded b payload r) := by
  refine hs.of_quiet hst (fun c => target_responded) (fun c id => ?_) (fun c => ?_)
    fun n => total_responded <;>
    (unfold Link.responded; cases r.acknowledged <;> rfl)

/-- **A step** that repeats nothing keeps the invariant. -/
theorem AtMostOnce.step (hs : AtMostOnce s) (hok : repeatsNothing s a)
    (hst : linkStep s a = some s') : AtMostOnce s' := by
  cases a with
  | send b hash message =>
    have hst' := hst
    obtain ⟨id, -, rfl⟩ := Option.map_eq_some_iff.mp hst'
    exact hs.of_quiet hst (fun c => target_sendAs) (fun _ _ => rfl) (fun _ => rfl)
      fun n => total_sendAs
  | retransmit b id =>
    have hst' := hst
    obtain ⟨q, -, hst'⟩ := Option.bind_eq_some_iff.mp hst'
    obtain ⟨e, -, hst'⟩ := Option.bind_eq_some_iff.mp hst'
    obtain rfl := Option.some.inj hst'
    exact hs.of_quiet hst (fun _ => rfl) (fun _ _ => rfl) (fun _ => rfl) fun _ => rfl
  | lose b k =>
    have hst' := hst
    obtain rfl := Option.some.inj hst'
    exact hs.of_quiet hst (fun _ => rfl) (fun _ _ => rfl) (fun _ => rfl) fun _ => rfl
  | receive b k =>
    obtain ⟨x, hx, ⟨type, hpacket, htype, rfl⟩ | ⟨-, rfl⟩⟩ := linkStep_receive hst
    · cases type with
      | data =>
        exact hs.lookUp hx ((isData_iff hpacket htype).mpr (.inl rfl)) (by rw [htype]; rfl) hok
      | dataRetransmission =>
        exact hs.lookUp hx ((isData_iff hpacket htype).mpr (.inr rfl)) (by rw [htype]; rfl) hok
      | ack | nack => exact hs.responded hst
      | announce | leave => exact hs
    · exact hs
  | proceed b j timedOut =>
    obtain ⟨h, hj, -, rfl⟩ := linkStep_proceed hst
    exact hs.proceeded hj hok

end Link

instance (s : Link) (b : Bool) (x : ℕ × Bytes) : Decidable (s.remembers b x) :=
  inferInstanceAs (Decidable (_ ∧ _ ∧ _))

instance (s : Link) : ∀ a, Decidable (s.repeatsNothing a)
  | .receive b k => inferInstanceAs (Decidable (∀ x ∈ (s.inFlight b)[k]?, isData x.2 = true →
      packetNo x.2 ≤ packetCount x.2 → packetCount x.2 = 1 →
        (s.isHanded b x.1 ∨ ∃ h ∈ s.handlers b, h.send = x.1) → s.remembers b x))
  | .proceed b j _ => inferInstanceAs (Decidable (∀ h ∈ (s.handlers b)[j]?, h.stage = .looked →
      packetCount h.payload ≠ 1 → s.isHanded b h.send →
        (packetNo h.payload :: numbersSince b (packetId h.payload) s.trace).dedup.length <
          packetCount h.payload))
  | .send .. => .isTrue trivial
  | .retransmit .. => .isTrue trivial
  | .lose .. => .isTrue trivial

/-- A message in one packet is received, sent again and received again; and of a message in two
packets the first comes again. -/
def cameAgain : List LinkAction :=
  [.send true 7 [1], .receive false 0, .proceed false 0 [], .proceed false 0 [],
    .proceed false 0 [],
    .retransmit true 1, .receive false 1, .send true 8 [1, 2, 3], .receive false 2,
    .proceed false 0 [], .receive false 3, .proceed false 0 [], .proceed false 0 [],
    .receive false 2, .proceed false 0 []]

/-- The packet id of a message is not that of a packet that is still on the way or being
processed. -/
def freshId (s : Link) : LinkAction → Prop
  | .send b _ _ => ∀ id ∈ (s.nodes b).nextPacketId,
      (∀ x ∈ s.inFlight (!b), isData x.2 = true → packetId x.2 ≠ id) ∧
        ∀ h ∈ s.handlers (!b), packetId h.payload ≠ id
  | _ => True

instance (s : Link) : ∀ a, Decidable (freshId s a)
  | .send b _ _ => inferInstanceAs (Decidable (∀ id ∈ (s.nodes b).nextPacketId,
      (∀ x ∈ s.inFlight (!b), isData x.2 = true → packetId x.2 ≠ id) ∧
        ∀ h ∈ s.handlers (!b), packetId h.payload ≠ id))
  | .retransmit .. => .isTrue trivial
  | .receive .. => .isTrue trivial
  | .proceed .. => .isTrue trivial
  | .lose .. => .isTrue trivial

/-- The datagram of a message in one packet is duplicated by the network. -/
def receivedTwice : List LinkAction :=
  [.send true 7 [1], .receive false 0, .proceed false 0 [], .proceed false 0 [],
    .proceed false 0 [], .receive false 0, .proceed false 0 [], .proceed false 0 [],
    .proceed false 0 []]

end Network
end Extension
end NUClear
