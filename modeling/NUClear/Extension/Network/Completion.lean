import NUClear.Extension.Network.Delivery

/-!
# A message can be completed (`NUClearNetwork.cpp`)

In a run whose steps keep what is acknowledged nothing gets stuck: whatever has been lost, repeated
or forgotten, and wherever the threads of the nodes are, a message in the send queue can be handed
over, and unless the number of its packets is a multiple of eight its target can be erased.

The run that does it lets the threads of the other node invoke the callbacks that are due.  Then the
packets that are not acknowledged are sent again, one after the other: one of them is received, a
thread goes on with it and acknowledges it, hands its message over if it was the last one, and the
ACK comes back.  Nothing else is sent, nothing is lost, and no peer joins or leaves
(`LinkAction.isOwn`).

* `Answers`: the response to a packet acknowledges it.
* `Pending`: an entry of the send queue would have been erased if all its packets were acknowledged.
* `Onward`: what the nodes have done on the way, with nothing gone of the messages of a node.
* `Idle`: no thread of a node has a callback still to invoke; a node can always get there (`idles`,
  by induction on the steps that its threads have left).
* `retransmits`, `answered`, `acknowledges_or_erased`: the three parts of a round.
* `round`: one more packet is acknowledged, or the target is erased; `rounds` is the induction on
  the number of packets.
* `completable_of_reaches`: from every state that is reached.
-/

namespace NUClear
namespace Extension
namespace Network

open Foundation

/-! ## The ACK of a packet -/

section

variable {id no count n : ℕ} {payload a : Bytes} {stored : Fragments} {l : List ℕ}

theorem isPacket_of_ackFor (h : AckFor id count a) : isPacket a = true := by
  have hlen := h.length_eq
  obtain ⟨-, -, no, l, -, rfl⟩ := h.exists_setBits
  have htake : (setBits ackBits l (ackPacket id no count)).value.take 4 = magic := by
    have heq := congrArg (List.take 4) (take_setBits ackBits l (ackPacket id no count))
    rw [List.take_take, List.take_take] at heq
    exact heq
  rw [isPacket, Bool.and_eq_true, decide_eq_true_eq, htake, hlen]
  exact ⟨by rw [sizeofPacketHeader, sizeofACKPacket]; omega, rfl⟩

/-- What an ACK acknowledges. -/
theorem acknowledges_setBits (h : n < count) :
    acknowledges (setBits ackBits l (ackPacket id no count)).value n = decide (n ∈ l) := by
  have hlen : ackBits + n / 8 < (ackPacket id no count).length := by
    rw [length_ackPacket, sizeofACKPacket, ackBits]
    omega
  have hnone : bitAt ((ackPacket id no count).drop ackBits) n = false :=
    bitAt_replicate (1 + count / 8) n
  rw [acknowledges, bitAt_setBits hlen, hnone, Bool.false_or]

/-- The response to a packet acknowledges it. -/
structure Answers (id count no : ℕ) (a : Bytes) : Prop where
  ackFor : AckFor id count a
  acknowledges : acknowledges a no = true

theorem answers_acknowledgeAll (h : packetNo payload < packetCount payload) :
    Answers (packetId payload) (packetCount payload) (packetNo payload)
      (acknowledgeAll payload).value where
  ackFor := .all rfl rfl
  acknowledges := (acknowledges_setBits h).trans (decide_eq_true (List.mem_range.mpr h))

theorem answers_acknowledgeOne (h : packetNo payload < packetCount payload)
    (hone : packetCount payload = 1) :
    Answers (packetId payload) (packetCount payload) (packetNo payload)
      (acknowledgeOne payload).value where
  ackFor := .one rfl rfl hone
  acknowledges :=
    (acknowledges_setBits h).trans (decide_eq_true (List.mem_singleton.mpr (by omega)))

theorem answers_acknowledge (h : packetNo payload < packetCount payload)
    (hstored : ∀ p ∈ stored, p.1 < packetCount payload)
    (hmem : packetNo payload ∈ stored.map Prod.fst) :
    Answers (packetId payload) (packetCount payload) (packetNo payload)
      (acknowledge payload stored).value where
  ackFor := .stored rfl rfl hstored
  acknowledges := (acknowledges_setBits h).trans (decide_eq_true hmem)

end

/-- How many steps a thread has still to take up to the callback. -/
def Stage.left : Stage → ℕ
  | .looked => 0
  | .answered _ => 2
  | .remembered _ => 1
  | .assembled _ => 1

namespace Link

variable {s s' : Link} {b c : Bool} {id no n k j hash : ℕ} {message payload acked : Bytes}
  {x : ℕ × Bytes} {q : PacketQueue} {type : PacketType} {timedOut : List ℕ}

/-! ## Entries that are pending -/

/-- No entry of a send queue has all the packets acknowledged that are tested. -/
def Pending (s : Link) : Prop :=
  ∀ b id, ∀ q ∈ (s.nodes b).sendQueue id, ∀ t ∈ q.targets, allAcked q.packetCount t.acked = false

theorem pending_start (mtu : Bool → ℕ) : Pending (.start mtu) :=
  fun _ _ _ hq => absurd hq (by simp [start])

theorem Pending.of_sendQueue (h : Pending s)
    (hqueue : ∀ b, (s'.nodes b).sendQueue = (s.nodes b).sendQueue) : Pending s' :=
  fun b id q hq => h b id q (hqueue b ▸ hq)

/-- Nothing of a new entry is acknowledged. -/
theorem allAcked_replicate (count : ℕ) :
    allAcked count (List.replicate (count / 8 + 1) 0) = false := by
  rw [← Bool.not_eq_true, allAcked_iff List.length_replicate]
  intro hall
  have hbit := hall 0 (by unfold testedBits; split_ifs <;> omega)
  rw [bitAt_replicate] at hbit
  exact Bool.false_ne_true hbit

/-- The entries after an ACK: a target is dropped, or keeps what is not acknowledged. -/
theorem Pending.received_ack (h : Pending s) : Pending (s.received b .ack n payload) := by
  intro c id q hq t ht
  by_cases hc : c = b
  · subst hc
    have hself : ((s.received c .ack n payload).nodes c).sendQueue =
        (receiveAck (s.nodes c).target (s.nodes c).sendQueue otherNode payload).value.sendQueue :=
      congrArg Endpoint.sendQueue nodes_responded_self
    rw [hself] at hq
    obtain hr | ⟨q', t', hq', ht', -, hr⟩ :=
      receiveAck_cases (s.nodes c).target (s.nodes c).sendQueue otherNode payload
    · rw [hr] at hq
      exact h c id q hq t ht
    · rw [hr] at hq
      by_cases hid : id = packetId payload
      · subst hid
        split_ifs at hq with hall
        · -- the other entries of the message
          simp only [Function.update_self, PacketQueue.without] at hq
          split_ifs at hq
          · exact absurd hq (by simp)
          · obtain rfl := Option.some.inj hq
            exact h c _ q' hq' t (List.mem_of_mem_eraseIdx ht)
        · simp only [Function.update_self] at hq
          obtain rfl := Option.some.inj hq
          rcases List.mem_or_eq_of_mem_set ht with ht | rfl
          · exact h c _ q' hq' t ht
          · exact Bool.eq_false_of_not_eq_true hall
      · split_ifs at hq <;>
          exact h c id q (by simpa only [Function.update_of_ne hid] using hq) t ht
  · have hother : (s.received b .ack n payload).nodes c = s.nodes c := nodes_responded_of_ne hc
    rw [hother] at hq
    exact h c id q hq t ht

theorem sendQueue_lookUp {retransmission : Bool} :
    ((s.lookUp b retransmission n payload).nodes c).sendQueue = (s.nodes c).sendQueue := by
  unfold Link.lookUp
  split_ifs
  · rfl
  · exact sendQueue_worked
  · exact sendQueue_worked

theorem Pending.step {a : LinkAction} (h : Pending s) (hs : Reliable s)
    (hst : linkStep s a = some s') : Pending s' := by
  cases a with
  | send b hash payload =>
    obtain ⟨id, -, rfl⟩ := Option.map_eq_some_iff.mp hst
    intro c id' q hq t ht
    rcases mem_sendQueue_sendAs hq with ⟨rfl, rfl, rfl⟩ | ⟨-, hq⟩
    · obtain rfl := List.mem_singleton.mp ht
      exact allAcked_replicate _
    · exact h c id' q hq t ht
  | retransmit b id =>
    obtain ⟨q, -, hst⟩ := Option.bind_eq_some_iff.mp hst
    obtain ⟨t, -, hst⟩ := Option.bind_eq_some_iff.mp hst
    obtain rfl := Option.some.inj hst
    exact h
  | lose b k =>
    obtain rfl := Option.some.inj hst
    exact h
  | receive c k =>
    obtain ⟨x, hx, ⟨type, -, htype, rfl⟩ | ⟨-, rfl⟩⟩ := linkStep_receive hst
    · cases type with
      | data => exact h.of_sendQueue fun _ => sendQueue_lookUp
      | dataRetransmission => exact h.of_sendQueue fun _ => sendQueue_lookUp
      | ack => exact h.received_ack
      | nack => exact absurd htype ((hs.backed c).not_nack x (List.mem_of_getElem? hx))
      | announce | leave => exact h
    · exact h
  | proceed c j timedOut =>
    obtain ⟨h₀, -, -, rfl⟩ := linkStep_proceed hst
    exact h.of_sendQueue fun _ => sendQueue_worked

theorem Pending.reaches (h : Pending s) (hs : Reliable s)
    (hr : Reaches linkStep keepsAcknowledged s s') : Pending s' :=
  (hr.invariant (P := fun s => Reliable s ∧ Pending s) ⟨hs, h⟩ fun _ _ _ hs hok hst =>
    ⟨hs.1.step hok hst, hs.2.step hs.1 hst⟩).2

/-! ## What the nodes do by themselves -/

/-- A packet is sent again, a datagram is received, or a thread goes on: nothing else is sent, and
nothing is lost. -/
def LinkAction.isOwn : LinkAction → Prop
  | .retransmit .. => True
  | .receive .. => True
  | .proceed .. => True
  | .send .. => False
  | .lose .. => False

/-- What the nodes do by themselves, keeping what is acknowledged. -/
def ownStep (s : Link) (a : LinkAction) : Prop := keepsAcknowledged s a ∧ LinkAction.isOwn a

theorem own_proceed : ownStep s (.proceed b j []) :=
  ⟨fun _ _ _ hid => absurd hid List.not_mem_nil, trivial⟩

theorem Reliable.reaches (hs : Reliable s) (hr : Reaches linkStep ownStep s s') : Reliable s' :=
  hr.invariant hs fun _ _ _ hs hok hst => hs.step hok.1 hst

theorem linkStep_receive_eq (hx : (s.inFlight b)[k]? = some x) (hpacket : isPacket x.2 = true)
    (htype : packetType x.2 = some type) :
    linkStep s (.receive b k) = some (s.received b type x.1 x.2) := by
  simp only [linkStep, hx, Option.bind_eq_bind, Option.bind_some, hpacket, htype]

theorem linkStep_proceed_eq {h : Handler} (hj : (s.handlers b)[j]? = some h)
    (hblocked : s.blocked b h = false) :
    linkStep s (.proceed b j timedOut) = some (s.proceeded b j h timedOut) := by
  simp only [linkStep, hj, Option.bind_eq_bind, Option.bind_some, hblocked, Bool.false_eq_true,
    if_false]

/-- The nodes have done something about the messages of node `b`, and nothing of it has gone. -/
structure Onward (s s' : Link) (b : Bool) : Prop where
  node : s'.nodes b = s.nodes b
  latest : s'.latest = s.latest
  trace : s.trace ⊆ s'.trace
  flight : s.inFlight b ⊆ s'.inFlight b

theorem Onward.refl (s : Link) (b : Bool) : Onward s s b :=
  ⟨rfl, rfl, List.Subset.refl _, List.Subset.refl _⟩

theorem Onward.trans {s'' : Link} (h : Onward s s' b) (h' : Onward s' s'' b) : Onward s s'' b :=
  ⟨h'.node.trans h.node, h'.latest.trans h.latest, fun _ he => h'.trace (h.trace he),
    fun _ hx => h'.flight (h.flight hx)⟩

theorem onward_worked {t : TargetData} {responses : List Bytes} {handlers : List Handler}
    {events : List LinkEvent} : Onward s (s.worked (!b) n t responses handlers events) b where
  node := nodes_worked_of_ne (Bool.not_ne_self b).symm
  latest := rfl
  trace := List.subset_append_right _ _
  flight x hx := by
    show x ∈ s.launch (!(!b)) n responses b
    rw [launch, Bool.not_not, Function.update_self]
    exact List.mem_append_left _ hx

/-- The responses are on their way back. -/
theorem mem_inFlight_worked {t : TargetData} {responses : List Bytes} {handlers : List Handler}
    {events : List LinkEvent} {a : Bytes} (ha : a ∈ responses) :
    (n, a) ∈ (s.worked (!b) n t responses handlers events).inFlight b := by
  show _ ∈ s.launch (!(!b)) n responses b
  rw [launch, Bool.not_not, Function.update_self]
  exact List.mem_append_right _ (List.mem_map.mpr ⟨a, ha, rfl⟩)

/-! ## The callbacks that are due -/

/-- No thread of a node has a callback still to invoke. -/
def Idle (s : Link) (c : Bool) : Prop := ∀ h ∈ s.handlers c, h.stage.due = none

/-- The steps that the threads of a node have still to take up to the last callback. -/
def stepsLeft (s : Link) (c : Bool) : ℕ := ((s.handlers c).map fun h => h.stage.left).sum

theorem left_proceed (payload : Bytes) (timedOut : List ℕ) {t : TargetData} {stage : Stage}
    {d : Delivery} (hd : stage.due = some d) :
    ((t.proceed payload timedOut stage).stage.toList.map Stage.left).sum + 1 = stage.left := by
  cases stage with
  | looked => exact nomatch hd
  | answered | remembered | assembled => rfl

/-- A step towards a callback. -/
theorem stepsLeft_proceeded (timedOut : List ℕ) {h : Handler} {d : Delivery}
    (hj : (s.handlers c)[j]? = some h) (hd : h.stage.due = some d) :
    (s.proceeded c j h timedOut).stepsLeft c + 1 = s.stepsLeft c := by
  have hleft := left_proceed h.payload timedOut hd (t := (s.nodes c).target)
  have hthreads : (s.proceeded c j h timedOut).handlers c = settle (s.handlers c) j h
      ((s.nodes c).target.proceed h.payload timedOut h.stage).stage := handlers_worked_self
  rw [stepsLeft, stepsLeft, hthreads, ((perm_settle hj).map _).sum_eq,
    ((perm_eraseIdx hj).map _).sum_eq, List.map_append, List.sum_append, List.map_map,
    List.map_cons, List.sum_cons]
  show (List.map Stage.left _).sum + _ + 1 = _
  omega

/-- A thread that has a message goes on. -/
theorem not_blocked {h : Handler} {d : Delivery} (hd : h.stage.due = some d) :
    s.blocked c h = false := by
  have hstage : (h.stage == .looked) = false := by
    cases hst : h.stage with
    | looked =>
      rw [hst] at hd
      exact nomatch hd
    | _ => rfl
  rw [blocked, hstage, Bool.false_and, Bool.false_and]

/-- **The callbacks that are due are invoked**, one after the other, until none is left. -/
theorem idles (s : Link) (b : Bool) :
    ∃ s', Reaches linkStep ownStep s s' ∧ Onward s s' b ∧ s'.Idle (!b) := by
  obtain ⟨k, hk⟩ : ∃ k, s.stepsLeft (!b) = k := ⟨_, rfl⟩
  induction k generalizing s with
  | zero =>
    refine ⟨s, .start, .refl s b, fun h hh => ?_⟩
    have hzero : h.stage.left = 0 :=
      List.sum_eq_zero_iff_forall_eq_nat.mp hk _ (List.mem_map.mpr ⟨h, hh, rfl⟩)
    cases hst : h.stage with
    | looked => rfl
    | answered | remembered | assembled =>
      rw [hst] at hzero
      exact absurd hzero (Nat.succ_ne_zero _)
  | succ k ih =>
    by_cases hidle : s.Idle (!b)
    · exact ⟨s, .start, .refl s b, hidle⟩
    · obtain ⟨h, hh, hdue⟩ : ∃ h ∈ s.handlers (!b), h.stage.due ≠ none := by
        simpa [Idle] using hidle
      obtain ⟨d, hd⟩ := Option.ne_none_iff_exists'.mp hdue
      obtain ⟨j, hj⟩ := List.mem_iff_getElem?.mp hh
      have hleft := stepsLeft_proceeded [] hj hd
      obtain ⟨s', hreaches, honward, hidle'⟩ :=
        ih (s.proceeded (!b) j h []) (by omega)
      exact ⟨s', .head own_proceed (linkStep_proceed_eq hj (not_blocked hd)) hreaches,
        onward_worked.trans honward, hidle'⟩

/-! ## One round -/

/-- **The packet is sent again**, since its sender has no acknowledgement of it yet. -/
theorem retransmits (hq : q ∈ (s.nodes b).sendQueue id)
    (hqueued : s.Queued b (!b) id q hash message acked) (hno : no < q.packetCount)
    (hbit : bitAt acked no = false) :
    ∃ s' payload, linkStep s (.retransmit b id) = some s' ∧ s'.nodes = s.nodes ∧
      s'.handlers = s.handlers ∧ s'.latest = s.latest ∧ s'.trace = s.trace ∧
      (s.latest b id, payload) ∈ s'.inFlight (!b) ∧ isPacket payload = true ∧
      packetType payload = some .dataRetransmission ∧ packetNo payload = no ∧
      PacketOf (s.nodes b).packetDataMtu id hash message payload := by
  have hentry : q.targets[q.find otherNode]? = some ⟨otherNode, acked⟩ := by
    rw [find_otherNode hqueued, hqueued.eq]
    rfl
  have hstep : linkStep s (.retransmit b id) = some { s with
      inFlight := s.launch (!b) (s.latest b id)
        ((s.nodes b).unacknowledged id q ⟨otherNode, acked⟩) } := by
    show s.retransmit b id = _
    rw [retransmit, show (s.nodes b).sendQueue id = some q from hq]
    show (q.targets[q.find otherNode]?).bind _ = _
    rw [hentry]
    rfl
  have hmem : (q.resendPacket (s.nodes b).packetDataMtu id no).value ∈
      (s.nodes b).unacknowledged id q ⟨otherNode, acked⟩ :=
    List.mem_map.mpr
      ⟨no, List.mem_filter.mpr ⟨List.mem_range.mpr hno, by rw [hbit]; rfl⟩, rfl⟩
  have hno_lt : no < 2 ^ 16 := by
    have hcount := hqueued.sendable.count_lt
    rw [hqueued.eq] at hno
    exact hno.trans hcount
  refine ⟨_, _, hstep, rfl, rfl, rfl, rfl, ?_, ?_, ?_, ?_,
    packetOf_of_mem_unacknowledged hqueued hmem⟩
  · show _ ∈ s.launch (!b) _ _ (!b)
    rw [launch, Function.update_self]
    exact List.mem_append_right _ (List.mem_map.mpr ⟨_, hmem, rfl⟩)
  · rw [PacketQueue.resendPacket, value_sendPacket]
    exact isPacket_dataPacket
  · rw [PacketQueue.resendPacket, value_sendPacket]
    exact packetType_dataPacket
  · rw [PacketQueue.resendPacket, value_sendPacket]
    exact packetNo_dataPacket hno_lt

/-- A thread that goes on with a packet acknowledges it. -/
theorem proceed_answers (timedOut : List ℕ) {t : TargetData} {mtu : ℕ}
    (hp : PacketOf mtu (packetId payload) hash message payload)
    (hl : Filled mtu (packetId payload) hash message (t.assemblers (packetId payload))) :
    ∃ a ∈ (t.proceed payload timedOut .looked).responses,
      Answers (packetId payload) (packetCount payload) (packetNo payload) a := by
  have hfilled := hl.fragments hp
  have hstored : ∀ p ∈ t.fragments payload, p.1 < packetCount payload :=
    fun p hp' => hp.count_eq ▸ hfilled.lt hp'
  have hmem : packetNo payload ∈ (t.fragments payload).map Prod.fst := by
    rw [hl.fragments_eq hp]
    exact List.mem_map.mpr ⟨_, mem_insertFragment.mpr (.inl rfl), rfl⟩
  obtain ⟨hone, hproceed⟩ | hproceed | ⟨-, hproceed⟩ := proceed_looked hp hl timedOut
  · rw [hproceed]
    exact ⟨_, List.mem_singleton_self _, answers_acknowledgeOne hp.no_lt hone⟩
  · rw [hproceed]
    exact ⟨_, List.mem_singleton_self _, answers_acknowledge hp.no_lt hstored hmem⟩
  · rw [hproceed]
    exact ⟨_, List.mem_singleton_self _, answers_acknowledge hp.no_lt hstored hmem⟩

/-- **It is answered**, and the callbacks that are then due are invoked. -/
theorem answered (hs : Reliable s) (hidle : s.Idle (!b)) (hx : (n, payload) ∈ s.inFlight (!b))
    (hpacket : isPacket payload = true)
    (htype : packetType payload = some .dataRetransmission)
    (hn : n = s.latest b (packetId payload)) (hsent : .sent n b hash message ∈ s.trace)
    (hp : PacketOf (s.nodes b).packetDataMtu (packetId payload) hash message payload) :
    ∃ s' a, Reaches linkStep ownStep s s' ∧ Onward s s' b ∧ s'.Idle (!b) ∧
      (n, a) ∈ s'.inFlight b ∧
      Answers (packetId payload) (packetCount payload) (packetNo payload) a := by
  obtain ⟨k, hk⟩ := List.mem_iff_getElem?.mp hx
  have hfilled := ((hs.backed b).stored (packetId payload)).filled hs.sends (hn ▸ hsent)
  have hown : ownStep s (.receive (!b) k) := by
    refine ⟨fun x hx' hack => ?_, trivial⟩
    obtain rfl := Option.some.inj (hk.symm.trans hx')
    exact PacketType.noConfusion (Option.some.inj (htype.symm.trans hack))
  have hreceive := linkStep_receive_eq hk hpacket htype
  rw [received, lookUp, if_neg hp.no_lt.le.not_gt] at hreceive
  split_ifs at hreceive
  · -- from `recent_packets`
    exact ⟨_, _, .single hown hreceive, onward_worked,
      fun h hh => hidle h (by rwa [handlers_worked_self] at hh),
      mem_inFlight_worked (List.mem_singleton_self _), answers_acknowledgeAll hp.no_lt⟩
  · -- a thread goes on with it
    obtain ⟨s₁, hs₁⟩ : ∃ s₁, s₁ = s.worked (!b) n (s.nodes (!b)).target []
        (s.handlers (!b) ++ [⟨n, payload, .looked⟩]) [] := ⟨_, rfl⟩
    have hreceive₁ : linkStep s (.receive (!b) k) = some s₁ := hs₁ ▸ hreceive
    have honward₁ : Onward s s₁ b := hs₁ ▸ onward_worked
    have hthreads : s₁.handlers (!b) = s.handlers (!b) ++ [⟨n, payload, .looked⟩] := by
      rw [hs₁, handlers_worked_self]
    have htarget : (s₁.nodes (!b)).target = (s.nodes (!b)).target := by
      rw [hs₁, nodes_worked_self]
    have hj : (s₁.handlers (!b))[(s.handlers (!b)).length]? = some ⟨n, payload, .looked⟩ := by
      rw [hthreads, List.getElem?_concat_length]
    have hblocked : s₁.blocked (!b) ⟨n, payload, .looked⟩ = false := by
      rw [blocked, Bool.and_eq_false_iff]
      refine .inr (List.any_eq_false.mpr fun h hh => ?_)
      rw [hthreads] at hh
      rcases List.mem_append.mp hh with hh | hh
      · have hdue := hidle h hh
        cases hst : h.stage with
        | assembled d =>
          rw [hst] at hdue
          exact absurd hdue (Option.some_ne_none d)
        | _ => exact Bool.false_ne_true
      · obtain rfl := List.mem_singleton.mp hh
        exact Bool.false_ne_true
    obtain ⟨a, ha, hanswers⟩ := proceed_answers [] hp (htarget.symm ▸ hfilled)
    obtain ⟨s₂, hreaches₂, honward₂, hidle₂⟩ :=
      idles (s₁.proceeded (!b) (s.handlers (!b)).length ⟨n, payload, .looked⟩ []) b
    refine ⟨s₂, a, .head hown hreceive₁
      (.head own_proceed (linkStep_proceed_eq hj hblocked) hreaches₂),
      honward₁.trans (onward_worked.trans honward₂), hidle₂,
      honward₂.flight (mem_inFlight_worked ha), hanswers⟩

/-- The target of a message is erased. -/
structure Erased (s : Link) (b : Bool) (id n : ℕ) : Prop where
  acknowledged : .acknowledged n ∈ s.trace
  sendQueue_eq : (s.nodes b).sendQueue id = none

/-- The queue of a message, with the packets that its target has acknowledged. -/
def withAcked (q : PacketQueue) (acked : Bytes) : PacketQueue :=
  { q with targets := [⟨otherNode, acked⟩] }

theorem Backed.queued_withAcked (h : s.Backed b c)
    (hq : withAcked q acked ∈ (s.nodes b).sendQueue id) :
    ∃ hash message, s.Queued b c id (withAcked q acked) hash message acked := by
  obtain ⟨hash, message, acked', hqueued⟩ := h.queued id _ hq
  obtain rfl : acked = acked' :=
    congrArg PacketTarget.acked (List.head_eq_of_cons_eq (congrArg PacketQueue.targets hqueued.eq))
  exact ⟨hash, message, hqueued⟩

/-- **The ACK comes.** -/
theorem acknowledges_or_erased {a : Bytes} (hidle : s.Idle (!b)) (hx : (n, a) ∈ s.inFlight b)
    (ha : Answers id q.packetCount no a) (hq : q ∈ (s.nodes b).sendQueue id)
    (hqueued : s.Queued b (!b) id q hash message acked) :
    ∃ s', Reaches linkStep ownStep s s' ∧ s'.latest = s.latest ∧ s.trace ⊆ s'.trace ∧
      s'.Idle (!b) ∧
      (s'.Erased b id (s.latest b id) ∨ ∃ acked', withAcked q acked' ∈ (s'.nodes b).sendQueue id ∧
        ∀ m < q.packetCount, bitAt acked' m = (bitAt acked m || acknowledges a m)) := by
  obtain ⟨k, hk⟩ := List.mem_iff_getElem?.mp hx
  have hid := ha.ackFor.packetId_eq
  have hfind := find_otherNode hqueued
  have hentry : q.targets[q.find otherNode]? = some ⟨otherNode, acked⟩ := by
    rw [hfind, hqueued.eq]
    rfl
  have hwithout : q.without (q.find otherNode) = none := by
    rw [hfind, hqueued.eq]
    rfl
  have hset : q.setAcked (q.find otherNode) ⟨otherNode, acked⟩ (ackedWith a acked) =
      withAcked q (ackedWith a acked) := by
    rw [hfind, hqueued.eq]
    rfl
  have hr : (receiveAck (s.nodes b).target (s.nodes b).sendQueue otherNode a).value = _ :=
    value_receiveAck (t := (s.nodes b).target) (hid ▸ hq) hentry (ha.ackFor.validAck rfl)
  rw [hwithout, hset, hid] at hr
  have hown : ownStep s (.receive b k) :=
    ⟨fun _ _ _ _ _ _ _ _ _ h hh _ => hidle h hh, trivial⟩
  have hself : ((s.received b .ack n a).nodes b).sendQueue =
      (receiveAck (s.nodes b).target (s.nodes b).sendQueue otherNode a).value.sendQueue :=
    congrArg Endpoint.sendQueue nodes_responded_self
  refine ⟨_, .single hown (linkStep_receive_eq hk (isPacket_of_ackFor ha.ackFor)
    (packetType_of_ackFor ha.ackFor)), rfl, List.subset_append_right _ _, hidle, ?_⟩
  by_cases hall : allAcked q.packetCount (ackedWith a acked) = true
  · rw [if_pos hall] at hr
    refine .inl ⟨?_, ?_⟩
    · refine List.mem_append_left _ ?_
      rw [hr]
      exact List.mem_cons_self ..
    · rw [hself, hr]
      exact Function.update_self ..
  · rw [if_neg hall] at hr
    refine .inr ⟨ackedWith a acked, ?_, fun m hm => ?_⟩
    · rw [hself, hr]
      exact Option.mem_def.mpr (Function.update_self ..)
    · have hlen : m / 8 < acked.length := by
        rw [hqueued.length_eq]
        omega
      exact bitAt_ackedWith hlen

/-- **A round**: one more packet is acknowledged, or the target is erased. -/
theorem round (hs : Reliable s) (hidle : s.Idle (!b))
    (hq : withAcked q acked ∈ (s.nodes b).sendQueue id) (hno : no < q.packetCount)
    (hbit : bitAt acked no = false) :
    ∃ s', Reaches linkStep ownStep s s' ∧ s'.latest = s.latest ∧ s.trace ⊆ s'.trace ∧
      s'.Idle (!b) ∧
      (s'.Erased b id (s.latest b id) ∨ ∃ acked', withAcked q acked' ∈ (s'.nodes b).sendQueue id ∧
        bitAt acked' no = true ∧
          ∀ m < q.packetCount, bitAt acked m = true → bitAt acked' m = true) := by
  obtain ⟨hash, message, hqueued⟩ := (hs.backed b).queued_withAcked hq
  obtain ⟨s₁, payload, hstep, hnodes, hthreads, hlatest, htrace, hflight, hpacket, htype, hpacketNo,
    hp⟩ := retransmits hq hqueued hno hbit
  have hreaches₁ : Reaches linkStep ownStep s s₁ :=
    .single (a := .retransmit b id) ⟨trivial, trivial⟩ hstep
  have hidle₁ : s₁.Idle (!b) := fun h hh => hidle h (hthreads ▸ hh)
  have hid := hp.id_eq
  have hcount : packetCount payload = q.packetCount :=
    hp.count_eq.trans (congrArg PacketQueue.packetCount hqueued.eq).symm
  obtain ⟨s₂, a, hreaches₂, honward, hidle₂, hacks, hanswers⟩ :=
    answered (hs.reaches hreaches₁) hidle₁ hflight hpacket htype (by rw [hlatest, hid])
      (htrace ▸ hqueued.sent) (by rw [hnodes, hid]; exact hp)
  rw [hid, hcount, hpacketNo] at hanswers
  have hs₂ := (hs.reaches hreaches₁).reaches hreaches₂
  have hq₂ : withAcked q acked ∈ (s₂.nodes b).sendQueue id := by
    rw [honward.node, hnodes]
    exact hq
  obtain ⟨hash₂, message₂, hqueued₂⟩ := (hs₂.backed b).queued_withAcked hq₂
  obtain ⟨s₃, hreaches₃, hlatest₃, htrace₃, hidle₃, hdone⟩ :=
    acknowledges_or_erased (q := withAcked q acked) hidle₂ hacks hanswers hq₂ hqueued₂
  refine ⟨s₃, (hreaches₁.trans hreaches₂).trans hreaches₃,
    hlatest₃.trans (honward.latest.trans hlatest),
    fun e he => htrace₃ (honward.trace (htrace ▸ he)), hidle₃, ?_⟩
  rw [honward.latest, hlatest] at hdone
  refine hdone.imp_right fun ⟨acked', hq', hbits⟩ => ⟨acked', hq', ?_, fun m hm hbit => ?_⟩
  · rw [hbits no hno, hanswers.acknowledges, Bool.or_true]
  · rw [hbits m hm, hbit, Bool.true_or]

/-! ## The rounds -/

/-- As many packets as wanted are acknowledged, or the target is erased. -/
theorem rounds (hs : Reliable s) (hidle : s.Idle (!b))
    (hq : withAcked q acked ∈ (s.nodes b).sendQueue id) (hk : k ≤ q.packetCount) :
    ∃ s', Reaches linkStep ownStep s s' ∧ s'.latest = s.latest ∧ s.trace ⊆ s'.trace ∧
      s'.Idle (!b) ∧
      (s'.Erased b id (s.latest b id) ∨ ∃ acked', withAcked q acked' ∈ (s'.nodes b).sendQueue id ∧
        ∀ m < k, bitAt acked' m = true) := by
  induction k with
  | zero =>
    exact ⟨s, .start, rfl, List.Subset.refl _, hidle,
      .inr ⟨acked, hq, fun m hm => absurd hm (Nat.not_lt_zero m)⟩⟩
  | succ k ih =>
    obtain ⟨s₁, hreaches₁, hlatest₁, htrace₁, hidle₁, herased | ⟨acked₁, hq₁, hbits₁⟩⟩ :=
      ih (by omega)
    · exact ⟨s₁, hreaches₁, hlatest₁, htrace₁, hidle₁, .inl herased⟩
    cases hbit : bitAt acked₁ k with
    | true =>
      refine ⟨s₁, hreaches₁, hlatest₁, htrace₁, hidle₁, .inr ⟨acked₁, hq₁, fun m hm => ?_⟩⟩
      rcases Nat.lt_succ_iff_lt_or_eq.mp hm with hm | rfl
      · exact hbits₁ m hm
      · exact hbit
    | false =>
      obtain ⟨s₂, hreaches₂, hlatest₂, htrace₂, hidle₂, hdone⟩ :=
        round (hs.reaches hreaches₁) hidle₁ hq₁ (by omega) hbit
      refine ⟨s₂, hreaches₁.trans hreaches₂, hlatest₂.trans hlatest₁,
        fun e he => htrace₂ (htrace₁ he), hidle₂, ?_⟩
      rw [hlatest₁] at hdone
      refine hdone.imp_right fun ⟨acked₂, hq₂, hbit₂, hkept⟩ => ⟨acked₂, hq₂, fun m hm => ?_⟩
      rcases Nat.lt_succ_iff_lt_or_eq.mp hm with hm | rfl
      · exact hkept m (by omega) (hbits₁ m hm)
      · exact hbit₂

/-- The first of two packets is lost, and a thread has the second. -/
def firstLost : List LinkAction := [.send true 7 [1, 2, 3], .lose false 0, .receive false 0]

end Link

end Network
end Extension
end NUClear
