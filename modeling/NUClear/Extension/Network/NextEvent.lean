import NUClear.Extension.Network.Retransmission

/-!
# The next event of a node (`NUClearNetwork.cpp`)

A node keeps one deadline, `next_event`, for all messages and for its announcements: `send`,
`retransmit` and a NACK ask for a wake-up only if theirs is earlier, an announcement only if it is
later.

## 1.  What goes wrong

The deadline is not moved when its wake-up has come.  A message that is not yet due then asks for
nothing, and an announcement asks for a wake-up that may be too late for it.  If there was no
announcement, `next_event` is behind, and what is sent after that asks for nothing either.  And an
ACK that makes the round trip of its target shorter moves the deadlines of all messages for it, and
asks for nothing.

## 2.  The condition

`Heeded` says when a step does no harm, by the messages, the timer and the wake-ups that are pending
before it.  No condition is on `retransmit`, nor on `process` when it is called for a packet: a
message that is sent again has its deadline later than before, so the wake-up that was early enough
for it still is.  For a wake-up that has come the condition is about the messages that count on it
alone (`Timer.Sole`).

In every run whose steps meet it, a wake-up is pending for every message that waits
(`awaited_of_heeded`).  Three more invariants are needed, and hold in all runs: `Numbered` and
`SentBy` of the model, and `Paced`: neither `next_event` nor a wake-up is behind the next
announcement.

## 3.  The announcements

`reset` asks for no wake-up at all.  So one for the next announcement is pending after it if and
only if `process` has announced before, and the wake-up that it asked for then is still to come
(`Announced`, `announceAwaited_iff`): each later call of `process` came before the announcement was
due, and for another wake-up.  An announcement that throws, or a wake-up that comes exactly when the
next announcement is due and not after it, leaves none.
-/

namespace NUClear
namespace Extension
namespace Network
namespace Retransmission

open Foundation

namespace Node

/-! ## What is awaited -/

/-- What holds of every target that waits in a queue, and has not left. -/
def Each (s : Node) (P : PacketTarget → NetworkTarget → Prop) : Prop :=
  ∀ q ∈ s.sendQueue, ∀ t ∈ q.targets, ∀ p ∈ s.targets, p.number = t.target → P t p

/-- What holds of some target that waits in a queue, and has not left. -/
def Any (s : Node) (P : PacketTarget → NetworkTarget → Prop) : Prop :=
  ∃ q ∈ s.sendQueue, ∃ t ∈ q.targets, ∃ p ∈ s.targets, p.number = t.target ∧ P t p

instance (s : Node) (P : PacketTarget → NetworkTarget → Prop) [∀ t p, Decidable (P t p)] :
    Decidable (s.Each P) :=
  inferInstanceAs
    (Decidable (∀ q ∈ s.sendQueue, ∀ t ∈ q.targets, ∀ p ∈ s.targets, p.number = t.target → P t p))

instance (s : Node) (P : PacketTarget → NetworkTarget → Prop) [∀ t p, Decidable (P t p)] :
    Decidable (s.Any P) :=
  inferInstanceAs
    (Decidable (∃ q ∈ s.sendQueue, ∃ t ∈ q.targets, ∃ p ∈ s.targets, p.number = t.target ∧ P t p))

/-- A wake-up is pending for every message that waits: one that comes no later than its ACK is due.
-/
def Awaited (s : Node) : Prop := s.Each fun t p => s.timer.Covers (deadline t p)

/-- A wake-up is pending for the next announcement: one at its time, or later. -/
def AnnounceAwaited (s : Node) : Prop :=
  ∃ w ∈ s.timer.pending, s.lastAnnounce + milliseconds 500 ≤ w

/-! ## The condition -/

/-- When a message is to be acknowledged after `retransmit` has come to it: it is sent again if it
is due. -/
def renewed (now : ℤ) (t : PacketTarget) (p : NetworkTarget) : ℤ :=
  if deadline t p < now then now + p.roundTripTime else deadline t p

/-- A call of `process` has reason to ask for a wake-up no later than `d`.  It announces, and the
next announcement is no later.  Or it sends a message again whose new deadline is no later, and
which is asked for: it is before `next_event`, or the call announces, which moves `next_event`
behind it or asks for an earlier wake-up itself. -/
def Asks (s : Node) (now later d : ℤ) : Prop :=
  s.announces now ∧ now + milliseconds 500 ≤ d ∨
    s.Any fun t p => ¬ timedOut now p ∧ deadline t p < later ∧ later + p.roundTripTime ≤ d ∧
      (s.announces now ∨ later + p.roundTripTime < s.timer.next)

instance (s : Node) (now later d : ℤ) : Decidable (s.Asks now later d) :=
  inferInstanceAs (Decidable (_ ∨ s.Any _))

/-- A deadline that `send` sets for a target is no earlier than a pending wake-up, or than one that
it asks for: for this target, or for one with a shorter round trip. -/
def Sends (s : Node) (now : ℤ) (target : String) (p : NetworkTarget) : Prop :=
  s.timer.Covers (now + p.roundTripTime) ∨
    ∃ p' ∈ s.addressed target, now + p'.roundTripTime < s.timer.next ∧
      p'.roundTripTime ≤ p.roundTripTime

instance (s : Node) (now : ℤ) (target : String) (p : NetworkTarget) :
    Decidable (s.Sends now target p) :=
  inferInstanceAs (Decidable (_ ∨ ∃ p' ∈ s.addressed target, _))

/-- A wake-up is pending for a message that waits for the target, if its round trip takes so
long. -/
def CoveredWith (s : Node) (p : NetworkTarget) (roundTripTime : ℤ) (t : PacketTarget) : Prop :=
  t.target = p.number → s.timer.Covers (t.lastSend + roundTripTime)

instance (s : Node) (p : NetworkTarget) (roundTripTime : ℤ) (t : PacketTarget) :
    Decidable (s.CoveredWith p roundTripTime t) :=
  inferInstanceAs (Decidable (_ → _))

/-- For every message that waits for the target after an ACK, a wake-up is pending that is early
enough for a shorter round trip, too. -/
def Shortens (s : Node) (payload : Bytes) (roundTripTime : ℤ) (x : Waiting) : Prop :=
  (∀ q ∈ s.sendQueue, q.packetId ≠ x.queue.packetId →
    ∀ t ∈ q.targets, s.CoveredWith x.target roundTripTime t) ∧
  ∀ t ∈ x.left payload, s.CoveredWith x.target roundTripTime t

instance (s : Node) (payload : Bytes) (roundTripTime : ℤ) (x : Waiting) :
    Decidable (s.Shortens payload roundTripTime x) :=
  inferInstanceAs (Decidable (_ ∧ _))

/-- **The condition** on a step.

* `send` and a NACK find `next_event` later than the deadline that they set, or a wake-up pending
  that is early enough for it.
* When a wake-up comes, and a message counts on it alone, `process` has reason to ask for another.
  If the announcement throws, no message counts on it alone.
* An ACK that makes a round trip shorter finds a wake-up pending that is early enough. -/
def Heeded (s : Node) : Action → Prop
  | .send now _ target reliable =>
      reliable = true → ∀ p ∈ s.addressed target, s.Sends now target p
  | .process woken now later => ∀ w ∈ woken, s.Each fun t p => ¬ timedOut now p →
      s.timer.Sole w (renewed later t p) → s.Asks now later (renewed later t p)
  | .processThrows woken _ => ∀ w ∈ woken, s.Each fun t p => ¬ s.timer.Sole w (deadline t p)
  | .ack _ address payload roundTripTime => ∀ x ∈ s.aboutAck address payload,
      roundTripTime < x.target.roundTripTime → s.Shortens payload roundTripTime x
  | .nack now address payload => ∀ x ∈ s.aboutNack address payload,
      now + x.target.roundTripTime < s.timer.next ∨ s.timer.Covers (now + x.target.roundTripTime)
  | _ => True

instance (s : Node) : (a : Action) → Decidable (s.Heeded a)
  | .send now _ target reliable => inferInstanceAs
      (Decidable (reliable = true → ∀ p ∈ s.addressed target, s.Sends now target p))
  | .process woken now later => inferInstanceAs
      (Decidable (∀ w ∈ woken, s.Each fun t p => ¬ timedOut now p →
        s.timer.Sole w (renewed later t p) → s.Asks now later (renewed later t p)))
  | .processThrows woken _ => inferInstanceAs
      (Decidable (∀ w ∈ woken, s.Each fun t p => ¬ s.timer.Sole w (deadline t p)))
  | .ack _ address payload roundTripTime => inferInstanceAs
      (Decidable (∀ x ∈ s.aboutAck address payload,
        roundTripTime < x.target.roundTripTime → s.Shortens payload roundTripTime x))
  | .nack now address payload => inferInstanceAs
      (Decidable (∀ x ∈ s.aboutNack address payload, now + x.target.roundTripTime < s.timer.next ∨
        s.timer.Covers (now + x.target.roundTripTime)))
  | .reset _ | .retransmit _ | .announce .. | .leave _ | .data .. => .isTrue trivial

/-! ## Announcements -/

/-- After an announcement, the step comes before the next one is due, and for another wake-up than
the one that the announcement asked for.  An announcement that is not sent comes too late. -/
def Waits (announced : ℤ) : Action → Prop
  | .process woken now _ => now ≤ announced + milliseconds 500 ∧
      woken ≠ some (announced + milliseconds 500)
  | .processThrows .. => False
  | _ => True

/-- `process` has announced in a run, and waits for the next time to do so. -/
def Announced (l : List Action) : Prop :=
  ∃ l₁ woken now later l₂ s, l = l₁ ++ .process woken now later :: l₂ ∧
    exec step start l₁ = some s ∧ s.announces now ∧ ∀ a ∈ l₂, Waits now a

variable {s s' : Node} {now later time rtt : ℤ} {address : Key} {payload : Bytes}
  {t : PacketTarget} {p : NetworkTarget} {q : PacketQueue} {x : Waiting}

/-! ## What a step does to the timer -/

/-- The step makes no announcement. -/
def Rests (s : Node) : Action → Prop
  | .process _ now _ => ¬ s.announces now
  | .processThrows .. => False
  | _ => True

/-- **What a step does to the timer.**  A call of `process` announces, and asks for wake-ups; or its
announcement is not sent; or the step makes no announcement, and asks for wake-ups. -/
theorem step_timer {a : Action} (hst : step s a = some s') :
    (∃ woken now later l, a = .process woken now later ∧ s.announces now ∧
      s'.lastAnnounce = now ∧
      s'.timer = ((s.wake woken).timer.postpone (now + milliseconds 500)).requestAll l) ∨
    (∃ woken now, a = .processThrows woken now ∧ s.announces now ∧ s'.lastAnnounce = now ∧
      s'.timer = (s.wake woken).timer) ∨
    (s.Rests a ∧ s'.lastAnnounce = s.lastAnnounce ∧
      ∃ l, s'.timer = (s.wake a.woken).timer.requestAll l) := by
  cases calls_of_step hst with
  | reset | sent | leave => exact .inr (.inr ⟨trivial, rfl, [], rfl⟩)
  | kept hle id count => exact .inr (.inr ⟨trivial, rfl, _, rfl⟩)
  | @process woken now later hle hlater =>
    set s₁ := wake { s with clock := now } woken
    obtain ⟨l, htimer⟩ : ∃ l, (s₁.process now later).timer =
      (s₁.afterAnnounce now).timer.requestAll l :=
      timer_process
    have hlast : (s₁.process now later).lastAnnounce = (s₁.afterAnnounce now).lastAnnounce :=
      lastAnnounce_process
    rw [timer_afterAnnounce] at htimer
    rw [lastAnnounce_afterAnnounce] at hlast
    by_cases hdue : s.announces now
    · have hann : s₁.announces now := hdue
      rw [if_pos hann] at htimer hlast
      exact .inl ⟨woken, now, later, l, rfl, hdue, hlast, htimer⟩
    · have hann : ¬ s₁.announces now := hdue
      rw [if_neg hann] at htimer hlast
      exact .inr (.inr ⟨hdue, hlast, l, htimer⟩)
  | @processThrows woken now hle hdue => exact .inr (.inl ⟨woken, now, rfl, hdue, rfl, rfl⟩)
  | @retransmit now hle =>
    exact .inr (.inr ⟨trivial, rfl, _, timer_retransmit (s := { s with clock := now })⟩)
  | @joined now address name hle =>
    rw [join]
    split_ifs
    · exact .inr (.inr ⟨trivial, rfl, [], rfl⟩)
    · exact .inr (.inr ⟨trivial, rfl, [], rfl⟩)
  | @announce now address name hle =>
    obtain ⟨l, heq, -⟩ := receiveData_eq { s with clock := now } now address
    rw [heq]
    exact .inr (.inr ⟨trivial, rfl, [], rfl⟩)
  | @data now address hle =>
    obtain ⟨l, heq, -⟩ := receiveData_eq { s with clock := now } now address
    rw [heq]
    exact .inr (.inr ⟨trivial, rfl, [], rfl⟩)
  | ack hle =>
    exact .inr (.inr ⟨trivial, lastAnnounce_receiveAck, [], timer_receiveAck⟩)
  | @nack now address payload hle =>
    obtain ⟨l, heq, -⟩ := receiveData_eq { s with clock := now } now address
    rw [receiveNack, heq]
    cases aboutNack { s with clock := now } address payload with
    | none => exact .inr (.inr ⟨trivial, rfl, [], rfl⟩)
    | some x => exact .inr (.inr ⟨trivial, rfl, [now + x.target.roundTripTime], rfl⟩)

/-- `next_event` and the wake-ups are not behind the next announcement, and one wake-up at most is
for it. -/
structure Paced (s : Node) : Prop where
  next_le : s.timer.next ≤ s.lastAnnounce + milliseconds 500
  pending_le : ∀ w ∈ s.timer.pending, w ≤ s.lastAnnounce + milliseconds 500
  count_le : s.timer.pending.count (s.lastAnnounce + milliseconds 500) ≤ 1

theorem paced_start : Paced start where
  next_le := show (0 : ℤ) ≤ 0 + milliseconds 500 by decide
  pending_le _ h := absurd h List.not_mem_nil
  count_le := Nat.zero_le 1

theorem next_wake {woken : Option ℤ} : (s.wake woken).timer.next = s.timer.next := by
  cases woken <;> rfl

theorem pending_wake {woken : Option ℤ} : (s.wake woken).timer.pending.Sublist s.timer.pending := by
  cases woken with
  | none => exact .refl _
  | some w => exact List.erase_sublist

/-- No wake-up is for a time later than the next announcement. -/
theorem Paced.count_eq_zero (h : Paced s) {woken : Option ℤ} {d : ℤ}
    (hd : s.lastAnnounce + milliseconds 500 < d) : (s.wake woken).timer.pending.count d = 0 :=
  List.count_eq_zero.mpr fun hmem => ((h.pending_le d (pending_wake.subset hmem)).trans_lt hd).false

theorem Paced.step {a : Action} (h : Paced s) (hst : step s a = some s') : Paced s' := by
  have hwake (woken : Option ℤ) (w : ℤ) (hw : w ∈ (s.wake woken).timer.pending) :
      w ≤ s.lastAnnounce + milliseconds 500 := h.pending_le w (pending_wake.subset hw)
  rcases step_timer hst with ⟨woken, now, later, l, rfl, hdue, hlast, htimer⟩ |
    ⟨woken, now, rfl, hdue, hlast, htimer⟩ | ⟨-, hlast, l, htimer⟩
  · -- the announcement asks for the latest wake-up
    have hlt : s.lastAnnounce + milliseconds 500 < now + milliseconds 500 := by
      have hpos : 0 < milliseconds 500 := by decide
      rw [announces] at hdue
      omega
    have hnext : (s.wake woken).timer.next < now + milliseconds 500 :=
      next_wake.trans_lt (h.next_le.trans_lt hlt)
    refine ⟨?_, fun w hw => ?_, ?_⟩
    · rw [hlast, htimer]
      exact (Timer.next_requestAll_le ..).trans (Timer.next_postpone hnext).le
    · rw [hlast]
      rw [htimer] at hw
      rcases Timer.mem_pending_requestAll hw with hw | hw
      · rw [Timer.pending_postpone hnext] at hw
        rcases List.mem_cons.mp hw with rfl | hw
        · exact le_rfl
        · exact (hwake woken w hw).trans hlt.le
      · rw [Timer.next_postpone hnext] at hw
        exact hw.le
    · rw [hlast, htimer, Timer.count_pending_requestAll (Timer.next_postpone hnext).le,
        Timer.pending_postpone hnext, List.count_cons_self, h.count_eq_zero hlt]
  · -- the next announcement is later than all wake-ups
    have hlt : s.lastAnnounce + milliseconds 500 < now + milliseconds 500 := by
      have hpos : 0 < milliseconds 500 := by decide
      rw [announces] at hdue
      omega
    rw [← hlast] at hlt
    refine ⟨?_, fun w hw => ?_, ?_⟩
    · rw [htimer, next_wake]
      exact h.next_le.trans hlt.le
    · exact (hwake woken w (htimer ▸ hw)).trans hlt.le
    · rw [htimer, h.count_eq_zero hlt]
      exact Nat.zero_le 1
  · have hnext : (s.wake a.woken).timer.next ≤ s'.lastAnnounce + milliseconds 500 := by
      rw [next_wake, hlast]
      exact h.next_le
    refine ⟨?_, fun w hw => ?_, ?_⟩
    · rw [htimer]
      exact (Timer.next_requestAll_le ..).trans hnext
    · rw [htimer] at hw
      rcases Timer.mem_pending_requestAll hw with hw | hw
      · exact hlast ▸ hwake a.woken w hw
      · exact hw.le.trans hnext
    · rw [htimer, Timer.count_pending_requestAll hnext, hlast]
      exact (pending_wake.count_le _).trans h.count_le

/-! ## A wake-up for every message -/

theorem le_renewed (hsent : t.lastSend ≤ now) : deadline t p ≤ renewed now t p := by
  rw [renewed, deadline]
  split_ifs
  · omega
  · exact le_rfl

/-- **`retransmit`** leaves a wake-up pending for every message for which one was early enough after
it, or for which it has asked. -/
theorem awaited_retransmit (hn : Numbered s)
    (hok : s.Each fun t p => s.timer.Covers (renewed now t p) ∨
      s.Any fun t' p' => deadline t' p' < now ∧ now + p'.roundTripTime ≤ renewed now t p ∧
        now + p'.roundTripTime < s.timer.next) :
    (s.retransmit now).Awaited := by
  intro q hq t ht p hp hnumber
  obtain ⟨q', hq', t', ht', p', hlock, heq⟩ := mem_retransmit hq ht
  have htarget : t.target = t'.target := by
    rw [heq]
    split_ifs <;> rfl
  have hlock' := lock_eq hn hp (hnumber.trans htarget)
  obtain rfl : p = p' := Option.some.inj (hlock'.symm.trans hlock)
  have hdeadline : deadline t p = renewed now t' p := by
    rw [heq, renewed]
    split_ifs <;> rfl
  rw [timer_retransmit, hdeadline, Timer.covers_requestAll_iff]
  refine (hok q' hq' t' ht' p hp (hnumber.trans htarget)).imp_right ?_
  rintro ⟨r, hr, u, hu, v, hv, hvu, hdue, hle, hlt⟩
  refine ⟨now + v.roundTripTime, List.mem_flatMap.mpr ⟨r, hr, List.mem_filterMap.mpr ⟨u, hu, ?_⟩⟩,
    hlt, hle⟩
  rw [asked, lock_eq hn hv hvu, Option.bind_some, if_pos hdue]

/-- What `process` asks for is pending after it, or an earlier wake-up is. -/
theorem awaited_process (hn : Numbered s) (hp : Paced s)
    (hok : s.Each fun t p => ¬ timedOut now p →
      s.timer.Covers (renewed later t p) ∨ s.Asks now later (renewed later t p)) :
    (s.process now later).Awaited := by
  have hmem {p : NetworkTarget} (h : p ∈ ((s.afterAnnounce now).withoutTimedOut now).targets) :
      p ∈ s.targets ∧ ¬ timedOut now p := by
    obtain ⟨hp, hsilent⟩ := List.mem_filter.mp h
    exact ⟨targets_afterAnnounce (s := s) ▸ hp, of_decide_eq_true hsilent⟩
  have hbefore : Numbered ((s.afterAnnounce now).withoutTimedOut now) := by
    have hc : Continues s ((s.afterAnnounce now).withoutTimedOut now) now :=
      continues_of_eq sendQueue_afterAnnounce
    exact hn.of_targets (fun p h => (hmem h).1) hc nextNumber_afterAnnounce
  have hqueue : ((s.afterAnnounce now).withoutTimedOut now).sendQueue = s.sendQueue :=
    sendQueue_afterAnnounce
  have htimer : ((s.afterAnnounce now).withoutTimedOut now).timer =
      if s.announces now then s.timer.postpone (now + milliseconds 500) else s.timer :=
    timer_afterAnnounce
  rw [process]
  split_ifs with hempty
  · intro q hq
    rw [hempty] at hq
    exact absurd hq List.not_mem_nil
  · refine awaited_retransmit hbefore fun q hq t ht p hp' hnumber => ?_
    have hcase := hok q (hqueue ▸ hq) t ht p (hmem hp').1 hnumber (hmem hp').2
    rw [htimer]
    by_cases hdue : s.announces now
    · have hnext : s.timer.next < now + milliseconds 500 := by
        have hle := hp.next_le
        have hpos : 0 < milliseconds 500 := by decide
        rw [announces] at hdue
        omega
      have hasked : now + milliseconds 500 ∈ (s.timer.postpone (now + milliseconds 500)).pending :=
        Timer.pending_postpone hnext ▸ List.mem_cons_self
      rw [if_pos hdue, Timer.next_postpone hnext]
      rcases hcase with hcovers | ⟨-, hle⟩ | ⟨r, hr, u, hu, v, hv, hvu, hsilent, hlate, hle, -⟩
      · exact .inl hcovers.postpone
      · exact .inl ⟨_, hasked, hle⟩
      · -- a message that is sent again asks for a wake-up before that of the announcement, or
        -- for none
        rcases lt_or_ge (later + v.roundTripTime) (now + milliseconds 500) with hlt | hge
        · exact .inr ⟨r, hqueue.symm ▸ hr, u, hu, v, List.mem_filter.mpr
            ⟨targets_afterAnnounce (s := s) ▸ hv, decide_eq_true hsilent⟩, hvu, hlate, hle, hlt⟩
        · exact .inl ⟨_, hasked, hge.trans hle⟩
    · rw [if_neg hdue]
      rcases hcase with hcovers | ⟨hnow, -⟩ | ⟨r, hr, u, hu, v, hv, hvu, hsilent, hlate, hle, hor⟩
      · exact .inl hcovers
      · exact absurd hnow hdue
      · exact .inr ⟨r, hqueue.symm ▸ hr, u, hu, v, List.mem_filter.mpr
          ⟨targets_afterAnnounce (s := s) ▸ hv, decide_eq_true hsilent⟩, hvu, hlate, hle,
          hor.resolve_left hdue⟩

/-- The queues stay, and no target that waits is new or has another round trip time. -/
theorem Awaited.of_targets (h : s.Awaited) (hqueues : s'.sendQueue = s.sendQueue)
    (htimer : s'.timer = s.timer)
    (htargets : ∀ q ∈ s.sendQueue, ∀ t ∈ q.targets, ∀ p ∈ s'.targets, p.number = t.target →
      ∃ p' ∈ s.targets, p'.number = p.number ∧ p'.roundTripTime = p.roundTripTime) :
    s'.Awaited := by
  intro q hq t ht p hp hnumber
  rw [hqueues] at hq
  obtain ⟨p', hp', hnumber', hrtt⟩ := htargets q hq t ht p hp hnumber
  have hcovers := h q hq t ht p' hp' (hnumber'.trans hnumber)
  rwa [htimer, deadline, ← hrtt]

theorem Awaited.receiveData (h : s.Awaited) : (s.receiveData now address).Awaited := by
  obtain ⟨l, heq, hl⟩ := receiveData_eq s now address
  rw [heq]
  refine h.of_targets rfl rfl fun q _ t _ p hp _ => ?_
  obtain ⟨p', hp', hnumber, hrtt⟩ := hl p hp
  exact ⟨p', hp', hnumber, hrtt⟩

theorem Awaited.join {name : String} (h : s.Awaited) (hn : Numbered s) :
    (s.join now address name).Awaited := by
  rw [Node.join]
  split_ifs
  · exact h
  · refine h.of_targets rfl rfl fun q hq t ht p hp hnumber => ?_
    rcases List.mem_append.mp hp with hp | hp
    · exact ⟨p, hp, rfl, rfl⟩
    · -- no message waits for a target that has just joined
      rw [List.mem_singleton.mp hp] at hnumber
      exact absurd hnumber (hn.target_lt q hq t ht).ne'

theorem Awaited.receiveLeave (h : s.Awaited) : (s.receiveLeave address).Awaited :=
  h.of_targets rfl rfl fun _ _ _ _ p hp _ => ⟨p, List.mem_of_mem_filter hp, rfl, rfl⟩

/-- `send`. -/
theorem Awaited.keep {id count : ℕ} {target : String} (h : s.Awaited) (hn : Numbered s)
    (hok : ∀ p ∈ s.addressed target, s.Sends now target p) :
    (s.keep now id count target).Awaited := by
  intro r hr t ht p hp hnumber
  show (s.timer.requestAll _).Covers _
  rcases mem_insertQueue hr with rfl | hr
  · obtain ⟨p', hp', rfl⟩ := List.mem_map.mp ht
    obtain rfl := hn.unique p hp p' (mem_addressed hp') hnumber
    refine Timer.covers_requestAll_iff.mpr ((hok p hp').imp_right ?_)
    rintro ⟨v, hv, hlt, hle⟩
    exact ⟨now + v.roundTripTime, List.mem_map_of_mem hv, hlt, Int.add_le_add_left hle now⟩
  · exact (h r hr t ht p hp hnumber).requestAll _

/-- ACK.  A round trip that does not become shorter leaves the deadlines where they are, or
later. -/
theorem Awaited.receiveAck (h : s.Awaited) (hn : Numbered s)
    (hok : ∀ x ∈ s.aboutAck address payload,
      rtt < x.target.roundTripTime → s.Shortens payload rtt x) :
    (s.receiveAck now address payload rtt).Awaited := by
  rw [Node.receiveAck]
  cases hx : s.aboutAck address payload with
  | none => exact h.receiveData
  | some x =>
    obtain ⟨hp, hq, ht, hnumber⟩ := mem_about (mem_aboutAck hx)
    obtain ⟨l, heq, hl⟩ := receiveData_eq s now address
    show (((s.receiveData now address).measureRoundTrip x.target rtt).acknowledge x
      payload).Awaited
    rw [heq]
    intro r hr t hmem p hp' hp_number
    obtain ⟨t', htarget, hsend, hfrom⟩ := mem_acknowledge ht hr hmem
    rw [targets_acknowledge] at hp'
    obtain ⟨p₁, hp₁, rfl⟩ := mem_modifyTarget hp'
    obtain ⟨p₀, hp₀, hnumber₀, hrtt₀⟩ := hl p₁ hp₁
    -- the deadline before the ACK is covered
    have hcovers (hnumber : p₀.number = t'.target) : s.timer.Covers (deadline t' p₀) := by
      rcases hfrom with ⟨q', hq', -, hmem'⟩ | hmem'
      · exact h q' hq' t' hmem' p₀ hp₀ hnumber
      · exact h x.queue hq t' (mem_of_mem_left hmem') p₀ hp₀ hnumber
    rw [timer_acknowledge, deadline, ← hsend]
    split_ifs at hp_number ⊢ with hmine
    · -- its round trip has been measured
      obtain rfl := hn.unique p₀ hp₀ x.target hp (hnumber₀.trans hmine)
      have hof : t'.target = x.target.number := htarget.trans (hp_number.symm.trans hmine)
      show s.timer.Covers (t'.lastSend + rtt)
      rcases lt_or_ge rtt x.target.roundTripTime with hshort | hlong
      · obtain ⟨hothers, hleft⟩ := hok x hx hshort
        have hcovered : s.CoveredWith x.target rtt t' := by
          rcases hfrom with ⟨q', hq', hid, hmem'⟩ | hmem'
          · exact hothers q' hq' hid t' hmem'
          · exact hleft t' hmem'
        exact hcovered hof
      · exact (hcovers hof.symm).mono (Int.add_le_add_left hlong t'.lastSend)
    · have hcovered := hcovers (hnumber₀.trans (hp_number.trans htarget.symm))
      rwa [deadline, hrtt₀] at hcovered

/-- NACK. -/
theorem Awaited.receiveNack (h : s.Awaited) (hn : Numbered s)
    (hok : ∀ x ∈ s.aboutNack address payload,
      now + x.target.roundTripTime < s.timer.next ∨
        s.timer.Covers (now + x.target.roundTripTime)) :
    (s.receiveNack now address payload).Awaited := by
  rw [Node.receiveNack]
  cases hx : s.aboutNack address payload with
  | none => exact h.receiveData
  | some x =>
    obtain ⟨hp, hq, ht, hnumber⟩ := mem_about (mem_aboutNack hx)
    obtain ⟨l, heq, hl⟩ := receiveData_eq s now address
    show ((s.receiveData now address).reject now x payload).Awaited
    rw [heq]
    intro r hr t hmem p hp' hp_number
    obtain ⟨p₀, hp₀, hnumber₀, hrtt₀⟩ := hl p hp'
    show (s.timer.requestAll [now + x.target.roundTripTime]).Covers (deadline t p)
    rw [deadline, ← hrtt₀]
    rcases mem_reject (s := { s with targets := l }) hq hr hmem with
      ⟨q', hq', hmem⟩ | ⟨htarget, hsend⟩
    · exact (h q' hq' t hmem p₀ hp₀ (hnumber₀.trans hp_number)).requestAll _
    · have hsame : p₀.number = x.target.number :=
        hnumber₀.trans (hp_number.trans (htarget.trans hnumber))
      obtain rfl := hn.unique p₀ hp₀ x.target hp hsame
      rw [hsend, Timer.covers_requestAll_iff]
      exact (hok x hx).symm.imp_right fun hlt => ⟨_, List.mem_cons_self, hlt, le_rfl⟩

/-- What a wake-up leaves covered. -/
theorem Awaited.wake {woken : Option ℤ} {d : ℤ} (h : s.timer.Covers d)
    (hsole : ∀ w ∈ woken, ¬ s.timer.Sole w d) : (s.wake woken).timer.Covers d := by
  cases woken with
  | none => exact h
  | some w => exact h.consume (hsole w rfl)

theorem asks_wake {woken : Option ℤ} {d : ℤ} :
    (s.wake woken).Asks now later d ↔ s.Asks now later d := by
  cases woken <;> exact Iff.rfl

theorem each_wake {woken : Option ℤ} {P : PacketTarget → NetworkTarget → Prop} :
    (s.wake woken).Each P ↔ s.Each P := by
  cases woken <;> exact Iff.rfl

theorem Numbered.wake {woken : Option ℤ} (h : Numbered s) : Numbered (s.wake woken) := by
  cases woken <;> exact ⟨h.unique, h.number_lt, h.target_lt⟩

theorem Paced.wake {woken : Option ℤ} (h : Paced s) : Paced (s.wake woken) := by
  have hlast : (s.wake woken).lastAnnounce = s.lastAnnounce := by cases woken <;> rfl
  refine ⟨?_, fun w hw => ?_, ?_⟩
  · rw [next_wake, hlast]
    exact h.next_le
  · exact hlast ▸ h.pending_le w (pending_wake.subset hw)
  · rw [hlast]
    exact (pending_wake.count_le _).trans h.count_le

/-- **A step** that meets the condition keeps a wake-up pending for every message that waits. -/
theorem Awaited.step {a : Action} (h : s.Awaited) (hn : Numbered s) (hp : Paced s)
    (hsent : s.SentBy s.clock) (hok : s.Heeded a) (hst : step s a = some s') : s'.Awaited := by
  cases calls_of_step hst with
  | reset => exact fun q hq => absurd hq List.not_mem_nil
  | sent => exact h
  | @kept now payload target hle id count =>
    have hn₀ : Numbered { s with clock := now, packetIdSource := id } :=
      ⟨hn.unique, hn.number_lt, hn.target_lt⟩
    exact Awaited.keep h hn₀ (hok rfl)
  | @process woken now later hle hlater =>
    have hn₀ : Numbered { s with clock := now } := hn.setClock now
    have hp₀ : Paced { s with clock := now } := ⟨hp.next_le, hp.pending_le, hp.count_le⟩
    refine awaited_process hn₀.wake hp₀.wake
      (each_wake.mpr fun q hq t ht p hp hnumber hsilent => ?_)
    rw [asks_wake]
    -- a message that is sent again is due later than before
    have hcovers : s.timer.Covers (renewed later t p) :=
      (h q hq t ht p hp hnumber).mono (le_renewed ((hsent q hq t ht).trans (hle.trans hlater)))
    by_cases hsole : ∃ w ∈ woken, s.timer.Sole w (renewed later t p)
    · obtain ⟨w, hw, hsole⟩ := hsole
      exact .inr (hok w hw q hq t ht p hp hnumber hsilent hsole)
    · exact .inl (Awaited.wake (s := { s with clock := now }) hcovers
        fun w hw hw' => hsole ⟨w, hw, hw'⟩)
  | @processThrows woken now hle hdue =>
    show (Node.wake { s with clock := now } woken).Each fun t p =>
      (Node.wake { s with clock := now } woken).timer.Covers (deadline t p)
    exact each_wake.mpr fun q hq t ht p hp hnumber =>
      Awaited.wake (s := { s with clock := now }) (h q hq t ht p hp hnumber)
        fun w hw => hok w hw q hq t ht p hp hnumber
  | @retransmit now hle =>
    refine awaited_retransmit (hn.setClock now) fun q hq t ht p hp hnumber => .inl ?_
    exact (h q hq t ht p hp hnumber).mono (le_renewed ((hsent q hq t ht).trans hle))
  | joined => exact Awaited.join h (hn.setClock _)
  | announce | data => exact Awaited.receiveData h
  | leave => exact h.receiveLeave
  | ack => exact Awaited.receiveAck h (hn.setClock _) hok
  | nack => exact Awaited.receiveNack h (hn.setClock _) hok

/-! ## A wake-up for the next announcement -/

/-- The wake-up for the next announcement is for exactly its time. -/
theorem Paced.announceAwaited_iff (h : Paced s) :
    s.AnnounceAwaited ↔ s.lastAnnounce + milliseconds 500 ∈ s.timer.pending := by
  constructor
  · rintro ⟨w, hw, hle⟩
    rwa [le_antisymm hle (h.pending_le w hw)]
  · exact fun hmem => ⟨_, hmem, le_rfl⟩

/-- An announcement asks for the wake-up for the next one. -/
theorem Paced.announces (h : Paced s) {woken : Option ℤ} (hdue : s.announces now)
    (hst : Node.step s (.process woken now later) = some s') :
    s'.lastAnnounce = now ∧ now + milliseconds 500 ∈ s'.timer.pending := by
  rcases step_timer hst with ⟨w, n, k, l, heq, -, hlast, htimer⟩ | ⟨w, n, heq, -⟩ | ⟨hrests, -⟩
  · cases heq
    have hnext : (s.wake woken).timer.next < now + milliseconds 500 := by
      have hle := h.next_le
      have hpos : 0 < milliseconds 500 := by decide
      rw [Node.announces] at hdue
      rw [next_wake]
      omega
    refine ⟨hlast, ?_⟩
    rw [htimer]
    refine Timer.mem_pending_requestAll_of_mem ?_
    rw [Timer.pending_postpone hnext]
    exact List.mem_cons_self
  · cases heq
  · exact absurd hdue hrests

/-- A step after an announcement that waits for the next one leaves its wake-up pending. -/
theorem mem_pending_of_waits {a : Action} (hlast : s.lastAnnounce = time) (hwaits : Waits time a)
    (hmem : time + milliseconds 500 ∈ s.timer.pending) (hst : step s a = some s') :
    s'.lastAnnounce = time ∧ time + milliseconds 500 ∈ s'.timer.pending := by
  rcases step_timer hst with ⟨w, now, k, l, rfl, hdue, -⟩ | ⟨w, n, rfl, -⟩ |
    ⟨-, hlast', l, htimer⟩
  · have hle := hwaits.1
    rw [announces] at hdue
    omega
  · exact hwaits.elim
  · refine ⟨hlast'.trans hlast, ?_⟩
    rw [htimer]
    refine Timer.mem_pending_requestAll_of_mem ?_
    have hne : a.woken ≠ some (time + milliseconds 500) := by
      cases a with
      | process woken now later => exact hwaits.2
      | processThrows => exact hwaits.elim
      | _ => exact Option.some_ne_none _ |>.symm
    cases hw : a.woken with
    | none => exact hmem
    | some w =>
      refine (List.mem_erase_of_ne fun heq => hne ?_).mpr hmem
      rw [hw, heq]

/-- A wake-up for the next announcement that is pending after a step was pending before, and the
step has left it; or the step has announced. -/
theorem waits_of_mem_pending {a : Action} (hp : Paced s) (hst : step s a = some s')
    (hmem : s'.lastAnnounce + milliseconds 500 ∈ s'.timer.pending) :
    (∃ woken later, a = .process woken s'.lastAnnounce later ∧ s.announces s'.lastAnnounce) ∨
      s.lastAnnounce = s'.lastAnnounce ∧ Waits s.lastAnnounce a ∧
        s.lastAnnounce + milliseconds 500 ∈ s.timer.pending := by
  rcases step_timer hst with ⟨w, now, k, l, rfl, hdue, rfl, -⟩ |
    ⟨w, now, rfl, hdue, hlast, htimer⟩ |
    ⟨hrests, hlast, l, htimer⟩
  · exact .inl ⟨w, k, rfl, hdue⟩
  · -- all wake-ups are before the announcement that was not sent
    rw [htimer, hlast] at hmem
    have hle := hp.pending_le _ (pending_wake.subset hmem)
    rw [announces] at hdue
    have hpos : 0 < milliseconds 500 := by decide
    omega
  · have hnext : (s.wake a.woken).timer.next ≤ s.lastAnnounce + milliseconds 500 :=
      next_wake.trans_le hp.next_le
    rw [htimer, hlast] at hmem
    have hwake := (Timer.mem_pending_requestAll hmem).resolve_right hnext.not_gt
    refine .inr ⟨hlast.symm, ?_, pending_wake.subset hwake⟩
    cases a with
    | process woken now later =>
      refine ⟨?_, fun heq => ?_⟩
      · rw [Rests, announces] at hrests
        omega
      · -- the one wake-up for the next announcement has come
        subst heq
        have hpos : 0 < (s.timer.pending.erase (s.lastAnnounce + milliseconds 500)).count
            (s.lastAnnounce + milliseconds 500) := List.count_pos_iff.mpr hwake
        have hcount := hp.count_le
        rw [List.count_erase_self] at hpos
        omega
    | processThrows woken now => exact hrests.elim
    | _ => trivial

/-- What holds after every run. -/
theorem invariant_of_exec {l : List Action} (h : exec step start l = some s) :
    Numbered s ∧ Paced s ∧ s.SentBy s.clock := by
  have hr : Reaches step Always start s := reaches_always_of_exec h
  exact hr.invariant (P := fun s => Numbered s ∧ Paced s ∧ s.SentBy s.clock)
    ⟨numbered_start, paced_start, fun _ hq => absurd hq List.not_mem_nil⟩
    fun _ _ _ hs _ hst => ⟨hs.1.step hst, hs.2.1.step hst, hs.2.2.step hst⟩

/-- **A wake-up for the next announcement** is pending after a run if and only if `process` has
announced, and waits. -/
theorem announceAwaited_iff {l : List Action} (h : exec step start l = some s) :
    s.AnnounceAwaited ↔ Announced l := by
  rw [(invariant_of_exec h).2.1.announceAwaited_iff]
  constructor
  · intro hmem
    -- by induction on the run, the latest announcement is the one that the wake-up follows
    suffices hsuff : ∃ l₁ woken now later l₂ s₁, l = l₁ ++ .process woken now later :: l₂ ∧
        exec step start l₁ = some s₁ ∧ s₁.announces now ∧ (∀ a ∈ l₂, Waits now a) ∧
          s.lastAnnounce = now by
      obtain ⟨l₁, woken, now, later, l₂, s₁, hl, h₁, hdue, hwaits, -⟩ := hsuff
      exact ⟨l₁, woken, now, later, l₂, s₁, hl, h₁, hdue, hwaits⟩
    induction l using List.reverseRecOn generalizing s with
    | nil =>
      obtain rfl := Option.some.inj h
      exact absurd hmem List.not_mem_nil
    | append_singleton l a ih =>
      obtain ⟨s₀, h₀, hst⟩ := exec_concat_eq_some h
      rcases waits_of_mem_pending (invariant_of_exec h₀).2.1 hst hmem with
        ⟨woken, later, rfl, hdue⟩ | ⟨hlast, hwaits, hmem₀⟩
      · exact ⟨l, woken, _, later, [], s₀, rfl, h₀, hdue,
          fun _ ha => absurd ha List.not_mem_nil, rfl⟩
      · obtain ⟨l₁, woken, now, later, l₂, s₁, rfl, h₁, hdue, hall, heq⟩ := ih h₀ hmem₀
        refine ⟨l₁, woken, now, later, l₂ ++ [a], s₁, ?_, h₁, hdue, fun b hb => ?_,
          hlast.symm.trans heq⟩
        · rw [List.append_assoc, List.cons_append]
        · rcases List.mem_append.mp hb with hb | hb
          · exact hall b hb
          · obtain rfl := List.mem_singleton.mp hb
            exact heq ▸ hwaits
  · rintro ⟨l₁, woken, now, later, l₂, s₁, rfl, h₁, hdue, hwaits⟩
    suffices hsuff : s.lastAnnounce = now ∧ now + milliseconds 500 ∈ s.timer.pending by
      rw [hsuff.1]
      exact hsuff.2
    induction l₂ using List.reverseRecOn generalizing s with
    | nil =>
      obtain ⟨s₀, h₀, hst⟩ := exec_concat_eq_some h
      obtain rfl := Option.some.inj (h₁.symm.trans h₀)
      exact (invariant_of_exec h₁).2.1.announces hdue hst
    | append_singleton l₂ a ih =>
      rw [← List.cons_append, ← List.append_assoc] at h
      obtain ⟨s₀, h₀, hst⟩ := exec_concat_eq_some h
      obtain ⟨hlast, hmem⟩ := ih h₀ fun b hb => hwaits b (List.mem_append_left _ hb)
      exact mem_pending_of_waits hlast (hwaits a (List.mem_append_right _ List.mem_cons_self)) hmem
        hst

/-! ## Every run -/

instance (s : Node) : Decidable s.Awaited := inferInstanceAs (Decidable (s.Each _))

instance (s : Node) : Decidable s.AnnounceAwaited :=
  inferInstanceAs (Decidable (∃ w ∈ s.timer.pending, s.lastAnnounce + milliseconds 500 ≤ w))

/-- A node announces itself, another one joins, and a message is sent to it 400 ms before the next
announcement. -/
def sendsOnce : List Action :=
  [.reset 1500, .process none (milliseconds 1000) (milliseconds 1000),
    .announce (milliseconds 1050) [1] "b", .send (milliseconds 1100) [0] "b" true,
    .process (some (milliseconds 1500)) (milliseconds 1501) (milliseconds 1501)]

end Node

end Retransmission
end Network
end Extension
end NUClear
