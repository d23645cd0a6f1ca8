import Mathlib.Algebra.Order.Ring.Int
import Mathlib.Data.Fin.Basic
import Mathlib.Data.List.FinRange
import Mathlib.Logic.Function.Basic
import Mathlib.Tactic.Linarith
import NUClear.Foundation.Reachability

/-!
# Who is on the network (`NUClearNetwork.cpp`)

A node announces itself in `process` when the last announcement was more than 500 ms ago, and
forgets the peers from which it has heard nothing for more than 2 s.  It joins whoever announces
itself and is unknown, and answers with an announcement of its own.  A node that is shut down sends
a LEAVE.

Here are `n` nodes and the packets between them, with a clock that all of them read.  A packet may
be delayed, and overtaken; a packet that is no announcement may be lost.  The bounds `D` on the
delay of a packet and `P` on the time between two calls of `process` of a node are conditions on the
run (`Timely`).

* `leave_accurate`: no node that is up is ever taken for gone, if `500 ms + P + D` is at most 2 s.
* `down_forgotten`: a node that has gone is forgotten by all others `D + 2 s + P` later, whatever
  `D` and `P` are.
* `up_known`: two nodes that are up know each other `500 ms + P + D` later, if that is at most 2 s
  and the one that is to be known has a name.

`process` and the handling of one packet are indivisible here, and the first target, which is for
multicast, is left out; the indexes of the targets are in `Network.Peers`.  A node that has gone
does not come back.

## The proof

Time passes in steps, and no step lets it pass a bound of `Timely`.  So each result is an invariant
about times, and `Truthful` puts them together.

* `PacketOk`: what a packet under way says of its source; it was sent at most `D` ago, and before
  its source has gone.
* `NodeOk`: when a node that is up has called `process` and has announced itself last.
* `PeerOk`: an entry in the targets of a node is no older than 2 s at its last call of `process`,
  and no newer than `D` after the peer has gone.
* `Due`: an announcement of one node to another is on its way, sent when one was due after a time,
  or none is due after that time yet.  It holds of the last time that one has heard of the other,
  and of the time since when both are up; that is what `leave_accurate` and `up_known` rest on
  (`Truthful.due_le`).
-/

namespace NUClear
namespace Extension
namespace Network
namespace Discovery

open Foundation

variable {n : ℕ}

/-! ## The nodes and the packets -/

/-- A number of milliseconds, in nanoseconds. -/
def milliseconds (k : ℤ) : ℤ := k * 1000000

/-- How long a node waits at least before the next announcement, counted from the last one. -/
def announcePeriod : ℤ := milliseconds 500

/-- How long a peer may be silent before it is taken for gone. -/
def peerTimeout : ℤ := milliseconds 2000

inductive Status where
  | off
  | up (since : ℤ)
  | down (since : ℤ)
  deriving DecidableEq, Repr

/-- `NetworkTarget`; the address is which node it is. -/
structure Target (n : ℕ) where
  name : String
  target : Fin n
  lastUpdate : ℤ
  deriving DecidableEq, Repr

structure Node (n : ℕ) where
  status : Status
  targets : List (Target n)
  lastAnnounce : ℤ
  /-- When `process` was called, or the node was started. -/
  lastProcess : ℤ
  /-- `process` was called since the node was started. -/
  processed : Bool
  deriving DecidableEq, Repr

/-- The types of packets: an announcement with the name of the sender, a LEAVE, and the others. -/
inductive PacketType where
  | announce (name : String)
  | leave
  | other
  deriving DecidableEq, Repr

def PacketType.isAnnounce : PacketType → Bool
  | .announce _ => true
  | _ => false

structure Packet (n : ℕ) where
  src : Fin n
  dst : Fin n
  type : PacketType
  sentAt : ℤ
  deriving DecidableEq, Repr

/-- The callbacks of a node `i` that tell it of a node `j`. -/
inductive Event (n : ℕ) where
  | join (i j : Fin n)
  | leave (i j : Fin n)
  deriving DecidableEq, Repr

structure Net (n : ℕ) where
  now : ℤ
  nodes : Fin n → Node n
  flight : List (Packet n)
  trace : List (Event n)

/-! ## What a node does -/

/-- `now - last_update > 2 s`: nothing was heard of the target for too long. -/
def Target.timedOut (now : ℤ) (t : Target n) : Bool := peerTimeout < now - t.lastUpdate

namespace Node

def isUp (d : Node n) : Bool :=
  match d.status with
  | .up _ => true
  | _ => false

/-- `udp_target.find(key)`: what the node knows of the source of a packet. -/
def find (d : Node n) (src : Fin n) : Option (Target n) := d.targets.find? fun t => t.target = src

/-- `now - last_announce > 500 ms`: it is time for an announcement. -/
def announces (d : Node n) (now : ℤ) : Bool := announcePeriod < now - d.lastAnnounce

/-- `process`, before it reads packets: an announcement if it is time for one, and the targets that
have timed out are removed. -/
def process (d : Node n) (now : ℤ) : Node n :=
  { d with
    targets := d.targets.filter fun t => !t.timedOut now
    lastAnnounce := if d.announces now then now else d.lastAnnounce
    lastProcess := now
    processed := true }

/-- The targets that `process` removes, and for which it invokes the callback. -/
def leavers (d : Node n) (now : ℤ) : List (Target n) := d.targets.filter fun t => t.timedOut now

/-- `remote->last_update = now`: something was heard of the source of a packet, if it is known. -/
def heard (d : Node n) (now : ℤ) (src : Fin n) : Node n :=
  { d with
    targets := d.targets.map fun t =>
      if t.target = src then { t with lastUpdate := now } else t }

/-- A packet from this source has come.  An unknown source joins by an announcement with a name; a
LEAVE removes it; anything else keeps it alive. -/
def processPacket (d : Node n) (now : ℤ) (src : Fin n) : PacketType → Node n
  | .announce name =>
      match d.find src with
      | none => if name = "" then d else { d with targets := d.targets ++ [⟨name, src, now⟩] }
      | some _ => d.heard now src
  | .leave => { d with targets := d.targets.filter fun t => t.target ≠ src }
  | .other => d.heard now src

/-- The packet makes the node join its source. -/
def joins (d : Node n) (src : Fin n) : PacketType → Bool
  | .announce name => name ≠ "" && (d.find src).isNone
  | _ => false

/-- The packet makes the node forget its source. -/
def forgets (d : Node n) (src : Fin n) : PacketType → Bool
  | .leave => (d.find src).isSome
  | _ => false

end Node

/-! ## The network -/

namespace Net

variable (names : Fin n → String) (s : Net n)

def setNode (i : Fin n) (d : Node n) : Net n := { s with nodes := Function.update s.nodes i d }

/-- A packet to everybody, also to its sender: one datagram for each node, sent now. -/
def multicast (i : Fin n) (type : PacketType) : List (Packet n) :=
  (List.finRange n).map fun j => ⟨i, j, type, s.now⟩

def start (now : ℤ) : Net n := ⟨now, fun _ => ⟨.off, [], 0, 0, false⟩, [], []⟩

inductive Action (n : ℕ) where
  /-- A node is configured. -/
  | reset (i : Fin n)
  /-- `process`, before it reads packets. -/
  | process (i : Fin n)
  /-- The packet at this place is read. -/
  | processPacket (k : ℕ)
  /-- A packet that is neither an announcement nor a LEAVE is sent. -/
  | send (i j : Fin n)
  | shutdown (i : Fin n)
  /-- A node goes without a LEAVE. -/
  | crash (i : Fin n)
  | lose (k : ℕ)
  | tick (now : ℤ)
  deriving DecidableEq, Repr

def step : Action n → Option (Net n)
  | .reset i =>
      if (s.nodes i).status = .off then
        some (s.setNode i { s.nodes i with status := .up s.now, lastProcess := s.now })
      else none
  | .process i =>
      if (s.nodes i).isUp then
        some { s.setNode i ((s.nodes i).process s.now) with
          flight := s.flight ++ if (s.nodes i).announces s.now then
            s.multicast i (.announce (names i)) else []
          trace := ((s.nodes i).leavers s.now).map (fun t => .leave i t.target) ++ s.trace }
      else none
  | .processPacket k =>
      match s.flight[k]? with
      | none => none
      | some p =>
          let d := s.nodes p.dst
          if d.isUp then
            -- packets are read at the end of `process`
            if d.processed then
              some { s.setNode p.dst (d.processPacket s.now p.src p.type) with
                flight := s.flight.eraseIdx k ++
                  if d.joins p.src p.type then [⟨p.dst, p.src, .announce (names p.dst), s.now⟩]
                    else []
                trace := (if d.joins p.src p.type then [.join p.dst p.src] else []) ++
                  (if d.forgets p.src p.type then [.leave p.dst p.src] else []) ++ s.trace }
            else none
          else some { s with flight := s.flight.eraseIdx k }
  | .send i j =>
    if (s.nodes i).isUp then some { s with flight := s.flight ++ [⟨i, j, .other, s.now⟩] } else none
  | .shutdown i =>
      if (s.nodes i).isUp then
        some { s.setNode i { s.nodes i with status := .down s.now } with
          flight := s.flight ++ s.multicast i .leave }
      else none
  | .crash i =>
    if (s.nodes i).isUp then some (s.setNode i { s.nodes i with status := .down s.now }) else none
  | .lose k => some { s with flight := s.flight.eraseIdx k }
  | .tick now => some { s with now := now }

/-- The network is fast enough, and so are the nodes: no packet is under way for more than `D`, no
node is up for more than `P` without a call of `process`, and no announcement is lost. -/
def Timely (D P : ℤ) (s : Net n) : Action n → Prop
  | .lose k => ∀ p ∈ s.flight[k]?, p.type.isAnnounce = false
  | .tick now => s.now ≤ now ∧ (∀ p ∈ s.flight, now ≤ p.sentAt + D) ∧
      ∀ i, (s.nodes i).isUp = true → now ≤ (s.nodes i).lastProcess + P
  | _ => True

instance (D P : ℤ) (s : Net n) : (a : Action n) → Decidable (Timely D P s a)
  | .lose k => inferInstanceAs (Decidable (∀ p ∈ s.flight[k]?, p.type.isAnnounce = false))
  | .tick now => inferInstanceAs (Decidable (s.now ≤ now ∧ (∀ p ∈ s.flight, now ≤ p.sentAt + D) ∧
      ∀ i, (s.nodes i).isUp = true → now ≤ (s.nodes i).lastProcess + P))
  | .reset _ | .process _ | .processPacket _ | .send _ _ | .shutdown _ | .crash _ => .isTrue trivial

end Net

/-! ## What the operations of a node change -/

namespace Node

variable {d : Node n} {now : ℤ} {src : Fin n} {type : PacketType} {e : Target n}

theorem isUp_iff : d.isUp = true ↔ ∃ u, d.status = .up u := by
  unfold isUp
  cases d.status <;> simp

theorem mem_process : e ∈ (d.process now).targets ↔ e ∈ d.targets ∧
    now ≤ e.lastUpdate + peerTimeout := by
  simp [process, Target.timedOut, add_comm]

theorem mem_leavers : e ∈ d.leavers now ↔ e ∈ d.targets ∧ e.lastUpdate + peerTimeout < now := by
  simp [leavers, Target.timedOut, lt_sub_iff_add_lt']

theorem find_none (h : d.find src = none) (he : e ∈ d.targets) : e.target ≠ src := by
  simpa using List.find?_eq_none.mp h e he

theorem find_some {t : Target n} (h : d.find src = some t) : t ∈ d.targets ∧ t.target = src :=
  ⟨List.mem_of_find?_eq_some h, by simpa using List.find?_some h⟩

/-- An entry after a packet was there before, and is not the entry of the sender, or it is of this
moment, and the sender has announced itself or was known. -/
theorem mem_processPacket (h : e ∈ (d.processPacket now src type).targets) :
    e ∈ d.targets ∧ e.target ≠ src ∨
      e.target = src ∧ e.lastUpdate = now ∧ type ≠ .leave ∧
        ((∃ name, type = .announce name) ∨ ∃ t ∈ d.targets, t.target = src) := by
  have heard : e ∈ (d.heard now src).targets →
      e ∈ d.targets ∧ e.target ≠ src ∨ e.target = src ∧ e.lastUpdate = now ∧ ∃ t ∈ d.targets,
        t.target = src := by
    intro h
    obtain ⟨t, ht, rfl⟩ := List.mem_map.mp h
    by_cases hsrc : t.target = src
    · rw [if_pos hsrc]
      exact .inr ⟨hsrc, rfl, t, ht, hsrc⟩
    · rw [if_neg hsrc]
      exact .inl ⟨ht, hsrc⟩
  match type with
  | .announce name =>
    simp only [processPacket] at h
    split at h
    next hf =>
      split_ifs at h with hname
      · exact .inl ⟨h, find_none hf h⟩
      · rcases List.mem_append.mp h with h | h
        · exact .inl ⟨h, find_none hf h⟩
        · obtain rfl := List.mem_singleton.mp h
          exact .inr ⟨rfl, rfl, by simp, .inl ⟨name, rfl⟩⟩
    next hf =>
      rcases heard h with h | ⟨hsrc, hnow, -⟩
      · exact .inl h
      · exact .inr ⟨hsrc, hnow, by simp, .inl ⟨name, rfl⟩⟩
  | .leave =>
    obtain ⟨h, hsrc⟩ := List.mem_filter.mp h
    exact .inl ⟨h, by simpa using hsrc⟩
  | .other =>
    rcases heard h with h | ⟨hsrc, hnow, ht⟩
    · exact .inl h
    · exact .inr ⟨hsrc, hnow, by simp, .inr ht⟩

/-- Only a LEAVE from a node makes its entry go; every other packet leaves whom the node knows. -/
theorem has_processPacket {j : Fin n} (h : ∃ e ∈ d.targets, e.target = j)
    (hleave : type = .leave → j ≠ src) :
    ∃ e ∈ (d.processPacket now src type).targets, e.target = j := by
  have heard : ∃ e ∈ (d.heard now src).targets, e.target = j := by
    obtain ⟨e, he, hj⟩ := h
    refine ⟨_, List.mem_map_of_mem he, ?_⟩
    split_ifs
    · exact hj
    · exact hj
  match type with
  | .announce name =>
    simp only [processPacket]
    split
    · split_ifs
      · exact h
      · obtain ⟨e, he, hj⟩ := h
        exact ⟨e, List.mem_append_left _ he, hj⟩
    · exact heard
  | .leave =>
    obtain ⟨e, he, hj⟩ := h
    exact ⟨e, List.mem_filter.mpr ⟨he, by simpa [hj] using hleave rfl⟩, hj⟩
  | .other => exact heard

/-- Who announces itself is known afterwards. -/
theorem has_announced {name : String} (hname : name ≠ "") :
    ∃ e ∈ (d.processPacket now src (.announce name)).targets, e.target = src := by
  cases hf : d.find src with
  | none => exact ⟨⟨name, src, now⟩, by simp [processPacket, hf, hname], rfl⟩
  | some t =>
    have h := find_some hf
    exact has_processPacket ⟨t, h⟩ (by simp)

/-- Only the targets change, not when the node has announced itself or called `process`. -/
theorem processPacket_eq :
    d.processPacket now src type = { d with
      targets := (d.processPacket now src type).targets } := by
  unfold processPacket heard
  split
  · split
    · split_ifs <;> rfl
    · rfl
  · rfl
  · rfl

@[simp] theorem processPacket_status : (d.processPacket now src type).status = d.status := by
  rw [processPacket_eq]

@[simp] theorem processPacket_lastAnnounce :
    (d.processPacket now src type).lastAnnounce = d.lastAnnounce := by
  rw [processPacket_eq]

@[simp] theorem processPacket_lastProcess :
    (d.processPacket now src type).lastProcess = d.lastProcess := by
  rw [processPacket_eq]

@[simp] theorem processPacket_processed :
    (d.processPacket now src type).processed = d.processed := by
  rw [processPacket_eq]

end Node

/-! ## The invariant -/

namespace Net

variable (D P : ℤ) (names : Fin n → String) (s : Net n)

@[simp] theorem setNode_now (i : Fin n) (d : Node n) : (s.setNode i d).now = s.now := rfl

theorem setNode_self (i : Fin n) (d : Node n) : (s.setNode i d).nodes i = d :=
  Function.update_self ..

theorem setNode_ne {i j : Fin n} (h : j ≠ i) (d : Node n) : (s.setNode i d).nodes j = s.nodes j :=
  Function.update_of_ne h ..

/-- What a packet under way says of its source. -/
structure PacketOk (p : Packet n) : Prop where
  sent : p.sentAt ≤ s.now
  fresh : s.now ≤ p.sentAt + D
  started : (s.nodes p.src).status ≠ .off
  before : ∀ c, (s.nodes p.src).status = .down c → p.sentAt ≤ c
  leave : p.type = .leave → ∃ c, (s.nodes p.src).status = .down c
  announce : ∀ name, p.type = .announce name → name = names p.src ∧ (s.nodes p.src).processed = true

structure NodeOk (d : Node n) : Prop where
  announced : d.lastAnnounce ≤ s.now
  off : d.status = .off → d.lastAnnounce = 0 ∧ d.targets = [] ∧ d.processed = false
  since : ∀ u, d.status = .up u → 0 ≤ u ∧ u ≤ d.lastProcess
  down : ∀ c, d.status = .down c → c ≤ s.now
  lately : ∀ u, d.status = .up u → d.lastProcess ≤ s.now ∧ s.now ≤ d.lastProcess + P
  period : ∀ u, d.status = .up u → d.processed = true →
    d.lastProcess ≤ d.lastAnnounce + announcePeriod
  fresh : ∀ u, d.status = .up u → d.processed = false → d.lastProcess = u

/-- An announcement of `j` is on its way to `i`, sent when one was due after `t`, or none is due
after `t` yet. -/
def Due (i j : Fin n) (t : ℤ) : Prop :=
  (∃ p ∈ s.flight, p.src = j ∧ p.dst = i ∧ (∃ name, p.type = .announce name) ∧
    p.sentAt ≤ t + announcePeriod + P) ∨
    (s.nodes j).lastAnnounce ≤ t

/-- What an entry in the targets of `i` says of its peer. -/
structure PeerOk (i : Fin n) (e : Target n) : Prop where
  past : e.lastUpdate ≤ s.now
  recent : (s.nodes i).lastProcess ≤ e.lastUpdate + peerTimeout
  started : (s.nodes e.target).status ≠ .off
  processed : (s.nodes e.target).processed = true
  down : ∀ c, (s.nodes e.target).status = .down c → e.lastUpdate ≤ c + D
  up : ∀ u, (s.nodes e.target).status = .up u → s.Due P i e.target e.lastUpdate

structure Truthful : Prop where
  nonneg : 0 ≤ s.now
  packet : ∀ p ∈ s.flight, s.PacketOk D names p
  node : ∀ i, s.NodeOk P (s.nodes i)
  peer : ∀ i u, (s.nodes i).status = .up u → ∀ e ∈ (s.nodes i).targets, s.PeerOk D P i e
  known : announcePeriod + P + D ≤ peerTimeout → ∀ i j u v, names j ≠ "" →
    (s.nodes i).status = .up u →
    (s.nodes j).status = .up v → (∃ e ∈ (s.nodes i).targets, e.target = j) ∨ s.Due P i j (max u v)
  left : announcePeriod + P + D ≤ peerTimeout → ∀ i j, .leave i j ∈ s.trace →
    ∃ c, (s.nodes j).status = .down c

variable {D P names s} {s' : Net n} {i j : Fin n}

theorem Truthful.start {now : ℤ} (h : 0 ≤ now) : (Net.start now : Net n).Truthful D P names where
  nonneg := h
  packet p hp := by cases hp
  node i := by constructor <;> simp [Net.start, h]
  peer i u hu := by cases hu
  known _ i j u v _ hu := by cases hu
  left _ i j h := by cases h

/-- An announcement is sent in time: as long as a node that is up has not announced itself after a
time, no more than a period and the time between two calls have passed since. -/
theorem NodeOk.inTime {d : Node n} {u t : ℤ} (h : s.NodeOk P d) (hu : d.status = .up u)
    (ht : d.processed = true ∨ u ≤ t) (hlast : d.lastAnnounce ≤ t) :
    s.now ≤ t + announcePeriod + P := by
  have := (h.lately u hu).2
  cases hp : d.processed with
  | true =>
    have := h.period u hu hp
    linarith
  | false =>
    have hut : u ≤ t := by simpa [hp] using ht
    have := h.fresh u hu hp
    have : (0 : ℤ) ≤ announcePeriod := by decide
    linarith

/-- An announcement that is due has come before the time is up: its time to be sent, and its delay.
-/
theorem Truthful.due_le (h : s.Truthful D P names) (hD : 0 ≤ D) {u t : ℤ}
    (hu : (s.nodes j).status = .up u) (ht : (s.nodes j).processed = true ∨ u ≤ t)
    (hdue : s.Due P i j t) : s.now ≤ t + announcePeriod + P + D := by
  rcases hdue with ⟨p, hp, -, -, -, hsent⟩ | hlast
  · linarith [(h.packet p hp).fresh]
  · linarith [(h.node j).inTime hu ht hlast]

/-- A peer that is up is not taken for gone, since an announcement newer than its entry is due and
would have come. -/
theorem Truthful.up_recent (h : s.Truthful D P names) (hD : 0 ≤ D)
    (hT : announcePeriod + P + D ≤ peerTimeout) {u v : ℤ} {e : Target n}
    (hu : (s.nodes i).status = .up u) (he : e ∈ (s.nodes i).targets)
    (hv : (s.nodes e.target).status = .up v) : s.now ≤ e.lastUpdate + peerTimeout := by
  have hpeer := h.peer i u hu e he
  linarith [h.due_le hD hv (.inl hpeer.processed) (hpeer.up v hv)]

/-! ## The invariant over a step -/

/-- How a node changes in a step at time `now`: it starts once, goes once, and stays gone. -/
structure Evolves (now : ℤ) (d d' : Node n) : Prop where
  started : d.status ≠ .off → d'.status ≠ .off
  stays : ∀ c, d.status = .down c → d'.status = .down c
  downs : ∀ c, d'.status = .down c → d.status = .down c ∨ c = now
  ups : ∀ u, d'.status = .up u → d.status = .up u ∨ d.status = .off
  processed : d.processed = true → d'.processed = true

theorem Evolves.refl {now : ℤ} {d : Node n} : Evolves now d d :=
  ⟨id, fun _ => id, fun _ => .inl, fun _ => .inl, id⟩

/-- The other nodes stay as they are. -/
theorem Evolves.setNode {d : Node n} (h : Evolves s.now (s.nodes i) d)
    (hs : s'.nodes = (s.setNode i d).nodes) (j : Fin n) :
    Evolves s.now (s.nodes j) (s'.nodes j) := by
  rw [hs]
  by_cases hj : j = i
  · subst hj
    rwa [setNode_self]
  · rw [setNode_ne s hj]
    exact .refl

theorem PacketOk.evolves {p : Packet n} (h : s.PacketOk D names p) (hnow : s'.now = s.now)
    (hev : Evolves s.now (s.nodes p.src) (s'.nodes p.src)) : s'.PacketOk D names p where
  sent := hnow ▸ h.sent
  fresh := hnow ▸ h.fresh
  started := hev.started h.started
  before c hc := by
    rcases hev.downs c hc with hc | rfl
    · exact h.before c hc
    · exact h.sent
  leave hp := by
    obtain ⟨c, hc⟩ := h.leave hp
    exact ⟨c, hev.stays c hc⟩
  announce name hp := ⟨(h.announce name hp).1, hev.processed (h.announce name hp).2⟩

theorem PeerOk.evolves {e : Target n} (h : s.PeerOk D P i e) (hD : 0 ≤ D) (hnow : s'.now = s.now)
    (hrecent : (s'.nodes i).lastProcess ≤ e.lastUpdate + peerTimeout)
    (hev : Evolves s.now (s.nodes e.target) (s'.nodes e.target))
    (hdue : ∀ u, (s.nodes e.target).status = .up u → s.Due P i e.target e.lastUpdate →
      s'.Due P i e.target e.lastUpdate) : s'.PeerOk D P i e where
  past := hnow ▸ h.past
  recent := hrecent
  started := hev.started h.started
  processed := hev.processed h.processed
  down c hc := by
    rcases hev.downs c hc with hc | rfl
    · exact h.down c hc
    · linarith [h.past]
  up u hu := by
    have hu := (hev.ups u hu).resolve_right h.started
    exact hdue u hu (h.up u hu)

/-- More packets are under way, and no announcement is made by the peer. -/
theorem Due.mono {t : ℤ} (h : s.Due P i j t) (hflight : ∀ p ∈ s.flight, p ∈ s'.flight)
    (hlast : (s'.nodes j).lastAnnounce = (s.nodes j).lastAnnounce) : s'.Due P i j t := by
  rcases h with ⟨p, hp, h⟩ | h
  · exact .inl ⟨p, hflight p hp, h⟩
  · exact .inr (hlast ▸ h)

/-- A packet is taken out of the flight that is no announcement of `j` to `i`. -/
theorem Due.erase {t : ℤ} {k : ℕ} {p : Packet n} (h : s.Due P i j t) (hk : s.flight[k]? = some p)
    (hp : p.src = j → p.dst = i → ∀ name, p.type ≠ .announce name)
    (hflight : ∀ q ∈ s.flight.eraseIdx k, q ∈ s'.flight)
    (hlast : (s'.nodes j).lastAnnounce = (s.nodes j).lastAnnounce) : s'.Due P i j t := by
  rcases h with ⟨q, hq, hsrc, hdst, ⟨name, htype⟩, hsent⟩ | h
  · have hqp : q ≠ p := by
      rintro rfl
      exact hp hsrc hdst name htype
    obtain ⟨l, hl, hget⟩ := List.mem_iff_getElem.mp hq
    have hlk : l ≠ k := by
      rintro rfl
      rw [List.getElem?_eq_getElem hl, hget] at hk
      exact hqp (Option.some.inj hk)
    have hmem : q ∈ s.flight.eraseIdx k :=
      List.mem_eraseIdx_iff_getElem?.mpr ⟨l, hlk, by rw [List.getElem?_eq_getElem hl, hget]⟩
    exact .inl ⟨q, hflight q hmem, hsrc, hdst, ⟨name, htype⟩, hsent⟩
  · exact .inr (hlast ▸ h)

theorem NodeOk.congr {d : Node n} (h : s.NodeOk P d) (hnow : s'.now = s.now) : s'.NodeOk P d where
  announced := hnow ▸ h.announced
  off := h.off
  since := h.since
  down c hc := hnow ▸ h.down c hc
  lately u hu := hnow ▸ h.lately u hu
  period := h.period
  fresh := h.fresh

/-- The invariant, when the node `i` becomes `d`, and all others stay as they are. -/
theorem Truthful.update (h : s.Truthful D P names) (hD : 0 ≤ D) {d : Node n} (hnow : s'.now = s.now)
    (hnodes : s'.nodes = (s.setNode i d).nodes) (hev : Evolves s.now (s.nodes i) d)
    (hd : s.NodeOk P d) (hflight : ∀ p ∈ s'.flight, p ∈ s.flight ∨ s'.PacketOk D names p)
    (hdue : ∀ k j t v, k ≠ i → (s.nodes j).status = .up v → (s.nodes j).processed = true ∨ v ≤ t →
      s.Due P k j t → s'.Due P k j t)
    (hpeer : ∀ u, d.status = .up u → ∀ e ∈ d.targets, s'.PeerOk D P i e)
    (hknown : announcePeriod + P + D ≤ peerTimeout → ∀ j u v, names j ≠ "" → d.status = .up u →
      (s'.nodes j).status = .up v → (∃ e ∈ d.targets, e.target = j) ∨ s'.Due P i j (max u v))
    (hnew : ∀ k u v, (s.nodes i).status = .off → d.status = .up v → (s.nodes k).status = .up u →
      s'.Due P k i (max u v))
    (hleft : announcePeriod + P + D ≤ peerTimeout → ∀ k j, .leave k j ∈ s'.trace →
      .leave k j ∈ s.trace ∨ ∃ c, (s.nodes j).status = .down c) :
    s'.Truthful D P names := by
  have hself : s'.nodes i = d := by rw [hnodes, setNode_self]
  have hne : ∀ k, k ≠ i → s'.nodes k = s.nodes k := fun k hk => by rw [hnodes, setNode_ne s hk]
  have hevs := hev.setNode hnodes
  refine ⟨hnow ▸ h.nonneg, fun p hp => ?_, fun k => ?_, fun k u hu e he => ?_,
    fun hT k j u v hj hu hv => ?_, fun hT k j hkj => ?_⟩
  · rcases hflight p hp with hp | hp
    · exact (h.packet p hp).evolves hnow (hevs p.src)
    · exact hp
  · by_cases hk : k = i
    · rw [hk, hself]
      exact hd.congr hnow
    · rw [hne k hk]
      exact (h.node k).congr hnow
  · by_cases hk : k = i
    · subst hk
      rw [hself] at hu he
      exact hpeer u hu e he
    · rw [hne k hk] at hu he
      have hpeer := h.peer k u hu e he
      refine hpeer.evolves hD hnow ?_ (hevs e.target) fun v hv => hdue k e.target _ v hk hv
        (.inl hpeer.processed)
      rw [hne k hk]
      exact hpeer.recent
  · by_cases hk : k = i
    · subst hk
      rw [hself] at hu ⊢
      exact hknown hT j u v hj hu hv
    · rw [hne k hk] at hu ⊢
      rcases (hevs j).ups v hv with hv' | hoff
      · exact (h.known hT k j u v hj hu hv').imp_right
          (hdue k j _ v hk hv' (.inr (le_max_right u v)))
      · -- only `i` can have been started
        have hji : j = i := by
          by_contra hji
          rw [hne j hji, hoff] at hv
          cases hv
        subst hji
        rw [hself] at hv
        exact .inr (hnew k u v hoff hv hu)
  · rcases hleft hT k j hkj with hkj | ⟨c, hc⟩
    · obtain ⟨c, hc⟩ := h.left hT k j hkj
      exact ⟨c, (hevs j).stays c hc⟩
    · exact ⟨c, (hevs j).stays c hc⟩

theorem Truthful.tick (h : s.Truthful D P names) {now : ℤ} (hok : Timely D P s (.tick now)) :
    ({ s with now := now } : Net n).Truthful D P names := by
  obtain ⟨hnow, hflight, hnodes⟩ := hok
  refine ⟨h.nonneg.trans hnow, fun p hp => ?_, fun k => ?_, fun k u hu e he => ?_, h.known, h.left⟩
  · have hp' := h.packet p hp
    exact ⟨hp'.sent.trans hnow, hflight p hp, hp'.started, hp'.before, hp'.leave, hp'.announce⟩
  · have hk := h.node k
    refine ⟨hk.announced.trans hnow, hk.off, hk.since, fun c hc => (hk.down c hc).trans hnow,
      fun u hu => ?_, hk.period,
      hk.fresh⟩
    exact ⟨(hk.lately u hu).1.trans hnow, hnodes k (Node.isUp_iff.mpr ⟨u, hu⟩)⟩
  · have he' := h.peer k u hu e he
    exact ⟨he'.past.trans hnow, he'.recent, he'.started, he'.processed, he'.down, he'.up⟩

/-- A packet goes that is no announcement, or has nobody to read it; so nothing that was due is
lost. -/
theorem Truthful.erase (h : s.Truthful D P names) {k : ℕ}
    (hk : ∀ p ∈ s.flight[k]?, (∀ name, p.type ≠ .announce name) ∨ (s.nodes p.dst).isUp = false) :
    ({ s with flight := s.flight.eraseIdx k } : Net n).Truthful D P names := by
  have hdue : ∀ i j t u, (s.nodes i).status = .up u → s.Due P i j t →
      ({ s with flight := s.flight.eraseIdx k } : Net n).Due P i j t := by
    intro i j t u hu hdue
    cases hp : s.flight[k]? with
    | none =>
      exact hdue.mono (fun p hp' => by rwa [List.eraseIdx_of_length_le (by simpa using hp)]) rfl
    | some p =>
      refine hdue.erase hp (fun _ hdst name htype => ?_) (fun _ => id) rfl
      rcases hk p (by simp [hp]) with hno | hdown
      · exact hno name htype
      · rw [hdst, Node.isUp_iff.mpr ⟨u, hu⟩] at hdown
        cases hdown
  refine ⟨h.nonneg, fun p hp => ?_, fun i => (h.node i).congr rfl, fun i u hu e he => ?_,
    fun hT i j u v hj hu hv => ?_, h.left⟩
  · have hp := h.packet p (List.mem_of_mem_eraseIdx hp)
    exact ⟨hp.sent, hp.fresh, hp.started, hp.before, hp.leave, hp.announce⟩
  · have he := h.peer i u hu e he
    exact ⟨he.past, he.recent, he.started, he.processed, he.down,
      fun v hv => hdue i _ _ u hu (he.up v hv)⟩
  · exact (h.known hT i j u v hj hu hv).imp_right (hdue i j _ u hu)

theorem Truthful.send (h : s.Truthful D P names) (hD : 0 ≤ D) (hup : (s.nodes i).isUp = true) :
    ({ s with flight := s.flight ++ [⟨i, j, .other, s.now⟩] } : Net n).Truthful D P names := by
  obtain ⟨u, hu⟩ := Node.isUp_iff.mp hup
  have hdue : ∀ k j' t, s.Due P k j' t →
      ({ s with flight := s.flight ++ [⟨i, j, .other, s.now⟩] } : Net n).Due P k j' t :=
        fun k j' t hdue =>
    hdue.mono (fun p hp => List.mem_append_left _ hp) rfl
  refine h.update hD (i := i) rfl (by simp [setNode]) .refl (h.node i) (fun p hp => ?_)
    (fun k j t v _ _ _ => hdue k j t) (fun v hv e he => ?_) (fun hT j v w hj hv hw => ?_)
    (fun k v w hoff => ?_) (fun _ k j hkj => .inl hkj)
  · refine (List.mem_append.mp hp).imp_right fun hp => ?_
    obtain rfl := List.mem_singleton.mp hp
    exact ⟨le_rfl, by simpa using hD, by simp [hu], fun c hc => by simp [hu] at hc, nofun, nofun⟩
  · exact (h.peer i v hv e he).evolves hD rfl (h.peer i v hv e he).recent .refl fun _ _ =>
      hdue i _ _
  · exact (h.known hT i j v w hj hv hw).imp_right (hdue i j _)
  · rw [hu] at hoff
    cases hoff

theorem Truthful.reset (h : s.Truthful D P names) (hD : 0 ≤ D) (hP : 0 ≤ P)
    (hoff : (s.nodes i).status = .off) :
    (s.setNode i { s.nodes i with status := .up s.now, lastProcess := s.now }).Truthful
      D P names := by
  obtain ⟨hlast, hnone, hprocessed⟩ := (h.node i).off hoff
  refine h.update hD rfl rfl ⟨fun hne => absurd hoff hne, ?_, nofun, fun _ _ => .inr hoff, ?_⟩ ?_
    (fun p hp => .inl hp) (fun k j t v hk hv _ hdue => hdue.mono (fun _ => id) ?_)
    (fun u _ e he => ?_)
    (fun _ j u v hj hu hv => ?_) (fun k u v _ hv hu => ?_) (fun _ k j hkj => .inl hkj)
  · simp [hoff]
  · simp [hprocessed]
  · refine ⟨(h.node i).announced, nofun, fun u hu => ?_, nofun,
      fun u _ => ⟨le_rfl, by simpa using hP⟩, fun u _ hp => ?_,
      fun u hu _ => ?_⟩
    · obtain rfl := Status.up.inj hu
      exact ⟨h.nonneg, le_rfl⟩
    · simp [hprocessed] at hp
    · exact Status.up.inj hu
  · rw [setNode_ne]
    rintro rfl
    rw [hoff] at hv
    cases hv
  · simp [hnone] at he
  · obtain rfl := Status.up.inj hu
    refine .inr (.inr (le_max_of_le_left ?_))
    by_cases hj : j = i
    · subst hj
      rw [setNode_self]
      exact (h.node j).announced
    · rw [setNode_ne s hj]
      exact (h.node j).announced
  · refine .inr (le_max_of_le_left ?_)
    rw [setNode_self]
    have hsince := ((h.node k).since u hu).1
    exact hlast.trans_le hsince

/-- A node goes, with or without a LEAVE to the others. -/
theorem Truthful.gone (h : s.Truthful D P names) (hD : 0 ≤ D) (hup : (s.nodes i).isUp = true)
    {l : List (Packet n)} (hl : ∀ p ∈ l, p.src = i ∧ p.type = .leave ∧ p.sentAt = s.now) :
    ({ s.setNode i { s.nodes i with status := .down s.now } with flight := s.flight ++ l } :
    Net n).Truthful D P names := by
  obtain ⟨u, hu⟩ := Node.isUp_iff.mp hup
  refine h.update hD (i := i) rfl rfl ⟨fun _ => nofun, fun c hc => ?_,
    fun c hc => .inr (Status.down.inj hc).symm, nofun,
    id⟩ ⟨(h.node i).announced, nofun, nofun, fun c hc => (Status.down.inj hc).ge, nofun, nofun,
      nofun⟩ (fun p hp => ?_)
    (fun k j t v _ hv _ hdue => hdue.mono (fun p hp => List.mem_append_left _ hp) ?_) nofun
    (fun _ => nofun) nofun
    (fun _ k j hkj => .inl hkj)
  · simp [hu] at hc
  · refine (List.mem_append.mp hp).imp_right fun hp => ?_
    obtain ⟨rfl, htype, hsent⟩ := hl p hp
    have hself := setNode_self s p.src { s.nodes p.src with status := .down s.now }
    refine ⟨hsent.le, ?_, ?_, fun c hc => ?_, fun _ => ⟨s.now, ?_⟩, fun name hname => ?_⟩
    · rw [hsent]
      simpa using hD
    · simp [setNode]
    · simp only [setNode, Function.update_self, Status.down.injEq] at hc
      rw [hsent, hc]
    · simp [setNode]
    · simp [htype] at hname
  · by_cases hj : j = i
    · subst hj
      simp [setNode]
    · exact congrArg Node.lastAnnounce (setNode_ne s hj _)

/-- An announcement that is due stays so until it is sent, and is then on its way. -/
theorem Truthful.due_process (h : s.Truthful D P names) {k : Fin n} {t v : ℤ}
    (hv : (s.nodes j).status = .up v) (ht : (s.nodes j).processed = true ∨ v ≤ t)
    (hdue : s.Due P k j t) (hnodes : s'.nodes = (s.setNode i ((s.nodes i).process s.now)).nodes)
    (hflight : s'.flight =
      s.flight ++ if (s.nodes i).announces s.now then s.multicast i (.announce (names i)) else []) :
    s'.Due P k j t := by
  have hsub : ∀ p ∈ s.flight, p ∈ s'.flight := fun p hp => hflight ▸ List.mem_append_left _ hp
  by_cases hj : j = i
  · subst hj
    by_cases hann : (s.nodes j).announces s.now = true
    · rcases hdue with ⟨p, hp, hdue⟩ | hlast
      · exact .inl ⟨p, hsub p hp, hdue⟩
      · refine .inl ⟨⟨j, k, .announce (names j), s.now⟩, ?_, rfl, rfl, ⟨_, rfl⟩,
          (h.node j).inTime hv ht hlast⟩
        rw [hflight, if_pos hann]
        exact List.mem_append_right _ (List.mem_map.mpr ⟨k, List.mem_finRange k, rfl⟩)
    · refine hdue.mono hsub ?_
      rw [hnodes, setNode_self]
      exact if_neg hann
  · refine hdue.mono hsub ?_
    rw [hnodes, setNode_ne s hj]

theorem NodeOk.process {d : Node n} (h : s.NodeOk P d) (hP : 0 ≤ P) (hup : d.isUp = true) :
    s.NodeOk P (d.process s.now) := by
  obtain ⟨u, hu⟩ := Node.isUp_iff.mp hup
  refine ⟨?_, fun hoff => ?_, fun v hv => ?_, h.down,
    fun _ _ => ⟨le_rfl, le_add_of_nonneg_right hP⟩,
    fun _ _ _ => ?_, fun _ _ hp => ?_⟩
  · simp only [Node.process]
    split_ifs
    · exact le_rfl
    · exact h.announced
  · rw [Node.process, hu] at hoff
    cases hoff
  · obtain ⟨hv0, hlast⟩ := h.since v hv
    exact ⟨hv0, hlast.trans (h.lately v hv).1⟩
  · have hpos : (0 : ℤ) ≤ announcePeriod := by decide
    simp only [Node.process]
    split_ifs with hann
    · exact le_add_of_nonneg_right hpos
    · simp only [Node.announces, decide_eq_true_eq, not_lt] at hann
      linarith
  · cases hp

theorem Truthful.process (h : s.Truthful D P names) (hD : 0 ≤ D) (hP : 0 ≤ P)
    (hup : (s.nodes i).isUp = true) :
    ({ s.setNode i ((s.nodes i).process s.now) with
      flight := s.flight ++ if (s.nodes i).announces s.now then s.multicast i (.announce (names i))
        else []
      trace := ((s.nodes i).leavers s.now).map (fun t => .leave i t.target) ++ s.trace } :
        Net n).Truthful D P names := by
  set s' : Net n := { s.setNode i ((s.nodes i).process s.now) with
      flight := s.flight ++ if (s.nodes i).announces s.now then s.multicast i (.announce (names i))
        else []
      trace := ((s.nodes i).leavers s.now).map (fun t => .leave i t.target) ++ s.trace }
  have hself : s'.nodes i = (s.nodes i).process s.now := setNode_self s i _
  have hev : Evolves s.now (s.nodes i) ((s.nodes i).process s.now) :=
    ⟨id, fun _ => id, fun _ => .inl, fun _ => .inl, fun _ => rfl⟩
  have hevs : ∀ j, Evolves s.now (s.nodes j) (s'.nodes j) := hev.setNode rfl
  have hups : ∀ j v, (s'.nodes j).status = .up v → (s.nodes j).status = .up v := by
    intro j v hv
    by_cases hj : j = i
    · subst hj
      rwa [hself] at hv
    · rwa [setNode_ne s hj] at hv
  have hdue : ∀ k j t v, (s.nodes j).status = .up v → (s.nodes j).processed = true ∨ v ≤ t →
    s.Due P k j t →
      s'.Due P k j t := fun k j t v hv ht hdue => h.due_process hv ht hdue rfl rfl
  obtain ⟨u, hu⟩ := Node.isUp_iff.mp hup
  refine h.update hD rfl rfl hev ((h.node i).process hP hup) (fun p hp => ?_)
    (fun k j t v _ => hdue k j t v)
    (fun v hv e he => ?_) (fun hT j v w hj hv hw => ?_) (fun k v w hoff => ?_)
    (fun hT k j hkj => ?_)
  · refine (List.mem_append.mp hp).imp_right fun hp => ?_
    split_ifs at hp
    · obtain ⟨j, -, rfl⟩ := List.mem_map.mp hp
      refine ⟨le_rfl, le_add_of_nonneg_right hD, ?_, fun c hc => ?_, nofun, fun name hname => ?_⟩
      · exact (hevs i).started (by simp [hu])
      · rw [hself, Node.process, hu] at hc
        cases hc
      · rw [hself]
        exact ⟨(PacketType.announce.inj hname).symm, rfl⟩
    · cases hp
  · obtain ⟨he, hrecent⟩ := Node.mem_process.mp he
    have hpeer := h.peer i u hu e he
    refine hpeer.evolves hD rfl ?_ (hevs e.target) fun v hv =>
      hdue i e.target _ v hv (.inl hpeer.processed)
    rw [hself]
    exact hrecent
  · have hw := hups j w hw
    rcases h.known hT i j v w hj hv hw with ⟨e, he, rfl⟩ | hdue'
    · exact .inl ⟨e, Node.mem_process.mpr ⟨he, h.up_recent hD hT hu he hw⟩, rfl⟩
    · exact .inr (hdue i j _ w hw (.inr (le_max_right v w)) hdue')
  · rw [hu] at hoff
    cases hoff
  · rcases List.mem_append.mp hkj with hkj | hkj
    · obtain ⟨e, he, hev⟩ := List.mem_map.mp hkj
      obtain ⟨rfl, rfl⟩ := Event.leave.inj hev
      obtain ⟨he, hlate⟩ := Node.mem_leavers.mp he
      refine .inr ?_
      cases hst : (s.nodes e.target).status with
      | off => exact absurd hst (h.peer i u hu e he).started
      | up v => exact absurd (h.up_recent hD hT hu he hst) hlate.not_ge
      | down c => exact ⟨c, rfl⟩
    · exact .inl hkj

theorem Truthful.processPacket (h : s.Truthful D P names) (hD : 0 ≤ D) {k : ℕ} {p : Packet n}
    (hk : s.flight[k]? = some p) (hup : (s.nodes p.dst).isUp = true)
    (hprocessed : (s.nodes p.dst).processed = true) (hflight : s'.flight = s.flight.eraseIdx k ++
      if (s.nodes p.dst).joins p.src p.type then [⟨p.dst, p.src, .announce (names p.dst), s.now⟩]
        else [])
    (htrace : ∀ k j, .leave k j ∈ s'.trace → .leave k j ∈ s.trace ∨ p.type = .leave ∧ j = p.src)
    (hnow : s'.now = s.now)
    (hnodes : s'.nodes = (s.setNode p.dst
    ((s.nodes p.dst).processPacket s.now p.src p.type)).nodes) :
    s'.Truthful D P names := by
  obtain ⟨u, hu⟩ := Node.isUp_iff.mp hup
  have hp := h.packet p (List.mem_of_getElem? hk)
  have hself : s'.nodes p.dst = (s.nodes p.dst).processPacket s.now p.src p.type := by
    rw [hnodes, setNode_self]
  have hev : Evolves s.now (s.nodes p.dst) ((s.nodes p.dst).processPacket s.now p.src p.type) :=
    ⟨by simp, by simp, fun c hc => .inl (by simpa using hc),
      fun u hu => .inl (by simpa using hu), by simp⟩
  have hevs : ∀ j, Evolves s.now (s.nodes j) (s'.nodes j) := hev.setNode hnodes
  have hlast : ∀ j, (s'.nodes j).lastAnnounce = (s.nodes j).lastAnnounce := by
    intro j
    by_cases hj : j = p.dst
    · rw [hj, hself, Node.processPacket_lastAnnounce]
    · rw [hnodes, setNode_ne s hj]
  have hups : ∀ j v, (s'.nodes j).status = .up v → (s.nodes j).status = .up v := by
    intro j v hv
    by_cases hj : j = p.dst
    · rwa [hj, hself, Node.processPacket_status, ← hj] at hv
    · rwa [hnodes, setNode_ne s hj] at hv
  have hsub : ∀ q ∈ s.flight.eraseIdx k, q ∈ s'.flight :=
    fun q hq => hflight ▸ List.mem_append_left _ hq
  have hnode : s.NodeOk P ((s.nodes p.dst).processPacket s.now p.src p.type) := by
    obtain ⟨h1, h2, h3, h4, h5, h6, h7⟩ := h.node p.dst
    constructor <;> simp_all
  refine h.update hD hnow hnodes hev hnode (fun q hq => ?_)
    (fun k' j t v hk' _ _ hdue => hdue.erase hk (fun _ hdst => absurd hdst.symm hk') hsub (hlast j))
    (fun v _ e he => ?_) (fun hT j v w hj hv hw => ?_) (fun k v w hoff => ?_)
    (fun _ k j hkj => ?_)
  · rw [hflight] at hq
    rcases List.mem_append.mp hq with hq | hq
    · exact .inl (List.mem_of_mem_eraseIdx hq)
    · split_ifs at hq
      · obtain rfl := List.mem_singleton.mp hq
        refine .inr ⟨hnow.ge, hnow ▸ le_add_of_nonneg_right hD, ?_, fun c hc => ?_, nofun,
          fun name hname => ?_⟩
        · exact (hevs p.dst).started (by simp [hu])
        · rw [hself, Node.processPacket_status, hu] at hc
          cases hc
        · exact ⟨(PacketType.announce.inj hname).symm, (hevs p.dst).processed hprocessed⟩
      · cases hq
  · have hrecent := (h.node p.dst).lately u hu
    rcases Node.mem_processPacket he with ⟨he, hsrc⟩ | ⟨hsrc, hupdate, hleave, hfrom⟩
    · -- an entry of another peer
      have hpeer := h.peer p.dst u hu e he
      refine hpeer.evolves hD hnow ?_ (hevs e.target) fun _ _ hdue =>
        hdue.erase hk (fun h => absurd h.symm hsrc) hsub (hlast _)
      rw [hself, Node.processPacket_lastProcess]
      exact hpeer.recent
    · have hsrcProcessed : (s.nodes p.src).processed = true := by
        rcases hfrom with ⟨name, htype⟩ | ⟨t, ht, htsrc⟩
        · exact (hp.announce name htype).2
        · exact htsrc ▸ (h.peer p.dst u hu t ht).processed
      refine ⟨(hnow ▸ hupdate).le, ?_, ?_, ?_, fun c hc => ?_, fun v _ => .inr ?_⟩
      · rw [hself, Node.processPacket_lastProcess, hupdate]
        have hpos : (0 : ℤ) ≤ peerTimeout := by decide
        linarith [hrecent.1]
      · exact hsrc ▸ (hevs p.src).started hp.started
      · exact hsrc ▸ (hevs p.src).processed hsrcProcessed
      · rw [hsrc] at hc
        rcases (hevs p.src).downs c hc with hc | rfl
        · linarith [hp.before c hc, hp.fresh]
        · linarith
      · rw [hsrc, hlast, hupdate]
        exact (h.node p.src).announced
  · have hw := hups j w hw
    rw [Node.processPacket_status] at hv
    have hnoLeave : p.type = .leave → j ≠ p.src := by
      rintro htype rfl
      obtain ⟨c, hc⟩ := hp.leave htype
      rw [hc] at hw
      cases hw
    rcases h.known hT p.dst j v w hj hv hw with hhas | hdue
    · exact .inl (Node.has_processPacket hhas hnoLeave)
    · by_cases hann : p.src = j ∧ ∃ name, p.type = .announce name
      · obtain ⟨rfl, name, htype⟩ := hann
        have hname := (hp.announce name htype).1
        rw [htype]
        exact .inl (Node.has_announced (hname ▸ hj))
      · exact .inr (hdue.erase hk (fun hsrc _ name htype => hann ⟨hsrc, name, htype⟩)
          hsub (hlast j))
  · rw [hu] at hoff
    cases hoff
  · rcases htrace k j hkj with hkj | ⟨htype, rfl⟩
    · exact .inl hkj
    · exact .inr (hp.leave htype)

theorem Truthful.step (h : s.Truthful D P names) (hD : 0 ≤ D) (hP : 0 ≤ P)
    {a : Action n} (hok : Timely D P s a) (hst : s.step names a = some s') :
    s'.Truthful D P names := by
  cases a with
  | reset i =>
    simp only [Net.step, Option.ite_none_right_eq_some, Option.some.injEq] at hst
    obtain ⟨hoff, rfl⟩ := hst
    exact h.reset hD hP hoff
  | process i =>
    simp only [Net.step, Option.ite_none_right_eq_some, Option.some.injEq] at hst
    obtain ⟨hup, rfl⟩ := hst
    exact h.process hD hP hup
  | processPacket k =>
    simp only [Net.step] at hst
    split at hst
    · cases hst
    next p hk =>
      by_cases hup : (s.nodes p.dst).isUp = true
      · rw [if_pos hup, Option.ite_none_right_eq_some, Option.some.injEq] at hst
        obtain ⟨hprocessed, rfl⟩ := hst
        refine h.processPacket hD hk hup hprocessed rfl (fun i j hij => ?_) rfl rfl
        rcases List.mem_append.mp hij with hij | hij
        · rcases List.mem_append.mp hij with hij | hij
          · split_ifs at hij <;> simp at hij
          · split_ifs at hij with hforgets
            · obtain ⟨-, rfl⟩ := Event.leave.inj (List.mem_singleton.mp hij)
              refine .inr ⟨?_, rfl⟩
              unfold Node.forgets at hforgets
              split at hforgets
              · assumption
              · cases hforgets
            · cases hij
        · exact .inl hij
      · rw [if_neg hup] at hst
        obtain rfl := Option.some.inj hst
        refine h.erase fun q hq => .inr ?_
        rw [hk] at hq
        obtain rfl := Option.some.inj hq
        simpa using hup
  | send i j =>
    simp only [Net.step, Option.ite_none_right_eq_some, Option.some.injEq] at hst
    obtain ⟨hup, rfl⟩ := hst
    exact h.send hD hup
  | shutdown i =>
    simp only [Net.step, Option.ite_none_right_eq_some, Option.some.injEq] at hst
    obtain ⟨hup, rfl⟩ := hst
    refine h.gone hD hup fun p hp => ?_
    obtain ⟨j, -, rfl⟩ := List.mem_map.mp hp
    exact ⟨rfl, rfl, rfl⟩
  | crash i =>
    simp only [Net.step, Option.ite_none_right_eq_some, Option.some.injEq] at hst
    obtain ⟨hup, rfl⟩ := hst
    have hgone := h.gone hD hup (l := []) nofun
    rw [List.append_nil] at hgone
    exact hgone
  | lose k =>
    obtain rfl := Option.some.inj hst
    refine h.erase fun p hp => .inl fun name hname => ?_
    have := hok p hp
    rw [hname] at this
    cases this
  | tick now =>
    obtain rfl := Option.some.inj hst
    exact h.tick hok

/-! ## The results -/

variable {now : ℤ}

theorem Truthful.reaches (hD : 0 ≤ D) (hP : 0 ≤ P) (hnow : 0 ≤ now)
    (hr : Reaches (Net.step names) (Timely D P) (.start now) s) : s.Truthful D P names :=
  hr.invariant (.start hnow) fun _ _ _ h hok hst => h.step hD hP hok hst

/-- Two nodes, the one that goes and the one that stays. -/
def firstNode : Fin 2 := ⟨0, Nat.zero_lt_two⟩

def secondNode : Fin 2 := ⟨1, Nat.one_lt_two⟩

/-- Two nodes meet, and call `process` every 700 ms. -/
def meeting : List (Action 2) :=
  [.reset firstNode, .reset secondNode, .process firstNode, .process secondNode] ++
  List.replicate 8 (.processPacket 0) ++
  [.tick (milliseconds 1700), .process firstNode, .process secondNode] ++ List.replicate 4
    (.processPacket 0) ++
  [.tick (milliseconds 2400), .process firstNode, .process secondNode] ++ List.replicate 4
    (.processPacket 0) ++
  [.tick (milliseconds 2901)]

/-- Then one of them goes, without a LEAVE. -/
def parting : List (Action 2) :=
  meeting ++ [.crash firstNode] ++
  [3100, 3800, 4500, 5200, 5900].flatMap
    (fun k => [.tick (milliseconds k), .process secondNode, .processPacket 0, .processPacket 0]) ++
  [.tick (milliseconds 6302)]

/-- **Nobody is taken for gone who is not**: a node that another one is told to have left has gone,
if announcements come often and fast enough. -/
theorem leave_accurate (hD : 0 ≤ D) (hP : 0 ≤ P) (hT : announcePeriod + P + D ≤ peerTimeout)
    (hnow : 0 ≤ now) (hr : Reaches (Net.step names) (Timely D P) (.start now) s)
    (hleave : .leave i j ∈ s.trace) :
    ∃ c, (s.nodes j).status = .down c :=
  (Truthful.reaches hD hP hnow hr).left hT i j hleave

theorem leave_accurate_parting :
    ∃ s, exec (Net.step fun _ => "node") (.start (milliseconds 1000)) parting = some s ∧
      .leave 1 0 ∈ s.trace ∧ ∃ c, (s.nodes 0).status = .down c := by
  have hrun : (exec (Net.step fun _ => "node") (.start (milliseconds 1000)) parting).any
      (fun s => decide (.leave 1 0 ∈ s.trace)) = true := by
    decide +kernel
  obtain ⟨s, hs, htrace⟩ := (Option.any_eq_true _ _).mp hrun
  have hleave : .leave 1 0 ∈ s.trace := of_decide_eq_true htrace
  have hreach : Reaches (Net.step fun _ => "node") (Timely (milliseconds 700) (milliseconds 700))
      (.start (milliseconds 1000)) s := reaches_of_exec hs (by decide +kernel)
  exact ⟨s, hs, hleave,
    leave_accurate (by decide) (by decide) (by decide) (by decide) hreach hleave⟩

/-- **Who has gone is forgotten** by every node that is up, when its last packets have come, the
timeout is over and `process` was called once more. -/
theorem down_forgotten (hD : 0 ≤ D) (hP : 0 ≤ P) (hnow : 0 ≤ now)
    (hr : Reaches (Net.step names) (Timely D P) (.start now) s) {u c : ℤ}
    (hu : (s.nodes i).status = .up u) (hc : (s.nodes j).status = .down c)
    (hlate : c + D + peerTimeout + P < s.now) :
    ∀ e ∈ (s.nodes i).targets, e.target ≠ j := by
  have h := Truthful.reaches hD hP hnow hr
  rintro e he rfl
  have hpeer := h.peer i u hu e he
  have hupdate := hpeer.down c hc
  have hrecent := hpeer.recent
  have hprocess := ((h.node i).lately u hu).2
  linarith

theorem down_forgotten_parting :
    ∃ s, exec (Net.step fun _ => "node") (.start (milliseconds 1000)) parting = some s ∧
      .join 1 0 ∈ s.trace ∧ ∀ e ∈ (s.nodes 1).targets, e.target ≠ 0 := by
  have hrun : (exec (Net.step fun _ => "node") (.start (milliseconds 1000)) parting).any
      (fun s => decide (.join 1 0 ∈ s.trace ∧ s.now = milliseconds 6302 ∧
        (s.nodes 1).status = .up (milliseconds 1000) ∧ (s.nodes 0).status =
          .down (milliseconds 2901))) = true := by
    decide +kernel
  obtain ⟨s, hs, hstate⟩ := (Option.any_eq_true _ _).mp hrun
  obtain ⟨hjoin, hnow, hup, hdown⟩ := of_decide_eq_true hstate
  have hreach : Reaches (Net.step fun _ => "node") (Timely (milliseconds 700) (milliseconds 700))
      (.start (milliseconds 1000)) s := reaches_of_exec hs (by decide +kernel)
  exact ⟨s, hs, hjoin, down_forgotten (by decide) (by decide) (by decide) hreach hup hdown
    (by rw [hnow]; decide)⟩

/-- **Who is there is known** to every node that is up, when both have been up long enough for an
announcement to be made and to come. -/
theorem up_known (hD : 0 ≤ D) (hP : 0 ≤ P) (hT : announcePeriod + P + D ≤ peerTimeout)
    (hnow : 0 ≤ now) (hr : Reaches (Net.step names) (Timely D P) (.start now) s)
    (hname : names j ≠ "") {u v : ℤ} (hu : (s.nodes i).status = .up u)
    (hv : (s.nodes j).status = .up v) (hlate : max u v + announcePeriod + P + D < s.now) :
    ∃ e ∈ (s.nodes i).targets, e.target = j := by
  have h := Truthful.reaches hD hP hnow hr
  refine (h.known hT i j u v hname hu hv).resolve_right fun hdue => ?_
  exact absurd (h.due_le hD hv (.inr (le_max_right u v)) hdue) (not_le.mpr hlate)

theorem up_known_meeting :
    ∃ s, exec (Net.step fun _ => "node") (.start (milliseconds 1000)) meeting = some s ∧
      ∃ e ∈ (s.nodes 1).targets, e.target = 0 := by
  have hrun : (exec (Net.step fun _ => "node") (.start (milliseconds 1000)) meeting).any
      (fun s => decide (s.now = milliseconds 2901 ∧ (s.nodes 1).status = .up (milliseconds 1000) ∧
        (s.nodes 0).status = .up (milliseconds 1000))) = true := by
    decide +kernel
  obtain ⟨s, hs, hstate⟩ := (Option.any_eq_true _ _).mp hrun
  obtain ⟨hnow, hu, hv⟩ := of_decide_eq_true hstate
  have hreach : Reaches (Net.step fun _ => "node") (Timely (milliseconds 700) (milliseconds 700))
      (.start (milliseconds 1000)) s := reaches_of_exec hs (by decide +kernel)
  exact ⟨s, hs, up_known (by decide) (by decide) (by decide) (by decide) hreach (by decide) hu hv
    (by rw [hnow]; decide)⟩

end Net

end Discovery
end Network
end Extension
end NUClear
