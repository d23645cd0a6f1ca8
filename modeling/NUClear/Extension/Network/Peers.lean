import NUClear.Foundation.Interleaving
import Mathlib.Data.List.Perm.Basic
import Mathlib.Data.BitVec
import Mathlib.Logic.Function.Basic

/-!
# The peers of a node (`NUClearNetwork.cpp`)

A node keeps its peers in three indexes: the list `targets`, the multimap `name_target` and the map
`udp_target`.  `process` removes the targets that have timed out; `process_packet` adds one for an
ANNOUNCE from an unknown address and removes one for a LEAVE.  Each of these is a section of
`target_mutex`, and the callbacks are invoked after it, so the sections and the callbacks of
concurrent calls interleave in any order.  A packet is looked up in a section of its own.

## The ways out

The first target is the one that a node announces to.  A LEAVE from its address removes it.  A LEAVE
whose section comes after its peer is gone and another has joined at the address takes the other out
of `udp_target` only.  And a callback may overtake that of an earlier section.  When none of this
happens (`keepsPeers`), the indexes hold the same targets and the callbacks alternate
(`peers_consistent_of_reaches`).

## The proof

* `Consistent`: the indexes hold the same targets.  `Consistent.addTarget` and
  `Consistent.removeTarget` are about one section each, and need a free address, and a target that
  is not the first one.
* `KeepsPeers`: the callbacks of an address, invoked and due, alternate and tell whether there is a
  peer.  The sections emit what is due, in their order, so this holds of the log of the sections
  whatever becomes of the callbacks.
* `PeersInvariant`: what is invoked, with what is due behind it, is that log for each address, as
  long as no callback overtakes another of the same address (`ofKey_invoke`).
-/

namespace NUClear
namespace Extension
namespace Network

open Foundation

/-! ## Addresses and targets -/

/-- `sock_t`, of the two families: the words of the address as they stand in memory, and the
port. -/
inductive Sock where
  | ipv4 (addr : Vector (BitVec 16) 2) (port : BitVec 16)
  | ipv6 (addr : Vector (BitVec 16) 8) (port : BitVec 16) (scope : BitVec 32)
  deriving DecidableEq, Repr

/-- The key of an address in `udp_target`: nine words, eight for the address and one for the port.
-/
abbrev Key := List (BitVec 16)

/-- `udp_key`: the address and the port in one array, with an IPv4 address in the last words.  The
scope of an IPv6 address is no part of it. -/
def udpKey : Sock → Key
  | .ipv4 addr port => List.replicate 6 0 ++ addr.toList ++ [port]
  | .ipv6 addr port _ => addr.toList ++ [port]

/-- A `shared_ptr<NetworkTarget>`: which object it is, and what of the object never changes. -/
structure NetworkTarget where
  id : ℕ
  name : String
  target : Sock
  deriving DecidableEq, Repr

/-- The key of a target, by the address that it has announced itself from. -/
def NetworkTarget.key (t : NetworkTarget) : Key := udpKey t.target

/-- The target for multicast packets, which has no name; it stands first in the list, and is no
peer. -/
def allTarget (announceTarget : Sock) : NetworkTarget := ⟨0, "", announceTarget⟩

/-- The three indexes: the list of the targets, the targets by name, and the targets by address. -/
structure Peers where
  targets : List NetworkTarget
  nameTarget : List (String × NetworkTarget)
  udpTarget : Key → Option NetworkTarget

namespace Peers

/-- `remove_target`: the target is erased by its address, by its name and from the list.  What is at
its address is erased even if it is another target. -/
@[simps targets udpTarget] def removeTarget (s : Peers) (t : NetworkTarget) : Peers where
  targets := s.targets.erase t
  nameTarget := s.nameTarget.erase (t.name, t)
  udpTarget := Function.update s.udpTarget t.key none

/-- A new target is put into the indexes, in the last place of the list and of the targets of its
name. -/
@[simps targets udpTarget] def addTarget (s : Peers) (t : NetworkTarget) : Peers where
  targets := s.targets ++ [t]
  nameTarget := s.nameTarget ++ [(t.name, t)]
  udpTarget := Function.update s.udpTarget t.key (some t)

/-- `reset`: the target for multicast packets is the only one. -/
@[simps targets udpTarget] def reset (announceTarget : Sock) : Peers where
  targets := [allTarget announceTarget]
  nameTarget := [("", allTarget announceTarget)]
  udpTarget := Function.update (fun _ => none) (udpKey announceTarget)
    (some (allTarget announceTarget))

end Peers

/-! ## The sections and the callbacks -/

/-- The callbacks that tell of a peer: it has joined, or it has left. -/
inductive Callback where
  | join (t : NetworkTarget)
  | leave (t : NetworkTarget)
  deriving DecidableEq, Repr

/-- The address that a callback tells of. -/
def Callback.key : Callback → Key
  | .join t => t.key
  | .leave t => t.key

def Callback.isJoin : Callback → Bool
  | .join _ => true
  | .leave _ => false

/-- What a datagram says about its sender; data and acknowledgements change no index. -/
inductive Packet where
  | announce (name : String)
  | leave
  | other
  deriving DecidableEq, Repr

/-- The indexes, and the callbacks that are due in the order of the sections that they come from. -/
structure PeersMemory where
  peers : Peers
  /-- The identity of the next target. -/
  nextTarget : ℕ
  due : List Callback

/-- The calls of a node that look at the indexes.  Any number of threads may be in such calls. -/
inductive PeersCall where
  /-- `process`: the section in which those who have timed out are removed. -/
  | process (timedOut : List NetworkTarget)
  /-- `process_packet`: the section in which the sender is looked up. -/
  | packet (address : Sock) (p : Packet)
  deriving DecidableEq, Repr

/-- The points of a call where it waits for the mutex of the targets, or is about to invoke a
callback outside of it. -/
inductive PeersOp where
  /-- ANNOUNCE of an unknown peer: the section in which it is added. -/
  | announced (name : String) (address : Sock)
  /-- LEAVE of a known peer: the section in which it is removed. -/
  | leaving (address : Sock) (remote : NetworkTarget)
  /-- Callbacks are invoked. -/
  | callbacks (l : List Callback)
  deriving DecidableEq, Repr

namespace PeersMemory

/-- The callbacks that a call goes on to invoke; without any it has returned. -/
def thenCallbacks (l : List Callback) : Option PeersOp :=
  if l = [] then none else some (.callbacks l)

/-- A section removes targets; their callbacks are due, in the order in which they are removed. -/
def removeAll (m : PeersMemory) (l : List NetworkTarget) :
    Outcome PeersMemory PeersOp Callback :=
  ⟨{ m with peers := l.foldl Peers.removeTarget m.peers, due := m.due ++ l.map .leave },
    thenCallbacks (l.map .leave), []⟩

/-- A section adds a target, with the next number; its callback is due, and is invoked when the
mutex is released. -/
def add (m : PeersMemory) (name : String) (address : Sock) : Outcome PeersMemory PeersOp Callback :=
  let t : NetworkTarget := ⟨m.nextTarget, name, address⟩
  ⟨⟨m.peers.addTarget t, m.nextTarget + 1, m.due ++ [.join t]⟩, thenCallbacks [.join t], []⟩

/-- The first section of a call: `process` removes those who have timed out at once, while a packet
is only looked up. -/
def call (m : PeersMemory) (_ : List PeersOp) :
    PeersCall → Option (Outcome PeersMemory PeersOp Callback)
  | .process timedOut => some (m.removeAll (m.peers.targets.tail.filter (· ∈ timedOut)))
  | .packet address p =>
      match p, m.peers.udpTarget (udpKey address) with
      | .announce name, none =>
          some ⟨m, if name = "" then none else some (.announced name address), []⟩
      | .leave, some remote => some ⟨m, some (.leaving address remote), []⟩
      | _, _ => some ⟨m, none, []⟩

/-- The next section or callback of a call in progress.  A section looks again whether the peer is
still unknown, or still known, since the mutex was released in between. -/
def advance (m : PeersMemory) : PeersOp → Unit → Option (Outcome PeersMemory PeersOp Callback)
  | .announced name address, _ =>
      if (m.peers.udpTarget (udpKey address)).isNone then some (m.add name address)
      else some ⟨m, none, []⟩
  | .leaving address remote, _ =>
      if (m.peers.udpTarget (udpKey address)).isSome then some (m.removeAll [remote])
      else some ⟨m, none, []⟩
  | .callbacks [], _ => none
  | .callbacks (c :: l), _ => some ⟨{ m with due := m.due.erase c }, thenCallbacks l, [c]⟩

end PeersMemory

/-- The node as a program on its indexes. -/
def peersProgram : Program PeersMemory PeersCall PeersOp Unit Callback where
  call := PeersMemory.call
  advance := PeersMemory.advance

/-- A node with calls in progress. -/
abbrev PeersMachine := Machine PeersMemory PeersOp Callback

/-- A node after `reset`, in no call: it knows the target for multicast packets only. -/
def afterReset (announceTarget : Sock) : PeersMachine :=
  ⟨⟨Peers.reset announceTarget, 1, []⟩, [], []⟩

/-- One step of one thread: it begins a call, or comes to the next section or callback of one. -/
abbrev peersStep : PeersMachine → Action PeersCall Unit → Option PeersMachine := peersProgram.step

/-! ## What is to hold -/

/-- The indexes hold the same targets, each under its own name and address, and the first one is the
target for multicast packets. -/
structure Consistent (announceTarget : Sock) (s : Peers) : Prop where
  nodup : s.targets.Nodup
  first : s.targets.head? = some (allTarget announceTarget)
  names : (s.nameTarget.map Prod.snd).Perm s.targets
  named : ∀ x ∈ s.nameTarget, x.1 = x.2.name
  udp : ∀ k t, s.udpTarget k = some t ↔ t ∈ s.targets ∧ t.key = k

/-- Whether there is a peer after the callbacks, when there is one before them or not; nothing, if
they do not alternate. -/
def present : Bool → List Callback → Option Bool
  | b, [] => some b
  | b, c :: l => if c.isJoin = b then none else present c.isJoin l

/-- The callbacks alternate and start with `join`: whoever is told of them can follow who is there.
-/
def Alternates (l : List Callback) : Prop := (present false l).isSome = true

instance (l : List Callback) : Decidable (Alternates l) :=
  inferInstanceAs (Decidable ((present false l).isSome = true))

/-- The callbacks that tell of one address, in their order. -/
def ofKey (k : Key) (l : List Callback) : List Callback := l.filter fun c => c.key = k

/-- There is a peer at the address, and not only the target for multicast packets. -/
def Peers.isPeer (announceTarget : Sock) (s : Peers) (k : Key) : Bool :=
  (s.udpTarget k).any fun t => t ≠ allTarget announceTarget

/-- The condition on a run: a LEAVE finds in its section that its peer is not the first target, and
is still the one at its address if there is one; and no callback overtakes another of the same
address.  It is asked of the state before the section or the callback. -/
def keepsPeers (m : PeersMachine) : PeersOp → Unit → Prop
  | .leaving address remote, _ =>
      m.mem.peers.targets.head? ≠ some remote ∧
        ∀ t ∈ m.mem.peers.udpTarget (udpKey address), t = remote
  | .callbacks (c :: _), _ => (ofKey c.key m.mem.due).head? = some c
  | _, _ => True

section

variable {a : Sock} {s : Peers} {t : NetworkTarget} {k : Key}

/-! ## The indexes -/

theorem Consistent.reset (a : Sock) : Consistent a (Peers.reset a) where
  nodup := List.nodup_singleton _
  first := rfl
  names := List.Perm.refl _
  named x hx := by
    rw [List.mem_singleton.mp hx]
    rfl
  udp k t := by
    rw [Peers.reset_udpTarget, Peers.reset_targets, List.mem_singleton]
    by_cases hk : k = udpKey a
    · rw [hk, Function.update_self, Option.some.injEq]
      exact ⟨fun h => ⟨h.symm, h ▸ rfl⟩, fun h => h.1.symm⟩
    · rw [Function.update_of_ne hk]
      refine ⟨fun h => absurd h (by simp), ?_⟩
      rintro ⟨rfl, hkey⟩
      exact absurd hkey.symm hk

theorem Consistent.all_mem (h : Consistent a s) : allTarget a ∈ s.targets :=
  List.mem_of_mem_head? h.first

/-- **Removing a target**, not the first one, keeps the indexes consistent. -/
theorem Consistent.removeTarget (h : Consistent a s) (ht : t ∈ s.targets) (hne : t ≠ allTarget a) :
    Consistent a (s.removeTarget t) := by
  have hname : (t.name, t) ∈ s.nameTarget := by
    obtain ⟨x, hx, rfl⟩ := List.mem_map.mp (h.names.mem_iff.mpr ht)
    rw [← h.named x hx]
    exact hx
  refine ⟨h.nodup.erase t, ?_, ?_, fun x hx => h.named x (List.mem_of_mem_erase hx), fun k u => ?_⟩
  · obtain ⟨l, hl⟩ := List.head?_eq_some_iff.mp h.first
    rw [Peers.removeTarget_targets, hl, List.erase_cons_tail (by simpa using Ne.symm hne)]
    rfl
  · have hperm : (t :: (s.nameTarget.erase (t.name, t)).map Prod.snd).Perm
        (t :: s.targets.erase t) :=
      (((List.perm_cons_erase hname).map Prod.snd).symm.trans h.names).trans
        (List.perm_cons_erase ht)
    exact hperm.cons_inv
  · show Function.update _ _ _ k = _ ↔ u ∈ s.targets.erase t ∧ _
    have hself := (h.udp t.key t).mpr ⟨ht, rfl⟩
    rw [h.nodup.mem_erase_iff]
    by_cases hk : k = t.key
    · rw [hk, Function.update_self]
      refine ⟨fun hu => absurd hu (by simp), ?_⟩
      rintro ⟨⟨hu, hmem⟩, hkey⟩
      have := (h.udp t.key u).mpr ⟨hmem, hkey⟩
      exact absurd (Option.some.inj (hself.symm.trans this)).symm hu
    · rw [Function.update_of_ne hk, h.udp]
      refine ⟨fun ⟨hmem, hkey⟩ => ⟨⟨?_, hmem⟩, hkey⟩, fun ⟨⟨_, hmem⟩, hkey⟩ => ⟨hmem, hkey⟩⟩
      rintro rfl
      exact hk hkey.symm

/-- **Adding a target** at an address where there is none keeps the indexes consistent. -/
theorem Consistent.addTarget (h : Consistent a s) (hnew : s.udpTarget t.key = none) :
    Consistent a (s.addTarget t) := by
  have hmem : t ∉ s.targets := by
    intro ht
    exact absurd (hnew.symm.trans ((h.udp t.key t).mpr ⟨ht, rfl⟩)) (by simp)
  refine ⟨?_, ?_, ?_, fun x hx => ?_, fun k u => ?_⟩
  · show (s.targets ++ [t]).Nodup
    rw [List.nodup_append]
    refine ⟨h.nodup, List.nodup_singleton t, fun u hu v hv => ?_⟩
    rintro rfl
    exact hmem (List.mem_singleton.mp hv ▸ hu)
  · rw [Peers.addTarget_targets, List.head?_append, h.first]
    rfl
  · show ((s.nameTarget ++ [(t.name, t)]).map Prod.snd).Perm (s.targets ++ [t])
    rw [List.map_append]
    exact h.names.append_right [t]
  · rcases List.mem_append.mp hx with hx | hx
    · exact h.named x hx
    · rw [List.mem_singleton.mp hx]
  · show Function.update _ _ _ k = _ ↔ u ∈ s.targets ++ [t] ∧ _
    rw [List.mem_append, List.mem_singleton]
    by_cases hk : k = t.key
    · rw [hk, Function.update_self, Option.some.injEq]
      refine ⟨fun hu => hu ▸ ⟨Or.inr rfl, rfl⟩, ?_⟩
      rintro ⟨hu | rfl, hkey⟩
      · exact absurd (hnew.symm.trans ((h.udp t.key u).mpr ⟨hu, hkey⟩)) (by simp)
      · rfl
    · rw [Function.update_of_ne hk, h.udp]
      refine ⟨fun ⟨hu, hkey⟩ => ⟨Or.inl hu, hkey⟩, ?_⟩
      rintro ⟨hu | rfl, hkey⟩
      · exact ⟨hu, hkey⟩
      · exact absurd hkey.symm hk

/-! ## Whether there is a peer at an address -/

theorem isPeer_reset (a : Sock) (k : Key) : (Peers.reset a).isPeer a k = false := by
  unfold Peers.isPeer
  rw [Peers.reset_udpTarget]
  by_cases hk : k = udpKey a
  · rw [hk, Function.update_self]
    simp
  · rw [Function.update_of_ne hk]
    rfl

theorem Consistent.isPeer_key (h : Consistent a s) (ht : t ∈ s.targets) (hne : t ≠ allTarget a) :
    s.isPeer a t.key = true := by
  unfold Peers.isPeer
  rw [(h.udp t.key t).mpr ⟨ht, rfl⟩, Option.any_some]
  exact decide_eq_true hne

theorem isPeer_removeTarget_self : (s.removeTarget t).isPeer a t.key = false := by
  unfold Peers.isPeer
  rw [Peers.removeTarget_udpTarget, Function.update_self]
  rfl

theorem isPeer_removeTarget_of_ne (hk : k ≠ t.key) :
    (s.removeTarget t).isPeer a k = s.isPeer a k := by
  unfold Peers.isPeer
  rw [Peers.removeTarget_udpTarget, Function.update_of_ne hk]

theorem isPeer_addTarget_self (hne : t ≠ allTarget a) : (s.addTarget t).isPeer a t.key = true := by
  unfold Peers.isPeer
  rw [Peers.addTarget_udpTarget, Function.update_self, Option.any_some]
  exact decide_eq_true hne

theorem isPeer_addTarget_of_ne (hk : k ≠ t.key) : (s.addTarget t).isPeer a k = s.isPeer a k := by
  unfold Peers.isPeer
  rw [Peers.addTarget_udpTarget, Function.update_of_ne hk]

/-! ## The callbacks of an address -/

variable {l l' : List Callback} {c : Callback} {b : Bool}

theorem present_append (b : Bool) (l l' : List Callback) :
    present b (l ++ l') = (present b l).bind fun b' => present b' l' := by
  induction l generalizing b with
  | nil => rfl
  | cons c l ih =>
    show (if c.isJoin = b then none else present c.isJoin (l ++ l')) =
      (if c.isJoin = b then none else present c.isJoin l).bind _
    split_ifs
    · rfl
    · exact ih _

@[simp] theorem ofKey_append (k : Key) (l l' : List Callback) :
    ofKey k (l ++ l') = ofKey k l ++ ofKey k l' :=
  List.filter_append ..

theorem ofKey_singleton_self (c : Callback) : ofKey c.key [c] = [c] := by
  unfold ofKey
  simp

theorem ofKey_singleton_of_ne (hk : k ≠ c.key) : ofKey k [c] = [] := by
  unfold ofKey
  simp [Ne.symm hk]

/-- A callback that comes next at its address turns there being no peer into there being one, or the
other way. -/
theorem present_ofKey_concat {b' : Bool} (h : present false (ofKey c.key l) = some b)
    (hc : c.isJoin = !b) (hb : b' = c.isJoin) :
    present false (ofKey c.key (l ++ [c])) = some b' := by
  rw [ofKey_append, ofKey_singleton_self, present_append, h, Option.bind_some, hb]
  show (if c.isJoin = b then none else some c.isJoin) = _
  rw [if_neg (by rw [hc]; cases b <;> decide)]

theorem present_ofKey_concat_of_ne (h : present false (ofKey k l) = some b) (hk : k ≠ c.key) :
    present false (ofKey k (l ++ [c])) = some b := by
  rw [ofKey_append, ofKey_singleton_of_ne hk, List.append_nil]
  exact h

/-- The callbacks of the other addresses stay, and of its own the first one is taken. -/
theorem ofKey_erase (k : Key) (l : List Callback) (c : Callback) :
    ofKey k (l.erase c) = (ofKey k l).erase c :=
  List.erase_filter.symm

/-- The callbacks invoked and due, when the first one due at its address is invoked. -/
theorem ofKey_invoke {tr due : List Callback} (h : (ofKey c.key due).head? = some c) (k : Key) :
    ofKey k ((c :: tr).reverse ++ due.erase c) = ofKey k (tr.reverse ++ due) := by
  rw [List.reverse_cons, ofKey_append, ofKey_append, ofKey_append, ofKey_erase]
  by_cases hk : k = c.key
  · obtain ⟨l, hl⟩ := List.head?_eq_some_iff.mp h
    rw [hk, hl, List.erase_cons_head, ofKey_singleton_self, List.append_assoc]
    rfl
  · rw [ofKey_singleton_of_ne hk, List.append_nil, List.erase_of_not_mem]
    intro hc
    have := (List.mem_filter.mp hc).2
    exact hk (of_decide_eq_true this).symm

end

/-! ## The invariant -/

/-- What every section keeps: the indexes are consistent, and the callbacks of an address, invoked
and due, alternate and tell whether there is a peer. -/
structure KeepsPeers (a : Sock) (s : Peers) (log : List Callback) : Prop where
  consistent : Consistent a s
  alternates : ∀ k, present false (ofKey k log) = some (s.isPeer a k)

/-- The invariant of a run: what every section keeps, for the callbacks that were invoked and those
that are due; and a LEAVE that waits for its section has found the target at its address. -/
structure PeersInvariant (a : Sock) (m : PeersMemory) (ops : List PeersOp) (tr : List Callback) :
    Prop where
  keeps : KeepsPeers a m.peers (tr.reverse ++ m.due)
  remotes : ∀ address remote, .leaving address remote ∈ ops → remote.key = udpKey address

section

variable {a : Sock} {s : Peers} {t : NetworkTarget} {log : List Callback}

/-- A target that is removed leaves: its callback comes behind those of its address, and there is no
peer. -/
theorem KeepsPeers.removeTarget (h : KeepsPeers a s log) (ht : t ∈ s.targets)
    (hne : t ≠ allTarget a) : KeepsPeers a (s.removeTarget t) (log ++ [.leave t]) where
  consistent := h.consistent.removeTarget ht hne
  alternates k := by
    have hk := h.alternates k
    by_cases hkey : k = t.key
    · subst hkey
      rw [h.consistent.isPeer_key ht hne] at hk
      exact present_ofKey_concat (c := .leave t) hk rfl isPeer_removeTarget_self
    · rw [isPeer_removeTarget_of_ne hkey]
      exact present_ofKey_concat_of_ne hk hkey

/-- A target that is added joins: there was no peer at its address, and its callback comes behind
the others. -/
theorem KeepsPeers.addTarget (h : KeepsPeers a s log) (hnew : s.udpTarget t.key = none) :
    KeepsPeers a (s.addTarget t) (log ++ [.join t]) where
  consistent := h.consistent.addTarget hnew
  alternates k := by
    have hk := h.alternates k
    have hne : t ≠ allTarget a := by
      rintro rfl
      have := (h.consistent.udp _ _).mpr ⟨h.consistent.all_mem, rfl⟩
      exact absurd (hnew.symm.trans this) (by simp)
    by_cases hkey : k = t.key
    · subst hkey
      have hnone : s.isPeer a t.key = false := by
        unfold Peers.isPeer
        rw [hnew]
        rfl
      rw [hnone] at hk
      exact present_ofKey_concat (c := .join t) hk rfl (isPeer_addTarget_self hne)
    · rw [isPeer_addTarget_of_ne hkey]
      exact present_ofKey_concat_of_ne hk hkey

/-- Several targets that are removed in one section leave. -/
theorem KeepsPeers.removeAll (h : KeepsPeers a s log) {l : List NetworkTarget} (hl : l.Nodup)
    (hmem : ∀ t ∈ l, t ∈ s.targets ∧ t ≠ allTarget a) :
    KeepsPeers a (l.foldl Peers.removeTarget s) (log ++ l.map .leave) := by
  induction l generalizing s log with
  | nil => simpa using h
  | cons t l ih =>
    obtain ⟨hnot, hl⟩ := List.nodup_cons.mp hl
    obtain ⟨ht, hne⟩ := hmem t (List.mem_cons_self ..)
    rw [List.map_cons, List.append_cons, List.foldl_cons]
    refine ih (h.removeTarget ht hne) hl fun u hu => ?_
    obtain ⟨hin, hun⟩ := hmem u (List.mem_cons_of_mem _ hu)
    refine ⟨(List.mem_erase_of_ne ?_).mpr hin, hun⟩
    rintro rfl
    exact hnot hu

/-- Those who time out: the first target is skipped, so they are peers. -/
theorem Consistent.mem_tail (h : Consistent a s) (ht : t ∈ s.targets.tail) :
    t ∈ s.targets ∧ t ≠ allTarget a := by
  obtain ⟨l, hl⟩ := List.head?_eq_some_iff.mp h.first
  have hnodup := h.nodup
  rw [hl] at ht hnodup ⊢
  refine ⟨List.mem_cons_of_mem _ ht, ?_⟩
  rintro rfl
  exact (List.nodup_cons.mp hnodup).1 ht

end

section

variable {a : Sock} {m : PeersMemory} {ops pre post : List PeersOp} {tr : List Callback}

theorem not_leaving_thenCallbacks {l : List Callback} {address : Sock} {remote : NetworkTarget} :
    PeersMemory.thenCallbacks l ≠ some (.leaving address remote) := by
  unfold PeersMemory.thenCallbacks
  split_ifs <;> simp

/-- **A call keeps the invariant.** -/
theorem PeersInvariant.call {c : PeersCall} {r : Outcome PeersMemory PeersOp Callback}
    (h : PeersInvariant a m ops tr) (hr : m.call ops c = some r) :
    PeersInvariant a r.mem (r.next.toList ++ ops) (r.emitted.reverse ++ tr) := by
  have hremotes : ∀ {next : Option PeersOp},
      (∀ address remote, next = some (.leaving address remote) → remote.key = udpKey address) →
      ∀ address remote, .leaving address remote ∈ next.toList ++ ops →
        remote.key = udpKey address := by
    intro next hnext address remote hmem
    rcases List.mem_append.mp hmem with hmem | hmem
    · exact hnext address remote (Option.mem_toList.mp hmem)
    · exact h.remotes address remote hmem
  cases c with
  | process timedOut =>
    cases hr
    refine ⟨?_, hremotes fun _ _ hnext => absurd hnext not_leaving_thenCallbacks⟩
    have hkeeps := h.keeps.removeAll (l := m.peers.targets.tail.filter (· ∈ timedOut))
      ((h.keeps.consistent.nodup.tail).filter _)
      fun t ht => h.keeps.consistent.mem_tail (List.mem_of_mem_filter ht)
    rw [List.append_assoc] at hkeeps
    exact hkeeps
  | packet address p =>
    have hsame : r.mem = m ∧ r.emitted = [] ∧ ∀ address' remote,
        r.next = some (.leaving address' remote) → remote.key = udpKey address' := by
      simp only [PeersMemory.call] at hr
      split at hr <;> cases hr
      · refine ⟨rfl, rfl, fun _ _ hnext => ?_⟩
        split_ifs at hnext
        exact absurd hnext (by simp)
      · next hlookup =>
        refine ⟨rfl, rfl, fun _ _ hnext => ?_⟩
        obtain ⟨rfl, rfl⟩ := PeersOp.leaving.inj (Option.some.inj hnext)
        exact ((h.keeps.consistent.udp _ _).mp hlookup).2
      · exact ⟨rfl, rfl, fun _ _ hnext => absurd hnext (by simp)⟩
    obtain ⟨hmem, hemitted, hnext⟩ := hsame
    rw [hmem, hemitted]
    exact ⟨h.keeps, hremotes hnext⟩

/-- **A section, or a callback, keeps the invariant.** -/
theorem PeersInvariant.advance {o : PeersOp} {r : Outcome PeersMemory PeersOp Callback}
    (h : PeersInvariant a m (pre ++ o :: post) tr)
    (hok : keepsPeers ⟨m, pre ++ o :: post, tr⟩ o ()) (hr : m.advance o () = some r) :
    PeersInvariant a r.mem (pre ++ (r.next.toList ++ post)) (r.emitted.reverse ++ tr) := by
  have hremotes : ∀ {next : Option PeersOp},
      (∀ address remote, next ≠ some (.leaving address remote)) →
      ∀ address remote, .leaving address remote ∈ pre ++ (next.toList ++ post) →
        remote.key = udpKey address := by
    intro next hnext address remote hmem
    rcases mem_access hmem with hmem | hmem
    · exact h.remotes address remote (mem_of_mem_append hmem)
    · exact absurd hmem (hnext address remote)
  cases o with
  | announced name address =>
    simp only [PeersMemory.advance] at hr
    split_ifs at hr with hnone <;> cases hr
    · refine ⟨?_, hremotes fun _ _ => not_leaving_thenCallbacks (l := [.join _])⟩
      have hkeeps := h.keeps.addTarget (t := ⟨m.nextTarget, name, address⟩)
        (Option.isNone_iff_eq_none.mp hnone)
      rw [List.append_assoc] at hkeeps
      exact hkeeps
    · exact ⟨h.keeps, hremotes fun _ _ => by simp⟩
  | leaving address remote =>
    obtain ⟨hfirst, hstill⟩ := hok
    simp only [PeersMemory.advance] at hr
    split_ifs at hr with hsome <;> cases hr
    · refine ⟨?_, hremotes fun _ _ => not_leaving_thenCallbacks (l := [.leave remote])⟩
      obtain ⟨t, ht⟩ := Option.isSome_iff_exists.mp hsome
      obtain rfl := hstill t ht
      have hmem := ((h.keeps.consistent.udp _ _).mp ht).1
      have hkeeps := h.keeps.removeAll (List.nodup_singleton t) fun u hu => by
        rw [List.mem_singleton.mp hu]
        refine ⟨hmem, ?_⟩
        rintro rfl
        exact hfirst h.keeps.consistent.first
      rw [List.append_assoc] at hkeeps
      exact hkeeps
    · exact ⟨h.keeps, hremotes fun _ _ => by simp⟩
  | callbacks l =>
    cases l with
    | nil => exact absurd hr (by simp [PeersMemory.advance])
    | cons c l =>
      cases hr
      refine ⟨⟨h.keeps.consistent, fun k => ?_⟩, hremotes fun _ _ => not_leaving_thenCallbacks⟩
      show present false (ofKey k ((c :: tr).reverse ++ m.due.erase c)) = _
      rw [ofKey_invoke hok]
      exact h.keeps.alternates k

end

/-- **The peers of a node.**  When no LEAVE removes the first target or a peer that is not at its
address any more, and no callback overtakes another of its address, the three indexes hold the same
targets, the first of which is that for multicast packets, and the callbacks of every address
alternate. -/
theorem peers_consistent_of_reaches {a : Sock} {s : PeersMachine}
    (h : Reaches peersStep (AtAccess keepsPeers) (afterReset a) s) :
    Consistent a s.mem.peers ∧ ∀ k, Alternates (ofKey k s.trace.reverse) := by
  have hinv := Program.invariant (I := fun s => PeersInvariant a s.mem s.ops s.trace) h
    ⟨⟨Consistent.reset a, fun k => (congrArg some (isPeer_reset a k)).symm⟩,
      fun _ _ ho => absurd ho List.not_mem_nil⟩
    (fun mem ops tr c r hI _ hr => hI.call hr)
    (fun mem pre o post tr z r hI hok hr => hI.advance hok.apply hr)
  refine ⟨hinv.keeps.consistent, fun k => ?_⟩
  have hall := hinv.keeps.alternates k
  rw [ofKey_append, present_append] at hall
  obtain ⟨b, hb, -⟩ := Option.bind_eq_some_iff.mp hall
  exact Option.isSome_iff_exists.mpr ⟨b, hb⟩

instance : ∀ m o z, Decidable (keepsPeers m o z)
  | m, .leaving address remote, _ => inferInstanceAs (Decidable
      (m.mem.peers.targets.head? ≠ some remote ∧
        ∀ t ∈ m.mem.peers.udpTarget (udpKey address), t = remote))
  | m, .callbacks (c :: _), _ =>
      inferInstanceAs (Decidable ((ofKey c.key m.mem.due).head? = some c))
  | _, .callbacks [], _ => .isTrue trivial
  | _, .announced _ _, _ => .isTrue trivial

/-- A multicast address to announce to. -/
def multicastAddress : Sock := .ipv4 #v[0xE2EF, 0x62AC] 0x691E

/-- The address of another node. -/
def peerAddress : Sock := .ipv4 #v[0x000A, 0x0200] 0x9C40

/-- The other node announces itself twice, which two threads read; only one of them adds it.  Then
it leaves. -/
def joinsAndLeaves : List (Action PeersCall Unit) :=
  [.call (.packet peerAddress (.announce "robot")), .call (.packet peerAddress (.announce "robot")),
    .advance 0 (), .advance 1 (), .advance 0 (), .call (.process []),
    .call (.packet peerAddress .leave), .advance 0 (), .advance 0 ()]

theorem peers_consistent_of_reaches_joinsAndLeaves :
    ∃ s, exec peersStep (afterReset multicastAddress) joinsAndLeaves = some s ∧
      s.trace = [.leave ⟨1, "robot", peerAddress⟩, .join ⟨1, "robot", peerAddress⟩] ∧
      Consistent multicastAddress s.mem.peers ∧ ∀ k, Alternates (ofKey k s.trace.reverse) := by
  obtain ⟨s, hs⟩ := Option.isSome_iff_exists.mp
    (by decide : (exec peersStep (afterReset multicastAddress) joinsAndLeaves).isSome = true)
  have htrace : (exec peersStep (afterReset multicastAddress) joinsAndLeaves).map (·.trace) =
      some [.leave ⟨1, "robot", peerAddress⟩, .join ⟨1, "robot", peerAddress⟩] := by decide
  have hok : execOk peersStep (AtAccess keepsPeers)
    (afterReset multicastAddress) joinsAndLeaves := by
    decide
  rw [hs, Option.map_some, Option.some.injEq] at htrace
  exact ⟨s, hs, htrace, peers_consistent_of_reaches (reaches_of_exec hs hok)⟩

/-- A LEAVE comes from the address that the node announces to; it is taken for one of the target for
multicast packets. -/
def leavesFromAnnounceAddress : List (Action PeersCall Unit) :=
  [.call (.packet multicastAddress .leave), .advance 0 ()]

/-- The node has lost the target for multicast packets, so it has nobody to announce itself to. -/
theorem inconsistent_of_leavesFromAnnounceAddress :
    ¬ ∀ (a : Sock) (s : PeersMachine), Reaches peersStep Always (afterReset a) s →
      Consistent a s.mem.peers ∧ ∀ k, Alternates (ofKey k s.trace.reverse) := by
  intro h
  obtain ⟨s, hs⟩ := Option.isSome_iff_exists.mp (by decide :
    (exec peersStep (afterReset multicastAddress) leavesFromAnnounceAddress).isSome = true)
  have htargets : (exec peersStep (afterReset multicastAddress) leavesFromAnnounceAddress).map
      (fun s => s.mem.peers.targets) = some [] := by decide
  rw [hs, Option.map_some, Option.some.injEq] at htargets
  have hfirst := (h multicastAddress s (reaches_always_of_exec hs)).1.first
  rw [htargets] at hfirst
  exact absurd hfirst (by simp)

end Network
end Extension
end NUClear
