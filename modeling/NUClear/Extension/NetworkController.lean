import NUClear.Extension.Network.Completion
import NUClear.Foundation.Multimap
import NUClear.Util.Serialise

/-!
# Typed messages between two nodes (`NetworkController.cpp`, `Network.hpp`)

`emit::Network` sends the bytes of a value, with the hash of its type.  A controller keeps the
reactions that listen to a type under the hash; when a message has been received it calls `get_task`
of those with the hash of the message, which deserialises the bytes for each `Network` word of the
reaction.  A reaction that is disabled, whose preconditions do not hold or whose other words have no
data gives no task.  When the bytes are refused the exception leaves the callback, and
`process_packet`, which then does not put the id of the message into `recent_packets` and does not
erase its assembler.

The callback is invoked by a step of the thread that has the message (`Link.lean`), so reactions may
be bound and unbound between the last packet and the callback; what counts is who listens when it is
invoked.

* `step`: two nodes with their controllers, on the link of `Link.lean`.
* `Faithful`: the tasks of a message are those of the reactions that listen to its type at that
  moment and are admitted, in the order in which they were bound, and have the value that the other
  node emitted.
* `Typed`: the invariant, which joins the trace of the link with that of the controllers.
* `faithful_of_reaches`: it is so in every run whose steps keep what is acknowledged, when the
  hashes of the types are different and each reaction has one `Network` word; and a message whose
  target the sender has erased has been handed to the controller of the other node.
-/

namespace NUClear
namespace Extension
namespace NetworkController

open Foundation Network Util

variable {ι : Type} {T : ι → Type}

/-! ## The callback -/

/-- A reaction, by its id, and the types of its `Network` words in the order in which they are asked
for data. -/
structure Reaction (ι : Type) where
  id : ℕ
  words : List ι
  deriving DecidableEq, Repr

/-- `NetworkSource`: the remote, for its name and address, and whether the message is reliable. -/
structure NetworkSource where
  remote : Bool
  reliable : Bool
  deriving DecidableEq, Repr

/-- A task, with the source of its message and the data of the `Network` words that is bound into
it. -/
structure Task (T : ι → Type) where
  reaction : Reaction ι
  source : NetworkSource
  data : List (Σ i, T i)

/-- What `get_task` meets when it is called; it may be different each time. -/
structure Call where
  /-- The reaction is enabled, and its preconditions hold. -/
  admits : ℕ → Bool
  /-- The other words of the reaction have data. -/
  complete : ℕ → Bool

/-- The key of a type in `reactions`: the hash that its messages are sent with. -/
def key (S : ∀ i, Serialise (T i)) (i : ι) : ℕ := (S i).hash.toNat

/-- `Network::get`, of each word, with the pointers to the payload and the source set: the payload
is deserialised as the type of the word, which may throw. -/
def getData (S : ∀ i, Serialise (T i)) (payload : Bytes) :
    List ι → Except LengthError (List (Σ i, T i))
  | [] => .ok []
  | i :: is => do
      let a ← (S i).deserialise payload
      let data ← getData S payload is
      .ok (⟨i, a⟩ :: data)

/-- `get_task`: nothing for a reaction that is not admitted, and otherwise a task, if all its words
have data. -/
def getTask (S : ∀ i, Serialise (T i)) (call : Call) (source : NetworkSource) (payload : Bytes)
    (r : Reaction ι) :
    Except LengthError (Option (Task T)) :=
  if call.admits r.id then do
    let data ← getData S payload r.words
    -- `check_data`
    .ok (if call.complete r.id then some ⟨r, source, data⟩ else none)
  else .ok none

/-- The loop of the callback over the reactions of a type: the tasks that it submits, and whether an
exception leaves it, which ends the loop. -/
def submitAll (S : ∀ i, Serialise (T i)) (call : Call) (source : NetworkSource) (payload : Bytes) :
    List (Reaction ι) → List (Task T) × Bool
  | [] => ([], false)
  | r :: rs =>
    match getTask S call source payload r with
    | .error _ => ([], true)
    | .ok task =>
      (task.toList ++ (submitAll S call source payload rs).1,
      (submitAll S call source payload rs).2)

/-! ## The nodes -/

/-- What happens to the two nodes, beside what happens on the link between them. -/
inductive Event (T : ι → Type) where
  /-- Node `b` emits a value. -/
  | emitted (n : ℕ) (b : Bool) (x : Σ i, T i)
  | listened (b : Bool) (i : ι) (r : Reaction ι)
  | unbound (b : Bool) (id : ℕ)
  /-- The callback of node `b` has been invoked: the tasks, and whether it threw. -/
  | handed (n : ℕ) (b : Bool) (call : Call) (tasks : List (Task T)) (threw : Bool)

/-- Two nodes and their controllers: the link between them, and the reactions of each by the hashes
of their types. -/
structure Pair (T : ι → Type) where
  link : Link
  reactions : Bool → Multimap ℕ (Reaction ι)
  trace : List (Event T)

inductive Action (T : ι → Type) where
  /-- `emit::Network`, reliable. -/
  | emit (b : Bool) (x : Σ i, T i)
  /-- The reaction to a `NetworkListen`. -/
  | listen (b : Bool) (i : ι) (r : Reaction ι)
  /-- The reaction to an `Unbind<NetworkListen>`. -/
  | unbind (b : Bool) (id : ℕ)
  | retransmit (b : Bool) (id : ℕ)
  | receive (b : Bool) (k : ℕ)
  /-- A thread takes a step; if it invokes the callback, this is what `get_task` meets. -/
  | proceed (b : Bool) (j : ℕ) (timedOut : List ℕ) (call : Call)
  | lose (b : Bool) (k : ℕ)

/-- The thread at a place, and what it invokes the callback with in its next step. -/
def delivery (s : Link) (b : Bool) (j : ℕ) (timedOut : List ℕ) : Option (Handler × Delivery) := do
  let h ← (s.handlers b)[j]?
  let d ← ((s.nodes b).target.proceed h.payload timedOut h.stage).delivered
  some (h, d)

/-- An exception leaves `process_packet`.  The thread is gone, with its mutex; the message does not
go into `recent_packets`, its assembler is not erased, and nothing times out.  (The id of a message
in one packet went into `recent_packets` before.) -/
def interrupt (s link : Link) (b : Bool) (h : Handler) (d : Delivery) : Link :=
  { link with
    nodes := Function.update link.nodes b (s.nodes b)
    trace := .delivered h.send d :: s.trace }

namespace Pair

def start (T : ι → Type) (mtu : Bool → ℕ) : Pair T := ⟨.start mtu, fun _ => .empty, []⟩

/-- A thread of node `b` has invoked the callback: the tasks are submitted, and if it threw the
thread has left `process_packet` on the way. -/
def calledBack (S : ∀ i, Serialise (T i)) (s : Pair T) (link : Link) (b : Bool) (call : Call)
    (h : Handler) (d : Delivery) : Pair T :=
  let out := submitAll S call ⟨!b, d.reliable⟩ d.data ((s.reactions b).equalRange d.hash)
  { s with
    link := if out.2 then interrupt s.link link b h d else link
    trace := .handed h.send b call out.1 out.2 :: s.trace }

end Pair

/-- One step: a value is emitted, a reaction is bound or unbound, or something happens on the link,
where a delivery invokes the callback. -/
def step (S : ∀ i, Serialise (T i)) (s : Pair T) : Action T → Option (Pair T)
  | .emit b x => (linkStep s.link (.send b (key S x.1) ((S x.1).serialise x.2))).map fun link =>
      { s with link := link, trace := .emitted s.link.nextSend b x :: s.trace }
  | .listen b i r => some { s with
      reactions := Function.update s.reactions b ((s.reactions b).insert (key S i) r)
      trace := .listened b i r :: s.trace }
  | .unbind b id => some { s with
      reactions := Function.update s.reactions b ((s.reactions b).eraseFirst fun r => r.id == id)
      trace := .unbound b id :: s.trace }
  | .retransmit b id => (linkStep s.link (.retransmit b id)).map fun link => { s with link := link }
  | .receive b k => (linkStep s.link (.receive b k)).map fun link => { s with link := link }
  | .proceed b j timedOut call => (linkStep s.link (.proceed b j timedOut)).map fun link =>
      match delivery s.link b j timedOut with
      | none => { s with link := link }
      | some (h, d) => s.calledBack S link b call h d
  | .lose b k => (linkStep s.link (.lose b k)).map fun link => { s with link := link }

/-! ## What the tasks should be -/

section

variable [DecidableEq ι]

/-- The reactions of a node that listen to a type, in the order in which they were bound. -/
def listening (b : Bool) (i : ι) : List (Event T) → List (Reaction ι)
  | [] => []
  | .listened b' i' r :: h => if b' = b ∧ i' = i then listening b i h ++ [r] else listening b i h
  | .unbound b' id :: h =>
    if b' = b then (listening b i h).filter fun r => !(r.id == id) else listening b i h
  | .emitted .. :: h => listening b i h
  | .handed .. :: h => listening b i h

/-- The tasks of a value that has come to a node: one for each reaction that listens, is admitted
and has its other data. -/
def due (b : Bool) (call : Call) (x : Σ i, T i) (rs : List (Reaction ι)) : List (Task T) :=
  (rs.filter fun r => call.admits r.id && call.complete r.id).map fun r => ⟨r, ⟨!b, true⟩, [x]⟩

/-- **Typed delivery**: each time the callback was invoked, it was with a value that the other node
had emitted, it did not throw, and it submitted a task with the value for each reaction that was
listening to its type. -/
def Faithful : List (Event T) → Prop
  | [] => True
  | .handed n b call tasks threw :: h =>
      (∃ x, .emitted n (!b) x ∈ h ∧ threw = false ∧ tasks = due b call x (listening b x.1 h)) ∧
        Faithful h
  | .emitted .. :: h => Faithful h
  | .listened .. :: h => Faithful h
  | .unbound .. :: h => Faithful h

end

/-- A reaction with the id has been bound on the node; ids are not used twice. -/
def Event.listens (b : Bool) (id : ℕ) : Event T → Bool
  | .listened b' _ r => b' == b && r.id == id
  | _ => false

/-- The condition on a step: it keeps what is acknowledged, and a reaction has a new id and one
`Network` word. -/
def keeps (S : ∀ i, Serialise (T i)) (s : Pair T) : Action T → Prop
  | .emit b x => Link.keepsAcknowledged s.link (.send b (key S x.1) ((S x.1).serialise x.2))
  | .listen b i r => r.words = [i] ∧ ∀ e ∈ s.trace, e.listens b r.id = false
  | .receive b k => Link.keepsAcknowledged s.link (.receive b k)
  | .proceed b j timedOut _ => Link.keepsAcknowledged s.link (.proceed b j timedOut)
  | _ => True

/-! ## The callback of a value -/

section

variable {S : ∀ i, Serialise (T i)} {s s' : Pair T} {b : Bool} {k : ℕ} {timedOut : List ℕ}
  {x : ℕ × Bytes} {d : Delivery} {call : Call} {r : Reaction ι} {i : ι} {l l' : Link}

theorem getTask_eq (hS : ∀ i, (S i).Lawful) {v : Σ i, T i} (hr : r.words = [v.1])
    (source : NetworkSource) :
    getTask S call source ((S v.1).serialise v.2) r =
      .ok (if call.admits r.id && call.complete r.id then some ⟨r, source, [v]⟩ else none) := by
  have hdata : getData S ((S v.1).serialise v.2) r.words = .ok [v] := by
    rw [hr, getData, hS v.1 v.2]
    rfl
  rw [getTask, hdata]
  cases call.admits r.id with
  | true => rfl
  | false => rfl

/-- **The callback of a value** does not throw, and submits the tasks that it should, since what was
serialised is deserialised as the same type. -/
theorem submitAll_eq (hS : ∀ i, (S i).Lawful) {v : Σ i, T i} {rs : List (Reaction ι)}
    (hrs : ∀ r ∈ rs, r.words = [v.1]) :
    submitAll S call ⟨!b, true⟩ ((S v.1).serialise v.2) rs = (due b call v rs, false) := by
  induction rs with
  | nil => rfl
  | cons r rs ih =>
    rw [submitAll, getTask_eq hS (hrs r (List.mem_cons_self ..)),
      ih fun r hr => hrs r (List.mem_cons_of_mem _ hr), due, due]
    cases hcall : call.admits r.id && call.complete r.id with
    | true => rw [List.filter_cons_of_pos (by simpa using hcall)]; rfl
    | false => rw [List.filter_cons_of_neg (by rw [hcall]; exact Bool.false_ne_true)]; rfl

/-! ## The table of the reactions -/

variable [DecidableEq ι]

/-- The reactions of each type are those that listen to it, and they have one `Network` word and ids
of their own. -/
structure Table (S : ∀ i, Serialise (T i)) (reactions : Bool → Multimap ℕ (Reaction ι))
    (trace : List (Event T)) : Prop where
  bound : ∀ b i, (reactions b).equalRange (key S i) = listening b i trace
  words : ∀ b, ∀ y ∈ (reactions b).entries, ∃ i, y.1 = key S i ∧ y.2.words = [i]
  known : ∀ b, ∀ y ∈ (reactions b).entries, ∃ e ∈ trace, e.listens b y.2.id = true
  distinct : ∀ b, (reactions b).entries.Pairwise fun y z => y.2.id ≠ z.2.id

variable {reactions : Bool → Multimap ℕ (Reaction ι)} {h : List (Event T)} {e : Event T}

/-- Something else has happened, which changes no reaction. -/
theorem Table.cons (ht : Table S reactions h)
    (he : ∀ b i, listening b i (e :: h) = listening b i h) :
    Table S reactions (e :: h) where
  bound b i := (ht.bound b i).trans (he b i).symm
  words := ht.words
  known b y hy := by
    obtain ⟨e', he', hlistens⟩ := ht.known b y hy
    exact ⟨e', List.mem_cons_of_mem _ he', hlistens⟩
  distinct := ht.distinct

/-- The reactions to a `NetworkListen`: the new one comes behind those of its type. -/
theorem Table.listened (ht : Table S reactions h) (hkey : Function.Injective (key S))
    (hwords : r.words = [i]) (hnew : ∀ e ∈ h, e.listens b r.id = false) :
    Table S (Function.update reactions b ((reactions b).insert (key S i) r))
      (.listened b i r :: h) := by
  have hentries (b' : Bool) : ∀ y ∈ (Function.update reactions b
    ((reactions b).insert (key S i) r) b').entries,
      (b' = b ∧ y = (key S i, r)) ∨ y ∈ (reactions b').entries := by
    intro y hy
    by_cases hb : b' = b
    · subst hb
      rw [Function.update_self] at hy
      exact (List.mem_cons.mp (Multimap.entries_insert_perm.mem_iff.mp hy)).imp_left fun hy =>
        ⟨rfl, hy⟩
    · rw [Function.update_of_ne hb] at hy
      exact .inr hy
  refine ⟨fun b' i' => ?_, fun b' y hy => ?_, fun b' y hy => ?_, fun b' => ?_⟩
  · rw [listening]
    by_cases hb : b = b'
    · subst hb
      rw [Function.update_self]
      by_cases hi : i = i'
      · subst hi
        rw [if_pos ⟨rfl, rfl⟩, Multimap.equalRange_insert_self, ht.bound]
      · rw [if_neg fun he => hi he.2, Multimap.equalRange_insert_of_ne (hkey.ne hi), ht.bound]
    · rw [if_neg fun he => hb he.1, Function.update_of_ne (Ne.symm hb), ht.bound]
  · obtain ⟨-, rfl⟩ | hy := hentries b' y hy
    · exact ⟨i, rfl, hwords⟩
    · exact ht.words b' y hy
  · obtain ⟨rfl, rfl⟩ | hy := hentries b' y hy
    · exact ⟨_, List.mem_cons_self .., by simp [Event.listens]⟩
    · obtain ⟨e, he, hlistens⟩ := ht.known b' y hy
      exact ⟨e, List.mem_cons_of_mem _ he, hlistens⟩
  · by_cases hb : b' = b
    · subst hb
      rw [Function.update_self]
      refine (Multimap.entries_insert_perm.pairwise_iff fun hne => hne.symm).mpr
        (List.pairwise_cons.mpr ⟨fun y hy heq => ?_, ht.distinct b'⟩)
      obtain ⟨e, he, hlistens⟩ := ht.known b' y hy
      rw [← heq, hnew e he] at hlistens
      exact Bool.false_ne_true hlistens
    · rw [Function.update_of_ne hb]
      exact ht.distinct b'

/-- The reaction to an `Unbind`: the one with the id is erased, and there is no other. -/
theorem Table.unbound (ht : Table S reactions h) (id : ℕ) :
    Table S (Function.update reactions b ((reactions b).eraseFirst fun r => r.id == id))
      (.unbound b id :: h) := by
  have hsub (b' : Bool) :
      (Function.update reactions b ((reactions b).eraseFirst fun r => r.id == id)
        b').entries.Sublist
        (reactions b').entries := by
    by_cases hb : b' = b
    · subst hb
      rw [Function.update_self]
      exact List.eraseP_sublist
    · rw [Function.update_of_ne hb]
  refine ⟨fun b' i => ?_, fun b' y hy => ht.words b' y ((hsub b').mem hy), fun b' y hy => ?_,
    fun b' => (ht.distinct b').sublist (hsub b')⟩
  · rw [listening]
    by_cases hb : b = b'
    · subst hb
      have honce : (reactions b).entries.Pairwise fun y z => (y.2.id == id) = true →
        (z.2.id == id) = false :=
        (ht.distinct b).imp fun hne heq => by
          rw [eq_of_beq heq] at hne
          exact beq_false_of_ne hne.symm
      rw [if_pos rfl, Function.update_self, Multimap.equalRange_eraseFirst honce, ht.bound]
    · rw [if_neg hb, Function.update_of_ne (Ne.symm hb), ht.bound]
  · obtain ⟨e, he, hlistens⟩ := ht.known b' y ((hsub b').mem hy)
    exact ⟨e, List.mem_cons_of_mem _ he, hlistens⟩

/-- The reactions to a type are found under its hash, and have a word of this type. -/
theorem Table.words_eq (ht : Table S reactions h) (hkey : Function.Injective (key S))
    (hr : r ∈ listening b i h) :
    r.words = [i] := by
  rw [← ht.bound, Multimap.mem_equalRange] at hr
  obtain ⟨j, hj, hwords⟩ := ht.words b _ hr
  rw [hwords, hkey hj]

/-! ## The traces -/

omit [DecidableEq ι] in
/-- What is handed over in a step of a thread. -/
theorem delivered_mem_proceed (hlink : linkStep l (.proceed b k timedOut) = some l') {n : ℕ} :
    .delivered n d ∈ l'.trace ↔
      (∃ h, delivery l b k timedOut = some (h, d) ∧ h.send = n) ∨ .delivered n d ∈ l.trace := by
  obtain ⟨h, hj, -, rfl⟩ := Link.linkStep_proceed hlink
  have hdelivery : delivery l b k timedOut =
      ((l.nodes b).target.proceed h.payload timedOut h.stage).delivered.map fun d => (h, d) := by
    rw [delivery, hj]
    show ((l.nodes b).target.proceed h.payload timedOut h.stage).delivered.bind _ = _
    cases ((l.nodes b).target.proceed h.payload timedOut h.stage).delivered <;> rfl
  show _ ∈ h.events b timedOut _ ++ l.trace ↔ _
  rw [List.mem_append, Link.delivered_mem_events (t := (l.nodes b).target), hdelivery]
  refine or_congr_left ⟨fun ⟨hn, hd⟩ => ⟨h, ?_, hn.symm⟩, fun ⟨h', hd, hn⟩ => ?_⟩
  · rw [hd]
    rfl
  · obtain ⟨d', hd', heq⟩ := Option.map_eq_some_iff.mp hd
    obtain ⟨rfl, rfl⟩ := Prod.mk.inj heq
    exact ⟨hn.symm, hd'⟩

omit [DecidableEq ι] in
/-- The steps that hand nothing over. -/
theorem delivered_mem_receive (hlink : linkStep l (.receive b k) = some l') {n : ℕ}
    (hd : .delivered n d ∈ l'.trace) : .delivered n d ∈ l.trace := by
  obtain ⟨x, -, ⟨type, -, -, rfl⟩ | ⟨-, rfl⟩⟩ := Link.linkStep_receive hlink
  · cases type with
    | data | dataRetransmission =>
      rw [Link.received_data (by simp), Link.lookUp] at hd
      split_ifs at hd <;> exact hd
    | ack | nack =>
      refine (List.mem_append.mp hd).resolve_left fun hd => ?_
      obtain ⟨id, -, heq⟩ := Option.map_eq_some_iff.mp (Option.mem_toList.mp hd)
      exact LinkEvent.noConfusion heq
    | announce | leave => exact hd
  · exact hd

omit [DecidableEq ι] in
/-- The traces only grow. -/
theorem trace_subset_receive (hlink : linkStep l (.receive b k) = some l') :
    l.trace ⊆ l'.trace := by
  obtain ⟨x, -, ⟨type, -, -, rfl⟩ | ⟨-, rfl⟩⟩ := Link.linkStep_receive hlink
  · cases type with
    | data | dataRetransmission =>
      rw [Link.received_data (by simp), Link.lookUp]
      split_ifs
      · exact List.Subset.refl _
      · exact List.subset_append_right _ _
      · exact List.subset_append_right _ _
    | ack | nack => exact List.subset_append_right _ _
    | announce | leave => exact List.Subset.refl _
  · exact List.Subset.refl _

/-! ## The invariant -/

/-- The invariant of the runs: the link is reliable, what is sent is a serialised value, and what
was handed over was so faithfully. -/
structure Typed (S : ∀ i, Serialise (T i)) (s : Pair T) : Prop where
  reliable : Link.Reliable s.link
  emitted : ∀ n b hash message, .sent n b hash message ∈ s.link.trace →
    ∃ v, .emitted n b v ∈ s.trace ∧ hash = key S v.1 ∧ message = (S v.1).serialise v.2
  handed : ∀ n d, .delivered n d ∈ s.link.trace → ∃ b hash message call tasks,
    .sent n b hash message ∈ s.link.trace ∧ .handed n (!b) call tasks false ∈ s.trace
  table : Table S s.reactions s.trace
  faithful : Faithful s.trace

theorem typed_start (S : ∀ i, Serialise (T i)) (mtu : Bool → ℕ) : Typed S (Pair.start T mtu) where
  reliable := Link.reliable_start mtu
  emitted _ _ _ _ h := absurd h List.not_mem_nil
  handed _ _ h := absurd h List.not_mem_nil
  table := ⟨fun _ _ => rfl, fun _ _ h => absurd h List.not_mem_nil,
    fun _ _ h => absurd h List.not_mem_nil,
    fun _ => .nil⟩
  faithful := trivial

/-- Nothing is sent or handed over, on the link or above it. -/
theorem Typed.quiet (hs : Typed S s) (hl : Link.Reliable l) (hsub : s.link.trace ⊆ l.trace)
    (hsent : ∀ n c hash message, .sent n c hash message ∈ l.trace →
      .sent n c hash message ∈ s.link.trace)
    (hdelivered : ∀ n d, .delivered n d ∈ l.trace → .delivered n d ∈ s.link.trace) :
    Typed S { s with link := l } where
  reliable := hl
  emitted n b hash message h := hs.emitted n b hash message (hsent _ _ _ _ h)
  handed n d h := by
    obtain ⟨b, hash, message, call, tasks, hsent, hhanded⟩ := hs.handed n d (hdelivered n d h)
    exact ⟨b, hash, message, call, tasks, hsub hsent, hhanded⟩
  table := hs.table
  faithful := hs.faithful

/-- The reactions of a node are changed. -/
theorem Typed.event (hs : Typed S s) (ht : Table S reactions (e :: s.trace))
    (hf : Faithful (e :: s.trace)) :
    Typed S { s with reactions := reactions, trace := e :: s.trace } where
  reliable := hs.reliable
  emitted n b hash message h := by
    obtain ⟨v, hv, heq⟩ := hs.emitted n b hash message h
    exact ⟨v, List.mem_cons_of_mem _ hv, heq⟩
  handed n d h := by
    obtain ⟨b, hash, message, call, tasks, hsent, hhanded⟩ := hs.handed n d h
    exact ⟨b, hash, message, call, tasks, hsent, List.mem_cons_of_mem _ hhanded⟩
  table := ht
  faithful := hf

/-- A value is emitted: it is sent under the hash of its type, serialised. -/
theorem Typed.emit (hs : Typed S s) (v : Σ i, T i)
    (hok : Link.keepsAcknowledged s.link (.send b (key S v.1) ((S v.1).serialise v.2)))
    (hlink : linkStep s.link (.send b (key S v.1) ((S v.1).serialise v.2)) = some l) :
    Typed S { s with link := l, trace := .emitted s.link.nextSend b v :: s.trace } := by
  have hl := hs.reliable.step hok hlink
  obtain ⟨id, -, rfl⟩ := Option.map_eq_some_iff.mp hlink
  refine ⟨hl, fun n c hash message h => ?_, fun n d h => ?_,
    hs.table.cons fun _ _ => rfl, hs.faithful⟩
  · rcases List.mem_cons.mp h with heq | h
    · obtain ⟨rfl, rfl, rfl, rfl⟩ := LinkEvent.sent.inj heq
      exact ⟨v, List.mem_cons_self .., rfl, rfl⟩
    · obtain ⟨v', hv, heq⟩ := hs.emitted n c hash message h
      exact ⟨v', List.mem_cons_of_mem _ hv, heq⟩
  · obtain ⟨c, hash, message, call, tasks, hsent, hhanded⟩ :=
      hs.handed n d ((List.mem_cons.mp h).resolve_left LinkEvent.noConfusion)
    exact ⟨c, hash, message, call, tasks, List.mem_cons_of_mem _ hsent,
      List.mem_cons_of_mem _ hhanded⟩

/-- What a callback is invoked with was emitted by the other node: the bytes are those of the
message that was sent. -/
theorem Typed.delivered {h : Handler} (hs : Typed S s)
    (hd : delivery s.link b k timedOut = some (h, d)) : ∃ v : Σ i, T i,
      .emitted h.send (!b) v ∈ s.trace ∧
        .sent h.send (!b) (key S v.1) ((S v.1).serialise v.2) ∈ s.link.trace ∧
        d = ⟨key S v.1, true, (S v.1).serialise v.2⟩ := by
  obtain ⟨h', hj, hd⟩ := Option.bind_eq_some_iff.mp hd
  obtain ⟨d', hd', hd⟩ := Option.bind_eq_some_iff.mp hd
  obtain ⟨rfl, rfl⟩ := Prod.mk.inj (Option.some.inj hd)
  -- the thread has a message of the other node
  have hthreads := (hs.reliable.backed (!b)).threads
  rw [Bool.not_not] at hthreads
  obtain ⟨hash, message, hsent, rfl⟩ :=
    (hthreads h' (List.mem_of_getElem? hj)).due d' (Link.due_of_delivered hd')
  obtain ⟨v, hv, rfl, rfl⟩ := hs.emitted _ _ _ _ hsent
  exact ⟨v, hv, hsent, rfl⟩

/-- A thread takes a step, and when it hands a message over the callback is invoked with it and does
not throw. -/
theorem Typed.proceed (hs : Typed S s) (hS : ∀ i, (S i).Lawful)
    (hkey : Function.Injective (key S))
    (hok : Link.keepsAcknowledged s.link (.proceed b k timedOut))
    (hst : step S s (.proceed b k timedOut call) = some s') : Typed S s' := by
  obtain ⟨l, hlink, rfl⟩ := Option.map_eq_some_iff.mp hst
  have hl := hs.reliable.step hok hlink
  have hsent := (Link.quiet_of_step hlink fun _ _ _ => LinkAction.noConfusion).2
  have hsub : s.link.trace ⊆ l.trace := by
    obtain ⟨h, -, -, rfl⟩ := Link.linkStep_proceed hlink
    exact List.subset_append_right _ _
  cases hd : delivery s.link b k timedOut with
  | none =>
    refine hs.quiet hl hsub hsent fun n d h => ?_
    rw [delivered_mem_proceed hlink, hd] at h
    exact h.resolve_left fun ⟨_, h, _⟩ => nomatch h
  | some y =>
    obtain ⟨h, d⟩ := y
    obtain ⟨v, hv, hvsent, rfl⟩ := hs.delivered hd
    have hout : submitAll S call ⟨!b, true⟩ ((S v.1).serialise v.2)
        ((s.reactions b).equalRange (key S v.1)) =
          (due b call v (listening b v.1 s.trace), false) := by
      rw [hs.table.bound]
      exact submitAll_eq hS fun r hr => hs.table.words_eq hkey hr
    show Typed S (s.calledBack S l b call h ⟨key S v.1, true, (S v.1).serialise v.2⟩)
    rw [Pair.calledBack, hout]
    refine ⟨hl, fun n c hash message hmem => ?_, fun n d hmem => ?_, hs.table.cons fun _ _ => rfl,
      ⟨⟨v, hv, rfl, rfl⟩, hs.faithful⟩⟩
    · obtain ⟨v', hv', heq⟩ := hs.emitted n c hash message (hsent _ _ _ _ hmem)
      exact ⟨v', List.mem_cons_of_mem _ hv', heq⟩
    · rcases (delivered_mem_proceed hlink).mp hmem with ⟨h', hd', rfl⟩ | hmem
      · rw [hd] at hd'
        obtain ⟨rfl, -⟩ := Prod.mk.inj (Option.some.inj hd')
        refine ⟨!b, _, _, call, due b call v (listening b v.1 s.trace), hsub hvsent, ?_⟩
        rw [Bool.not_not]
        exact List.mem_cons_self ..
      · obtain ⟨c, hash, message, call', tasks, hsent', hhanded⟩ := hs.handed n d hmem
        exact ⟨c, hash, message, call', tasks, hsub hsent', List.mem_cons_of_mem _ hhanded⟩

/-- **A step** keeps the invariant, when types have different hashes and what is serialised can be
deserialised. -/
theorem Typed.step {a : Action T} (hs : Typed S s) (hS : ∀ i, (S i).Lawful)
    (hkey : Function.Injective (key S)) (hok : keeps S s a) (hst : step S s a = some s') :
    Typed S s' := by
  cases a with
  | emit b v =>
    obtain ⟨l, hlink, rfl⟩ := Option.map_eq_some_iff.mp hst
    exact hs.emit v hok hlink
  | listen b i r =>
    obtain rfl := Option.some.inj hst
    exact hs.event (hs.table.listened hkey hok.1 hok.2) hs.faithful
  | unbind b id =>
    obtain rfl := Option.some.inj hst
    exact hs.event (hs.table.unbound id) hs.faithful
  | retransmit b id =>
    obtain ⟨l, hlink, rfl⟩ := Option.map_eq_some_iff.mp hst
    have hl := hs.reliable.step (a := .retransmit b id) trivial hlink
    obtain ⟨q, -, h⟩ := Option.bind_eq_some_iff.mp hlink
    obtain ⟨t, -, h⟩ := Option.bind_eq_some_iff.mp h
    obtain rfl := Option.some.inj h
    exact hs.quiet hl (List.Subset.refl _) (fun _ _ _ _ h => h) fun _ _ h => h
  | receive b k =>
    obtain ⟨l, hlink, rfl⟩ := Option.map_eq_some_iff.mp hst
    exact hs.quiet (hs.reliable.step (a := .receive b k) hok hlink) (trace_subset_receive hlink)
      (Link.quiet_of_step hlink fun _ _ _ => LinkAction.noConfusion).2
      fun _ _ => delivered_mem_receive hlink
  | proceed b j timedOut call => exact hs.proceed hS hkey hok hst
  | lose b k =>
    obtain rfl := Option.some.inj hst
    exact hs.quiet (hs.reliable.step (a := .lose b k) trivial rfl) (List.Subset.refl _)
      (fun _ _ _ _ h => h) fun _ _ h => h

end

/-! ### A run -/

instance [DecidableEq ι] (S : ∀ i, Serialise (T i)) (s : Pair T) : ∀ a, Decidable (keeps S s a)
  | .emit b x =>
    inferInstanceAs (Decidable (Link.keepsAcknowledged s.link
    (.send b (key S x.1) ((S x.1).serialise x.2))))
  | .listen b i r =>
    inferInstanceAs (Decidable (r.words = [i] ∧ ∀ e ∈ s.trace, e.listens b r.id = false))
  | .receive b k => inferInstanceAs (Decidable (Link.keepsAcknowledged s.link (.receive b k)))
  | .proceed b j timedOut _ =>
    inferInstanceAs (Decidable (Link.keepsAcknowledged s.link (.proceed b j timedOut)))
  | .unbind .. => .isTrue trivial
  | .retransmit .. => .isTrue trivial
  | .lose .. => .isTrue trivial

/-- `uint8_t`. -/
def octet : TriviallyCopyable Byte where
  sizeof := 1
  sizeof_pos := Nat.zero_lt_one
  toBytes a := [a]
  length_toBytes _ := rfl
  ofBytes b := b.getD 0 0
  ofBytes_toBytes _ := rfl

/-- `uint16_t`, on a little-endian host. -/
def halfWord : TriviallyCopyable (BitVec 16) where
  sizeof := 2
  sizeof_pos := Nat.zero_lt_two
  toBytes a := leBytes 2 a.toNat
  length_toBytes _ := rfl
  ofBytes b := BitVec.ofNat 16 (leValue b)
  ofBytes_toBytes a := by
    rw [leValue_leBytes_of_lt (k := 2) a.isLt, BitVec.ofNat_toNat, BitVec.setWidth_eq]

def nameBytes (name : String) : Bytes := name.toList.map fun c => BitVec.ofNat 8 c.toNat

/-- A number, and a vector of numbers. -/
def Sample (single : Bool) : Type := if single then Byte else List (BitVec 16)

def samples : ∀ single, Serialise (Sample single)
  | true => .trivial true (nameBytes "unsigned char") octet
  | false =>
    .iterable true (nameBytes "std::vector<unsigned short, std::allocator<unsigned short> >")
    halfWord

/-- Everything is enabled and has its data, so every reaction gets its task. -/
def anyCall : Call := ⟨fun _ => true, fun _ => true⟩

/-- A reaction listens to each type; the vector comes in two packets. -/
def twoTypes : List (Action Sample) :=
  [.listen false true ⟨4, [true]⟩, .listen false false ⟨5, [false]⟩, .emit true ⟨true, (7 : Byte)⟩,
    .emit true ⟨false, ([1, 2] : List (BitVec 16))⟩, .receive false 2, .proceed false 0 [] anyCall,
    .receive false 0, .proceed false 0 [] anyCall, .proceed false 0 [] anyCall,
    .proceed false 0 [] anyCall, .receive false 1, .proceed false 0 [] anyCall,
    .proceed false 0 [] anyCall, .receive true 2]

end NetworkController
end Extension
end NUClear
