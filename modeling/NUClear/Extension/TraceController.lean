import NUClear.Foundation.DefBeforeUse
import NUClear.Foundation.Reachability

/-!
# The trace files

`TraceController` writes the events of the reactions to a file.  A packet refers to strings by the
ids that they are interned with, and to the tracks of the process and the threads by their uuids.
The controller keeps maps of what it has defined; a definition is written when a key is first met,
and to the file that is open then.  The maps are not cleared when a file ends or another one begins.

Its reactions share a pool of one thread, so each runs as one step.

* `Packet`: what a packet has, with the references that it defines and that it refers to.
* `step`: the reactions to `BeginTrace`, `EndTrace`, the events and the log messages.  A task for an
  event may run after the file has ended, or in the next one.
* `SelfContained`: every reference of a file is defined in it, by then.  The general part, about
  sequences that define what they refer to, is `Foundation.Closed`.
* `selfContained_iff_of_exec`: all files are, exactly when no file is begun after packets were
  encoded.

## The proof

* `Linked`: what the maps give is defined in the open file.  It holds from the first file on, and is
  lost when another one begins.
* `Extends`: what one state has come to from another by writing.  The functions of the controller
  extend (`extends_process`, `extends_thread`, `extends_intern`), and so does what is made of them
  (`extends_encode`).
* `beginTrace_iff`: a file that begins keeps all files self-contained, unless it opens after packets
  were encoded: then its first event refers to a track that it does not define.
-/

namespace NUClear
namespace Extension
namespace TraceController

open Foundation

universe u v

/-! ## Packets -/

/-- What is referred to: an id of one of the interners, or the uuid of a track. -/
inductive Ref where
  | category (iid : Nat)
  | eventName (iid : Nat)
  | logMessageBody (iid : Nat)
  | track (uuid : Nat)
  deriving DecidableEq, Repr

/-- `track_event`: what it refers to.  Its time, its type and its counter value define and refer to
nothing. -/
structure TrackEvent where
  trackUuid : Nat
  nameIid : Nat
  categoryIids : List Nat
  extraCounterTrackUuid : Nat
  /-- `body_iid` of a log message. -/
  logMessage : Option Nat
  deriving DecidableEq, Repr

inductive Packet where
  /-- The incremental state is cleared. -/
  | reset
  | process (uuid : Nat) (name : String)
  | thread (uuid parentUuid : Nat) (name : String)
  | counter (uuid parentUuid : Nat)
  | interned (ref : Ref) (name : String)
  | event (e : TrackEvent)
  deriving DecidableEq, Repr

def Packet.defines : Packet → List Ref
  | .process uuid _ => [.track uuid]
  | .thread uuid _ _ => [.track uuid]
  | .counter uuid _ => [.track uuid]
  | .interned ref _ => [ref]
  | .reset | .event _ => []

def TrackEvent.refers (e : TrackEvent) : List Ref :=
  [.track e.trackUuid, .eventName e.nameIid] ++ e.categoryIids.map .category ++
    [.track e.extraCounterTrackUuid] ++ (e.logMessage.map .logMessageBody).toList

def Packet.refers : Packet → List Ref
  | .thread _ parentUuid _ => [.track parentUuid]
  | .counter _ parentUuid => [.track parentUuid]
  | .event e => e.refers
  | .reset | .process _ _ | .interned _ _ => []

/-- **What a trace file has to be**: every reference is defined by an earlier packet or the same, so
that the file can be read alone. -/
def SelfContained (file : List Packet) : Prop := Closed Packet.defines Packet.refers [] file

instance decidableSelfContained (file : List Packet) : Decidable (SelfContained file) :=
  decidableClosed _ _ _ _

/-! ## Events -/

/-- `ReactionStatistics::Event`, of a thread with an id in `θ`: which thread it was, and of which
pool. -/
structure EventInfo (θ : Type u) where
  threadId : θ
  /-- The name of the pool of the thread. -/
  pool : Option String

structure Identifiers where
  name : String
  reactor : String
  dsl : String

/-- `ReactionStatistics`; the identifiers are shared, and their addresses are in `κ`, by which they
are told apart. -/
structure Statistics (θ : Type u) (κ : Type v) where
  identifiers : Option (κ × Identifiers)
  created : EventInfo θ
  started : EventInfo θ
  finished : EventInfo θ

inductive EventType where
  | blocked
  | missingData
  | created
  | started
  | finished
  deriving DecidableEq, Repr

structure ReactionEvent (θ : Type u) (κ : Type v) where
  type : EventType
  statistics : Statistics θ κ

structure LogMessage (θ : Type u) (κ : Type v) where
  message : String
  statistics : Option (Statistics θ κ)

/-- A task of the reactions to the events and the log messages; the latter has statistics of its
own. -/
inductive Job (θ : Type u) (κ : Type v) where
  | event (e : ReactionEvent θ κ)
  | log (statistics : Statistics θ κ) (msg : LogMessage θ κ)

/-- The regular expression `[A-Za-z_][A-Za-z0-9_]+::`, at the beginning: the rest after it. -/
def namespacePrefix (l : List Char) : Option (List Char) :=
  let word (c : Char) := c.isAlphanum || c = '_'
  match l with
  | c :: d :: rest =>
      if (c.isAlpha || c = '_') && word d then
        match rest.dropWhile word with
        | ':' :: ':' :: rest' => some rest'
        | _ => none
      else none
  | _ => none

/-- `std::regex_replace` of it by nothing, everywhere: the matches are looked for from the left, and
do not overlap. -/
def stripNamespaces (l : List Char) : List Char := go l.length l
where
  go : Nat → List Char → List Char
    | 0, l => l
    | _ + 1, [] => []
    | n + 1, c :: rest =>
        match namespacePrefix (c :: rest) with
        | some rest' => go n rest'
        | none => c :: go n rest

/-- `name_for_id`: the name of the reaction, or its DSL without the namespaces when it has none. -/
def nameForId : Option Identifiers → String
  | none => ""
  | some ids =>
    if ids.name.isEmpty then String.ofList (stripNamespaces ids.dsl.toList) else ids.name

section

variable {θ : Type u} {κ : Type v}

/-- `relevant_event`: the thread that a reaction event is about, by its type. -/
def relevantEvent (e : ReactionEvent θ κ) : EventInfo θ :=
  match e.type with
  | .blocked | .missingData | .created => e.statistics.created
  | .started => e.statistics.started
  | .finished => e.statistics.finished

/-- The name of the reactor, which is a category; what has no identifiers is done by the power
plant. -/
def reactorName (ids : Option (κ × Identifiers)) : String :=
  match ids with
  | none => "PowerPlant"
  | some ids => ids.2.reactor

end

/-! ## The controller -/

/-- A key of one of the three `StringInterner`s.  The identifiers are compared by their address. -/
inductive Key (κ : Type v) where
  | category (name : String)
  | eventName (ids : Option κ)
  | logMessageBody (message : String)
  deriving DecidableEq

def Key.ref {κ : Type v} : Key κ → Nat → Ref
  | .category _ => .category
  | .eventName _ => .eventName
  | .logMessageBody _ => .logMessageBody

/-- The keys are of the same interner, so they share the numbers of its ids. -/
def Key.sameInterner {κ : Type v} : Key κ → Key κ → Bool
  | .category _, .category _ => true
  | .eventName _, .eventName _ => true
  | .logMessageBody _, .logMessageBody _ => true
  | _, _ => false

/-- The controller: the files that were opened, the latest first, whether it is open, and the maps.
The maps outlive the files. -/
structure Controller (θ : Type u) (κ : Type v) where
  files : List (List Packet)
  isOpen : Bool
  nextUuid : Nat
  processUuid : Nat
  threadUuids : List (θ × Nat)
  interned : List (Key κ × Nat)

namespace Controller

variable {θ : Type u} {κ : Type v}

/-- `write_trace_packet`: nothing is written to a file that is not open. -/
def write (s : Controller θ κ) (packets : List Packet) : Controller θ κ :=
  if s.isOpen then { s with files := s.files.modifyHead (· ++ packets) } else s

/-- `close`, and `open`, which may fail: the stream is not open then, and what is written is lost.
-/
def reopen (s : Controller θ κ) (opens : Bool) : Controller θ κ :=
  { s with isOpen := opens, files := if opens then [] :: s.files else s.files }

/-- `process`: the uuid of the process, which is written to the file when it is asked for the first
time. -/
def process (s : Controller θ κ) : Nat × Controller θ κ :=
  if s.processUuid = 0 then (1, { s with processUuid := 1 }.write [.process 1 "NUClear"])
  else (s.processUuid, s)

variable [DecidableEq θ] [DecidableEq κ]

/-- `thread`: the uuid of the track of a thread.  When it is asked for the first time the track and
its counter are written, under the track of the process. -/
def thread (s : Controller θ κ) (info : EventInfo θ) : Nat × Controller θ κ :=
  match s.threadUuids.lookup info.threadId with
  | some uuid => (uuid, s)
  | none =>
    let parent := s.process
    let uuid := parent.2.nextUuid
    let t := { parent.2 with
      nextUuid := uuid + 2
      threadUuids := (info.threadId, uuid) :: parent.2.threadUuids }
    (uuid, t.write
      [.thread uuid parent.1 (info.pool.getD "Non NUClear"), .counter (uuid + 1) uuid])

/-- `StringInterner::operator[]`: the id of a key, which is written with its name when it is asked
for the first time.  `name` is what `make` gives for the key. -/
def intern (s : Controller θ κ) (key : Key κ) (name : String) : Nat × Controller θ κ :=
  match s.interned.lookup key with
  | some iid => (iid, s)
  | none =>
    let iid := s.interned.countP (fun e => e.1.sameInterner key) + 1
    (iid, { s with interned := (key, iid) :: s.interned }.write [.interned (key.ref iid) name])

/-- `encode_event`: it looks up the track, the name and the categories, which may write them, and
then writes the event that refers to them. -/
def encodeEvent (s : Controller θ κ) (e : ReactionEvent θ κ) : Controller θ κ :=
  let relevant := relevantEvent e
  let ids := e.statistics.identifiers
  let thread := s.thread relevant
  let name := thread.2.intern (.eventName (ids.map Prod.fst)) (nameForId (ids.map Prod.snd))
  let reactor := name.2.intern (.category (reactorName ids)) (reactorName ids)
  let category := reactor.2.intern (.category "reaction") "reaction"
  category.2.write [.event
    { trackUuid := thread.1
      nameIid := name.1
      categoryIids := [reactor.1, category.1]
      extraCounterTrackUuid := thread.1 + 1
      logMessage := none }]

/-- `encode_log`: the same for a log message, whose text is interned too. -/
def encodeLog (s : Controller θ κ) (statistics : Statistics θ κ) (msg : LogMessage θ κ) :
    Controller θ κ :=
  let created := statistics.created
  let ids := msg.statistics.bind Statistics.identifiers
  let thread := s.thread created
  let name := thread.2.intern (.eventName (ids.map Prod.fst)) (nameForId (ids.map Prod.snd))
  let reactor := name.2.intern (.category (reactorName ids)) (reactorName ids)
  let category := reactor.2.intern (.category "log") "log"
  let body := category.2.intern (.logMessageBody msg.message) msg.message
  body.2.write [.event
    { trackUuid := thread.1
      nameIid := name.1
      categoryIids := [reactor.1, category.1]
      extraCounterTrackUuid := thread.1 + 1
      logMessage := some body.1 }]

def encode (s : Controller θ κ) : Job θ κ → Controller θ κ
  | .event e => s.encodeEvent e
  | .log statistics msg => s.encodeLog statistics msg

/-- `BeginTrace`: the file begins with a reset, and with the events of this task.  The maps are not
cleared. -/
def beginTrace (s : Controller θ κ) (opens : Bool) (statistics : Statistics θ κ) : Controller θ κ :=
  (((s.reopen opens).write [.reset]).encodeEvent ⟨.created, statistics⟩).encodeEvent
    ⟨.started, statistics⟩

end Controller

/-- The controller, whether its reactions to the events and the log messages are bound, and their
tasks that wait in its pool. -/
structure State (θ : Type u) (κ : Type v) where
  trace : Controller θ κ
  eventHandle : Bool
  logHandle : Bool
  queue : List (Job θ κ)

/-- What happens next; tracing may begin and end any number of times, and the files may fail to
open. -/
inductive Action (θ : Type u) (κ : Type v) where
  /-- `BeginTrace`, with the statistics of its task. -/
  | begin (opens logs : Bool) (statistics : Statistics θ κ)
  | finish
  /-- A `ReactionEvent` or a `LogMessage` is emitted. -/
  | emit (job : Job θ κ)
  /-- The pool runs a task. -/
  | run (k : Nat)

section

variable {θ : Type u} {κ : Type v} [DecidableEq θ] [DecidableEq κ]

def init : State θ κ := ⟨⟨[], false, 2, 0, [], []⟩, false, false, []⟩

omit [DecidableEq θ] [DecidableEq κ] in
/-- The reaction to the message is bound, so a message that is emitted now makes a task. -/
def State.bound (s : State θ κ) : Job θ κ → Bool
  | .event _ => s.eventHandle
  | .log _ _ => s.logHandle

def step (s : State θ κ) : Action θ κ → Option (State θ κ)
  | .begin opens logs statistics =>
      some { s with
        trace := s.trace.beginTrace opens statistics
        eventHandle := true
        logHandle := logs }
  | .finish =>
      some { s with
        trace := { s.trace with isOpen := false }
        eventHandle := false
        logHandle := false }
  | .emit job => if s.bound job then some { s with queue := s.queue ++ [job] } else none
  | .run k =>
      s.queue[k]?.map fun job =>
        { s with trace := s.trace.encode job, queue := s.queue.eraseIdx k }

/-- **The property**: every file is self-contained. -/
def Good (s : Controller θ κ) : Prop := ∀ file ∈ s.files, SelfContained file

/-- **The condition** on a step: a file is begun only while nothing was encoded, that is while the
process has no uuid. -/
def Keeps (s : State θ κ) : Action θ κ → Prop
  | .begin opens _ _ => opens = true → s.trace.processUuid = 0
  | _ => True

instance decidableKeeps (s : State θ κ) : (a : Action θ κ) → Decidable (Keeps s a)
  | .begin opens _ _ => inferInstanceAs (Decidable (opens = true → s.trace.processUuid = 0))
  | .finish | .emit _ | .run _ => .isTrue trivial

end

/-! ## What is known is defined in the open file -/

namespace Controller

section

variable {θ : Type u} {κ : Type v} {s t u : Controller θ κ}

/-- The references that the maps give: an event that is encoded now may use them without writing
what they mean. -/
def known (s : Controller θ κ) : List Ref :=
  (if s.processUuid = 0 then [] else [.track s.processUuid]) ++
    s.threadUuids.flatMap (fun e => [.track e.2, .track (e.2 + 1)]) ++
    s.interned.map fun e => e.1.ref e.2

/-- What the maps give is defined in the open file, so an event that uses it is understood there. -/
def Linked (s : Controller θ κ) : Prop :=
  s.isOpen = true → ∃ file rest, s.files = file :: rest ∧ s.known ⊆ file.flatMap Packet.defines

/-- The uuids of the threads are not the one of the process, and without it nothing was encoded. -/
structure Basic (s : Controller θ κ) : Prop where
  process : s.processUuid = 0 ∨ s.processUuid = 1
  known : s.processUuid = 0 → s.known = []
  next : 2 ≤ s.nextUuid

/-- What `t` has come to from `s` by writing to the open file: the maps only grow, and files that
are linked stay so. -/
structure Extends (s t : Controller θ κ) : Prop where
  isOpen : t.isOpen = s.isOpen
  known : s.known ⊆ t.known
  process : s.processUuid ≠ 0 → t.processUuid = s.processUuid
  back : Good t → Good s
  wellLinked : Good s → s.Linked → Good t ∧ t.Linked
  basic : s.Basic → t.Basic

theorem Extends.refl (s : Controller θ κ) : Extends s s where
  isOpen := rfl
  known _ h := h
  process _ := rfl
  back h := h
  wellLinked h h' := ⟨h, h'⟩
  basic h := h

theorem Extends.trans (h : Extends s t) (h' : Extends t u) : Extends s u where
  isOpen := h'.isOpen.trans h.isOpen
  known _ hr := h'.known (h.known hr)
  process hs := (h'.process (by rw [h.process hs]; exact hs)).trans (h.process hs)
  back hu := h.back (h'.back hu)
  wellLinked hg hl := (h.wellLinked hg hl).elim h'.wellLinked
  basic hs := h'.basic (h.basic hs)

@[simp] theorem isOpen_write (s : Controller θ κ) (packets : List Packet) :
    (s.write packets).isOpen = s.isOpen := by
  unfold write
  split <;> rfl

@[simp] theorem known_write (s : Controller θ κ) (packets : List Packet) :
    (s.write packets).known = s.known := by
  unfold write
  split <;> rfl

@[simp] theorem processUuid_write (s : Controller θ κ) (packets : List Packet) :
    (s.write packets).processUuid = s.processUuid := by
  unfold write
  split <;> rfl

@[simp] theorem nextUuid_write (s : Controller θ κ) (packets : List Packet) :
    (s.write packets).nextUuid = s.nextUuid := by
  unfold write
  split <;> rfl

theorem files_write (packets : List Packet) {file : List Packet} {rest : List (List Packet)}
    (hopen : s.isOpen = true) (hfiles : s.files = file :: rest) :
    (s.write packets).files = (file ++ packets) :: rest := by
  rw [write, if_pos hopen]
  show s.files.modifyHead _ = _
  rw [hfiles, List.modifyHead_cons]

theorem write_of_not_open {packets : List Packet} (hopen : s.isOpen = false) :
    s.write packets = s := by
  rw [write, hopen]
  rfl

/-- What comes first in a file is self-contained if the file is, so a file that is spoiled stays so.
-/
theorem good_of_write {packets : List Packet} (h : Good (s.write packets)) : Good s := by
  cases hopen : s.isOpen with
  | false =>
    rw [write_of_not_open hopen] at h
    exact h
  | true =>
    cases hfiles : s.files with
    | nil => exact fun file hfile => absurd (hfiles ▸ hfile) List.not_mem_nil
    | cons file rest =>
      intro file' hfile'
      rw [Good, files_write _ hopen hfiles, List.forall_mem_cons] at h
      rw [hfiles, List.mem_cons] at hfile'
      obtain rfl | hrest := hfile'
      · exact h.1.of_append
      · exact h.2 file' hrest

/-- **Packets are added**: they refer to what is known or what they define, and define what gets
known. -/
theorem extends_write {packets : List Packet} (hfiles : t.files = s.files)
    (hopen : t.isOpen = s.isOpen) (hknown : s.known ⊆ t.known)
    (hprocess : s.processUuid ≠ 0 → t.processUuid = s.processUuid) (hbasic : s.Basic → t.Basic)
    (hclosed : Closed Packet.defines Packet.refers s.known packets)
    (hnew : t.known ⊆ s.known ++ packets.flatMap Packet.defines) : Extends s (t.write packets) where
  isOpen := (isOpen_write t packets).trans hopen
  known _ hr := by
    rw [known_write]
    exact hknown hr
  process hs := (processUuid_write t packets).trans (hprocess hs)
  back h := by
    have ht := good_of_write h
    rwa [Good, hfiles] at ht
  wellLinked hgood hlinked := by
    cases hs : s.isOpen with
    | false =>
      rw [write_of_not_open (hopen.trans hs), Good, hfiles]
      exact ⟨hgood, fun h => absurd ((hopen.trans hs).symm.trans h) Bool.false_ne_true⟩
    | true =>
      obtain ⟨file, rest, hfile, hdefined⟩ := hlinked hs
      have hwritten := files_write packets (hopen.trans hs) (hfiles.trans hfile)
      rw [Good, hfile, List.forall_mem_cons] at hgood
      constructor
      · rw [Good, hwritten, List.forall_mem_cons]
        refine ⟨closed_append.mpr ⟨hgood.1, ?_⟩, hgood.2⟩
        rw [List.nil_append]
        exact hclosed.mono hdefined
      · refine fun _ => ⟨_, rest, hwritten, fun r hr => ?_⟩
        rw [known_write] at hr
        rw [List.flatMap_append, List.mem_append]
        exact (List.mem_append.mp (hnew hr)).imp_left fun h => hdefined h
  basic hs := by
    obtain ⟨hp, hk, hn⟩ := hbasic hs
    refine ⟨?_, ?_, ?_⟩
    · rwa [processUuid_write]
    · rwa [processUuid_write, known_write]
    · rwa [nextUuid_write]

/-! ## The functions of the controller -/

theorem extends_process (s : Controller θ κ) : Extends s s.process.2 := by
  unfold process
  split
  · next h =>
    refine extends_write rfl rfl ?_ (fun hs => absurd h hs) ?_
      (closed_singleton.mpr (by simp [Packet.refers])) ?_
    · simp [known, h]
    · exact fun hs => ⟨.inr rfl, fun hp => absurd hp Nat.one_ne_zero, hs.next⟩
    · simp [known, h, Packet.defines]
  · exact Extends.refl s

theorem processUuid_process (s : Controller θ κ) :
    s.process.2.processUuid ≠ 0 ∧ s.process.1 = s.process.2.processUuid := by
  unfold process
  split
  · simp
  · next h => exact ⟨h, rfl⟩

theorem mem_known_process (s : Controller θ κ) : .track s.process.1 ∈ s.process.2.known := by
  obtain ⟨hne, heq⟩ := processUuid_process s
  rw [heq, known, if_neg hne]
  simp

section

variable [DecidableEq θ]

theorem extends_thread (s : Controller θ κ) (info : EventInfo θ) : Extends s (s.thread info).2 := by
  unfold thread
  split
  · exact Extends.refl s
  · obtain ⟨hne, -⟩ := processUuid_process s
    refine (extends_process s).trans (extends_write rfl rfl ?_ (fun _ => rfl) ?_ ?_ ?_)
    · intro r hr
      simp only [known, List.flatMap_cons, List.mem_append] at hr ⊢
      tauto
    · exact fun hs => ⟨hs.process, fun h => absurd h hne, Nat.le_add_right_of_le hs.next⟩
    · refine ⟨?_, ?_, trivial⟩
      · intro r hr
        obtain rfl := List.mem_singleton.mp hr
        exact List.mem_append_left _ (mem_known_process s)
      · intro r hr
        obtain rfl := List.mem_singleton.mp hr
        simp [Packet.defines]
    · intro r hr
      simp only [known, List.flatMap_cons, List.flatMap_nil, List.mem_append,
        Packet.defines] at hr ⊢
      simp only [List.mem_cons, List.not_mem_nil] at hr ⊢
      tauto

/-- The tracks of a thread are known when it has been looked up: its own, and that of its counter.
-/
theorem mem_known_thread (s : Controller θ κ) (info : EventInfo θ) :
    .track (s.thread info).1 ∈ (s.thread info).2.known ∧
      .track ((s.thread info).1 + 1) ∈ (s.thread info).2.known := by
  have hmem {t : Controller θ κ} {e : θ × Nat} (he : e ∈ t.threadUuids) :
      .track e.2 ∈ t.known ∧ .track (e.2 + 1) ∈ t.known := by
    simp only [known, List.mem_append, List.mem_flatMap, List.mem_cons]
    exact ⟨.inl (.inr ⟨e, he, .inl rfl⟩), .inl (.inr ⟨e, he, .inr (.inl rfl)⟩)⟩
  unfold thread
  split
  · next uuid h =>
    obtain ⟨l, l', hl, -⟩ := List.lookup_eq_some_iff.mp h
    exact hmem (e := (info.threadId, uuid)) (by rw [hl]; simp)
  · rw [known_write]
    exact hmem (e := (info.threadId, _)) List.mem_cons_self

theorem processUuid_thread {s : Controller θ κ} (hs : s.Basic) (info : EventInfo θ) :
    (s.thread info).2.processUuid ≠ 0 := by
  intro h
  have hmem := (mem_known_thread s info).1
  rw [((extends_thread s info).basic hs).known h] at hmem
  exact absurd hmem List.not_mem_nil

end

section

variable [DecidableEq κ]

theorem extends_intern {s : Controller θ κ} (hs : s.processUuid ≠ 0) (key : Key κ) (name : String) :
    Extends s (s.intern key name).2 := by
  unfold intern
  split
  · exact Extends.refl s
  · refine extends_write rfl rfl ?_ (fun _ => rfl) ?_
      (closed_singleton.mpr (by simp [Packet.refers])) ?_
    · intro r hr
      simp only [known, List.map_cons, List.mem_append, List.mem_cons] at hr ⊢
      tauto
    · exact fun h => ⟨h.process, fun h => absurd h hs, h.next⟩
    · intro r hr
      simp only [known, List.map_cons, List.flatMap_cons, List.flatMap_nil,
        List.mem_append, List.mem_cons,
        Packet.defines, List.not_mem_nil] at hr ⊢
      tauto

theorem mem_known_intern (s : Controller θ κ) (key : Key κ) (name : String) :
    key.ref (s.intern key name).1 ∈ (s.intern key name).2.known := by
  have hmem {t : Controller θ κ} {e : Key κ × Nat} (he : e ∈ t.interned) : e.1.ref e.2 ∈ t.known :=
    List.mem_append_right _ (List.mem_map_of_mem he)
  unfold intern
  split
  · next iid h =>
    obtain ⟨l, l', hl, -⟩ := List.lookup_eq_some_iff.mp h
    exact hmem (e := (key, iid)) (by rw [hl]; simp)
  · rw [known_write]
    exact hmem (e := (key, _)) List.mem_cons_self

end

theorem refers_subset {e : TrackEvent} {l : List Ref} (htrack : .track e.trackUuid ∈ l)
    (hname : .eventName e.nameIid ∈ l) (hcategories : ∀ iid ∈ e.categoryIids, .category iid ∈ l)
    (hcounter : .track e.extraCounterTrackUuid ∈ l)
    (hlog : ∀ iid ∈ e.logMessage, .logMessageBody iid ∈ l) : e.refers ⊆ l := by
  intro r hr
  simp only [TrackEvent.refers, List.mem_append, List.mem_cons, List.not_mem_nil,
    or_false, List.mem_map,
    Option.mem_toList, Option.map_eq_some_iff] at hr
  obtain (((rfl | rfl) | ⟨iid, hiid, rfl⟩) | rfl) | ⟨m, hm, rfl⟩ := hr
  · exact htrack
  · exact hname
  · exact hcategories iid hiid
  · exact hcounter
  · exact hlog m hm

/-- A packet that refers to what is known. -/
theorem extends_event {s : Controller θ κ} {e : TrackEvent} (h : e.refers ⊆ s.known) :
    Extends s (s.write [.event e]) :=
  extends_write rfl rfl (fun _ hr => hr) (fun _ => rfl) (fun hs => hs)
    (closed_singleton.mpr fun _ hr => List.mem_append_left _ (h hr))
    (fun _ hr => List.mem_append_left _ hr)

variable [DecidableEq θ] [DecidableEq κ]

/-- What an event looks up: its thread, its name and its categories are known afterwards, in the
order of the code. -/
theorem extends_lookups {s : Controller θ κ} (hs : s.Basic) (info : EventInfo θ) (k₁ k₂ k₃ : Key κ)
    (n₁ n₂ n₃ : String) :
    let thread := s.thread info
    let a := thread.2.intern k₁ n₁
    let b := a.2.intern k₂ n₂
    let c := b.2.intern k₃ n₃
    (Extends s c.2 ∧ c.2.processUuid ≠ 0) ∧
      (.track thread.1 ∈ c.2.known ∧ .track (thread.1 + 1) ∈ c.2.known) ∧
      k₁.ref a.1 ∈ c.2.known ∧ k₂.ref b.1 ∈ c.2.known ∧ k₃.ref c.1 ∈ c.2.known := by
  intro thread a b c
  have hp : thread.2.processUuid ≠ 0 := processUuid_thread hs info
  have ha : Extends thread.2 a.2 := extends_intern hp k₁ n₁
  have hpa : a.2.processUuid ≠ 0 := by rwa [ha.process hp]
  have hb : Extends a.2 b.2 := extends_intern hpa k₂ n₂
  have hpb : b.2.processUuid ≠ 0 := by rwa [hb.process hpa]
  have hc : Extends b.2 c.2 := extends_intern hpb k₃ n₃
  have hthread := mem_known_thread s info
  refine ⟨⟨(((extends_thread s info).trans ha).trans hb).trans hc, by rwa [hc.process hpb]⟩,
    ⟨((ha.trans hb).trans hc).known hthread.1,
      ((ha.trans hb).trans hc).known hthread.2⟩, ?_, ?_, ?_⟩
  · exact (hb.trans hc).known (mem_known_intern _ _ _)
  · exact hc.known (mem_known_intern _ _ _)
  · exact mem_known_intern _ _ _

theorem extends_encodeEvent {s : Controller θ κ} (hs : s.Basic) (e : ReactionEvent θ κ) :
    Extends s (s.encodeEvent e) := by
  unfold encodeEvent
  extract_lets relevant ids thread name reactor category
  obtain ⟨⟨hext, -⟩, ⟨htrack, hcounter⟩, hname, hreactor, hcategory⟩ := extends_lookups hs relevant
    (.eventName (ids.map Prod.fst)) (.category (reactorName ids)) (.category "reaction")
    (nameForId (ids.map Prod.snd)) (reactorName ids) "reaction"
  refine hext.trans (extends_event (refers_subset htrack hname ?_ hcounter ?_))
  · exact List.forall_mem_cons.mpr ⟨hreactor, List.forall_mem_singleton.mpr hcategory⟩
  · exact fun m hm => absurd hm (Option.not_mem_none m)

theorem extends_encodeLog {s : Controller θ κ} (hs : s.Basic) (statistics : Statistics θ κ)
    (msg : LogMessage θ κ) : Extends s (s.encodeLog statistics msg) := by
  unfold encodeLog
  extract_lets created ids thread name reactor category body
  obtain ⟨⟨hext, hp⟩, ⟨htrack, hcounter⟩, hname, hreactor, hcategory⟩ := extends_lookups hs created
    (.eventName (ids.map Prod.fst)) (.category (reactorName ids)) (.category "log")
    (nameForId (ids.map Prod.snd)) (reactorName ids) "log"
  have hbody : Extends category.2 body.2 :=
    extends_intern hp (.logMessageBody msg.message) msg.message
  refine (hext.trans hbody).trans (extends_event (refers_subset (hbody.known htrack)
    (hbody.known hname) ?_ (hbody.known hcounter) ?_))
  · exact List.forall_mem_cons.mpr
      ⟨hbody.known hreactor, List.forall_mem_singleton.mpr (hbody.known hcategory)⟩
  · intro m hm
    obtain rfl := Option.some.inj hm
    exact mem_known_intern category.2 (.logMessageBody msg.message) msg.message

theorem extends_encode {s : Controller θ κ} (hs : s.Basic) (job : Job θ κ) :
    Extends s (s.encode job) := by
  cases job with
  | event e => exact extends_encodeEvent hs e
  | log statistics msg => exact extends_encodeLog hs statistics msg

/-! ## A file that is begun later -/

/-- No track is defined in the file, so an event in it cannot be read. -/
def Trackless (file : List Packet) : Prop := ∀ uuid, .track uuid ∉ file.flatMap Packet.defines

omit [DecidableEq θ] in
/-- An interner writes no track to the open file; it writes names only. -/
theorem trackless_intern {s : Controller θ κ} {rest : List (List Packet)} (hopen : s.isOpen = true)
    (hfiles : ∃ file, s.files = file :: rest ∧ Trackless file) (key : Key κ) (name : String) :
    ∃ file, (s.intern key name).2.files = file :: rest ∧ Trackless file := by
  obtain ⟨file, hfiles, hfile⟩ := hfiles
  unfold intern
  split
  · exact ⟨file, hfiles, hfile⟩
  · refine ⟨_, files_write _ hopen hfiles, fun uuid h => ?_⟩
    rw [List.flatMap_append, List.mem_append] at h
    obtain h | h := h
    · exact hfile uuid h
    · cases key <;> simp [Packet.defines, Key.ref] at h

/-- An event needs a track that this file does not define. -/
theorem not_good_encodeEvent {s : Controller θ κ} (hs : s.Basic) (hp : s.processUuid ≠ 0)
    (hopen : s.isOpen = true) {file : List Packet} {rest : List (List Packet)}
    (hfiles : s.files = file :: rest) (hfile : Trackless file) (e : ReactionEvent θ κ) :
    ¬ Good (s.encodeEvent e) := by
  unfold encodeEvent
  extract_lets relevant ids thread name reactor category
  intro hgood
  have hpt : thread.2.processUuid ≠ 0 := processUuid_thread hs relevant
  have hname : Extends thread.2 name.2 := extends_intern hpt _ _
  have hpn : name.2.processUuid ≠ 0 := by rwa [hname.process hpt]
  have hreactor : Extends name.2 reactor.2 := extends_intern hpn _ _
  have hpr : reactor.2.processUuid ≠ 0 := by rwa [hreactor.process hpn]
  have hcategory : Extends reactor.2 category.2 := extends_intern hpr _ _
  have hext := (hname.trans hreactor).trans hcategory
  have hopent : thread.2.isOpen = true := (extends_thread s relevant).isOpen.trans hopen
  cases hlookup : s.threadUuids.lookup relevant.threadId with
  | some uuid =>
    have hthread : thread = (uuid, s) := by
      show s.thread relevant = _
      rw [Controller.thread, hlookup]
    have hfilest : ∃ file, thread.2.files = file :: rest ∧ Trackless file := by
      rw [hthread]
      exact ⟨file, hfiles, hfile⟩
    obtain ⟨file', hfiles', hfile'⟩ := trackless_intern
      (hreactor.isOpen.trans (hname.isOpen.trans hopent))
      (trackless_intern (hname.isOpen.trans hopent) (trackless_intern hopent hfilest _ _) _ _) _ _
    rw [Good, files_write _ (hext.isOpen.trans hopent) hfiles', List.forall_mem_cons] at hgood
    have hclosed := (closed_append.mp hgood.1).2.1
    have htrack := hclosed (List.mem_cons_self : Ref.track thread.1 ∈ TrackEvent.refers _)
    simp only [List.nil_append, Packet.defines, List.append_nil] at htrack
    exact hfile' _ htrack
  | none =>
    have hprocess : s.process = (s.processUuid, s) := if_neg hp
    have hgoodt : Good thread.2 := hext.back (good_of_write hgood)
    have hthread : thread.2.files = (file ++
        [.thread s.nextUuid s.processUuid (relevant.pool.getD "Non NUClear"),
          .counter (s.nextUuid + 1) s.nextUuid]) :: rest := by
      show (s.thread relevant).2.files = _
      simp only [Controller.thread, hlookup, hprocess]
      exact files_write _ hopen hfiles
    rw [Good, hthread, List.forall_mem_cons] at hgoodt
    have hclosed := (closed_append.mp hgoodt.1).2.1
    have htrack := hclosed (List.mem_singleton_self (Ref.track s.processUuid))
    simp only [List.nil_append, Packet.defines, List.mem_append, List.mem_singleton,
      Ref.track.injEq] at htrack
    obtain htrack | heq := htrack
    · exact hfile _ htrack
    · have hnext := hs.next
      have hone := hs.process.resolve_left hp
      omega

omit [DecidableEq θ] [DecidableEq κ] in
theorem basic_reopen {s : Controller θ κ} (hs : s.Basic) (opens : Bool) :
    ((s.reopen opens).write [.reset]).Basic := by
  refine ⟨?_, ?_, ?_⟩
  · rw [processUuid_write]
    exact hs.process
  · rw [processUuid_write, known_write]
    exact hs.known
  · rw [nextUuid_write]
    exact hs.next

theorem basic_beginTrace {s : Controller θ κ} (hs : s.Basic) (opens : Bool)
    (statistics : Statistics θ κ) : (s.beginTrace opens statistics).Basic := by
  have hbasic := basic_reopen hs opens
  have hcreated := (extends_encodeEvent hbasic ⟨.created, statistics⟩).basic hbasic
  exact (extends_encodeEvent hcreated ⟨.started, statistics⟩).basic hcreated

theorem extends_beginTrace {s : Controller θ κ} (hs : s.Basic) (opens : Bool)
    (statistics : Statistics θ κ) :
    Extends ((s.reopen opens).write [.reset]) (s.beginTrace opens statistics) := by
  have hbasic := basic_reopen hs opens
  have hcreated := extends_encodeEvent hbasic ⟨.created, statistics⟩
  exact hcreated.trans (extends_encodeEvent (hcreated.basic hbasic) ⟨.started, statistics⟩)

theorem good_of_beginTrace {s : Controller θ κ} (hs : s.Basic) {opens : Bool}
    {statistics : Statistics θ κ} (h : Good (s.beginTrace opens statistics)) : Good s := by
  have hopened := good_of_write ((extends_beginTrace hs opens statistics).back h)
  cases opens with
  | false => exact hopened
  | true => exact fun file hfile => hopened file (List.mem_cons_of_mem _ hfile)

/-- **A file that begins keeps all files self-contained**, unless it opens after packets were
encoded. -/
theorem beginTrace_iff {s : Controller θ κ} (hs : s.Basic) (hgood : Good s) (opens : Bool)
    (statistics : Statistics θ κ) :
    (Good (s.beginTrace opens statistics) ↔ (opens = true → s.processUuid = 0)) ∧
      (Good (s.beginTrace opens statistics) → (s.beginTrace opens statistics).Linked) := by
  have hext := extends_beginTrace hs opens statistics
  cases hopens : opens with
  | false =>
    subst hopens
    rw [write_of_not_open rfl] at hext
    have hwellLinked := hext.wellLinked hgood fun h => absurd h Bool.false_ne_true
    exact ⟨iff_of_true hwellLinked.1 fun h => absurd h Bool.false_ne_true, fun _ => hwellLinked.2⟩
  | true =>
    subst hopens
    have hfiles : ((s.reopen true).write [.reset]).files = ([] ++ [.reset]) :: s.files :=
      files_write _ rfl rfl
    rw [List.nil_append] at hfiles
    by_cases hp : s.processUuid = 0
    · have hreset : Good ((s.reopen true).write [.reset]) := by
        rw [Good, hfiles, List.forall_mem_cons]
        exact ⟨closed_singleton.mpr (List.nil_subset _), hgood⟩
      have hknown : ((s.reopen true).write [.reset]).known = [] :=
        (known_write _ _).trans (hs.known hp)
      have hwellLinked := hext.wellLinked hreset fun _ =>
        ⟨_, _, hfiles, by rw [hknown]; exact List.nil_subset _⟩
      exact ⟨iff_of_true hwellLinked.1 fun _ => hp, fun _ => hwellLinked.2⟩
    · have hbasic := basic_reopen hs true
      have hcreated := extends_encodeEvent hbasic ⟨.created, statistics⟩
      have hbad : ¬ Good (s.beginTrace true statistics) := fun h =>
        not_good_encodeEvent hbasic (by rw [processUuid_write]; exact hp) (isOpen_write _ _) hfiles
          (fun uuid h => absurd h List.not_mem_nil) ⟨.created, statistics⟩
          ((extends_encodeEvent (hcreated.basic hbasic) ⟨.started, statistics⟩).back h)
      exact ⟨iff_of_false hbad fun h => hp (h rfl), fun h => absurd h hbad⟩

end

end Controller

/-! ## Runs -/

section

variable {θ : Type u} {κ : Type v} [DecidableEq θ] [DecidableEq κ]

omit [DecidableEq θ] [DecidableEq κ] in
/-- The invariant of all runs: as long as all files are self-contained, what the maps give is
defined in the open one. -/
structure WellLinked (s : State θ κ) : Prop where
  basic : s.trace.Basic
  linked : Good s.trace → s.trace.Linked

omit [DecidableEq θ] [DecidableEq κ] in
theorem wellLinked_init : WellLinked (init : State θ κ) :=
  ⟨⟨.inl rfl, fun _ => rfl, Nat.le_refl 2⟩, fun _ h => absurd h Bool.false_ne_true⟩

/-- What a step does to the trace files: it begins one, encodes something, or leaves them as they
are. -/
theorem step_cases {s s' : State θ κ} {a : Action θ κ} (h : step s a = some s') :
    (∃ opens logs statistics, a = .begin opens logs statistics ∧
      s'.trace = s.trace.beginTrace opens statistics) ∨
    (Keeps s a ∧ (s'.trace = { s.trace with isOpen := false } ∨ s'.trace = s.trace ∨
      ∃ job, s'.trace = s.trace.encode job)) := by
  cases a with
  | begin opens logs statistics =>
    rw [step, Option.some.injEq] at h
    subst h
    exact .inl ⟨opens, logs, statistics, rfl, by with_reducible rfl⟩
  | finish =>
    rw [step, Option.some.injEq] at h
    subst h
    exact .inr ⟨trivial, .inl rfl⟩
  | emit job =>
    rw [step] at h
    obtain ⟨-, hs'⟩ := Option.ite_none_right_eq_some.mp h
    obtain rfl := Option.some.inj hs'
    exact .inr ⟨trivial, .inr (.inl rfl)⟩
  | run k =>
    rw [step] at h
    obtain ⟨job, -, rfl⟩ := Option.map_eq_some_iff.mp h
    exact .inr ⟨trivial, .inr (.inr ⟨job, by with_reducible rfl⟩)⟩

theorem good_of_step {s s' : State θ κ} {a : Action θ κ} (hs : WellLinked s)
    (h : step s a = some s') (hgood : Good s'.trace) : Good s.trace := by
  obtain ⟨opens, logs, statistics, -, htrace⟩ | ⟨-, htrace | htrace | ⟨job, htrace⟩⟩ := step_cases h
  · exact Controller.good_of_beginTrace hs.basic (htrace ▸ hgood)
  · rw [htrace] at hgood
    exact hgood
  · rw [htrace] at hgood
    exact hgood
  · rw [htrace] at hgood
    exact (Controller.extends_encode hs.basic job).back hgood

/-- What a step does, from files that are self-contained: they stay so if and only if the step meets
the condition. -/
theorem good_step {s s' : State θ κ} {a : Action θ κ} (hs : WellLinked s) (hgood : Good s.trace)
    (h : step s a = some s') :
    (Good s'.trace ↔ Keeps s a) ∧ (Good s'.trace → s'.trace.Linked) := by
  obtain ⟨opens, logs, statistics, rfl, htrace⟩ | ⟨hkeeps, htrace | htrace | ⟨job, htrace⟩⟩ :=
    step_cases h
  · rw [htrace]
    exact Controller.beginTrace_iff hs.basic hgood opens statistics
  · rw [htrace]
    exact ⟨iff_of_true hgood hkeeps, fun _ h => absurd h Bool.false_ne_true⟩
  · rw [htrace]
    exact ⟨iff_of_true hgood hkeeps, hs.linked⟩
  · have hwellLinked := (Controller.extends_encode hs.basic job).wellLinked hgood (hs.linked hgood)
    rw [htrace]
    exact ⟨iff_of_true hwellLinked.1 hkeeps, fun _ => hwellLinked.2⟩

theorem WellLinked.step {s s' : State θ κ} {a : Action θ κ} (hs : WellLinked s)
    (h : TraceController.step s a = some s') : WellLinked s' := by
  refine ⟨?_, fun hgood => (good_step hs (good_of_step hs h hgood) h).2 hgood⟩
  obtain ⟨opens, logs, statistics, -, htrace⟩ | ⟨-, htrace | htrace | ⟨job, htrace⟩⟩ := step_cases h
  · rw [htrace]
    exact Controller.basic_beginTrace hs.basic opens statistics
  · rw [htrace]
    exact ⟨hs.basic.process, hs.basic.known, hs.basic.next⟩
  · rw [htrace]
    exact hs.basic
  · rw [htrace]
    exact (Controller.extends_encode hs.basic job).basic hs.basic

end

/-- What is recorded of a task of the trace pool. -/
def traced : Statistics Bool Unit :=
  let info : EventInfo Bool := ⟨false, some "Trace"⟩
  ⟨none, info, info, info⟩

end TraceController
end Extension
end NUClear
