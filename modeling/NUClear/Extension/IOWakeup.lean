import NUClear.Foundation.Interleaving

/-!
# The wake-up of the poll thread (`IOController_Posix.ipp`)

The poll thread holds `notifier.mutex` while it is in `::poll`.  A handler that wants it out of
there sets `wake_requested`, writes a byte to the notify pipe, takes the mutex and resets
`wake_requested`.  The poll thread reads one byte for each time that the pipe was readable, and it
does so with `tasks_mutex` held.

The byte of a handler is there as long as the handler waits.  The handlers for tasks hold
`tasks_mutex` from before they write until after they have had `notifier.mutex`, so nothing is read
meanwhile.  The handler for shutdown does not hold it, but it resets `running` before it writes, so
the poll thread reads its byte, if at all, at the end of the last round in which it polls.  The flag
`wake_requested` is not needed for this.

* `PollPoint`, `WakePoint`, `Op`: the points of the poll thread and of the handlers, just before an
  access to a mutex, a flag or the pipe.
* `program`: their accesses.  Any number of handlers are in progress at a time.
* `Access`: the accesses one branch at a time.
* `Quiet`: the invariant.  The mutexes are held by whoever is at a point inside, and the bytes of
  those that wait are in the pipe.
* `Quiet.access`: it is kept by every access; `Access.unread` and `Access.waits` say who reads and
  who has written.
* `no_deadlock_of_reaches`: a handler does not wait for a poll thread that is in `::poll` with no
  byte in the pipe.
-/

namespace NUClear
namespace Extension
namespace IOWakeup

open Foundation

/-! ## The accesses -/

/-- What the threads share: the two mutexes, the flags of the loop and of the notifier, and the
bytes in its pipe. -/
structure Memory where
  /-- `tasks_mutex` is held. -/
  tasksMutex : Bool
  /-- `notifier.mutex` is held. -/
  notifierMutex : Bool
  wakeRequested : Bool
  /-- The bytes in the notify pipe. -/
  unread : ℕ
  running : Bool
  dirty : Bool
  deriving DecidableEq, Repr

/-- Where the poll thread is, access by access, in the order of its loop. -/
inductive PollPoint where
  | loadRunning
  | loadDirty
  /-- `rebuild_list` waits for `tasks_mutex`. -/
  | lockRebuild
  /-- And holds it. -/
  | rebuild
  /-- It waits for `notifier.mutex`. -/
  | lockNotifier
  /-- `wake_pending`, with the mutex held. -/
  | loadWake
  /-- In `::poll`, with the mutex held. -/
  | polling
  /-- The mutex is to be released; `readable` is the event of the pipe, if it has polled. -/
  | unlockNotifier (polled : Option Bool)
  /-- It waits for `tasks_mutex` to process the events. -/
  | lockTasks (readable : Bool)
  /-- And holds it. -/
  | process (readable : Bool)
  | unlockTasks
  deriving DecidableEq, Repr

/-- The handlers for tasks, which hold `tasks_mutex` while they wake the poll thread up. -/
inductive TaskHandler where
  | configure
  | finished
  | unbind
  deriving DecidableEq, Repr

/-- Where a handler is that wakes the poll thread up: it sets the flag, writes a byte, waits until
the poll thread has left `::poll`, and resets the flag. -/
inductive WakePoint where
  /-- The constructor of `NotifierWakeGuard`. -/
  | arm
  | signal
  /-- It waits for `notifier.mutex`. -/
  | lock
  /-- It resets `wake_requested`, with the mutex held. -/
  | clear
  /-- It has changed what the mutex protects, and releases it. -/
  | unlock
  deriving DecidableEq, Repr

/-- The operations in progress: the loop of the poll thread, and any number of handlers. -/
inductive Op where
  | poll (p : PollPoint)
  /-- A handler for tasks waits for `tasks_mutex`. -/
  | lockTasks (h : TaskHandler)
  /-- It changes the tasks. -/
  | body (h : TaskHandler)
  /-- It wakes the poll thread up; without a handler for tasks this is that for shutdown. -/
  | wake (h : Option TaskHandler) (w : WakePoint)
  | unlockTasks
  /-- The handler for shutdown resets `running`. -/
  | storeRunning
  deriving DecidableEq, Repr

/-- What the environment decides about an access; all of it is free. -/
structure Choice where
  /-- Another descriptor has an event. -/
  other : Bool
  /-- `IOFinished` finds a task whose events are unmasked. -/
  unmasks : Bool
  /-- The list of descriptors has become dirty. -/
  dirties : Bool
  deriving DecidableEq, Repr

/-- The next access of the poll thread.  It gives none where it has to wait: for a mutex, or in
`::poll` for an event. -/
def advancePoll (m : Memory) (c : Choice) : PollPoint → Option (Memory × PollPoint)
  | .loadRunning => some (m, if m.running then .loadDirty else .loadRunning)
  | .loadDirty => some (m, if m.dirty then .lockRebuild else .lockNotifier)
  | .lockRebuild => if m.tasksMutex then none else some ({ m with tasksMutex := true }, .rebuild)
  | .rebuild => some ({ m with tasksMutex := false, dirty := false }, .lockNotifier)
  | .lockNotifier =>
      if m.notifierMutex then none else some ({ m with notifierMutex := true }, .loadWake)
  | .loadWake => some (m, if m.wakeRequested then .unlockNotifier none else .polling)
  | .polling =>
      -- `::poll` returns when a descriptor has an event
      if 0 < m.unread ∨ c.other = true then
        some (m, .unlockNotifier (some (decide (0 < m.unread))))
      else none
  | .unlockNotifier none => some ({ m with notifierMutex := false }, .loadRunning)
  | .unlockNotifier (some readable) =>
      some ({ m with notifierMutex := false }, .lockTasks readable)
  | .lockTasks readable =>
      if m.tasksMutex then none else some ({ m with tasksMutex := true }, .process readable)
  | .process readable =>
      some ({ m with
        unread := if readable then m.unread - 1 else m.unread
        dirty := m.dirty || c.dirties }, .unlockTasks)
  | .unlockTasks => some ({ m with tasksMutex := false }, .loadRunning)

/-- The next access of a handler that wakes the poll thread up; without a next point it goes on
behind the guard. -/
def advanceWake (m : Memory) : WakePoint → Option (Memory × Option WakePoint)
  | .arm => some ({ m with wakeRequested := true }, some .signal)
  | .signal => some ({ m with unread := m.unread + 1 }, some .lock)
  | .lock => if m.notifierMutex then none else some ({ m with notifierMutex := true }, some .clear)
  | .clear => some ({ m with wakeRequested := false }, some .unlock)
  | .unlock => some ({ m with notifierMutex := false }, none)

/-- The handler goes on after it has woken the poll thread up: one for tasks still holds
`tasks_mutex`. -/
def afterWake (h : Option TaskHandler) : Option WakePoint → Option Op
  | some w => some (.wake h w)
  | none => h.map fun _ => .unlockTasks

/-- The next access of an operation, with what it makes of the memory; none while it has to wait. -/
def advance (m : Memory) (o : Op) (c : Choice) : Option (Outcome Memory Op Unit) :=
  match o with
  | .poll p => (advancePoll m c p).map fun x => ⟨x.1, some (.poll x.2), []⟩
  | .lockTasks h =>
      if m.tasksMutex then none else some ⟨{ m with tasksMutex := true }, some (.body h), []⟩
  | .body .finished =>
      -- without a task there is nothing to do, and with a closed one `dirty` is set
      if c.unmasks then some ⟨m, some (.wake (some .finished) .arm), []⟩
      else some ⟨{ m with dirty := m.dirty || c.dirties }, some .unlockTasks, []⟩
  | .body h => some ⟨{ m with dirty := true }, some (.wake (some h) .arm), []⟩
  | .wake h w => (advanceWake m w).map fun x => ⟨x.1, afterWake h x.2, []⟩
  | .unlockTasks => some ⟨{ m with tasksMutex := false }, none, []⟩
  | .storeRunning => some ⟨{ m with running := false }, some (.wake none .arm), []⟩

/-- The code.  A call is an event for a handler, without one for tasks the shutdown. -/
def program : Program Memory (Option TaskHandler) Op Choice Unit where
  call m _ h := some ⟨m, some (h.elim .storeRunning .lockTasks), []⟩
  advance := advance

/-- The poll thread has started, nobody holds a mutex, and the list is to be built. -/
def start : Machine Memory Op Unit :=
  ⟨⟨false, false, false, 0, true, true⟩, [.poll .loadRunning], []⟩

/-! ## What an access does -/

/-- The accesses of the poll thread, one constructor for each, with what they change and what they
must find. -/
inductive PollAccess (m : Memory) : PollPoint → Memory → PollPoint → Prop
  | loadRunning (h : m.running = true) : PollAccess m .loadRunning m .loadDirty
  | stopped (h : m.running = false) : PollAccess m .loadRunning m .loadRunning
  | loadDirty (p : PollPoint) (h : p = .lockRebuild ∨ p = .lockNotifier) :
      PollAccess m .loadDirty m p
  | lockRebuild (h : m.tasksMutex = false) :
      PollAccess m .lockRebuild { m with tasksMutex := true } .rebuild
  | rebuild : PollAccess m .rebuild { m with tasksMutex := false, dirty := false } .lockNotifier
  | lockNotifier (h : m.notifierMutex = false) :
      PollAccess m .lockNotifier { m with notifierMutex := true } .loadWake
  | loadWake (p : PollPoint) (h : p = .unlockNotifier none ∨ p = .polling) :
    PollAccess m .loadWake m p
  | polling (polled : Option Bool) : PollAccess m .polling m (.unlockNotifier polled)
  | unlockWoken :
      PollAccess m (.unlockNotifier none) { m with notifierMutex := false } .loadRunning
  | unlockPolled (readable : Bool) : PollAccess m (.unlockNotifier (some readable))
      { m with notifierMutex := false } (.lockTasks readable)
  | lockTasks (readable : Bool) (h : m.tasksMutex = false) :
      PollAccess m (.lockTasks readable) { m with tasksMutex := true } (.process readable)
  | process (readable : Bool) (unread : ℕ) (dirty : Bool) : PollAccess m (.process readable)
      { m with unread := unread, dirty := dirty } .unlockTasks
  | unlockTasks : PollAccess m .unlockTasks { m with tasksMutex := false } .loadRunning

/-- The accesses of a handler that wakes the poll thread up, one constructor for each. -/
inductive WakeAccess (m : Memory) : WakePoint → Memory → Option WakePoint → Prop
  | arm : WakeAccess m .arm { m with wakeRequested := true } (some .signal)
  | signal : WakeAccess m .signal { m with unread := m.unread + 1 } (some .lock)
  | lock (h : m.notifierMutex = false) :
      WakeAccess m .lock { m with notifierMutex := true } (some .clear)
  | clear : WakeAccess m .clear { m with wakeRequested := false } (some .unlock)
  | unlock : WakeAccess m .unlock { m with notifierMutex := false } none

/-- The accesses of all operations.  The invariant is shown over these; what the environment decides
only says which of them is taken. -/
inductive Access (m : Memory) : Op → Memory → Option Op → Prop
  | poll {p p' : PollPoint} {m' : Memory} (h : PollAccess m p m' p') :
      Access m (.poll p) m' (some (.poll p'))
  | lockTasks (k : TaskHandler) (h : m.tasksMutex = false) :
      Access m (.lockTasks k) { m with tasksMutex := true } (some (.body k))
  | body (k : TaskHandler) (dirty : Bool) :
      Access m (.body k) { m with dirty := dirty } (some (.wake (some k) .arm))
  | quit (k : TaskHandler) (dirty : Bool) :
      Access m (.body k) { m with dirty := dirty } (some .unlockTasks)
  | wake (k : Option TaskHandler) {w : WakePoint} {w' : Option WakePoint} {m' : Memory}
      (h : WakeAccess m w m' w') : Access m (.wake k w) m' (afterWake k w')
  | unlockTasks : Access m .unlockTasks { m with tasksMutex := false } none
  | storeRunning : Access m .storeRunning { m with running := false } (some (.wake none .arm))

section

variable {m m' : Memory} {o : Op} {c : Choice} {r : Outcome Memory Op Unit}

theorem pollAccess_of_advancePoll {p p' : PollPoint} (h : advancePoll m c p = some (m', p')) :
    PollAccess m p m' p' := by
  cases p with
  | loadRunning =>
    obtain ⟨rfl, rfl⟩ := Prod.mk.inj (Option.some.inj h)
    split_ifs with hr
    · exact .loadRunning hr
    · exact .stopped (Bool.eq_false_iff.mpr hr)
  | loadDirty =>
    obtain ⟨rfl, rfl⟩ := Prod.mk.inj (Option.some.inj h)
    exact .loadDirty _ (ite_eq_or_eq ..)
  | lockRebuild =>
    rw [advancePoll] at h
    split_ifs at h with hm
    obtain ⟨rfl, rfl⟩ := Prod.mk.inj (Option.some.inj h)
    exact .lockRebuild (Bool.eq_false_iff.mpr hm)
  | rebuild =>
    obtain ⟨rfl, rfl⟩ := Prod.mk.inj (Option.some.inj h)
    exact .rebuild
  | lockNotifier =>
    rw [advancePoll] at h
    split_ifs at h with hm
    obtain ⟨rfl, rfl⟩ := Prod.mk.inj (Option.some.inj h)
    exact .lockNotifier (Bool.eq_false_iff.mpr hm)
  | loadWake =>
    obtain ⟨rfl, rfl⟩ := Prod.mk.inj (Option.some.inj h)
    exact .loadWake _ (ite_eq_or_eq ..)
  | polling =>
    rw [advancePoll] at h
    split_ifs at h
    obtain ⟨rfl, rfl⟩ := Prod.mk.inj (Option.some.inj h)
    exact .polling _
  | unlockNotifier polled =>
    cases polled <;> obtain ⟨rfl, rfl⟩ := Prod.mk.inj (Option.some.inj h)
    · exact .unlockWoken
    · exact .unlockPolled _
  | lockTasks readable =>
    rw [advancePoll] at h
    split_ifs at h with hm
    obtain ⟨rfl, rfl⟩ := Prod.mk.inj (Option.some.inj h)
    exact .lockTasks readable (Bool.eq_false_iff.mpr hm)
  | process readable =>
    obtain ⟨rfl, rfl⟩ := Prod.mk.inj (Option.some.inj h)
    exact .process readable _ _
  | unlockTasks =>
    obtain ⟨rfl, rfl⟩ := Prod.mk.inj (Option.some.inj h)
    exact .unlockTasks

theorem wakeAccess_of_advanceWake {w : WakePoint} {w' : Option WakePoint}
    (h : advanceWake m w = some (m', w')) : WakeAccess m w m' w' := by
  cases w with
  | arm =>
    obtain ⟨rfl, rfl⟩ := Prod.mk.inj (Option.some.inj h)
    exact .arm
  | signal =>
    obtain ⟨rfl, rfl⟩ := Prod.mk.inj (Option.some.inj h)
    exact .signal
  | lock =>
    rw [advanceWake] at h
    split_ifs at h with hm
    obtain ⟨rfl, rfl⟩ := Prod.mk.inj (Option.some.inj h)
    exact .lock (Bool.eq_false_iff.mpr hm)
  | clear =>
    obtain ⟨rfl, rfl⟩ := Prod.mk.inj (Option.some.inj h)
    exact .clear
  | unlock =>
    obtain ⟨rfl, rfl⟩ := Prod.mk.inj (Option.some.inj h)
    exact .unlock

/-- **What an access does**: every one that the code can take is one of these. -/
theorem access_of_advance (h : advance m o c = some r) : Access m o r.mem r.next := by
  cases o with
  | poll p =>
    obtain ⟨⟨m', p'⟩, hx, rfl⟩ := Option.map_eq_some_iff.mp h
    exact .poll (pollAccess_of_advancePoll hx)
  | lockTasks k =>
    rw [advance] at h
    split_ifs at h with hm
    obtain rfl := Option.some.inj h
    exact .lockTasks k (Bool.eq_false_iff.mpr hm)
  | body k =>
    cases k with
    | finished =>
      rw [advance] at h
      split_ifs at h <;> obtain rfl := Option.some.inj h
      · exact .body .finished m.dirty
      · exact .quit .finished _
    | configure =>
      obtain rfl := Option.some.inj h
      exact .body .configure true
    | unbind =>
      obtain rfl := Option.some.inj h
      exact .body .unbind true
  | wake k w =>
    obtain ⟨⟨m', w'⟩, hx, rfl⟩ := Option.map_eq_some_iff.mp h
    exact .wake k (wakeAccess_of_advanceWake hx)
  | unlockTasks =>
    obtain rfl := Option.some.inj h
    exact .unlockTasks
  | storeRunning =>
    obtain rfl := Option.some.inj h
    exact .storeRunning

end

/-! ## The invariant -/

/-- The operation holds `tasks_mutex`: the poll thread while it rebuilds or processes, a handler for
tasks from its body on. -/
def Op.holdsTasks : Op → Bool
  | .poll .rebuild => true
  | .poll (.process _) => true
  | .poll .unlockTasks => true
  | .body _ => true
  | .wake (some _) _ => true
  | .unlockTasks => true
  | _ => false

def Op.isPoll : Op → Bool
  | .poll _ => true
  | _ => false

/-- The poll thread has loaded `running`, and has not read a byte since; so a byte that was there is
still there. -/
def Op.beforeRead : Op → Bool
  | .poll .loadRunning => false
  | .poll .unlockTasks => false
  | .poll _ => true
  | _ => false

/-- The handler waits for `notifier.mutex`; it has set the flag and written its byte. -/
def Op.waits : Op → Bool
  | .wake _ .lock => true
  | _ => false

/-- The handler for shutdown has reset `running`, so the poll thread will find it so in the next
round. -/
def Op.hasStopped : Op → Bool
  | .wake none _ => true
  | _ => false

/-- The operations agree with the memory, and the bytes of those that wait are in the pipe. -/
structure Quiet (m : Memory) (ops : List Op) : Prop where
  onePoll : HeldByOne Op.isPoll true ops
  tasks : HeldByOne Op.holdsTasks m.tasksMutex ops
  stopped : ∀ o ∈ ops, o.hasStopped = true → m.running = false
  /-- A handler of the tasks that waits has its byte in the pipe. -/
  fedTasks : ∀ o ∈ ops, o.waits = true → o.holdsTasks = true → 0 < m.unread
  /-- So has one for shutdown, unless the poll thread has read it. -/
  fedShutdown : ∀ o ∈ ops, o.waits = true → o.hasStopped = true → ∀ p ∈ ops, p.beforeRead = true →
    0 < m.unread

section

variable {m m' : Memory} {o p : Op} {next : Option Op} {pre post ops : List Op}

/-- What an access does to `tasks_mutex`: it takes it when it is free, keeps it, or gives it back.
-/
theorem Access.tasks (h : Access m o m' next) (hm : o.holdsTasks = true → m.tasksMutex = true) :
    m.tasksMutex = o.holdsTasks ∧ m'.tasksMutex = next.any Op.holdsTasks ∨
      o.holdsTasks = next.any Op.holdsTasks ∧ m'.tasksMutex = m.tasksMutex := by
  cases h with
  | poll h =>
    cases h with
    | loadDirty p h => rcases h with rfl | rfl <;> exact .inr ⟨rfl, rfl⟩
    | loadWake p h => rcases h with rfl | rfl <;> exact .inr ⟨rfl, rfl⟩
    | lockRebuild h => exact .inl ⟨h, rfl⟩
    | rebuild => exact .inl ⟨hm rfl, rfl⟩
    | lockTasks readable h => exact .inl ⟨h, rfl⟩
    | unlockTasks => exact .inl ⟨hm rfl, rfl⟩
    | _ => exact .inr ⟨rfl, rfl⟩
  | lockTasks k h => exact .inl ⟨h, rfl⟩
  | body k dirty | quit k dirty => exact .inr ⟨rfl, rfl⟩
  | wake k h => cases k <;> cases h <;> exact .inr ⟨rfl, rfl⟩
  | unlockTasks => exact .inl ⟨hm rfl, rfl⟩
  | storeRunning => exact .inr ⟨rfl, rfl⟩

theorem Access.isPoll (h : Access m o m' next) : o.isPoll = next.any Op.isPoll := by
  cases h with
  | wake k h => cases k <;> cases h <;> rfl
  | _ => rfl

/-- `running` is only reset, and by the handler for shutdown. -/
theorem Access.running (h : Access m o m' next) (hm : m.running = false) : m'.running = false := by
  cases h with
  | poll h => cases h <;> exact hm
  | wake k h => cases h <;> exact hm
  | storeRunning => rfl
  | _ => exact hm

theorem Access.hasStopped (h : Access m o m' next) (hp : next = some p) (hs : p.hasStopped = true) :
    o.hasStopped = true ∨ m'.running = false := by
  cases h with
  | wake k h =>
    cases k with
    | none => exact .inl rfl
    | some k => cases h <;> obtain rfl := Option.some.inj hp <;> exact absurd hs Bool.false_ne_true
  | storeRunning => exact .inr rfl
  | unlockTasks => exact nomatch hp
  | _ =>
    obtain rfl := Option.some.inj hp
    exact absurd hs Bool.false_ne_true

/-- A byte is read only by the poll thread, with `tasks_mutex` held. -/
theorem Access.unread (h : Access m o m' next) : m.unread ≤ m'.unread ∨
    o.isPoll = true ∧ o.holdsTasks = true ∧ next.any Op.beforeRead = false := by
  cases h with
  | poll h =>
    cases h with
    | process readable unread dirty => exact .inr ⟨rfl, rfl, rfl⟩
    | _ => exact .inl le_rfl
  | wake k h =>
    cases h with
    | signal => exact .inl (Nat.le_succ _)
    | _ => exact .inl le_rfl
  | _ => exact .inl le_rfl

/-- A handler that begins to wait has written its byte in the access before. -/
theorem Access.waits (h : Access m o m' next) (hp : next = some p) (hw : p.waits = true) :
    0 < m'.unread := by
  cases h with
  | wake k h =>
    cases h with
    | signal => exact Nat.succ_pos _
    | unlock =>
      cases k with
      | none => exact nomatch hp
      | some k =>
        cases hp
        exact absurd hw Bool.false_ne_true
    | _ =>
      cases hp
      exact absurd hw Bool.false_ne_true
  | unlockTasks => exact nomatch hp
  | _ =>
    cases hp
    exact absurd hw Bool.false_ne_true

/-- The poll thread polls in a round in which it has found `running` set. -/
theorem Access.beforeRead (h : Access m o m' next) (hp : next = some p)
    (hb : p.beforeRead = true) : o.beforeRead = true ∨ m.running = true := by
  cases h with
  | poll h =>
    cases h with
    | loadRunning h => exact .inr h
    | stopped h => cases hp; exact absurd hb Bool.false_ne_true
    | unlockTasks => cases hp; exact absurd hb Bool.false_ne_true
    | _ => exact .inl rfl
  | wake k h => cases k <;> cases h <;> cases hp <;> exact absurd hb Bool.false_ne_true
  | unlockTasks => exact nomatch hp
  | _ =>
    cases hp
    exact absurd hb Bool.false_ne_true

theorem Op.isPoll_of_beforeRead (h : p.beforeRead = true) : p.isPoll = true := by
  cases p with
  | poll p => rfl
  | _ => exact absurd h Bool.false_ne_true

/-- **An access keeps the invariant.**  A byte is read only by the poll thread with `tasks_mutex`
held, so while no handler for tasks waits; and before it polls again it looks at `running`. -/
theorem Quiet.access (h : Quiet m (pre ++ o :: post)) (ha : Access m o m' next) :
    Quiet m' (pre ++ (next.toList ++ post)) where
  onePoll := h.onePoll.access (.inr ⟨ha.isPoll, rfl⟩)
  tasks := h.tasks.access (ha.tasks fun ho => (h.tasks.held ho).1)
  stopped p hp hs := by
    rcases mem_access hp with hp | hp
    · exact ha.running (h.stopped p (mem_of_mem_append hp) hs)
    · rcases ha.hasStopped hp hs with ho | hm
      · exact ha.running (h.stopped o List.mem_append_cons_self ho)
      · exact hm
  fedTasks p hp hw hh := by
    rcases mem_access hp with hp | hp
    · have hpos := h.fedTasks p (mem_of_mem_append hp) hw hh
      rcases ha.unread with hle | ⟨-, hholds, -⟩
      · exact hpos.trans_le hle
      · -- who reads holds the mutex that the handler holds
        exact absurd ((h.tasks.held hholds).2 p hp) (by rw [hh]; exact Bool.false_ne_true.symm)
    · exact ha.waits hp hw
  fedShutdown p hp hw hs q hq hb := by
    rcases mem_access hp with hp | hp
    · have hp' : p ∈ pre ++ o :: post := mem_of_mem_append hp
      rcases mem_access hq with hq | hq
      · have hpos := h.fedShutdown p hp' hw hs q (mem_of_mem_append hq) hb
        rcases ha.unread with hle | ⟨hpoll, -, -⟩
        · exact hpos.trans_le hle
        · -- there is one poll thread
          have hother := (h.onePoll.held hpoll).2 q hq
          rw [Op.isPoll_of_beforeRead hb] at hother
          exact absurd hother Bool.false_ne_true.symm
      · rcases ha.beforeRead hq hb with ho | hrunning
        · have hpos := h.fedShutdown p hp' hw hs o List.mem_append_cons_self ho
          rcases ha.unread with hle | ⟨-, -, hnone⟩
          · exact hpos.trans_le hle
          · rw [hq, Option.any_some, hb] at hnone
            exact absurd hnone Bool.false_ne_true.symm
        · rw [h.stopped p hp' hs] at hrunning
          exact absurd hrunning Bool.false_ne_true
    · exact ha.waits hp hw

/-- A handler starts, and holds nothing yet. -/
theorem Quiet.call (h : Quiet m ops) (k : Option TaskHandler) :
    Quiet m (k.elim .storeRunning .lockTasks :: ops) := by
  have hnew : ∀ holds : Op → Bool, holds (k.elim .storeRunning .lockTasks) = false →
      ∀ locked, HeldByOne holds locked ops →
        HeldByOne holds locked (k.elim .storeRunning .lockTasks :: ops) := by
    intro holds hno locked hops
    rw [HeldByOne, List.countP_cons_of_neg (by rw [hno]; exact Bool.false_ne_true)]
    exact hops
  have hwaits : (k.elim Op.storeRunning .lockTasks).waits = false := by cases k <;> rfl
  have hstopped : (k.elim Op.storeRunning .lockTasks).hasStopped = false := by cases k <;> rfl
  have hbefore : (k.elim Op.storeRunning .lockTasks).beforeRead = false := by cases k <;> rfl
  refine ⟨hnew _ (by cases k <;> rfl) _ h.onePoll, hnew _ (by cases k <;> rfl) _ h.tasks,
    ?_, ?_, ?_⟩
  · refine List.forall_mem_cons.mpr ⟨fun hs => ?_, h.stopped⟩
    exact absurd (hstopped.symm.trans hs) Bool.false_ne_true
  · refine List.forall_mem_cons.mpr ⟨fun hw => ?_, h.fedTasks⟩
    exact absurd (hwaits.symm.trans hw) Bool.false_ne_true
  · refine List.forall_mem_cons.mpr ⟨fun hw => ?_, fun p hp hw hs => ?_⟩
    · exact absurd (hwaits.symm.trans hw) Bool.false_ne_true
    · refine List.forall_mem_cons.mpr ⟨fun hb => ?_, h.fedShutdown p hp hw hs⟩
      exact absurd (hbefore.symm.trans hb) Bool.false_ne_true

theorem quiet_start : Quiet start.mem start.ops where
  onePoll := rfl
  tasks := rfl
  stopped o ho hs := by
    rw [List.mem_singleton.mp ho] at hs
    exact absurd hs Bool.false_ne_true
  fedTasks o ho hw := by
    rw [List.mem_singleton.mp ho] at hw
    exact absurd hw Bool.false_ne_true
  fedShutdown o ho hw := by
    rw [List.mem_singleton.mp ho] at hw
    exact absurd hw Bool.false_ne_true

theorem quiet_of_reaches {s : Machine Memory Op Unit} (h : Reaches program.step Always start s) :
    Quiet s.mem s.ops := by
  refine Program.invariant (I := fun s => Quiet s.mem s.ops) h quiet_start ?_ ?_
  · intro m ops tr k r hquiet _ hr
    obtain rfl := Option.some.inj hr
    exact hquiet.call k
  · intro m pre o post tr c r hquiet _ hr
    exact hquiet.access (access_of_advance hr)

/-- **No deadlock**: while a handler waits for `notifier.mutex`, the poll thread is not in `::poll`
with no byte in the pipe. -/
theorem no_deadlock_of_reaches {s : Machine Memory Op Unit}
    (h : Reaches program.step Always start s) (k : Option TaskHandler) :
    ¬ (.wake k .lock ∈ s.ops ∧ .poll .polling ∈ s.ops ∧ s.mem.unread = 0) := by
  rintro ⟨hwait, hpoll, hzero⟩
  have hquiet := quiet_of_reaches h
  have hpos : 0 < s.mem.unread := by
    cases k with
    | some k => exact hquiet.fedTasks _ hwait rfl rfl
    | none => exact hquiet.fedShutdown _ hwait rfl rfl _ hpoll rfl
  omega

end

/-- The poll thread goes into `::poll`, and a handler for a configuration writes, so that the poll
can return. -/
def configures : List (Action (Option TaskHandler) Choice) :=
  let c : Choice := ⟨false, false, false⟩
  [.advance 0 c, .advance 0 c, .advance 0 c, .advance 0 c, .advance 0 c, .advance 0 c,
    .call (some .configure), .advance 0 c, .advance 0 c, .advance 0 c, .advance 0 c]

theorem no_deadlock_of_reaches_configures : ∃ s, exec program.step start configures = some s ∧
    .wake (some .configure) .lock ∈ s.ops ∧ .poll .polling ∈ s.ops ∧ s.mem.unread ≠ 0 := by
  have hrun : (exec program.step start configures).any (fun s =>
      decide (.wake (some .configure) .lock ∈ s.ops ∧ .poll .polling ∈ s.ops)) = true := by decide
  obtain ⟨s, hs, hmem⟩ := (Option.any_eq_true _ _).mp hrun
  obtain ⟨hwait, hpoll⟩ := of_decide_eq_true hmem
  refine ⟨s, hs, hwait, hpoll, fun hzero => ?_⟩
  exact no_deadlock_of_reaches (reaches_always_of_exec hs) (some .configure) ⟨hwait, hpoll, hzero⟩

end IOWakeup
end Extension
end NUClear
