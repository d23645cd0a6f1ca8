import NUClear.Scheduler.Group.Rank

/-!
# Locks over several groups (`CombinedLock.cpp`, `Scheduler::get_groups_lock`)

A task over several groups has a handle in each of them.  `get_groups_lock` makes the handles, in
the order of the set of groups, and `CombinedLock::lock` locks them in the same order.  It stops at
the first handle that does not lock and keeps the ones that it has.

The groups never look at each other, so what one operation does to a handle of another task is what
its calls on that group do to it (`kept_lockAll`, `kept_destroyAll`).

## What is proved

* `GroupsCalm`: every group is as it is between two operations that come one after the other
  (`Group.Calm`), and its queue is sorted.  Every call on a group keeps this.
* `KeptAt`: what an operation leaves of a handle that is not its own.  The handle stays in its queue
  with its rank; if it was locked it stays locked, and if it is told something there is an event
  that says so.
* `kept_lockAll`, `kept_destroyAll`: by induction on the list of handles, from what one
  `GroupLock::lock` and one `~GroupLock` do (`keptAt_handleLock`, `keptAt_handleDestroy`).
* `CombinedLock.lock_snd`: `lock()` returns true exactly when each of its handles would lock on its
  own.  This needs the handles to be in different groups, which a set of groups gives.
* `queued_lockGroups`, `lockGroups_handle`, `wouldLock_of_lockGroups`: new handles join the queues
  behind those of the tasks before, and let no other handle lock.
-/

namespace NUClear
namespace Scheduler

open Foundation

/-- The identity of a group (a `GroupDescriptor*`), by which the groups of a task are ordered. -/
abbrev GroupId := ℕ

/-- The groups, by identity. -/
abbrev Groups := GroupId → Group

/-- `std::set<std::shared_ptr<const util::GroupDescriptor>>`, visited in increasing order. -/
structure GroupSet where
  descs : List GroupId
  sorted : descs.Pairwise (· < ·)

/-- The sets of no group, of one group and of two groups. -/
def GroupSet.empty : GroupSet := ⟨[], .nil⟩

def GroupSet.single (g : GroupId) : GroupSet := ⟨[g], List.pairwise_singleton _ g⟩

def GroupSet.pair {g g' : GroupId} (h : g < g') : GroupSet := ⟨[g, g'], List.pairwise_pair.mpr h⟩

theorem GroupSet.nodup (s : GroupSet) : s.descs.Nodup := s.sorted.imp fun h => h.ne

/-- `GroupLock`: one handle of one group; the rest of it is kept in the group. -/
structure GroupLock where
  group : GroupId
  handle : ℕ
  deriving DecidableEq, Repr

/-- `CombinedLock`: the handles of a task over several groups, in the order in which they are locked
and released. -/
structure CombinedLock where
  locks : List GroupLock
  deriving DecidableEq, Repr

/-- The loop of `get_groups_lock`: one new handle in each group. -/
def addLocks (groups : Groups) (a : Group.LockArgs) : List GroupId → Groups × List GroupLock
  | [] => (groups, [])
  | desc :: descs =>
      let lock : GroupLock := ⟨desc, (groups desc).nextHandle⟩
      let (groups, locks) := addLocks (Function.update groups desc ((groups desc).lock a)) a descs
      (groups, lock :: locks)

/-- `get_groups_lock`: a lock with a handle in each group, or none for a task over no group. -/
def getGroupsLock (groups : Groups) (a : Group.LockArgs) (descs : GroupSet) :
    Groups × Option CombinedLock :=
  if descs.descs = [] then (groups, none)
  else
    let (groups, locks) := addLocks groups a descs.descs
    (groups, some ⟨locks⟩)

/-- The loop of `CombinedLock::lock`.  It stops at the first handle that does not lock; those before
it stay locked. -/
def lockAll (groups : Groups) : List GroupLock → Groups × Bool
  | [] => (groups, true)
  | l :: locks =>
      let (group, locked) := (groups l.group).handleLock l.handle
      let groups := Function.update groups l.group group
      if locked then lockAll groups locks else (groups, false)

/-- `CombinedLock::lock`: all groups in their order, until one of them is full. -/
def CombinedLock.lock (lock : CombinedLock) (groups : Groups) : Groups × Bool :=
  lockAll groups lock.locks

/-- The destructors of some `GroupLock`s, one after the other, with the callbacks of all of them. -/
def destroyAll (groups : Groups) : List GroupLock → Groups × List Event
  | [] => (groups, [])
  | l :: locks =>
      let (group, events) := (groups l.group).handleDestroy l.handle
      let (groups, events') := destroyAll (Function.update groups l.group group) locks
      (groups, events ++ events')

/-- `~CombinedLock`: the handles are taken out of their groups, in the order of the groups. -/
def CombinedLock.destroy (lock : CombinedLock) (groups : Groups) : Groups × List Event :=
  destroyAll groups lock.locks

/-- The handle of a `GroupLock`, in the groups as they are. -/
def handleAt (groups : Groups) (l : GroupLock) : LockHandle := (groups l.group).handles l.handle

/-- The `GroupLock` is in the queue of its group. -/
def Queued (groups : Groups) (l : GroupLock) : Prop := l.handle ∈ (groups l.group).queue

/-- `CombinedLock::lock()` would return `true`: every handle would lock on its own, in the groups as
they are. -/
def CombinedLock.wouldLock (lock : CombinedLock) (groups : Groups) : Bool :=
  lock.locks.all fun l => Group.wouldLock (groups l.group) l.handle

/-- Every group is calm, and its queue is sorted: what the operations on one group keep, for all of
them. -/
structure GroupsCalm (c : GroupId → ℕ) (groups : Groups) : Prop where
  calm : ∀ g, Group.Calm (c g) (groups g)
  ranked : ∀ g, Group.Ranked (groups g)

variable {c : GroupId → ℕ} {groups groups' : Groups} {g : GroupId} {x : Group} {ev : List Event}
  {call : Group.Call} {l l' : GroupLock} {locks : List GroupLock}

theorem groupsCalm_make (c : GroupId → ℕ) : GroupsCalm c fun g => Group.make (c g) :=
  ⟨fun g => Group.calm_make (c g), fun g => Group.ranked_make (c g)⟩

theorem GroupsCalm.quiet (h : GroupsCalm c groups) (g : GroupId) : Group.Quiet (c g) (groups g) :=
  (h.calm g).quiet

/-- One call on one group. -/
theorem GroupsCalm.update (h : GroupsCalm c groups)
    (hp : (groups g).perform call = some (x, ev)) : GroupsCalm c (Function.update groups g x) := by
  constructor <;> intro g' <;> by_cases hg : g' = g
  · subst hg
    rw [Function.update_self]
    exact (h.calm g').perform hp
  · rw [Function.update_of_ne hg]
    exact h.calm g'
  · subst hg
    rw [Function.update_self]
    exact (h.ranked g').perform (h.quiet g') hp
  · rw [Function.update_of_ne hg]
    exact h.ranked g'

/-! ## What the operations leave of a handle -/

/-- What an operation leaves of the handle of a `GroupLock` that is not its own: its place in the
queue, its rank and its lock, and an event for whoever may lock now and is to be told. -/
def KeptAt (groups groups' : Groups) (ev : List Event) (l : GroupLock) : Prop :=
  Group.Kept (groups l.group) (groups' l.group) ev l.handle

theorem KeptAt.refl (hq : Queued groups l) : KeptAt groups groups ev l := Group.Kept.refl hq

/-- A call on one group is nothing to the handles of the others, whatever it does. -/
theorem keptAt_update (hq : Queued groups l)
    (hk : l.group = g → Group.Kept (groups l.group) x ev l.handle) :
    KeptAt groups (Function.update groups g x) ev l := by
  rw [KeptAt]
  by_cases hg : l.group = g
  · have h := hk hg
    subst hg
    rwa [Function.update_self]
  · rw [Function.update_of_ne hg]
    exact Group.Kept.refl hq

theorem KeptAt.queued (h : KeptAt groups groups' ev l) : Queued groups' l := h.queue

theorem KeptAt.rank (h : KeptAt groups groups' ev l) :
    (handleAt groups' l).rank = (handleAt groups l).rank := Group.Kept.rank h

theorem perform_handleLock (hq : Queued groups l) :
    ∃ ev, (groups l.group).perform (.handleLock l.handle) =
      some (((groups l.group).handleLock l.handle).1, ev) := by
  simp only [Group.perform]
  rw [if_pos (show l.handle ∈ (groups l.group).queue from hq)]
  exact ⟨_, rfl⟩

theorem perform_handleDestroy (hq : Queued groups l) :
    (groups l.group).perform (.handleDestroy l.handle) =
      some (((groups l.group).handleDestroy l.handle).1,
        ((groups l.group).handleDestroy l.handle).2) := by
  simp only [Group.perform]
  rw [if_pos (show l.handle ∈ (groups l.group).queue from hq)]

theorem handle_ne (h : l' ≠ l) (hg : l'.group = l.group) : l'.handle ≠ l.handle := fun hh =>
  h (by cases l; cases l'; simp_all)

/-- One `GroupLock::lock`. -/
theorem keptAt_handleLock (ev : List Event) (h : GroupsCalm c groups) (hl : Queued groups l)
    (hl' : Queued groups l') (hne : l' ≠ l) : KeptAt groups
      (Function.update groups l.group ((groups l.group).handleLock l.handle).1) ev l' := by
  refine keptAt_update hl' fun hg => ?_
  rw [← hg]
  refine Group.kept_of_handleLock _ (h.quiet _) hl' ?_ (handle_ne hne hg)
  rw [hg]
  exact hl

/-- One `~GroupLock`. -/
theorem keptAt_handleDestroy (h : GroupsCalm c groups) (hl : Queued groups l)
    (hl' : Queued groups l') (hne : l' ≠ l) : KeptAt groups
      (Function.update groups l.group ((groups l.group).handleDestroy l.handle).1)
      ((groups l.group).handleDestroy l.handle).2 l' := by
  refine keptAt_update hl' fun hg => ?_
  rw [← hg]
  refine Group.kept_of_handleDestroy (h.quiet _) hl' ?_ (handle_ne hne hg)
  rw [hg]
  exact hl

/-- The other `GroupLock`s stay in their queues. -/
theorem queued_handleLock (hl' : Queued groups l') : Queued
    (Function.update groups l.group ((groups l.group).handleLock l.handle).1) l' := by
  rw [Queued]
  by_cases hg : l'.group = l.group
  · rw [hg, Function.update_self, Group.handleLock_queue, ← hg]
    exact hl'
  · rw [Function.update_of_ne hg]
    exact hl'

theorem lockAll_cons : lockAll groups (l :: locks) =
    if ((groups l.group).handleLock l.handle).2 then
      lockAll (Function.update groups l.group ((groups l.group).handleLock l.handle).1) locks
    else (Function.update groups l.group ((groups l.group).handleLock l.handle).1, false) := rfl

theorem destroyAll_cons : destroyAll groups (l :: locks) =
    ((destroyAll (Function.update groups l.group
        ((groups l.group).handleDestroy l.handle).1) locks).1,
      ((groups l.group).handleDestroy l.handle).2 ++
        (destroyAll (Function.update groups l.group
          ((groups l.group).handleDestroy l.handle).1) locks).2) := rfl

/-- What one `GroupLock::lock` preserves, `CombinedLock::lock` preserves, by induction on its
handles. -/
theorem lockAll_preserves (locks : List GroupLock) {P : Groups → Prop} (hP : P groups)
    (hstep : ∀ groups, P groups → ∀ l ∈ locks,
      P (Function.update groups l.group ((groups l.group).handleLock l.handle).1)) :
    P (lockAll groups locks).1 := by
  induction locks generalizing groups with
  | nil => exact hP
  | cons l locks ih =>
    have hl := hstep groups hP l (List.mem_cons_self ..)
    rw [lockAll_cons]
    split_ifs
    · exact ih hl fun groups hP l hl => hstep groups hP l (List.mem_cons_of_mem _ hl)
    · exact hl

/-- **`CombinedLock::lock` keeps the groups calm and the handles of the others**, whether it locks
or stops half-way. -/
theorem kept_lockAll (h : GroupsCalm c groups) (hl : ∀ l ∈ locks, Queued groups l)
    (hl' : Queued groups l') (hn : l' ∉ locks) :
    GroupsCalm c (lockAll groups locks).1 ∧ KeptAt groups (lockAll groups locks).1 [] l' := by
  have hall := lockAll_preserves locks
    (P := fun gs => GroupsCalm c gs ∧ (∀ l ∈ locks, Queued gs l) ∧ KeptAt groups gs [] l')
    ⟨h, hl, .refl hl'⟩ ?_
  · exact ⟨hall.1, hall.2.2⟩
  · intro gs hgs l hmem
    obtain ⟨hc, hq, hk⟩ := hgs
    obtain ⟨ev, hp⟩ := perform_handleLock (hq l hmem)
    have hne : l' ≠ l := by
      rintro rfl
      exact hn hmem
    exact ⟨hc.update hp, fun l₁ hl₁ => queued_handleLock (hq l₁ hl₁),
      hk.trans (keptAt_handleLock [] hc (hq l hmem) hk.queued hne)⟩

theorem CombinedLock.wouldLock_cons :
    CombinedLock.wouldLock ⟨l :: locks⟩ groups =
      (Group.wouldLock (groups l.group) l.handle && CombinedLock.wouldLock ⟨locks⟩ groups) :=
  List.all_cons

theorem CombinedLock.wouldLock_iff {lock : CombinedLock} : lock.wouldLock groups = true ↔
    ∀ l ∈ lock.locks, Group.wouldLock (groups l.group) l.handle = true :=
  List.all_eq_true

theorem CombinedLock.exists_not_wouldLock {lock : CombinedLock}
    (h : lock.wouldLock groups = false) :
    ∃ l ∈ lock.locks, Group.wouldLock (groups l.group) l.handle = false := by
  obtain ⟨l, hl, hno⟩ := List.all_eq_false.mp h
  exact ⟨l, hl, by simpa using hno⟩

/-- `CombinedLock::lock` locks when all its handles would lock, one for each group. -/
theorem CombinedLock.lock_snd {lock : CombinedLock} (hn : (lock.locks.map GroupLock.group).Nodup)
    (hl : ∀ l ∈ lock.locks, Queued groups l) : (lock.lock groups).2 = lock.wouldLock groups := by
  obtain ⟨locks⟩ := lock
  show (lockAll groups locks).2 = _
  induction locks generalizing groups with
  | nil => rfl
  | cons l locks ih =>
    rw [List.map_cons, List.nodup_cons] at hn
    have hself := (Group.handleLock_self (hl l (List.mem_cons_self ..))).2.2.1
    rw [lockAll_cons, CombinedLock.wouldLock_cons, ← hself]
    -- the other handles are in other groups
    have hother : ∀ l' ∈ locks, Function.update groups l.group
        ((groups l.group).handleLock l.handle).1 l'.group = groups l'.group := by
      intro l' hl'
      refine Function.update_of_ne ?_ _ _
      intro hg
      exact hn.1 (List.mem_map.mpr ⟨l', hl', hg⟩)
    split_ifs with hlock
    · rw [ih hn.2 fun l' hl' => queued_handleLock (hl l' (List.mem_cons_of_mem _ hl')), hlock,
        Bool.true_and]
      refine Bool.eq_iff_iff.mpr ?_
      rw [CombinedLock.wouldLock_iff, CombinedLock.wouldLock_iff]
      exact forall₂_congr fun l' hl' => by rw [hother l' hl']
    · rw [show ((groups l.group).handleLock l.handle).2 = false by simpa using hlock,
        Bool.false_and]

/-- **`~CombinedLock` keeps the groups calm and the handles of the others**, and takes its own ones
out of the queues. -/
theorem kept_destroyAll (h : GroupsCalm c groups) (hn : locks.Nodup)
    (hl : ∀ l ∈ locks, Queued groups l) :
    GroupsCalm c (destroyAll groups locks).1 ∧
      (∀ l', Queued groups l' → l' ∉ locks →
        KeptAt groups (destroyAll groups locks).1 (destroyAll groups locks).2 l') ∧
      ∀ l', Queued (destroyAll groups locks).1 l' ↔ Queued groups l' ∧ l' ∉ locks := by
  induction locks generalizing groups with
  | nil => exact ⟨h, fun l' hl' _ => .refl hl', fun l' => by simp [destroyAll]⟩
  | cons l locks ih =>
    obtain ⟨hnot, hn⟩ := List.nodup_cons.mp hn
    have hq := hl l (List.mem_cons_self ..)
    set groups₁ := Function.update groups l.group ((groups l.group).handleDestroy l.handle).1
      with hgroups₁
    have hqueued : ∀ l', Queued groups₁ l' ↔ Queued groups l' ∧ l' ≠ l := by
      intro l'
      rw [Queued, Queued, hgroups₁]
      by_cases hg : l'.group = l.group
      · rw [hg, Function.update_self, Group.handleDestroy_queue,
          (h.quiet _).nodup.mem_erase_iff]
        constructor
        · rintro ⟨hne, hmem⟩
          exact ⟨hmem, fun heq => hne (by rw [heq])⟩
        · rintro ⟨hmem, hne⟩
          exact ⟨handle_ne hne hg, hmem⟩
      · rw [Function.update_of_ne hg]
        exact ⟨fun hmem => ⟨hmem, fun heq => hg (by rw [heq])⟩, And.left⟩
    have hkept : ∀ l', Queued groups l' → l' ≠ l → KeptAt groups groups₁
        ((groups l.group).handleDestroy l.handle).2 l' := fun l' hl' hne =>
      keptAt_handleDestroy h hq hl' hne
    obtain ⟨hcalm, hrest, hiff⟩ := ih (h.update (perform_handleDestroy hq)) hn
      fun l' hl' => (hqueued l').mpr ⟨hl l' (List.mem_cons_of_mem _ hl'), by
        rintro rfl
        exact hnot hl'⟩
    rw [destroyAll_cons]
    refine ⟨hcalm, fun l' hl' hne => ?_, fun l' => ?_⟩
    · rw [List.mem_cons, not_or] at hne
      have hk := hkept l' hl' hne.1
      exact hk.trans (hrest l' hk.queued hne.2)
    · rw [hiff, hqueued, List.mem_cons, not_or, and_assoc]

/-! ## New handles -/

/-- The groups after `get_groups_lock`: each group of the task has one handle more. -/
def lockGroups (groups : Groups) (a : Group.LockArgs) (descs : List GroupId) : Groups :=
  fun g => if g ∈ descs then (groups g).lock a else groups g

/-- The handles of the new lock, with the next number of each group. -/
def newLocks (groups : Groups) (descs : List GroupId) : List GroupLock :=
  descs.map fun desc => ⟨desc, (groups desc).nextHandle⟩

/-- The loop of `get_groups_lock` makes its handles in groups as they were. -/
theorem addLocks_eq {a : Group.LockArgs} {descs : List GroupId} (hn : descs.Nodup) :
    addLocks groups a descs = (lockGroups groups a descs, newLocks groups descs) := by
  induction descs generalizing groups with
  | nil =>
    have hsame : lockGroups groups a [] = groups := by
      ext1 g
      rw [lockGroups, if_neg (List.not_mem_nil)]
    rw [addLocks, hsame, newLocks, List.map_nil]
  | cons desc descs ih =>
    obtain ⟨hnot, hn⟩ := List.nodup_cons.mp hn
    have hother : ∀ g ∈ descs, Function.update groups desc ((groups desc).lock a) g = groups g :=
      fun g hg => Function.update_of_ne (by
        rintro rfl
        exact hnot hg) _ _
    rw [addLocks]
    simp only [ih hn, newLocks, List.map_cons, Prod.mk.injEq, List.cons.injEq, true_and]
    constructor
    · ext1 g
      rw [lockGroups, lockGroups]
      by_cases hg : g = desc
      · subst hg
        rw [if_neg hnot, if_pos (List.mem_cons_self ..), Function.update_self]
      · rw [Function.update_of_ne hg]
        simp only [List.mem_cons, hg, false_or]
    · exact List.map_congr_left fun g hg => by rw [hother g hg]

section Lock

variable {a : Group.LockArgs} {descs : List GroupId}

/-- Making handles keeps the groups calm: a new handle is put in its place in the queue, and has no
token. -/
theorem GroupsCalm.lockGroups (h : GroupsCalm c groups) (a : Group.LockArgs)
    (descs : List GroupId) : GroupsCalm c (lockGroups groups a descs) := by
  have hone : ∀ g, (groups g).perform (.lock a) = some ((groups g).lock a, []) := fun _ => rfl
  have heq : ∀ g, Scheduler.lockGroups groups a descs g =
      if g ∈ descs then (groups g).lock a else groups g := fun _ => rfl
  constructor <;> intro g <;> rw [heq] <;> split_ifs with hg
  · exact (h.calm g).perform (hone g)
  · exact h.calm g
  · exact (h.ranked g).perform (h.quiet g) (hone g)
  · exact h.ranked g

/-- The new handles join the queues. -/
theorem queued_lockGroups (hl : Queued groups l ∨ l.group ∈ descs ∧
    l = ⟨l.group, (groups l.group).nextHandle⟩) : Queued (lockGroups groups a descs) l := by
  rw [Queued, lockGroups]
  split_ifs with hg
  · rcases hl with hl | ⟨-, heq⟩
    · exact Group.mem_lock_queue.mpr (Or.inr hl)
    · exact Group.mem_lock_queue.mpr (Or.inl (congrArg GroupLock.handle heq))
  · exact hl.resolve_right fun h => hg h.1

theorem queued_of_lockGroups (hl : Queued (lockGroups groups a descs) l) : Queued groups l ∨
    l.group ∈ descs ∧ l = ⟨l.group, (groups l.group).nextHandle⟩ := by
  rw [Queued, lockGroups] at hl
  split_ifs at hl with hg
  · rcases Group.mem_lock_queue.mp hl with heq | hl
    · exact Or.inr ⟨hg, by rw [← heq]⟩
    · exact Or.inl hl
  · exact Or.inl hl

/-- A handle from before a new lock is as it was. -/
theorem lockGroups_handle (hc : GroupsCalm c groups) (hl : Queued groups l) :
    (handleAt (lockGroups groups a descs) l).rank = (handleAt groups l).rank ∧
      (handleAt (lockGroups groups a descs) l).locked = (handleAt groups l).locked ∧
      (handleAt (lockGroups groups a descs) l).notify = (handleAt groups l).notify := by
  rw [handleAt, handleAt, lockGroups]
  split_ifs with hg
  · have hne : l.handle ≠ (groups l.group).nextHandle := by
      intro heq
      exact (hc.quiet l.group).notMem_nextHandle (heq ▸ hl)
    rw [Group.lock_rank, Group.lock_handles_eq, Group.lockHandles_of_ne _ _ hne]
    exact ⟨rfl, rfl, rfl⟩
  · exact ⟨rfl, rfl, rfl⟩

/-- A handle of the new lock has the rank of its task, and is not locked. -/
theorem lockGroups_new {g : GroupId} (hg : g ∈ descs) :
    handleAt (lockGroups groups a descs) ⟨g, (groups g).nextHandle⟩ =
      ⟨a.taskId, a.priority, false, false, a.notify⟩ := by
  rw [handleAt, lockGroups, if_pos hg]
  exact Group.lock_handles_self _ _

/-- New handles let no other handle lock that would not have locked before. -/
theorem wouldLock_of_lockGroups (hc : GroupsCalm c groups) (hl : Queued groups l)
    (hw : Group.wouldLock (lockGroups groups a descs l.group) l.handle = true) :
    Group.wouldLock (groups l.group) l.handle = true := by
  rw [lockGroups] at hw
  split_ifs at hw
  · exact (Group.wouldLock_of_lock (hc.quiet _) hl).1 hw
  · exact hw

end Lock

/-! ## Frames -/

theorem lockAll_of_notMem (hg : ∀ l ∈ locks, l.group ≠ g) : (lockAll groups locks).1 g = groups g :=
  lockAll_preserves _ (P := fun gs => gs g = groups g) rfl fun gs hgs l hl => by
    rw [Function.update_of_ne (hg l hl).symm]
    exact hgs

theorem destroyAll_of_notMem (hg : ∀ l ∈ locks, l.group ≠ g) :
    (destroyAll groups locks).1 g = groups g := by
  induction locks generalizing groups with
  | nil => rfl
  | cons l locks ih =>
    rw [destroyAll_cons]
    change (destroyAll _ locks).1 g = _
    rw [ih fun l' hl' => hg l' (List.mem_cons_of_mem _ hl'),
      Function.update_of_ne (hg l (List.mem_cons_self ..)).symm]

end Scheduler
end NUClear
