import Mathlib.Data.Finset.Max
import NUClear.Scheduler.CombinedLock

/-!
# Tasks that wait for several groups

The system here is the scheduler as far as deadlocks go: the groups, the tasks over several groups
with their `CombinedLock`s, and the tasks over one group, which are seen only through the fast paths
of their groups.

A handle waits for the tokens that others hold, and for the handles in front of it.  The fixed order
in which `CombinedLock::lock` visits the groups does not rule out a circle: a lock that has its
first group and waits in its second one can be overtaken there by a new lock of a higher priority,
which in turn waits for the first group.  What rules it out is the order of the ranks.  As long as
nobody waits for a token of an incomplete lock of lower rank (`NoInversion`), the first lock of all
can always go on.

The groups keep this up by themselves, except when a new lock is made.  `LeavesRoom` is the
condition that a group still has tokens for the new handle and for all those in front of an
incomplete lock.

* `Linked`: whose handles are in the queues.  A handle is of one task, and a task has one handle in
  each of its groups.
* `Orderly.fast`, `Orderly.lock`, `Orderly.release`, `Orderly.create`: the four kinds of steps.  The
  first three change nothing about the handles of the others but what `Kept` allows;
  `NoInversion.create` is where the condition is used.
* `exists_lock_of_waiting`: when no lock is complete and no `RunningLock` exists, the waiting task
  of the highest rank would lock.  Every token is free or held by an incomplete lock of a lower
  rank, and the latter is an inversion.
* `deadlock_of_overtakenWhileWaiting`: two tasks that wait for each other.
-/

namespace NUClear
namespace Scheduler

open Foundation

/-- A task over several groups, with its lock. -/
structure LockedTask where
  task : ReactionTask
  lock : CombinedLock
  deriving DecidableEq, Repr

/-- The groups, and the tasks that have a `CombinedLock`, as they wait in their pools or run. -/
structure LockSystem where
  groups : Groups
  tasks : List LockedTask

namespace LockSystem

/-- The operations, each of them indivisible, in any order and for any number of tasks. -/
inductive Action where
  /-- `Scheduler::get_groups_lock` for a new task over two or more groups. -/
  | create (task : ReactionTask) (pool : PoolId) (descs : GroupSet)
  /-- `CombinedLock::lock` of a task. -/
  | lock (taskId : ℕ)
  /-- `~CombinedLock` of a task. -/
  | release (taskId : ℕ)
  /-- The fast path of one group, for the tasks over one group. -/
  | fast (group : GroupId) (call : Group.Call)

def start (c : GroupId → ℕ) : LockSystem := ⟨fun g => Group.make (c g), []⟩

/-- The arguments with which `get_groups_lock` calls `Group::lock`: the task, by its id and its
priority, and its pool. -/
def lockArgs (task : ReactionTask) (pool : PoolId) : Group.LockArgs :=
  ⟨task.id, task.priority, pool⟩

def step (s : LockSystem) : Action → Option LockSystem
  | .create task pool descs =>
      -- the ids of tasks are unique
      if descs.descs.length < 2 ∨ ∃ t ∈ s.tasks, t.task.id = task.id then none
      else
        match getGroupsLock s.groups (lockArgs task pool) descs with
        | (_, none) => none
        | (groups, some lock) => some ⟨groups, s.tasks ++ [⟨task, lock⟩]⟩
  | .lock taskId =>
      match s.tasks.find? fun t => t.task.id = taskId with
      | none => none
      | some t => some { s with groups := (t.lock.lock s.groups).1 }
  | .release taskId =>
      match s.tasks.find? fun t => t.task.id = taskId with
      | none => none
      | some t => some ⟨(t.lock.destroy s.groups).1, s.tasks.filter fun u => u.task.id ≠ taskId⟩
  | .fast group call =>
      if call.isFast then
        match (s.groups group).perform call with
        | none => none
        | some (g, _) => some { s with groups := Function.update s.groups group g }
      else none

/-- The `CombinedLock` is fully acquired: the task has a token of every one of its groups. -/
def acquired (s : LockSystem) (t : LockedTask) : Bool :=
  t.lock.locks.all fun l => (handleAt s.groups l).locked

/-- A new lock leaves room in front of every incomplete lock that has one of its groups: the group
has a token for each handle that waits there, and one for the new handle. -/
def LeavesRoom (s : LockSystem) : Action → Prop
  | .create task pool descs => ∀ t ∈ s.tasks, s.acquired t = false → ∀ l ∈ t.lock.locks,
      l.group ∈ descs.descs → (handleAt s.groups l).locked = true →
      LockHandle.before ⟨task.id, task.priority, false, false, pool⟩ (handleAt s.groups l) = true →
      Group.demand (s.groups l.group).handles l.handle (s.groups l.group).queue + 1 ≤
        (s.groups l.group).tokens
  | _ => True

instance (s : LockSystem) : ∀ a : Action, Decidable (LeavesRoom s a)
  | .create task pool descs => inferInstanceAs (Decidable (∀ t ∈ s.tasks, s.acquired t = false →
      ∀ l ∈ t.lock.locks, l.group ∈ descs.descs → (handleAt s.groups l).locked = true →
      LockHandle.before ⟨task.id, task.priority, false, false, pool⟩ (handleAt s.groups l) = true →
      Group.demand (s.groups l.group).handles l.handle (s.groups l.group).queue + 1 ≤
        (s.groups l.group).tokens))
  | .lock _ => .isTrue trivial
  | .release _ => .isTrue trivial
  | .fast _ _ => .isTrue trivial

/-! ## Whose handles are in the queues -/

/-- Where the handles of a task stand in the queues: by priority, and by id for one priority.  It is
the same in all groups. -/
def rank (t : ReactionTask) : ℤ ×ₗ ℕ := toLex (-t.priority, t.id)

/-- The handles in the queues are those of the tasks: each task has one in each of its groups, with
its rank. -/
structure Linked (s : LockSystem) : Prop where
  ids : (s.tasks.map fun t => t.task.id).Nodup
  groups : ∀ t ∈ s.tasks, (t.lock.locks.map GroupLock.group).Nodup
  handle : ∀ t ∈ s.tasks, ∀ l ∈ t.lock.locks,
    Queued s.groups l ∧ (handleAt s.groups l).rank = rank t.task
  owner : ∀ l, Queued s.groups l → ∃ t ∈ s.tasks, l ∈ t.lock.locks

/-- **Nobody waits for a token of an incomplete lock of lower rank**: where an incomplete lock has
locked a handle, the handles in front of it in that group would lock, too. -/
def NoInversion (s : LockSystem) : Prop :=
  ∀ t ∈ s.tasks, s.acquired t = false → ∀ l ∈ t.lock.locks, (handleAt s.groups l).locked = true →
    ∀ l', Queued s.groups l' → l'.group = l.group → (handleAt s.groups l').locked = false →
      (handleAt s.groups l').rank < (handleAt s.groups l).rank →
        Group.wouldLock (s.groups l'.group) l'.handle = true

/-- What holds in every state: the groups are calm, the handles are linked to the tasks, and there
is no inversion. -/
structure Orderly (c : GroupId → ℕ) (s : LockSystem) : Prop where
  groupsCalm : GroupsCalm c s.groups
  linked : Linked s
  noInversion : NoInversion s

variable {c : GroupId → ℕ} {s s' : LockSystem} {t u : LockedTask} {l l' : GroupLock}

theorem Linked.eq_of_id (h : Linked s) (ht : t ∈ s.tasks) (hu : u ∈ s.tasks)
    (hid : t.task.id = u.task.id) : t = u :=
  List.inj_on_of_nodup_map h.ids ht hu hid

theorem Linked.eq_of_rank (h : Linked s) (ht : t ∈ s.tasks) (hu : u ∈ s.tasks)
    (hr : rank t.task = rank u.task) : t = u :=
  h.eq_of_id ht hu (congrArg (fun x => (ofLex x).2) hr)

/-- A handle is of one task only. -/
theorem Linked.eq_of_mem (h : Linked s) (ht : t ∈ s.tasks) (hu : u ∈ s.tasks)
    (hlt : l ∈ t.lock.locks) (hlu : l ∈ u.lock.locks) : t = u :=
  h.eq_of_rank ht hu ((h.handle t ht l hlt).2.symm.trans (h.handle u hu l hlu).2)

/-- A task has one handle in a group. -/
theorem Linked.eq_of_group (h : Linked s) (ht : t ∈ s.tasks) (hl : l ∈ t.lock.locks)
    (hl' : l' ∈ t.lock.locks) (hg : l.group = l'.group) : l = l' :=
  List.inj_on_of_nodup_map (h.groups t ht) hl hl' hg

theorem find_task {id : ℕ} (hf : s.tasks.find? (fun t => t.task.id = id) = some t) :
    t ∈ s.tasks ∧ t.task.id = id :=
  ⟨List.mem_of_find?_eq_some hf, by simpa using List.find?_some hf⟩

/-! ## The steps -/

/-- The handles of a task are kept, so the task is as complete as before the operation. -/
theorem acquired_of_kept (hk : ∀ l ∈ t.lock.locks,
    (handleAt s'.groups l).locked = (handleAt s.groups l).locked) :
    s'.acquired t = s.acquired t := by
  rw [acquired, acquired, Bool.eq_iff_iff, List.all_eq_true, List.all_eq_true]
  exact forall₂_congr fun l hl => by rw [hk l hl]

/-- The start: no group has a handle. -/
theorem orderly_start (c : GroupId → ℕ) : Orderly c (start c) := by
  refine ⟨groupsCalm_make c, ⟨List.nodup_nil, ?_, ?_, ?_⟩, ?_⟩
  · exact fun t ht => absurd ht (List.not_mem_nil)
  · exact fun t ht => absurd ht (List.not_mem_nil)
  · exact fun l hl => absurd hl (List.not_mem_nil)
  · exact fun t ht => absurd ht (List.not_mem_nil)

/-- A call on the fast path of a group, which never lets a task take the token of a handle that
waits. -/
theorem Orderly.fast {g : GroupId} {x : Group} {ev : List Event} {call : Group.Call}
    (h : Orderly c s) (hf : call.isFast = true) (hp : (s.groups g).perform call = some (x, ev)) :
    Orderly c { s with groups := Function.update s.groups g x } := by
  obtain ⟨hc, hlink, hinv⟩ := h
  set s' : LockSystem := { s with groups := Function.update s.groups g x } with hs'
  have hx : s'.groups g = x := Function.update_self ..
  have hother : ∀ g', g' ≠ g → s'.groups g' = s.groups g' :=
    fun g' hg => Function.update_of_ne hg ..
  have hkept : ∀ l, Queued s.groups l → KeptAt s.groups s'.groups ev l := by
    intro l hl
    refine keptAt_update hl fun hg => ?_
    rw [← hg] at hp
    exact Group.kept_of_fast _ (hc.quiet _) hf hp hl
  have hqueued : ∀ l, Queued s'.groups l ↔ Queued s.groups l := by
    intro l
    rw [Queued, Queued]
    by_cases hg : l.group = g
    · rw [hg, hx, Group.queue_of_fast (hc.quiet g) hf hp]
    · rw [hother _ hg]
  refine ⟨hc.update hp, ⟨hlink.ids, hlink.groups, fun t ht l hl => ?_, fun l hl => ?_⟩, ?_⟩
  · obtain ⟨hq, hr⟩ := hlink.handle t ht l hl
    exact ⟨(hqueued l).mpr hq, (hkept l hq).rank.trans hr⟩
  · exact hlink.owner l ((hqueued l).mp hl)
  · intro t ht hpart l hl hlk l' hl' hg hlk' hlt
    have hk := hkept l' ((hqueued l').mp hl')
    have hkl := hkept l (hlink.handle t ht l hl).1
    have hpart' : s.acquired t = false := by
      rw [← acquired_of_kept fun l hl => (hkept l (hlink.handle t ht l hl).1).locked]
      exact hpart
    refine hk.keeps (hinv t ht hpart' l hl ?_ l' ((hqueued l').mp hl') hg ?_ ?_)
    · exact hkl.locked.symm.trans hlk
    · exact hk.locked.symm.trans hlk'
    · rwa [← hkl.rank, ← hk.rank]

/-- One `GroupLock::lock` of a task: it gets a token only in front of nobody who waits with a better
rank. -/
theorem Orderly.handleLock (h : Orderly c s) (ht : t ∈ s.tasks) (hl : l ∈ t.lock.locks) :
    Orderly c { s with groups := (Function.update s.groups l.group
      ((s.groups l.group).handleLock l.handle).1) } := by
  obtain ⟨hc, hlink, hinv⟩ := h
  have hq := (hlink.handle t ht l hl).1
  obtain ⟨ev, hp⟩ := perform_handleLock hq
  set s' : LockSystem := { s with groups := (Function.update s.groups l.group
    ((s.groups l.group).handleLock l.handle).1) } with hs'
  have hself : s'.groups l.group = ((s.groups l.group).handleLock l.handle).1 :=
    Function.update_self ..
  obtain ⟨hlself, hlocked, hwould, hid, hprio, -, -, hsame⟩ := Group.handleLock_self hq
  have hqueued : ∀ l', Queued s'.groups l' ↔ Queued s.groups l' := by
    intro l'
    rw [Queued, Queued]
    by_cases hg : l'.group = l.group
    · rw [hg, hself, Group.handleLock_queue]
    · rw [show s'.groups l'.group = s.groups l'.group from Function.update_of_ne hg ..]
  have hkept : ∀ l', Queued s.groups l' → l' ≠ l → KeptAt s.groups s'.groups [] l' :=
    fun l' hl' hne => keptAt_handleLock _ hc hq hl' hne
  have hrank : ∀ l', Queued s.groups l' →
      (handleAt s'.groups l').rank = (handleAt s.groups l').rank := by
    intro l' hl'
    by_cases hne : l' = l
    · rw [hne, handleAt, handleAt, hself, LockHandle.rank, LockHandle.rank, hid, hprio]
    · exact (hkept l' hl' hne).rank
  -- what was locked is locked
  have hmono : ∀ l', Queued s.groups l' → (handleAt s.groups l').locked = true →
      (handleAt s'.groups l').locked = true := by
    intro l' hl' hlk
    by_cases hne : l' = l
    · subst hne
      rw [handleAt, hself, hlocked, hwould]
      exact Group.wouldLock_of_locked hlk
    · exact (hkept l' hl' hne).locked.trans hlk
  refine ⟨hc.update hp, ⟨hlink.ids, hlink.groups, fun t ht l hl => ?_, fun l hl => ?_⟩, ?_⟩
  · obtain ⟨hq, hr⟩ := hlink.handle t ht l hl
    exact ⟨(hqueued l).mpr hq, (hrank l hq).trans hr⟩
  · exact hlink.owner l ((hqueued l).mp hl)
  · intro u hu hpart l₁ hl₁ hlk₁ l₂ hl₂ hg hlk₂ hlt
    have hq₁ := (hlink.handle u hu l₁ hl₁).1
    have hq₂ := (hqueued l₂).mp hl₂
    have hpart' : s.acquired u = false := by
      rw [Bool.eq_false_iff, acquired, Ne, List.all_eq_true] at hpart ⊢
      exact fun hall => hpart fun l' hl' => hmono l' (hlink.handle u hu l' hl').1 (hall l' hl')
    have hlk₂' : (handleAt s.groups l₂).locked = false := by
      by_contra hlk
      have := hmono l₂ hq₂ (by simpa using hlk)
      exact absurd (hlk₂.symm.trans this) (by simp)
    rw [hrank l₁ hq₁, hrank l₂ hq₂] at hlt
    -- it would have locked before
    have hw : Group.wouldLock (s.groups l₂.group) l₂.handle = true := by
      by_cases hlk : (handleAt s.groups l₁).locked = true
      · exact hinv u hu hpart' l₁ hl₁ hlk l₂ hq₂ hg hlk₂' hlt
      · have hne : l₁ = l := by
          by_contra hne
          exact hlk ((hkept l₁ hq₁ hne).locked.symm.trans hlk₁)
        subst hne
        rw [handleAt, hself, hlocked, hwould, ← hg] at hlk₁
        rw [Queued, ← hg] at hq
        rw [handleAt, ← hg] at hlk
        rw [handleAt, handleAt, ← hg] at hlt
        exact Group.wouldLock_of_rank_lt (hc.ranked _) hq₂ hq (by simpa using hlk) hlt hlk₁
    by_cases hne : l₂ = l
    · -- it is the handle that `lock()` was called on
      subst hne
      rw [handleAt, hself, hlocked, hwould] at hlk₂
      exact absurd (hw.symm.trans hlk₂) (by simp)
    · exact (hkept l₂ hq₂ hne).keeps hw

/-- One `CombinedLock::lock`, handle by handle, as far as it gets. -/
theorem Orderly.lock (h : Orderly c s) (ht : t ∈ s.tasks) :
    Orderly c { s with groups := (t.lock.lock s.groups).1 } :=
  lockAll_preserves _ (P := fun groups => Orderly c { s with groups := groups }) h
    fun _ hgs _ hl => Orderly.handleLock (s := { s with groups := _ }) hgs ht hl

/-- One `~CombinedLock`: its tokens are free, and its handles are gone from the queues. -/
theorem Orderly.release (h : Orderly c s) (ht : t ∈ s.tasks) :
    Orderly c ⟨(t.lock.destroy s.groups).1,
      s.tasks.filter fun u => u.task.id ≠ t.task.id⟩ := by
  obtain ⟨hc, hlink, hinv⟩ := h
  obtain ⟨hcalm, hkept, hqueued⟩ := kept_destroyAll hc ((hlink.groups t ht).of_map _)
    fun l hl => (hlink.handle t ht l hl).1
  set s' : LockSystem := ⟨(t.lock.destroy s.groups).1,
    s.tasks.filter fun u => u.task.id ≠ t.task.id⟩ with hs'
  have hmem : ∀ u, u ∈ s'.tasks ↔ u ∈ s.tasks ∧ u.task.id ≠ t.task.id := fun u => by
    simp [hs', List.mem_filter]
  have hother : ∀ u ∈ s'.tasks, ∀ l ∈ u.lock.locks,
      Queued s.groups l ∧ KeptAt s.groups s'.groups (t.lock.destroy s.groups).2 l := by
    intro u hu l hl
    obtain ⟨hu, hne⟩ := (hmem u).mp hu
    have hq := (hlink.handle u hu l hl).1
    refine ⟨hq, hkept l hq fun hlt => hne ?_⟩
    rw [hlink.eq_of_mem hu ht hl hlt]
  refine ⟨hcalm, ⟨hlink.ids.sublist (List.filter_sublist.map _), fun u hu => ?_,
    fun u hu l hl => ?_, fun l hl => ?_⟩, ?_⟩
  · exact hlink.groups u ((hmem u).mp hu).1
  · obtain ⟨-, hk⟩ := hother u hu l hl
    exact ⟨hk.queued, hk.rank.trans (hlink.handle u ((hmem u).mp hu).1 l hl).2⟩
  · obtain ⟨hq, hnot⟩ := (hqueued l).mp hl
    obtain ⟨u, hu, hlu⟩ := hlink.owner l hq
    refine ⟨u, (hmem u).mpr ⟨hu, fun hid => hnot ?_⟩, hlu⟩
    rw [← hlink.eq_of_id hu ht hid]
    exact hlu
  · intro u hu hpart l hl hlk l' hl' hg hlk' hlt
    obtain ⟨hq, hk⟩ := hother u hu l hl
    obtain ⟨hq', hnot⟩ := (hqueued l').mp hl'
    have hk' : KeptAt s.groups s'.groups (t.lock.destroy s.groups).2 l' := hkept l' hq' hnot
    have hpart' : s.acquired u = false := by
      rw [← acquired_of_kept fun l hl => (hother u hu l hl).2.locked]
      exact hpart
    refine hk'.keeps (hinv u ((hmem u).mp hu).1 hpart' l hl ?_ l' hq' hg ?_ ?_)
    · exact hk.locked.symm.trans hlk
    · exact hk'.locked.symm.trans hlk'
    · rwa [← hk.rank, ← hk'.rank]

/-! One `get_groups_lock`. -/

section

variable {task : ReactionTask} {pool : PoolId} {descs : GroupSet}

/-- The system after `get_groups_lock` for a new task over these groups. -/
abbrev created (s : LockSystem) (task : ReactionTask) (pool : PoolId) (descs : GroupSet) :
    LockSystem :=
  ⟨lockGroups s.groups (lockArgs task pool) descs.descs,
    s.tasks ++ [⟨task, ⟨newLocks s.groups descs.descs⟩⟩]⟩

theorem mem_created : u ∈ (created s task pool descs).tasks ↔
    u ∈ s.tasks ∨ u = ⟨task, ⟨newLocks s.groups descs.descs⟩⟩ := by
  rw [List.mem_append, List.mem_singleton]

/-- The handles that were there keep their place and their state; the new ones are put between them.
-/
theorem kept_created (task : ReactionTask) (pool : PoolId) (descs : GroupSet)
    (hc : GroupsCalm c s.groups) (hl : Queued s.groups l) :
    Queued (created s task pool descs).groups l ∧
      (handleAt (created s task pool descs).groups l).rank = (handleAt s.groups l).rank ∧
      (handleAt (created s task pool descs).groups l).locked = (handleAt s.groups l).locked :=
  ⟨queued_lockGroups (Or.inl hl), (lockGroups_handle hc hl).1, (lockGroups_handle hc hl).2.1⟩

theorem Linked.create (hlink : Linked s) (hc : GroupsCalm c s.groups)
    (hfresh : ∀ t ∈ s.tasks, t.task.id ≠ task.id) : Linked (created s task pool descs) := by
  refine ⟨?_, fun u hu => ?_, fun u hu l hl => ?_, fun l hl => ?_⟩
  · rw [List.map_append, List.nodup_append]
    refine ⟨hlink.ids, List.nodup_singleton _, fun x hx y hy => ?_⟩
    obtain ⟨t, ht, rfl⟩ := List.mem_map.mp hx
    rw [List.mem_singleton.mp hy]
    exact hfresh t ht
  · rcases mem_created.mp hu with hu | rfl
    · exact hlink.groups u hu
    · rw [newLocks, List.map_map]
      exact (List.map_id descs.descs).symm ▸ descs.nodup
  · rcases mem_created.mp hu with hu | rfl
    · obtain ⟨hq, hr⟩ := hlink.handle u hu l hl
      obtain ⟨hq', hrank, -⟩ := kept_created task pool descs hc hq
      exact ⟨hq', hrank.trans hr⟩
    · obtain ⟨g, hg, rfl⟩ := List.mem_map.mp hl
      exact ⟨queued_lockGroups (Or.inr ⟨hg, rfl⟩), congrArg LockHandle.rank (lockGroups_new hg)⟩
  · rcases queued_of_lockGroups hl with hl | ⟨hg, heq⟩
    · obtain ⟨u, hu, hlu⟩ := hlink.owner l hl
      exact ⟨u, mem_created.mpr (Or.inl hu), hlu⟩
    · exact ⟨_, mem_created.mpr (Or.inr rfl), List.mem_map.mpr ⟨l.group, hg, heq.symm⟩⟩

/-- A new handle that is behind a handle of an incomplete lock takes nothing from those in front of
that. -/
theorem wouldLock_of_behind (hc : GroupsCalm c s.groups) (hq : Queued s.groups l)
    (hgd : l.group ∈ descs.descs) (hn : ¬ LockHandle.before
      ⟨task.id, task.priority, false, false, pool⟩ (handleAt s.groups l) = true)
    (hl' : Queued (created s task pool descs).groups l') (hg : l'.group = l.group)
    (hlk' : (handleAt (created s task pool descs).groups l').locked = false)
    (hlt : (handleAt (created s task pool descs).groups l').rank <
      (handleAt (created s task pool descs).groups l).rank)
    (hinv : Queued s.groups l' → (handleAt s.groups l').locked = false →
      (handleAt s.groups l').rank < (handleAt s.groups l).rank →
        Group.wouldLock (s.groups l'.group) l'.handle = true) :
    Group.wouldLock ((created s task pool descs).groups l'.group) l'.handle = true := by
  obtain ⟨-, hrank, -⟩ := kept_created task pool descs hc hq
  have hgroup : (created s task pool descs).groups l.group = (s.groups l.group).lock
    (lockArgs task pool) :=
    if_pos hgd
  have hnrank : (handleAt s.groups l).rank ≤
      ((s.groups l.group).lockHandles (lockArgs task pool) (s.groups l.group).nextHandle).rank := by
    rw [LockHandle.before_iff, not_lt] at hn
    rw [Group.lockHandles_self]
    exact hn
  have hql' : Queued s.groups l' := by
    refine (queued_of_lockGroups hl').resolve_right ?_
    rintro ⟨-, heq⟩
    rw [hg] at heq
    have hself : (handleAt (created s task pool descs).groups l').rank =
        ((s.groups l.group).lockHandles (lockArgs task pool)
          (s.groups l.group).nextHandle).rank := by
      rw [handleAt, hg, heq, hgroup, Group.lock_rank]
    rw [hself] at hlt
    exact absurd (hlt.trans_le (hrank.le.trans hnrank)) (lt_irrefl _)
  obtain ⟨-, hrank', hlocked'⟩ := kept_created task pool descs hc hql'
  have hrk : (handleAt s.groups l').rank < (handleAt s.groups l).rank := hrank' ▸ hrank ▸ hlt
  have hlk'' : (handleAt s.groups l').locked = false := hlocked'.symm.trans hlk'
  have hw := hinv hql' hlk'' hrk
  rw [handleAt, hg] at hrk
  rw [Group.wouldLock_iff hql' hlk'', hg] at hw
  rw [Group.wouldLock_iff hl' hlk', hg, hgroup,
    Group.demand_lock_of_rank_lt (hc.quiet _) (hc.ranked _) (hg ▸ hql')
    (hrk.trans_le hnrank)]
  exact hw

theorem NoInversion.create (hinv : NoInversion s) (hlink : Linked s) (hc : GroupsCalm c s.groups)
    (hok : LeavesRoom s (.create task pool descs)) : NoInversion (created s task pool descs) := by
  have hcalm : GroupsCalm c (created s task pool descs).groups := hc.lockGroups _ descs.descs
  intro u hu hpart l hl hlk l' hl' hg hlk' hlt
  rcases mem_created.mp hu with hu | rfl
  · obtain ⟨hq, -⟩ := hlink.handle u hu l hl
    obtain ⟨hq', hrank, hlocked⟩ := kept_created task pool descs hc hq
    have hpart' : s.acquired u = false := by
      rw [← acquired_of_kept fun l hl =>
        (kept_created task pool descs hc (hlink.handle u hu l hl).1).2.2]
      exact hpart
    rw [hlocked] at hlk
    by_cases hgd : l.group ∈ descs.descs
    · by_cases hn : LockHandle.before ⟨task.id, task.priority, false, false, pool⟩
          (handleAt s.groups l) = true
      · -- the new handle is in front of the incomplete lock
        have hroom := hok u hu hpart' l hl hgd hlk hn
        have hgroup : (created s task pool descs).groups l.group =
            (s.groups l.group).lock (lockArgs task pool) := if_pos hgd
        rw [handleAt, handleAt, hg] at hlt
        have hsorted := Group.demand_le_of_rank_lt (hcalm.ranked l.group) (hg ▸ hl') hq' hlt
        rw [Group.wouldLock_iff hl' hlk', hg]
        refine hsorted.trans ?_
        rw [hgroup]
        exact (Group.demand_lock_le (hc.quiet _) _).trans hroom
      · exact wouldLock_of_behind hc hq hgd hn hl' hg hlk' hlt fun hql' =>
          hinv u hu hpart' l hl hlk l' hql' hg
    · -- a group that has no new handle
      have hgroup : (created s task pool descs).groups l.group = s.groups l.group := if_neg hgd
      have hql' : Queued s.groups l' := by
        rw [Queued, hg, hgroup, ← hg] at hl'
        exact hl'
      obtain ⟨-, hr', hlocked'⟩ := kept_created task pool descs hc hql'
      rw [hg, hgroup, ← hg]
      refine hinv u hu hpart' l hl hlk l' hql' hg (hlocked'.symm.trans hlk') ?_
      rwa [← hrank, ← hr']
  · -- the new lock has not locked anything
    obtain ⟨g, hgd, rfl⟩ := List.mem_map.mp hl
    rw [show handleAt (created s task pool descs).groups ⟨g, (s.groups g).nextHandle⟩ = _ from
      lockGroups_new hgd] at hlk
    exact absurd hlk (by simp)

theorem Orderly.create (h : Orderly c s) (hfresh : ∀ t ∈ s.tasks, t.task.id ≠ task.id)
    (hok : LeavesRoom s (.create task pool descs)) : Orderly c (created s task pool descs) :=
  ⟨h.groupsCalm.lockGroups _ descs.descs, h.linked.create h.groupsCalm hfresh,
    h.noInversion.create h.linked h.groupsCalm hok⟩

end

/-- **Every operation that leaves room keeps the system orderly**; one case for each operation. -/
theorem Orderly.step {a : Action} (h : Orderly c s) (hok : LeavesRoom s a)
    (hs : step s a = some s') : Orderly c s' := by
  cases a with
  | create task pool descs =>
    simp only [LockSystem.step, getGroupsLock, addLocks_eq descs.nodup] at hs
    split_ifs at hs with hguard hempty
    simp only [Option.some.injEq] at hs
    rw [← hs]
    exact h.create (fun t ht hid => hguard (Or.inr ⟨t, ht, hid⟩)) hok
  | lock taskId =>
    simp only [LockSystem.step] at hs
    cases hf : s.tasks.find? fun t => t.task.id = taskId with
    | none => simp [hf] at hs
    | some t =>
      simp only [hf, Option.some.injEq] at hs
      rw [← hs]
      exact h.lock (find_task hf).1
  | release taskId =>
    simp only [LockSystem.step] at hs
    cases hf : s.tasks.find? fun t => t.task.id = taskId with
    | none => simp [hf] at hs
    | some t =>
      simp only [hf, Option.some.injEq] at hs
      obtain ⟨ht, hid⟩ := find_task hf
      rw [← hs, ← hid]
      exact h.release ht
  | fast g call =>
    simp only [LockSystem.step] at hs
    split_ifs at hs with hfast
    cases hp : (s.groups g).perform call with
    | none => simp [hp] at hs
    | some r =>
      simp only [hp, Option.some.injEq] at hs
      rw [← hs]
      exact h.fast hfast hp

theorem orderly_of_reaches (h : Reaches LockSystem.step LeavesRoom (start c) s) : Orderly c s :=
  h.invariant (orderly_start c) fun _ _ _ hx hok hs => Orderly.step hx hok hs

/-! ## The first waiting lock can go on -/

/-- When nobody runs and no token is taken, all tokens are there: so the first who waits can have
one. -/
theorem tokens_of_idle {k : ℕ} {g : Group} (h : Group.Calm k g) (hk : 1 ≤ k) (hrun : g.running = 0)
    (hl : ∀ r ∈ g.queue, (g.handles r).locked = false) : g.tokens = k := by
  have hb := h.quiet.tokens
  have hcount : g.lockedCount = 0 := by
    rw [Group.lockedCount, List.countP_eq_zero.mpr fun r hr => by simp [hl r hr]]
    rfl
  have hpark : g.parkedHeld g.slots = 0 := by
    have h₀ := g.parkedHeld_nonneg g.slots
    by_contra hne
    have := h.full (lt_of_le_of_ne h₀ (Ne.symm hne))
    omega
  omega

/-- **A waiting task goes on.**  When no `CombinedLock` is complete and no `RunningLock` exists, the
waiting task of the highest rank would lock. -/
theorem exists_lock_of_waiting (hc : ∀ g, 1 ≤ c g)
    (h : Reaches LockSystem.step LeavesRoom (start c) s)
    (hw : ∃ t ∈ s.tasks, s.acquired t = false) (hno : ∀ t ∈ s.tasks, s.acquired t = false)
    (hrun : ∀ g, (s.groups g).running = 0) :
    ∃ t ∈ s.tasks, s.acquired t = false ∧ (t.lock.lock s.groups).2 = true := by
  obtain ⟨hcalm, hlink, hinv⟩ := orderly_of_reaches h
  obtain ⟨t₀, ht₀, -⟩ := hw
  -- the first task of all
  obtain ⟨t, ht, hmin⟩ := Finset.exists_min_image s.tasks.toFinset (fun t => rank t.task)
    ⟨t₀, List.mem_toFinset.mpr ht₀⟩
  rw [List.mem_toFinset] at ht
  have hfirst : ∀ u ∈ s.tasks, u ≠ t → rank t.task < rank u.task := fun u hu hne =>
    lt_of_le_of_ne (hmin u (List.mem_toFinset.mpr hu)) fun heq =>
      hne (hlink.eq_of_rank ht hu heq).symm
  refine ⟨t, ht, hno t ht, ?_⟩
  rw [CombinedLock.lock_snd (hlink.groups t ht) fun l hl => (hlink.handle t ht l hl).1,
    CombinedLock.wouldLock_iff]
  intro l hl
  obtain ⟨hq, hr⟩ := hlink.handle t ht l hl
  cases hlk : (handleAt s.groups l).locked with
  | true => exact Group.wouldLock_of_locked hlk
  | false =>
    have hbehind : ∀ r ∈ (s.groups l.group).queue, r ≠ l.handle →
        (handleAt s.groups l).rank < ((s.groups l.group).handles r).rank := by
      intro r hr' hne
      obtain ⟨u, hu, hlu⟩ := hlink.owner ⟨l.group, r⟩ hr'
      have hrank := (hlink.handle u hu _ hlu).2
      rw [hr, show ((s.groups l.group).handles r).rank = rank u.task from hrank]
      refine hfirst u hu ?_
      rintro rfl
      exact hne (congrArg GroupLock.handle (hlink.eq_of_group hu hlu hl rfl))
    by_cases hall : ∀ r ∈ (s.groups l.group).queue, ((s.groups l.group).handles r).locked = false
    · rw [Group.wouldLock_iff hq hlk, tokens_of_idle (hcalm.calm _) (hc _) (hrun _) hall,
        Group.demand_of_first (hcalm.ranked _) hq hlk hbehind]
      exact_mod_cast hc l.group
    · -- another task has a token, and it is not complete
      obtain ⟨r, hr', hrl⟩ : ∃ r ∈ (s.groups l.group).queue,
          ((s.groups l.group).handles r).locked = true := by
        simpa using hall
      obtain ⟨u, hu, hlu⟩ := hlink.owner ⟨l.group, r⟩ hr'
      have hrl' : (handleAt s.groups ⟨l.group, r⟩).locked = true := hrl
      refine hinv u hu (hno u hu) ⟨l.group, r⟩ hlu hrl' l hq rfl hlk (hbehind r hr' ?_)
      rintro rfl
      exact absurd (hlk.symm.trans hrl') (by simp)

/-! ## Two runs -/

/-- The groups that an action is about. -/
def Action.groups (s : LockSystem) : Action → List GroupId
  | .create _ _ descs => descs.descs
  | .lock taskId | .release taskId =>
      match s.tasks.find? fun t => t.task.id = taskId with
      | none => []
      | some t => t.lock.locks.map GroupLock.group
  | .fast group _ => [group]

/-- An action leaves the groups alone that it is not about. -/
theorem step_groups_of_notMem {a : Action} {g : GroupId} (hs : step s a = some s')
    (hg : g ∉ a.groups s) : s'.groups g = s.groups g := by
  cases a with
  | create task pool descs =>
    simp only [LockSystem.step, getGroupsLock, addLocks_eq descs.nodup] at hs
    split_ifs at hs
    simp only [Option.some.injEq] at hs
    rw [← hs]
    exact if_neg hg
  | lock taskId =>
    simp only [LockSystem.step] at hs
    cases hf : s.tasks.find? fun t => t.task.id = taskId with
    | none => simp [hf] at hs
    | some t =>
      simp only [hf, Option.some.injEq] at hs
      simp only [Action.groups, hf] at hg
      rw [← hs]
      exact lockAll_of_notMem fun l hl heq => hg (List.mem_map.mpr ⟨l, hl, heq⟩)
  | release taskId =>
    simp only [LockSystem.step] at hs
    cases hf : s.tasks.find? fun t => t.task.id = taskId with
    | none => simp [hf] at hs
    | some t =>
      simp only [hf, Option.some.injEq] at hs
      simp only [Action.groups, hf] at hg
      rw [← hs]
      exact destroyAll_of_notMem fun l hl heq => hg (List.mem_map.mpr ⟨l, hl, heq⟩)
  | fast group call =>
    simp only [LockSystem.step] at hs
    split_ifs at hs
    cases hp : (s.groups group).perform call with
    | none => simp [hp] at hs
    | some r =>
      simp only [hp, Option.some.injEq] at hs
      rw [← hs]
      exact Function.update_of_ne (fun heq => hg (by simp [Action.groups, heq])) _ _

/-- The action is about these groups only. -/
def Within (descs : List GroupId) (s : LockSystem) (a : Action) : Prop :=
  ∀ g ∈ a.groups s, g ∈ descs

instance (descs : List GroupId) (s : LockSystem) (a : Action) : Decidable (Within descs s a) :=
  inferInstanceAs (Decidable (∀ g ∈ a.groups s, g ∈ descs))

/-- No `RunningLock` exists, when none does in the groups that the run is about. -/
theorem running_eq_zero {descs : List GroupId} {g : GroupId}
    (h : Reaches step (Within descs) (start c) s) (hn : ∀ g ∈ descs, (s.groups g).running = 0) :
    (s.groups g).running = 0 := by
  by_cases hg : g ∈ descs
  · exact hn g hg
  · have hsame : s.groups g = Group.make (c g) := by
      refine h.invariant (P := fun s => s.groups g = Group.make (c g)) rfl fun x a y hx hok hs => ?_
      rw [step_groups_of_notMem hs fun hmem => hg (hok g hmem), hx]
    rw [hsame]
    rfl

/-- The two groups of the examples, in one set. -/
def bothGroups : GroupSet := ⟨[0, 1], by decide⟩

/-- A task of one group runs, a task over both groups gets the other group, and a task of a lower
priority comes.  Then the first task ends. -/
def waitForOne : List Action :=
  [.fast 1 (.trySubmit ⟨⟨1, 500⟩, 0, true⟩), .create ⟨2, 500⟩ 0 bothGroups, .lock 2,
    .create ⟨3, 250⟩ 0 bothGroups, .lock 3, .fast 1 .runningDestroy]

theorem exists_lock_of_waiting_waitForOne :
    ∃ s, exec step (start fun _ => 1) waitForOne = some s ∧ s.tasks.length = 2 ∧
      ∃ t ∈ s.tasks, s.acquired t = false ∧ (t.lock.lock s.groups).2 = true := by
  obtain ⟨s, hs⟩ := Option.isSome_iff_exists.mp
    (by decide : (exec step (start fun _ => 1) waitForOne).isSome = true)
  have hend : (exec step (start fun _ => 1) waitForOne).map (fun s => (s.tasks.length,
      s.tasks.any fun t => !s.acquired t, s.tasks.all fun t => !s.acquired t,
      decide (∀ g ∈ bothGroups.descs, (s.groups g).running = 0))) =
        some (2, true, true, true) := by decide
  have hok : execOk step LeavesRoom (start fun _ => 1) waitForOne := by decide
  have hwithin : execOk step (Within bothGroups.descs) (start fun _ => 1) waitForOne := by decide
  rw [hs] at hend
  simp only [Option.map_some, Option.some.injEq, Prod.mk.injEq, List.any_eq_true, List.all_eq_true,
    Bool.not_eq_true', decide_eq_true_eq] at hend
  obtain ⟨hlen, hwait, hno, hrun⟩ := hend
  exact ⟨s, hs, hlen, exists_lock_of_waiting (fun _ => le_rfl) (reaches_of_exec hs hok) hwait hno
    fun g => running_eq_zero (reaches_of_exec hs hwithin) hrun⟩

/-- The same, but the task that comes has a higher priority. -/
def overtakenWhileWaiting : List Action :=
  [.fast 1 (.trySubmit ⟨⟨1, 500⟩, 0, true⟩), .create ⟨2, 500⟩ 0 bothGroups, .lock 2,
    .create ⟨3, 750⟩ 0 bothGroups, .lock 3, .fast 1 .runningDestroy]

/-- Each of the two tasks waits for the other one: one has the token of the first group, and the
other is in front of it in the second. -/
theorem deadlock_of_overtakenWhileWaiting :
    ¬ ∀ (c : GroupId → ℕ) (s : LockSystem), (∀ g, 1 ≤ c g) →
      Reaches step Always (start c) s → (∃ t ∈ s.tasks, s.acquired t = false) →
      (∀ t ∈ s.tasks, s.acquired t = false) → (∀ g, (s.groups g).running = 0) →
      ∃ t ∈ s.tasks, s.acquired t = false ∧ (t.lock.lock s.groups).2 = true := by
  intro h
  obtain ⟨s, hs⟩ := Option.isSome_iff_exists.mp
    (by decide : (exec step (start fun _ => 1) overtakenWhileWaiting).isSome = true)
  have hend : (exec step (start fun _ => 1) overtakenWhileWaiting).map (fun s =>
      (s.tasks.any fun t => !s.acquired t, s.tasks.all fun t => !s.acquired t,
        decide (∀ g ∈ bothGroups.descs, (s.groups g).running = 0),
        s.tasks.any fun t => (t.lock.lock s.groups).2)) =
          some (true, true, true, false) := by decide
  have hwithin : execOk step (Within bothGroups.descs) (start fun _ => 1)
      overtakenWhileWaiting := by decide
  rw [hs] at hend
  simp only [Option.map_some, Option.some.injEq, Prod.mk.injEq, List.any_eq_true, List.all_eq_true,
    Bool.not_eq_true', decide_eq_true_eq] at hend
  obtain ⟨hwait, hno, hrun, hstuck⟩ := hend
  obtain ⟨t, ht, -, hlock⟩ := h (fun _ => 1) s (fun _ => le_rfl) (reaches_always_of_exec hs) hwait
    hno fun g => running_eq_zero (reaches_of_exec hs hwithin) hrun
  have hany : (s.tasks.any fun t => (t.lock.lock s.groups).2) = true :=
    List.any_eq_true.mpr ⟨t, ht, hlock⟩
  exact absurd (hany.symm.trans hstuck) (by simp)

end LockSystem

end Scheduler
end NUClear
