import NUClear.Extension.IORebuild

/-!
# Which events are polled for again

A task that processes events has a reaction task that is queued or running, as long as each reaction
task returns and its `IOFinished` reaches the task that it was made for (`EndsWell`).  So a task
without reaction tasks processes nothing, and after the next `rebuild_list` an event that it listens
for, and that no other task of the descriptor processes, is polled for exactly when the event does
not wait in the tasks behind one that listens for it (`polled_iff_of_idle`).

A callback that throws skips `IO::post_run`, and the events of its task are not polled for any more
(`not_polled_of_throws`).

## The proof

* `Arranged.step`: the list of tasks stays sorted, with one entry for each configuration, so what
  `rebuild_list` makes of it is known (`Rebuilt`).
* `HasJobs`: a task that processes events has a job.  `fire_event` makes both at once, and
  `IOFinished` from the last job of a task takes back what it processes (`hasJobs_finished`).
* `EndsWell`: the condition.  It is asked of the end of a reaction task: it returns, and the task
  that `IOFinished` finds is the one that it was made for, unless others are left.
* `hasJobs_of_reaches`: both hold in every state of a run that meets the condition.
-/

namespace NUClear
namespace Extension

open Foundation

namespace IOController

variable {s s' : IOController} {tasks : List IOTask} {t u : IOTask} {fd recv : ℤ} {e i j k id : ℕ}
  {made : Bool}

/-! ## The tasks stay arranged -/

theorem arranged_configure {sorted : List IOTask} {events : Events} {reaction : ℕ}
    (h : Arranged s.recv s.entries s.tasks) (hfd : fd ≠ s.recv)
    (hperm : sorted.Perm (s.tasks ++ [s.configured fd events reaction]))
    (hsorted : sorted.Pairwise fun t u => ¬ u.lt t) :
    Arranged s.recv (s.entries + 1) sorted := by
  have hmem : ∀ t ∈ sorted, t ∈ s.tasks ∨ t = s.configured fd events reaction := by
    intro t ht
    have := hperm.subset ht
    rwa [List.mem_append, List.mem_singleton] at this
  refine ⟨hsorted, fun t ht => ?_, ?_, fun t ht => ?_⟩
  · rcases hmem t ht with ht | rfl
    · exact h.notifier t ht
    · exact hfd
  · rw [(hperm.map IOTask.entry).nodup_iff, List.map_append, List.nodup_append]
    refine ⟨h.nodup, by simp, fun a ha b hb heq => ?_⟩
    obtain ⟨t, ht, rfl⟩ := List.mem_map.mp ha
    rw [List.map_singleton, List.mem_singleton] at hb
    have hlt := h.lt t ht
    rw [heq, hb] at hlt
    exact absurd hlt (lt_irrefl s.entries)
  · rcases hmem t ht with ht | rfl
    · exact Nat.lt_succ_of_lt (h.lt t ht)
    · exact Nat.lt_succ_self s.entries

theorem arranged_finished (h : Arranged s.recv s.entries s.tasks) :
    Arranged (s.finished made id).recv (s.finished made id).entries (s.finished made id).tasks := by
  obtain ⟨hr, hn, -⟩ := frame_finished s made id
  rw [hr, hn]
  rcases s.finished_cases made id with ⟨-, heq⟩ | ⟨i, t, -, ht, ⟨-, heq⟩ | ⟨-, heq⟩⟩
  · rw [heq]
    exact h
  · rw [heq]
    exact h.sublist (List.eraseIdx_sublist ..)
  · rw [heq]
    exact h.congr (configuration_fireEvent.trans (map_configuration_set ht rfl))

theorem Arranged.step {a : Action} (h : Arranged s.recv s.entries s.tasks)
    (hs : step s a = some s') : Arranged s'.recv s'.entries s'.tasks := by
  cases a with
  | configure fd events reaction sorted =>
    obtain ⟨⟨-, hfd, hperm, hsorted⟩, rfl⟩ := step_configure hs
    exact arranged_configure h hfd hperm hsorted
  | unbind id =>
    obtain ⟨-, rfl⟩ := step_unbind hs
    rw [IOController.unbind]
    split
    · exact h
    · exact h.sublist (List.eraseIdx_sublist ..)
  | rebuild =>
    obtain ⟨-, rfl⟩ := step_rebuild hs
    exact h
  | poll revents =>
    obtain ⟨-, rfl⟩ := step_poll hs
    exact h
  | advance eof made =>
    obtain ⟨-, rfl⟩ | ⟨k, -, rfl⟩ | ⟨k, b, -, rfl⟩ | ⟨k, b, i, left, w, -, -, rfl⟩ :=
      step_advance hs
    · exact h
    · obtain ⟨hr, hn, ht, -⟩ := processWatch_frame s eof k
      rw [hr, hn, ht]
      exact h
    · exact h
    · obtain ⟨hr, hn, -⟩ := frame_fireEvent (s.collect w.revents b i) made i
      obtain ⟨hr', hn', -⟩ := frame_collect s w.revents b i
      show Arranged (_ : IOController).recv (_ : IOController).entries (_ : IOController).tasks
      rw [hr, hr', hn, hn']
      exact h.congr (configuration_fireEvent.trans configuration_collect)
  | finish k returned made =>
    obtain ⟨job, -, ⟨-, -, rfl⟩ | ⟨-, rfl⟩⟩ := step_finish hs
    · exact arranged_finished (s := { s with jobs := s.jobs.eraseIdx k }) h
    · exact h
  | finished id made =>
    obtain ⟨-, rfl⟩ := step_finished hs
    exact arranged_finished h
  | setEnabled reaction enabled =>
    obtain rfl := Option.some.inj hs
    exact h

theorem arranged_start (recv : ℤ) :
    Arranged (start recv).recv (start recv).entries (start recv).tasks :=
  ⟨List.Pairwise.nil, fun _ ht => absurd ht List.not_mem_nil, List.nodup_nil,
    fun _ ht => absurd ht List.not_mem_nil⟩

/-! ## The jobs of the tasks -/

/-- The job of a task: the reaction task that is made when the events of the task are fired. -/
def IOTask.job (t : IOTask) : IOJob := ⟨t.reaction, t.entry⟩

/-- A task that processes events has a job: its reaction task is queued or running, and will send
`IOFinished` if it returns. -/
def HasJobs (s : IOController) : Prop := ∀ t ∈ s.tasks, t.processing ≠ 0 → IOTask.job t ∈ s.jobs

/-- A reaction task that ends was the last one of a task that processes events only if it returns,
and its `IOFinished` finds this task. -/
def EndsWell (s : IOController) : Action → Prop
  | .finish k returned _ => ∀ job ∈ s.jobs[k]?, ∀ t ∈ s.tasks, IOTask.job t = job →
      t.processing ≠ 0 → IOTask.job t ∈ s.jobs.eraseIdx k ∨ returned = true ∧
        ∃ i ∈ s.tasks.findIdx? fun u => u.reaction == job.reaction, s.tasks[i]? = some t
  | _ => True

instance (s : IOController) : ∀ a, Decidable (EndsWell s a)
  | .configure _ _ _ _ => .isTrue trivial
  | .unbind _ => .isTrue trivial
  | .rebuild => .isTrue trivial
  | .poll _ => .isTrue trivial
  | .advance _ _ => .isTrue trivial
  | .finish k returned _ => inferInstanceAs (Decidable (∀ job ∈ s.jobs[k]?, ∀ t ∈ s.tasks,
      IOTask.job t = job → t.processing ≠ 0 → IOTask.job t ∈ s.jobs.eraseIdx k ∨ returned = true ∧
        ∃ i ∈ s.tasks.findIdx? fun u => u.reaction == job.reaction, s.tasks[i]? = some t))
  | .finished _ _ => .isTrue trivial
  | .setEnabled _ _ => .isTrue trivial

/-- The members of a list in which one has been replaced: the new one, or one of the others. -/
theorem mem_set_cases {α : Type} {l : List α} {x y : α} (h : y ∈ l.set i x) :
    y = x ∨ ∃ j, j ≠ i ∧ l[j]? = some y := by
  obtain ⟨j, hj⟩ := List.mem_iff_getElem?.mp h
  rcases eq_or_ne i j with rfl | hne
  · rw [List.getElem?_set_self'] at hj
    obtain ⟨_, -, rfl⟩ := Option.map_eq_some_iff.mp hj
    exact Or.inl rfl
  · rw [List.getElem?_set_ne hne] at hj
    exact Or.inr ⟨j, hne.symm, hj⟩

theorem Arranged.eq_of_entry {entries : ℕ} (h : Arranged recv entries tasks)
    (ht : tasks[i]? = some t) (hu : tasks[j]? = some u) (heq : t.entry = u.entry) : i = j := by
  have hi := (List.getElem?_eq_some_iff.mp ht).1
  refine (List.getElem?_inj (l := tasks.map IOTask.entry) (by simpa using hi) h.nodup).mp ?_
  rw [List.getElem?_map, List.getElem?_map, ht, hu, Option.map_some, Option.map_some, heq]

theorem HasJobs.fireEvent (made : Bool) (i : ℕ) (h : HasJobs s) : HasJobs (s.fireEvent made i) := by
  rcases s.fireEvent_cases made i with heq | ⟨t, ht, -, -, -, -, heq⟩
  · rw [heq]
    exact h
  · rw [heq]
    intro u hu hp
    show IOTask.job u ∈ s.jobs ++ [IOTask.job t]
    rcases mem_set_cases hu with rfl | ⟨j, -, hj⟩
    · exact List.mem_append_right _ (List.mem_singleton.mpr rfl)
    · exact List.mem_append_left _ (h u (List.mem_of_getElem? hj) hp)

/-- `IOFinished` may come from the last job of the task that it finds, since that task processes
nothing afterwards or is fired again. -/
theorem hasJobs_finished (ha : Arranged s.recv s.entries s.tasks)
    (h : ∀ t ∈ s.tasks, t.processing ≠ 0 → IOTask.job t ∈ s.jobs ∨
      ∃ i ∈ s.tasks.findIdx? fun u => u.reaction == id, s.tasks[i]? = some t) :
    HasJobs (s.finished made id) := by
  -- the other tasks have their jobs
  have hother : ∀ {i t}, s.tasks.findIdx? (fun u => u.reaction == id) = some i →
      s.tasks[i]? = some t → ∀ j u, j ≠ i → s.tasks[j]? = some u → u.processing ≠ 0 →
      IOTask.job u ∈ s.jobs := by
    intro i t hi ht j u hne hu hp
    refine (h u (List.mem_of_getElem? hu) hp).resolve_right ?_
    rintro ⟨i', hi', hu'⟩
    obtain rfl : i = i' := Option.some.inj (hi.symm.trans hi')
    obtain rfl : t = u := Option.some.inj (ht.symm.trans hu')
    exact hne (ha.eq_of_entry hu ht rfl)
  rcases s.finished_cases made id with ⟨hi, heq⟩ | ⟨i, t, hi, ht, ⟨-, heq⟩ | ⟨-, heq⟩⟩
  · rw [heq]
    refine fun u hu hp => (h u hu hp).resolve_right ?_
    rintro ⟨j, hj, -⟩
    exact absurd (hi.symm.trans hj) (by simp)
  · rw [heq]
    intro u hu hp
    obtain ⟨j, hne, hj⟩ := List.mem_eraseIdx_iff_getElem?.mp hu
    exact hother hi ht j u hne hj hp
  · rw [heq]
    refine HasJobs.fireEvent _ _ fun u hu hp => ?_
    rcases mem_set_cases hu with rfl | ⟨j, hne, hj⟩
    · exact absurd rfl hp
    · exact hother hi ht j u hne hj hp

theorem HasJobs.collect (revents : Events) (b : Bool) (i : ℕ) (h : HasJobs s) :
    HasJobs (s.collect revents b i) := by
  rw [IOController.collect]
  cases ht : s.tasks[i]? with
  | none => exact h
  | some t =>
    intro u hu hp
    rcases mem_set_cases hu with rfl | ⟨j, -, hj⟩
    · exact h t (List.mem_of_getElem? ht) hp
    · exact h u (List.mem_of_getElem? hj) hp

theorem HasJobs.step {a : Action} (ha : Arranged s.recv s.entries s.tasks) (h : HasJobs s)
    (hok : EndsWell s a) (hs : step s a = some s') : HasJobs s' := by
  cases a with
  | configure fd events reaction sorted =>
    obtain ⟨⟨-, -, hperm, -⟩, rfl⟩ := step_configure hs
    intro t ht hp
    have hmem := hperm.subset ht
    rw [List.mem_append, List.mem_singleton] at hmem
    rcases hmem with hmem | rfl
    · exact h t hmem hp
    · exact absurd rfl hp
  | unbind id =>
    obtain ⟨-, rfl⟩ := step_unbind hs
    rw [IOController.unbind]
    split
    · exact h
    · exact fun t ht => h t ((List.eraseIdx_sublist ..).subset ht)
  | rebuild =>
    obtain ⟨-, rfl⟩ := step_rebuild hs
    exact h
  | poll revents =>
    obtain ⟨-, rfl⟩ := step_poll hs
    exact h
  | advance eof made =>
    obtain ⟨-, rfl⟩ | ⟨k, -, rfl⟩ | ⟨k, b, -, rfl⟩ | ⟨k, b, i, left, w, -, -, rfl⟩ :=
      step_advance hs
    · exact h
    · obtain ⟨-, -, ht, hj, -⟩ := processWatch_frame s eof k
      rw [HasJobs, ht, hj]
      exact h
    · exact h
    · exact (h.collect w.revents b i).fireEvent made i
  | finish k returned made =>
    obtain ⟨job, hjob, hcase⟩ := step_finish hs
    -- a job that is not the one that ends is still there
    have hstill : ∀ t ∈ s.tasks, t.processing ≠ 0 → IOTask.job t ≠ job →
        IOTask.job t ∈ s.jobs.eraseIdx k := by
      intro t ht hp hne
      obtain ⟨j, hj⟩ := List.mem_iff_getElem?.mp (h t ht hp)
      refine List.mem_eraseIdx_iff_getElem?.mpr ⟨j, ?_, hj⟩
      rintro rfl
      exact hne (Option.some.inj (hj.symm.trans hjob))
    have hcases : ∀ t ∈ s.tasks, t.processing ≠ 0 → IOTask.job t ∈ s.jobs.eraseIdx k ∨
        returned = true ∧ ∃ i ∈ s.tasks.findIdx? fun u => u.reaction == job.reaction,
          s.tasks[i]? = some t := by
      intro t ht hp
      by_cases heq : IOTask.job t = job
      · exact hok job hjob t ht heq hp
      · exact Or.inl (hstill t ht hp heq)
    obtain ⟨-, -, rfl⟩ | ⟨hret, rfl⟩ := hcase
    · exact hasJobs_finished (s := { s with jobs := s.jobs.eraseIdx k }) ha
        fun t ht hp => (hcases t ht hp).imp id And.right
    · exact fun t ht hp => (hcases t ht hp).resolve_right fun hr => hret hr.1
  | finished id made =>
    obtain ⟨-, rfl⟩ := step_finished hs
    exact hasJobs_finished ha fun t ht hp => Or.inl (h t ht hp)
  | setEnabled reaction enabled =>
    obtain rfl := Option.some.inj hs
    exact h

theorem hasJobs_of_reaches (h : Reaches step EndsWell (start recv) s) :
    Arranged s.recv s.entries s.tasks ∧ HasJobs s :=
  h.invariant (P := fun s => Arranged s.recv s.entries s.tasks ∧ HasJobs s)
    ⟨arranged_start recv, fun _ ht => absurd ht List.not_mem_nil⟩
    fun _ _ _ hx hok hs => ⟨hx.1.step hs, HasJobs.step hx.1 hx.2 hok hs⟩

/-- **When a task without reaction tasks is polled for an event.**  After the next `rebuild_list`,
an event that no other task of the descriptor is processing is in the mask exactly when it does not
wait in the tasks from one on that listens for it. -/
theorem polled_iff_of_idle (h : Reaches step EndsWell (start recv) s) (ht : t ∈ s.tasks)
    (hidle : ∀ job ∈ s.jobs, job.reaction ≠ t.reaction)
    (hothers : ∀ u ∈ s.tasks, u ≠ t → u.fd = t.fd → u.processing.getLsbD e = false) :
    (∃ w ∈ s.rebuildList.watches, w.fd = t.fd ∧ w.events.getLsbD e = true) ↔
      Listened IOTask.waiting s.tasks t.fd e := by
  obtain ⟨harr, hjobs⟩ := hasJobs_of_reaches h
  have hreb := rebuilt_rebuiltWatches harr
  -- no task of the descriptor processes the event
  have hnone : ∀ u ∈ s.tasks, u.fd = t.fd → u.processing.getLsbD e = false := by
    intro u hu hfd
    by_cases heq : u = t
    · have hzero : u.processing = 0 := by
        by_contra hp
        exact hidle _ (hjobs u hu hp) (congrArg IOTask.reaction heq)
      rw [hzero]
      exact BitVec.getLsbD_zero
    · exact hothers u hu heq hfd
  have hheld : Listened (fun u => u.processing ||| u.waiting) s.tasks t.fd e ↔
      Listened IOTask.waiting s.tasks t.fd e := by
    have hbit : ∀ before u after, s.tasks = before ++ u :: after → ∀ v ∈ u :: after, v.fd = t.fd →
        (v.processing ||| v.waiting).getLsbD e = v.waiting.getLsbD e := by
      intro before u after heq v hv hfd
      have hmem : v ∈ s.tasks := heq ▸ List.mem_append_right _ hv
      rw [BitVec.getLsbD_or, hnone v hmem hfd, Bool.false_or]
    constructor <;> rintro ⟨before, u, after, heq, hfd, hlu, hall⟩ <;>
      refine ⟨before, u, after, heq, hfd, hlu, fun v hv hvfd => ?_⟩
    · exact (hbit before u after heq v hv hvfd).symm.trans (hall v hv hvfd)
    · exact (hbit before u after heq v hv hvfd).trans (hall v hv hvfd)
  rw [← hheld, ← getLsbD_maskOf]
  constructor
  · rintro ⟨w, hw, hfd, hbit⟩
    rwa [hreb.events w hw (hfd ▸ harr.notifier t ht), hfd] at hbit
  · intro hbit
    obtain ⟨w, hw, hfd⟩ := hreb.complete t ht
    refine ⟨w, hw, hfd, ?_⟩
    rwa [hreb.events w hw (hfd ▸ harr.notifier t ht), hfd]

/-! ## Two runs -/

/-- A task on descriptor 4 is configured; the descriptor becomes readable, and a reaction task is
made for the event. -/
def oneRead : List Action :=
  [.configure 4 EventType.READ 1 [⟨4, EventType.READ, 0, 0, 1, 0⟩], .rebuild,
    .poll [0, EventType.READ], .advance false true, .advance false true, .advance false true,
    .advance false true, .advance false true, .advance false true]

/-- The reaction task returns, and after the next `rebuild_list` the event is polled for again. -/
theorem polled_iff_of_idle_oneRead :
    ∃ s t, exec step (start 3) (oneRead ++ [.finish 0 true true]) = some s ∧ t ∈ s.tasks ∧
      ∃ w ∈ s.rebuildList.watches, w.fd = t.fd ∧ w.events.getLsbD 0 = true := by
  obtain ⟨s, hs⟩ := Option.isSome_iff_exists.mp
    (by decide : (exec step (start 3) (oneRead ++ [.finish 0 true true])).isSome = true)
  have hend : (exec step (start 3) (oneRead ++ [.finish 0 true true])).map
      (fun s => (s.tasks, s.jobs)) = some ([⟨4, EventType.READ, 0, 0, 1, 0⟩], []) := by decide
  have hok : execOk step EndsWell (start 3) (oneRead ++ [.finish 0 true true]) := by decide
  rw [hs, Option.map_some, Option.some.injEq, Prod.mk.injEq] at hend
  obtain ⟨htasks, hjobs⟩ := hend
  refine ⟨s, ⟨4, EventType.READ, 0, 0, 1, 0⟩, hs, htasks ▸ List.mem_singleton.mpr rfl, ?_⟩
  refine (polled_iff_of_idle (reaches_of_exec hs hok) (htasks ▸ List.mem_singleton.mpr rfl)
    (fun job hjob => ?_) fun u hu hne => ?_).mpr ?_
  · exact absurd (hjobs ▸ hjob) List.not_mem_nil
  · exact absurd (List.mem_singleton.mp (htasks ▸ hu)) hne
  · refine ⟨[], ⟨4, EventType.READ, 0, 0, 1, 0⟩, [], htasks, rfl, by decide, fun u hu _ => ?_⟩
    rw [List.mem_singleton.mp hu]
    decide

/-- The callback throws: nothing is queued or running, and the event is not polled for any more. -/
theorem not_polled_of_throws :
    ¬ ∀ (recv : ℤ) (s : IOController) (t : IOTask) (e : ℕ), Reaches step Always (start recv) s →
      t ∈ s.tasks → s.enabled t.reaction = true → (∀ job ∈ s.jobs, job.reaction ≠ t.reaction) →
      t.listening.getLsbD e = true →
      (∀ u ∈ s.tasks, u ≠ t → u.fd = t.fd → u.processing.getLsbD e = false) →
      ∃ w ∈ s.rebuildList.watches, w.fd = t.fd ∧ w.events.getLsbD e = true := by
  intro h
  obtain ⟨s, hs⟩ := Option.isSome_iff_exists.mp
    (by decide : (exec step (start 3) (oneRead ++ [.finish 0 false true])).isSome = true)
  have hend : (exec step (start 3) (oneRead ++ [.finish 0 false true])).map
      (fun s => (s.tasks, s.jobs, s.enabled 1, s.rebuildList.watches)) =
      some ([⟨4, EventType.READ, 0, EventType.READ, 1, 0⟩], [], true,
        [⟨3, EventType.READ ||| EventType.ERROR, 0⟩, ⟨4, 0, 0⟩]) := by decide
  rw [hs, Option.map_some, Option.some.injEq] at hend
  simp only [Prod.mk.injEq] at hend
  obtain ⟨htasks, hjobs, henabled, hwatches⟩ := hend
  obtain ⟨w, hw, hfd, hbit⟩ := h 3 s ⟨4, EventType.READ, 0, EventType.READ, 1, 0⟩ 0
    (reaches_always_of_exec hs) (htasks ▸ List.mem_singleton.mpr rfl) henabled
    (fun job hjob => absurd (hjobs ▸ hjob) List.not_mem_nil) (by decide)
    fun u hu hne => absurd (List.mem_singleton.mp (htasks ▸ hu)) hne
  rw [hwatches] at hw
  rcases List.mem_cons.mp hw with rfl | hw
  · exact absurd hfd (by decide)
  · rw [List.mem_singleton.mp hw] at hbit
    exact absurd hbit (by decide)

end IOController

end Extension
end NUClear
