import NUClear.Extension.IOPolling

/-!
# Events in flight are not polled for

`fire_event` and the handler of `IOFinished` change the mask of one descriptor at a time, and
`rebuild_list` makes all masks anew.  Three things can go wrong (`KeepsApart` says that they do
not):

* the binary search misses the watch of the descriptor, because the watch of the notifier is the
  first one, whatever its descriptor is;
* `IOFinished` puts back an event that another task of the descriptor is still processing;
* `rebuild_list` comes to a task that listens for the event after the task that is processing it.

Otherwise no event that a task is processing is in the mask of its descriptor
(`excluded_of_reaches`).

## The proof

`KeepsApart` is in terms of the lists of tasks and watches before the step: that a search finds its
watch (`Finds`), that no other task of the descriptor is processing what comes back, and that the
tasks behind one that listens hold back what is processed (`Covered`).

* `Excluded.fireEvent`, `Excluded.finished`, `Covered.excluded`: the three operations, each under
  its part of the condition.
* `Apart`: there is one watch for each descriptor, and the exclusion.  The first half makes the
  watch that is found the only one to look at (`mem_updateMask`).
* `finds_of_increasing`: with the notifier's descriptor below all others the search finds every
  watch.
* `not_excluded_of_belowNotifier`: a descriptor below that of the notifier is polled for while its
  task runs.
-/

namespace NUClear
namespace Extension

open Foundation

namespace IOController

variable {s s' : IOController} {tasks : List IOTask} {t u : IOTask} {w : Watch} {fd recv : ℤ}
  {i k id : ℕ} {made : Bool} {f : Events → Events}

theorem and_eq_zero_iff {a b : Events} :
    a &&& b = 0 ↔ ∀ e, a.getLsbD e = true → b.getLsbD e = false := by
  constructor
  · intro h e ha
    have := congrArg (fun x : Events => x.getLsbD e) h
    simpa [ha] using this
  · intro h
    refine BitVec.eq_of_getLsbD_eq fun e _ => ?_
    rw [BitVec.getLsbD_and]
    cases ha : a.getLsbD e with
    | false => simp
    | true => simp [h e ha]

/-! ## One watch -/

theorem fd_updateMask (s : IOController) (fd : ℤ) (f : Events → Events) :
    (s.updateMask fd f).map Watch.fd = s.watches.map Watch.fd := by
  rw [updateMask]
  cases hw : s.watches[s.findWatch fd]? with
  | none => rfl
  | some w =>
    dsimp only
    split_ifs
    · rw [List.map_set]
      refine set_of_getElem? ?_
      rw [List.getElem?_map, hw, Option.map_some]
    · rfl

theorem updateMask_of_not_finds (h : ¬ s.Finds fd) : s.updateMask fd f = s.watches := by
  rw [updateMask]
  cases hw : s.watches[s.findWatch fd]? with
  | none => rfl
  | some w =>
    dsimp only
    split_ifs with hfd
    · exact absurd ⟨w, hw, hfd⟩ h
    · rfl

theorem finds_congr (h : s'.watches.map Watch.fd = s.watches.map Watch.fd) :
    s'.Finds fd ↔ s.Finds fd := by
  have hfind : ∀ s : IOController, s.findWatch fd = lowerBound (· < fd) (s.watches.map Watch.fd) :=
    fun s => (lowerBound_map (p := (· < fd)) Watch.fd s.watches).symm
  have hiff : ∀ s : IOController,
      s.Finds fd ↔ (s.watches.map Watch.fd)[s.findWatch fd]? = some fd := fun s => by
    rw [List.getElem?_map, Option.map_eq_some_iff]
    rfl
  rw [hiff, hiff, hfind, hfind, h]

/-- The watch that is found is changed, and it is the only one of the descriptor; the other watches
stay. -/
theorem mem_updateMask (hn : (s.watches.map Watch.fd).Nodup) (h : s.Finds fd)
    (hw : w ∈ s.updateMask fd f) : w ∈ s.watches ∧ w.fd ≠ fd ∨
      ∃ v ∈ s.watches, v.fd = fd ∧ w.fd = fd ∧ w.events = f v.events := by
  obtain ⟨v, hv, hfd⟩ := h
  rw [updateMask, Option.mem_def.mp hv] at hw
  dsimp only at hw
  rw [if_pos hfd] at hw
  rcases mem_set_cases hw with rfl | ⟨j, hne, hj⟩
  · exact Or.inr ⟨v, List.mem_of_getElem? hv, hfd, hfd, rfl⟩
  · refine Or.inl ⟨List.mem_of_getElem? hj, fun heq => hne ?_⟩
    have hlt := (List.getElem?_eq_some_iff.mp hj).1
    refine (List.getElem?_inj (l := s.watches.map Watch.fd) (by simpa using hlt) hn).mp ?_
    rw [List.getElem?_map, List.getElem?_map, hj, Option.mem_def.mp hv, Option.map_some,
      Option.map_some, heq, hfd]

/-- **The search finds every watch of a list that is sorted.**  That of the notifier stands first,
so this needs its descriptor to be the lowest. -/
theorem finds_of_increasing (h : s.watches.Pairwise fun v w => v.fd < w.fd) (hw : w ∈ s.watches) :
    s.Finds w.fd := by
  obtain ⟨j, hj⟩ := List.mem_iff_getElem?.mp hw
  have hpart : Partitioned (fun v : Watch => v.fd < w.fd) s.watches :=
    h.imp fun hlt hp => by
      rw [decide_eq_true_eq] at hp ⊢
      omega
  have hspec : ∀ i v, s.watches[i]? = some v → (v.fd < w.fd ↔ i < s.findWatch w.fd) := by
    intro i v hi
    have := lowerBound_spec hpart hi
    rwa [decide_eq_true_eq] at this
  -- nothing but the watch itself can be where the search ends
  have hle : s.findWatch w.fd ≤ j := by
    by_contra hgt
    exact absurd ((hspec j w hj).mpr (by omega)) (lt_irrefl _)
  rcases Nat.lt_or_eq_of_le hle with hlt | heq
  · have hj' := (List.getElem?_eq_some_iff.mp hj).1
    have hat := List.getElem?_eq_getElem (l := s.watches) (Nat.lt_trans hlt hj')
    have hless : s.watches[s.findWatch w.fd].fd < w.fd := by
      obtain ⟨hj'', rfl⟩ := List.getElem?_eq_some_iff.mp hj
      exact List.pairwise_iff_getElem.mp h _ _ _ _ hlt
    exact absurd ((hspec _ _ hat).mp hless) (lt_irrefl _)
  · exact ⟨w, heq ▸ hj, rfl⟩

/-! ## The condition -/

/-- `fire_event` finds the watch of the task, or there is nothing to take out of its mask; so what
is processed then is in no mask. -/
def FiresApart (s : IOController) (made : Bool) (t : IOTask) : Prop :=
  t.processing = 0 → s.enabled t.reaction = true → made = true →
    s.Finds t.fd ∨ ∀ w ∈ s.watches, w.fd = t.fd → w.events &&& t.waiting = 0

/-- `IOFinished` puts nothing back that another task of the descriptor is processing, and what it
fires again it takes out. -/
def FinishesApart (s : IOController) (made : Bool) (id : ℕ) : Prop :=
  ∀ i ∈ s.tasks.findIdx? fun u => u.reaction == id, ∀ t ∈ s.tasks[i]?,
    t.processing &&& EventType.CLOSE = 0 →
      (s.Finds t.fd → ∀ u ∈ s.tasks.eraseIdx i, u.fd = t.fd → u.processing &&& t.processing = 0) ∧
        FiresApart s made { t with processing := 0 }

/-- When a task listens for an event that a task of the descriptor is processing, it or a task
behind it holds the event back. -/
def Covered (all : List IOTask) : List IOTask → Prop
  | [] => True
  | r :: rest => (∀ t ∈ all, t.fd = r.fd → ∀ e < 16, r.listening.getLsbD e = true →
      t.processing.getLsbD e = true →
        ∃ u ∈ r :: rest, u.fd = r.fd ∧ (u.processing ||| u.waiting).getLsbD e = true) ∧
      Covered all rest

/-- The loop over the watches has come to a task, and `fire_event` finds its watch, or takes out
nothing. -/
def AdvancesApart (s : IOController) (made : Bool) : Phase → Prop
  | .atTasks k maybeEof (i :: _) => ∀ w ∈ s.watches[k]?, ∀ t ∈ s.tasks[i]?,
      FiresApart s made (collected t w.revents maybeEof)
  | _ => True

/-- The step takes every event that a task begins to process out of the mask, and puts none back
that is still processed. -/
def KeepsApart (s : IOController) : Action → Prop
  | .rebuild => Covered s.tasks s.tasks
  | .advance _ made => AdvancesApart s made s.phase
  | .finish k returned made =>
      returned = true → ∀ job ∈ s.jobs[k]?, FinishesApart s made job.reaction
  | .finished id made => FinishesApart s made id
  | _ => True

instance (s : IOController) (made : Bool) (t : IOTask) : Decidable (FiresApart s made t) :=
  inferInstanceAs (Decidable (t.processing = 0 → s.enabled t.reaction = true → made = true →
    s.Finds t.fd ∨ ∀ w ∈ s.watches, w.fd = t.fd → w.events &&& t.waiting = 0))

instance (s : IOController) (made : Bool) (id : ℕ) : Decidable (FinishesApart s made id) :=
  inferInstanceAs (Decidable (∀ i ∈ s.tasks.findIdx? fun u => u.reaction == id, ∀ t ∈ s.tasks[i]?,
    t.processing &&& EventType.CLOSE = 0 →
      (s.Finds t.fd → ∀ u ∈ s.tasks.eraseIdx i, u.fd = t.fd → u.processing &&& t.processing = 0) ∧
        FiresApart s made { t with processing := 0 }))

instance decidableCovered (all : List IOTask) : ∀ l, Decidable (Covered all l)
  | [] => .isTrue trivial
  | r :: rest =>
      have := decidableCovered all rest
      inferInstanceAs (Decidable ((∀ t ∈ all, t.fd = r.fd → ∀ e < 16, r.listening.getLsbD e = true →
        t.processing.getLsbD e = true →
          ∃ u ∈ r :: rest, u.fd = r.fd ∧ (u.processing ||| u.waiting).getLsbD e = true) ∧
        Covered all rest))

instance (s : IOController) (made : Bool) : ∀ p, Decidable (AdvancesApart s made p)
  | .idle => .isTrue trivial
  | .polled => .isTrue trivial
  | .atWatch _ => .isTrue trivial
  | .atTasks _ _ [] => .isTrue trivial
  | .atTasks k maybeEof (i :: _) => inferInstanceAs (Decidable (∀ w ∈ s.watches[k]?,
      ∀ t ∈ s.tasks[i]?, FiresApart s made (collected t w.revents maybeEof)))

instance (s : IOController) : ∀ a, Decidable (KeepsApart s a)
  | .configure _ _ _ _ => .isTrue trivial
  | .unbind _ => .isTrue trivial
  | .rebuild => inferInstanceAs (Decidable (Covered s.tasks s.tasks))
  | .poll _ => .isTrue trivial
  | .advance _ made => inferInstanceAs (Decidable (AdvancesApart s made s.phase))
  | .finish k returned made => inferInstanceAs (Decidable (returned = true → ∀ job ∈ s.jobs[k]?,
      FinishesApart s made job.reaction))
  | .finished id made => inferInstanceAs (Decidable (FinishesApart s made id))
  | .setEnabled _ _ => .isTrue trivial

/-! ## The invariant -/

/-- No event that a task is processing is in the mask of its descriptor: what the comment at
`fire_event` promises. -/
def Excluded (s : IOController) : Prop :=
  ∀ t ∈ s.tasks, ∀ w ∈ s.watches, w.fd = t.fd → w.events &&& t.processing = 0

/-- Every watch that is new is a watch of before with no more events. -/
theorem Excluded.of_le {watches : List Watch} (h : Excluded s)
    (hle : ∀ w ∈ watches, ∃ v ∈ s.watches, v.fd = w.fd ∧
      ∀ e, w.events.getLsbD e = true → v.events.getLsbD e = true) :
    ∀ t ∈ s.tasks, ∀ w ∈ watches, w.fd = t.fd → w.events &&& t.processing = 0 := by
  intro t ht w hw hfd
  obtain ⟨v, hv, hvfd, hbits⟩ := hle w hw
  have := and_eq_zero_iff.mp (h t ht v hv (hvfd.trans hfd))
  exact and_eq_zero_iff.mpr fun e he => this e (hbits e he)

theorem Excluded.fireEvent (hn : (s.watches.map Watch.fd).Nodup) (h : Excluded s)
    (hok : ∀ t ∈ s.tasks[i]?, FiresApart s made t) : Excluded (s.fireEvent made i) := by
  rcases s.fireEvent_cases made i with heq | ⟨t, ht, hidle, -, hen, hmade, heq⟩
  · rw [heq]
    exact h
  rw [heq]
  -- no watch has more events than before, and those of the descriptor have none that the task takes
  have hmask : ∀ w ∈ (s.fired i t).watches, (∃ v ∈ s.watches, v.fd = w.fd ∧
      ∀ e, w.events.getLsbD e = true → v.events.getLsbD e = true) ∧
      (w.fd = t.fd → w.events &&& t.waiting = 0) := by
    intro w (hw : w ∈ s.updateMask t.fd fun events => events &&& ~~~t.waiting)
    by_cases hfind : s.Finds t.fd
    · rcases mem_updateMask hn hfind hw with ⟨hw, hne⟩ | ⟨v, hv, hvfd, hwfd, hevents⟩
      · exact ⟨⟨w, hw, rfl, fun _ => id⟩, fun hfd => absurd hfd hne⟩
      · refine ⟨⟨v, hv, hvfd.trans hwfd.symm, fun e he => ?_⟩, fun _ => ?_⟩
        · rw [hevents, BitVec.getLsbD_and, Bool.and_eq_true] at he
          exact he.1
        · rw [hevents, and_eq_zero_iff]
          intro e he
          rw [BitVec.getLsbD_and, BitVec.getLsbD_not, Bool.and_eq_true, Bool.and_eq_true,
            Bool.not_eq_true'] at he
          exact he.2.2
    · have hsame : w ∈ s.watches := updateMask_of_not_finds hfind ▸ hw
      exact ⟨⟨w, hsame, rfl, fun _ => id⟩,
        (hok t ht hidle hen hmade).resolve_left hfind w hsame⟩
  intro u hu w hw hfd
  rcases mem_set_cases hu with rfl | ⟨j, -, hj⟩
  · exact (hmask w hw).2 hfd
  · exact h.of_le (fun w hw => (hmask w hw).1) u (List.mem_of_getElem? hj) w hw hfd

theorem Excluded.finished (hn : (s.watches.map Watch.fd).Nodup) (h : Excluded s)
    (hok : FinishesApart s made id) : Excluded (s.finished made id) := by
  rcases s.finished_cases made id with ⟨-, heq⟩ | ⟨i, t, hi, ht, hcases⟩
  · rw [heq]
    exact h
  rcases hcases with ⟨-, heq⟩ | ⟨hclose, heq⟩
  · rw [heq]
    exact fun u hu => h u ((List.eraseIdx_sublist ..).subset hu)
  obtain ⟨hother, hfire⟩ := hok i hi t ht hclose
  rw [heq]
  set s₁ : IOController := { s with
    watches := s.updateMask t.fd fun events => events ||| t.processing
    tasks := s.tasks.set i { t with processing := 0 } } with hs₁
  have hfds : s₁.watches.map Watch.fd = s.watches.map Watch.fd :=
    fd_updateMask s t.fd fun events => events ||| t.processing
  have hwatches : s₁.watches = s.updateMask t.fd fun events => events ||| t.processing := rfl
  refine Excluded.fireEvent (hfds ▸ hn) (fun u hu w hw hfd => ?_) fun t' ht' => ?_
  · rw [hwatches] at hw
    rcases mem_set_cases hu with rfl | ⟨j, hne, hj⟩
    · exact BitVec.and_zero
    · by_cases hfind : s.Finds t.fd
      · rcases mem_updateMask hn hfind hw with ⟨hw, -⟩ | ⟨v, hv, hvfd, hwfd, hevents⟩
        · exact h u (List.mem_of_getElem? hj) w hw hfd
        · -- what is put back is not what this task is processing
          have h₁ := and_eq_zero_iff.mp
            (h u (List.mem_of_getElem? hj) v hv (hvfd.trans (hwfd.symm.trans hfd)))
          have h₂ := and_eq_zero_iff.mp (hother hfind u
            (List.mem_eraseIdx_iff_getElem?.mpr ⟨j, hne, hj⟩) (hfd.symm.trans hwfd))
          rw [hevents, and_eq_zero_iff]
          intro e he
          rw [BitVec.getLsbD_or, Bool.or_eq_true] at he
          rcases he with he | he
          · exact h₁ e he
          · refine Bool.eq_false_iff.mpr fun hu => ?_
            exact absurd (he.symm.trans (h₂ e hu)) (by simp)
      · exact h u (List.mem_of_getElem? hj) w (updateMask_of_not_finds hfind ▸ hw) hfd
  · have ht'' : ({ t with processing := 0 } : IOTask) = t' := by
      have hlt := (List.getElem?_eq_some_iff.mp ht).1
      have : (s.tasks.set i { t with processing := 0 })[i]? = some t' := ht'
      rwa [List.getElem?_set_self hlt, Option.some.injEq] at this
    rw [← ht'']
    intro hidle hen hmade
    by_cases hfind : s.Finds t.fd
    · exact Or.inl ((finds_congr hfds).mpr hfind)
    · refine Or.inr fun w hw => ?_
      rw [hwatches] at hw
      exact (hfire hidle hen hmade).resolve_left hfind w (updateMask_of_not_finds hfind ▸ hw)

/-- **Covered tasks are rebuilt apart**: what some task is processing is held back by the last task
that listens for it. -/
theorem Covered.excluded (h : Covered s.tasks s.tasks) (ha : Arranged s.recv s.entries s.tasks) :
    Excluded s.rebuildList := by
  intro t ht w hw hfd
  have hevents := (rebuilt_rebuiltWatches ha).events w hw (hfd ▸ ha.notifier t ht)
  rw [and_eq_zero_iff]
  intro e he
  rw [hevents, getLsbD_maskOf] at he
  obtain ⟨before, r, rest, heq, hrfd, hlisten, hall⟩ := he
  refine Bool.eq_false_iff.mpr fun hp => ?_
  have hsuffix : ∀ {l before}, Covered s.tasks l → l = before ++ r :: rest →
      Covered s.tasks (r :: rest) := by
    intro l before hl hcut
    induction before generalizing l with
    | nil =>
      rw [hcut] at hl
      exact hl
    | cons a before ih =>
      rw [hcut, List.cons_append, Covered] at hl
      exact ih hl.2 rfl
  have hat := hsuffix h heq
  rw [Covered] at hat
  obtain ⟨u, hu, hufd, hheld⟩ := hat.1 t ht (hfd.symm.trans hrfd.symm) e
    (BitVec.lt_of_getLsbD hlisten) hlisten hp
  exact absurd (hheld.symm.trans (hall u hu (hufd.trans hrfd))) (by simp)

theorem Excluded.collect {revents : Events} {b : Bool} (h : Excluded s) :
    Excluded (s.collect revents b i) := by
  rw [IOController.collect]
  cases ht : s.tasks[i]? with
  | none => exact h
  | some t =>
    intro u hu w hw hfd
    rcases mem_set_cases hu with rfl | ⟨j, -, hj⟩
    · exact h t (List.mem_of_getElem? ht) w hw hfd
    · exact h u (List.mem_of_getElem? hj) w hw hfd

/-- What is kept along a run: one watch for each descriptor, and the exclusion. -/
structure Apart (s : IOController) : Prop where
  arranged : Arranged s.recv s.entries s.tasks
  nodup : (s.watches.map Watch.fd).Nodup
  excluded : Excluded s

theorem fd_fireEvent (s : IOController) (made : Bool) (i : ℕ) :
    (s.fireEvent made i).watches.map Watch.fd = s.watches.map Watch.fd := by
  rcases s.fireEvent_cases made i with heq | ⟨t, -, -, -, -, -, heq⟩
  · rw [heq]
  · rw [heq]
    exact fd_updateMask s t.fd fun events => events &&& ~~~t.waiting

theorem fd_finished : (s.finished made id).watches.map Watch.fd = s.watches.map Watch.fd := by
  rcases s.finished_cases made id with ⟨-, heq⟩ | ⟨i, t, -, -, ⟨-, heq⟩ | ⟨-, heq⟩⟩
  · rw [heq]
  · rw [heq]
  · rw [heq]
    exact (fd_fireEvent _ _ _).trans (fd_updateMask s t.fd fun events => events ||| t.processing)

/-- The reported events do not matter; only the masks do. -/
theorem excluded_modify (h : Excluded s) :
    ∀ t ∈ s.tasks, ∀ w ∈ s.watches.modify k fun w => { w with revents := 0 }, w.fd = t.fd →
      w.events &&& t.processing = 0 := by
  refine h.of_le fun w hw => ?_
  obtain ⟨j, hj⟩ := List.mem_iff_getElem?.mp hw
  rw [List.getElem?_modify] at hj
  obtain ⟨v, hv, rfl⟩ := Option.map_eq_some_iff.mp hj
  refine ⟨v, List.mem_of_getElem? hv, ?_⟩
  split_ifs <;> exact ⟨rfl, fun _ => id⟩

theorem fd_modify : (s.watches.modify k fun w => { w with revents := 0 }).map Watch.fd =
    s.watches.map Watch.fd := by
  refine List.ext_getElem? fun j => ?_
  rw [List.getElem?_map, List.getElem?_map, List.getElem?_modify]
  cases s.watches[j]? with
  | none => rfl
  | some w =>
    show some (Watch.fd (if k = j then { w with revents := 0 } else w)) = some w.fd
    split_ifs <;> rfl

/-- The descriptors of the watches stay different: the watches are rebuilt from the tasks, or keep
their descriptors. -/
theorem Apart.nodup_step {a : Action} (h : Apart s) (hs : step s a = some s') :
    (s'.watches.map Watch.fd).Nodup := by
  cases a with
  | configure fd events reaction sorted =>
    obtain ⟨-, rfl⟩ := step_configure hs
    exact h.nodup
  | unbind id =>
    obtain ⟨-, rfl⟩ := step_unbind hs
    rw [IOController.unbind]
    split <;> exact h.nodup
  | rebuild =>
    obtain ⟨-, rfl⟩ := step_rebuild hs
    exact (rebuilt_rebuiltWatches h.arranged).nodup
  | poll revents =>
    obtain ⟨⟨-, hlength⟩, rfl⟩ := step_poll hs
    have hfds : (s.watches.zipWith (fun w e => { w with revents := e }) revents).map Watch.fd =
        s.watches.map Watch.fd := by
      rw [List.map_zipWith]
      refine List.ext_getElem (by simp [hlength]) fun j h₁ h₂ => ?_
      simp
    exact hfds ▸ h.nodup
  | advance eof made =>
    obtain ⟨-, rfl⟩ | ⟨k, -, rfl⟩ | ⟨k, b, -, rfl⟩ | ⟨k, b, i, left, w, -, -, rfl⟩ :=
      step_advance hs
    · exact h.nodup
    · obtain ⟨-, -, -, -, hw⟩ := processWatch_frame s eof k
      rcases hw with hw | hw <;> rw [hw]
      · exact h.nodup
      · exact fd_modify ▸ h.nodup
    · exact fd_modify (s := s) ▸ h.nodup
    · obtain ⟨-, -, -, hw⟩ := frame_collect s w.revents b i
      have hfds := fd_fireEvent (s.collect w.revents b i) made i
      rw [hw] at hfds
      exact hfds ▸ h.nodup
  | finish k returned made =>
    obtain ⟨job, -, ⟨-, -, rfl⟩ | ⟨-, rfl⟩⟩ := step_finish hs
    · rw [fd_finished]
      exact h.nodup
    · exact h.nodup
  | finished id made =>
    obtain ⟨-, rfl⟩ := step_finished hs
    rw [fd_finished]
    exact h.nodup
  | setEnabled reaction enabled => exact Option.some.inj hs ▸ h.nodup

/-- What a task is processing stays out of the masks, in each of the steps, when these keep it
apart. -/
theorem Apart.excluded_step {a : Action} (h : Apart s) (hok : KeepsApart s a)
    (hs : step s a = some s') :
    Excluded s' := by
  cases a with
  | configure fd events reaction sorted =>
    obtain ⟨⟨-, -, hperm, -⟩, rfl⟩ := step_configure hs
    intro t ht w hw hfd
    have hmem := hperm.subset ht
    rw [List.mem_append, List.mem_singleton] at hmem
    rcases hmem with hmem | rfl
    · exact h.excluded t hmem w hw hfd
    · exact BitVec.and_zero
  | unbind id =>
    obtain ⟨-, rfl⟩ := step_unbind hs
    rw [IOController.unbind]
    split
    · exact h.excluded
    · exact fun t ht => h.excluded t ((List.eraseIdx_sublist ..).subset ht)
  | rebuild =>
    obtain ⟨-, rfl⟩ := step_rebuild hs
    exact Covered.excluded hok h.arranged
  | poll revents =>
    obtain ⟨-, rfl⟩ := step_poll hs
    refine h.excluded.of_le fun w hw => ?_
    obtain ⟨j, hj⟩ := List.mem_iff_getElem?.mp hw
    rw [List.getElem?_zipWith_eq_some] at hj
    obtain ⟨v, e, hv, -, rfl⟩ := hj
    exact ⟨v, List.mem_of_getElem? hv, rfl, fun _ => id⟩
  | advance eof made =>
    obtain ⟨-, rfl⟩ | ⟨k, -, rfl⟩ | ⟨k, b, -, rfl⟩ | ⟨k, b, i, left, w, hphase, hw, rfl⟩ :=
      step_advance hs
    · exact h.excluded
    · obtain ⟨-, -, ht, -, hw⟩ := processWatch_frame s eof k
      rw [Excluded, ht]
      rcases hw with hw | hw <;> rw [hw]
      · exact h.excluded
      · exact excluded_modify h.excluded
    · exact excluded_modify h.excluded
    · rw [KeepsApart, hphase, AdvancesApart] at hok
      obtain ⟨-, -, -, hwatches⟩ := frame_collect s w.revents b i
      refine (h.excluded.collect (i := i)).fireEvent (hwatches ▸ h.nodup) fun t' ht' => ?_
      cases ht : s.tasks[i]? with
      | none =>
        rw [IOController.collect, ht] at ht'
        exact absurd ht (by rw [Option.mem_def.mp ht']; simp)
      | some t =>
        have hcol : s.collect w.revents b i =
            { s with tasks := s.tasks.set i (collected t w.revents b) } := by
          rw [IOController.collect, ht]
        rw [hcol] at ht' ⊢
        have hlt := (List.getElem?_eq_some_iff.mp ht).1
        have ht'' : (s.tasks.set i (collected t w.revents b))[i]? = some t' := ht'
        rw [List.getElem?_set_self hlt, Option.some.injEq] at ht''
        exact ht'' ▸ hok w hw t ht
  | finish k returned made =>
    obtain ⟨job, hjob, ⟨hret, -, rfl⟩ | ⟨-, rfl⟩⟩ := step_finish hs
    · exact Excluded.finished (s := { s with jobs := s.jobs.eraseIdx k }) h.nodup h.excluded
        (hok hret job hjob)
    · exact h.excluded
  | finished id made =>
    obtain ⟨-, rfl⟩ := step_finished hs
    exact h.excluded.finished h.nodup hok
  | setEnabled reaction enabled => exact Option.some.inj hs ▸ h.excluded

theorem Apart.step {a : Action} (h : Apart s) (hok : KeepsApart s a) (hs : step s a = some s') :
    Apart s' :=
  ⟨h.arranged.step hs, h.nodup_step hs, h.excluded_step hok hs⟩

/-- **No event that a task is processing is polled for**, in any run whose steps take what is fired
out of the masks and put nothing back that is still processed. -/
theorem excluded_of_reaches (h : Reaches step KeepsApart (start recv) s) :
    ∀ t ∈ s.tasks, ∀ w ∈ s.watches, w.fd = t.fd → w.events &&& t.processing = 0 := by
  have hstart : Apart (start recv) :=
    ⟨arranged_start recv, by simp [start], fun _ ht => absurd ht List.not_mem_nil⟩
  exact (h.invariant hstart fun _ _ _ hx hok hs => Apart.step hx hok hs).excluded

/-! ## Two runs -/

/-- A reaction task for an event on descriptor 4 is running. -/
theorem excluded_of_reaches_oneRead :
    ∃ s, exec step (start 3) oneRead = some s ∧
      ∀ t ∈ s.tasks, ∀ w ∈ s.watches, w.fd = t.fd → w.events &&& t.processing = 0 := by
  obtain ⟨s, hs⟩ := Option.isSome_iff_exists.mp
    (by decide : (exec step (start 3) oneRead).isSome = true)
  have hok : execOk step KeepsApart (start 3) oneRead := by decide
  exact ⟨s, hs, excluded_of_reaches (reaches_of_exec hs hok)⟩

/-- The same on descriptor 3, when the notifier has descriptor 5 and its watch stands before that of
descriptor 3. -/
def belowNotifier : List Action :=
  [.configure 3 EventType.READ 1 [⟨3, EventType.READ, 0, 0, 1, 0⟩], .rebuild,
    .poll [0, EventType.READ], .advance false true, .advance false true, .advance false true,
    .advance false true]

/-- The search for the watch does not find it, so the event stays in the mask while it is processed.
-/
theorem not_excluded_of_belowNotifier :
    ¬ ∀ (recv : ℤ) (s : IOController), Reaches step Always (start recv) s →
      ∀ t ∈ s.tasks, ∀ w ∈ s.watches, w.fd = t.fd → w.events &&& t.processing = 0 := by
  intro h
  obtain ⟨s, hs⟩ := Option.isSome_iff_exists.mp
    (by decide : (exec step (start 5) belowNotifier).isSome = true)
  have hend : (exec step (start 5) belowNotifier).map (fun s => (s.tasks, s.watches)) =
      some ([⟨3, EventType.READ, 0, EventType.READ, 1, 0⟩],
        [⟨5, EventType.READ ||| EventType.ERROR, 0⟩, ⟨3, EventType.READ, EventType.READ⟩]) := by
    decide
  rw [hs, Option.map_some, Option.some.injEq, Prod.mk.injEq] at hend
  obtain ⟨htasks, hwatches⟩ := hend
  have := h 5 s (reaches_always_of_exec hs) ⟨3, EventType.READ, 0, EventType.READ, 1, 0⟩
    (htasks ▸ List.mem_singleton.mpr rfl) ⟨3, EventType.READ, EventType.READ⟩
    (by rw [hwatches]; simp) rfl
  exact absurd this (by decide)

end IOController

end Extension
end NUClear
