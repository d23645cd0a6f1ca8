import Mathlib.Data.List.Induction
import Mathlib.Data.List.Nodup
import NUClear.Extension.IOController

/-!
# What a rebuilt list of watches listens for

`rebuild_list` goes through the tasks in the order of the list.  Each task adds the events it
listens for to the mask of its descriptor, and takes out those that it is processing and those that
wait in it.  So an event is in the mask when a task listens for it and neither this task nor one
behind it holds it back (`getLsbD_maskOf`): the order of the tasks of a descriptor matters.

* `maskOf`: what the tasks of a descriptor leave in its mask, by recursion on the list;
  `getLsbD_maskOf` says it event by event.
* `Rebuilt`, `rebuilt_rebuiltWatches`: the watch of the notifier comes first, and behind it there is
  one watch for each descriptor, in increasing order, with that mask.  The induction is on the
  tasks, and needs them to be sorted by the descriptor, so that the last watch is that of the last
  task.
* `Arranged`: the tasks are sorted, and each comes from a configuration of its own.  What waits and
  what is processed does not matter for it (`Arranged.congr`).

The last section says what the operations on the tasks leave as it is: `fire_event`, `IOFinished`
and the loop after `poll` change what waits and what is processed, and no configuration.  `IOMasks`
and `IOPolling` go on from both.
-/

namespace NUClear
namespace Extension

open Foundation

namespace IOController

variable {s s' : IOController} {tasks ts : List IOTask} {watches ws : List Watch} {t u : IOTask}
  {w : Watch} {fd recv : ℤ} {e i k id : ℕ} {made : Bool}

/-! ## The mask of a descriptor -/

/-- What the tasks of a descriptor leave in its mask, one after the other: each adds what it listens
for, and takes out what it processes and what waits in it. -/
def maskOf (fd : ℤ) (tasks : List IOTask) : Events :=
  tasks.foldl (fun m r => if r.fd = fd then
    (m ||| r.listening) &&& ~~~(r.processing ||| r.waiting) else m) 0

@[simp] theorem maskOf_nil : maskOf fd [] = 0 := rfl

theorem maskOf_concat : maskOf fd (ts ++ [t]) = if t.fd = fd then
    (maskOf fd ts ||| t.listening) &&& ~~~(t.processing ||| t.waiting) else maskOf fd ts := by
  rw [maskOf, List.foldl_append]
  rfl

theorem maskOf_of_forall_ne (h : ∀ t ∈ ts, t.fd ≠ fd) : maskOf fd ts = 0 := by
  induction ts using List.reverseRecOn with
  | nil => rfl
  | append_singleton ts t ih =>
    rw [maskOf_concat, if_neg (h t (by simp))]
    exact ih fun u hu => h u (by simp [hu])

/-- Some task of the descriptor listens for the event, and neither it nor one behind it holds the
event back. -/
def Listened (held : IOTask → Events) (tasks : List IOTask) (fd : ℤ) (e : ℕ) : Prop :=
  ∃ before t after, tasks = before ++ t :: after ∧ t.fd = fd ∧ t.listening.getLsbD e = true ∧
    ∀ u ∈ t :: after, u.fd = fd → (held u).getLsbD e = false

theorem listened_concat {held : IOTask → Events} : Listened held (ts ++ [t]) fd e ↔
    if t.fd = fd then (Listened held ts fd e ∨ t.listening.getLsbD e = true) ∧
      (held t).getLsbD e = false else Listened held ts fd e := by
  constructor
  · rintro ⟨before, u, after, heq, hfd, hl, hheld⟩
    rcases List.eq_nil_or_concat after with rfl | ⟨after, v, rfl⟩
    · -- the last task itself
      obtain ⟨rfl, hlast⟩ := List.append_inj' heq rfl
      obtain rfl : t = u := List.singleton_inj.mp hlast
      rw [if_pos hfd]
      exact ⟨Or.inr hl, hheld t (List.mem_singleton.mpr rfl) hfd⟩
    · rw [List.concat_eq_append, ← List.cons_append, ← List.append_assoc] at heq
      obtain ⟨rfl, hlast⟩ := List.append_inj' heq rfl
      obtain rfl : t = v := List.singleton_inj.mp hlast
      have hts : Listened held (before ++ u :: after) fd e :=
        ⟨before, u, after, rfl, hfd, hl, fun x hx => hheld x (by
          rw [List.concat_eq_append, ← List.cons_append]
          exact List.mem_append_left _ hx)⟩
      split_ifs with ht
      · exact ⟨Or.inl hts, hheld t (by simp) ht⟩
      · exact hts
  · intro h
    have hmore : Listened held ts fd e → (t.fd = fd → (held t).getLsbD e = false) →
        Listened held (ts ++ [t]) fd e := by
      rintro ⟨before, u, after, rfl, hfd, hl, hheld⟩ ht
      refine ⟨before, u, after ++ [t], by simp, hfd, hl, fun x hx hxfd => ?_⟩
      rw [← List.cons_append, List.mem_append, List.mem_singleton] at hx
      rcases hx with hx | rfl
      · exact hheld x hx hxfd
      · exact ht hxfd
    split_ifs at h with ht
    · rcases h.1 with hts | hl
      · exact hmore hts fun _ => h.2
      · refine ⟨ts, t, [], rfl, ht, hl, fun x hx _ => ?_⟩
        rw [List.mem_singleton.mp hx]
        exact h.2
    · exact hmore h fun hfd => absurd hfd ht

/-- **What is in the mask**: an event that some task listens for, and that no task from this one on
holds back. -/
theorem getLsbD_maskOf : (maskOf fd tasks).getLsbD e = true ↔
    Listened (fun t => t.processing ||| t.waiting) tasks fd e := by
  induction tasks using List.reverseRecOn with
  | nil =>
    rw [maskOf_nil]
    refine ⟨fun h => absurd h (by simp), ?_⟩
    rintro ⟨before, t, after, heq, -⟩
    exact absurd heq (by simp)
  | append_singleton ts t ih =>
    rw [maskOf_concat, listened_concat]
    split_ifs
    · rw [BitVec.getLsbD_and, BitVec.getLsbD_or, BitVec.getLsbD_not, Bool.and_eq_true,
        Bool.or_eq_true, ih, Bool.and_eq_true, Bool.not_eq_true', decide_eq_true_eq]
      refine ⟨fun h => ⟨h.1, h.2.2⟩, fun h => ⟨h.1, ?_, h.2⟩⟩
      -- the event is one of the 16
      rcases h.1 with hts | hl
      · exact BitVec.lt_of_getLsbD (ih.mpr hts)
      · exact BitVec.lt_of_getLsbD hl
    · exact ih

/-! ## The rebuilt list -/

/-- The watches that come from these tasks: one for each descriptor, with the mask that the tasks of
the descriptor leave. -/
structure Rebuilt (recv : ℤ) (tasks : List IOTask) (ws : List Watch) : Prop where
  nodup : (ws.map Watch.fd).Nodup
  events : ∀ w ∈ ws, w.fd ≠ recv → w.events = maskOf w.fd tasks
  origin : ∀ w ∈ ws, w.fd ≠ recv → ∃ t ∈ tasks, t.fd = w.fd
  complete : ∀ t ∈ tasks, ∃ w ∈ ws, w.fd = t.fd
  /-- The last watch is that of the last task. -/
  last : ∃ w, ws.getLast? = some w ∧ ∀ t ∈ tasks.getLast?, w.fd = t.fd

theorem Rebuilt.step (h : Rebuilt recv ts ws) (hs : ∀ u ∈ ts, ∀ v ∈ ts.getLast?, u.fd ≤ v.fd)
    (ht : ∀ u ∈ ts, u.fd ≤ t.fd) (hr : t.fd ≠ recv) :
    Rebuilt recv (ts ++ [t]) (rebuildStep ws t) := by
  obtain ⟨w, hw, hlast⟩ := h.last
  obtain ⟨init, rfl⟩ := List.getLast?_eq_some_iff.mp hw
  rw [rebuildStep, hw]
  dsimp only
  by_cases hfd : t.fd = w.fd
  · -- the last watch is that of the task
    rw [if_pos hfd, List.dropLast_concat]
    set w' : Watch := { w with
      events := (w.events ||| t.listening) &&& ~~~(t.processing ||| t.waiting) } with hw'
    have hne : ∀ v ∈ init, v.fd ≠ w.fd := by
      intro v hv heq
      have hnd := h.nodup
      rw [List.map_append, List.nodup_append] at hnd
      exact hnd.2.2 v.fd (List.mem_map_of_mem hv) w.fd (by simp) heq
    have hmem : w ∈ init ++ [w] := by simp
    refine ⟨?_, fun v hv hvr => ?_, fun v hv hvr => ?_, fun u hu => ?_, w', by simp, ?_⟩
    · have hfds : (init ++ [w']).map Watch.fd = (init ++ [w]).map Watch.fd := by simp [hw']
      rw [hfds]
      exact h.nodup
    · rw [maskOf_concat]
      rcases List.mem_append.mp hv with hv | hv
      · rw [if_neg fun heq => hne v hv (heq.symm.trans hfd)]
        exact h.events v (List.mem_append_left _ hv) hvr
      · rw [List.mem_singleton.mp hv, if_pos hfd, hw', h.events w hmem (hfd ▸ hr)]
    · rcases List.mem_append.mp hv with hv | hv
      · obtain ⟨u, hu, heq⟩ := h.origin v (List.mem_append_left _ hv) hvr
        exact ⟨u, List.mem_append_left _ hu, heq⟩
      · rw [List.mem_singleton.mp hv]
        exact ⟨t, by simp, hfd⟩
    · have hfind : ∃ v ∈ init ++ [w], v.fd = u.fd := by
        rcases List.mem_append.mp hu with hu | hu
        · exact h.complete u hu
        · rw [List.mem_singleton.mp hu]
          exact ⟨w, hmem, hfd.symm⟩
      obtain ⟨v, hv, heq⟩ := hfind
      rcases List.mem_append.mp hv with hv | hv
      · exact ⟨v, List.mem_append_left _ hv, heq⟩
      · exact ⟨w', by simp, by rw [← heq, List.mem_singleton.mp hv]⟩
    · intro u hu
      rw [List.getLast?_concat, Option.mem_some_iff] at hu
      rw [← hu]
      exact hfd.symm
  · -- a new watch, and no earlier task has this descriptor
    rw [if_neg hfd]
    have hnew : ∀ u ∈ ts, u.fd ≠ t.fd := by
      intro u hu heq
      obtain ⟨v, hv⟩ : ∃ v, ts.getLast? = some v :=
        ⟨_, List.getLast?_eq_some_getLast (List.ne_nil_of_mem hu)⟩
      have h₁ := hs u hu v hv
      have h₂ := ht v (List.mem_of_getLast? hv)
      have h₃ := hlast v hv
      exact hfd (by omega)
    set w' : Watch := ⟨t.fd, t.listening &&& ~~~(t.processing ||| t.waiting), 0⟩ with hw'
    have hfresh : ∀ v ∈ init ++ [w], v.fd ≠ t.fd := by
      intro v hv heq
      obtain ⟨u, hu, hut⟩ := h.origin v hv (heq ▸ hr)
      exact hnew u hu (hut.trans heq)
    refine ⟨?_, fun v hv hvr => ?_, fun v hv hvr => ?_, fun u hu => ?_, w', by simp, ?_⟩
    · rw [List.map_append, List.nodup_append]
      refine ⟨h.nodup, by simp, fun a ha b hb heq => ?_⟩
      obtain ⟨v, hv, rfl⟩ := List.mem_map.mp ha
      rw [List.map_singleton, List.mem_singleton] at hb
      exact hfresh v hv (heq.trans hb)
    · rw [maskOf_concat]
      rcases List.mem_append.mp hv with hv | hv
      · rw [if_neg (hfresh v hv).symm]
        exact h.events v hv hvr
      · rw [List.mem_singleton.mp hv, if_pos rfl, maskOf_of_forall_ne hnew, hw']
        simp
    · rcases List.mem_append.mp hv with hv | hv
      · obtain ⟨u, hu, heq⟩ := h.origin v hv hvr
        exact ⟨u, List.mem_append_left _ hu, heq⟩
      · rw [List.mem_singleton.mp hv]
        exact ⟨t, by simp, rfl⟩
    · rcases List.mem_append.mp hu with hu | hu
      · obtain ⟨v, hv, heq⟩ := h.complete u hu
        exact ⟨v, List.mem_append_left _ hv, heq⟩
      · rw [List.mem_singleton.mp hu]
        exact ⟨w', by simp, rfl⟩
    · intro u hu
      rw [List.getLast?_concat, Option.mem_some_iff] at hu
      rw [← hu]

/-! ## The list of tasks -/

/-- A task as it was configured, with nothing waiting and nothing being processed. -/
def configuration (t : IOTask) : IOTask := { t with waiting := 0, processing := 0 }

/-- The tasks are sorted by `operator<`, each comes from a configuration of its own, and none is on
the descriptor of the notifier. -/
structure Arranged (recv : ℤ) (entries : ℕ) (tasks : List IOTask) : Prop where
  sorted : tasks.Pairwise fun t u => ¬ u.lt t
  notifier : ∀ t ∈ tasks, t.fd ≠ recv
  nodup : (tasks.map IOTask.entry).Nodup
  lt : ∀ t ∈ tasks, t.entry < entries

theorem Arranged.sublist {entries : ℕ} (h : Arranged recv entries tasks) (hsub : ts.Sublist tasks) :
    Arranged recv entries ts :=
  ⟨h.sorted.sublist hsub, fun t ht => h.notifier t (hsub.subset ht), h.nodup.sublist (hsub.map _),
    fun t ht => h.lt t (hsub.subset ht)⟩

/-- What waits and what is processed does not matter, since the tasks are ordered by their
descriptors and what they listen for. -/
theorem Arranged.congr {entries : ℕ} (h : Arranged recv entries tasks)
    (heq : ts.map configuration = tasks.map configuration) : Arranged recv entries ts := by
  have hmem : ∀ t ∈ ts, ∃ u ∈ tasks, configuration u = configuration t := by
    intro t ht
    have := List.mem_map_of_mem (f := configuration) ht
    rw [heq, List.mem_map] at this
    exact this
  refine ⟨?_, fun t ht => ?_, ?_, fun t ht => ?_⟩
  · have hs : (tasks.map configuration).Pairwise fun t u => ¬ u.lt t :=
      List.pairwise_map.mpr h.sorted
    rw [← heq] at hs
    exact List.pairwise_map.mp hs
  · obtain ⟨u, hu, huv⟩ := hmem t ht
    have : t.fd = u.fd := (congrArg IOTask.fd huv).symm
    exact this ▸ h.notifier u hu
  · have hn : ((tasks.map configuration).map IOTask.entry).Nodup := by
      rw [List.map_map]
      exact h.nodup
    rw [← heq, List.map_map] at hn
    exact hn
  · obtain ⟨u, hu, huv⟩ := hmem t ht
    have : t.entry = u.entry := (congrArg IOTask.entry huv).symm
    exact this ▸ h.lt u hu

theorem fd_le_of_not_lt (h : ¬ u.lt t) : t.fd ≤ u.fd := by
  rw [IOTask.lt] at h
  split_ifs at h with heq
  · exact heq.ge
  · simpa using h

theorem rebuilt_of_sorted {w₀ : Watch} (hw₀ : w₀.fd = recv)
    (hs : tasks.Pairwise fun t u => t.fd ≤ u.fd) (hr : ∀ t ∈ tasks, t.fd ≠ recv) :
    Rebuilt recv tasks (tasks.foldl rebuildStep [w₀]) := by
  induction tasks using List.reverseRecOn with
  | nil =>
    refine ⟨by simp, fun w hw hwr => ?_, fun w hw hwr => ?_, by simp, w₀, rfl, by simp⟩
    all_goals exact absurd (List.mem_singleton.mp hw ▸ hw₀) hwr
  | append_singleton ts t ih =>
    rw [List.foldl_append]
    obtain ⟨hts, -, hlast⟩ := List.pairwise_append.mp hs
    refine (ih hts fun u hu => hr u (by simp [hu])).step (fun u hu v hv => ?_)
      (fun u hu => hlast u hu t (by simp)) (hr t (by simp))
    obtain ⟨init, rfl⟩ := List.getLast?_eq_some_iff.mp hv
    rcases List.mem_append.mp hu with hu | hu
    · exact (List.pairwise_append.mp hts).2.2 u hu v (by simp)
    · rw [List.mem_singleton.mp hu]

/-- **What `rebuild_list` makes** of sorted tasks: the watch of a descriptor is the last one as long
as its tasks come, so there is one for each. -/
theorem rebuilt_rebuiltWatches {entries : ℕ} (h : Arranged s.recv entries s.tasks) :
    Rebuilt s.recv s.tasks s.rebuiltWatches :=
  rebuilt_of_sorted rfl (h.sorted.imp fd_le_of_not_lt) h.notifier

/-! ## Operations -/

/-- `fire_event` when it gets a task: what waits is being processed, and is taken out of the mask of
the watch that is found. -/
def fired (s : IOController) (i : ℕ) (t : IOTask) : IOController :=
  { s with
    tasks := s.tasks.set i { t with processing := t.waiting, waiting := 0 }
    watches := s.updateMask t.fd fun events => events &&& ~~~t.waiting
    jobs := s.jobs ++ [⟨t.reaction, t.entry⟩] }

theorem set_of_getElem? {α : Type} {l : List α} {x : α} (h : l[i]? = some x) : l.set i x = l := by
  obtain ⟨hi, rfl⟩ := List.getElem?_eq_some_iff.mp h
  exact List.set_getElem_self hi

/-- **`fire_event` makes a task for what waits, or does nothing.** -/
theorem fireEvent_cases (s : IOController) (made : Bool) (i : ℕ) : s.fireEvent made i = s ∨
    ∃ t, s.tasks[i]? = some t ∧ t.processing = 0 ∧ t.waiting ≠ 0 ∧ s.enabled t.reaction = true ∧
      made = true ∧ s.fireEvent made i = s.fired i t := by
  rw [fireEvent]
  cases ht : s.tasks[i]? with
  | none => exact Or.inl rfl
  | some t =>
    dsimp only
    split_ifs with hidle hgets
    · rw [Bool.and_eq_true] at hgets
      exact Or.inr ⟨t, rfl, hidle.1, hidle.2, hgets.1, hgets.2, rfl⟩
    · left
      have hsame : ({ t with waiting := t.waiting ||| t.processing, processing := 0 } : IOTask) =
        t := by
        cases t
        obtain rfl := hidle.1
        simp
      rw [hsame, set_of_getElem? ht]
    · exact Or.inl rfl

theorem map_configuration_set {t' : IOTask} (ht : tasks[i]? = some t)
    (heq : configuration t' = configuration t) :
    (tasks.set i t').map configuration = tasks.map configuration := by
  rw [List.map_set, heq]
  refine set_of_getElem? ?_
  rw [List.getElem?_map, ht, Option.map_some]

theorem configuration_fireEvent :
    (s.fireEvent made i).tasks.map configuration = s.tasks.map configuration := by
  rcases s.fireEvent_cases made i with heq | ⟨t, ht, -, -, -, -, heq⟩
  · rw [heq]
  · rw [heq]
    exact map_configuration_set ht rfl

theorem configuration_collect {revents : Events} {b : Bool} :
    (s.collect revents b i).tasks.map configuration = s.tasks.map configuration := by
  rw [collect]
  cases ht : s.tasks[i]? with
  | none => rfl
  | some t => exact map_configuration_set ht rfl

/-- `IOFinished` finds no task, or takes it away when it has processed a CLOSE, or puts its events
back into the mask and fires it again. -/
theorem finished_cases (s : IOController) (made : Bool) (id : ℕ) :
    s.tasks.findIdx? (fun t => t.reaction == id) = none ∧ s.finished made id = s ∨
      ∃ i t, s.tasks.findIdx? (fun t => t.reaction == id) = some i ∧
      s.tasks[i]? = some t ∧
      (t.processing &&& EventType.CLOSE ≠ 0 ∧
          s.finished made id = { s with dirty := true, tasks := s.tasks.eraseIdx i } ∨
        t.processing &&& EventType.CLOSE = 0 ∧ s.finished made id = { s with
          watches := s.updateMask t.fd fun events => events ||| t.processing
          tasks := s.tasks.set i { t with processing := 0 } }.fireEvent made i) := by
  rw [finished]
  cases hi : s.tasks.findIdx? fun t => t.reaction == id with
  | none => exact Or.inl ⟨rfl, rfl⟩
  | some i =>
    dsimp only
    cases ht : s.tasks[i]? with
    | none =>
      obtain ⟨hlt, -⟩ := List.findIdx?_eq_some_iff_getElem.mp hi
      exact absurd ht (by simpa using hlt)
    | some t =>
      dsimp only
      split_ifs with hc
      · exact Or.inr ⟨i, t, rfl, ht, Or.inl ⟨hc, rfl⟩⟩
      · exact Or.inr ⟨i, t, rfl, ht, Or.inr ⟨not_not.mp hc, rfl⟩⟩

/-- What no operation on the tasks changes: the notifier, the number of the next configuration, and
which reactions are enabled. -/
theorem frame_fireEvent (s : IOController) (made : Bool) (i : ℕ) :
    (s.fireEvent made i).recv = s.recv ∧
    (s.fireEvent made i).entries = s.entries ∧ (s.fireEvent made i).enabled = s.enabled := by
  rcases s.fireEvent_cases made i with heq | ⟨t, -, -, -, -, -, heq⟩ <;> rw [heq] <;>
    exact ⟨rfl, rfl, rfl⟩

theorem frame_finished (s : IOController) (made : Bool) (id : ℕ) :
    (s.finished made id).recv = s.recv ∧
    (s.finished made id).entries = s.entries ∧ (s.finished made id).enabled = s.enabled := by
  rcases s.finished_cases made id with ⟨-, heq⟩ | ⟨i, t, -, -, ⟨-, heq⟩ | ⟨-, heq⟩⟩
  · rw [heq]
    exact ⟨rfl, rfl, rfl⟩
  · rw [heq]
    exact ⟨rfl, rfl, rfl⟩
  · rw [heq]
    exact frame_fireEvent _ _ _

theorem frame_collect (s : IOController) (revents : Events) (b : Bool) (i : ℕ) :
    (s.collect revents b i).recv = s.recv ∧
    (s.collect revents b i).entries = s.entries ∧ (s.collect revents b i).jobs = s.jobs ∧
    (s.collect revents b i).watches = s.watches := by
  rw [collect]
  split <;> exact ⟨rfl, rfl, rfl, rfl⟩

theorem processWatch_frame (s : IOController) (eof : Bool) (k : ℕ) :
    (s.processWatch eof k).recv = s.recv ∧
    (s.processWatch eof k).entries = s.entries ∧ (s.processWatch eof k).tasks = s.tasks ∧
    (s.processWatch eof k).jobs = s.jobs ∧ ((s.processWatch eof k).watches = s.watches ∨
      (s.processWatch eof k).watches = s.watches.modify k fun w => { w with revents := 0 }) := by
  rw [processWatch]
  split
  · exact ⟨rfl, rfl, rfl, rfl, Or.inl rfl⟩
  · dsimp only
    split_ifs
    · exact ⟨rfl, rfl, rfl, rfl, Or.inl rfl⟩
    · exact ⟨rfl, rfl, rfl, rfl, Or.inr rfl⟩
    · exact ⟨rfl, rfl, rfl, rfl, Or.inr rfl⟩
    · exact ⟨rfl, rfl, rfl, rfl, Or.inl rfl⟩

end IOController

end Extension
end NUClear
