import NUClear.Scheduler.Queue.Fifo

/-!
# The graveyard

Blocks that are read are kept in the graveyard until the queue is destroyed.  A run of calls that
are made one after the other is measured in every state: how many blocks were reached from `head` at
most (`Measured`).

* `Measured.counted`: after a run, the blocks in the graveyard and the peak are those that the items
  of the calls need (`Counts`): a block for every 64 items that were dequeued, but for those in the
  block at `head`.
* `graveyard_le_peak_iff`: so the graveyard is bounded by the peak exactly when the queue is
  short-lived.
* `not_graveyard_le_peak`: a queue that never has more than one item outgrows its peak.
-/

namespace NUClear
namespace Scheduler
namespace Queue

open Foundation QueueHistory

variable {α γ : Type} {m m' : Memory α} {tr : List (QueueEvent (Item α))}

/-! ## Measured runs -/

/-- The number of blocks that are reached from `head`. -/
def reachedLength (m : Memory α) : ℕ := ((chain (fun b => (m.block b).next) m.made
    (some m.head)).getD []).length

/-- The number of blocks in the graveyard. -/
def graveyardLength (m : Memory α) : ℕ :=
  ((chain (fun b => (m.block b).graveyardNext) m.made m.graveyard).getD []).length

/-- A run along `calls`, each made when the one before has returned, and the largest number of
blocks that were reached from `head` in one of its states. -/
inductive Measured (C : Consumer α γ) : List (Call α) → State α γ → ℕ → Prop
  | start : Measured C [] start (reachedLength (start : State α γ).mem)
  | call {calls : List (Call α)} {s s' : State α γ} {peak : ℕ} {c : Call α}
    (h : Measured C calls s peak)
      (hidle : s.ops = []) (hstep : C.program.step s (.call c) = some s') :
      Measured C (calls ++ [c]) s' (max peak (reachedLength s'.mem))
  | advance {calls : List (Call α)} {s s' : State α γ} {peak i : ℕ} {z : Bool}
    (h : Measured C calls s peak)
      (hstep : C.program.step s (.advance i z) = some s') :
      Measured C calls s' (max peak (reachedLength s'.mem))

theorem reachedLength_eq (h : m.WellFormed) : reachedLength m = m.made - m.head := by
  rw [reachedLength, chain_next h h.head_lt (Nat.sub_le ..), Option.getD_some, List.length_range']

theorem graveyardLength_eq (h : Buried m m.head) (hlt : m.head < m.made) :
    graveyardLength m = m.head := by
  rw [graveyardLength, h.graveyard, chain_of_pred h.next (Nat.le_of_lt hlt), Option.getD_some,
    List.length_reverse,
    List.length_range]

/-! ## The blocks that the items need -/

/-- How many items were enqueued and dequeued, and the largest number of blocks that those in the
queue spanned. `left` is one when the block at `head` is left with its last item because there are
others behind it. -/
structure Counts where
  enqueued : ℕ
  dequeued : ℕ
  left : ℕ
  peak : ℕ
  deriving DecidableEq, Repr

namespace Counts

/-- The blocks that were left. -/
def retired (k : Counts) : ℕ := (k.dequeued + k.left - 1) / blockSize

/-- The blocks from the first item that is in the queue to the last. -/
def spanned (k : Counts) : ℕ := (k.enqueued - 1) / blockSize + 1 - k.retired

def measure (k : Counts) : Counts := { k with peak := max k.peak k.spanned }

/-- A call of the queue.  Where the consumer that is done with the last slot of a block reclaims it
(`reclaims`), that is when the next block is there already. -/
def call (reclaims : Bool) (k : Counts) : Call α → Counts
  | .enqueue .. => measure { k with enqueued := k.enqueued + 1 }
  | .tryDequeue =>
      if k.dequeued < k.enqueued then
        measure { k with
          dequeued := k.dequeued + 1
          left := if reclaims ∧ k.dequeued + 1 < k.enqueued then 1 else 0 }
      else k

def run (reclaims : Bool) (calls : List (Call α)) : Counts :=
  calls.foldl (call reclaims) ⟨0, 0, 0, 1⟩

theorem run_concat (reclaims : Bool) (calls : List (Call α)) (c : Call α) :
    run reclaims (calls ++ [c]) = (run reclaims calls).call reclaims c := by
  rw [run, run, List.foldl_concat]

end Counts

/-- The items and the blocks of a queue are those of the counts. -/
structure Counted (s : State α γ) (k : Counts) : Prop where
  enqueued : QueueHistory.places s.trace = k.enqueued
  dequeued : QueueHistory.claims s.trace = k.dequeued
  retired : s.mem.head = k.retired
  peak : k.spanned ≤ k.peak

/-- The last block has an item, so the number of blocks is that which the items need. -/
theorem AtRest.made_eq (h : AtRest m) (hb : Board m tr) :
    m.made = (QueueHistory.places tr - 1) / blockSize + 1 := by
  have hmade : m.made - 1 = m.tail := by
    have htail := h.tail
    omega
  have hused := h.used
  have htail := h.tail
  have hwrite := h.write
  rw [hb.places, Memory.places, hmade]
  simp only [place, blockSize] at hwrite ⊢
  omega

namespace Counted

variable {s s' : State α γ} {k : Counts} {reclaims : Bool}

theorem start (reclaims : Bool) : Counted (Queue.start : State α γ)
    (Counts.run (α := α) reclaims []) where
  enqueued := rfl
  dequeued := rfl
  retired := (Nat.zero_div blockSize).symm
  peak := by
    show (0 - 1) / blockSize + 1 - (0 + 0 - 1) / blockSize ≤ 1
    decide

theorem reached (h : Counted s k) (hb : Board s.mem s.trace) (hrest : AtRest s.mem) :
    reachedLength s.mem = k.spanned := by
  rw [reachedLength_eq hb.wf, hrest.made_eq hb, h.enqueued, h.retired]
  rfl

theorem enqueue {p : ℕ} {v : α} (h : Counted s k) (henqueued : Enqueued s s' p v) :
    Counted s' (k.call reclaims (.enqueue p v)) := by
  obtain ⟨n, htrace⟩ := henqueued.trace
  refine ⟨?_, ?_, henqueued.head.trans h.retired, Nat.le_max_right _ _⟩
  · rw [htrace]
    exact congrArg (· + 1) h.enqueued
  · rw [htrace]
    exact h.dequeued

/-- An item was taken: `head` is where the counts say. -/
theorem took (h : Counted s k) (hlt : claims s.trace < places s.trace)
    (htook : Took s.trace s'.trace) (hhead : s'.mem.head =
      (k.dequeued + 1 + (if reclaims ∧ k.dequeued + 1 < k.enqueued then 1 else 0) - 1) /
        blockSize) :
    Counted s' (k.call reclaims (.tryDequeue : Call α)) := by
  obtain ⟨x, -, htrace⟩ := htook
  rw [h.dequeued, h.enqueued] at hlt
  rw [Counts.call, if_pos hlt]
  refine ⟨?_, ?_, hhead, Nat.le_max_right _ _⟩
  · rw [htrace]
    exact h.enqueued
  · rw [htrace]
    exact congrArg (· + 1) h.dequeued

theorem empty (h : Counted s k) (hempty : FoundEmpty s.trace s'.trace)
    (hhead : s'.mem.head = s.mem.head) :
    Counted s' (k.call reclaims (.tryDequeue : Call α)) := by
  obtain ⟨hclaims, htrace⟩ := hempty
  rw [h.dequeued, h.enqueued] at hclaims
  rw [Counts.call, if_neg (Nat.not_lt.mpr (Nat.le_of_eq hclaims.symm))]
  refine ⟨?_, ?_, hhead.trans h.retired, h.peak⟩
  · rw [htrace]
    exact h.enqueued
  · rw [htrace]
    exact h.dequeued

end Counted

/-! ## The peak -/

theorem Enqueue.made_le_of_advance {e : Enqueue α} {z : Bool}
    {r : Outcome (Memory α) (Enqueue α) (QueueEvent (Item α))} (hr : e.advance m z = some r) :
    m.made ≤ r.mem.made := by
  cases e with
  | addWrite x b =>
    simp only [advance] at hr
    split_ifs at hr <;> obtain rfl := Option.some.inj hr
    all_goals exact Nat.le_refl _
  | linkNext x b =>
    obtain rfl := Option.some.inj hr
    show m.made ≤ (m.linkNextBlock b).made
    rw [Memory.linkNextBlock]
    split_ifs
    exacts [Nat.le_succ _, Nat.le_refl _]
  | loadNext x b =>
    obtain ⟨n, -, rfl⟩ := Option.map_eq_some_iff.mp hr
    exact Nat.le_refl _
  | exchangeTail x b n =>
    simp only [advance] at hr
    split_ifs at hr <;> obtain rfl := Option.some.inj hr
    all_goals exact Nat.le_refl _
  | _ =>
    obtain rfl := Option.some.inj hr
    exact Nat.le_refl _

/-- Blocks are linked, and never unlinked. -/
theorem made_le_of_reaches {C : Consumer α γ}
    (hC : ∀ m c z r, C.advance m c z = some r → Frame m r.mem)
    {ok : State α γ → Action (Call α) Bool → Prop} {s s' : State α γ}
    (h : Reaches C.program.step ok s s') :
    s.mem.made ≤ s'.mem.made := by
  refine Program.invariant (I := fun t => s.mem.made ≤ t.mem.made) h (Nat.le_refl _)
    (fun m ops tr c r hle _ hr => ?_) fun m pre o post tr z r hle _ hr => ?_
  · cases c with
    | enqueue p v | tryDequeue =>
      simp only [Consumer.program] at hr
      split_ifs at hr
      obtain rfl := Option.some.inj hr
      exact hle
  · cases o with
    | enqueue e =>
      obtain ⟨r', hr', rfl⟩ := Option.map_eq_some_iff.mp hr
      exact Nat.le_trans hle (Enqueue.made_le_of_advance hr')
    | dequeue c =>
      obtain ⟨r', hr', rfl⟩ := Option.map_eq_some_iff.mp hr
      exact Nat.le_trans hle (hC m c z r' hr').made.ge

/-- Inside a call no more blocks are reached than before or after it. -/
def Between (C : Consumer α γ) (s : State α γ) (c : Call α) : Prop :=
  ∀ s₁ s', C.program.Within s c s₁ → Reaches C.program.step
    (fun _ a => a.IsAdvance) s₁ s' → s'.ops = [] →
    reachedLength s₁.mem ≤ max (reachedLength s.mem) (reachedLength s'.mem)

/-- What is shown for each queue: calls keep `Resting`, and the counts. -/
structure KeepsCounts (C : Consumer α γ) (reclaims : Bool) (Resting : State α γ → Prop) : Prop where
  start : Resting start
  idle : ∀ s, Resting s → s.ops = []
  board : ∀ s, Resting s → Board s.mem s.trace
  rest : ∀ s, Resting s → AtRest s.mem
  returns : ∀ s s' c k, Resting s → Counted s k → C.program.Returns s c s' →
    Resting s' ∧ Counted s' (k.call reclaims c)
  between : ∀ s c, Resting s → Between C s c

theorem Counts.peak_call (reclaims : Bool) (k : Counts) (hk : k.spanned ≤ k.peak) (c : Call α) :
    (k.call reclaims c).peak = max k.peak (k.call reclaims c).spanned := by
  cases c with
  | enqueue p v => rfl
  | tryDequeue =>
    by_cases hlt : k.dequeued < k.enqueued
    · rw [call, if_pos hlt]
      rfl
    · rw [call, if_neg hlt, Nat.max_eq_left hk]

section

variable {C : Consumer α γ} {reclaims : Bool} {Resting : State α γ → Prop} {calls : List (Call α)}
  {s : State α γ} {peak : ℕ}

theorem KeepsCounts.reached (hC : KeepsCounts C reclaims Resting) {k : Counts} (hs : Resting s)
    (hk : Counted s k) :
    reachedLength s.mem = k.spanned :=
  hk.reached (hC.board s hs) (hC.rest s hs)

/-- No call is in progress, and the peak is that of the counts. -/
def Returned (reclaims : Bool) (Resting : State α γ → Prop) (calls : List (Call α))
    (s : State α γ) (peak : ℕ) :
    Prop :=
  Resting s ∧ Counted s (Counts.run reclaims calls) ∧ peak = (Counts.run reclaims calls).peak

/-- The last call is in progress: the peak is that before the call, or will be reached when it
returns. -/
def Inside (C : Consumer α γ) (reclaims : Bool) (Resting : State α γ → Prop) (calls : List (Call α))
    (s : State α γ) (peak : ℕ) : Prop :=
  ∃ before c s₀, calls = before ++ [c] ∧ Resting s₀ ∧ Counted s₀ (Counts.run reclaims before) ∧
    C.program.Within s₀ c s ∧ (Counts.run reclaims before).peak ≤ peak ∧
      reachedLength s.mem ≤ peak ∧
    ∀ s', Reaches C.program.step (fun _ a => a.IsAdvance) s s' → s'.ops = [] →
      peak ≤ max (Counts.run reclaims before).peak (reachedLength s'.mem)

theorem Inside.returned (hC : KeepsCounts C reclaims Resting)
    (h : Inside C reclaims Resting calls s peak) (hidle : s.ops = []) :
    Returned reclaims Resting calls s peak := by
  obtain ⟨before, c, s₀, rfl, hs₀, hcounted, hin, hle, hle', hpeak⟩ := h
  obtain ⟨hs, hk⟩ := hC.returns s₀ s c _ hs₀ hcounted ⟨hin, hidle⟩
  rw [← Counts.run_concat] at hk
  have heq := hC.reached hs hk
  refine ⟨hs, hk, ?_⟩
  rw [Counts.run_concat, Counts.peak_call _ _ hcounted.peak, ← Counts.run_concat, ← heq]
  exact Nat.le_antisymm (hpeak s .start hidle) (Nat.max_le.mpr ⟨hle, hle'⟩)

theorem Measured.returned_or_inside (hC : KeepsCounts C reclaims Resting)
    (h : Measured C calls s peak) :
    Returned reclaims Resting calls s peak ∨ Inside C reclaims Resting calls s peak := by
  induction h with
  | start =>
    have hone : (Counts.run (α := α) reclaims []).spanned = 1 := by
      show (0 - 1) / blockSize + 1 - (0 + 0 - 1) / blockSize = 1
      decide
    exact .inl ⟨hC.start, .start reclaims, (hC.reached hC.start (.start reclaims)).trans hone⟩
  | @call calls s s' peak c h hidle hstep ih =>
    obtain ⟨hs, hk, rfl⟩ : Returned reclaims Resting calls s peak :=
      ih.elim id fun hin => hin.returned hC hidle
    have hin : C.program.Within s c s' := ⟨s', hstep, .start⟩
    refine .inr ⟨calls, c, s, rfl, hs, hk, hin, Nat.le_max_left _ _, Nat.le_max_right _ _,
      fun s'' hreach hops => ?_⟩
    have hbetween := hC.between s c hs s' s'' hin hreach hops
    have hbefore := hC.reached hs hk
    have hspanned := hk.peak
    omega
  | @advance calls s s' peak i z h hstep ih =>
    obtain ⟨hs, -⟩ | ⟨before, c, s₀, rfl, hs₀, hcounted, hin, hle, hle', hpeak⟩ := ih
    · rw [Program.step, hC.idle s hs] at hstep
      exact absurd hstep (by simp)
    · have hin' : C.program.Within s₀ c s' := by
        obtain ⟨s₁, hcall, hreach⟩ := hin
        exact ⟨s₁, hcall, hreach.step (a := .advance i z) trivial hstep⟩
      refine .inr ⟨before, c, s₀, rfl, hs₀, hcounted, hin', Nat.le_trans hle (Nat.le_max_left _ _),
        Nat.le_max_right _ _, fun s'' hreach hops => ?_⟩
      have hbetween := hC.between s₀ c hs₀ s' s'' hin' hreach hops
      have hrest := hpeak s'' (.head (a := .advance i z) trivial hstep hreach) hops
      have hbefore := hC.reached hs₀ hcounted
      have hspanned := hcounted.peak
      omega

/-- **After a run, the blocks and the peak are those of the counts.** -/
theorem Measured.counted (hC : KeepsCounts C reclaims Resting) (h : Measured C calls s peak)
    (hidle : s.ops = []) :
    graveyardLength s.mem = (Counts.run reclaims calls).retired ∧
      peak = (Counts.run reclaims calls).peak := by
  obtain ⟨hs, hk, hpeak⟩ : Returned reclaims Resting calls s peak :=
    (h.returned_or_inside hC).elim id fun hin => hin.returned hC hidle
  exact ⟨(graveyardLength_eq (hC.rest s hs).buried (hC.board s hs).wf.head_lt).trans hk.retired,
    hpeak⟩

end

/-! ## The two queues -/

/-- Inside a call of `enqueue`, blocks are only added. -/
theorem HoldsForProducers.between {C : Consumer α γ} {I : State α γ → Prop}
    (hI : HoldsForProducers I) (hC : ∀ m c z r, C.advance m c z = some r → Frame m r.mem)
    {s : State α γ} {p : ℕ} {v : α} (hs : I s) (hops : s.ops = []) (hrest : AtRest s.mem) :
    Between C s (.enqueue p v) := by
  intro s₁ s' hin hreach _
  have hin' : C.program.Within s (.enqueue p v) s' := by
    obtain ⟨s₂, hcall, hreach₂⟩ := hin
    exact ⟨s₂, hcall, hreach₂.trans hreach⟩
  obtain ⟨next, -, e?, -, hmem, -, hhead, -⟩ := hI.enqueueing hs hops hrest hin
  obtain ⟨next', -, e?', -, hmem', -, hhead', -⟩ := hI.enqueueing hs hops hrest hin'
  have hb : Board s₁.mem s₁.trace := hI.board ⟨s₁.mem, next.toList, s₁.trace⟩ hmem
  have hb' : Board s'.mem s'.trace := hI.board ⟨s'.mem, next'.toList, s'.trace⟩ hmem'
  have hle := made_le_of_reaches hC hreach
  rw [reachedLength_eq hb.wf, reachedLength_eq hb'.wf]
  omega

/-- Inside a call of `try_dequeue`, no block is added. -/
theorem reachedLength_le_of_frame {m m' : Memory α} {tr tr' : List (QueueEvent (Item α))}
    (hb : Board m tr) (hb' : Board m' tr') (hframe : Frame m m') (hhead : m.head ≤ m'.head) :
    reachedLength m' ≤ reachedLength m := by
  have hmade := hframe.made
  rw [reachedLength_eq hb'.wf, reachedLength_eq hb.wf]
  omega

namespace TaskQueue

variable {s : State α Dequeue}

/-- `head` leaves a block that is read when there is a next. -/
theorem head_eq (hb : Board m tr) (hrest : AtRest m) (hpos : 0 < claims tr)
    (hread : (m.block m.head).read < blockSize ∨ m.head + 1 = m.made) :
    m.head = (claims tr + (if claims tr < places tr then 1 else 0) - 1) / blockSize := by
  have hle := hb.wf.read_le m.head hb.wf.head_lt
  have hlt := hb.wf.head_lt
  have htail := hrest.tail
  have hused := hrest.used
  have hmade : m.made - 1 = m.tail := by omega
  have hfull := fun hmore => hb.wf.full m.head hmore
  have hclaims : claims tr = m.head * 64 + (m.block m.head).read := hb.claims
  have hplaces : places tr = m.tail * 64 + min (m.block m.tail).write 64 := by
    rw [hb.places, Memory.places, hmade]
    rfl
  simp only [blockSize] at hle hfull hread ⊢
  by_cases hmore : claims tr < places tr
  · rw [if_pos hmore]
    omega
  · rw [if_neg hmore]
    by_cases hlast : m.head + 1 < m.made
    · have hwrite := hfull hlast
      omega
    · obtain hhead : m.head = m.tail := by omega
      rw [hhead] at hclaims hread hle ⊢
      omega

theorem keepsCounts : KeepsCounts (consumer α) true Resting where
  start := .start
  idle _ hs := hs.idle
  board _ hs := hs.matchesHistory.board
  rest _ hs := hs.rest
  returns s s' c k hs hk hret := by
    cases c with
    | enqueue p v =>
      obtain ⟨hs', henqueued⟩ := hs.enqueue hret
      exact ⟨hs', hk.enqueue henqueued⟩
    | tryDequeue =>
      obtain ⟨hs', -, hdequeued⟩ := hs.tryDequeue hret
      refine ⟨hs', ?_⟩
      cases hdequeued with
      | took htook hread =>
        obtain ⟨x, hx, htrace⟩ := htook
        have hclaims : claims s'.trace = k.dequeued + 1 := by
          rw [htrace]
          exact congrArg (· + 1) hk.dequeued
        have hplaces : QueueHistory.places s'.trace = k.enqueued := by
          rw [htrace]
          exact hk.enqueued
        have hhead := head_eq hs'.matchesHistory.board hs'.rest (hclaims ▸ Nat.succ_pos _) hread
        rw [hclaims, hplaces] at hhead
        refine hk.took (hs.matchesHistory.board.lawful.placed_lt hx) ⟨x, hx, htrace⟩ ?_
        simpa only [true_and] using hhead
      | empty hempty hhead => exact hk.empty hempty hhead
  between s c hs := by
    cases c with
    | enqueue p v =>
      exact holdsForProducers.between (fun _ _ _ _ hr => frame_of_advance hr) hs.matchesHistory
        hs.idle hs.rest
    | tryDequeue =>
      intro s₁ s' hin _ _
      obtain ⟨next, -, c?, -, hmem, -, hframe, hhead⟩ := hs.dequeueing hin
      have hb : Board s₁.mem s₁.trace := hmem.board
      exact Nat.le_trans (reachedLength_le_of_frame hs.matchesHistory.board hb hframe hhead)
        (Nat.le_max_left ..)

end TaskQueue

namespace MPSCQueue

variable {s : State α Dequeue}

/-- `head` leaves a block only for an item that is in the next. -/
theorem head_eq (hb : Board m tr) (hread : 0 < (m.block m.head).read) :
    m.head = (claims tr - 1) / blockSize := by
  have hle := hb.wf.read_le m.head hb.wf.head_lt
  rw [hb.claims, Memory.claims]
  simp only [place, blockSize] at hle ⊢
  omega

theorem keepsCounts : KeepsCounts (consumer α) false Resting where
  start := .start
  idle _ hs := hs.idle
  board _ hs := hs.matchesHistory.board
  rest _ hs := hs.rest
  returns s s' c k hs hk hret := by
    cases c with
    | enqueue p v =>
      obtain ⟨hs', henqueued⟩ := hs.enqueue hret
      exact ⟨hs', hk.enqueue henqueued⟩
    | tryDequeue =>
      obtain ⟨hs', -, hdequeued⟩ := hs.tryDequeue hret
      refine ⟨hs', ?_⟩
      cases hdequeued with
      | took htook hread =>
        obtain ⟨x, hx, htrace⟩ := htook
        have hclaims : claims s'.trace = k.dequeued + 1 := by
          rw [htrace]
          exact congrArg (· + 1) hk.dequeued
        have hhead := head_eq hs'.matchesHistory.board hread
        rw [hclaims] at hhead
        refine hk.took (hs.matchesHistory.board.lawful.placed_lt hx) ⟨x, hx, htrace⟩ ?_
        simpa only [Bool.false_eq_true, false_and, if_false] using hhead
      | empty hempty hhead => exact hk.empty hempty hhead
  between s c hs := by
    cases c with
    | enqueue p v =>
      exact holdsForProducers.between (fun _ _ _ _ hr => frame_of_advance hr) hs.matchesHistory
        hs.idle hs.rest
    | tryDequeue =>
      intro s₁ s' hin _ _
      obtain ⟨next, -, c?, -, hmem, -, hframe, hhead⟩ := hs.dequeueing hin
      have hb : Board s₁.mem s₁.trace := hmem.board
      exact Nat.le_trans (reachedLength_le_of_frame hs.matchesHistory.board hb hframe hhead)
        (Nat.le_max_left ..)

end MPSCQueue

/-! ## The bound -/

/-- After a run along `calls`, the graveyard has no more blocks than were reached from `head` at the
peak. -/
def GraveyardBounded (C : Consumer α γ) (calls : List (Call α)) : Prop :=
  ∀ s peak, Measured C calls s peak → s.ops = [] → graveyardLength s.mem ≤ peak

/-- The items that were dequeued filled no more blocks than one more than those in the queue ever
spanned. -/
def ShortLived (reclaims : Bool) (calls : List (Call α)) : Prop :=
  let k := Counts.run reclaims calls
  k.dequeued + k.left ≤ blockSize * (k.peak + 1)

instance (reclaims : Bool) (calls : List (Call α)) : Decidable (ShortLived reclaims calls) :=
  inferInstanceAs (Decidable (_ ≤ _))

/-- A measured run goes on. -/
theorem Measured.reaches {C : Consumer α γ} {calls : List (Call α)} {s s' : State α γ} {peak : ℕ}
    (h : Measured C calls s peak) (hreach : Reaches C.program.step (fun _ a => a.IsAdvance) s s') :
    ∃ peak', Measured C calls s' peak' := by
  induction hreach with
  | start => exact ⟨peak, h⟩
  | @step t u a hreach ha hst ih =>
    obtain ⟨peak', h'⟩ := ih
    cases a with
    | call c => exact ha.elim
    | advance i z => exact ⟨_, .advance h' hst⟩

theorem exists_measured {C : Consumer α γ} {reclaims : Bool} {Resting : State α γ → Prop}
    (hC : KeepsCounts C reclaims Resting)
    (hreturns : ∀ s c, Resting s → ∃ s', C.program.Returns s c s') (calls : List (Call α)) :
    ∃ s peak, Measured C calls s peak ∧ Resting s := by
  induction calls using List.reverseRecOn with
  | nil => exact ⟨_, _, .start, hC.start⟩
  | append_singleton calls c ih =>
    obtain ⟨s, peak, hs, hrest⟩ := ih
    obtain ⟨s', ⟨s₁, hcall, hreach⟩, hidle⟩ := hreturns s c hrest
    obtain ⟨peak', hs'⟩ := (Measured.call hs (hC.idle s hrest) hcall).reaches hreach
    obtain ⟨hrest', -⟩ : Returned reclaims Resting (calls ++ [c]) s' peak' :=
      (hs'.returned_or_inside hC).elim id fun hin => hin.returned hC hidle
    exact ⟨s', peak', hs', hrest'⟩

theorem graveyardBounded_iff {C : Consumer α γ} {reclaims : Bool} {Resting : State α γ → Prop}
    (hC : KeepsCounts C reclaims Resting)
    (hreturns : ∀ s c, Resting s → ∃ s', C.program.Returns s c s') (calls : List (Call α)) :
    GraveyardBounded C calls ↔ ShortLived reclaims calls := by
  have hblocks : (Counts.run reclaims calls).retired ≤ (Counts.run reclaims calls).peak ↔
      ShortLived reclaims calls := by
    simp only [Counts.retired, ShortLived, blockSize]
    omega
  rw [← hblocks]
  constructor
  · intro h
    obtain ⟨s, peak, hs, hrest⟩ := exists_measured hC hreturns calls
    obtain ⟨hgraveyard, rfl⟩ := hs.counted hC (hC.idle s hrest)
    exact hgraveyard ▸ h s _ hs (hC.idle s hrest)
  · intro hle s peak hs hidle
    obtain ⟨hgraveyard, rfl⟩ := hs.counted hC hidle
    exact hgraveyard ▸ hle

/-- **When the graveyard is bounded by the peak.** -/
theorem graveyard_le_peak_iff (calls : List (Call α)) :
    (GraveyardBounded (TaskQueue.consumer α) calls ↔ ShortLived true calls) ∧
      (GraveyardBounded (MPSCQueue.consumer α) calls ↔ ShortLived false calls) :=
  ⟨graveyardBounded_iff TaskQueue.keepsCounts (fun _ c hs => hs.exists_returns c) calls,
    graveyardBounded_iff MPSCQueue.keepsCounts (fun _ c hs => hs.exists_returns c) calls⟩

/-- An item is enqueued and dequeued, `n` times. -/
def oneByOne (n : ℕ) : List (Call Unit) := (List.replicate n [.enqueue 0 (), .tryDequeue]).flatten

/-- Two blocks at most are reached from `head`, and three are in the graveyard. -/
theorem not_graveyard_le_peak :
    ¬ ((∀ calls : List (Call Unit), GraveyardBounded (TaskQueue.consumer Unit) calls) ∨
      ∀ calls : List (Call Unit), GraveyardBounded (MPSCQueue.consumer Unit) calls) := by
  have htask : ¬ ShortLived true (oneByOne (3 * blockSize + 1)) := by decide +kernel
  have hmpsc : ¬ ShortLived false (oneByOne (3 * blockSize + 1)) := by decide +kernel
  rintro (h | h)
  · exact htask ((graveyardBounded_iff TaskQueue.keepsCounts
      (fun _ c hs => hs.exists_returns c) _).mp (h _))
  · exact hmpsc ((graveyardBounded_iff MPSCQueue.keepsCounts
      (fun _ c hs => hs.exists_returns c) _).mp (h _))

end Queue
end Scheduler
end NUClear
