import NUClear.Foundation.Interleaving
import NUClear.Foundation.QueueHistory
import Mathlib.Logic.Function.Basic

/-!
# Blocks of slots

`TaskQueue` and `MPSCQueue` keep their items in blocks of `BLOCK_SIZE` slots, linked in a list.  A
producer reserves a slot of the block at `tail` with a `fetch_add`, puts its item there and commits
the slot; when it finds no slot left it links a new block, or sees that another producer has linked
one, and helps to move `tail` on.  The producers are the same in both queues; a queue is given by
what its consumers do (`Consumer`).

## What a step is

A step is one access to an atomic, together with the code after it up to the next one: that code
touches only what is the thread's own (the slot that it has reserved or claimed, the block that it
retires, the counters of the one consumer of an `MPSCQueue`).  Any thread may make the next step, so
a run is any order of the accesses.  A weak exchange may fail though it could succeed, and a step
says whether it does.

The counters are numbers without a bound: `write` passes `BLOCK_SIZE` by at most one for each
producer.  Blocks are numbered in the order in which they were linked, so a pointer to a block is
its number and a block is never used again under another one.

## The history

The trace is the history of the queue: which items were called for, placed, enqueued, claimed and
dequeued (`QueueEvent`).  The ticket and the producer of an item only say which call of whom put it
there; no step asks for them.

* `Enqueue.advance`: the next access of a producer.
* `Consumer.program`: the queue as a program of threads, for whatever its consumers do.
* `Linked`, `Kept`: the blocks that are reached from `head`, and the items that are still in them.
-/

namespace NUClear
namespace Scheduler
namespace Queue

open Foundation

variable {α γ : Type}

/-- `BLOCK_SIZE`. -/
def blockSize : ℕ := 64

/-- What a call of `enqueue` puts into the queue: the value, with the number of the call and the
thread that makes it. -/
structure Item (α : Type) where
  ticket : ℕ
  producer : ℕ
  value : α
  deriving DecidableEq, Repr

structure Slot (α : Type) where
  storage : Option (Item α) := none
  committed : Bool := false

structure Block (α : Type) where
  slots : ℕ → Slot α := fun _ => {}
  write : ℕ := 0
  read : ℕ := 0
  consumed : ℕ := 0
  next : Option ℕ := none
  graveyardNext : Option ℕ := none

/-- The blocks, numbered in the order in which they were linked, and the pointers to them: where the
producers and the consumers are, and the newest block of the graveyard. -/
structure Memory (α : Type) where
  block : ℕ → Block α
  /-- The number of blocks that are linked. -/
  made : ℕ
  head : ℕ
  tail : ℕ
  graveyard : Option ℕ
  /-- The number of calls of `enqueue`. -/
  tickets : ℕ

/-- The place of a slot, counted over all blocks: the slots of a block come after those of the
blocks before it. -/
def place (b i : ℕ) : ℕ := b * blockSize + i

namespace Memory

/-- The queue is made: one block. -/
def make : Memory α where
  block _ := {}
  made := 1
  head := 0
  tail := 0
  graveyard := none
  tickets := 0

def modify (m : Memory α) (b : ℕ) (f : Block α → Block α) : Memory α :=
  { m with block := Function.update m.block b (f (m.block b)) }

def setSlot (m : Memory α) (b i : ℕ) (s : Slot α) : Memory α :=
  m.modify b fun B => { B with slots := Function.update B.slots i s }

def addWrite (m : Memory α) (b : ℕ) : Memory α :=
  m.modify b fun B => { B with write := B.write + 1 }

def addRead (m : Memory α) (b : ℕ) : Memory α := m.modify b fun B => { B with read := B.read + 1 }

def addConsumed (m : Memory α) (b : ℕ) : Memory α :=
  m.modify b fun B => { B with consumed := B.consumed + 1 }

def setGraveyardNext (m : Memory α) (b : ℕ) (dead : Option ℕ) : Memory α :=
  m.modify b fun B => { B with graveyardNext := dead }

/-- `link_next_block`: a new block is linked behind this one if none is.  A block that was linked by
another producer is left as it is. -/
def linkNextBlock (m : Memory α) (b : ℕ) : Memory α :=
  if (m.block b).next = none then
    { m with
        block := Function.update (Function.update m.block m.made {}) b
          { m.block b with next := some m.made }
        made := m.made + 1 }
  else m

end Memory

/-! ## Producers -/

/-- Where an `enqueue` is. -/
inductive Enqueue (α : Type) where
  | loadTail (x : Item α)
  | addWrite (x : Item α) (block : ℕ)
  | storeCommitted (x : Item α) (block index : ℕ)
  | linkNext (x : Item α) (block : ℕ)
  | loadNext (x : Item α) (block : ℕ)
  /-- `advance_tail`: its load, and its exchange. -/
  | reloadTail (x : Item α) (block next : ℕ)
  | exchangeTail (x : Item α) (block next : ℕ)
  deriving DecidableEq, Repr

namespace Enqueue

def item : Enqueue α → Item α
  | loadTail x | addWrite x _ | storeCommitted x _ _ | linkNext x _ | loadNext x _
    | reloadTail x _ _
  | exchangeTail x _ _ => x

/-- The place that the item has. -/
def placed : Enqueue α → Option ℕ
  | storeCommitted _ b i => some (place b i)
  | _ => none

/-- The next access of `enqueue`.  `spurious` says that a weak exchange fails though it could
succeed. -/
def advance (m : Memory α) (e : Enqueue α) (spurious : Bool) :
    Option (Outcome (Memory α) (Enqueue α) (QueueEvent (Item α))) :=
  match e with
  | .loadTail x => some ⟨m, some (.addWrite x m.tail), []⟩
  | .addWrite x b =>
      let index := (m.block b).write
      if index < blockSize then
        some ⟨(m.addWrite b).setSlot b index { (m.block b).slots index with storage := some x },
          some (.storeCommitted x b index), [.placed x (place b index)]⟩
      else some ⟨m.addWrite b, some (.linkNext x b), []⟩
  | .storeCommitted x b i =>
      some ⟨m.setSlot b i { (m.block b).slots i with committed := true }, none, [.enqueued x]⟩
  | .linkNext x b => some ⟨m.linkNextBlock b, some (.loadNext x b), []⟩
  | .loadNext x b =>
      -- the next block is there: this or another producer has linked it
      (m.block b).next.map fun n => ⟨m, some (.reloadTail x b n), []⟩
  | .reloadTail x b n =>
      some ⟨m, some (if m.tail = b then .exchangeTail x b n else .loadTail x), []⟩
  | .exchangeTail x b n =>
      if m.tail = b then
        if spurious then some ⟨m, some (.exchangeTail x b n), []⟩
        else some ⟨{ m with tail := n }, some (.loadTail x), []⟩
      else some ⟨m, some (.loadTail x), []⟩

end Enqueue

/-! ## The queue -/

/-- What `try_dequeue` does: where it starts, what it does next, and whether it may be called while
it runs already. -/
structure Consumer (α γ : Type) where
  start : γ
  exclusive : Bool
  advance : Memory α → γ → Bool → Option (Outcome (Memory α) γ (QueueEvent (Item α)))

inductive Call (α : Type) where
  | enqueue (producer : ℕ) (value : α)
  | tryDequeue
  deriving DecidableEq, Repr

inductive Op (α γ : Type) where
  | enqueue (e : Enqueue α)
  | dequeue (c : γ)
  deriving DecidableEq, Repr

namespace Op

def producer : Op α γ → Option ℕ
  | enqueue e => some e.item.producer
  | dequeue _ => none

def consumer : Op α γ → Option Unit
  | enqueue _ => none
  | dequeue _ => some ()

end Op

/-- A producer is a thread: it calls `enqueue` when its call before has returned.  So is the one
consumer of an exclusive queue. -/
def Consumer.program (C : Consumer α γ) :
    Program (Memory α) (Call α) (Op α γ) Bool (QueueEvent (Item α)) where
  call m ops
    | .enqueue p v =>
        let x : Item α := ⟨m.tickets, p, v⟩
        if ops.any fun o => o.producer = some p then none
        else some ⟨{ m with tickets := m.tickets + 1 }, some (.enqueue (.loadTail x)), [.called x]⟩
    | .tryDequeue =>
        if C.exclusive && ops.any fun o => o.consumer.isSome then none
        else some ⟨m, some (.dequeue C.start), []⟩
  advance m o z :=
    match o with
    | .enqueue e => (e.advance m z).map fun r => ⟨r.mem, r.next.map .enqueue, r.emitted⟩
    | .dequeue c => (C.advance m c z).map fun r => ⟨r.mem, r.next.map .dequeue, r.emitted⟩

/-- A call of `try_dequeue` that is run alone, as an operation of the queue. -/
theorem Consumer.completes (C : Consumer α γ) {ok : Memory α → γ → Prop}
    {ok' : Memory α → Op α γ → Prop} {m m' : Memory α} {tr tr' : List (QueueEvent (Item α))} {c : γ}
    (h : Completes C.advance ok m tr c m' tr') (hok : ∀ m c, ok m c → ok' m (.dequeue c)) :
    Completes C.program.advance ok' m tr (.dequeue c) m' tr' := by
  refine h.map (f := Op.dequeue) (fun m c z r hr => ?_) hok
  show (C.advance m c z).map _ = _
  rw [hr, Option.map_some]

/-- A queue with its threads. -/
abbrev State (α γ : Type) := Machine (Memory α) (Op α γ) (QueueEvent (Item α))

def start : State α γ := ⟨.make, [], []⟩

/-! ## Blocks that are reached -/

/-- A block is reached from another by its links. -/
def Linked (m : Memory α) : ℕ → ℕ → Prop :=
  Relation.ReflTransGen fun b b' => (m.block b).next = some b'

/-- The item is in a slot that is not read, of a block that is reached from `head`. -/
def Kept (m : Memory α) (x : Item α) : Prop :=
  ∃ b i, Linked m m.head b ∧ (m.block b).read ≤ i ∧ i < blockSize ∧
    (m.block b).slots i = ⟨some x, true⟩

end Queue
end Scheduler
end NUClear
