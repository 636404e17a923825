import PageServer.Failure

/-!
# Task loops

A loop belongs to the thread that made it and runs the tasks handed to it there.
A task that a running task submits is either run at once, inside its parent, or
queued. The loop takes all queued tasks as one batch, runs them in order, and
then takes those that were queued meanwhile.

* `Task.run`: a task with what it runs at once, and what it queues;
* `Task.rounds`: the loop;
* `LoopPool.next`: the loops of a pool take turns.
-/

namespace PageServer.Net

/-- How a task is submitted by another one. -/
inductive Submission
  /-- Run at once. -/
  | direct
  /-- Run after all that is queued already. -/
  | queued
  deriving DecidableEq, Repr

/-- A task and the tasks that it submits when it runs. -/
inductive Task
  | node (id : Bytes) (submission : Submission) (children : List Task)

/-- What a loop does, as seen from outside. -/
inductive Event
  | enter (id : Bytes)
  | leave (id : Bytes)
  deriving DecidableEq, Repr

/-- The text of an event. -/
def Event.text : Event → Bytes
  | enter id => Byte.plus :: id
  | leave id => Byte.minus :: id

namespace Task

/-- How the task is submitted. -/
def submission : Task → Submission
  | node _ s _ => s

mutual

/-- How many tasks there are in the tree of a task. -/
def count : Task → Nat
  | node _ _ children => countAll children + 1

/-- How many tasks there are in the trees of some tasks. -/
def countAll : List Task → Nat
  | [] => 0
  | t :: rest => t.count + countAll rest

end

mutual

/-- Runs a task, and in it the tasks that it has run at once: the events, and
    the tasks that were queued. -/
def run : Task → List Event × List Task
  | node id _ children =>
    let (events, queued) := submitAll children
    (.enter id :: events ++ [.leave id], queued)

/-- Submits tasks one after the other. -/
def submitAll : List Task → List Event × List Task
  | [] => ([], [])
  | t :: rest =>
    let (more, later) := submitAll rest
    match t.submission with
    | .direct =>
      let (events, queued) := t.run
      (events ++ more, queued ++ later)
    | .queued => (more, t :: later)

end

/-- Runs a batch of tasks. -/
def runBatch : List Task → List Event × List Task
  | [] => ([], [])
  | t :: rest =>
    let (events, queued) := t.run
    let (more, later) := runBatch rest
    (events ++ more, queued ++ later)

/-- Runs at most so many batches. -/
def roundsFor : Nat → List Task → List Event
  | 0, _ => []
  | _, [] => []
  | n + 1, batch =>
    let (events, queued) := runBatch batch
    events ++ roundsFor n queued

/-- Runs batch after batch until nothing is queued. Each batch has one task of
    the trees at least. -/
def rounds (queued : List Task) : List Event := roundsFor (countAll queued) queued

end Task

/-- A loop, with the thread that it belongs to. -/
structure TaskLoop where
  thread : Nat
  deriving DecidableEq, Repr

namespace TaskLoop

/-- A new loop of a thread, which must not have one yet. -/
def open? (thread : Nat) (loops : List TaskLoop) : Except Failure TaskLoop :=
  if loops.any (·.thread == thread) then .error (.logic "the thread already runs a loop")
  else .ok ⟨thread⟩

/-- Whether a thread is the one that the loop belongs to. -/
def isOwner (l : TaskLoop) (thread : Nat) : Bool := l.thread == thread

/-- Refuses all threads but the one that the loop belongs to. -/
def checkOwner (l : TaskLoop) (thread : Nat) : Except Failure Unit :=
  if l.isOwner thread then .ok () else .error (.logic "the loop was used from another thread")

end TaskLoop

/-- A pool of loops, of which the `turn`-th is next. -/
structure LoopPool where
  size : Nat
  turn : Nat := 0

/-- The next loop of the pool; an empty pool has none to give, and its base loop
    does all the work. -/
def LoopPool.next (p : LoopPool) : Option Nat × LoopPool :=
  if p.size = 0 then (none, p) else (some (p.turn % p.size), { p with turn := p.turn + 1 })

end PageServer.Net
