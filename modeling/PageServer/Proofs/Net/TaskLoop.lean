import PageServer.Net.TaskLoop

/-!
# One queue of tasks

A loop takes what is queued as a batch, runs it, and takes the next one. A *worker*
knows no batches (`Worker`): it takes the first task of its queue when it has nothing to
do, enters it, and submits its children in turn. A child that is to run at once is
entered on top of its parent, which goes on when it is left; any other child is put at
the back of the queue (`Worker.Step`).

A worker has no choice (`Worker.Step.deterministic`), and what it does is put together
from what it does within each task (`Task.log`). The loop, seen from outside, is the
worker (`Worker.exists_runs_rounds`): a batch that is not done yet, followed by what was
queued meanwhile, is the queue of the worker (`Task.runs_batch`). So the loop has what
all runs of a worker have (`Worker.exists_worksOff`): every task is run once, in the
order of the queue.
-/

namespace PageServer.Net

/-! ### Forests of tasks -/

namespace Task

/-- The name of the task. -/
def id : Task → Bytes
  | node id _ _ => id

/-- What the task submits. -/
def children : Task → List Task
  | node _ _ children => children

theorem count_eq (t : Task) : t.count = countAll t.children + 1 := by
  cases t
  rw [count, children]

theorem run_eq (t : Task) :
    t.run = (.enter t.id :: (submitAll t.children).1 ++ [.leave t.id], (submitAll t.children).2) := by
  cases t
  rw [run, id, children]

/-- What holds of no tasks, and of some tasks if it holds of the children of the first one
    and of the others, holds of all. -/
theorem forest_induction {motive : List Task → Prop} (nil : motive [])
    (cons : ∀ t rest, motive t.children → motive rest → motive (t :: rest)) (ts : List Task) :
    motive ts :=
  match ts with
  | [] => nil
  | t :: rest => cons t rest (forest_induction nil cons t.children) (forest_induction nil cons rest)
termination_by countAll ts
decreasing_by
  all_goals
    rw [countAll, count_eq]
    omega

mutual

/-- The task and all tasks of the trees of its children. -/
def subtasks : Task → List Task
  | node id s children => node id s children :: subtasksAll children

/-- All tasks of the trees of some tasks. -/
def subtasksAll : List Task → List Task
  | [] => []
  | t :: rest => t.subtasks ++ subtasksAll rest

end

theorem subtasks_eq (t : Task) : t.subtasks = t :: subtasksAll t.children := by
  cases t
  rw [subtasks, children]

theorem subtasksAll_append (ts us : List Task) :
    subtasksAll (ts ++ us) = subtasksAll ts ++ subtasksAll us := by
  induction ts with
  | nil => rfl
  | cons t ts ih => rw [List.cons_append, subtasksAll, subtasksAll, ih, List.append_assoc]

end Task

/-! ### Workers -/

/-- What a worker does. -/
inductive Happening
  /-- The first task of the queue is taken, and entered. -/
  | start (t : Task)
  /-- A task is entered within the one that submits it. -/
  | enter (t : Task)
  /-- A task is put at the back of the queue. -/
  | queue (t : Task)
  | leave (t : Task)

namespace Happening

/-- What is seen of it from outside. -/
def event? : Happening → Option Event
  | start t => some (.enter t.id)
  | enter t => some (.enter t.id)
  | queue _ => none
  | leave t => some (.leave t.id)

/-- The task that is taken from the queue. -/
def started? : Happening → Option Task
  | start t => some t
  | _ => none

/-- The task that is put into the queue. -/
def queued? : Happening → Option Task
  | queue t => some t
  | _ => none

/-- The task that is entered, taken from the queue or not. -/
def entered? : Happening → Option Task
  | start t => some t
  | enter t => some t
  | _ => none

/-- The task that is left. -/
def left? : Happening → Option Task
  | leave t => some t
  | _ => none

end Happening

/-- A task that was entered and not left, with what it has still to submit. -/
structure Frame where
  task : Task
  rest : List Task

/-- A thread with one queue: the tasks that it is in, the innermost first, and the tasks
    that wait for it. -/
structure Worker where
  frames : List Frame := []
  queue : List Task := []

namespace Worker

variable {w w' w'' : Worker} {h k : Happening} {log log' : List Happening}

/-- What a worker may do next. -/
inductive Step : Worker → Happening → Worker → Prop
  | start (t : Task) (queue : List Task) :
      Step ⟨[], t :: queue⟩ (.start t) ⟨[⟨t, t.children⟩], queue⟩
  | enter (t c : Task) (rest : List Task) (below : List Frame) (queue : List Task)
      (direct : c.submission = .direct) :
      Step ⟨⟨t, c :: rest⟩ :: below, queue⟩ (.enter c)
        ⟨⟨c, c.children⟩ :: ⟨t, rest⟩ :: below, queue⟩
  | queue (t c : Task) (rest : List Task) (below : List Frame) (queue : List Task)
      (queued : c.submission = .queued) :
      Step ⟨⟨t, c :: rest⟩ :: below, queue⟩ (.queue c) ⟨⟨t, rest⟩ :: below, queue ++ [c]⟩
  | leave (t : Task) (below : List Frame) (queue : List Task) :
      Step ⟨⟨t, []⟩ :: below, queue⟩ (.leave t) ⟨below, queue⟩

/-- What a worker may do, one thing after the other. -/
inductive Runs : Worker → List Happening → Worker → Prop
  | nil (w : Worker) : Runs w [] w
  | cons {w w' w'' : Worker} {h : Happening} {log : List Happening} (first : Step w h w')
      (rest : Runs w' log w'') : Runs w (h :: log) w''

/-- A worker has no choice. -/
theorem Step.deterministic (first : Step w h w') (second : Step w k w'') : h = k ∧ w' = w'' := by
  cases first with
  | start t queue =>
    cases second
    exact ⟨rfl, rfl⟩
  | enter t c rest below queue direct =>
    cases second with
    | enter => exact ⟨rfl, rfl⟩
    | queue _ _ _ _ _ queued =>
      rw [direct] at queued
      cases queued
  | queue t c rest below queue queued =>
    cases second with
    | enter _ _ _ _ _ direct =>
      rw [queued] at direct
      cases direct
    | queue => exact ⟨rfl, rfl⟩
  | leave t below queue =>
    cases second
    exact ⟨rfl, rfl⟩

theorem Runs.single (first : Step w h w') : Runs w [h] w' := .cons first (.nil w')

theorem Runs.append (front : Runs w log w') (back : Runs w' log' w'') :
    Runs w (log ++ log') w'' := by
  induction front with
  | nil => exact back
  | cons first _ ih => exact .cons first (ih back)

theorem Runs.exists_of_append (hruns : Runs w (log ++ log') w'') :
    ∃ w', Runs w log w' ∧ Runs w' log' w'' := by
  induction log generalizing w with
  | nil => exact ⟨w, .nil w, hruns⟩
  | cons h log ih =>
    obtain ⟨⟩ | ⟨first, rest⟩ := hruns
    obtain ⟨w', hfront, hback⟩ := ih rest
    exact ⟨w', .cons first hfront, hback⟩

/-- Nothing waits, and nothing is to be done. -/
def idle : Worker := {}

theorem Step.ne_idle (hstep : Step w h w') : w ≠ idle := by
  rintro rfl
  cases hstep

/-- On the way to its end a worker does all that it may do. -/
theorem Runs.exists_rest (hend : Runs w log idle) (hruns : Runs w log' w') :
    ∃ rest, log = log' ++ rest ∧ Runs w' rest idle := by
  induction hruns generalizing log with
  | nil => exact ⟨log, rfl, hend⟩
  | cons first _ ih =>
    cases hend with
    | nil => exact absurd rfl first.ne_idle
    | cons first' hend =>
      obtain ⟨rfl, rfl⟩ := first.deterministic first'
      obtain ⟨rest, rfl, hrest⟩ := ih hend
      exact ⟨rest, rfl, hrest⟩

theorem Runs.unique (hend : Runs w log idle) (hend' : Runs w log' idle) : log' = log := by
  obtain ⟨rest, rfl, hrest⟩ := hend.exists_rest hend'
  cases hrest with
  | nil => rw [List.append_nil]
  | cons first _ => exact absurd rfl first.ne_idle

end Worker

/-! ### What happens within a task -/

namespace Task

open Worker

mutual

/-- What happens between the entering and the leaving of a task. -/
def log : Task → List Happening
  | node _ _ children => logAll children

/-- What happens while a task submits some children. -/
def logAll : List Task → List Happening
  | [] => []
  | c :: rest =>
    match c.submission with
    | .direct => .enter c :: (c.log ++ .leave c :: logAll rest)
    | .queued => .queue c :: logAll rest

end

theorem log_eq (t : Task) : t.log = logAll t.children := by
  cases t
  rw [log, children]

theorem logAll_direct {c : Task} (h : c.submission = .direct) (rest : List Task) :
    logAll (c :: rest) = .enter c :: (logAll c.children ++ .leave c :: logAll rest) := by
  rw [logAll, h, log_eq]

theorem logAll_queued {c : Task} (h : c.submission = .queued) (rest : List Task) :
    logAll (c :: rest) = .queue c :: logAll rest := by
  rw [logAll, h]

theorem submitAll_direct {c : Task} (h : c.submission = .direct) (rest : List Task) :
    submitAll (c :: rest) = (.enter c.id :: (submitAll c.children).1 ++
      .leave c.id :: (submitAll rest).1, (submitAll c.children).2 ++ (submitAll rest).2) := by
  rw [submitAll, h, run_eq]
  simp only [List.cons_append, List.append_assoc, List.nil_append]

theorem submitAll_queued {c : Task} (h : c.submission = .queued) (rest : List Task) :
    submitAll (c :: rest) = ((submitAll rest).1, c :: (submitAll rest).2) := by
  rw [submitAll, h]

/-- A task that submits its children: what is to run at once is done, and the rest is in
    the queue. -/
theorem runs_logAll (cs : List Task) (t : Task) (below : List Frame) (queue : List Task) :
    Runs ⟨⟨t, cs⟩ :: below, queue⟩ (logAll cs) ⟨⟨t, []⟩ :: below, queue ++ (submitAll cs).2⟩ := by
  induction cs using forest_induction generalizing t below queue with
  | nil =>
    rw [submitAll, List.append_nil]
    exact .nil _
  | cons c rest ihinside ihrest =>
    cases hc : c.submission with
    | direct =>
      rw [logAll_direct hc, submitAll_direct hc, ← List.append_assoc]
      refine .cons (.enter t c rest below queue hc) ?_
      exact (ihinside c (⟨t, rest⟩ :: below) queue).append (.cons (.leave c _ _) (ihrest t below _))
    | queued =>
      have hrest := ihrest t below (queue ++ [c])
      rw [List.append_assoc] at hrest
      rw [logAll_queued hc, submitAll_queued hc]
      exact .cons (.queue t c rest below queue hc) hrest

theorem runs_log (t : Task) (below : List Frame) (queue : List Task) :
    Runs ⟨⟨t, t.children⟩ :: below, queue⟩ (t.log ++ [.leave t]) ⟨below, queue ++ t.run.2⟩ := by
  rw [log_eq, run_eq]
  exact (runs_logAll t.children t below queue).append (.single (.leave t _ _))

theorem event?_logAll (cs : List Task) :
    (logAll cs).filterMap Happening.event? = (submitAll cs).1 := by
  induction cs using forest_induction with
  | nil => rfl
  | cons c rest ihinside ihrest =>
    cases hc : c.submission with
    | direct =>
      rw [logAll_direct hc, submitAll_direct hc]
      simp [Happening.event?, ihinside, ihrest]
    | queued =>
      rw [logAll_queued hc, submitAll_queued hc, List.filterMap_cons_none rfl, ihrest]

/-! ### Batches -/

/-- What happens while a task is done that was taken from the queue. -/
def doneLog (t : Task) : List Happening := .start t :: (t.log ++ [.leave t])

theorem event?_doneLog (t : Task) : t.doneLog.filterMap Happening.event? = t.run.1 := by
  rw [doneLog, log_eq, run_eq]
  simp [Happening.event?, event?_logAll]

/-- A batch that is followed by other tasks: it is done, and what it has queued is behind
    these. -/
theorem runs_batch (batch later : List Task) :
    Runs ⟨[], batch ++ later⟩ (batch.flatMap doneLog) ⟨[], later ++ (runBatch batch).2⟩ := by
  induction batch generalizing later with
  | nil =>
    rw [runBatch, List.append_nil]
    exact .nil _
  | cons t batch ih =>
    rw [List.flatMap_cons, runBatch, ← List.append_assoc]
    have hfirst := (Runs.single (.start t (batch ++ later))).append (t.runs_log [] (batch ++ later))
    rw [List.append_assoc] at hfirst
    exact hfirst.append (ih _)

theorem event?_batch (batch : List Task) :
    (batch.flatMap doneLog).filterMap Happening.event? = (runBatch batch).1 := by
  induction batch with
  | nil => rfl
  | cons t batch ih => rw [List.flatMap_cons, List.filterMap_append, event?_doneLog, ih, runBatch]

theorem countAll_append (ts us : List Task) : countAll (ts ++ us) = countAll ts + countAll us := by
  induction ts with
  | nil => rw [List.nil_append, countAll, Nat.zero_add]
  | cons t ts ih => rw [List.cons_append, countAll, countAll, ih, Nat.add_assoc]

theorem countAll_submitAll_le (cs : List Task) : countAll (submitAll cs).2 ≤ countAll cs := by
  induction cs using forest_induction with
  | nil => exact Nat.le_refl _
  | cons c rest ihinside ihrest =>
    cases hc : c.submission with
    | direct =>
      rw [submitAll_direct hc, countAll_append, countAll, count_eq]
      omega
    | queued =>
      rw [submitAll_queued hc, countAll, countAll]
      omega

/-- What a batch has queued is less than the batch, by its tasks at least. -/
theorem countAll_runBatch_le (batch : List Task) :
    countAll (runBatch batch).2 + batch.length ≤ countAll batch := by
  induction batch with
  | nil => exact Nat.le_refl _
  | cons t batch ih =>
    have hqueued := countAll_submitAll_le t.children
    rw [runBatch, run_eq, countAll_append, countAll, count_eq, List.length_cons]
    omega

theorem roundsFor_cons (n : Nat) (t : Task) (batch : List Task) :
    roundsFor (n + 1) (t :: batch) =
      (runBatch (t :: batch)).1 ++ roundsFor n (runBatch (t :: batch)).2 := rfl

/-- Enough rounds are enough. -/
theorem roundsFor_eq {n m : Nat} {batch : List Task} (hn : countAll batch ≤ n)
    (hm : countAll batch ≤ m) : roundsFor n batch = roundsFor m batch := by
  induction n generalizing m batch with
  | zero =>
    have hlength := countAll_runBatch_le batch
    obtain rfl : batch = [] := List.eq_nil_of_length_eq_zero (by omega)
    cases m <;> rfl
  | succ n ih =>
    cases batch with
    | nil => cases m <;> rfl
    | cons t batch =>
      have hlength := countAll_runBatch_le (t :: batch)
      rw [List.length_cons] at hlength
      cases m with
      | zero => omega
      | succ m =>
        rw [roundsFor_cons, roundsFor_cons, ih (m := m) (by omega) (by omega)]

/-- The loop takes what is queued as a batch, runs it, and goes on with what was queued
    meanwhile. -/
theorem rounds_eq (queued : List Task) :
    rounds queued = (runBatch queued).1 ++ rounds (runBatch queued).2 := by
  cases queued with
  | nil => rfl
  | cons t queued =>
    have hlength := countAll_runBatch_le (t :: queued)
    rw [List.length_cons] at hlength
    obtain ⟨n, hn⟩ : ∃ n, countAll (t :: queued) = n + 1 := ⟨_, (Nat.sub_add_cancel (by omega)).symm⟩
    rw [rounds, hn, roundsFor_cons, rounds, roundsFor_eq (by omega) (Nat.le_refl _)]

end Task

namespace Worker

variable {w w' w'' : Worker} {h k : Happening} {log log' : List Happening}

/-- A worker comes to an end, and what is seen of it is what the loop does. -/
theorem exists_runs_rounds (queue : List Task) :
    ∃ log, Runs ⟨[], queue⟩ log idle ∧ log.filterMap Happening.event? = Task.rounds queue := by
  induction hn : Task.countAll queue using Nat.strongRecOn generalizing queue with
  | ind n ih =>
    subst hn
    by_cases hqueue : queue = []
    · subst hqueue
      exact ⟨[], .nil _, rfl⟩
    · have hlength := Task.countAll_runBatch_le queue
      have hpos := List.length_pos_iff.2 hqueue
      obtain ⟨log, hruns, hevents⟩ := ih _ (by omega) (Task.runBatch queue).2 rfl
      have hbatch := Task.runs_batch queue []
      rw [List.append_nil, List.nil_append] at hbatch
      refine ⟨queue.flatMap Task.doneLog ++ log, hbatch.append hruns, ?_⟩
      rw [List.filterMap_append, Task.event?_batch, hevents, ← Task.rounds_eq]

/-! ### What holds of all runs -/

/-- Tasks are taken from the queue in the order in which they were put into it. -/
theorem Step.queue_eq (hstep : Step w h w') :
    h.started?.toList ++ w'.queue = w.queue ++ h.queued?.toList := by
  cases hstep <;> simp [Happening.started?, Happening.queued?]

theorem filterMap_cons_toList {α β : Type} (f : α → Option β) (a : α) (l : List α) :
    (a :: l).filterMap f = (f a).toList ++ l.filterMap f := by
  cases hf : f a <;> simp [hf]

theorem Runs.queue_eq (hruns : Runs w log w') :
    log.filterMap Happening.started? ++ w'.queue = w.queue ++ log.filterMap Happening.queued? := by
  induction hruns with
  | nil w => simp
  | cons first _ ih =>
    rw [filterMap_cons_toList, filterMap_cons_toList, List.append_assoc, ih, ← List.append_assoc,
      first.queue_eq, List.append_assoc]

/-- The tasks that are still to be entered. -/
def waiting (w : Worker) : List Task :=
  w.frames.flatMap (fun f => Task.subtasksAll f.rest) ++ Task.subtasksAll w.queue

/-- A task that is entered waits no longer, and those that it submits still do. -/
theorem Step.perm_waiting (hstep : Step w h w') :
    (h.entered?.toList ++ w'.waiting).Perm w.waiting := by
  cases hstep with
  | start t queue =>
    simp [Happening.entered?, waiting, Task.subtasksAll, Task.subtasks_eq]
  | enter t c rest below queue direct =>
    simp [Happening.entered?, waiting, Task.subtasksAll, Task.subtasks_eq]
  | queue t c rest below queue queued =>
    let others := Task.subtasksAll rest ++ below.flatMap (fun f => Task.subtasksAll f.rest) ++
      Task.subtasksAll queue
    have hmoved : (others ++ c.subtasks).Perm (c.subtasks ++ others) := List.perm_append_comm
    simpa [others, Happening.entered?, waiting, Task.subtasksAll_append, Task.subtasksAll]
      using hmoved
  | leave t below queue =>
    simp [Happening.entered?, waiting, Task.subtasksAll]

theorem Runs.perm_waiting (hruns : Runs w log w') :
    (log.filterMap Happening.entered? ++ w'.waiting).Perm w.waiting := by
  induction hruns with
  | nil w => exact List.Perm.refl _
  | cons first _ ih =>
    rw [filterMap_cons_toList, List.append_assoc]
    exact (ih.append_left _).trans first.perm_waiting

/-- The tasks that were entered and not left. -/
def inside (w : Worker) : List Task := w.frames.map (·.task)

theorem Step.inside_eq (hstep : Step w h w') :
    h.left?.toList ++ w'.inside = h.entered?.toList ++ w.inside := by
  cases hstep <;> rfl

theorem Runs.perm_inside (hruns : Runs w log w') :
    (log.filterMap Happening.left? ++ w'.inside).Perm
      (log.filterMap Happening.entered? ++ w.inside) := by
  induction hruns with
  | nil w => exact List.Perm.refl _
  | @cons w w' _ h log first _ ih =>
    let entered := log.filterMap Happening.entered?
    have hmove : (h.left?.toList ++ (entered ++ w'.inside)).Perm
        (entered ++ (h.entered?.toList ++ w.inside)) := by
      rw [← first.inside_eq]
      exact List.perm_append_comm_assoc _ _ _
    have hback := List.perm_append_comm_assoc entered h.entered?.toList w.inside
    rw [filterMap_cons_toList, filterMap_cons_toList, List.append_assoc, List.append_assoc]
    exact ((ih.append_left _).trans hmove).trans hback

/-! ### The loop -/

/-- A worker with a task that was handed to it. -/
def handed (root : Task) : Worker := { queue := [root] }

/-- What is known of all that a worker does with a task that was handed to it. -/
structure WorksOff (root : Task) (log : List Happening) : Prop where
  /-- The worker comes to its end in this way, and in no other one. -/
  runs : Runs (handed root) log idle
  unique {log' : List Happening} (h : Runs (handed root) log' idle) : log' = log
  /-- The loop does the same, batch by batch. -/
  rounds_eq : Task.rounds [root] = log.filterMap Happening.event?
  /-- Every task is entered once, and left once. -/
  entered : (log.filterMap Happening.entered?).Perm root.subtasks
  left : (log.filterMap Happening.left?).Perm root.subtasks
  /-- Tasks start in the order in which they were queued, and were queued before. -/
  started : log.filterMap Happening.started? = root :: log.filterMap Happening.queued?
  started_prefix {front : List Happening} (h : front <+: log) :
    front.filterMap Happening.started? <+: root :: front.filterMap Happening.queued?
  /-- When a task starts, all that was entered before is left. The task then does all that
      it does before anything else happens. -/
  start {front back : List Happening} {t : Task} (h : log = front ++ .start t :: back) :
    (front.filterMap Happening.left?).Perm (front.filterMap Happening.entered?) ∧
      ∃ rest, back = t.log ++ .leave t :: rest
  /-- So does a task that is entered within another one. -/
  enter {front back : List Happening} {c : Task} (h : log = front ++ .enter c :: back) :
    ∃ rest, back = c.log ++ .leave c :: rest

/-- Nothing is done between two tasks that were queued. -/
theorem Step.frames_of_start {t : Task} (hstep : Step w (.start t) w') :
    w.frames = [] ∧ w'.frames = [⟨t, t.children⟩] := by
  cases hstep
  exact ⟨rfl, rfl⟩

theorem Step.frames_of_enter {c : Task} (hstep : Step w (.enter c) w') :
    ∃ below, w'.frames = ⟨c, c.children⟩ :: below := by
  cases hstep
  exact ⟨_, rfl⟩

/-- A worker that has entered a task does all that the task does, and leaves it. -/
theorem Runs.exists_of_entered {t : Task} {below : List Frame} (hruns : Runs w log idle)
    (hframes : w.frames = ⟨t, t.children⟩ :: below) : ∃ rest, log = t.log ++ .leave t :: rest := by
  obtain ⟨frames, queue⟩ := w
  obtain rfl : frames = _ := hframes
  obtain ⟨rest, hrest, -⟩ := hruns.exists_rest (t.runs_log below queue)
  exact ⟨rest, by rw [hrest, List.append_assoc, List.singleton_append]⟩

/-- The loop does what a worker does with one queue, whatever task it is handed. -/
theorem exists_worksOff (root : Task) : ∃ log, WorksOff root log := by
  obtain ⟨log, hruns, hevents⟩ := exists_runs_rounds [root]
  have hqueue := hruns.queue_eq
  have hwaiting := hruns.perm_waiting
  have hinside := hruns.perm_inside
  have hentered : (log.filterMap Happening.entered?).Perm root.subtasks := by
    simpa [waiting, idle, Task.subtasksAll] using hwaiting
  refine ⟨log, {
    runs := hruns
    unique := fun h => hruns.unique h
    rounds_eq := hevents.symm
    entered := hentered
    left := ?_
    started := ?_
    started_prefix := fun {front} h => ?_
    start := fun {front back t} h => ?_
    enter := fun {front back c} h => ?_ }⟩
  · have hleft : (log.filterMap Happening.left?).Perm (log.filterMap Happening.entered?) := by
      simpa [inside, idle] using hinside
    exact hleft.trans hentered
  · simpa [idle] using hqueue
  · obtain ⟨back, rfl⟩ := h
    -- The loop as it stood behind that part of the log.
    obtain ⟨w, hfront, -⟩ := hruns.exists_of_append
    exact ⟨w.queue, hfront.queue_eq⟩
  · subst h
    obtain ⟨w, hfront, hback⟩ := hruns.exists_of_append
    obtain ⟨⟩ | ⟨first, hback⟩ := hback
    obtain ⟨hidle, hframes⟩ := first.frames_of_start
    refine ⟨?_, hback.exists_of_entered hframes⟩
    simpa [inside, hidle] using hfront.perm_inside
  · subst h
    obtain ⟨w, -, hback⟩ := hruns.exists_of_append
    obtain ⟨⟩ | ⟨first, hback⟩ := hback
    obtain ⟨below, hframes⟩ := first.frames_of_enter
    exact hback.exists_of_entered hframes

end Worker

end PageServer.Net
