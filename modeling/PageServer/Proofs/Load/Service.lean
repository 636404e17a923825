import PageServer.Proofs.Load.Jobs
import PageServer.Proofs.Load.Workplace

/-!
# The service of loads, asked and at work

What a request says and does is told by what it asks for and by the job of its path
(`Service.submit_of_invalid` and the lemmas after it). A step of the work turns the service in
one of a few ways (`Service.Turn`): a run goes on, or it ends, or the next one begins. Which
runs began is seen by the paths that left the queue (`Service.begunIn`), and which ended is
told by the log (`Service.endedIn`).

* `Workplace.Apart.turn`: a step of the work is a turn;
* `Service.Orderly.load`, `Service.Orderly.turn`: requests and turns keep the jobs orderly;
* `Service.WaitsStopped.turn`: a job that was told to stop before it began goes on waiting, or
  its run ends as stopped.
-/

namespace PageServer.Load

namespace Service

variable {s s' : Service} {path p : Bytes} {o : LoadOptions} {job : Job} {limit : Nat}
  {accepted begun : List Bytes} {ended : List (Bytes × JobState)} {st : JobState}
  {log : List Log.Record}

/-! ### Replies -/

/-- A load is accepted. -/
def submittedText (path : Bytes) : Bytes := "Load '" ++ path ++ "' is successfully submitted."

/-- A load is refused, as the job of the path is running. -/
def runningText (path : Bytes) : Bytes := "Load '" ++ path ++ "' is already running."

/-- A load is told to stop. -/
def stoppedText (path : Bytes) : Bytes := "Load '" ++ path ++ "' is successfully stopped."

/-- There is no load to be told to stop. -/
def notFoundText (path : Bytes) : Bytes :=
  "Cannot find load job for path " ++ path ++
    ", it might have already been stopped or finished."

theorem submittedText_ne_runningText (path : Bytes) : submittedText path ≠ runningText path := by
  rw [submittedText, runningText, List.append_assoc, List.append_assoc]
  intro h
  have htail := List.append_cancel_left (List.append_cancel_left h)
  exact absurd htail (by decide)

/-! What a reply begins with tells it from others. -/

theorem head?_submittedText (path : Bytes) : (submittedText path).head? = some 76 := rfl

theorem head?_runningText (path : Bytes) : (runningText path).head? = some 76 := rfl

theorem head?_stoppedText (path : Bytes) : (stoppedText path).head? = some 76 := rfl

theorem head?_notFoundText (path : Bytes) : (notFoundText path).head? = some 67 := rfl

theorem head?_of_parseFilter {reason : Bytes} (h : parseFilter o = .error reason) :
    reason.head? = some 73 := by
  rw [parseFilter] at h
  split at h
  · cases h
  · cases h
  · split at h
    · cases h
    · cases h
      rfl

theorem stoppedText_ne_notFoundText (path : Bytes) : stoppedText path ≠ notFoundText path := by
  intro h
  have hhead := congrArg List.head? h
  rw [head?_stoppedText, head?_notFoundText] at hhead
  cases hhead

/-- A filter is refused in other words than a load. -/
theorem ne_of_parseFilter {reason : Bytes} (h : parseFilter o = .error reason) (path : Bytes) :
    reason ≠ submittedText path ∧ reason ≠ runningText path := by
  have hhead := head?_of_parseFilter h
  constructor
  · rintro rfl
    rw [head?_submittedText] at hhead
    cases hhead
  · rintro rfl
    rw [head?_runningText] at hhead
    cases hhead

/-! ### Requests -/

theorem submit_of_invalid {reason : Bytes} (h : parseFilter o = .error reason) (s : Service) :
    submit path o s = ⟨.ok reason, s, []⟩ := by
  rw [submit, h]
  rfl

theorem submit_of_running {filter : Option Regex.Pattern} (h : parseFilter o = .ok filter)
    (hrunning : s.isRunning path) : submit path o s = ⟨.ok (runningText path), s, []⟩ := by
  rw [submit, h]
  show (if s.isRunning path then _ else _ : Act Service Bytes) s = _
  rw [if_pos hrunning]
  rfl

theorem submit_of_idle {filter : Option Regex.Pattern} (h : parseFilter o = .ok filter)
    (hidle : ¬ s.isRunning path) :
    submit path o s = ⟨.ok (submittedText path), s.enter { path, options := o, filter },
      [⟨.info, "LocalLoadService: submitted load of " ++ path ++ " " ++ o.text⟩]⟩ := by
  rw [submit, h]
  show (if s.isRunning path then _ else _ : Act Service Bytes) s = _
  rw [if_neg hidle]
  rfl

theorem stop_of_running (hrunning : s.isRunning path) :
    stop path s = ⟨.ok (stoppedText path), s.change path fun job => { job with cancelled := true },
      [⟨.info, "LocalLoadService: stop requested for " ++ path⟩]⟩ := by
  show (if s.isRunning path then _ else _ : Act Service Bytes) s = _
  rw [if_pos hrunning]
  rfl

theorem stop_of_idle (hidle : ¬ s.isRunning path) :
    stop path s = ⟨.ok (notFoundText path), s, []⟩ := by
  show (if s.isRunning path then _ else _ : Act Service Bytes) s = _
  rw [if_neg hidle]
  rfl

theorem leaves_progress (path : Bytes) (o : LoadOptions) :
    (progress path o).Leaves fun s => s := by
  refine Act.leaves_bind Act.leaves_get fun s => ?_
  split <;> exact Act.leaves_pure _

theorem load_submit (h : o.operation.getD .submit = .submit) (path : Bytes) :
    load path o = submit path o := by rw [load, h]

theorem load_stop (h : o.operation.getD .submit = .stop) (path : Bytes) :
    load path o = stop path := by rw [load, h]

theorem load_progress (h : o.operation.getD .submit = .progress) (path : Bytes) :
    load path o = progress path o := by rw [load, h]

/-- All that a request can make of the service. -/
theorem load_cases (path : Bytes) (o : LoadOptions) (s : Service) :
    (load path o s).state = s ∨
      (∃ filter, ¬ s.isRunning path ∧ (load path o s).state = s.enter { path, options := o, filter }) ∨
      o.operation.getD .submit = .stop ∧
        (load path o s).state = s.change path fun job => { job with cancelled := true } := by
  rcases hop : o.operation.getD .submit
  case submit =>
    rw [load_submit hop]
    rcases hfilter : parseFilter o with reason | filter
    · exact .inl (by rw [submit_of_invalid hfilter])
    · by_cases hrunning : s.isRunning path
      · exact .inl (by rw [submit_of_running hfilter hrunning])
      · exact .inr (.inl ⟨filter, hrunning, by rw [submit_of_idle hfilter hrunning]⟩)
  case stop =>
    rw [load_stop hop]
    by_cases hrunning : s.isRunning path
    · exact .inr (.inr ⟨rfl, by rw [stop_of_running hrunning]⟩)
    · exact .inl (by rw [stop_of_idle hrunning])
  case progress =>
    rw [load_progress hop]
    exact .inl (leaves_progress path o s)

/-- A request leaves the work alone. -/
theorem current_load (path : Bytes) (o : LoadOptions) (s : Service) :
    (load path o s).state.current = s.current := by
  rcases load_cases path o s with h | ⟨filter, -, h⟩ | ⟨-, h⟩ <;> rw [h]
  · rfl
  · exact (change_frame s path _).2.1

/-- A request leaves the queue as it is, or adds to its end. -/
theorem waiting_load (path : Bytes) (o : LoadOptions) (s : Service) :
    s.waiting <+: (load path o s).state.waiting := by
  rcases load_cases path o s with h | ⟨filter, -, h⟩ | ⟨-, h⟩
  all_goals have hwaiting := (congrArg waiting h).symm
  · exact ⟨[], (List.append_nil _).trans hwaiting⟩
  · exact ⟨[path], hwaiting⟩
  · exact ⟨[], (List.append_nil _).trans ((change_frame s path _).2.2.1.symm.trans hwaiting)⟩

/-- A request leaves a running job as it is, unless it tells this one to stop. -/
theorem get?_load (hjob : s.jobs.get? p = some job) (hrunning : job.state = .running)
    (hstop : path = p → o.operation.getD .submit ≠ .stop) :
    (load path o s).state.jobs.get? p = some job := by
  rcases load_cases path o s with h | ⟨filter, hidle, h⟩ | ⟨hop, h⟩ <;> rw [h]
  · exact hjob
  · have hne : p ≠ path := by
      rintro rfl
      exact hidle (isRunning_iff.2 (stateOf_eq_some_iff.2 ⟨job, hjob, hrunning⟩))
    rw [get?_enter, if_neg hne, hjob]
  · rw [get?_change, if_neg fun hp => hstop hp.symm hop, hjob]

/-- The path of a load that the reply to a request says is accepted. -/
def taken (path : Bytes) (o : LoadOptions) (reply : Except Failure Bytes) : List Bytes :=
  if o.operation.getD .submit = .submit ∧ reply = .ok (submittedText path) then [path] else []

theorem taken_of_not_submit (h : o.operation.getD .submit ≠ .submit) (path : Bytes)
    (reply : Except Failure Bytes) : taken path o reply = [] := if_neg fun hreply => h hreply.1

theorem taken_of_ne {reply : Bytes} (h : reply ≠ submittedText path) (o : LoadOptions) :
    taken path o (.ok reply) = [] := if_neg fun hreply => h (Except.ok.inj hreply.2)

theorem continues_cancel (job : Job) : Continues job { job with cancelled := true } :=
  ⟨rfl, rfl, rfl, rfl, fun _ => rfl⟩

/-- A request keeps the jobs orderly, and the running ones go on. -/
theorem Orderly.load (h : Orderly limit s accepted begun ended) (path : Bytes) (o : LoadOptions) :
    Orderly limit (load path o s).state (accepted ++ taken path o (load path o s).result) begun
      ended ∧ s.Keeps (load path o s).state [] := by
  have hrefused : Orderly limit s (accepted ++ []) begun ended ∧ s.Keeps s [] := by
    rw [List.append_nil]
    exact ⟨h, keeps_of_jobs_eq rfl []⟩
  rcases hop : o.operation.getD .submit
  case submit =>
    rw [load_submit hop]
    rcases hfilter : parseFilter o with reason | filter
    · rw [submit_of_invalid hfilter, taken_of_ne (ne_of_parseFilter hfilter path).1]
      exact hrefused
    · by_cases hrunning : s.isRunning path
      · rw [submit_of_running hfilter hrunning,
          taken_of_ne (submittedText_ne_runningText path).symm]
        exact hrefused
      · rw [submit_of_idle hfilter hrunning, taken, if_pos ⟨hop, rfl⟩]
        let job : Job := { path, options := o, filter }
        have hidle : ¬ s.isRunning job.path := hrunning
        exact ⟨h.enter hidle rfl, keeps_enter hidle⟩
  case stop =>
    rw [load_stop hop, taken_of_not_submit (by rw [hop]; decide)]
    by_cases hrunning : s.isRunning path
    · rw [stop_of_running hrunning, List.append_nil]
      exact ⟨h.change path continues_cancel, keeps_change s path continues_cancel⟩
    · rw [stop_of_idle hrunning]
      exact hrefused
  case progress =>
    have hleft : (progress path o s).state = s := leaves_progress path o s
    rw [load_progress hop, taken_of_not_submit (by rw [hop]; decide), hleft]
    exact hrefused

/-! ### Ends of runs -/

/-- The record says that the run of a path ended in a state. -/
def saysEnd (path : Bytes) (state : JobState) (record : Log.Record) : Bool :=
  record.level = .info &&
    ("LocalLoadService: load of " ++ path ++ " finished state=" ++ state.name ++ " " :
      Bytes).isPrefixOf record.message

/-- The state in which the log says that the run of a path ended. -/
def endSaid (path : Bytes) (log : List Log.Record) : Option JobState :=
  [.succeeded, .failed, .stopped].find? fun state => log.any (saysEnd path state)

theorem two_le_length_name (st : JobState) : 2 ≤ st.name.length := by cases st <;> decide

/-- Two bytes of the name of a state tell which one it is. -/
theorem eq_of_take_name {st st' : JobState} (h : st.name.take 2 = st'.name.take 2) : st = st' := by
  revert h
  cases st <;> cases st' <;> decide

theorem saysEnd_endingText (job : Job) (st st' : JobState) :
    saysEnd job.path st ⟨.info, endingText job st'⟩ ↔ st = st' := by
  simp only [saysEnd, endingText, decide_true, Bool.true_and, List.isPrefixOf_iff_prefix,
    List.append_assoc, List.prefix_append_right_inj]
  constructor
  · rintro ⟨rest, h⟩
    have htake := congrArg (List.take 2) h
    rw [List.append_assoc, List.take_append_of_le_length (two_le_length_name st),
      List.take_append_of_le_length (two_le_length_name st')] at htake
    exact eq_of_take_name htake
  · rintro rfl
    exact (List.prefix_append_right_inj _).2 ⟨_, rfl⟩

/-- The log of the end of a run says how it ended, whatever it warns of before. -/
theorem endSaid_of_endingText {warnings : List Log.Record}
    (hwarnings : ∀ record ∈ warnings, record.level ≠ .info) (hpath : job.path = path)
    (hst : st ≠ .running) : endSaid path (warnings ++ [⟨.info, endingText job st⟩]) = some st := by
  subst hpath
  have hread (st' : JobState) :
      (warnings ++ [(⟨.info, endingText job st⟩ : Log.Record)]).any (saysEnd job.path st') =
        decide (st' = st) := by
    rw [List.any_append, List.any_eq_false.2, Bool.false_or, List.any_cons, List.any_nil,
      Bool.or_false, Bool.eq_iff_iff, saysEnd_endingText, decide_eq_true_iff]
    intro record hrecord
    rw [saysEnd, decide_eq_false (hwarnings record hrecord), Bool.false_and]
    exact Bool.false_ne_true
  rw [endSaid]
  simp only [hread]
  revert hst
  cases st <;> decide

/-! ### Steps of the work -/

/-- Nothing changed but the tally of the job of a path, if that did. -/
def Retold (s : Service) (path : Bytes) (t : Service) : Prop :=
  t = s ∨ ∃ f : Tally → Tally, t = s.change path fun job => { job with tally := f job.tally }

/-- All that a step of the work can make of the service, and what its log says. -/
inductive Turn (s : Service) (log : List Log.Record) : Service → Prop
  /-- There is no job to work on, or its work cannot go on. -/
  | rests (hrest : s.current = none → s.waiting = []) : Turn s log s
  /-- The job at work gets on. -/
  | works {work : AtWork} {t : Service} (program : Program Next)
      (hcurrent : s.current = some work) (hretold : s.Retold work.path t) :
      Turn s log { t with current := some ⟨work.path, program⟩ }
  /-- The run of the job at work ends. -/
  | ends {work : AtWork} {t : Service} {st : JobState} (hcurrent : s.current = some work)
      (hretold : s.Retold work.path t) (hst : st ≠ .running)
      (hsaid : endSaid work.path log = some st) : Turn s log (t.close work.path st)
  /-- The run of the first of the jobs that wait begins. -/
  | begins {path : Bytes} {job : Job} {rest : List Bytes} (program : Program Next)
      (hcurrent : s.current = none)
      (hwaiting : s.waiting = path :: rest) (hjob : s.jobs.get? path = some job)
      (hgo : job.cancelled = false) :
      Turn s log { s with waiting := rest, current := some ⟨path, program⟩ }
  /-- The run of the first of the jobs that wait ends as it begins: it was told to stop. -/
  | stops {path : Bytes} {job : Job} {rest : List Bytes} (hcurrent : s.current = none)
      (hwaiting : s.waiting = path :: rest) (hjob : s.jobs.get? path = some job)
      (hstop : job.cancelled = true) (hsaid : endSaid path log = some .stopped) :
      Turn s log ({ s with waiting := rest }.close path .stopped)

theorem turn_finish {work : AtWork} (hcurrent : s.current = some work)
    (hpath : job.path = work.path) (hst : st ≠ .running) :
    Turn s (finish job st s).log (finish job st s).state := by
  have hsaid : endSaid work.path ([] ++ [⟨.info, endingText job st⟩]) = some st :=
    endSaid_of_endingText (List.forall_mem_nil _) hpath hst
  show Turn s [⟨.info, endingText job st⟩] (s.close job.path st)
  rw [hpath]
  exact .ends hcurrent (.inl rfl) hst hsaid

theorem turn_giveUp {work : AtWork} (hcurrent : s.current = some work)
    (hpath : job.path = work.path) (reason : Bytes) :
    Turn s (giveUp job reason s).log (giveUp job reason s).state := by
  let warning : Log.Record :=
    ⟨.warn, "LocalLoadService: load of " ++ job.path ++ " failed: " ++ reason⟩
  have hwarning : warning.level ≠ .info := fun h => by cases h
  have hst : JobState.failed ≠ .running := by decide
  have hsaid : endSaid work.path ([warning] ++ [⟨.info, endingText job .failed⟩]) = some .failed :=
    endSaid_of_endingText (List.forall_mem_singleton.2 hwarning) hpath hst
  show Turn s ([warning] ++ [⟨.info, endingText job .failed⟩])
    ((s.change job.path fun j => { j with tally := { j.tally with error := reason } }).close
      job.path .failed)
  rw [hpath]
  exact .ends hcurrent (.inr ⟨fun t => { t with error := reason }, rfl⟩) hst hsaid

theorem endState_ne_running (job : Job) : endState job ≠ .running := by
  rw [endState]
  split
  · decide
  · split <;> decide

/-- What follows the end of a round. -/
theorem turn_afterRound {work : AtWork} (hcurrent : s.current = some work)
    (hpath : job.path = work.path) (pageSize : Int) (result : Except Failure Next) :
    Turn s (afterRound pageSize job result s).log (afterRound pageSize job result s).state := by
  rcases result with e | next | walk
  · cases e with
    | noSuchPath _ => exact turn_giveUp hcurrent hpath _
    | fileSystem _ => exact turn_giveUp hcurrent hpath _
    | pattern _ => exact turn_giveUp hcurrent hpath _
    | _ =>
      -- A failure that nobody expects gets through, and nothing has changed.
      exact .rests fun hnone => by rw [hcurrent] at hnone; cases hnone
  · exact turn_finish hcurrent hpath (endState_ne_running job)
  · show Turn s [] { s with current := some ⟨job.path, job.round pageSize walk⟩ }
    rw [hpath]
    exact .works _ hcurrent (.inl rfl)

theorem turn_start {rest : List Bytes} (hcurrent : s.current = none)
    (hwaiting : s.waiting = path :: rest) (hjob : s.jobs.get? path = some job)
    (hpath : job.path = path) (pageSize : Int) :
    Turn s (start pageSize job { s with waiting := rest }).log
      (start pageSize job { s with waiting := rest }).state := by
  rcases hcancelled : job.cancelled
  · rw [start, if_neg (by simp [hcancelled])]
    show Turn s [] { s with waiting := rest, current := some ⟨job.path, job.begin pageSize⟩ }
    rw [hpath]
    exact .begins _ hcurrent hwaiting hjob hcancelled
  · have hsaid : endSaid path ([] ++ [⟨.info, endingText job .stopped⟩]) = some .stopped :=
      endSaid_of_endingText (List.forall_mem_nil _) hpath (by decide)
    rw [start, if_pos hcancelled]
    show Turn s [⟨.info, endingText job .stopped⟩]
      ({ s with waiting := rest }.close job.path .stopped)
    rw [hpath]
    exact .stops hcurrent hwaiting hjob hcancelled hsaid

/-! ### What is seen of the work -/

/-- The paths that have left the queue. -/
def begunIn (s s' : Service) : List Bytes := s.waiting.take (s.waiting.length - s'.waiting.length)

/-- The runs that were at work or began, and are not at work any more, with the states that
    the log says. -/
def endedIn (s s' : Service) (log : List Log.Record) : List (Bytes × JobState) :=
  ((s.current.map (·.path)).toList ++ s.begunIn s').filter
      (· ∉ (s'.current.map (·.path)).toList)
    |>.filterMap fun path => (endSaid path log).map (path, ·)

theorem begunIn_of_waiting_eq (h : s'.waiting = s.waiting) : s.begunIn s' = [] := by
  rw [begunIn, h, Nat.sub_self, List.take_zero]

theorem begunIn_of_waiting_cons (h : s.waiting = path :: s'.waiting) : s.begunIn s' = [path] := by
  rw [begunIn, h, List.length_cons, Nat.add_sub_cancel_left, List.take_succ_cons, List.take_zero]

/-- No run ends as long as the same job is at work. -/
theorem endedIn_of_at_work
    (h : (s.current.map (·.path)).toList ++ s.begunIn s' = (s'.current.map (·.path)).toList)
    (log : List Log.Record) : s.endedIn s' log = [] := by
  rw [endedIn, h, List.filter_eq_nil_iff.2, List.filterMap_nil]
  intro p hp
  simpa using hp

theorem endedIn_of_end (h : (s.current.map (·.path)).toList ++ s.begunIn s' = [path])
    (hcurrent : s'.current = none) (hsaid : endSaid path log = some st) :
    s.endedIn s' log = [(path, st)] := by
  rw [endedIn, h, hcurrent]
  simp [hsaid]

theorem Retold.frame {t : Service} (h : s.Retold path t) :
    t.current = s.current ∧ t.waiting = s.waiting := by
  rcases h with rfl | ⟨f, rfl⟩
  · exact ⟨rfl, rfl⟩
  · exact ⟨(change_frame s path _).2.1, (change_frame s path _).2.2.1⟩

theorem Retold.keeps {t : Service} (h : s.Retold path t) : s.Keeps t [] := by
  rcases h with rfl | ⟨f, rfl⟩
  · exact keeps_of_jobs_eq rfl []
  · exact keeps_change s path fun _ => ⟨rfl, rfl, rfl, rfl, id⟩

theorem Orderly.retold {t : Service} (h : Orderly limit s accepted begun ended)
    (hretold : s.Retold path t) : Orderly limit t accepted begun ended := by
  rcases hretold with rfl | ⟨f, rfl⟩
  · exact h
  · exact h.change path fun _ => ⟨rfl, rfl, rfl, rfl, id⟩

theorem close_frame (s : Service) (path : Bytes) (st : JobState) :
    (s.close path st).current = none ∧ (s.close path st).waiting = s.waiting :=
  ⟨rfl, (change_frame s path fun job => { job with state := st }).2.2.1⟩

/-- It does not matter which run is at work when it ends. -/
theorem close_current (s : Service) (work : Option AtWork) (path : Bytes) (st : JobState) :
    { s with current := work }.close path st = s.close path st := by
  simp only [close, change]
  rcases s.jobs.get? path <;> rfl

/-- A step of the work keeps the jobs orderly, and the running ones go on, unless their runs
    end. -/
theorem Orderly.turn (h : Orderly limit s accepted begun ended) (hturn : Turn s log s') :
    Orderly limit s' accepted (begun ++ s.begunIn s') (ended ++ s.endedIn s' log) ∧
      s.Keeps s' (s.endedIn s' log) := by
  cases hturn with
  | rests hrest =>
    rw [endedIn_of_at_work (by rw [begunIn_of_waiting_eq rfl, List.append_nil]),
      begunIn_of_waiting_eq rfl, List.append_nil, List.append_nil]
    exact ⟨h, keeps_of_jobs_eq rfl []⟩
  | @works work t program hcurrent hretold =>
    obtain ⟨htcurrent, htwaiting⟩ := hretold.frame
    have hbegun : s.begunIn { t with current := some ⟨work.path, program⟩ } = [] :=
      begunIn_of_waiting_eq htwaiting
    rw [endedIn_of_at_work (by rw [hbegun, hcurrent]; rfl), hbegun, List.append_nil,
      List.append_nil]
    exact ⟨(h.retold hretold).works (htcurrent.trans hcurrent) program,
      hretold.keeps.trans (keeps_of_jobs_eq rfl [])⟩
  | @ends work t st hcurrent hretold hst hsaid =>
    obtain ⟨htcurrent, htwaiting⟩ := hretold.frame
    obtain ⟨hcurrent', hwaiting'⟩ := close_frame t work.path st
    have hbegun := begunIn_of_waiting_eq (hwaiting'.trans htwaiting)
    have hatWork : t.current.map (·.path) = some work.path := by rw [htcurrent, hcurrent]; rfl
    rw [endedIn_of_end (by rw [hbegun, hcurrent]; rfl) hcurrent' hsaid, hbegun, List.append_nil]
    have ht := h.retold hretold
    exact ⟨ht.close hatWork hst, hretold.keeps.trans (ht.toConsistent.keeps_close hatWork hst)⟩
  | @begins path job rest program hcurrent hwaiting hjob hgo =>
    have hbegun : s.begunIn { s with waiting := rest, current := some ⟨path, program⟩ } = [path] :=
      begunIn_of_waiting_cons hwaiting
    rw [endedIn_of_at_work (by rw [hbegun, hcurrent]; rfl), hbegun, List.append_nil]
    exact ⟨h.begins hcurrent hwaiting program, keeps_of_jobs_eq rfl []⟩
  | @stops path job rest hcurrent hwaiting hjob hstop hsaid =>
    -- The run begins and ends at once.
    let t : Service := { s with waiting := rest, current := some ⟨path, .done (.ok .over)⟩ }
    have ht : Orderly limit t accepted (begun ++ [path]) ended :=
      h.begins hcurrent hwaiting _
    obtain ⟨hcurrent', hwaiting'⟩ := close_frame t path .stopped
    rw [← close_current _ t.current]
    have hbegun : s.begunIn (t.close path .stopped) = [path] :=
      begunIn_of_waiting_cons (by rw [hwaiting', hwaiting])
    rw [endedIn_of_end (by rw [hbegun, hcurrent]; rfl) hcurrent' hsaid, hbegun]
    exact ⟨ht.close rfl (by decide),
      (keeps_of_jobs_eq rfl []).trans (ht.toConsistent.keeps_close rfl (by decide))⟩

/-- What waited has left the queue or waits now, and what was active has ended or is active
    now. -/
theorem Orderly.conserved (h : Orderly limit s accepted begun ended)
    (h' : Orderly limit s' accepted (begun ++ s.begunIn s') (ended ++ s.endedIn s' log)) :
    s.waiting = s.begunIn s' ++ s'.waiting ∧
      s.active = (s.endedIn s' log).map (·.1) ++ s'.active := by
  have hwaiting : s.waiting = s.begunIn s' ++ s'.waiting := by
    have haccepted := h.accepted_eq.symm.trans h'.accepted_eq
    rw [List.append_assoc] at haccepted
    exact List.append_cancel_left haccepted
  refine ⟨hwaiting, ?_⟩
  have hbegun := h'.begun_eq
  rw [h.begun_eq, List.map_append, List.append_assoc, List.append_assoc] at hbegun
  rw [active, hwaiting, ← List.append_assoc, List.append_cancel_left hbegun, List.append_assoc,
    active]

/-- What is active after a step of the work has not ended with it. -/
theorem Orderly.not_mem_endedIn (h : Orderly limit s accepted begun ended) (hturn : Turn s log s')
    (hp : p ∈ s'.active) : p ∉ (s.endedIn s' log).map (·.1) := fun hend =>
  (List.nodup_append'.1 ((h.conserved (h.turn hturn).1).2 ▸ h.nodup_active)).2.2 hend hp

/-- The run of the path is at work. -/
def Runs (s : Service) (path : Bytes) : Prop := ∃ work, s.current = some work ∧ work.path = path

/-- A step of the work leaves running jobs as they are, but for the one at work, as long as
    they are not told to stop. -/
theorem Turn.get?_eq (hturn : Turn s log s') (h : Orderly limit s accepted begun ended)
    (hruns : ¬ s.Runs p) (hjob : s.jobs.get? p = some job) (hrunning : job.state = .running)
    (hgo : job.cancelled = false) : s'.jobs.get? p = some job := by
  have hother : ∀ {work : AtWork}, s.current = some work → p ≠ work.path :=
    fun hcurrent hp => hruns ⟨_, hcurrent, hp.symm⟩
  have hretold : ∀ {work : AtWork} {t : Service}, s.current = some work → s.Retold work.path t →
      t.jobs.get? p = some job := by
    rintro work t hcurrent (rfl | ⟨f, rfl⟩)
    · exact hjob
    · rw [get?_change, if_neg (hother hcurrent), hjob]
  cases hturn with
  | rests hrest => exact hjob
  | works program hcurrent hr =>
    have hkept := hretold hcurrent hr
    exact hkept
  | ends hcurrent hr hst hsaid =>
    have hatWork := congrArg (Option.map (·.path)) (hr.frame.1.trans hcurrent)
    exact (h.retold hr).toConsistent.get?_close hatWork hst (hother hcurrent)
      (hretold hcurrent hr) hrunning
  | begins program hcurrent hwaiting hjob' hgo' => exact hjob
  | @stops path job' rest hcurrent hwaiting hjob' hstop hsaid =>
    have hne : p ≠ path := by
      rintro rfl
      cases hjob.symm.trans hjob'
      rw [hgo] at hstop
      cases hstop
    -- The run that is stopped begins and ends in one step.
    rw [← close_current _ (some ⟨path, .done (.ok .over)⟩)]
    exact (h.toConsistent.begins hcurrent hwaiting _).get?_close rfl (by decide) hne hjob hrunning

/-! ### Jobs told to stop before they begin -/

/-- The job of the path has not begun, and it was told to stop. -/
def WaitsStopped (s : Service) (path : Bytes) : Prop :=
  path ∈ s.waiting ∧ ∃ job, s.jobs.get? path = some job ∧ job.cancelled = true

/-- A step begins no run, unless none is at work and a job waits for it. The run ends at once
    if its job was told to stop. -/
theorem Turn.begunIn_cases (hturn : Turn s log s') :
    s.begunIn s' = [] ∧ (s.current = none → s.waiting = []) ∨
      ∃ p job, s.current = none ∧ s.begunIn s' = [p] ∧ s.jobs.get? p = some job ∧
        (job.cancelled = true → s.endedIn s' log = [(p, .stopped)]) := by
  cases hturn with
  | rests hrest => exact .inl ⟨begunIn_of_waiting_eq rfl, hrest⟩
  | works program hcurrent hretold =>
    refine .inl ⟨begunIn_of_waiting_eq hretold.frame.2, fun hnone => ?_⟩
    cases hcurrent.symm.trans hnone
  | ends hcurrent hretold hst hsaid =>
    refine .inl ⟨begunIn_of_waiting_eq ((close_frame _ _ _).2.trans hretold.frame.2),
      fun hnone => ?_⟩
    cases hcurrent.symm.trans hnone
  | begins program hcurrent hwaiting hjob hgo =>
    refine .inr ⟨_, _, hcurrent, begunIn_of_waiting_cons hwaiting, hjob, fun hstop => ?_⟩
    rw [hgo] at hstop
    cases hstop
  | @stops p job rest hcurrent hwaiting hjob hstop hsaid =>
    obtain ⟨hcurrent', hwaiting'⟩ := close_frame { s with waiting := rest } p .stopped
    have hbegun := begunIn_of_waiting_cons (hwaiting.trans (congrArg (p :: ·) hwaiting'.symm))
    exact .inr ⟨p, job, hcurrent, hbegun, hjob, fun _ =>
      endedIn_of_end (by rw [hbegun, hcurrent]; rfl) hcurrent' hsaid⟩

/-- A job that is kept and still waits is still told to stop. -/
theorem WaitsStopped.of_keeps (h : s.WaitsStopped path) (hs : Orderly limit s accepted begun ended)
    {ended' : List (Bytes × JobState)} (hkeeps : s.Keeps s' ended')
    (hgoes : path ∉ ended'.map (·.1)) (hwaits : path ∈ s'.waiting) : s'.WaitsStopped path := by
  obtain ⟨hmem, job, hjob, hcancelled⟩ := h
  have hrunning := (hs.mem_active path).1 (List.mem_append_right _ hmem)
  rw [stateOf, hjob] at hrunning
  rcases hkeeps path job hjob (Option.some.inj hrunning) with hend | ⟨job', hjob', hcontinues⟩
  · exact absurd hend hgoes
  · exact ⟨hwaits, job', hjob', hcontinues.cancelled hcancelled⟩

/-- A request leaves the job waiting. -/
theorem WaitsStopped.load (h : s.WaitsStopped path) (hs : Orderly limit s accepted begun ended)
    (path' : Bytes) (o : LoadOptions) : (load path' o s).state.WaitsStopped path := by
  obtain ⟨hs', hkeeps⟩ := hs.load path' o
  have hwaiting := hs'.accepted_eq
  rw [hs.accepted_eq, List.append_assoc] at hwaiting
  refine h.of_keeps hs hkeeps List.not_mem_nil ?_
  rw [← List.append_cancel_left hwaiting]
  exact List.mem_append_left _ h.1

/-- A step of the work leaves the job waiting, or it ends its run as it begins it. -/
theorem WaitsStopped.turn (h : s.WaitsStopped path) (hs : Orderly limit s accepted begun ended)
    (hturn : Turn s log s') :
    s'.WaitsStopped path ∨ s.current = none ∧ s.endedIn s' log = [(path, .stopped)] := by
  obtain ⟨hs', hkeeps⟩ := hs.turn hturn
  have hwaiting := (hs.conserved hs').1
  rcases List.mem_append.1 (hwaiting ▸ h.1) with hbegins | hwaits
  · obtain ⟨hnone, -⟩ | ⟨p, job', hcurrent, hbegun, hjob', hends⟩ := hturn.begunIn_cases
    · rw [hnone] at hbegins
      cases hbegins
    · rw [hbegun, List.mem_singleton] at hbegins
      subst hbegins
      obtain ⟨-, job, hjob, hcancelled⟩ := h
      cases hjob.symm.trans hjob'
      exact .inr ⟨hcurrent, hends hcancelled⟩
  · have hgoes := hs.not_mem_endedIn hturn (List.mem_append_right _ hwaits)
    exact .inl (h.of_keeps hs hkeeps hgoes hwaits)

end Service

namespace Workplace

variable {σ : Type} {w : Workplace σ} {x : σ} {limit : Nat} {accepted begun : List Bytes}
  {ended : List (Bytes × JobState)}

namespace Apart

theorem retold_perform (hw : w.Apart) (path : Bytes) (c : Call) (x : σ) :
    (w.service.get x).Retold path (w.service.get (w.perform path c x).state) := by
  cases c with
  | status p => exact .inl (hw.files.status p x)
  | list p => exact .inl (hw.files.list p x)
  | openFile p => exact .inl (hw.files.openFile p x)
  | read file position length => exact .inl (hw.files.read file position length x)
  | isCached id index =>
    exact .inl (Act.leaves_bind (hw.pages.locate id index) (fun _ => Act.leaves_pure _) x)
  | writePage id index data => exact .inl (hw.pages.write id index data x)
  | isStopped => exact .inl (hw.get_set _ x)
  | update f => exact .inr ⟨f, hw.get_set _ x⟩
  | warn message => exact .inl rfl

theorem service_within (hw : w.Apart) {α : Type} (a : Act Service α) (x : σ) :
    w.service.get (Act.within w.service a x).state = (a (w.service.get x)).state :=
  hw.get_set _ _

/-- A step starts by looking at the service. -/
theorem step_eq (hw : w.Apart) (x : σ) {α : Type} (f : Service → Act σ α) :
    (Act.within w.service Act.get >>= f) x = f (w.service.get x) x := by
  have hget : (Act.within w.service Act.get x).state = x := hw.set_get x
  rw [Act.bind_of_ok (v := w.service.get x) rfl, hget]
  rfl

/-- A step is one of the turns. -/
theorem turn (hw : w.Apart)
    (h : Service.Consistent limit (w.service.get x) accepted begun ended) :
    (w.service.get x).Turn (w.step x).log (w.service.get (w.step x).state) := by
  rw [Workplace.step, hw.step_eq]
  rcases hcurrent : (w.service.get x).current with _ | ⟨path, result | ⟨c, next⟩⟩
  · rcases hwaiting : (w.service.get x).waiting with _ | ⟨path, rest⟩
    · exact .rests fun _ => hwaiting
    · obtain ⟨job, hjob, hpath, -⟩ := h.get?_waiting hwaiting
      show Service.Turn _ _ (w.service.get (Act.within w.service _ x).state)
      rw [hw.service_within]
      simp only [hjob]
      exact Service.turn_start hcurrent hwaiting hjob hpath _
  · obtain ⟨job, hjob, hpath, -⟩ := h.get?_current hcurrent
    show Service.Turn _ _ (w.service.get (Act.within w.service _ x).state)
    rw [hw.service_within]
    simp only [hjob]
    exact Service.turn_afterRound hcurrent hpath _ result
  · show Service.Turn _ _ (w.service.get (w.service.set _ _))
    rw [hw.get_set]
    exact .works _ hcurrent (hw.retold_perform path c x)

/-- Unless a run is at work, a step leaves all but the service as it is. -/
theorem step_of_current_none (hw : w.Apart) (hcurrent : (w.service.get x).current = none) :
    ∃ service, (w.step x).state = w.service.set service x := by
  rw [Workplace.step, hw.step_eq]
  simp only [hcurrent]
  rcases (w.service.get x).waiting
  · exact ⟨w.service.get x, (hw.set_get x).symm⟩
  · exact ⟨_, rfl⟩

end Apart

end Workplace

end PageServer.Load
