import PageServer.Proofs.Load.Service
import PageServer.Proofs.Worker.Traffic

/-!
# Chronicles of the load service

Clients ask the service for loads while it works on them, and the files and the pages are
others from time to time. A *chronicle* follows this event by event (`Chronicle.after`): it
notes the loads that the service said it accepted, the runs that began, as their paths left
the queue, and the runs that ended, as the log says.

Whatever happens, the jobs are orderly and the requests are answered as the jobs stand
(`Chronicle.sound_run`).
-/

namespace PageServer.Load

variable {σ : Type}

/-- Loads from local files into local pages are apart from the disk. -/
theorem apart_local (f : LocalFiles) (p : LocalPages) :
    (⟨f.onDisk.within Installation.diskPart, p.store Installation.diskPart,
      Installation.servicePart⟩ : Workplace Installation).Apart where
  files := FileSystem.leaves_within (fun _ _ => rfl) _
  pages := LocalPages.leaves_store (fun _ _ => rfl) p
  get_set _ _ := rfl
  set_get _ := rfl
  set_set _ _ _ := rfl

/-- What happens around the service. -/
inductive Event (σ : Type)
  /-- A client asks for a load. -/
  | load (path : Bytes) (o : LoadOptions)
  /-- The work gets on by a step. -/
  | work
  /-- All but the service is as in another state from now on. -/
  | world (x : σ)

/-- The state, and what was seen until then. A step of the work that fails ends the program, and
    what is told of the time after it nobody sees: the step leaves all as it is, so that from then
    on the run that failed is at work for ever. -/
structure Chronicle (σ : Type) where
  state : σ
  /-- The paths of the loads that were accepted. -/
  accepted : List Bytes := []
  /-- The paths of the runs that began. -/
  begun : List Bytes := []
  /-- The runs that ended, and how. -/
  ended : List (Bytes × JobState) := []

namespace Chronicle

/-- The chronicle after an event. -/
def after (w : Workplace σ) (c : Chronicle σ) : Event σ → Chronicle σ
  | .load path o =>
    let out := w.loader.load path o c.state
    { c with
      state := out.state
      accepted := c.accepted ++ Service.taken path o out.result }
  | .work =>
    let out := w.step c.state
    let before := w.service.get c.state
    let now := w.service.get out.state
    { c with
      state := out.state
      begun := c.begun ++ before.begunIn now
      ended := c.ended ++ before.endedIn now out.log }
  | .world x => { c with state := w.service.set (w.service.get c.state) x }

/-- The chronicle after events. -/
def run (w : Workplace σ) (c : Chronicle σ) (events : List (Event σ)) : Chronicle σ :=
  events.foldl (after w) c

/-- The jobs as they stand. -/
def service (w : Workplace σ) (c : Chronicle σ) : Service := w.service.get c.state

/-- The reply to a request for a load. -/
def reply (w : Workplace σ) (c : Chronicle σ) (path : Bytes) (o : LoadOptions) :
    Except Failure Bytes := (w.loader.load path o c.state).result

/-- What the jobs are like, and the replies, wherever the work is. -/
structure Sound (w : Workplace σ) (limit : Nat) (c : Chronicle σ) : Prop where
  /-- The jobs fit together, and to what was seen. -/
  orderly : (c.service w).Orderly limit c.accepted c.begun c.ended
  /-- A running job is not replaced or dropped, whatever happens next: it goes on unless its
      run ends. -/
  keeps : ∀ event, (c.service w).Keeps ((c.after w event).service w)
    ((c.after w event).ended.drop c.ended.length)
  /-- A load with a filter that is no pattern is refused for its filter. -/
  submit_invalid : ∀ path o reason, o.operation.getD .submit = .submit →
    Service.parseFilter o = .error reason →
      c.reply w path o = .ok reason ∧ reason ≠ Service.runningText path ∧
        reason ≠ Service.submittedText path ∧
        (c.after w (.load path o)).service w = c.service w
  /-- Any other load is refused just if the job of its path is running, and accepted
      otherwise. -/
  submit_valid : ∀ path o filter, o.operation.getD .submit = .submit →
    Service.parseFilter o = .ok filter →
      (c.reply w path o = .ok (Service.runningText path) ↔ (c.service w).isRunning path) ∧
        (c.reply w path o = .ok (Service.submittedText path) ↔ ¬ (c.service w).isRunning path) ∧
        ((c.service w).isRunning path → (c.after w (.load path o)).service w = c.service w)
  /-- A load can be told to stop just if its job is running. -/
  stop : ∀ path o, o.operation.getD .submit = .stop →
    (c.reply w path o = .ok (Service.stoppedText path) ↔ (c.service w).isRunning path) ∧
      (c.reply w path o = .ok (Service.notFoundText path) ↔ ¬ (c.service w).isRunning path) ∧
      ((c.service w).isRunning path → ∃ job,
        ((c.after w (.load path o)).service w).jobs.get? path = some job ∧ job.cancelled = true)
  /-- A job that was told to stop before it began goes on waiting, until its run ends as
      stopped and leaves all but the service as it is. -/
  waits_stopped : ∀ path, (c.service w).WaitsStopped path → ∀ events,
    ((c.run w events).service w).WaitsStopped path ∨
      ∃ before rest, events = before ++ .work :: rest ∧
        ((c.run w before).after w .work).ended = (c.run w before).ended ++ [(path, .stopped)] ∧
        ∃ service, ((c.run w before).after w .work).state =
          w.service.set service (c.run w before).state
  /-- If again and again the work gets on when no run is at work, all loads that were accepted
      come to their ends. -/
  all_end : ∀ next : Nat → Event σ,
    (∀ k, ∃ m, k ≤ m ∧ next m = .work ∧
      ((c.run w ((List.range m).map next)).service w).current = none) →
    ∃ k, c.accepted <+: (c.run w ((List.range k).map next)).ended.map (·.1)

variable {w : Workplace σ} {c : Chronicle σ} {limit : Nat}

/-- One event keeps the jobs orderly, and the running ones go on, unless their runs end. -/
theorem orderly_after (hw : w.Apart)
    (h : (c.service w).Orderly limit c.accepted c.begun c.ended) (event : Event σ) :
    ((c.after w event).service w).Orderly limit (c.after w event).accepted
        (c.after w event).begun (c.after w event).ended ∧
      (c.service w).Keeps ((c.after w event).service w)
        ((c.after w event).ended.drop c.ended.length) := by
  cases event with
  | load path o =>
    obtain ⟨horderly, hkeeps⟩ := h.load path o
    have hservice : (c.after w (.load path o)).service w =
        (Service.load path o (c.service w)).state := hw.service_within _ _
    rw [hservice]
    refine ⟨horderly, ?_⟩
    show (c.service w).Keeps _ (c.ended.drop c.ended.length)
    rwa [List.drop_length]
  | work =>
    obtain ⟨horderly, hkeeps⟩ := h.turn (hw.turn h.toConsistent)
    refine ⟨horderly, ?_⟩
    show (c.service w).Keeps _ ((c.ended ++ _).drop c.ended.length)
    rwa [List.drop_left]
  | world x =>
    have hservice : (c.after w (.world x)).service w = c.service w := hw.get_set _ _
    rw [hservice]
    exact ⟨h, Service.keeps_of_jobs_eq rfl _⟩

theorem orderly_run (hw : w.Apart)
    (h : (c.service w).Orderly limit c.accepted c.begun c.ended) (events : List (Event σ)) :
    ((c.run w events).service w).Orderly limit (c.run w events).accepted (c.run w events).begun
      (c.run w events).ended := by
  induction events generalizing c with
  | nil => exact h
  | cons event events ih => exact ih (orderly_after hw h event).1

/-! ### Requests -/

theorem service_load (hw : w.Apart) (c : Chronicle σ) (path : Bytes) (o : LoadOptions) :
    (c.after w (.load path o)).service w = (Service.load path o (c.service w)).state :=
  hw.service_within _ _

theorem reply_eq (c : Chronicle σ) (path : Bytes) (o : LoadOptions) :
    c.reply w path o = (Service.load path o (c.service w)).result := rfl

theorem submit_invalid (hw : w.Apart) (c : Chronicle σ) (path : Bytes) {o : LoadOptions}
    {reason : Bytes} (hop : o.operation.getD .submit = .submit)
    (hfilter : Service.parseFilter o = .error reason) :
    c.reply w path o = .ok reason ∧ reason ≠ Service.runningText path ∧
      reason ≠ Service.submittedText path ∧
      (c.after w (.load path o)).service w = c.service w := by
  obtain ⟨hsubmitted, hrunning⟩ := Service.ne_of_parseFilter hfilter path
  rw [service_load hw, reply_eq, Service.load_submit hop, Service.submit_of_invalid hfilter]
  exact ⟨rfl, hrunning, hsubmitted, rfl⟩

theorem submit_valid (hw : w.Apart) (c : Chronicle σ) (path : Bytes) {o : LoadOptions}
    {filter : Option Regex.Pattern} (hop : o.operation.getD .submit = .submit)
    (hfilter : Service.parseFilter o = .ok filter) :
    (c.reply w path o = .ok (Service.runningText path) ↔ (c.service w).isRunning path) ∧
      (c.reply w path o = .ok (Service.submittedText path) ↔ ¬ (c.service w).isRunning path) ∧
      ((c.service w).isRunning path → (c.after w (.load path o)).service w = c.service w) := by
  have hne := Service.submittedText_ne_runningText path
  rw [service_load hw, reply_eq, Service.load_submit hop]
  by_cases hrunning : (c.service w).isRunning path
  · rw [Service.submit_of_running hfilter hrunning]
    simp [hrunning, hne.symm]
  · rw [Service.submit_of_idle hfilter hrunning]
    simp [hrunning, hne]

theorem stop_reply (hw : w.Apart) (c : Chronicle σ) (path : Bytes) {o : LoadOptions}
    (hop : o.operation.getD .submit = .stop) :
    (c.reply w path o = .ok (Service.stoppedText path) ↔ (c.service w).isRunning path) ∧
      (c.reply w path o = .ok (Service.notFoundText path) ↔ ¬ (c.service w).isRunning path) ∧
      ((c.service w).isRunning path → ∃ job,
        ((c.after w (.load path o)).service w).jobs.get? path = some job ∧
          job.cancelled = true) := by
  have hne := Service.stoppedText_ne_notFoundText path
  rw [service_load hw, reply_eq, Service.load_stop hop]
  by_cases hrunning : (c.service w).isRunning path
  · obtain ⟨job, hjob, -⟩ := Service.stateOf_eq_some_iff.1 (Service.isRunning_iff.1 hrunning)
    rw [Service.stop_of_running hrunning]
    simp [hrunning, hne, Service.get?_change, hjob]
  · rw [Service.stop_of_idle hrunning]
    simp [hrunning, hne.symm]

/-! ### Jobs told to stop before they begin -/

theorem waitsStopped_after (hw : w.Apart)
    (h : (c.service w).Orderly limit c.accepted c.begun c.ended) {path : Bytes}
    (hwaits : (c.service w).WaitsStopped path) (event : Event σ) :
    ((c.after w event).service w).WaitsStopped path ∨ event = .work ∧
      (c.after w .work).ended = c.ended ++ [(path, .stopped)] ∧
      ∃ service, (c.after w .work).state = w.service.set service c.state := by
  cases event with
  | load path' o =>
    rw [service_load hw]
    exact .inl (hwaits.load h path' o)
  | work =>
    rcases hwaits.turn h (hw.turn h.toConsistent) with hwaits' | ⟨hcurrent, hended⟩
    · exact .inl hwaits'
    · exact .inr ⟨rfl, congrArg (c.ended ++ ·) hended, hw.step_of_current_none hcurrent⟩
  | world x =>
    have hservice : (c.after w (.world x)).service w = c.service w := hw.get_set _ _
    rw [hservice]
    exact .inl hwaits

theorem waitsStopped_run (hw : w.Apart)
    (h : (c.service w).Orderly limit c.accepted c.begun c.ended) {path : Bytes}
    (hwaits : (c.service w).WaitsStopped path) (events : List (Event σ)) :
    ((c.run w events).service w).WaitsStopped path ∨
      ∃ before rest, events = before ++ .work :: rest ∧
        ((c.run w before).after w .work).ended = (c.run w before).ended ++ [(path, .stopped)] ∧
        ∃ service, ((c.run w before).after w .work).state =
          w.service.set service (c.run w before).state := by
  induction events generalizing c with
  | nil => exact .inl hwaits
  | cons event events ih =>
    rcases waitsStopped_after hw h hwaits event with hwaits' | ⟨rfl, hended, hstate⟩
    · rcases ih (orderly_after hw h event).1 hwaits' with hwaits'' | ⟨before, rest, rfl, hstops⟩
      · exact .inl hwaits''
      · exact .inr ⟨event :: before, rest, rfl, hstops⟩
    · exact .inr ⟨[], events, rfl, hended, hstate⟩

/-! ### All runs come to an end -/

theorem run_range_succ (c : Chronicle σ) (next : Nat → Event σ) (k : Nat) :
    c.run w ((List.range (k + 1)).map next) =
      (c.run w ((List.range k).map next)).after w (next k) := by
  rw [List.range_succ, List.map_append, run, run, List.foldl_append]
  rfl

theorem prefix_after (c : Chronicle σ) (event : Event σ) :
    c.accepted <+: (c.after w event).accepted ∧ c.begun <+: (c.after w event).begun := by
  cases event with
  | load path o => exact ⟨List.prefix_append _ _, List.prefix_refl _⟩
  | work => exact ⟨List.prefix_refl _, List.prefix_append _ _⟩
  | world x => exact ⟨List.prefix_refl _, List.prefix_refl _⟩

theorem prefix_run_range (c : Chronicle σ) (next : Nat → Event σ) {k m : Nat} (hkm : k ≤ m) :
    (c.run w ((List.range k).map next)).accepted <+: (c.run w ((List.range m).map next)).accepted ∧
      (c.run w ((List.range k).map next)).begun <+: (c.run w ((List.range m).map next)).begun := by
  induction m, hkm using Nat.le_induction with
  | base => exact ⟨List.prefix_refl _, List.prefix_refl _⟩
  | succ m _ ih =>
    rw [run_range_succ]
    obtain ⟨haccepted, hbegun⟩ := prefix_after (w := w) (c.run w ((List.range m).map next)) (next m)
    exact ⟨ih.1.trans haccepted, ih.2.trans hbegun⟩

/-- If again and again the work gets on when no run is at work, as many runs begin as loads
    were accepted. -/
theorem exists_begun (hw : w.Apart)
    (h : (c.service w).Orderly limit c.accepted c.begun c.ended) (next : Nat → Event σ)
    (hfree : ∀ k, ∃ m, k ≤ m ∧ next m = .work ∧
      ((c.run w ((List.range m).map next)).service w).current = none)
    (n : Nat) (hn : n ≤ c.accepted.length) :
    ∃ k, n ≤ (c.run w ((List.range k).map next)).begun.length := by
  induction n with
  | zero => exact ⟨0, Nat.zero_le _⟩
  | succ n ih =>
    obtain ⟨k, hk⟩ := ih (Nat.le_of_succ_le hn)
    obtain ⟨m, hkm, hwork, hcurrent⟩ := hfree k
    set now := c.run w ((List.range m).map next) with hnow
    have horderly := orderly_run hw h ((List.range m).map next)
    have hbegun : n ≤ now.begun.length :=
      Nat.le_trans hk (prefix_run_range c next hkm).2.length_le
    have haccepted : c.accepted.length ≤ now.accepted.length :=
      (prefix_run_range c next (Nat.zero_le m)).1.length_le
    have hlength : now.accepted.length = now.begun.length + (now.service w).waiting.length := by
      rw [horderly.accepted_eq, List.length_append]
    by_cases hlt : n < now.begun.length
    · exact ⟨m, hlt⟩
    · -- One more load was accepted than began, so one waits, and the step begins it.
      have hwaiting : (now.service w).waiting ≠ [] := by
        rintro hnil
        rw [hnil, List.length_nil] at hlength
        omega
      obtain ⟨-, hnone⟩ | ⟨p, -, -, hbegins, -⟩ :=
        (hw.turn (x := now.state) horderly.toConsistent).begunIn_cases
      · exact absurd (hnone hcurrent) hwaiting
      · refine ⟨m + 1, ?_⟩
        have hnext : (now.after w .work).begun = now.begun ++ [p] :=
          congrArg (now.begun ++ ·) hbegins
        rw [run_range_succ, hwork, hnext, List.length_append, List.length_singleton]
        omega

/-- All loads that were accepted come to their ends. -/
theorem all_end (hw : w.Apart)
    (h : (c.service w).Orderly limit c.accepted c.begun c.ended) (next : Nat → Event σ)
    (hfree : ∀ k, ∃ m, k ≤ m ∧ next m = .work ∧
      ((c.run w ((List.range m).map next)).service w).current = none) :
    ∃ k, c.accepted <+: (c.run w ((List.range k).map next)).ended.map (·.1) := by
  obtain ⟨k, hk⟩ := exists_begun hw h next hfree _ (Nat.le_refl _)
  obtain ⟨m, hkm, -, hcurrent⟩ := hfree k
  have horderly := orderly_run hw h ((List.range m).map next)
  have haccepted := (prefix_run_range (w := w) c next (Nat.zero_le m)).1
  have hbegun := (prefix_run_range (w := w) c next hkm).2.length_le
  have hended := horderly.begun_eq
  rw [hcurrent, Option.map_none, Option.toList_none, List.append_nil] at hended
  refine ⟨m, ?_⟩
  rw [← hended]
  exact List.prefix_of_prefix_length_le haccepted ⟨_, horderly.accepted_eq.symm⟩
    (Nat.le_trans hk hbegun)

/-! ### Soundness -/

theorem sound_of_orderly (hw : w.Apart)
    (h : (c.service w).Orderly limit c.accepted c.begun c.ended) : c.Sound w limit where
  orderly := h
  keeps event := (orderly_after hw h event).2
  submit_invalid path _ _ hop hfilter := submit_invalid hw c path hop hfilter
  submit_valid path _ _ hop hfilter := submit_valid hw c path hop hfilter
  stop path _ hop := stop_reply hw c path hop
  waits_stopped _ hwaits events := waitsStopped_run hw h hwaits events
  all_end next hfree := all_end hw h next hfree

/-- Whatever happens around a service without any jobs, the jobs are orderly from then on,
    and requests are answered as the jobs stand. -/
theorem sound_run (hw : w.Apart) {x : σ} (limit : Nat) (hx : w.service.get x = { limit })
    (events : List (Event σ)) : (run w { state := x } events).Sound w limit := by
  refine sound_of_orderly hw (orderly_run hw ?_ events)
  rw [service, hx]
  exact Service.orderly_fresh limit

/-- The loads of a server that is installed are apart from its disk. -/
theorem apart_loadsOf (settings : Settings) (p : LocalPages) :
    (Worker.loadsOf settings p).Apart := apart_local _ p

/-- A load that is told to stop before it begins. -/
theorem sound_run_stopped :
    (Worker.loadsOf {} ⟨"/pages", 4⟩).Apart ∧
      Installation.servicePart.get {} = { limit := 128 } ∧
      (run (Worker.loadsOf {} ⟨"/pages", 4⟩) { state := {} }
        [.load "/a" {}, .load "/a" { operation := some .stop }, .work]).Sound
          (Worker.loadsOf {} ⟨"/pages", 4⟩) 128 :=
  ⟨apart_loadsOf {} ⟨"/pages", 4⟩, rfl,
    sound_run (apart_loadsOf {} ⟨"/pages", 4⟩) 128 rfl
      [.load "/a" {}, .load "/a" { operation := some .stop }, .work]⟩

example : (run (Worker.loadsOf {} ⟨"/pages", 4⟩) { state := {} }
    [.load "/a" {}, .load "/a" { operation := some .stop }, .work]).ended =
      [(ascii "/a", .stopped)] := by rfl

/-- A load of a path whose job is running is not always refused for that: its filter comes
    first. -/
theorem reply_unclosed_filter :
    ¬ ∀ (events : List (Event Installation)) (path : Bytes) (o : LoadOptions),
      o.operation.getD .submit = .submit →
        ((run (Worker.loadsOf {} ⟨"/pages", 4⟩) { state := {} } events).reply
            (Worker.loadsOf {} ⟨"/pages", 4⟩) path o = .ok (Service.runningText path) ↔
          ((run (Worker.loadsOf {} ⟨"/pages", 4⟩) { state := {} } events).service
            (Worker.loadsOf {} ⟨"/pages", 4⟩)).isRunning path) := by
  intro h
  have hreply := (h [.load "/a" {}] "/a" { filter := some "(" } rfl).2 rfl
  have hrefused : (run (Worker.loadsOf {} ⟨"/pages", 4⟩) { state := {} } [.load "/a" {}]).reply
      (Worker.loadsOf {} ⟨"/pages", 4⟩) "/a" { filter := some "(" } =
        .ok ("Invalid fileFilterRegx '(': Mismatched '(' and ')' in regular expression" : Bytes) := by
    rfl
  exact absurd (Except.ok.inj (hreply.symm.trans hrefused)) (by decide)

end Chronicle

end PageServer.Load
