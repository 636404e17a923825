import PageServer.Proofs.Load.Course

/-!
# What is said in a run

The calls that a run makes, and the replies to them, one after the other, are its *talk*
(`Chronicle.talk`). All that the run makes of its job is in it: the tally of the job is that
of the talk (`tallyAfter`), and as long as the job was not told to stop, nothing in the talk
says so (`Chronicle.follows_talk`).

Loading files is told from listing them by the calls that are made: loading counts files as
processed, skipped or failed, writes pages under the ids of the files alone, and lists
nothing (`Job.loadEach_only`).
-/

namespace PageServer.Load

/-! ### Talks -/

/-- The run looks at its own job or changes it, or it makes a record. -/
def Call.isOwn : Call → Bool
  | .isStopped | .update _ | .warn _ => true
  | _ => false

namespace Exchange

/-- What the exchange makes of a tally. -/
def count (x : Exchange) (t : Tally) : Tally :=
  match x.call with
  | .update f => f t
  | _ => t

/-- The reply does not let the run go on. -/
def saysStop : Exchange → Prop
  | ⟨.isStopped, r⟩ => r ≠ .ok false
  | _ => False

/-- The path that is listed, if one is. -/
def listed? (x : Exchange) : Option Bytes :=
  match x.call with
  | .list path => some path
  | _ => none

/-- The exchange asks for a page to be written. -/
def isWrite (x : Exchange) : Bool :=
  match x.call with
  | .writePage _ _ _ => true
  | _ => false

/-- The call is replied to, or it fails as those of files and pages do. -/
structure Sound (x : Exchange) : Prop where
  own : x.call.isOwn → ∀ e, x.reply ≠ .error e
  isOfFile : ∀ e, x.reply = .error e → Job.isOfFile e
  isFileSystem : x.isWrite = false → ∀ e, x.reply = .error e → e.isFileSystem

end Exchange

/-- The tally after a talk. -/
def tallyAfter (t : Tally) (talk : List Exchange) : Tally := talk.foldl (fun t x => x.count t) t

/-- The paths that are listed in a talk. -/
def listedIn (talk : List Exchange) : List Bytes := talk.filterMap Exchange.listed?

/-- An exchange of this kind is added to the talk. -/
def Added (answers : Exchange → Prop) (x : Exchange) (talk talk' : List Exchange) : Prop :=
  answers x ∧ talk' = talk ++ [x]

/-- Nothing in the talk says that the run is to stop. -/
def Calm (talk : List Exchange) : Prop := ∀ x ∈ talk, ¬ x.saysStop

@[simp]
theorem tallyAfter_snoc (t : Tally) (talk : List Exchange) (x : Exchange) :
    tallyAfter t (talk ++ [x]) = x.count (tallyAfter t talk) := by
  rw [tallyAfter, List.foldl_append]
  rfl

theorem listedIn_append (talk more : List Exchange) :
    listedIn (talk ++ more) = listedIn talk ++ listedIn more := List.filterMap_append

theorem listedIn_snoc_list (talk : List Exchange) (p : Bytes)
    (r : Except Failure (List FileStatus)) :
    listedIn (talk ++ [⟨.list p, r⟩]) = listedIn talk ++ [p] := listedIn_append _ _

/-- The other calls list nothing. -/
theorem listedIn_snoc_of_ne (talk : List Exchange) {x : Exchange} (hx : ∀ p, x.call ≠ .list p) :
    listedIn (talk ++ [x]) = listedIn talk := by
  obtain ⟨call, r⟩ := x
  rw [listedIn_append]
  cases call with
  | list p => exact absurd rfl (hx p)
  | _ => exact List.append_nil _

theorem calm_nil : Calm [] := List.forall_mem_nil _

namespace Program

variable {α : Type} {answers : Exchange → Prop} {P : Call → Prop} {J : List Exchange → Prop}
  {Q : Except Failure α → List Exchange → Prop} {talk : List Exchange}

/-- A program goes on with the reply to its first call, which is added to the talk. -/
theorem keeps_added {c : Call} {f : c.Reply → Program α}
    (hJ : ∀ r, answers ⟨c, r⟩ → J (talk ++ [⟨c, r⟩]))
    (hfail : ∀ e, answers ⟨c, .error e⟩ → Q (.error e) (talk ++ [⟨c, .error e⟩]))
    (hf : ∀ v, answers ⟨c, .ok v⟩ → (f v).Keeps (Added answers) J (talk ++ [⟨c, .ok v⟩]) Q) :
    (ofCall c >>= f).Keeps (Added answers) J talk Q := by
  refine keeps_bind (keeps_call ?_)
  rintro (e | v) _ ⟨hx, rfl⟩
  · exact ⟨hJ _ hx, hfail e hx⟩
  · exact ⟨hJ _ hx, hf v hx⟩

/-- What the calls of a program keep of a talk holds throughout. -/
theorem Only.keeps_added {p : Program α} (h : p.Only P) (answers : Exchange → Prop)
    (hJ : ∀ x talk, P x.call → J talk → J (talk ++ [x])) (htalk : J talk) :
    p.Keeps (Added answers) J talk fun _ => J := by
  refine h.keeps ?_ htalk
  rintro x talk _ hx ⟨-, rfl⟩
  exact hJ x talk hx

end Program

/-! ### The talk of a run -/

namespace Workplace

variable {σ : Type} {w : Workplace σ}

/-- The calls change nothing of the service but the tally of the job. -/
theorem Apart.service_perform (hw : w.Apart) (path : Bytes) (call : Call) (x : σ) :
    w.service.get (w.perform path call x).state =
      match call with
      | .update f => (w.service.get x).change path fun job => { job with tally := f job.tally }
      | _ => w.service.get x := by
  cases call with
  | status p => exact hw.files.status p x
  | list p => exact hw.files.list p x
  | openFile p => exact hw.files.openFile p x
  | read file position length => exact hw.files.read file position length x
  | isCached id index =>
    exact Act.leaves_bind (hw.pages.locate id index) (fun _ => Act.leaves_pure _) x
  | writePage id index data => exact hw.pages.write id index data x
  | isStopped => exact hw.get_set _ x
  | update f => exact hw.get_set _ x
  | warn message => rfl

/-- The job itself is always there to be asked. -/
theorem perform_isOwn (w : Workplace σ) (path : Bytes) {call : Call} (h : call.isOwn) (x : σ)
    (e : Failure) : (w.perform path call x).result ≠ .error e := by
  cases call with
  | isStopped => exact nofun
  | update f => exact nofun
  | warn message => exact nofun
  | _ => cases h

end Workplace

namespace Service

variable {s : Service} {path p : Bytes} {o : LoadOptions} {job : Job}

/-- A request leaves the tally of a running job as it is. -/
theorem tally_load (hjob : s.jobs.get? p = some job) (hrunning : job.state = .running)
    (path : Bytes) (o : LoadOptions) :
    ∃ job', (load path o s).state.jobs.get? p = some job' ∧ Continues job job' ∧
      job'.tally = job.tally := by
  rcases load_cases path o s with h | ⟨filter, hidle, h⟩ | ⟨-, h⟩
  · rw [h]
    exact ⟨job, hjob, .refl job, rfl⟩
  · have hne : p ≠ path := by
      rintro rfl
      exact hidle (isRunning_iff.2 (stateOf_eq_some_iff.2 ⟨job, hjob, hrunning⟩))
    rw [h, get?_enter, if_neg hne]
    exact ⟨job, hjob, .refl job, rfl⟩
  · rw [h, get?_change]
    by_cases hp : p = path
    · rw [if_pos hp, ← hp, hjob]
      exact ⟨_, rfl, continues_cancel job, rfl⟩
    · rw [if_neg hp]
      exact ⟨job, hjob, .refl job, rfl⟩

end Service

namespace Chronicle

variable {σ : Type} {w : Workplace σ} {c : Chronicle σ} {next : Nat → Event σ} {job : Job}
  {limit : Nat}

/-- What the run of a path says in an event. -/
def saidIn (w : Workplace σ) (c : Chronicle σ) (path : Bytes) : Event σ → List Exchange
  | .work =>
    match (c.service w).current with
    | some ⟨p, .call call _⟩ =>
      if p = path then [⟨call, (w.perform path call c.state).result⟩] else []
    | _ => []
  | _ => []

/-- What was said in the runs of a path in so many of the events to come. -/
def talk (w : Workplace σ) (c : Chronicle σ) (next : Nat → Event σ) (path : Bytes) :
    Nat → List Exchange
  | 0 => []
  | k + 1 => talk w c next path k ++ (c.upTo w next k).saidIn w path (next k)

theorem saidIn_of_ne_work {event : Event σ} (hne : event ≠ .work) (path : Bytes) :
    c.saidIn w path event = [] := by
  cases event with
  | work => exact absurd rfl hne
  | load p o => rfl
  | world x => rfl

theorem saidIn_of_call {call : Call} {follow : Except Failure call.Reply → Program Next}
    (h : c.Doing w job (.call call follow)) :
    c.saidIn w job.path .work = [⟨call, (w.perform job.path call c.state).result⟩] := by
  rw [saidIn, h.current_eq]
  exact if_pos rfl

theorem saidIn_of_done {result : Except Failure Next} (h : c.Doing w job (.done result)) :
    c.saidIn w job.path .work = [] := by
  rw [saidIn, h.current_eq]

/-- The talk of the run of a job, and what has become of the job by it. -/
structure Heard (w : Workplace σ) (c : Chronicle σ) (job : Job) (talk : List Exchange) : Prop where
  exists_job : ∃ job', (c.service w).jobs.get? job.path = some job' ∧ Service.Continues job job' ∧
    job'.tally = tallyAfter job.tally talk ∧ (job'.cancelled = false → Calm talk)

/-- What happens around the run says nothing in it. -/
theorem Heard.event (hw : w.Apart)
    (ho : (c.service w).Orderly limit c.accepted c.begun c.ended) {program : Program Next}
    (hdoing : c.Doing w job program) {talk : List Exchange} (h : c.Heard w job talk)
    {event : Event σ} (hne : event ≠ .work) : (c.after w event).Heard w job talk := by
  obtain ⟨job₀, hjob₀, hcontinues, htally, hcalm⟩ := h.exists_job
  obtain ⟨job₁, hjob₁, -, hrunning⟩ := ho.get?_current hdoing.current_eq
  obtain rfl := Option.some.inj (hjob₀.symm.trans hjob₁)
  cases event with
  | work => exact absurd rfl hne
  | load path o =>
    obtain ⟨job', hjob', hcontinues', htally'⟩ := Service.tally_load hjob₀ hrunning path o
    refine ⟨job', ?_, hcontinues.trans hcontinues', htally'.trans htally, fun hgo => hcalm ?_⟩
    · rw [service_load hw, hjob']
    · exact eq_false_of_ne_true fun hstop => absurd (hcontinues'.cancelled hstop) (by simp [hgo])
  | world x =>
    have hservice : (c.after w (.world x)).service w = c.service w := hw.get_set _ _
    exact ⟨job₀, by rw [hservice, hjob₀], hcontinues, htally, hcalm⟩

/-- How far the work is does not matter to what was heard. -/
theorem Heard.withCurrent (hw : w.Apart) {talk : List Exchange} {c' : Chronicle σ} {x : σ}
    {work : Option AtWork} (hstate : c'.state = w.withCurrent work x)
    (h : ∃ job', (w.service.get x).jobs.get? job.path = some job' ∧ Service.Continues job job' ∧
      job'.tally = tallyAfter job.tally talk ∧ (job'.cancelled = false → Calm talk)) :
    c'.Heard w job talk := by
  refine ⟨?_⟩
  rw [service, hstate, hw.service_withCurrent]
  exact h

/-- A call adds to the talk. -/
theorem Heard.call (hw : w.Apart)
    (ho : (c.service w).Orderly limit c.accepted c.begun c.ended) {call : Call}
    {follow : Except Failure call.Reply → Program Next}
    (hdoing : c.Doing w job (.call call follow)) {talk : List Exchange} (h : c.Heard w job talk) :
    (c.after w .work).Heard w job
      (talk ++ [⟨call, (w.perform job.path call c.state).result⟩]) := by
  obtain ⟨job', hjob', hcontinues, htally, hcalm⟩ := h.exists_job
  refine .withCurrent hw (hdoing.call hw ho).1 ?_
  have hservice := hw.service_perform job.path call c.state
  -- What is said is calm as long as it does not tell to stop.
  have hsnoc : ∀ {x : Exchange}, ¬ x.saysStop → Calm talk → Calm (talk ++ [x]) := fun hx h =>
    List.forall_mem_append.2 ⟨h, List.forall_mem_singleton.2 hx⟩
  rw [tallyAfter_snoc]
  cases call with
  | update f =>
    rw [hservice]
    dsimp only
    rw [Service.get?_change, if_pos rfl, ← service, hjob']
    have hcontinues' : Service.Continues job { job' with tally := f job'.tally } :=
      ⟨hcontinues.path_eq, hcontinues.options_eq, hcontinues.filter_eq, hcontinues.state_eq,
        hcontinues.cancelled⟩
    exact ⟨_, rfl, hcontinues', congrArg f htally, fun hgo => hsnoc id (hcalm hgo)⟩
  | isStopped =>
    rw [hservice]
    refine ⟨job', hjob', hcontinues, htally, fun hgo => hsnoc (not_not.2 ?_) (hcalm hgo)⟩
    show Except.ok ((((c.service w).jobs.get? job.path).map (·.cancelled)).getD true) = _
    rw [hjob', Option.map_some, Option.getD_some, hgo]
  | _ =>
    rw [hservice]
    exact ⟨job', hjob', hcontinues, htally, fun hgo => hsnoc id (hcalm hgo)⟩

/-- The run of the job has just begun. -/
structure Begun (w : Workplace σ) (c : Chronicle σ) (job : Job) : Prop where
  current_eq : (c.service w).current = some ⟨job.path, job.begin w.pages.pageSize⟩
  job_eq : (c.service w).jobs.get? job.path = some job

theorem Begun.doing (h : c.Begun w job) : c.Doing w job (job.begin w.pages.pageSize) :=
  ⟨h.current_eq, job, h.job_eq, .refl job⟩

theorem Begun.heard (h : c.Begun w job) : c.Heard w job [] :=
  ⟨job, h.job_eq, .refl job, rfl, fun _ => calm_nil⟩

/-- What is known of a run is what was said in it, if all replies are answers of this kind. -/
theorem follows_talk (hw : w.Apart)
    (ho : (c.service w).Orderly limit c.accepted c.begun c.ended) {answers : Exchange → Prop}
    (hanswers : ∀ k call follow, next k = .work →
      (c.upTo w next k).Doing w job (.call call follow) →
        answers ⟨call, (w.perform job.path call (c.upTo w next k).state).result⟩) :
    c.Follows w next job (Added answers)
      fun k talk => talk = c.talk w next job.path k ∧ (c.upTo w next k).Heard w job talk where
  event k talk program hne hdoing := by
    rintro ⟨rfl, hheard⟩
    rw [upTo_succ]
    refine ⟨?_, hheard.event hw (orderly_upTo hw ho next k) hdoing hne⟩
    rw [Chronicle.talk, saidIn_of_ne_work hne, List.append_nil]
  call k talk call follow hwork hdoing := by
    rintro ⟨rfl, hheard⟩
    refine ⟨_, ⟨hanswers k call follow hwork hdoing, rfl⟩, ?_, ?_⟩
    · rw [Chronicle.talk, hwork, saidIn_of_call hdoing]
    · rw [upTo_succ, hwork]
      exact hheard.call hw (orderly_upTo hw ho next k) hdoing
  round k talk walk hwork hdoing := by
    rintro ⟨rfl, hheard⟩
    refine ⟨?_, ?_⟩
    · rw [Chronicle.talk, hwork, saidIn_of_done hdoing, List.append_nil]
    · rw [upTo_succ, hwork]
      exact .withCurrent hw (hdoing.round hw (orderly_upTo hw ho next k)).1 hheard.exists_job

/-! ### Runs that are not told to stop -/

/-- Nobody tells the load of the path to stop. -/
def Unstopped (next : Nat → Event σ) (path : Bytes) : Prop :=
  ∀ k o, next k = .load path o → o.operation.getD .submit ≠ .stop

/-- Nothing has become of the job but its tally. -/
def Told (w : Workplace σ) (c : Chronicle σ) (job : Job) (t : Tally) : Prop :=
  (c.service w).jobs.get? job.path = some { job with tally := t }

theorem Told.event (hw : w.Apart)
    (ho : (c.service w).Orderly limit c.accepted c.begun c.ended) {program : Program Next}
    (hdoing : c.Doing w job program) {t : Tally} (h : c.Told w job t) {event : Event σ}
    (hne : event ≠ .work)
    (hstop : ∀ o, event = .load job.path o → o.operation.getD .submit ≠ .stop) :
    (c.after w event).Told w job t := by
  obtain ⟨job', hjob', -, hrunning⟩ := ho.get?_current hdoing.current_eq
  obtain rfl := Option.some.inj (h.symm.trans hjob')
  cases event with
  | work => exact absurd rfl hne
  | load path o =>
    rw [Told, service_load hw]
    refine Service.get?_load h hrunning ?_
    rintro rfl
    exact hstop o rfl
  | world x =>
    have hservice : (c.after w (.world x)).service w = c.service w := hw.get_set _ _
    rw [Told, hservice]
    exact h

theorem Told.withCurrent (hw : w.Apart) {t : Tally} {c' : Chronicle σ} {x : σ}
    {work : Option AtWork} (hstate : c'.state = w.withCurrent work x)
    (h : (w.service.get x).jobs.get? job.path = some { job with tally := t }) :
    c'.Told w job t := by
  rw [Told, service, hstate, hw.service_withCurrent]
  exact h

theorem Told.call (hw : w.Apart)
    (ho : (c.service w).Orderly limit c.accepted c.begun c.ended) {call : Call}
    {follow : Except Failure call.Reply → Program Next}
    (hdoing : c.Doing w job (.call call follow)) {t : Tally} (h : c.Told w job t) :
    (c.after w .work).Told w job
      (Exchange.count ⟨call, (w.perform job.path call c.state).result⟩ t) := by
  refine .withCurrent hw (hdoing.call hw ho).1 ?_
  rw [hw.service_perform]
  cases call with
  | update f =>
    dsimp only
    rw [Service.get?_change, if_pos rfl, ← service, h]
    rfl
  | _ => exact h

/-- Whether the run is told to stop is what the job says. -/
theorem Told.isStopped {t : Tally} (h : c.Told w job t) :
    (w.perform job.path .isStopped c.state).result = .ok job.cancelled := by
  show Except.ok ((((c.service w).jobs.get? job.path).map (·.cancelled)).getD true) = _
  rw [h]
  rfl

/-- What is known of a run that is not told to stop is what was said in it. -/
theorem follows_told (hw : w.Apart)
    (ho : (c.service w).Orderly limit c.accepted c.begun c.ended)
    (hstop : Unstopped next job.path) {answers : Exchange → Prop}
    (hanswers : ∀ k call follow t, next k = .work →
      (c.upTo w next k).Doing w job (.call call follow) → (c.upTo w next k).Told w job t →
        answers ⟨call, (w.perform job.path call (c.upTo w next k).state).result⟩) :
    c.Follows w next job (Added answers) fun k talk =>
      talk = c.talk w next job.path k ∧
        (c.upTo w next k).Told w job (tallyAfter job.tally talk) where
  event k talk program hne hdoing := by
    rintro ⟨rfl, htold⟩
    rw [upTo_succ, Chronicle.talk, saidIn_of_ne_work hne, List.append_nil]
    exact ⟨rfl, htold.event hw (orderly_upTo hw ho next k) hdoing hne (hstop k)⟩
  call k talk call follow hwork hdoing := by
    rintro ⟨rfl, htold⟩
    refine ⟨_, ⟨hanswers k call follow _ hwork hdoing htold, rfl⟩, ?_, ?_⟩
    · rw [Chronicle.talk, hwork, saidIn_of_call hdoing]
    · rw [upTo_succ, hwork, tallyAfter_snoc]
      exact htold.call hw (orderly_upTo hw ho next k) hdoing
  round k talk walk hwork hdoing := by
    rintro ⟨rfl, htold⟩
    refine ⟨?_, ?_⟩
    · rw [Chronicle.talk, hwork, saidIn_of_done hdoing, List.append_nil]
    · rw [upTo_succ, hwork]
      exact .withCurrent hw (hdoing.round hw (orderly_upTo hw ho next k)).1 htold

end Chronicle

/-! ### Loading is not listing -/

/-- The change counts files as processed, skipped or failed, but adds none to their total. -/
structure Counts (f : Tally → Tally) : Prop where
  filesTotal : ∀ t n, f { t with filesTotal := n } = { f t with filesTotal := n }
  failures : ∀ t, t.failures <+: (f t).failures

theorem Counts.filesTotal_eq {f : Tally → Tally} (h : Counts f) (t : Tally) :
    (f t).filesTotal = t.filesTotal := by
  have htotal := congrArg Tally.filesTotal (h.filesTotal t t.filesTotal)
  exact htotal

/-- The calls that are made to load files with such ids. -/
def Call.Loads (ids : List Bytes) : Call → Prop
  | .list _ => False
  | .writePage id _ _ => id ∈ ids
  | .update f => Counts f
  | _ => True

/-- Failures that were noted stay. -/
theorem Call.Loads.failures_kept {x : Exchange} {ids : List Bytes} (h : x.call.Loads ids)
    (t : Tally) : t.failures <+: (x.count t).failures := by
  obtain ⟨call, r⟩ := x
  cases call with
  | update f => exact h.failures t
  | _ => exact List.prefix_refl _

namespace Job

open Program

variable {ids : List Bytes} {file : FileStatus}

theorem noteFailure_only (path reason : Bytes) : (noteFailure path reason).Only (Call.Loads ids) :=
  only_bind (only_call trivial) fun _ =>
    only_call ⟨fun _ _ => rfl, fun _ => List.prefix_append _ _⟩

theorem loadPages_only (pageSize : Int) (hfile : fileId file.backing ∈ ids) (source : OpenFile)
    (n : Nat) (index loaded : Int) :
    (loadPages pageSize file source n index loaded).Only (Call.Loads ids) := by
  induction n generalizing index loaded with
  | zero => exact only_pure _
  | succ n ih =>
    rw [loadPages]
    refine only_bind (only_call trivial) fun stopped => ?_
    split
    · exact only_pure _
    refine only_bind (only_call trivial) fun data? => ?_
    split
    · exact only_pure _
    refine only_bind (only_call hfile) fun written => ?_
    split
    · exact only_bind (only_call ⟨fun _ _ => rfl, fun _ => List.prefix_refl _⟩) fun _ => ih _ _
    · exact only_bind (noteFailure_only _ _) fun _ => only_pure _

theorem verifyFile_only (file : FileStatus) (loaded : Int) :
    (verifyFile file loaded).Only (Call.Loads ids) := by
  rw [verifyFile]
  refine only_bind (only_call trivial) fun after => ?_
  split
  · exact noteFailure_only _ _
  · exact only_pure _

theorem copyFile_only (o : LoadOptions) (pageSize : Int) (hfile : fileId file.backing ∈ ids) :
    (copyFile o pageSize file).Only (Call.Loads ids) := by
  rw [copyFile]
  refine only_bind (only_call trivial) fun source => ?_
  dsimp only
  split
  · rw [fail_bind]
    exact only_fail _
  refine only_bind (loadPages_only pageSize hfile source _ _ _) fun loaded? => ?_
  split
  · exact only_pure _
  split
  · exact verifyFile_only _ _
  · exact only_pure _

theorem loadFile_only (o : LoadOptions) (pageSize : Int) (hfile : fileId file.backing ∈ ids) :
    (loadFile o pageSize file).Only (Call.Loads ids) := by
  rw [loadFile]
  split
  · exact only_pure _
  split
  · refine only_bind (only_call trivial) fun cached => ?_
    split
    · exact only_call ⟨fun _ _ => rfl, fun _ => List.prefix_refl _⟩
    · exact copyFile_only o pageSize hfile
  · exact copyFile_only o pageSize hfile

/-- Files are loaded with such calls only. -/
theorem loadEach_only (o : LoadOptions) (pageSize : Int) {files : List FileStatus}
    (hfiles : ∀ file ∈ files, fileId file.backing ∈ ids) :
    (loadEach o pageSize files).Only (Call.Loads ids) := by
  induction files with
  | nil => exact only_pure _
  | cons file rest ih =>
    rw [loadEach]
    refine only_bind (only_call trivial) fun stopped => ?_
    split
    · exact only_pure _
    have hfile := loadFile_only o pageSize (hfiles file List.mem_cons_self)
    refine only_bind (only_recover hfile ?_) ?_
    · intro e
      split
      · exact noteFailure_only _ _
      · exact only_fail _
    · exact fun _ => only_bind (only_call ⟨fun _ _ => rfl, fun _ => List.prefix_refl _⟩) fun _ =>
        ih fun other hother => hfiles other (List.mem_cons_of_mem _ hother)

/-- When a file is counted as processed, the others are loaded with such calls. -/
theorem others_only (o : LoadOptions) (pageSize : Int) (files : List FileStatus) :
    (do
      ofCall (.update fun t => { t with filesProcessed := t.filesProcessed + 1 })
      loadEach o pageSize files : Program Unit).Only
        (Call.Loads (files.map (fileId ·.backing))) :=
  only_bind (only_call ⟨fun _ _ => rfl, fun _ => List.prefix_refl _⟩) fun _ =>
    loadEach_only o pageSize fun _ hfile => List.mem_map_of_mem hfile

/-! ### How loading fails -/

variable {answers : Exchange → Prop}

theorem isOfFile_of_isFileSystem {e : Failure} (h : e.isFileSystem) : isOfFile e := by
  unfold isOfFile
  rw [h, Bool.true_or]

theorem fails_own (hsound : ∀ x, answers x → x.Sound) {c : Call} (hown : c.isOwn)
    (E : Failure → Prop) : (ofCall c).Fails answers E :=
  fails_call fun e he => absurd rfl ((hsound _ he).own hown e)

theorem noteFailure_fails (hsound : ∀ x, answers x → x.Sound) (path reason : Bytes)
    (E : Failure → Prop) : (noteFailure path reason).Fails answers E :=
  fails_bind (fails_own hsound rfl E) fun _ => fails_own hsound rfl E

/-- Copying the pages of a file fails as files and pages do. -/
theorem loadPages_fails (hsound : ∀ x, answers x → x.Sound) (pageSize : Int) (file : FileStatus)
    (source : OpenFile) (n : Nat) (index loaded : Int) :
    (loadPages pageSize file source n index loaded).Fails answers fun e => isOfFile e := by
  have hcall : ∀ c, (ofCall c).Fails answers fun e => isOfFile e := fun c =>
    fails_call fun e he => (hsound _ he).isOfFile e rfl
  induction n generalizing index loaded with
  | zero => exact fails_pure _
  | succ n ih =>
    rw [loadPages]
    refine fails_bind (hcall _) fun stopped => ?_
    split
    · exact fails_pure _
    refine fails_bind (hcall _) fun data? => ?_
    split
    · exact fails_pure _
    refine fails_bind (hcall _) fun written => ?_
    split
    · exact fails_bind (hcall _) fun _ => ih _ _
    · exact fails_bind (noteFailure_fails hsound _ _ _) fun _ => fails_pure _

/-- Pages can be of this size in memory. -/
def CanHold (pageSize : Int) : Prop := 0 ≤ pageSize ∧ pageSize ≤ maxPage

/-- The failure is that of a page that cannot be held. Nobody expects it. -/
def IsTooLong (pageSize : Int) (e : Failure) : Prop :=
  ¬ CanHold pageSize ∧ ∃ reason, e = .logic reason

theorem copyFile_fails (hsound : ∀ x, answers x → x.Sound) (o : LoadOptions) (pageSize : Int)
    (file : FileStatus) :
    (copyFile o pageSize file).Fails answers fun e => isOfFile e ∨ IsTooLong pageSize e := by
  rw [copyFile]
  refine fails_bind (fails_call fun e he => .inl ((hsound _ he).isOfFile e rfl)) fun source => ?_
  dsimp only
  split
  · next hsize =>
    rw [fail_bind]
    refine fails_fail (.inr ⟨fun hcan => ?_, _, rfl⟩)
    rcases hsize with hsize | hsize
    · exact absurd hcan.1 (Int.not_le.2 hsize)
    · exact absurd hcan.2 (Int.not_le.2 hsize)
  refine fails_bind ((loadPages_fails hsound pageSize file source _ _ _).mono fun _ => .inl)
    fun loaded? => ?_
  split
  · exact fails_pure _
  split
  · rw [verifyFile]
    refine fails_bind (fails_call fun e he => .inl ((hsound _ he).isOfFile e rfl)) fun after => ?_
    split
    · exact noteFailure_fails hsound _ _ _
    · exact fails_pure _
  · exact fails_pure _

theorem loadFile_fails (hsound : ∀ x, answers x → x.Sound) (o : LoadOptions) (pageSize : Int)
    (file : FileStatus) :
    (loadFile o pageSize file).Fails answers fun e => isOfFile e ∨ IsTooLong pageSize e := by
  rw [loadFile]
  split
  · exact fails_pure _
  split
  · refine fails_bind (fails_call fun e he => .inl ((hsound _ he).isOfFile e rfl)) fun cached => ?_
    split
    · exact fails_own hsound rfl _
    · exact copyFile_fails hsound o pageSize file
  · exact copyFile_fails hsound o pageSize file

/-- What goes wrong with a file is noted, so that the load goes on with the others. -/
theorem loadEach_fails (hsound : ∀ x, answers x → x.Sound) (o : LoadOptions) (pageSize : Int)
    (files : List FileStatus) :
    (loadEach o pageSize files).Fails answers (IsTooLong pageSize) := by
  induction files with
  | nil => exact fails_pure _
  | cons file rest ih =>
    rw [loadEach]
    refine fails_bind (fails_own hsound rfl _) fun stopped => ?_
    split
    · exact fails_pure _
    refine fails_bind (fails_recover (loadFile_fails hsound o pageSize file) fun e he => ?_) ?_
    · split
      · exact noteFailure_fails hsound _ _ _
      · next hnot => exact fails_fail (he.resolve_left hnot)
    · exact fun _ => fails_bind (fails_own hsound rfl _) fun _ => ih

theorem loadFiles_fails (hsound : ∀ x, answers x → x.Sound) (o : LoadOptions) (pageSize : Int)
    (files : List FileStatus) :
    (loadFiles o pageSize files).Fails answers (IsTooLong pageSize) :=
  fails_bind (fails_own hsound rfl _) fun _ => loadEach_fails hsound o pageSize files

end Job

end PageServer.Load
