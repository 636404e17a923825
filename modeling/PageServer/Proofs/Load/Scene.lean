import PageServer.Proofs.Load.TreeSurvey

/-!
# Runs on their own

A run of local files and pages that is not told to stop, and has the disk to itself, is known by
the disk, the tally of its job, and the pages that it writes: its *scene*. Nothing but its own
calls changes the scene, and the replies to them depend on nothing else
(`Chronicle.follows_scene`). So a program that is at work comes to what it comes to when it is
run in one go (`Scene.keeps_comesTo`).
-/

namespace PageServer.Load

/-! ### Programs run in one go -/

namespace Program

variable {σ α β : Type} {perform : (c : Call) → Act σ c.Reply}

/-- What a program comes to when its calls are made one after the other. -/
def comesTo (perform : (c : Call) → Act σ c.Reply) (prog : Program α) (s : σ) :
    Except Failure α × σ := ((prog.run perform s).result, (prog.run perform s).state)

@[simp]
theorem comesTo_ofCall (c : Call) (s : σ) :
    (ofCall c).comesTo perform s = ((perform c s).result, (perform c s).state) := rfl

theorem comesTo_call (c : Call) (follow : Except Failure c.Reply → Program α) (s : σ) :
    (call c follow).comesTo perform s =
      (follow (perform c s).result).comesTo perform (perform c s).state := rfl

theorem comesTo_bind (prog : Program β) (g : β → Program α) (s : σ) :
    (prog >>= g).comesTo perform s =
      match prog.comesTo perform s with
      | (.ok v, s') => (g v).comesTo perform s'
      | (.error e, s') => (.error e, s') := by
  show (prog.andThen g).comesTo perform s = _
  induction prog generalizing s with
  | done r => cases r <;> rfl
  | call c follow ih => exact ih _ _

end Program

/-! ### Scenes -/

/-- The page that the call asks to be written, if it does. -/
def Call.write? : Call → Option (Bytes × Int × Bytes)
  | .writePage id index data => some (id, index, data)
  | _ => none

/-- The call neither writes a page nor changes the tally. -/
def Call.isQuiet : Call → Bool
  | .writePage _ _ _ | .update _ => false
  | _ => true

/-- The pages that are written in a talk. -/
def writesIn (talk : List Exchange) : List (Bytes × Int × Bytes) := talk.filterMap (·.call.write?)

theorem writesIn_snoc (talk : List Exchange) (x : Exchange) :
    writesIn (talk ++ [x]) = writesIn talk ++ x.call.write?.toList := by
  rw [writesIn, List.filterMap_append, ← writesIn]
  cases h : x.call.write? <;> simp [h]

/-- What a run works on: the disk, the tally of its job, and the pages written so far. -/
structure Scene where
  disk : Disk
  tally : Tally := {}
  writes : List (Bytes × Int × Bytes) := []

namespace Scene

variable {f : LocalFiles} {p : LocalPages} {α : Type} {s : Scene}

/-- The reply to a call of a run that is not told to stop. -/
def reply (f : LocalFiles) (p : LocalPages) : (c : Call) → Scene → Except Failure c.Reply
  | .isStopped, _ => .ok false
  | c, s => ((Workplace.ofDisk f p).perform [] c { disk := s.disk }).result

/-- The scene after a call. -/
def after (f : LocalFiles) (p : LocalPages) (c : Call) (s : Scene) : Scene where
  disk := ((Workplace.ofDisk f p).perform [] c { disk := s.disk }).state.disk
  tally := Exchange.count ⟨c, s.reply f p c⟩ s.tally
  writes := s.writes ++ c.write?.toList

/-- Makes a call. -/
def perform (f : LocalFiles) (p : LocalPages) (c : Call) : Act Scene c.Reply := fun s =>
  ⟨reply f p c s, s.after f p c, []⟩

/-- The scene moves as the run makes its calls. -/
def Moves (f : LocalFiles) (p : LocalPages) (x : Exchange) (s s' : Scene) : Prop :=
  x.reply = reply f p x.call s ∧ s' = s.after f p x.call

/-- A program at work comes to what it comes to in one go. -/
theorem keeps_comesTo (f : LocalFiles) (p : LocalPages) (prog : Program α) (s : Scene) :
    prog.Keeps (Moves f p) (fun _ => True) s
      fun r s' => prog.comesTo (perform f p) s = (r, s') := by
  induction prog generalizing s with
  | done r => exact rfl
  | call c follow ih =>
    rintro r s' ⟨hr, rfl⟩
    obtain rfl : r = reply f p c s := hr
    exact ⟨trivial, ih _ _⟩

/-- What a judgement says of the end holds of what a program comes to. -/
theorem of_keeps {prog : Program α} {J : Scene → Prop} {Q : Except Failure α → Scene → Prop}
    (h : prog.Keeps (Moves f p) J s Q) :
    Q (prog.comesTo (perform f p) s).1 (prog.comesTo (perform f p) s).2 := by
  induction prog generalizing s with
  | done r => exact h
  | call c follow ih => exact ih _ (h _ _ ⟨rfl, rfl⟩).2

/-- Only writes change the disk. -/
theorem disk_after (f : LocalFiles) (p : LocalPages) (c : Call) (s : Scene) :
    (s.after f p c).disk =
      match c with
      | .writePage id index data => (p.write id index data s.disk).state
      | _ => s.disk := disk_perform f p [] c { disk := s.disk }

/-- The replies are those that a run of this scene has in any installation. -/
theorem reply_eq {path : Bytes} {x : Installation} (hdisk : x.disk = s.disk)
    (hgoes : ((Workplace.ofDisk f p).perform path .isStopped x).result = .ok false) (c : Call) :
    ((Workplace.ofDisk f p).perform path c x).result = s.reply f p c := by
  obtain ⟨disk, tally, writes⟩ := s
  subst hdisk
  cases c with
  | isStopped => exact hgoes
  | _ => rfl

theorem sound_of_moves {x : Exchange} {s' : Scene} (h : Moves f p x s s') : x.Sound := by
  obtain ⟨call, r⟩ := x
  obtain ⟨rfl, -⟩ : r = reply f p call s ∧ _ := h
  have hsound := sound_ofDisk f p [] call { disk := s.disk }
  cases call with
  | isStopped =>
    have hgoes : ∀ e, reply f p .isStopped s ≠ .error e := fun e h => by cases h
    exact ⟨fun _ => hgoes, fun e h => absurd h (hgoes e), fun _ e h => absurd h (hgoes e)⟩
  | _ => exact hsound

/-- Calls that neither write nor change the tally leave the scene as it is. -/
theorem after_of_quiet {c : Call} (h : c.isQuiet) : s.after f p c = s := by
  obtain ⟨disk, tally, writes⟩ := s
  cases c with
  | writePage id index data => cases h
  | update g => cases h
  | _ => simp [after, disk_perform, Exchange.count, Call.write?]

/-- What is looked for leaves the scene as it is. -/
theorem after_of_isLook {c : Call} (h : c.isLook) : s.after f p c = s := by
  cases c with
  | status q => exact after_of_quiet rfl
  | list q => exact after_of_quiet rfl
  | isStopped => exact after_of_quiet rfl
  | _ => cases h

/-- The tree stands in all scenes. -/
theorem grounds_after {top : Branch} {store : DiskPlace} (h : Grounds f p top store s.disk)
    (c : Call) : Grounds f p top store (s.after f p c).disk := by
  rw [disk_after]
  cases c with
  | writePage id index data => exact h.write id index data
  | _ => exact h

/-- The tree stands whatever is run. -/
theorem keeps_grounds {top : Branch} {store : DiskPlace} (hg : Grounds f p top store s.disk)
    (prog : Program α) :
    prog.Keeps (Moves f p) (fun _ => True) s fun _ s' => Grounds f p top store s'.disk :=
  Program.keeps_of_moves (fun x s s' (hmove : Moves f p x s s')
    (h : Grounds f p top store s.disk) => hmove.2 ▸ grounds_after h x.call) hg prog

section Walks

variable {top : Branch} {store : DiskPlace} {d : Disk} {job : Job} {pageSize : Int}
  {whole : List FileStatus} {J : Scene → Prop} {Inv : List FileStatus → Scene → Prop}
  {Fails : Failure → Scene → Prop}

/-- A tree that stands is found as it is surveyed, so all that is to be shown is how files are
    loaded. -/
theorem loading (hd : Grounds f p top store d) (hcovers : top.Covers job.path)
    (hgrounds : ∀ counted s, Inv counted s → Grounds f p top store s.disk)
    (hJ : ∀ counted s, Inv counted s → J s)
    (hload : ∀ counted files s, counted ++ files <+: whole → Inv counted s →
      (Job.loadFiles job.options pageSize files).Keeps (Moves f p) J s fun r s' =>
        (∀ v, r = .ok v → Inv (counted ++ files) s') ∧ ∀ e, r = .error e → Fails e s') :
    Loading (f.survey d job.path) job pageSize whole (Moves f p) J (fun _ => False) Inv Fails where
  status counted r s s' h hmove := by
    have hsame := hd.stands.survey_eq hcovers (hgrounds counted s h).stands
    obtain rfl : r = reply f p (.status job.path) s := hmove.1
    exact ⟨hsame.1, fun e he => (sound_of_moves hmove).isFileSystem rfl e he⟩
  list counted dir r s s' h hdir hmove := by
    have hsame := hd.stands.survey_eq hcovers (hgrounds counted s h).stands
    obtain rfl : r = reply f p (.list dir) s := hmove.1
    exact ⟨hsame.2 dir hdir, fun e he => (sound_of_moves hmove).isFileSystem rfl e he⟩
  isStopped counted r s s' _ hmove := .inl hmove.1
  look counted x s s' _ h hx hmove := by
    obtain ⟨-, rfl⟩ := hmove
    rw [after_of_isLook hx]
    exact ⟨hJ counted s h, h⟩
  halts _ _ _ _ h := h
  load := hload

end Walks

end Scene

/-! ### Runs that nothing meddles with -/

namespace Chronicle

variable {f : LocalFiles} {p : LocalPages} {c : Chronicle Installation}
  {next : Nat → Event Installation} {job : Job} {limit : Nat}

/-- The run of the job is in this scene. -/
structure SceneAt (f : LocalFiles) (p : LocalPages) (c : Chronicle Installation)
    (next : Nat → Event Installation) (job : Job) (k : Nat) (s : Scene) : Prop where
  disk_eq : (c.upTo (.ofDisk f p) next k).state.disk = s.disk
  told : (c.upTo (.ofDisk f p) next k).Told (.ofDisk f p) job s.tally
  writes_eq : writesIn (c.talk (.ofDisk f p) next job.path k) = s.writes

/-- The scene of a run moves with its calls, and with nothing else. -/
theorem follows_scene (ho : (c.service (.ofDisk f p)).Orderly limit c.accepted c.begun c.ended)
    (hgoes : job.cancelled = false) (hstop : Unstopped next job.path)
    (halone : c.Alone (.ofDisk f p) next) :
    c.Follows (.ofDisk f p) next job (Scene.Moves f p) (c.SceneAt f p next job) where
  event k s program hne hdoing h := by
    have hok := orderly_upTo (apart_ofDisk f p) ho next k
    refine ⟨?_, ?_, ?_⟩
    · rw [upTo_succ, ← h.disk_eq]
      cases hnext : next k with
      | work => exact absurd hnext hne
      | load path o => rfl
      | world x => exact halone k x hnext
    · rw [upTo_succ]
      exact h.told.event (apart_ofDisk f p) hok hdoing hne (hstop k)
    · rw [Chronicle.talk, saidIn_of_ne_work hne, List.append_nil, h.writes_eq]
  call k s call follow hwork hdoing h := by
    have hok := orderly_upTo (apart_ofDisk f p) ho next k
    have hreply := Scene.reply_eq h.disk_eq (h.told.isStopped.trans (congrArg _ hgoes)) call
    refine ⟨s.after f p call, ⟨hreply, rfl⟩, ?_, ?_, ?_⟩
    · have hstate := (hdoing.call (apart_ofDisk f p) hok).1
      rw [upTo_succ, hwork, hstate, Scene.disk_after, ← h.disk_eq]
      exact disk_perform f p job.path call _
    · rw [upTo_succ, hwork]
      exact h.told.call (apart_ofDisk f p) hok hdoing
    · rw [Chronicle.talk, hwork, saidIn_of_call hdoing, writesIn_snoc, h.writes_eq]
      rfl
  round k s walk hwork hdoing h := by
    have hstate := (hdoing.round (apart_ofDisk f p) (orderly_upTo (apart_ofDisk f p) ho next k)).1
    refine ⟨?_, ?_, ?_⟩
    · rw [upTo_succ, hwork, hstate]
      exact h.disk_eq
    · rw [upTo_succ, hwork]
      exact .withCurrent (apart_ofDisk f p) hstate h.told
    · rw [Chronicle.talk, hwork, saidIn_of_done hdoing, List.append_nil, h.writes_eq]

/-- The run begins on the disk that is there. -/
theorem Begun.sceneAt (h : c.Begun (.ofDisk f p) job) (next : Nat → Event Installation) :
    c.SceneAt f p next job 0 { disk := c.state.disk, tally := job.tally } := ⟨rfl, h.job_eq, rfl⟩

end Chronicle

end PageServer.Load
