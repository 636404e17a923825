import PageServer.Proofs.Files.Failing
import PageServer.Proofs.Load.Static
import PageServer.Proofs.Load.Trees

/-!
# Walks that end, and walks that do not

A walk ends when no directory is pending any more. If the directories that are listed are
finitely many, and each of them is listed as the same directories every time, the walk comes
over, and it lists none of them twice (`Chronicle.exists_walk_over`). A tree on the disk is
like this, whatever becomes of the files in it.

But the disk sees of a path only what is in front of its first NUL byte. So if a path has a
NUL byte in it, all paths behind it are the same to the disk: what is found in the directory
is taken for this directory again, and the walk goes on for ever (`Chronicle.never_over`).
-/

namespace PageServer.Load

open Program

variable {answers : Exchange → Prop} {folders : Bytes → List Bytes} {top p : Bytes}
  {all rest : List Bytes} {talk talk' : List Exchange} {job : Job} {pageSize : Int} {n : Nat}
  {walk : Walk}

/-! ### Finitely many directories -/

/-- The replies show a path, and directories in which the same directories are listed every
    time. -/
structure Charted (folders : Bytes → List Bytes) (path top : Bytes) (x : Exchange) : Prop where
  sound : x.Sound
  status : ∀ root, x = ⟨.status path, .ok root⟩ → root.isFolder → root.path = top
  list : ∀ p entries, x = ⟨.list p, .ok entries⟩ → Reaches folders top p →
    foldersOf entries = folders p

/-- So many of the directories are still to be listed. -/
def Unlisted (folders : Bytes → List Bytes) (top : Bytes) (all : List Bytes) (n : Nat)
    (walk : Walk) (talk : List Exchange) : Prop :=
  ∃ more, more.length = n ∧ Visits folders walk.pending more ∧ listedIn talk ++ more = all ∧
    ∀ p ∈ walk.pending, Reaches folders top p

theorem Unlisted.isPrefix (h : Unlisted folders top all n walk talk) : listedIn talk <+: all := by
  obtain ⟨more, -, -, hall, -⟩ := h
  exact ⟨more, hall⟩

theorem Unlisted.congr (h : Unlisted folders top all n walk talk)
    (htalk : listedIn talk' = listedIn talk) : Unlisted folders top all n walk talk' := by
  obtain ⟨more, hmore, hvisits, hall, hreaches⟩ := h
  exact ⟨more, hmore, hvisits, htalk ▸ hall, hreaches⟩

/-- The first of the pending directories is listed, and those that are in it are pending now. -/
theorem Unlisted.next (h : Unlisted folders top all n walk talk)
    (hpending : walk.pending = p :: rest) :
    Reaches folders top p ∧ ∃ m < n, ∀ collected talk', listedIn talk' = listedIn talk ++ [p] →
      Unlisted folders top all m { pending := rest ++ folders p, collected } talk' := by
  obtain ⟨more, rfl, hvisits, hall, hreaches⟩ := h
  rw [hpending] at hvisits hreaches
  obtain ⟨hp, hrest⟩ := List.forall_mem_cons.1 hreaches
  cases hvisits with
  | @cons _ _ more hvisits =>
    refine ⟨hp, more.length, Nat.lt_succ_self _, fun collected talk' htalk' => ?_⟩
    refine ⟨more, rfl, hvisits, ?_, List.forall_mem_append.2 ⟨hrest, fun q hq => hp.child hq⟩⟩
    rw [htalk', ← hall, List.append_assoc]
    rfl

/-- The directories were listed as far as they go, and if that failed, it failed as files do. -/
def Listed (all : List Bytes) (pageSize : Int) (r : Except Failure Next) (talk : List Exchange) :
    Prop :=
  listedIn talk <+: all ∧ ∀ e, r = .error e → e.isFileSystem ∨ ¬ Job.CanHold pageSize

/-- While files are loaded, nothing is listed. -/
theorem loadFiles_listed (hsound : ∀ x, answers x → x.Sound) (o : LoadOptions) (pageSize : Int)
    (files : List FileStatus) {listed : List Bytes} (h : listedIn talk = listed) :
    (Job.loadFiles o pageSize files).Keeps (Added answers) (fun talk => listedIn talk = listed) talk
      fun r talk => listedIn talk = listed ∧ ∀ e, r = .error e → ¬ Job.CanHold pageSize := by
  have honly : (Job.loadFiles o pageSize files).Only fun c => ∀ p, c ≠ .list p := by
    refine only_bind (only_call nofun) fun _ => ?_
    refine (Job.loadEach_only o pageSize (fun file => List.mem_map_of_mem)).mono fun c hc p hp => ?_
    rw [hp] at hc
    exact hc
  have hkept : (Job.loadFiles o pageSize files).Keeps (Added answers)
      (fun talk => listedIn talk = listed) talk fun _ talk => listedIn talk = listed :=
    honly.keeps_added answers
      (fun _ talk hx hlisted => (listedIn_snoc_of_ne talk hx).trans hlisted) h
  have hfails := (Job.loadFiles_fails hsound o pageSize files).keeps
    (fun x talk talk' (hmove : Added answers x talk talk') => hmove.1) talk
  exact (hkept.and hfails).imp (fun _ hJ => hJ.1) fun _ _ hQ => ⟨hQ.1, fun e he => (hQ.2 e he).1⟩

/-- What comes after files were loaded goes on with the same directories listed. -/
theorem loadFiles_bind_listed (hsound : ∀ x, answers x → x.Sound) (o : LoadOptions)
    (files : List FileStatus) {Inv : Nat → Walk → List Exchange → Prop} {bound : Nat}
    {program : Program Next} (h : listedIn talk <+: all)
    (hthen : ∀ talk', listedIn talk' = listedIn talk →
      program.Keeps (Added answers) (fun talk => listedIn talk <+: all) talk'
        (Chronicle.Follows.AfterRound Inv (Listed all pageSize) bound)) :
    (Job.loadFiles o pageSize files >>= fun _ => program).Keeps (Added answers)
      (fun talk => listedIn talk <+: all) talk
      (Chronicle.Follows.AfterRound Inv (Listed all pageSize) bound) := by
  refine keeps_bind ((loadFiles_listed hsound o pageSize files rfl).imp
    (fun _ hJ => hJ ▸ h) fun r talk' hQ => ?_)
  obtain ⟨hsame, hfails⟩ := hQ
  cases r with
  | error e => exact ⟨hsame ▸ h, fun _ _ => .inr (hfails e rfl)⟩
  | ok v => exact hthen talk' hsame

/-- With the end of a walk the directories were listed as far as they go. -/
theorem finishWalk_listed (hsound : ∀ x, answers x → x.Sound) (job : Job) (pageSize : Int)
    (walk : Walk) {Inv : Nat → Walk → List Exchange → Prop} (bound : Nat)
    (h : listedIn talk <+: all) :
    (job.finishWalk pageSize walk).Keeps (Added answers) (fun talk => listedIn talk <+: all) talk
      (Chronicle.Follows.AfterRound Inv (Listed all pageSize) bound) := by
  rw [Job.finishWalk]
  split
  · refine loadFiles_bind_listed hsound _ _ h fun talk' hsame => ?_
    exact keeps_pure ⟨hsame ▸ h, fun _ he => by cases he⟩
  · exact keeps_pure ⟨h, fun _ he => by cases he⟩

/-- After a round there is a directory less to be listed, or the walk is over. -/
theorem round_listed (hanswers : ∀ x, answers x → Charted folders job.path top x)
    (h : Unlisted folders top all n walk talk) :
    (job.round pageSize walk).Keeps (Added answers) (fun talk => listedIn talk <+: all) talk
      (Chronicle.Follows.AfterRound (Unlisted folders top all) (Listed all pageSize) n) := by
  have hsound : ∀ x, answers x → x.Sound := fun x hx => (hanswers x hx).sound
  rw [Job.round]
  rcases hpending : walk.pending with _ | ⟨p, rest⟩
  · exact finishWalk_listed hsound job pageSize walk _ h.isPrefix
  dsimp only
  have hasked : ∀ r, Unlisted folders top all n walk (talk ++ [⟨.isStopped, r⟩]) := fun r =>
    h.congr (listedIn_snoc_of_ne talk fun _ hp => by cases hp)
  refine keeps_added (fun r _ => (hasked r).isPrefix)
    (fun e hx => absurd rfl ((hsound _ hx).own rfl e)) fun stopped _ => ?_
  replace h := hasked (.ok stopped)
  generalize talk ++ [_] = talk at h ⊢
  split
  · exact finishWalk_listed hsound job pageSize walk _ h.isPrefix
  obtain ⟨hp, m, hlt, hnext⟩ := h.next hpending
  have hlisted : ∀ r, listedIn (talk ++ [⟨.list p, r⟩]) = listedIn talk ++ [p] :=
    listedIn_snoc_list talk p
  -- Whatever the listing says, it was asked for in its turn.
  have hpre : ∀ r, listedIn (talk ++ [⟨.list p, r⟩]) <+: all := fun r =>
    (hnext [] _ (hlisted r)).isPrefix
  refine keeps_added (fun r _ => hpre r) (fun e hx => ⟨hpre _, fun e' he => .inl ?_⟩)
    fun entries hx => ?_
  · exact Except.error.inj he ▸ (hsound _ hx).isFileSystem rfl e rfl
  rw [← (hanswers _ hx).list p entries rfl hp] at hnext
  split
  · refine loadFiles_bind_listed hsound _ _ (hpre _) fun talk' hsame => ?_
    exact keeps_pure ⟨m, hlt, hnext _ _ (hsame.trans (hlisted _))⟩
  · exact keeps_pure ⟨m, hlt, hnext _ _ (hlisted _)⟩

/-- A job starts with all directories still to be listed. -/
theorem begin_listed (hanswers : ∀ x, answers x → Charted folders job.path top x)
    (hvisits : Visits folders [top] all) :
    (job.begin pageSize).Keeps (Added answers) (fun talk => listedIn talk <+: all) []
      (Chronicle.Follows.AfterRound (Unlisted folders top all) (Listed all pageSize)
        (all.length + 1)) := by
  have hsound : ∀ x, answers x → x.Sound := fun x hx => (hanswers x hx).sound
  have hnone : ∀ r, listedIn ([] ++ [⟨.status job.path, r⟩]) = [] := fun _ => rfl
  rw [Job.begin]
  refine keeps_added (fun r _ => hnone r ▸ List.nil_prefix)
    (fun e hx => ⟨hnone _ ▸ List.nil_prefix, fun e' he => .inl ?_⟩) fun root hx => ?_
  · exact Except.error.inj he ▸ (hsound _ hx).isFileSystem rfl e rfl
  split
  · next hfolder =>
    have htop := (hanswers _ hx).status root rfl hfolder
    refine keeps_pure ⟨all.length, Nat.lt_succ_self _, all, rfl, htop ▸ hvisits, rfl, ?_⟩
    exact List.forall_mem_singleton.2 (htop ▸ .top)
  · refine loadFiles_bind_listed hsound _ _ (hnone _ ▸ List.nil_prefix) fun talk' hsame => ?_
    exact keeps_pure ⟨hsame ▸ hnone _ ▸ List.nil_prefix, fun _ he => by cases he⟩

/-! ### Directories that are found again and again -/

/-- The replies show a directory in which there are only directories, which are like it. -/
structure Circling (Again : Bytes → Prop) (path : Bytes) (x : Exchange) : Prop where
  status : ∀ r, x = ⟨.status path, r⟩ → ∃ root, r = .ok root ∧ root.isFolder ∧ Again root.path
  list : ∀ p r, x = ⟨.list p, r⟩ → Again p →
    ∃ entries, r = .ok entries ∧ entries ≠ [] ∧ ∀ e ∈ entries, e.isFolder ∧ Again e.path
  goes_on : ∀ r, x = ⟨.isStopped, r⟩ → r = .ok false
  update : ∀ f r, x = ⟨.update f, r⟩ → r = .ok ()

/-- There is a walk to go on with, and so many of the directories were listed. -/
def Circles (Again : Bytes → Prop) (n : Nat) (r : Except Failure Next) (talk : List Exchange) :
    Prop :=
  (∃ walk, r = .ok (.walk walk) ∧ walk.pending ≠ [] ∧ ∀ p ∈ walk.pending, Again p) ∧
    (listedIn talk).length = n

variable {Again : Bytes → Prop}

/-- With directories only there are more to go on with. -/
theorem circles_of_entries {entries : List FileStatus} (hrest : ∀ q ∈ rest, Again q)
    (hne : entries ≠ []) (hall : ∀ e ∈ entries, e.isFolder ∧ Again e.path)
    (collected : List FileStatus) (hlength : (listedIn talk).length = n) :
    Circles Again n (.ok (.walk { pending := rest ++ entries.map (·.path), collected })) talk := by
  refine ⟨⟨_, rfl, ?_, ?_⟩, hlength⟩
  · exact List.append_ne_nil_of_right_ne_nil _ (mt List.map_eq_nil_iff.1 hne)
  · exact List.forall_mem_append.2 ⟨hrest, List.forall_mem_map.2 fun e he => (hall e he).2⟩

/-- A round lists one of the directories, and there are more of them to be listed than before. -/
theorem round_circles (hanswers : ∀ x, answers x → Circling Again job.path x)
    (h : Circles Again n (.ok (.walk walk)) talk) (hlisted : ∀ q ∈ listedIn talk, Again q) :
    (job.round pageSize walk).Keeps (Added answers) (fun talk => ∀ q ∈ listedIn talk, Again q) talk
      (Circles Again ((listedIn talk).length + 1)) := by
  obtain ⟨⟨_, ⟨rfl⟩, hne, hagain⟩, -⟩ := h
  obtain ⟨p, rest, hpending⟩ := List.exists_cons_of_ne_nil hne
  rw [hpending] at hagain
  obtain ⟨hp, hrest⟩ := List.forall_mem_cons.1 hagain
  rw [Job.round, hpending]
  dsimp only
  have hsame : ∀ r, listedIn (talk ++ [⟨.isStopped, r⟩]) = listedIn talk := fun r =>
    listedIn_snoc_of_ne talk fun _ hp => by cases hp
  refine keeps_added (fun r _ => hsame r ▸ hlisted)
    (fun e hx => by cases (hanswers _ hx).goes_on _ rfl) fun stopped hx => ?_
  obtain rfl := Except.ok.inj ((hanswers _ hx).goes_on _ rfl)
  have hmore : ∀ r, listedIn (talk ++ [⟨.isStopped, .ok false⟩] ++ [⟨.list p, r⟩]) =
      listedIn talk ++ [p] := fun r => by rw [listedIn_snoc_list, hsame]
  have hagain' : ∀ q ∈ listedIn talk ++ [p], Again q :=
    List.forall_mem_append.2 ⟨hlisted, List.forall_mem_singleton.2 hp⟩
  have hlength : (listedIn talk ++ [p]).length = (listedIn talk).length + 1 := List.length_append
  rw [if_neg Bool.false_ne_true]
  refine keeps_added (fun r _ => hmore r ▸ hagain') (fun e hx => ?_) fun entries hx => ?_
  · obtain ⟨_, hok, -⟩ := (hanswers _ hx).list p _ rfl hp
    cases hok
  obtain ⟨_, ⟨rfl⟩, hentries, hall⟩ := (hanswers _ hx).list p _ rfl hp
  replace hmore := hmore (.ok entries)
  generalize talk ++ [_] ++ [_] = talk' at hmore ⊢
  -- There is no file among the entries, and with them there are more directories.
  have hfolders : entries.filter (·.isFolder) = entries :=
    List.filter_eq_self.2 fun e he => (hall e he).1
  have hfiles : (entries.filter fun c => !c.isFolder && job.selects c) = [] :=
    List.filter_eq_nil_iff.2 fun e he => by simp [(hall e he).1]
  rw [hfolders, hfiles]
  split
  · -- Nothing is loaded, but the files are counted.
    have hsame' : ∀ f r, listedIn (talk' ++ [⟨.update f, r⟩]) = listedIn talk ++ [p] :=
      fun f r => (listedIn_snoc_of_ne talk' fun _ hp => by cases hp).trans hmore
    refine keeps_bind (keeps_added (fun r _ => hsame' _ r ▸ hagain')
      (fun e hx => by cases (hanswers _ hx).update _ _ rfl) fun _ _ => ?_)
    exact circles_of_entries hrest hentries hall _ (hsame' _ _ ▸ hlength)
  · exact keeps_pure (circles_of_entries hrest hentries hall _ (hmore ▸ hlength))

/-- The job starts with the directory. -/
theorem begin_circles (hanswers : ∀ x, answers x → Circling Again job.path x) :
    (job.begin pageSize).Keeps (Added answers) (fun talk => ∀ q ∈ listedIn talk, Again q) []
      (Circles Again 0) := by
  have hnone : ∀ r, listedIn ([] ++ [⟨.status job.path, r⟩]) = [] := fun _ => rfl
  rw [Job.begin]
  refine keeps_added (fun r _ => hnone r ▸ List.forall_mem_nil _) (fun e hx => ?_) fun root hx => ?_
  · obtain ⟨_, hok, -⟩ := (hanswers _ hx).status _ rfl
    cases hok
  obtain ⟨_, ⟨rfl⟩, hfolder, hagain⟩ := (hanswers _ hx).status _ rfl
  rw [if_pos hfolder]
  exact keeps_pure ⟨⟨_, rfl, List.cons_ne_nil _ _, List.forall_mem_singleton.2 hagain⟩, rfl⟩

namespace Chronicle

variable {σ : Type} {w : Workplace σ} {c : Chronicle σ} {next : Nat → Event σ} {limit : Nat}

/-- A walk of finitely many directories comes over, with these listed at most. -/
theorem exists_walk_over (hw : w.Apart)
    (ho : (c.service w).Orderly limit c.accepted c.begun c.ended) (hbegun : c.Begun w job)
    (hworks : GetsOn next)
    (hanswers : ∀ k call, Charted folders job.path top
      ⟨call, (w.perform job.path call (c.upTo w next k).state).result⟩)
    (hvisits : Visits folders [top] all) :
    ∃ k r, next k = .work ∧ (c.upTo w next k).Over w job r ∧
      (c.upTo w next k).ended = c.ended ∧
      Listed all w.pages.pageSize r (c.talk w next job.path k) := by
  have hf : c.Follows w next job (Added (Charted folders job.path top)) fun k talk =>
      talk = c.talk w next job.path k ∧ (c.upTo w next k).Heard w job talk :=
    follows_talk hw ho fun k call _ _ _ => hanswers k call
  obtain ⟨k, r, talk, -, hk, -, hover, ⟨rfl, -⟩, hlisted, hended⟩ :=
    hf.exists_over (k := 0) hw ho hworks (fun n walk talk hn => round_listed (fun _ h => h) hn)
      (begin_listed (fun _ h => h) hvisits) hbegun.doing lasts_zero ⟨rfl, hbegun.heard⟩
  exact ⟨k, r, hk, hover, hended, hlisted⟩

/-- A run that is over as files are, ends. -/
theorem Over.exists_ended (hw : w.Apart) {r : Except Failure Next} (h : c.Over w job r)
    (hr : ∀ e, r = .error e → e.isFileSystem) :
    ∃ st, (c.after w .work).ended = c.ended ++ [(job.path, st)] := by
  obtain ⟨hdone, hlast⟩ := h
  rcases r with e | _ | walk
  · exact ⟨_, (hdone.fails hw (hr e rfl)).2⟩
  · obtain ⟨job', hjob', hcontinues⟩ := hdone.continues
    exact ⟨_, (hdone.over hw hjob' hcontinues.path_eq).2⟩
  · exact absurd rfl (hlast walk)

/-- What was said stays said. -/
theorem talk_mono (c : Chronicle σ) (next : Nat → Event σ) (path : Bytes) {k m : Nat}
    (hkm : k ≤ m) :
    c.talk w next path k <+: c.talk w next path m := by
  induction m, hkm using Nat.le_induction with
  | base => exact List.prefix_refl _
  | succ m _ ih => exact ih.trans (List.prefix_append _ _)

theorem length_listedIn_le {path : Bytes} {k m : Nat} (hkm : k ≤ m) :
    (listedIn (c.talk w next path k)).length ≤ (listedIn (c.talk w next path m)).length :=
  ((talk_mono c next path hkm).filterMap _).length_le

section Circling

variable (hw : w.Apart) (ho : (c.service w).Orderly limit c.accepted c.begun c.ended)
  (hbegun : c.Begun w job)
  (hf : c.Follows w next job (Added (Circling Again job.path)) fun k talk =>
    talk = c.talk w next job.path k ∧ (c.upTo w next k).Told w job (tallyAfter job.tally talk))

include hw ho hbegun hf

/-- The run of a walk in circles lasts, with a program that lists one of the directories after
    the other. -/
theorem lasts_of_circling (k : Nat) :
    c.Lasts w next job k ∧ (∀ r, ¬ (c.upTo w next k).Over w job r) ∧
      (c.upTo w next k).ended = c.ended ∧ (∀ q ∈ listedIn (c.talk w next job.path k), Again q) ∧
      ∃ program, (c.upTo w next k).Doing w job program ∧
        (c.upTo w next k).Told w job (tallyAfter job.tally (c.talk w next job.path k)) ∧
        program.Keeps (Added (Circling Again job.path)) (fun talk => ∀ q ∈ listedIn talk, Again q)
          (c.talk w next job.path k) fun r talk => ∃ n, Circles Again n r talk := by
  have hround : ∀ walk talk, (∃ n, Circles Again n (.ok (.walk walk)) talk) →
      (∀ q ∈ listedIn talk, Again q) →
      (job.round w.pages.pageSize walk).Keeps (Added (Circling Again job.path))
        (fun talk => ∀ q ∈ listedIn talk, Again q) talk fun r talk => ∃ n, Circles Again n r talk :=
    fun walk talk ⟨_, hcircles⟩ hlisted =>
      (round_circles (fun _ h => h) hcircles hlisted).mono fun _ _ h => ⟨_, h⟩
  have hbegin : (job.begin w.pages.pageSize).Keeps (Added (Circling Again job.path))
      (fun talk => ∀ q ∈ listedIn talk, Again q) [] fun r talk => ∃ n, Circles Again n r talk :=
    (begin_circles fun _ h => h).mono fun _ _ h => ⟨0, h⟩
  have hview : ([] : List Exchange) = c.talk w next job.path 0 ∧
      c.Told w job (tallyAfter job.tally []) := ⟨rfl, hbegun.job_eq⟩
  obtain ⟨hlasts, hnever⟩ := hf.never_over hw ho hround hbegin (List.forall_mem_nil _)
    hbegun.doing hview (fun r talk ⟨_, ⟨walk, hwalk, _⟩, _⟩ => ⟨walk, hwalk⟩) k
  obtain ⟨hended, program, talk, hdoing, ⟨rfl, htold⟩, hkeeps, hlisted⟩ :=
    hf.keeps hw ho hround hbegin (List.forall_mem_nil _) hbegun.doing hview hlasts
  exact ⟨hlasts, hnever, hended, hlisted, program, hdoing, htold, hkeeps⟩

/-- The round at work ends, and with the next one there are more directories listed. -/
theorem exists_more_listed (hworks : GetsOn next) (k : Nat) :
    ∃ m, (listedIn (c.talk w next job.path k)).length <
      (listedIn (c.talk w next job.path m)).length := by
  obtain ⟨hlasts, -, -, -, program, hdoing, htold, hkeeps⟩ :=
    lasts_of_circling hw ho hbegun hf k
  obtain ⟨m, r, talk, hkm, hm, -, hdone, ⟨rfl, htold'⟩, ⟨n, hcircles⟩, -⟩ :=
    hf.exists_done hw ho hworks hkeeps hdoing hlasts ⟨rfl, htold⟩
  obtain ⟨walk, rfl, -⟩ := hcircles.1
  obtain ⟨-, -, -, hlisted, -⟩ := lasts_of_circling hw ho hbegun hf m
  obtain ⟨hlasts', -⟩ := lasts_of_circling hw ho hbegun hf (m + 1)
  obtain ⟨-, -, hnext⟩ := hdone.round hw (orderly_upTo hw ho next m)
  rw [← hm, ← upTo_succ] at hnext
  obtain ⟨m', r', talk', -, -, -, -, ⟨rfl, -⟩, ⟨-, hlength⟩, -⟩ :=
    hf.exists_done hw ho hworks (round_circles (fun _ h => h) hcircles hlisted) hnext hlasts'
      (hf.round m _ walk hm hdone ⟨rfl, htold'⟩)
  refine ⟨m', ?_⟩
  calc (listedIn (c.talk w next job.path k)).length
    _ ≤ (listedIn (c.talk w next job.path m)).length := length_listedIn_le hkm
    _ < (listedIn (c.talk w next job.path m')).length := hlength ▸ Nat.lt_succ_self _

end Circling

/-- A walk among directories in which there are only such directories is never over, and more
    and more of them are listed. -/
theorem never_over (hw : w.Apart)
    (ho : (c.service w).Orderly limit c.accepted c.begun c.ended) (hbegun : c.Begun w job)
    (hgoes : job.cancelled = false) (hstop : Unstopped next job.path)
    (hstatus : ∀ k, ∃ root, (w.files.status job.path (c.upTo w next k).state).result = .ok root ∧
      root.isFolder ∧ Again root.path)
    (hlist : ∀ k p, Again p → ∃ entries,
      (w.files.list p (c.upTo w next k).state).result = .ok entries ∧ entries ≠ [] ∧
        ∀ e ∈ entries, e.isFolder ∧ Again e.path) :
    (∀ k, (c.upTo w next k).ended = c.ended ∧ (∀ r, ¬ (c.upTo w next k).Over w job r) ∧
      ∀ q ∈ listedIn (c.talk w next job.path k), Again q) ∧
    (GetsOn next → ∀ n, ∃ k, n ≤ (listedIn (c.talk w next job.path k)).length) := by
  -- All answers lead around in circles: of the status, of listings, and whether to stop.
  have hf : c.Follows w next job (Added (Circling Again job.path)) fun k talk =>
      talk = c.talk w next job.path k ∧
        (c.upTo w next k).Told w job (tallyAfter job.tally talk) := by
    refine follows_told hw ho hstop fun k call follow t _ _ htold => ?_
    refine ⟨fun r hr => ?_, fun p r hr hp => ?_, fun r hr => ?_, fun f r hr => ?_⟩
    all_goals cases hr
    · exact hstatus k
    · exact hlist k p hp
    · rw [htold.isStopped, hgoes]
    · rfl
  refine ⟨fun k => ?_, fun hworks n => ?_⟩
  · obtain ⟨-, hnever, hended, hlisted, -⟩ := lasts_of_circling hw ho hbegun hf k
    exact ⟨hended, hnever, hlisted⟩
  · induction n with
    | zero => exact ⟨0, Nat.zero_le _⟩
    | succ n ih =>
      obtain ⟨k, hk⟩ := ih
      obtain ⟨m, hm⟩ := exists_more_listed hw ho hbegun hf hworks k
      exact ⟨m, Nat.lt_of_le_of_lt hk hm⟩

end Chronicle

end PageServer.Load
