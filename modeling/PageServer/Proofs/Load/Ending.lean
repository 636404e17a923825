import PageServer.Proofs.Load.Queue
import PageServer.Proofs.Load.Walk

/-!
# Errands come to their ends

An errand is *undisturbed* by what happens if its job is not told to stop, nothing but its
own run changes the files or their pages, and the work gets on again and again, with no other
run (`Errand.Undisturbed`). While its load waits the errand stays as it is, and its turn comes
(`Errand.Undisturbed.exists_turn`). As there is less to be listed after each round, its run
comes to an end with all files loaded (`Errand.Undisturbed.exists_over`), and the job succeeds
(`Errand.Undisturbed.exists_end`).
-/

namespace PageServer.Load.Errand

open Chronicle

variable {e : Errand} {c : Chronicle Installation} {next : Nat → Event Installation}
  {kept : Bytes → Bytes} {t : Tally} {limit k : Nat}

/-- What happens leaves the errand to its own run. -/
structure Undisturbed (e : Errand) (c : Chronicle Installation)
    (next : Nat → Event Installation) : Prop where
  /-- The job is not told to stop. -/
  goes_on : ∀ k o, next k = .load e.path o → o.operation.getD .submit ≠ .stop
  /-- Nothing but the run of the errand changes the files or their pages. -/
  spares : ∀ k,
    (next k = .work → ¬ ((c.upTo e.workplace next k).service e.workplace).Runs e.path) →
      e.Spares (c.upTo e.workplace next k).state.disk (c.upTo e.workplace next (k + 1)).state.disk
  /-- Again and again the work gets on, and not with another run. -/
  gets_on : ∀ k, ∃ m, k ≤ m ∧ next m = .work ∧
    (((c.upTo e.workplace next m).service e.workplace).current = none ∨
      ((c.upTo e.workplace next m).service e.workplace).Runs e.path)

/-- How far the work is matters nothing to the errand. -/
theorem calm_withCurrent (e : Errand) (x : Installation) (work : Option AtWork) :
    e.Calm x (e.workplace.withCurrent work x) := fun _ _ h => ⟨h.toHolds, h.shows, h.job_eq⟩

namespace Undisturbed

/-- An event that is not a step of its run leaves the errand as it is. -/
theorem stage_succ (hn : e.Undisturbed c next)
    (ho : (c.service e.workplace).Orderly limit c.accepted c.begun c.ended)
    (h : e.Stage kept t (c.upTo e.workplace next k).state)
    (hruns : next k = .work → ¬ ((c.upTo e.workplace next k).service e.workplace).Runs e.path) :
    e.Stage kept t (c.upTo e.workplace next (k + 1)).state := by
  refine h.spared (hn.spares k hruns) ?_
  have hjob := job_after e.apart (orderly_upTo e.apart ho next k) h.job_eq rfl rfl (hn.goes_on k) hruns
  rwa [← upTo_succ] at hjob

/-- What happens around its run is what the run may rely on. -/
theorem reliable (hn : e.Undisturbed c next)
    (ho : (c.service e.workplace).Orderly limit c.accepted c.begun c.ended) :
    c.Reliable e.workplace next e.Calm where
  refl _ _ _ h := h
  trans _ _ _ hxy hyz kept t h := hyz kept t (hxy kept t h)
  withCurrent := e.calm_withCurrent
  event _ hk _ _ h := hn.stage_succ ho h fun hwork => absurd hwork hk

theorem getsOn (hn : e.Undisturbed c next) : GetsOn next := fun k =>
  let ⟨m, hkm, hm, _⟩ := hn.gets_on k
  ⟨m, hkm, hm⟩

/-! ### Its turn -/

/-- While its load waits the errand is left as it is, and the load comes closer to its
    turn when the work gets on. -/
theorem waits_succ (hn : e.Undisturbed c next)
    (ho : (c.service e.workplace).Orderly limit c.accepted c.begun c.ended)
    (hwaits : e.path ∈ ((c.upTo e.workplace next k).service e.workplace).waiting)
    (h : e.Stage kept t (c.upTo e.workplace next k).state) :
    (next k = .work ∧ (c.upTo e.workplace next k).IsTurn e.workplace e.path) ∨
      e.path ∈ ((c.upTo e.workplace next (k + 1)).service e.workplace).waiting ∧
      e.Stage kept t (c.upTo e.workplace next (k + 1)).state ∧
      ((c.upTo e.workplace next (k + 1)).service e.workplace).ahead e.path ≤
        ((c.upTo e.workplace next k).service e.workplace).ahead e.path ∧
      (next k = .work → ((c.upTo e.workplace next k).service e.workplace).current = none →
        ((c.upTo e.workplace next (k + 1)).service e.workplace).ahead e.path <
          ((c.upTo e.workplace next k).service e.workplace).ahead e.path) ∧
      ∃ others, (c.upTo e.workplace next (k + 1)).ended =
        (c.upTo e.workplace next k).ended ++ others ∧ e.path ∉ others.map (·.1) := by
  have hok := orderly_upTo e.apart ho next k
  have hstage := hn.stage_succ ho h fun _ => hok.toConsistent.not_runs_of_waiting hwaits
  have hafter := waits_after e.apart hok hwaits (next k)
  rw [← upTo_succ] at hafter
  exact hafter.imp_right fun ⟨hmem, hrest⟩ => ⟨hmem, hstage, hrest⟩

/-- The turn of the errand comes after so many of the events. Until then its path ends no
    run, and the errand is left as it is. -/
def ReachesTurn (e : Errand) (c : Chronicle Installation) (next : Nat → Event Installation)
    (kept : Bytes → Bytes) (t : Tally) (k : Nat) : Prop :=
  ∃ m others, next m = .work ∧ (c.upTo e.workplace next m).IsTurn e.workplace e.path ∧
    e.Stage kept t (c.upTo e.workplace next m).state ∧
    (c.upTo e.workplace next m).ended = (c.upTo e.workplace next k).ended ++ others ∧
    e.path ∉ others.map (·.1)

theorem ReachesTurn.of_isTurn (hk : next k = .work)
    (hturn : (c.upTo e.workplace next k).IsTurn e.workplace e.path)
    (h : e.Stage kept t (c.upTo e.workplace next k).state) : ReachesTurn e c next kept t k :=
  ⟨k, [], hk, hturn, h, (List.append_nil _).symm, List.not_mem_nil⟩

theorem ReachesTurn.of_succ {others : List (Bytes × JobState)}
    (h : ReachesTurn e c next kept t (k + 1))
    (hended : (c.upTo e.workplace next (k + 1)).ended =
      (c.upTo e.workplace next k).ended ++ others)
    (hothers : e.path ∉ others.map (·.1)) : ReachesTurn e c next kept t k := by
  obtain ⟨m, others', hm, hturn, hstage, hended', hothers'⟩ := h
  refine ⟨m, others ++ others', hm, hturn, hstage, ?_, ?_⟩
  · rw [hended', hended, List.append_assoc]
  · rw [List.map_append, List.mem_append]
    exact not_or.2 ⟨hothers, hothers'⟩

/-- A load that waits comes to its turn. -/
theorem exists_turn (hn : e.Undisturbed c next)
    (ho : (c.service e.workplace).Orderly limit c.accepted c.begun c.ended)
    (hwaits : e.path ∈ ((c.upTo e.workplace next k).service e.workplace).waiting)
    (h : e.Stage kept t (c.upTo e.workplace next k).state) : ReachesTurn e c next kept t k := by
  -- By induction on the loads ahead, and then on how long the work with no run is waited for.
  induction hahead : ((c.upTo e.workplace next k).service e.workplace).ahead e.path using
    Nat.strong_induction_on generalizing k with
  | _ n ih =>
  obtain ⟨m, hkm, hm, hfree⟩ := hn.gets_on k
  induction hd : m - k generalizing k with
  | zero =>
    obtain rfl : k = m := by omega
    have hnone := hfree.resolve_right
      ((orderly_upTo e.apart ho next k).toConsistent.not_runs_of_waiting hwaits)
    rcases hn.waits_succ ho hwaits h with ⟨hk, hturn⟩ | ⟨hwaits', h', -, hlt, others, hended, hothers⟩
    · exact .of_isTurn hk hturn h
    · exact (ih _ (hahead ▸ hlt hm hnone) hwaits' h' rfl).of_succ hended hothers
  | succ d ihd =>
    rcases hn.waits_succ ho hwaits h with ⟨hk, hturn⟩ | ⟨hwaits', h', hle, -, others, hended, hothers⟩
    · exact .of_isTurn hk hturn h
    · refine ReachesTurn.of_succ ?_ hended hothers
      rcases Nat.lt_or_eq_of_le (hahead ▸ hle) with hlt | heq
      · exact ih _ hlt hwaits' h' rfl
      · exact ihd hwaits' h' heq (by omega) (by omega)

/-! ### Its run -/

/-- The work begins the run. -/
theorem after_turn (h : e.Stage kept t c.state) (hturn : c.IsTurn e.workplace e.path) :
    ((c.after e.workplace .work).service e.workplace).current =
        some ⟨e.path, (e.job t).begin e.pages.pageSize⟩ ∧
      e.Stage kept t (c.after e.workplace .work).state ∧
      (c.after e.workplace .work).ended = c.ended := by
  obtain ⟨hcurrent, rest, hwaiting⟩ := hturn
  have hstate : (c.after e.workplace .work).state = _ :=
    e.apart.step_start hcurrent hwaiting h.job_eq rfl
  have hservice : (c.after e.workplace .work).service e.workplace = _ :=
    (congrArg e.workplace.service.get hstate).trans (e.apart.get_set _ _)
  refine ⟨congrArg Service.current hservice, ?_, ?_⟩
  · rw [hstate]
    exact ⟨h.toHolds, h.shows, h.job_eq⟩
  · have hbegun : (c.service e.workplace).begunIn ((c.after e.workplace .work).service
        e.workplace) = [e.path] :=
      Service.begunIn_of_waiting_cons (hwaiting.trans (congrArg (e.path :: ·)
        (congrArg Service.waiting hservice).symm))
    have hnone : (c.service e.workplace).endedIn ((c.after e.workplace .work).service
        e.workplace) (e.workplace.step c.state).log = [] := by
      refine Service.endedIn_of_at_work ?_ _
      rw [hbegun, hcurrent, hservice]
      rfl
    exact (congrArg (c.ended ++ ·) hnone).trans (List.append_nil _)

/-- After a round that is not the last one the next round is at work. -/
theorem after_round {walk : Walk} (h : e.Stage kept t c.state)
    (hcurrent : (c.service e.workplace).current = some ⟨e.path, .done (.ok (.walk walk))⟩) :
    ((c.after e.workplace .work).service e.workplace).current =
        some ⟨e.path, (e.job t).round e.pages.pageSize walk⟩ ∧
      e.Stage kept t (c.after e.workplace .work).state ∧
      (c.after e.workplace .work).ended = c.ended := by
  have hstate : (c.after e.workplace .work).state =
      e.workplace.withCurrent (some ⟨e.path, (e.job t).round e.pages.pageSize walk⟩) c.state :=
    congrArg Outcome.state (e.apart.step_done hcurrent h.job_eq)
  have hservice : (c.after e.workplace .work).service e.workplace = _ :=
    (congrArg e.workplace.service.get hstate).trans (e.apart.service_withCurrent _ _)
  have hwork := congrArg Service.current hservice
  have hwaiting := congrArg Service.waiting hservice
  refine ⟨hwork, ?_, ended_of_at_work hcurrent hwork rfl (hwaiting.trans rfl)⟩
  rw [hstate]
  exact e.calm_withCurrent _ _ _ _ h

/-- The run of the errand comes to its end, and all files are loaded then. -/
theorem exists_over (hf : e.Feasible) (hn : e.Undisturbed c next)
    (ho : (c.service e.workplace).Orderly limit c.accepted c.begun c.ended) {bound : Nat}
    {program : Program Next}
    (hcurrent : ((c.upTo e.workplace next k).service e.workplace).current =
      some ⟨e.path, program⟩)
    (h : e.Yields program (c.upTo e.workplace next k).state (e.Comes bound)) :
    ∃ m, next m = .work ∧ (c.upTo e.workplace next m).ended = (c.upTo e.workplace next k).ended ∧
      ((c.upTo e.workplace next m).service e.workplace).current =
        some ⟨e.path, .done (.ok .over)⟩ ∧
      e.AllLoaded (c.upTo e.workplace next m).state := by
  have hrely := hn.reliable ho
  -- By induction on what is left to be listed.
  induction bound using Nat.strong_induction_on generalizing k program with
  | _ bound ih =>
  -- The program at work ends with what comes next, whatever happens meanwhile.
  obtain ⟨m, v, hm, hended, hdone, hcomes⟩ := exists_done e.apart hrely hn.getsOn
    (fun _ _ _ hx hxy => hx.calm hxy) h (hrely.refl _) hcurrent
  cases hcomes with
  | nothing hloaded => exact ⟨m, hm, hended, hdone, hloaded⟩
  | round hwalks hwalked hlt =>
    obtain ⟨hcurrent', hwalked', hended'⟩ := after_round hwalked hdone
    rw [← hm, ← upTo_succ] at hcurrent' hwalked' hended'
    obtain ⟨m', hm', hended'', hover⟩ := ih _ hlt hcurrent' (comes_round hf hwalks hwalked')
    exact ⟨m', hm', hended''.trans (hended'.trans hended), hover⟩

end Undisturbed

/-! ### Its end -/

/-- The work ends the run: the job has succeeded if no file failed. -/
theorem after_over (ho : (c.service e.workplace).Orderly limit c.accepted c.begun c.ended)
    (h : e.Stage kept t c.state) (hfailures : t.failures = [])
    (hcurrent : (c.service e.workplace).current = some ⟨e.path, .done (.ok .over)⟩) :
    (c.after e.workplace .work).ended = c.ended ++ [(e.path, .succeeded)] ∧
      (0 < limit → ((c.after e.workplace .work).service e.workplace).jobs.get? e.path =
        some { e.job t with state := .succeeded }) ∧
      (c.after e.workplace .work).state.disk = c.state.disk := by
  have hend : Service.endState (e.job t) = .succeeded := by
    simp [Service.endState, job, hfailures]
  have hstep := e.apart.step_done hcurrent h.job_eq
  rw [Service.afterRound, hend] at hstep
  have hservice : (c.after e.workplace .work).service e.workplace =
      (c.service e.workplace).close e.path .succeeded :=
    congrArg (fun o : Outcome Installation Unit => o.state.service) hstep
  have hlog : (e.workplace.step c.state).log =
      [] ++ [⟨.info, Service.endingText (e.job t) .succeeded⟩] := congrArg Outcome.log hstep
  refine ⟨?_, fun hlimit => ?_,
    congrArg (fun o : Outcome Installation Unit => o.state.disk) hstep⟩
  · exact ended_of_close hcurrent rfl rfl (by decide) hservice (List.forall_mem_nil _) hlog
  · rw [hservice]
    exact ho.get?_close_self hlimit (congrArg (Option.map (·.path)) hcurrent) (by decide) h.job_eq

/-- All files were found and loaded. -/
def total (e : Errand) : Tally where
  filesTotal := e.top.files.length
  filesProcessed := e.top.files.length
  bytesLoaded := (e.top.files.map (·.content.length)).sum

theorem tallyOf_of_perm {loaded : List FoundFile} (h : loaded.Perm e.top.files) :
    tallyOf loaded.length loaded = e.total := by
  rw [tallyOf, total, h.length_eq, (h.map _).sum_eq]

/-- What is kept in the end of each file. -/
theorem keptOf_of_perm {loaded : List FoundFile} (hf : e.Feasible) (h : loaded.Perm e.top.files)
    {file : FoundFile} (hfile : file ∈ e.top.files) :
    e.keptOf loaded (e.idOf file) = file.content := by
  have hdistinct := (h.map e.idOf).nodup_iff.2 hf.distinct
  have hfound : loaded.find? (e.idOf · = e.idOf file) = some file := by
    have hsome : (loaded.find? (e.idOf · = e.idOf file)).isSome :=
      List.find?_isSome.2 ⟨file, h.symm.subset hfile, decide_eq_true rfl⟩
    obtain ⟨other, hother⟩ := Option.isSome_iff_exists.1 hsome
    have hid : e.idOf other = e.idOf file := by simpa using List.find?_some hother
    rw [hother, List.inj_on_of_nodup_map hdistinct (List.mem_of_find?_eq_some hother)
      (h.symm.subset hfile) hid]
  rw [keptOf, hfound]
  rfl

/-- A load that waits comes to its end. The job has succeeded then, and each page file holds
    the file that it is for. -/
theorem Undisturbed.exists_end (hf : e.Feasible) (hn : e.Undisturbed c next)
    (ho : (c.service e.workplace).Orderly limit c.accepted c.begun c.ended)
    (hwaits : e.path ∈ (c.service e.workplace).waiting) (h : e.Stage (fun _ => []) {} c.state) :
    ∃ m others, (c.upTo e.workplace next (m + 1)).ended =
        c.ended ++ others ++ [(e.path, .succeeded)] ∧ e.path ∉ others.map (·.1) ∧
      ((c.upTo e.workplace next m).service e.workplace).jobs.get? e.path =
        some (e.job e.total) ∧
      (0 < limit → ((c.upTo e.workplace next (m + 1)).service e.workplace).jobs.get? e.path =
        some { e.job e.total with state := .succeeded }) ∧
      ∃ kept, e.Holds kept (c.upTo e.workplace next (m + 1)).state.disk ∧
        ∀ file ∈ e.top.files, kept (e.idOf file) = file.content := by
  -- First its turn comes, then its run does, and the step after that ends the job.
  obtain ⟨k, others, hk, hturn, hstage, hended, hothers⟩ := hn.exists_turn (k := 0) ho hwaits h
  obtain ⟨hcurrent, hstage', hended'⟩ := after_turn hstage hturn
  rw [← hk, ← upTo_succ] at hcurrent hstage' hended'
  obtain ⟨m, hm, hended'', hover, loaded, hperm, hloaded⟩ :=
    hn.exists_over hf ho hcurrent (comes_begin hf hstage')
  rw [Loaded, tallyOf_of_perm hperm] at hloaded
  obtain ⟨hlast, hjob, hdisk⟩ := after_over (orderly_upTo e.apart ho next m) hloaded rfl hover
  rw [← hm, ← upTo_succ] at hlast hjob hdisk
  refine ⟨m, others, ?_, hothers, hloaded.job_eq, hjob, e.keptOf loaded, ?_, ?_⟩
  · rw [hlast, hended'', hended', hended, upTo_zero]
  · rw [hdisk]
    exact hloaded.toHolds
  · exact fun file hfile => keptOf_of_perm hf hperm hfile

end PageServer.Load.Errand
