import Mathlib.Data.List.Dedup
import PageServer.Load.Service
import PageServer.Proofs.Table

/-!
# The table of jobs

A service of loads keeps a table of jobs by path, and beside it the paths of those that
have finished and of those that wait. They are *consistent* with each other and with what
came before: with the paths of the loads that were accepted, of the runs that began and of
those that ended, and how (`Service.Consistent`). They are *orderly* if no more jobs have
finished than are kept (`Service.Orderly`).

Taking a load (`Orderly.enter`), changing a job that goes on (`Orderly.change`), beginning
a run (`Orderly.begins`) and ending it (`Orderly.close`) keep them orderly.
-/

namespace PageServer.Load.Service

variable {s s' : Service} {path p : Bytes} {job : Job} {f : Job → Job} {limit : Nat}
  {accepted begun : List Bytes} {ended : List (Bytes × JobState)} {st : JobState}

/-! ### What is read of the table -/

/-- The state of the job of a path, if it has one. -/
def stateOf (s : Service) (path : Bytes) : Option JobState := (s.jobs.get? path).map (·.state)

theorem stateOf_eq_some_iff :
    s.stateOf path = some st ↔ ∃ job, s.jobs.get? path = some job ∧ job.state = st :=
  Option.map_eq_some_iff

theorem isRunning_iff : s.isRunning path ↔ s.stateOf path = some .running := by
  rw [isRunning, stateOf]
  rcases s.jobs.get? path with _ | job
  · simp
  · simp [beq_iff_eq]

theorem get?_change (s : Service) (path : Bytes) (f : Job → Job) (p : Bytes) :
    (s.change path f).jobs.get? p =
      if p = path then (s.jobs.get? path).map f else s.jobs.get? p := by
  rw [change]
  split
  · next hnone =>
    by_cases hp : p = path
    · rw [if_pos hp, hp, hnone, Option.map_none]
    · rw [if_neg hp]
  · next job hjob =>
    rw [hjob, Table.get?_insert, Option.map_some]
    simp only [Std.LawfulEqCmp.compare_eq_iff_eq]

theorem get?_enter (s : Service) (job : Job) (p : Bytes) :
    (s.enter job).jobs.get? p = if p = job.path then some job else s.jobs.get? p := by
  simp only [enter, Table.get?_insert, Table.get?_erase, Std.LawfulEqCmp.compare_eq_iff_eq]
  split
  · rfl
  · next hne => rw [if_neg (Ne.symm hne)]

theorem stateOf_enter (s : Service) (job : Job) (p : Bytes) :
    (s.enter job).stateOf p = if p = job.path then some job.state else s.stateOf p := by
  rw [stateOf, get?_enter]
  split <;> rfl

/-- A change that keeps the state of the job. -/
theorem stateOf_change (hf : ∀ job, (f job).state = job.state) (p : Bytes) :
    (s.change path f).stateOf p = s.stateOf p := by
  rw [stateOf, get?_change, stateOf]
  split
  · next hp => simp only [hp, Option.map_map, Function.comp_def, hf]
  · rfl

theorem get?_foldl_erase (paths : List Bytes)
    (jobs : Table (compare : Bytes → Bytes → Ordering) Job) (p : Bytes) :
    (paths.foldl (fun jobs path => jobs.erase path) jobs).get? p =
      if p ∈ paths then none else jobs.get? p := by
  induction paths generalizing jobs with
  | nil => simp
  | cons path paths ih =>
    rw [List.foldl_cons, ih, Table.get?_erase]
    simp only [List.mem_cons, Std.LawfulEqCmp.compare_eq_iff_eq]
    by_cases hmem : p ∈ paths
    · simp [hmem]
    · simp [hmem, eq_comm]

theorem change_frame (s : Service) (path : Bytes) (f : Job → Job) :
    (s.change path f).limit = s.limit ∧ (s.change path f).current = s.current ∧
      (s.change path f).waiting = s.waiting ∧ (s.change path f).finished = s.finished := by
  rw [change]
  split <;> exact ⟨rfl, rfl, rfl, rfl⟩

/-- The service after a run has ended, with all the finished jobs. -/
def settle (s : Service) (path : Bytes) (state : JobState) : Service :=
  let s := s.change path fun job => { job with state }
  { s with finished := s.finished ++ [path], current := none }

theorem close_eq (s : Service) (path : Bytes) (state : JobState) :
    s.close path state = (s.settle path state).evict := rfl

theorem get?_settle (h : (s.settle path st).jobs.get? p = some job) :
    ∃ job', s.jobs.get? p = some job' ∧ job'.path = job.path := by
  change (s.change path _).jobs.get? p = some job at h
  rw [get?_change] at h
  split at h
  · next hp =>
    obtain ⟨job', hjob', rfl⟩ := Option.map_eq_some_iff.1 h
    exact ⟨job', hp ▸ hjob', rfl⟩
  · exact ⟨job, h, rfl⟩

theorem stateOf_settle {st' : JobState} (h : s.stateOf path = some st') (st : JobState)
    (p : Bytes) : (s.settle path st).stateOf p = if p = path then some st else s.stateOf p := by
  obtain ⟨job, hjob, -⟩ := stateOf_eq_some_iff.1 h
  change ((s.change path _).jobs.get? p).map (·.state) = _
  rw [get?_change, hjob]
  split <;> rfl

theorem get?_evict (s : Service) (p : Bytes) :
    s.evict.jobs.get? p =
      if p ∈ s.finished.take (s.finished.length - s.limit) then none else s.jobs.get? p :=
  get?_foldl_erase _ _ _

theorem stateOf_evict (s : Service) (p : Bytes) :
    s.evict.stateOf p =
      if p ∈ s.finished.take (s.finished.length - s.limit) then none else s.stateOf p := by
  rw [stateOf, get?_evict]
  split <;> rfl

/-! ### Order -/

/-- What comes last stays the last one when only the last ones are kept. -/
theorem sublist_dedup_snoc {l m : List Bytes} (h : l.Sublist m.dedup) (hp : p ∉ l) :
    (l ++ [p]).Sublist (m ++ [p]).dedup := by
  induction m generalizing l with
  | nil =>
    obtain rfl := List.eq_nil_of_sublist_nil h
    exact List.Sublist.refl _
  | cons q m ih =>
    rw [List.cons_append]
    by_cases hq : q ∈ m
    · rw [List.dedup_cons_of_mem hq] at h
      rw [List.dedup_cons_of_mem (List.mem_append_left _ hq)]
      exact ih h hp
    · rw [List.dedup_cons_of_notMem hq] at h
      rcases List.sublist_cons_iff.1 h with htail | ⟨l', rfl, htail⟩
      · by_cases hqp : q ∈ m ++ [p]
        · rw [List.dedup_cons_of_mem hqp]
          exact ih htail hp
        · rw [List.dedup_cons_of_notMem hqp]
          exact (ih htail hp).cons q
      · obtain ⟨hne, hp'⟩ := not_or.1 (mt List.mem_cons.2 hp)
        have hqp : q ∉ m ++ [p] := by simpa [hq] using Ne.symm hne
        rw [List.dedup_cons_of_notMem hqp]
        exact (ih htail hp').cons_cons q

/-! ### Consistency -/

/-- The paths of the jobs at work, and of those that wait for it. -/
def active (s : Service) : List Bytes := (s.current.map (·.path)).toList ++ s.waiting

/-- What the service keeps fits together, and it fits to the paths of the loads that were
    accepted, to those of the runs that began, and to those of the runs that ended, with
    their states. -/
structure Consistent (limit : Nat) (s : Service) (accepted begun : List Bytes)
    (ended : List (Bytes × JobState)) : Prop where
  limit_eq : s.limit = limit
  path_eq : ∀ p job, s.jobs.get? p = some job → job.path = p
  nodup_finished : s.finished.Nodup
  /-- The finished jobs are those that are not running any more. -/
  mem_finished : ∀ p, p ∈ s.finished ↔ ∃ st, s.stateOf p = some st ∧ st ≠ .running
  nodup_active : s.active.Nodup
  /-- The running jobs are those at work and those that wait. -/
  mem_active : ∀ p, p ∈ s.active ↔ s.stateOf p = some .running
  /-- Loads are begun in the order in which they were accepted. -/
  accepted_eq : accepted = begun ++ s.waiting
  /-- One run is at work at most. -/
  begun_eq : begun = ended.map (·.1) ++ (s.current.map (·.path)).toList
  /-- The finished jobs come in the order in which they ended last. -/
  finished_sublist : s.finished.Sublist (ended.map (·.1)).dedup
  ended_ne_running : ∀ e ∈ ended, e.2 ≠ .running
  /-- A finished job has the state in which its last run ended. -/
  last_ended : ∀ p st, s.stateOf p = some st → st ≠ .running →
    ended.reverse.find? (·.1 = p) = some (p, st)

/-- All fits together, and no more jobs have finished than are kept. -/
structure Orderly (limit : Nat) (s : Service) (accepted begun : List Bytes)
    (ended : List (Bytes × JobState)) : Prop extends Consistent limit s accepted begun ended where
  length_finished : s.finished.length ≤ limit

theorem orderly_fresh (limit : Nat) : Orderly limit { limit } [] [] [] where
  limit_eq := rfl
  path_eq _ _ h := by cases h
  nodup_finished := List.nodup_nil
  mem_finished p := iff_of_false List.not_mem_nil fun ⟨_, h, _⟩ => by cases h
  nodup_active := List.nodup_nil
  mem_active p := iff_of_false List.not_mem_nil fun h => by cases h
  accepted_eq := rfl
  begun_eq := rfl
  finished_sublist := List.Sublist.refl []
  ended_ne_running _ h := by cases h
  last_ended _ _ h := by cases h
  length_finished := Nat.zero_le _

namespace Consistent

/-- The job at work is in the table. -/
theorem get?_current (h : Consistent limit s accepted begun ended) {work : AtWork}
    (hcurrent : s.current = some work) :
    ∃ job, s.jobs.get? work.path = some job ∧ job.path = work.path ∧ job.state = .running := by
  have hmem : work.path ∈ s.active := by
    rw [active, hcurrent]
    exact List.mem_append_left _ List.mem_cons_self
  obtain ⟨job, hjob, hstate⟩ := stateOf_eq_some_iff.1 ((h.mem_active _).1 hmem)
  exact ⟨job, hjob, h.path_eq _ _ hjob, hstate⟩

/-- So is the first of those that wait. -/
theorem get?_waiting (h : Consistent limit s accepted begun ended) {rest : List Bytes}
    (hwaiting : s.waiting = path :: rest) :
    ∃ job, s.jobs.get? path = some job ∧ job.path = path ∧ job.state = .running := by
  have hmem : path ∈ s.active := by
    rw [active, hwaiting]
    exact List.mem_append_right _ List.mem_cons_self
  obtain ⟨job, hjob, hstate⟩ := stateOf_eq_some_iff.1 ((h.mem_active _).1 hmem)
  exact ⟨job, hjob, h.path_eq _ _ hjob, hstate⟩

/-- A load is taken for a path without a running job. -/
theorem enter (h : Consistent limit s accepted begun ended) (hidle : ¬ s.isRunning job.path)
    (hstate : job.state = .running) :
    Consistent limit (s.enter job) (accepted ++ [job.path]) begun ended := by
  have hactive : (s.enter job).active = s.active ++ [job.path] :=
    (List.append_assoc _ _ _).symm
  have hnew : job.path ∉ s.active := by rwa [h.mem_active, ← isRunning_iff]
  exact {
    limit_eq := h.limit_eq
    path_eq p j hget := by
      rw [get?_enter] at hget
      split at hget
      · next hp => rw [← Option.some.inj hget, hp]
      · exact h.path_eq p j hget
    nodup_finished := h.nodup_finished.filter _
    mem_finished p := by
      show p ∈ s.finished.filter (· != job.path) ↔ _
      rw [List.mem_filter, h.mem_finished, stateOf_enter, bne_iff_ne]
      by_cases hp : p = job.path
      · simp [hp, hstate]
      · simp [hp]
    nodup_active := by
      rw [hactive]
      exact h.nodup_active.append (List.nodup_singleton _) (List.disjoint_singleton.2 hnew)
    mem_active p := by
      rw [hactive, List.mem_append, h.mem_active, List.mem_singleton, stateOf_enter]
      by_cases hp : p = job.path
      · simp [hp, hstate]
      · simp [hp]
    accepted_eq := by
      show _ = begun ++ (s.waiting ++ [job.path])
      rw [h.accepted_eq, List.append_assoc]
    begun_eq := h.begun_eq
    finished_sublist := List.filter_sublist.trans h.finished_sublist
    ended_ne_running := h.ended_ne_running
    last_ended p st hget hne := by
      rw [stateOf_enter] at hget
      split at hget
      · exact absurd (hstate.symm.trans (Option.some.inj hget)).symm hne
      · exact h.last_ended p st hget hne }

/-- A job changes without ending. -/
theorem change (h : Consistent limit s accepted begun ended) (path : Bytes)
    (hpath : ∀ job, (f job).path = job.path) (hstate : ∀ job, (f job).state = job.state) :
    Consistent limit (s.change path f) accepted begun ended := by
  obtain ⟨hlimit, hcurrent, hwaiting, hfinished⟩ := change_frame s path f
  have hactive : (s.change path f).active = s.active := by rw [active, hcurrent, hwaiting, active]
  exact {
    limit_eq := hlimit.trans h.limit_eq
    path_eq p j hget := by
      rw [get?_change] at hget
      split at hget
      · next hp =>
        obtain ⟨job, hjob, rfl⟩ := Option.map_eq_some_iff.1 hget
        rw [hpath, hp, h.path_eq _ _ hjob]
      · exact h.path_eq p j hget
    nodup_finished := hfinished ▸ h.nodup_finished
    mem_finished p := by rw [hfinished, h.mem_finished, stateOf_change hstate]
    nodup_active := hactive ▸ h.nodup_active
    mem_active p := by rw [hactive, h.mem_active, stateOf_change hstate]
    accepted_eq := hwaiting ▸ h.accepted_eq
    begun_eq := hcurrent ▸ h.begun_eq
    finished_sublist := hfinished ▸ h.finished_sublist
    ended_ne_running := h.ended_ne_running
    last_ended p st hget hne := by
      rw [stateOf_change hstate] at hget
      exact h.last_ended p st hget hne }

/-- The program of the job at work gets on. -/
theorem works (h : Consistent limit s accepted begun ended) {work : AtWork}
    (hcurrent : s.current = some work) (program : Program Next) :
    Consistent limit { s with current := some ⟨work.path, program⟩ } accepted begun ended where
  __ := h
  nodup_active := by
    have := h.nodup_active
    rwa [active, hcurrent] at this
  mem_active p := by
    have := h.mem_active p
    rwa [active, hcurrent] at this
  begun_eq := by rw [h.begun_eq, hcurrent]; rfl

/-- A run begins: the first of the paths that wait is at work. -/
theorem begins (h : Consistent limit s accepted begun ended) {rest : List Bytes}
    (hcurrent : s.current = none) (hwaiting : s.waiting = path :: rest)
    (program : Program Next) :
    Consistent limit { s with waiting := rest, current := some ⟨path, program⟩ }
      accepted (begun ++ [path]) ended where
  __ := h
  nodup_active := by
    have := h.nodup_active
    rwa [active, hcurrent, hwaiting] at this
  mem_active p := by
    have := h.mem_active p
    rwa [active, hcurrent, hwaiting] at this
  accepted_eq := by rw [h.accepted_eq, hwaiting, List.append_assoc]; rfl
  begun_eq := by
    rw [h.begun_eq, hcurrent, Option.map_none, Option.toList_none, List.append_nil]
    rfl

/-- The run at work ends in a state. -/
theorem settle (h : Consistent limit s accepted begun ended)
    (hcurrent : s.current.map (·.path) = some path) (hst : st ≠ .running) :
    Consistent limit (s.settle path st) accepted begun (ended ++ [(path, st)]) := by
  obtain ⟨hlimit, -, hwaiting, hfinished⟩ :=
    change_frame s path fun job => { job with state := st }
  have hactive : s.active = path :: s.waiting := by rw [active, hcurrent]; rfl
  have hactive' : (s.settle path st).active = s.waiting := hwaiting
  have hfinished' : (s.settle path st).finished = s.finished ++ [path] :=
    congrArg (· ++ [path]) hfinished
  obtain ⟨hfresh, hnodup⟩ := List.nodup_cons.1 (hactive ▸ h.nodup_active)
  have hrunning : s.stateOf path = some .running :=
    (h.mem_active path).1 (hactive ▸ List.mem_cons_self)
  have hstateOf := stateOf_settle hrunning st
  -- Until now the job was running, so it is not among the finished ones.
  have hnew : path ∉ s.finished := by
    rw [h.mem_finished]
    rintro ⟨st', hst', hne⟩
    exact hne (Option.some.inj (hst'.symm.trans hrunning))
  exact {
    limit_eq := hlimit.trans h.limit_eq
    path_eq p j hget := by
      obtain ⟨job, hjob, hpath⟩ := get?_settle hget
      rw [← hpath, h.path_eq p job hjob]
    nodup_finished := by
      rw [hfinished']
      exact h.nodup_finished.append (List.nodup_singleton _) (List.disjoint_singleton.2 hnew)
    mem_finished p := by
      rw [hfinished', List.mem_append, List.mem_singleton, h.mem_finished, hstateOf]
      by_cases hp : p = path
      · simp [hp, hst]
      · simp [hp]
    nodup_active := hactive' ▸ hnodup
    mem_active p := by
      rw [hactive', hstateOf]
      by_cases hp : p = path
      · simp [hp, hfresh, hst]
      · simp [hp, ← h.mem_active, hactive]
    accepted_eq := by rw [h.accepted_eq, ← hactive', active]; rfl
    begun_eq := by
      rw [h.begun_eq, hcurrent, List.map_append]
      exact (List.append_nil _).symm
    finished_sublist := by
      rw [hfinished', List.map_append]
      exact sublist_dedup_snoc h.finished_sublist hnew
    ended_ne_running := List.forall_mem_append.2
      ⟨h.ended_ne_running, List.forall_mem_singleton.2 hst⟩
    last_ended p st' hget hne := by
      rw [hstateOf] at hget
      -- The last run of the path is the one that ends now; those of the other paths stay.
      rw [List.reverse_append, List.reverse_singleton, List.singleton_append, List.find?_cons]
      split at hget
      · next hp =>
        rw [hp, Option.some.inj hget]
        simp
      · next hp =>
        simp only [Ne.symm hp, decide_false]
        exact h.last_ended p st' hget hne }

/-- The oldest finished jobs are dropped. -/
theorem evict (h : Consistent limit s accepted begun ended) :
    Orderly limit s.evict accepted begun ended := by
  set excess := s.finished.length - s.limit with hexcess
  obtain ⟨-, hdrop, hdisjoint⟩ := List.nodup_append'.1
    ((List.take_append_drop excess s.finished).symm ▸ h.nodup_finished)
  have hstateOf : ∀ p, s.evict.stateOf p =
      if p ∈ s.finished.take excess then none else s.stateOf p := stateOf_evict s
  -- The jobs that are dropped are not running.
  have hkept : ∀ {p}, s.stateOf p = some .running → p ∉ s.finished.take excess := by
    intro p hp hmem
    obtain ⟨st, hst, hne⟩ := (h.mem_finished p).1 (List.mem_of_mem_take hmem)
    exact hne (Option.some.inj (hst.symm.trans hp))
  exact {
    limit_eq := h.limit_eq
    path_eq p j hget := by
      rw [get?_evict] at hget
      split at hget
      · cases hget
      · exact h.path_eq p j hget
    nodup_finished := hdrop
    mem_finished p := by
      show p ∈ s.finished.drop excess ↔ _
      rw [hstateOf]
      split
      · next hmem => simpa using hdisjoint hmem
      · next hmem =>
        rw [← h.mem_finished, ← List.take_append_drop excess s.finished, List.mem_append]
        simp [hmem]
    nodup_active := h.nodup_active
    mem_active p := by
      show p ∈ s.active ↔ _
      rw [h.mem_active, hstateOf]
      constructor
      · intro hp
        rw [if_neg (hkept hp), hp]
      · intro hp
        split at hp
        · cases hp
        · exact hp
    accepted_eq := h.accepted_eq
    begun_eq := h.begun_eq
    finished_sublist := (List.drop_sublist _ _).trans h.finished_sublist
    ended_ne_running := h.ended_ne_running
    last_ended p st hget hne := by
      rw [hstateOf] at hget
      split at hget
      · cases hget
      · exact h.last_ended p st hget hne
    length_finished := by
      show (s.finished.drop excess).length ≤ limit
      rw [List.length_drop, ← h.limit_eq]
      omega }

end Consistent

/-! ### Running jobs go on -/

/-- A running job goes on: it is still the same job, and it stays told to stop. -/
structure Continues (job job' : Job) : Prop where
  path_eq : job'.path = job.path
  options_eq : job'.options = job.options
  filter_eq : job'.filter = job.filter
  state_eq : job'.state = job.state
  cancelled : job.cancelled = true → job'.cancelled = true

theorem Continues.refl (job : Job) : Continues job job := ⟨rfl, rfl, rfl, rfl, id⟩

theorem Continues.trans {job job' job'' : Job} (h : Continues job job')
    (h' : Continues job' job'') : Continues job job'' where
  path_eq := h'.path_eq.trans h.path_eq
  options_eq := h'.options_eq.trans h.options_eq
  filter_eq := h'.filter_eq.trans h.filter_eq
  state_eq := h'.state_eq.trans h.state_eq
  cancelled hc := h'.cancelled (h.cancelled hc)

/-- Every running job goes on, but for those whose runs ended. -/
def Keeps (s s' : Service) (ended : List (Bytes × JobState)) : Prop :=
  ∀ p job, s.jobs.get? p = some job → job.state = .running →
    p ∈ ended.map (·.1) ∨ ∃ job', s'.jobs.get? p = some job' ∧ Continues job job'

theorem keeps_of_jobs_eq (h : s'.jobs = s.jobs) (ended : List (Bytes × JobState)) :
    s.Keeps s' ended := fun _ job hjob _ => .inr ⟨job, h ▸ hjob, .refl job⟩

theorem Keeps.trans {s'' : Service} (h : s.Keeps s' []) (h' : s'.Keeps s'' ended) :
    s.Keeps s'' ended := by
  intro p job hjob hstate
  rcases h p job hjob hstate with hend | ⟨job', hjob', hgoes⟩
  · cases hend
  · rcases h' p job' hjob' (hgoes.state_eq.trans hstate) with hend | ⟨job'', hjob'', hgoes'⟩
    · exact .inl hend
    · exact .inr ⟨job'', hjob'', hgoes.trans hgoes'⟩

theorem keeps_enter (hidle : ¬ s.isRunning job.path) : s.Keeps (s.enter job) [] := by
  intro p job' hjob' hstate
  refine .inr ⟨job', ?_, .refl job'⟩
  have hp : p ≠ job.path := by
    rintro rfl
    exact hidle (isRunning_iff.2 (stateOf_eq_some_iff.2 ⟨job', hjob', hstate⟩))
  rw [get?_enter, if_neg hp, hjob']

theorem keeps_change (s : Service) (path : Bytes) (hf : ∀ job, Continues job (f job)) :
    s.Keeps (s.change path f) [] := by
  intro p job hjob _
  refine .inr ?_
  rw [get?_change]
  split
  · next hp => exact ⟨f job, by rw [← hp, hjob, Option.map_some], hf job⟩
  · exact ⟨job, hjob, .refl job⟩

/-- The end of a run leaves the other running jobs as they are: only finished ones are
    dropped. -/
theorem Consistent.get?_close (h : Consistent limit s accepted begun ended)
    (hcurrent : s.current.map (·.path) = some path) (hst : st ≠ .running) (hp : p ≠ path)
    (hjob : s.jobs.get? p = some job) (hstate : job.state = .running) :
    (s.close path st).jobs.get? p = some job := by
  have hsettled : (s.settle path st).jobs.get? p = some job := by
    change (s.change path _).jobs.get? p = some job
    rw [get?_change, if_neg hp, hjob]
  have hkept : p ∉ (s.settle path st).finished := by
    rw [(h.settle hcurrent hst).mem_finished]
    rintro ⟨st', hst', hne⟩
    obtain ⟨job', hjob', rfl⟩ := stateOf_eq_some_iff.1 hst'
    cases hsettled.symm.trans hjob'
    exact hne hstate
  rw [close_eq, get?_evict, if_neg fun hmem => hkept (List.mem_of_mem_take hmem), hsettled]

theorem Consistent.keeps_close (h : Consistent limit s accepted begun ended)
    (hcurrent : s.current.map (·.path) = some path) (hst : st ≠ .running) :
    s.Keeps (s.close path st) [(path, st)] := by
  intro p job hjob hstate
  by_cases hp : p = path
  · exact .inl (List.mem_singleton.2 hp)
  · exact .inr ⟨job, h.get?_close hcurrent hst hp hjob hstate, .refl job⟩

/-- A job that has just finished is kept, if any finished ones are. -/
theorem Orderly.get?_close_self (h : Orderly limit s accepted begun ended) (hlimit : 0 < limit)
    (hcurrent : s.current.map (·.path) = some path) (hst : st ≠ .running)
    (hjob : s.jobs.get? path = some job) :
    (s.close path st).jobs.get? path = some { job with state := st } := by
  have hfinished : (s.settle path st).finished = s.finished ++ [path] :=
    congrArg (· ++ [path]) (change_frame s path _).2.2.2
  have hsettled : (s.settle path st).jobs.get? path = some { job with state := st } := by
    change (s.change path _).jobs.get? path = _
    rw [get?_change, if_pos rfl, hjob, Option.map_some]
  have hconsistent := h.toConsistent.settle hcurrent hst
  -- It comes last of the finished jobs, and no more than one of them is dropped.
  have hkept : path ∉ (s.settle path st).finished.take
      ((s.settle path st).finished.length - (s.settle path st).limit) := by
    have hlength := h.length_finished
    have hnodup := hconsistent.nodup_finished
    rw [hconsistent.limit_eq, hfinished, List.length_append, List.length_singleton,
      List.take_append_of_le_length (by omega)]
    rw [hfinished] at hnodup
    exact fun hmem => (List.nodup_append'.1 hnodup).2.2 (List.mem_of_mem_take hmem)
      (List.mem_singleton_self path)
  rw [close_eq, get?_evict, if_neg hkept, hsettled]

/-! ### Order is kept -/

namespace Orderly

/-- A load is taken for a path without a running job. -/
theorem enter (h : Orderly limit s accepted begun ended) (hidle : ¬ s.isRunning job.path)
    (hstate : job.state = .running) :
    Orderly limit (s.enter job) (accepted ++ [job.path]) begun ended :=
  ⟨h.toConsistent.enter hidle hstate, Nat.le_trans (List.length_filter_le _ _) h.length_finished⟩

/-- A job changes without ending. -/
theorem change (h : Orderly limit s accepted begun ended) (path : Bytes)
    (hf : ∀ job, Continues job (f job)) : Orderly limit (s.change path f) accepted begun ended := by
  refine ⟨h.toConsistent.change path (fun job => (hf job).path_eq) fun job => (hf job).state_eq, ?_⟩
  rw [(change_frame s path f).2.2.2]
  exact h.length_finished

/-- The program of the job at work gets on. -/
theorem works (h : Orderly limit s accepted begun ended) {work : AtWork}
    (hcurrent : s.current = some work) (program : Program Next) :
    Orderly limit { s with current := some ⟨work.path, program⟩ } accepted begun ended :=
  ⟨h.toConsistent.works hcurrent program, h.length_finished⟩

/-- A run begins: the first of the paths that wait is at work. -/
theorem begins (h : Orderly limit s accepted begun ended) {rest : List Bytes}
    (hcurrent : s.current = none) (hwaiting : s.waiting = path :: rest)
    (program : Program Next) :
    Orderly limit { s with waiting := rest, current := some ⟨path, program⟩ }
      accepted (begun ++ [path]) ended :=
  ⟨h.toConsistent.begins hcurrent hwaiting program, h.length_finished⟩

/-- The run at work ends. -/
theorem close (h : Orderly limit s accepted begun ended)
    (hcurrent : s.current.map (·.path) = some path) (hst : st ≠ .running) :
    Orderly limit (s.close path st) accepted begun (ended ++ [(path, st)]) :=
  (h.toConsistent.settle hcurrent hst).evict

end Orderly

end PageServer.Load.Service
