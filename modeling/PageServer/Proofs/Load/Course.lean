import PageServer.Proofs.Load.Program

/-!
# The course of a run

A run makes calls, and what it is replied is up to the files, the pages and the other
requests. A judgement on a program (`Program.Keeps`) says what holds after each of its calls
and what holds in the end, if what is known of the run moves with each call and its reply in
a given way. There is one rule for each way to put programs together.

What is known of a run may be told by a *view* of a chronicle (`Chronicle.Follows`). Then a
judgement on the program at work carries over: what it keeps holds as long as the run is at
work (`Chronicle.Follows.keeps`), and if the work gets on again and again, the program comes
to its end (`Chronicle.Follows.exists_done`).
-/

namespace PageServer.Load

/-! ### Judgements on programs -/

/-- A call with its reply. -/
structure Exchange where
  call : Call
  reply : Except Failure call.Reply

namespace Program

variable {ρ α β : Type} {moves : Exchange → ρ → ρ → Prop} {J K : ρ → Prop} {s : ρ}
  {Q R : Except Failure α → ρ → Prop}

/-- Whatever the replies are, `J` holds after each call of the program, and `Q` in the end, if
    what is known moves with the calls and the replies like this. -/
def Keeps (moves : Exchange → ρ → ρ → Prop) (J : ρ → Prop) :
    Program α → ρ → (Except Failure α → ρ → Prop) → Prop
  | done r, s, Q => Q r s
  | call c next, s, Q => ∀ r s', moves ⟨c, r⟩ s s' → J s' ∧ (next r).Keeps moves J s' Q

/-- What holds in the end of a program that is followed by others: the others go on with its
    value, and a failure is theirs. -/
def Then (Q : Except Failure α → ρ → Prop) (R : β → ρ → Prop) : Except Failure β → ρ → Prop
  | .ok v, s => R v s
  | .error e, s => Q (.error e) s

/-- What holds after each call may be weakened as well. -/
theorem Keeps.imp {p : Program α} (h : p.Keeps moves J s Q) (hJK : ∀ s, J s → K s)
    (hQR : ∀ r s', Q r s' → R r s') : p.Keeps moves K s R := by
  induction p generalizing s with
  | done r => exact hQR r s h
  | call c next ih =>
    intro r s' hmove
    obtain ⟨hJ, hnext⟩ := h r s' hmove
    exact ⟨hJK s' hJ, ih r hnext⟩

theorem Keeps.mono {p : Program α} (h : p.Keeps moves J s Q) (hQR : ∀ r s', Q r s' → R r s') :
    p.Keeps moves J s R := h.imp (fun _ hJ => hJ) hQR

theorem Keeps.and {p : Program α} (h : p.Keeps moves J s Q) (h' : p.Keeps moves K s R) :
    p.Keeps moves (fun s => J s ∧ K s) s fun r s' => Q r s' ∧ R r s' := by
  induction p generalizing s with
  | done r => exact ⟨h, h'⟩
  | call c next ih =>
    intro r s' hmove
    obtain ⟨hJ, hnext⟩ := h r s' hmove
    obtain ⟨hK, hnext'⟩ := h' r s' hmove
    exact ⟨⟨hJ, hK⟩, ih r hnext hnext'⟩

theorem fail_bind (e : Failure) (f : β → Program α) : (fail e >>= f : Program α) = fail e := rfl

theorem keeps_pure {v : α} (h : Q (.ok v) s) : (pure v : Program α).Keeps moves J s Q := h

theorem keeps_fail {e : Failure} (h : Q (.error e) s) :
    (fail e : Program α).Keeps moves J s Q := h

theorem keeps_call {c : Call} {Q : Except Failure c.Reply → ρ → Prop}
    (h : ∀ r s', moves ⟨c, r⟩ s s' → J s' ∧ Q r s') : (ofCall c).Keeps moves J s Q := h

theorem keeps_bind {p : Program β} {f : β → Program α}
    (h : p.Keeps moves J s (Then Q fun v s' => (f v).Keeps moves J s' Q)) :
    (p >>= f).Keeps moves J s Q := by
  show (p.andThen f).Keeps moves J s Q
  induction p generalizing s with
  | done r => cases r <;> exact h
  | call c next ih =>
    intro r s' hmove
    obtain ⟨hJ, hnext⟩ := h r s' hmove
    exact ⟨hJ, ih r hnext⟩

theorem keeps_recover {p : Program α} {f : Failure → Program α}
    (h : p.Keeps moves J s fun r s' =>
      match r with
      | .ok v => Q (.ok v) s'
      | .error e => (f e).Keeps moves J s' Q) : (p.recover f).Keeps moves J s Q := by
  induction p generalizing s with
  | done r => cases r <;> exact h
  | call c next ih =>
    intro r s' hmove
    obtain ⟨hJ, hnext⟩ := h r s' hmove
    exact ⟨hJ, ih r hnext⟩

/-! ### The calls of a program -/

variable {P : Call → Prop}

/-- All calls of the program are of this kind, whatever the replies are. -/
def Only (P : Call → Prop) : Program α → Prop
  | done _ => True
  | call c next => P c ∧ ∀ r, (next r).Only P

theorem Only.mono {P' : Call → Prop} {p : Program α} (h : p.Only P) (hP : ∀ c, P c → P' c) :
    p.Only P' := by
  induction p with
  | done r => trivial
  | call c next ih => exact ⟨hP c h.1, fun r => ih r (h.2 r)⟩

theorem only_pure (v : α) : (pure v : Program α).Only P := trivial

theorem only_fail (e : Failure) : (fail e : Program α).Only P := trivial

theorem only_call {c : Call} (h : P c) : (ofCall c).Only P := ⟨h, fun _ => trivial⟩

theorem only_bind {p : Program β} {f : β → Program α} (h : p.Only P) (hf : ∀ v, (f v).Only P) :
    (p >>= f).Only P := by
  show (p.andThen f).Only P
  induction p with
  | done r =>
    cases r with
    | error e => trivial
    | ok v => exact hf v
  | call c next ih => exact ⟨h.1, fun r => ih r (h.2 r)⟩

theorem only_recover {p : Program α} {f : Failure → Program α} (h : p.Only P)
    (hf : ∀ e, (f e).Only P) : (p.recover f).Only P := by
  induction p with
  | done r =>
    cases r with
    | error e => exact hf e
    | ok v => trivial
  | call c next ih => exact ⟨h.1, fun r => ih r (h.2 r)⟩

/-- What the calls of a program keep holds throughout. -/
theorem Only.keeps {p : Program α} (h : p.Only P)
    (hJ : ∀ x s s', P x.call → moves x s s' → J s → J s') (hs : J s) :
    p.Keeps moves J s fun _ s' => J s' := by
  induction p generalizing s with
  | done r => exact hs
  | call c next ih =>
    intro r s' hmove
    have hJ' := hJ ⟨c, r⟩ s s' h.1 hmove hs
    exact ⟨hJ', ih r (h.2 r) hJ'⟩

/-- What every call keeps holds in the end. -/
theorem keeps_of_moves (hK : ∀ x s s', moves x s s' → K s → K s') (hs : K s) (p : Program α) :
    p.Keeps moves (fun _ => True) s fun _ s' => K s' := by
  induction p generalizing s with
  | done r => exact hs
  | call c next ih => exact fun r s' hmove => ⟨trivial, ih r (hK _ s s' hmove hs)⟩

/-! ### The failures of a program -/

variable {answers : Exchange → Prop} {E : Failure → Prop}

/-- If the program fails, the failure is of this kind, as long as the replies are answers like
    these. -/
def Fails (answers : Exchange → Prop) (E : Failure → Prop) : Program α → Prop
  | done r => ∀ e, r = .error e → E e
  | call c next => ∀ r, answers ⟨c, r⟩ → (next r).Fails answers E

theorem Fails.mono {E' : Failure → Prop} {p : Program α} (h : p.Fails answers E)
    (hE : ∀ e, E e → E' e) : p.Fails answers E' := by
  induction p with
  | done r => exact fun e he => hE e (h e he)
  | call c next ih => exact fun r hr => ih r (h r hr)

theorem fails_pure (v : α) : (pure v : Program α).Fails answers E := fun _ he => by cases he

theorem fails_fail {e : Failure} (h : E e) : (fail e : Program α).Fails answers E :=
  fun _ he => Except.error.inj he ▸ h

theorem fails_call {c : Call} (h : ∀ e, answers ⟨c, .error e⟩ → E e) :
    (ofCall c).Fails answers E := by
  intro r hr e he
  subst he
  exact h e hr

theorem fails_bind {p : Program β} {f : β → Program α} (h : p.Fails answers E)
    (hf : ∀ v, (f v).Fails answers E) : (p >>= f).Fails answers E := by
  show (p.andThen f).Fails answers E
  induction p with
  | done r =>
    cases r with
    | error e => exact fun e' he => Except.error.inj he ▸ h e rfl
    | ok v => exact hf v
  | call c next ih => exact fun r hr => ih r (h r hr)

/-- Failures that are not passed on do not count. -/
theorem fails_recover {E' : Failure → Prop} {p : Program α} {f : Failure → Program α}
    (h : p.Fails answers E') (hf : ∀ e, E' e → (f e).Fails answers E) :
    (p.recover f).Fails answers E := by
  induction p with
  | done r =>
    cases r with
    | error e => exact hf e (h e rfl)
    | ok v => exact fun e he => by cases he
  | call c next ih => exact fun r hr => ih r (h r hr)

theorem Fails.keeps {p : Program α} (h : p.Fails answers E)
    (hmoves : ∀ x s s', moves x s s' → answers x) (s : ρ) :
    p.Keeps moves (fun _ => True) s fun r _ => ∀ e, r = .error e → E e := by
  induction p generalizing s with
  | done r => exact h
  | call c next ih => exact fun r s' hmove => ⟨trivial, ih r (h r (hmoves _ _ _ hmove)) s'⟩

end Program

/-! ### Runs at work -/

/-- The run has not come to its end. -/
def Service.isInRun (s : Service) : Bool :=
  match s.current with
  | some ⟨_, .call _ _⟩ => true
  | some ⟨_, .done (.ok (.walk _))⟩ => true
  | _ => false

namespace Chronicle

variable {σ ρ : Type} {w : Workplace σ} {c : Chronicle σ} {next : Nat → Event σ} {job : Job}
  {program : Program Next} {limit k : Nat}

/-- The run of the job is at work on this program. -/
structure Doing (w : Workplace σ) (c : Chronicle σ) (job : Job) (program : Program Next) :
    Prop where
  current_eq : (c.service w).current = some ⟨job.path, program⟩
  continues : ∃ job', (c.service w).jobs.get? job.path = some job' ∧ Service.Continues job job'

theorem Doing.program_eq {program' : Program Next} (h : c.Doing w job program)
    (h' : c.Doing w job program') : program' = program := by
  have hsame := h'.current_eq.symm.trans h.current_eq
  rw [Option.some.injEq, AtWork.mk.injEq] at hsame
  exact hsame.2

/-- The job goes on as long as its run is at work. -/
theorem Doing.continues_after (hw : w.Apart)
    (ho : (c.service w).Orderly limit c.accepted c.begun c.ended) (h : c.Doing w job program)
    {event : Event σ} (hended : (c.after w event).ended = c.ended) :
    ∃ job', ((c.after w event).service w).jobs.get? job.path = some job' ∧
      Service.Continues job job' := by
  obtain ⟨job₀, hjob₀, hcontinues₀⟩ := h.continues
  obtain ⟨job₁, hjob₁, -, hrunning⟩ := ho.get?_current h.current_eq
  obtain rfl := Option.some.inj (hjob₀.symm.trans hjob₁)
  have hkeeps := (orderly_after hw ho event).2
  rw [hended, List.drop_length] at hkeeps
  rcases hkeeps job.path job₀ hjob₀ hrunning with hend | ⟨job', hjob', hcontinues⟩
  · cases hend
  · exact ⟨job', hjob', hcontinues₀.trans hcontinues⟩

/-- What is not the work leaves the run at work. -/
theorem Doing.event (hw : w.Apart)
    (ho : (c.service w).Orderly limit c.accepted c.begun c.ended) (h : c.Doing w job program)
    {event : Event σ} (hne : event ≠ .work) : (c.after w event).Doing w job program := by
  obtain ⟨hcurrent, -, hended⟩ := after_of_ne_work hw c hne
  exact ⟨hcurrent.trans h.current_eq, h.continues_after hw ho hended⟩

/-- The run makes the next call of its program. -/
theorem Doing.call (hw : w.Apart)
    (ho : (c.service w).Orderly limit c.accepted c.begun c.ended) {call : Call}
    {follow : Except Failure call.Reply → Program Next} (h : c.Doing w job (.call call follow)) :
    (c.after w .work).state = w.withCurrent
        (some ⟨job.path, follow (w.perform job.path call c.state).result⟩)
        (w.perform job.path call c.state).state ∧
      (c.after w .work).ended = c.ended ∧
      (c.after w .work).Doing w job (follow (w.perform job.path call c.state).result) := by
  obtain ⟨hstate, hended⟩ := after_call hw h.current_eq
  refine ⟨hstate, hended, ?_, h.continues_after hw ho hended⟩
  rw [service, hstate, hw.service_withCurrent]

/-- A job that goes on has the same rounds. -/
theorem round_eq {job' : Job} (h : Service.Continues job job') : job'.round = job.round := by
  funext pageSize walk
  have hselects : job'.selects = job.selects := by
    funext file
    rw [Job.selects, Job.selects, h.filter_eq]
  have hfinish : job'.finishWalk pageSize walk = job.finishWalk pageSize walk := by
    rw [Job.finishWalk, Job.finishWalk, h.options_eq]
  rw [Job.round, Job.round]
  simp only [hselects, hfinish, h.options_eq]

/-- After a round that is not the last one the next round is at work. -/
theorem Doing.round (hw : w.Apart)
    (ho : (c.service w).Orderly limit c.accepted c.begun c.ended) {walk : Walk}
    (h : c.Doing w job (.done (.ok (.walk walk)))) :
    (c.after w .work).state =
        w.withCurrent (some ⟨job.path, job.round w.pages.pageSize walk⟩) c.state ∧
      (c.after w .work).ended = c.ended ∧
      (c.after w .work).Doing w job (job.round w.pages.pageSize walk) := by
  obtain ⟨job', hjob', hcontinues⟩ := h.continues
  have hstate : (c.after w .work).state =
      w.withCurrent (some ⟨job'.path, job'.round w.pages.pageSize walk⟩) c.state :=
    congrArg Outcome.state (hw.step_done h.current_eq hjob')
  rw [hcontinues.path_eq, round_eq hcontinues] at hstate
  have hservice : (c.after w .work).service w = _ :=
    (congrArg w.service.get hstate).trans (hw.service_withCurrent _ _)
  have hcurrent := congrArg Service.current hservice
  have hwaiting := congrArg Service.waiting hservice
  have hended := ended_of_at_work h.current_eq hcurrent rfl (hwaiting.trans rfl)
  exact ⟨hstate, hended, hcurrent, h.continues_after hw ho hended⟩

/-- The walk of the job is over, with this result. -/
def Over (w : Workplace σ) (c : Chronicle σ) (job : Job) (result : Except Failure Next) : Prop :=
  c.Doing w job (.done result) ∧ ∀ walk, result ≠ .ok (.walk walk)

/-- A run whose work is done ends as its job stands then. -/
theorem Doing.over (hw : w.Apart) (h : c.Doing w job (.done (.ok .over))) {job' : Job}
    (hjob : (c.service w).jobs.get? job.path = some job') (hpath : job'.path = job.path) :
    (c.after w .work).state =
        w.service.set ((c.service w).close job.path (Service.endState job')) c.state ∧
      (c.after w .work).ended = c.ended ++ [(job.path, Service.endState job')] := by
  have hstep := hw.step_done h.current_eq hjob
  have hstate : (c.after w .work).state =
      w.service.set ((c.service w).close job'.path (Service.endState job')) c.state :=
    congrArg Outcome.state hstep
  have hlog : (w.step c.state).log =
      [] ++ [⟨.info, Service.endingText job' (Service.endState job')⟩] := congrArg Outcome.log hstep
  rw [hpath] at hstate
  have hservice : (c.after w .work).service w = _ :=
    (congrArg w.service.get hstate).trans (hw.get_set _ _)
  exact ⟨hstate, ended_of_close h.current_eq rfl hpath (Service.endState_ne_running job') hservice
    (List.forall_mem_nil _) hlog⟩

/-- A run that fails as a whole, as file systems do, ends as failed. -/
theorem Doing.fails (hw : w.Apart) {e : Failure} (h : c.Doing w job (.done (.error e)))
    (he : e.isFileSystem) :
    (∃ service, (c.after w .work).state = w.service.set service c.state) ∧
      (c.after w .work).ended = c.ended ++ [(job.path, .failed)] := by
  obtain ⟨job', hjob, hcontinues⟩ := h.continues
  have hpath := hcontinues.path_eq
  have hstep := hw.step_done h.current_eq hjob
  have hgives : Service.afterRound w.pages.pageSize job' (.error e) =
      Service.giveUp job' e.message := by
    unfold Service.afterRound
    exact if_pos he
  rw [hgives] at hstep
  let failing : Service := (c.service w).change job'.path fun j =>
    { j with tally := { j.tally with error := e.message } }
  have hstate : (c.after w .work).state =
      w.service.set (failing.close job'.path .failed) c.state := congrArg Outcome.state hstep
  have hlog : (w.step c.state).log =
      [⟨.warn, "LocalLoadService: load of " ++ job'.path ++ " failed: " ++ e.message⟩] ++
        [⟨.info, Service.endingText job' .failed⟩] := congrArg Outcome.log hstep
  have hservice : (c.after w .work).service w = _ :=
    (congrArg w.service.get hstate).trans (hw.get_set _ _)
  -- Noting the error leaves the queue as it is.
  have hwaiting := (Service.change_frame (c.service w) job'.path fun j =>
    { j with tally := { j.tally with error := e.message } }).2.2.1
  rw [hpath] at hservice
  refine ⟨⟨_, hstate⟩, ended_of_close h.current_eq hwaiting hpath (by decide) hservice
    (List.forall_mem_singleton.2 fun hlevel => ?_) hlog⟩
  cases hlevel

/-- A run that fails as nobody expects stays where it is. -/
theorem Doing.breaksOff (hw : w.Apart) {reason : Bytes}
    (h : c.Doing w job (.done (.error (.logic reason)))) :
    (c.after w .work).state = c.state ∧ (c.after w .work).ended = c.ended := by
  obtain ⟨job', hjob, -⟩ := h.continues
  have hstate : (c.after w .work).state = w.service.set (c.service w) c.state :=
    congrArg Outcome.state (hw.step_done h.current_eq hjob)
  rw [service, hw.set_get] at hstate
  have hservice : (c.after w .work).service w = c.service w := congrArg w.service.get hstate
  refine ⟨hstate, ended_of_at_work h.current_eq ?_ rfl (congrArg Service.waiting hservice)⟩
  rw [hservice]
  exact h.current_eq

/-- The work has not got on since the walk of the job was over. -/
def Lasts (w : Workplace σ) (c : Chronicle σ) (next : Nat → Event σ) (job : Job) (k : Nat) :
    Prop := ∀ i < k, next i = .work → ∀ result, ¬ (c.upTo w next i).Over w job result

theorem Lasts.mono {i : Nat} (h : c.Lasts w next job k) (hik : i ≤ k) : c.Lasts w next job i :=
  fun j hj => h j (Nat.lt_of_lt_of_le hj hik)

theorem lasts_zero : c.Lasts w next job 0 := fun i hi => absurd hi (Nat.not_lt_zero i)

theorem Over.isInRun_eq {result : Except Failure Next} (h : c.Over w job result) :
    (c.service w).isInRun = false := by
  rw [Service.isInRun, h.1.current_eq]
  rcases result with e | _ | walk
  · rfl
  · rfl
  · exact absurd rfl (h.2 walk)

theorem Doing.exists_over (h : c.Doing w job program) (hends : (c.service w).isInRun = false) :
    ∃ result, c.Over w job result := by
  rw [Service.isInRun, h.current_eq] at hends
  rcases program with result | ⟨call, follow⟩
  · refine ⟨result, h, ?_⟩
    rintro walk rfl
    cases hends
  · cases hends

/-- The run lasts as long as there are calls to make, or rounds to begin. -/
theorem lasts_of_isInRun (h : ∀ i < k, ((c.upTo w next i).service w).isInRun) :
    c.Lasts w next job k := fun i hi _ _ hover =>
  absurd (h i hi) (Bool.eq_false_iff.1 hover.isInRun_eq)

/-- The run lasts with what is not the work. -/
theorem Lasts.event (h : c.Lasts w next job k) (hne : next k ≠ .work) :
    c.Lasts w next job (k + 1) := by
  intro i hi hwork
  rcases Nat.lt_succ_iff_lt_or_eq.1 hi with hlt | rfl
  · exact h i hlt hwork
  · exact absurd hwork hne

/-- The run lasts while it is at work on something else than its end. -/
theorem Lasts.work (h : c.Lasts w next job k) (hdoing : (c.upTo w next k).Doing w job program)
    (hgoes : ∀ result, program = .done result → ∃ walk, result = .ok (.walk walk)) :
    c.Lasts w next job (k + 1) := by
  intro i hi hwork result hover
  rcases Nat.lt_succ_iff_lt_or_eq.1 hi with hlt | rfl
  · exact h i hlt hwork result hover
  · obtain ⟨walk, rfl⟩ := hgoes result (hover.1.program_eq hdoing)
    exact hover.2 walk rfl

/-- What is known of the run of the job moves with its calls, and with nothing else. -/
structure Follows (w : Workplace σ) (c : Chronicle σ) (next : Nat → Event σ) (job : Job)
    (moves : Exchange → ρ → ρ → Prop) (view : Nat → ρ → Prop) : Prop where
  event : ∀ k s program, next k ≠ .work → (c.upTo w next k).Doing w job program → view k s →
    view (k + 1) s
  call : ∀ k s call follow, next k = .work →
    (c.upTo w next k).Doing w job (.call call follow) → view k s →
      ∃ s', moves ⟨call, (w.perform job.path call (c.upTo w next k).state).result⟩ s s' ∧
        view (k + 1) s'
  round : ∀ k s walk, next k = .work →
    (c.upTo w next k).Doing w job (.done (.ok (.walk walk))) → view k s → view (k + 1) s

namespace Follows

variable {moves : Exchange → ρ → ρ → Prop} {view : Nat → ρ → Prop} {J : ρ → Prop} {s : ρ}
  {Q : Except Failure Next → ρ → Prop}

section Rounds

variable (hf : c.Follows w next job moves view) (hw : w.Apart)
  (ho : (c.service w).Orderly limit c.accepted c.begun c.ended)
  (hround : ∀ walk s, Q (.ok (.walk walk)) s → J s →
    (job.round w.pages.pageSize walk).Keeps moves J s Q)
  (h : program.Keeps moves J s Q) (hJ : J s) (hdoing : c.Doing w job program) (hview : view 0 s)

include hf hw ho hround h hJ hdoing hview

/-- If each round that is come to keeps `J` and leads to the next one, `J` holds as long as the
    run lasts. -/
theorem keeps (hlasts : c.Lasts w next job k) :
    (c.upTo w next k).ended = c.ended ∧
      ∃ program' s', (c.upTo w next k).Doing w job program' ∧ view k s' ∧
        program'.Keeps moves J s' Q ∧ J s' := by
  induction k with
  | zero => exact ⟨rfl, program, s, hdoing, hview, h, hJ⟩
  | succ k ih =>
    obtain ⟨hended, program', s', hdoing', hview', h', hJ'⟩ := ih (hlasts.mono (Nat.le_succ k))
    have hok := orderly_upTo hw ho next k
    rw [upTo_succ]
    by_cases hwork : next k = .work
    · rcases program' with result | ⟨call, follow⟩
      · -- The program has come to its end, and as the run lasts, it was not the last one.
        obtain ⟨walk, rfl⟩ : ∃ walk, result = .ok (.walk walk) := by
          have hover := hlasts k (Nat.lt_succ_self k) hwork result
          simpa [Over, hdoing'] using hover
        have hview'' := hf.round k s' walk hwork hdoing' hview'
        obtain ⟨-, hended', hnext⟩ := hdoing'.round hw hok
        rw [hwork]
        exact ⟨hended'.trans hended, _, s', hnext, hview'', hround walk s' h' hJ', hJ'⟩
      · obtain ⟨s'', hmove, hview''⟩ := hf.call k s' call follow hwork hdoing' hview'
        obtain ⟨-, hended', hnext⟩ := hdoing'.call hw hok
        obtain ⟨hJ'', h''⟩ := h' _ s'' hmove
        rw [hwork]
        exact ⟨hended'.trans hended, _, s'', hnext, hview'', h'', hJ''⟩
    · have hview'' := hf.event k s' program' hwork hdoing' hview'
      exact ⟨(after_of_ne_work hw _ hwork).2.2.trans hended, program', s',
        hdoing'.event hw hok hwork, hview'', h', hJ'⟩

/-- A run of which no round is the last one is never over. -/
theorem never_over (hgoes : ∀ r s, Q r s → ∃ walk, r = .ok (.walk walk)) (k : Nat) :
    c.Lasts w next job k ∧ ∀ r, ¬ (c.upTo w next k).Over w job r := by
  have hnever : ∀ k, c.Lasts w next job k → ∀ r, ¬ (c.upTo w next k).Over w job r := by
    rintro k hlasts r ⟨hdone, hlast⟩
    obtain ⟨-, program', s', hdoing', -, h', -⟩ :=
      hf.keeps hw ho hround h hJ hdoing hview hlasts
    obtain rfl := hdone.program_eq hdoing'
    obtain ⟨walk, rfl⟩ := hgoes _ _ h'
    exact hlast walk rfl
  have hlasts : c.Lasts w next job k := by
    induction k with
    | zero => exact lasts_zero
    | succ k ih =>
      intro i hi _
      exact hnever i (ih.mono (Nat.le_of_lt_succ hi))
  exact ⟨hlasts, hnever k hlasts⟩

end Rounds

/-- Until the work gets on, the program at work is the same. -/
theorem exists_work (hf : c.Follows w next job moves view) (hw : w.Apart)
    (ho : (c.service w).Orderly limit c.accepted c.begun c.ended) (hwork : GetsOn next)
    (hdoing : (c.upTo w next k).Doing w job program) (hlasts : c.Lasts w next job k)
    (hview : view k s) :
    ∃ m, k ≤ m ∧ next m = .work ∧ c.Lasts w next job m ∧ (c.upTo w next m).Doing w job program ∧
      view m s ∧ (c.upTo w next m).ended = (c.upTo w next k).ended := by
  obtain ⟨m, hkm, hm⟩ := hwork k
  -- By induction on how long the work is waited for.
  induction hn : m - k generalizing k with
  | zero =>
    obtain rfl : k = m := by omega
    exact ⟨k, hkm, hm, hlasts, hdoing, hview, rfl⟩
  | succ n ih =>
    by_cases hk : next k = .work
    · exact ⟨k, Nat.le_refl k, hk, hlasts, hdoing, hview, rfl⟩
    have hdoing' := hdoing.event hw (orderly_upTo hw ho next k) hk
    have hended := (after_of_ne_work hw (c.upTo w next k) hk).2.2
    rw [← upTo_succ] at hdoing' hended
    obtain ⟨m', hkm', hm', hlasts', hdoing'', hview'', hended'⟩ :=
      ih hdoing' (hlasts.event hk) (hf.event k s program hk hdoing hview) (by omega) (by omega)
    exact ⟨m', by omega, hm', hlasts', hdoing'', hview'', hended'.trans hended⟩

/-- A program at work comes to its end. -/
theorem exists_done (hf : c.Follows w next job moves view) (hw : w.Apart)
    (ho : (c.service w).Orderly limit c.accepted c.begun c.ended) (hwork : GetsOn next)
    (h : program.Keeps moves J s Q) (hdoing : (c.upTo w next k).Doing w job program)
    (hlasts : c.Lasts w next job k) (hview : view k s) :
    ∃ m r s', k ≤ m ∧ next m = .work ∧ c.Lasts w next job m ∧
      (c.upTo w next m).Doing w job (.done r) ∧ view m s' ∧ Q r s' ∧
      (c.upTo w next m).ended = (c.upTo w next k).ended := by
  induction program generalizing k s with
  | done r =>
    obtain ⟨m, hkm, hm, hlasts', hdoing', hview', hended⟩ :=
      hf.exists_work hw ho hwork hdoing hlasts hview
    exact ⟨m, r, s, hkm, hm, hlasts', hdoing', hview', h, hended⟩
  | call call follow ih =>
    obtain ⟨m, hkm, hm, hlasts', hdoing', hview', hended⟩ :=
      hf.exists_work hw ho hwork hdoing hlasts hview
    -- The step makes the call, and what is left of the program goes on from there.
    obtain ⟨s', hmove, hview''⟩ := hf.call m s call follow hm hdoing' hview'
    obtain ⟨-, hended', hnext⟩ := hdoing'.call hw (orderly_upTo hw ho next m)
    rw [← hm, ← upTo_succ] at hended' hnext
    obtain ⟨m', r, s'', hmm', hm', hlasts'', hdone, hview₃, hQ, hended₃⟩ :=
      ih _ (h _ s' hmove).2 hnext (hlasts'.work hdoing' nofun) hview''
    exact ⟨m', r, s'', by omega, hm', hlasts'', hdone, hview₃, hQ,
      hended₃.trans (hended'.trans hended)⟩

/-- What holds after a round: with the next walk there is less to do than so much, and any
    other result is the end. -/
def AfterRound (Inv : Nat → Walk → ρ → Prop) (End : Except Failure Next → ρ → Prop)
    (bound : Nat) : Except Failure Next → ρ → Prop
  | .ok (.walk walk), s => ∃ n < bound, Inv n walk s
  | r, s => End r s

/-- A walk in which each round leaves less to do comes to its end. -/
theorem exists_over (hf : c.Follows w next job moves view) (hw : w.Apart)
    (ho : (c.service w).Orderly limit c.accepted c.begun c.ended) (hwork : GetsOn next)
    {Inv : Nat → Walk → ρ → Prop} {End : Except Failure Next → ρ → Prop} {bound : Nat}
    (hround : ∀ n walk s, Inv n walk s →
      (job.round w.pages.pageSize walk).Keeps moves J s (AfterRound Inv End n))
    (h : program.Keeps moves J s (AfterRound Inv End bound))
    (hdoing : (c.upTo w next k).Doing w job program) (hlasts : c.Lasts w next job k)
    (hview : view k s) :
    ∃ m r s', k ≤ m ∧ next m = .work ∧ c.Lasts w next job m ∧ (c.upTo w next m).Over w job r ∧
      view m s' ∧ End r s' ∧ (c.upTo w next m).ended = (c.upTo w next k).ended := by
  -- By induction on what is left to do.
  induction bound using Nat.strong_induction_on generalizing k program s with
  | _ bound ih =>
  obtain ⟨m, r, s', hkm, hm, hlasts', hdone, hview', hQ, hended⟩ :=
    hf.exists_done hw ho hwork h hdoing hlasts hview
  rcases r with e | _ | walk
  · exact ⟨m, _, s', hkm, hm, hlasts', ⟨hdone, nofun⟩, hview', hQ, hended⟩
  · exact ⟨m, _, s', hkm, hm, hlasts', ⟨hdone, nofun⟩, hview', hQ, hended⟩
  · obtain ⟨n, hlt, hinv⟩ := hQ
    have hview'' := hf.round m s' walk hm hdone hview'
    obtain ⟨-, hended', hnext⟩ := hdone.round hw (orderly_upTo hw ho next m)
    rw [← hm, ← upTo_succ] at hended' hnext
    have hgoes : c.Lasts w next job (m + 1) := hlasts'.work hdone fun result hresult => by
      cases hresult
      exact ⟨walk, rfl⟩
    obtain ⟨m', r, s'', hmm', hm', hlasts'', hover, hview₃, hend, hended''⟩ :=
      ih n hlt (hround n walk s' hinv) hnext hgoes hview''
    exact ⟨m', r, s'', by omega, hm', hlasts'', hover, hview₃, hend,
      hended''.trans (hended'.trans hended)⟩

end Follows

end Chronicle

end PageServer.Load
