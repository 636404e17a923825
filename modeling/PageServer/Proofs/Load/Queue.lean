import PageServer.Proofs.Load.Program

/-!
# Loads that wait for their turns

A load that was accepted waits behind those that were accepted before, and nothing that
happens meanwhile changes its job, unless it tells this one to stop. With each run that
begins the load comes closer to its turn, as no load comes in front of it
(`Chronicle.waits_after`).
-/

namespace PageServer.Load

namespace Service

variable {s s' : Service} {path : Bytes} {o : LoadOptions} {limit : Nat}
  {accepted begun : List Bytes} {ended : List (Bytes × JobState)} {log : List Log.Record}

/-- How many loads come before the one of a path. -/
def ahead (s : Service) (path : Bytes) : Nat := s.waiting.idxOf path

/-- The run at work is not that of a path that waits. -/
theorem Consistent.not_runs_of_waiting (h : Consistent limit s accepted begun ended)
    (hwaits : path ∈ s.waiting) : ¬ s.Runs path := by
  rintro ⟨work, hcurrent, rfl⟩
  have hnodup := h.nodup_active
  rw [active, hcurrent] at hnodup
  exact (List.nodup_cons.1 hnodup).1 hwaits

theorem ahead_load (hwaits : path ∈ s.waiting) (p : Bytes) (o : LoadOptions) :
    path ∈ (load p o s).state.waiting ∧ (load p o s).state.ahead path = s.ahead path := by
  obtain ⟨more, hmore⟩ := waiting_load p o s
  rw [ahead, ← hmore, List.idxOf_append_of_mem hwaits]
  exact ⟨List.mem_append_left _ hwaits, rfl⟩

/-- A step of the work begins the run of the path, or the load goes on waiting. Then one that
    was ahead of it has begun if no run was at work. -/
theorem Orderly.ahead_turn (h : Orderly limit s accepted begun ended) (hturn : Turn s log s')
    (hwaits : path ∈ s.waiting) :
    (s.current = none ∧ ∃ rest, s.waiting = path :: rest) ∨
      path ∈ s'.waiting ∧ s'.ahead path ≤ s.ahead path ∧
        (s.current = none → s'.ahead path < s.ahead path) := by
  have hwaiting := (h.conserved (h.turn hturn).1).1
  rcases hturn.begunIn_cases with ⟨hnone, hidle⟩ | ⟨p, job, hcurrent, hbegun, -⟩
  · rw [hnone, List.nil_append] at hwaiting
    refine .inr ⟨hwaiting ▸ hwaits, ?_, fun hcurrent => ?_⟩
    · rw [ahead, ahead, hwaiting]
    · rw [hidle hcurrent] at hwaits
      cases hwaits
  · rw [hbegun, List.singleton_append] at hwaiting
    by_cases hp : p = path
    · exact .inl ⟨hcurrent, s'.waiting, hp ▸ hwaiting⟩
    · have hahead : s.ahead path = s'.ahead path + 1 := by
        rw [ahead, hwaiting, List.idxOf_cons_ne _ hp, ahead]
      rw [hwaiting] at hwaits
      exact .inr ⟨(List.mem_cons.1 hwaits).resolve_left (Ne.symm hp), by omega, fun _ => by omega⟩

end Service

namespace Chronicle

variable {σ : Type} {w : Workplace σ} {c : Chronicle σ} {limit : Nat} {path : Bytes} {job : Job}
  {event : Event σ}

/-- Its turn has come: no run is at work, and the load is the first of those that wait. -/
def IsTurn (w : Workplace σ) (c : Chronicle σ) (path : Bytes) : Prop :=
  (c.service w).current = none ∧ ∃ rest, (c.service w).waiting = path :: rest

/-- A running job is left as it is by what happens, unless it is told to stop or its run is at
    work. -/
theorem job_after (hw : w.Apart) (h : (c.service w).Orderly limit c.accepted c.begun c.ended)
    (hjob : (c.service w).jobs.get? path = some job) (hrunning : job.state = .running)
    (hgo : job.cancelled = false)
    (hstop : ∀ o, event = .load path o → o.operation.getD .submit ≠ .stop)
    (hruns : event = .work → ¬ (c.service w).Runs path) :
    ((c.after w event).service w).jobs.get? path = some job := by
  cases event with
  | load p o =>
    rw [service_load hw]
    refine Service.get?_load hjob hrunning ?_
    rintro rfl
    exact hstop o rfl
  | work => exact (hw.turn h.toConsistent).get?_eq h (hruns rfl) hjob hrunning hgo
  | world x =>
    have hservice : (c.after w (.world x)).service w = c.service w := hw.get_set _ _
    rw [hservice, hjob]

/-- Whatever happens, a load that waits goes on waiting, and its path ends no run, unless it
    is its turn and the work begins its run. It comes closer to its turn when the work gets
    on with no run. -/
theorem waits_after (hw : w.Apart) (h : (c.service w).Orderly limit c.accepted c.begun c.ended)
    (hwaits : path ∈ (c.service w).waiting) (event : Event σ) :
    (event = .work ∧ c.IsTurn w path) ∨
      path ∈ ((c.after w event).service w).waiting ∧
        ((c.after w event).service w).ahead path ≤ (c.service w).ahead path ∧
        (event = .work → (c.service w).current = none →
          ((c.after w event).service w).ahead path < (c.service w).ahead path) ∧
        ∃ others, (c.after w event).ended = c.ended ++ others ∧ path ∉ others.map (·.1) := by
  cases event with
  | load p o =>
    obtain ⟨hmem, hahead⟩ := Service.ahead_load hwaits p o
    rw [service_load hw]
    exact .inr ⟨hmem, Nat.le_of_eq hahead, (fun hwork => by cases hwork),
      [], (List.append_nil _).symm, List.not_mem_nil⟩
  | work =>
    have hturn := hw.turn h.toConsistent
    -- The step begins the first run that waits, which may be this one.
    rcases h.ahead_turn hturn hwaits with hturn' | ⟨hmem, hle, hlt⟩
    · exact .inl ⟨rfl, hturn'⟩
    · exact .inr ⟨hmem, hle, fun _ => hlt, _, rfl,
        h.not_mem_endedIn hturn (List.mem_append_right _ hmem)⟩
  | world x =>
    have hservice : (c.after w (.world x)).service w = c.service w := hw.get_set _ _
    rw [hservice]
    exact .inr ⟨hwaits, Nat.le_refl _, (fun hwork => by cases hwork),
      [], (List.append_nil _).symm, List.not_mem_nil⟩

end Chronicle

end PageServer.Load
