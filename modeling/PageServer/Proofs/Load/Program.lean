import PageServer.Proofs.Load.Chronicle

/-!
# Programs of loads among other events

A program that is at work makes one call a step, and other things happen between its calls.
It *yields* a postcondition if it ends with a value, not with a failure, and the value and
the state then satisfy the postcondition, whatever happens in between, as long as this is
what the program may rely on (`Program.Yields`). There is one rule for each way to put
programs together.

In a chronicle in which only such things happen, and the work gets on again and again, a
program that is at work comes to its end with what it yields (`Chronicle.exists_done`).
-/

namespace PageServer.Load

/-! ### What a program yields -/

namespace Program

variable {σ α β : Type} {perform : (c : Call) → Act σ c.Reply} {rely : σ → σ → Prop}

/-- The program ends with a value that satisfies the postcondition together with the state
    then, if in front of each of its calls only something happens that it may rely on. -/
def Yields (perform : (c : Call) → Act σ c.Reply) (rely : σ → σ → Prop) :
    Program α → σ → (α → σ → Prop) → Prop
  | done r, s, Q => ∃ v, r = .ok v ∧ Q v s
  | call c next, s, Q =>
    ∀ s', rely s s' → (next (perform c s').result).Yields perform rely (perform c s').state Q

variable {s : σ} {Q R : α → σ → Prop}

theorem Yields.mono {p : Program α} (h : p.Yields perform rely s Q)
    (hQR : ∀ v s', Q v s' → R v s') : p.Yields perform rely s R := by
  induction p generalizing s with
  | done r =>
    obtain ⟨v, hv, hQ⟩ := h
    exact ⟨v, hv, hQR v s hQ⟩
  | call c next ih => exact fun s' hs' => ih _ (h s' hs')

theorem yields_pure {v : α} (h : Q v s) : (pure v : Program α).Yields perform rely s Q :=
  ⟨v, rfl, h⟩

theorem yields_bind {p : Program β} {f : β → Program α}
    (h : p.Yields perform rely s fun v s' => (f v).Yields perform rely s' Q) :
    (p >>= f).Yields perform rely s Q := by
  show (p.andThen f).Yields perform rely s Q
  induction p generalizing s with
  | done r =>
    obtain ⟨v, rfl, hv⟩ := h
    exact hv
  | call c next ih => exact fun s' hs' => ih _ (h s' hs')

theorem yields_call {c : Call} {Q : c.Reply → σ → Prop}
    (h : ∀ s', rely s s' → (perform c).Yields s' Q) : (ofCall c).Yields perform rely s Q := h

/-- Where nothing fails, nothing is recovered from. -/
theorem yields_recover {p : Program α} {f : Failure → Program α} (h : p.Yields perform rely s Q) :
    (p.recover f).Yields perform rely s Q := by
  induction p generalizing s with
  | done r =>
    obtain ⟨v, rfl, hv⟩ := h
    exact ⟨v, rfl, hv⟩
  | call c next ih => exact fun s' hs' => ih _ (h s' hs')

end Program

/-! ### Steps of the work -/

namespace Workplace

variable {σ : Type} {w : Workplace σ} {x : σ} {path : Bytes}

/-- The state with another run at work. -/
def withCurrent (w : Workplace σ) (work : Option AtWork) (x : σ) : σ :=
  w.service.set { w.service.get x with current := work } x

namespace Apart

theorem service_withCurrent (hw : w.Apart) (work : Option AtWork) (x : σ) :
    w.service.get (w.withCurrent work x) = { w.service.get x with current := work } :=
  hw.get_set _ x

/-- A program at work makes its next call. -/
theorem step_call (hw : w.Apart) {c : Call} {next : Except Failure c.Reply → Program Next}
    (h : (w.service.get x).current = some ⟨path, .call c next⟩) :
    (w.step x).state =
      w.withCurrent (some ⟨path, next (w.perform path c x).result⟩) (w.perform path c x).state := by
  rw [Workplace.step, hw.step_eq]
  simp only [h]
  rfl

/-- After a program has ended, what follows the end of a round. -/
theorem step_done (hw : w.Apart) {result : Except Failure Next} {job : Job}
    (h : (w.service.get x).current = some ⟨path, .done result⟩)
    (hjob : (w.service.get x).jobs.get? path = some job) :
    w.step x = Act.within w.service (Service.afterRound w.pages.pageSize job result) x := by
  rw [Workplace.step, hw.step_eq]
  simp only [h, hjob]

/-- A run begins. -/
theorem step_start (hw : w.Apart) {rest : List Bytes} {job : Job}
    (hcurrent : (w.service.get x).current = none)
    (hwaiting : (w.service.get x).waiting = path :: rest)
    (hjob : (w.service.get x).jobs.get? path = some job) (hgo : job.cancelled = false) :
    (w.step x).state = w.service.set { w.service.get x with
      waiting := rest, current := some ⟨job.path, job.begin w.pages.pageSize⟩ } x := by
  rw [Workplace.step, hw.step_eq]
  simp only [hcurrent, hwaiting, hjob, Act.within, Service.start, hgo]
  rfl

end Apart

end Workplace

/-! ### Chronicles of events to come -/

namespace Chronicle

variable {σ : Type} {w : Workplace σ} {c : Chronicle σ} {next : Nat → Event σ}
  {rely : σ → σ → Prop} {path : Bytes} {k : Nat}

/-- The chronicle after so many of the events to come. -/
def upTo (w : Workplace σ) (c : Chronicle σ) (next : Nat → Event σ) (k : Nat) : Chronicle σ :=
  c.run w ((List.range k).map next)

@[simp]
theorem upTo_zero (w : Workplace σ) (c : Chronicle σ) (next : Nat → Event σ) :
    c.upTo w next 0 = c := rfl

theorem upTo_succ (w : Workplace σ) (c : Chronicle σ) (next : Nat → Event σ) (k : Nat) :
    c.upTo w next (k + 1) = (c.upTo w next k).after w (next k) := run_range_succ c next k

/-- The jobs are orderly after all that happens. -/
theorem orderly_upTo {limit : Nat} (hw : w.Apart)
    (h : (c.service w).Orderly limit c.accepted c.begun c.ended) (next : Nat → Event σ) (k : Nat) :
    ((c.upTo w next k).service w).Orderly limit (c.upTo w next k).accepted
      (c.upTo w next k).begun (c.upTo w next k).ended := orderly_run hw h _

/-- The work gets on again and again. -/
def GetsOn (next : Nat → Event σ) : Prop := ∀ k, ∃ m, k ≤ m ∧ next m = .work

/-- What happens around the work is what it may rely on, and so is what the work itself puts
    down of how far it is. -/
structure Reliable (w : Workplace σ) (c : Chronicle σ) (next : Nat → Event σ)
    (rely : σ → σ → Prop) : Prop where
  refl : ∀ x, rely x x
  trans : ∀ x y z, rely x y → rely y z → rely x z
  withCurrent : ∀ x work, rely x (w.withCurrent work x)
  event : ∀ k, next k ≠ .work → rely (c.upTo w next k).state (c.upTo w next (k + 1)).state

/-- Only the work changes how far it is. -/
theorem after_of_ne_work (hw : w.Apart) (c : Chronicle σ) {event : Event σ} (h : event ≠ .work) :
    ((c.after w event).service w).current = (c.service w).current ∧
      (c.service w).waiting <+: ((c.after w event).service w).waiting ∧
      (c.after w event).ended = c.ended := by
  cases event with
  | load path o =>
    rw [service_load hw]
    exact ⟨Service.current_load path o _, Service.waiting_load path o _, rfl⟩
  | work => exact absurd rfl h
  | world x =>
    have hservice : (c.after w (.world x)).service w = c.service w := hw.get_set _ _
    rw [hservice]
    exact ⟨rfl, List.prefix_refl _, rfl⟩

/-- Until the work gets on, only something happens that it may rely on. -/
theorem exists_work (hw : w.Apart) (hrely : c.Reliable w next rely) (hwork : GetsOn next)
    (k : Nat) : ∃ m, k ≤ m ∧ next m = .work ∧
      rely (c.upTo w next k).state (c.upTo w next m).state ∧
      ((c.upTo w next m).service w).current = ((c.upTo w next k).service w).current ∧
      ((c.upTo w next k).service w).waiting <+: ((c.upTo w next m).service w).waiting ∧
      (c.upTo w next m).ended = (c.upTo w next k).ended := by
  obtain ⟨m, hkm, hm⟩ := hwork k
  -- By induction on how long the work is waited for.
  induction hn : m - k generalizing k with
  | zero =>
    obtain rfl : k = m := by omega
    exact ⟨k, hkm, hm, hrely.refl _, rfl, List.prefix_refl _, rfl⟩
  | succ n ih =>
    by_cases hk : next k = .work
    · exact ⟨k, Nat.le_refl k, hk, hrely.refl _, rfl, List.prefix_refl _, rfl⟩
    obtain ⟨m', hkm', hm', hrelies, hcurrent, hwaiting, hended⟩ := ih (k + 1) (by omega) (by omega)
    obtain ⟨hcurrent₀, hwaiting₀, hended₀⟩ := after_of_ne_work hw (c.upTo w next k) hk
    rw [← upTo_succ] at hcurrent₀ hwaiting₀ hended₀
    exact ⟨m', by omega, hm', hrely.trans _ _ _ (hrely.event k hk) hrelies,
      hcurrent.trans hcurrent₀, hwaiting₀.trans hwaiting, hended.trans hended₀⟩

/-- As long as a run is at work, it does not end. -/
theorem ended_of_at_work {work work' : AtWork} (h : (c.service w).current = some work)
    (h' : ((c.after w .work).service w).current = some work') (hpath : work'.path = work.path)
    (hwaiting : ((c.after w .work).service w).waiting = (c.service w).waiting) :
    (c.after w .work).ended = c.ended := by
  have hgoes : (c.service w).endedIn ((c.after w .work).service w) (w.step c.state).log = [] := by
    refine Service.endedIn_of_at_work ?_ _
    rw [Service.begunIn_of_waiting_eq hwaiting, h, h', List.append_nil, Option.map_some,
      Option.map_some, hpath]
  exact (congrArg (c.ended ++ ·) hgoes).trans (List.append_nil _)

/-- A run that is closed ends in the state that its record tells. -/
theorem ended_of_close {work : AtWork} (h : (c.service w).current = some work) {s : Service}
    (hwaiting : s.waiting = (c.service w).waiting) {job : Job} (hpath : job.path = work.path)
    {st : JobState} (hst : st ≠ .running)
    (hservice : (c.after w .work).service w = s.close work.path st) {warnings : List Log.Record}
    (hwarnings : ∀ record ∈ warnings, record.level ≠ .info)
    (hlog : (w.step c.state).log = warnings ++ [⟨.info, Service.endingText job st⟩]) :
    (c.after w .work).ended = c.ended ++ [(work.path, st)] := by
  obtain ⟨hnone, hrest⟩ := Service.close_frame s work.path st
  have hbegun : (c.service w).begunIn ((c.after w .work).service w) = [] :=
    Service.begunIn_of_waiting_eq (by rw [hservice, hrest, hwaiting])
  have hends : (c.service w).endedIn ((c.after w .work).service w) (w.step c.state).log =
      [(work.path, st)] := by
    refine Service.endedIn_of_end ?_ (by rw [hservice, hnone]) ?_
    · rw [hbegun, h]
      rfl
    · rw [hlog]
      exact Service.endSaid_of_endingText hwarnings hpath hst
  exact congrArg (c.ended ++ ·) hends

/-- A program at work makes its next call, and its run does not end. -/
theorem after_call (hw : w.Apart) {call : Call} {follow : Except Failure call.Reply → Program Next}
    (h : (c.service w).current = some ⟨path, .call call follow⟩) :
    (c.after w .work).state =
        w.withCurrent (some ⟨path, follow (w.perform path call c.state).result⟩)
          (w.perform path call c.state).state ∧
      (c.after w .work).ended = c.ended := by
  have hstate := hw.step_call h
  have hservice : (c.after w .work).service w = _ :=
    (congrArg w.service.get hstate).trans (hw.service_withCurrent _ _)
  exact ⟨hstate, ended_of_at_work h (congrArg Service.current hservice) rfl
    ((congrArg Service.waiting hservice).trans (hw.retold_perform path call c.state).frame.2)⟩

/-- A program at work comes to its end with what it yields. -/
theorem exists_done (hw : w.Apart) (hrely : c.Reliable w next rely) (hwork : GetsOn next)
    {prog : Program Next} {Q : Next → σ → Prop} (hQ : ∀ v x y, Q v x → rely x y → Q v y) {x : σ}
    (h : prog.Yields (w.perform path) rely x Q) (hx : rely x (c.upTo w next k).state)
    (hcurrent : ((c.upTo w next k).service w).current = some ⟨path, prog⟩) :
    ∃ m v, next m = .work ∧ (c.upTo w next m).ended = (c.upTo w next k).ended ∧
      ((c.upTo w next m).service w).current = some ⟨path, .done (.ok v)⟩ ∧
      Q v (c.upTo w next m).state := by
  induction prog generalizing k x with
  | done r =>
    obtain ⟨v, rfl, hv⟩ := h
    obtain ⟨m, -, hm, hrelies, hcurrent', -, hended⟩ := exists_work hw hrely hwork k
    exact ⟨m, v, hm, hended, hcurrent'.trans hcurrent, hQ v _ _ hv (hrely.trans _ _ _ hx hrelies)⟩
  | call call follow ih =>
    obtain ⟨m, -, hm, hrelies, hcurrent', -, hended⟩ := exists_work hw hrely hwork k
    obtain ⟨hstate, hended₁⟩ := after_call hw (hcurrent'.trans hcurrent)
    rw [← hm, ← upTo_succ] at hstate hended₁
    obtain ⟨m', v, hm', hended', hdone, hv⟩ := ih _ (k := m + 1)
      (h _ (hrely.trans _ _ _ hx hrelies)) (hstate ▸ hrely.withCurrent _ _)
      (by rw [service, hstate, hw.service_withCurrent])
    exact ⟨m', v, hm', hended'.trans (hended₁.trans hended), hdone, hv⟩

end Chronicle

end PageServer.Load
