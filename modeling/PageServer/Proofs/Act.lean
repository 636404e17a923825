import PageServer.Act

/-!
# What an action yields

An action *ends* in two postconditions from a state if the value that it ends with
satisfies the first one, or the failure the second one, together with the state after
it (`Act.Ends`). It *yields* a postcondition if it ends with a value, not with a
failure, and the value and the state after it satisfy the postcondition
(`Act.Yields`). An action *leaves* what is seen of the state if this is the same after it,
however it ends (`Act.Leaves`). There is one rule for each way to put actions together;
what an action records in the log does not matter to them.
-/

namespace PageServer

/-! ### Reported values -/

namespace Reported

variable {α β : Type}

@[simp]
theorem value_pure (a : α) : (pure a : Reported α).value = a := rfl

@[simp]
theorem value_bind (r : Reported β) (f : β → Reported α) :
    (r >>= f).value = (f r.value).value := rfl

end Reported

/-! ### Values or failures, without a state -/

section Except

variable {ε α β : Type} {x : Except ε β} {f : β → Except ε α}

theorem bind_eq_ok_iff {v : α} : x >>= f = .ok v ↔ ∃ w, x = .ok w ∧ f w = .ok v := by
  rcases x with e | w
  · exact iff_of_false nofun fun ⟨_, h, _⟩ => nomatch h
  · exact ⟨fun h => ⟨w, rfl, h⟩, fun ⟨_, hw, h⟩ => Except.ok.inj hw ▸ h⟩

theorem bind_eq_error_iff {e : ε} :
    x >>= f = .error e ↔ x = .error e ∨ ∃ w, x = .ok w ∧ f w = .error e := by
  rcases x with e' | w
  · exact ⟨fun h => .inl (Except.error.inj h ▸ rfl),
      fun h => h.elim (fun h => Except.error.inj h ▸ rfl) fun ⟨_, h, _⟩ => nomatch h⟩
  · exact ⟨fun h => .inr ⟨w, rfl, h⟩,
      fun h => h.elim nofun fun ⟨_, hw, h⟩ => Except.ok.inj hw ▸ h⟩

end Except

/-! ### Actions -/

namespace Act

variable {σ τ α β : Type} {s : σ} {Q R : α → σ → Prop}

/-- The action ends with a value that satisfies `Q` together with the state
    after it. -/
def Yields (a : Act σ α) (s : σ) (Q : α → σ → Prop) : Prop :=
  ∃ v, (a s).result = .ok v ∧ Q v (a s).state

theorem Yields.mono {a : Act σ α} (h : a.Yields s Q) (hQR : ∀ v s', Q v s' → R v s') :
    a.Yields s R := by
  obtain ⟨v, hv, hQ⟩ := h
  exact ⟨v, hv, hQR v _ hQ⟩

theorem yields_pure {v : α} (h : Q v s) : (pure v : Act σ α).Yields s Q := ⟨v, rfl, h⟩

theorem bind_of_ok {a : Act σ β} {f : β → Act σ α} {v : β} (h : (a s).result = .ok v) :
    (a >>= f) s = ⟨(f v (a s).state).result, (f v (a s).state).state,
      (a s).log ++ (f v (a s).state).log⟩ := by
  show andThen a f s = _
  rw [andThen]
  rcases ha : a s with ⟨r, s', log⟩
  rw [ha] at h
  cases h
  rfl

theorem bind_of_error {a : Act σ β} {f : β → Act σ α} {e : Failure} (h : (a s).result = .error e) :
    (a >>= f) s = ⟨.error e, (a s).state, (a s).log⟩ := by
  show andThen a f s = _
  rw [andThen]
  rcases ha : a s with ⟨r, s', log⟩
  rw [ha] at h
  cases h
  rfl

theorem yields_bind {a : Act σ β} {f : β → Act σ α}
    (h : a.Yields s fun v s' => (f v).Yields s' Q) : (a >>= f).Yields s Q := by
  obtain ⟨v, hv, w, hw, hQ⟩ := h
  rw [Yields, bind_of_ok hv]
  exact ⟨w, hw, hQ⟩

theorem yields_report {r : Reported α} (h : Q r.value s) : (report r).Yields s Q := ⟨_, rfl, h⟩

theorem yields_record {level : Log.Level} {message : Bytes} {Q : Unit → σ → Prop} (h : Q () s) :
    (record level message).Yields s Q := ⟨(), rfl, h⟩

theorem yields_get {Q : σ → σ → Prop} (h : Q s s) : get.Yields s Q := ⟨s, rfl, h⟩

theorem yields_modify {f : σ → σ} {Q : Unit → σ → Prop} (h : Q () (f s)) :
    (modify f).Yields s Q := ⟨(), rfl, h⟩

theorem yields_attempt {a : Act σ α} {Q : Except Failure α → σ → Prop}
    (h : Q (a s).result (a s).state) : a.attempt.Yields s Q := ⟨_, rfl, h⟩

theorem result_recover_of_ok {a : Act σ α} {f : Failure → Act σ α} {v : α}
    (h : (a s).result = .ok v) : (a.recover f s).result = .ok v := by
  rcases ha : a s with ⟨r, s', log⟩
  rw [ha] at h
  cases h
  rw [recover, ha]

theorem result_recover_of_error {a : Act σ α} {f : Failure → Act σ α} {e : Failure}
    (h : (a s).result = .error e) : (a.recover f s).result = (f e (a s).state).result := by
  rcases ha : a s with ⟨r, s', log⟩
  rw [ha] at h
  cases h
  rw [recover, ha]

theorem yields_within {part : Part σ τ} {a : Act τ α}
    (h : a.Yields (part.get s) fun v t => Q v (part.set t s)) : (within part a).Yields s Q := h

theorem yields_ofExcept {r : Except Failure α} {v : α} (hr : r = .ok v) (h : Q v s) :
    (ofExcept r).Yields s Q := ⟨v, hr, h⟩

/-! ### Values and failures -/

/-- The action ends with a value that satisfies `Q`, or with a failure that satisfies
    `E`, together with the state after it. -/
def Ends (a : Act σ α) (s : σ) (Q : α → σ → Prop) (E : Failure → σ → Prop) : Prop :=
  match (a s).result with
  | .ok v => Q v (a s).state
  | .error e => E e (a s).state

section Ends

variable {E F : Failure → σ → Prop}

theorem Ends.mono {a : Act σ α} (h : a.Ends s Q E) (hQR : ∀ v s', Q v s' → R v s')
    (hEF : ∀ e s', E e s' → F e s') : a.Ends s R F := by
  rw [Ends] at h ⊢
  split at h
  · exact hQR _ _ h
  · exact hEF _ _ h

/-- How an action fails is all that matters if nothing is said of its value. -/
theorem ends_of_error {a : Act σ α} {E : Failure → Prop} (h : ∀ e, (a s).result = .error e → E e) :
    a.Ends s (fun _ _ => True) fun e _ => E e := by
  rw [Ends]
  split
  · trivial
  · next e he => exact h e he

theorem Yields.ends {a : Act σ α} (h : a.Yields s Q) : a.Ends s Q E := by
  obtain ⟨v, hv, hQ⟩ := h
  rw [Ends, hv]
  exact hQ

theorem Ends.yields {a : Act σ α} (h : a.Ends s Q E) (hE : ∀ e s', ¬ E e s') : a.Yields s Q := by
  rw [Ends] at h
  split at h
  · next v hv => exact ⟨v, hv, h⟩
  · exact absurd h (hE _ _)

/-- What an action results in is how it ends. -/
theorem result_eq_iff {a : Act σ α} {r : Except Failure α} :
    (a s).result = r ↔ a.Ends s (fun v _ => r = .ok v) fun e _ => r = .error e := by
  rw [Ends]
  split
  · next v hv => rw [hv, eq_comm]
  · next e he => rw [he, eq_comm]

theorem ends_pure {v : α} (h : Q v s) : (pure v : Act σ α).Ends s Q E := h

theorem ends_throw {e : Failure} (h : E e s) : (throw e : Act σ α).Ends s Q E := h

theorem ends_bind {a : Act σ β} {f : β → Act σ α} (h : a.Ends s (fun v s' => (f v).Ends s' Q E) E) :
    (a >>= f).Ends s Q E := by
  rw [Ends] at h
  split at h
  · next v hv =>
    rw [Ends, bind_of_ok hv]
    exact h
  · next e he =>
    rw [Ends, bind_of_error he]
    exact h

theorem ends_ofExcept {r : Except Failure α} (hQ : ∀ v, r = .ok v → Q v s)
    (hE : ∀ e, r = .error e → E e s) : (ofExcept r).Ends s Q E := by
  cases r with
  | ok v => exact hQ v rfl
  | error e => exact hE e rfl

theorem ends_recover {a : Act σ α} {f : Failure → Act σ α}
    (h : a.Ends s Q fun e s' => (f e).Ends s' Q E) : (a.recover f).Ends s Q E := by
  rw [Ends] at h ⊢
  rcases ha : a s with ⟨r, s', log⟩
  rw [ha] at h
  simp only [recover, ha]
  cases r <;> exact h

theorem ends_within {part : Part σ τ} {a : Act τ α}
    (h : a.Ends (part.get s) (fun v t => Q v (part.set t s)) fun e t => E e (part.set t s)) :
    (within part a).Ends s Q E := h

theorem yields_recover {a : Act σ α} {f : Failure → Act σ α}
    (h : a.Ends s Q fun e s' => (f e).Yields s' Q) : (a.recover f).Yields s Q :=
  (ends_recover (E := fun _ _ => False) (h.mono (fun _ _ => id) fun _ _ hf => hf.ends)).yields
    fun _ _ => id

end Ends

/-! ### What is left as it is -/

section Leaves

variable {ρ : Type} {view : σ → ρ} {E : Failure → σ → Prop}

/-- What is seen of the state is the same after the action. -/
def Leaves (view : σ → ρ) (a : Act σ α) : Prop := ∀ s, view (a s).state = view s

theorem leaves_pure (v : α) : Leaves view (pure v : Act σ α) := fun _ => rfl

theorem leaves_throw (e : Failure) : Leaves view (throw e : Act σ α) := fun _ => rfl

theorem leaves_get : Leaves view (get : Act σ σ) := fun _ => rfl

theorem leaves_record (level : Log.Level) (message : Bytes) :
    Leaves view (record level message : Act σ Unit) := fun _ => rfl

theorem leaves_ofExcept (r : Except Failure α) : Leaves view (ofExcept r : Act σ α) := fun _ => rfl

theorem leaves_bind {a : Act σ β} {f : β → Act σ α} (ha : Leaves view a)
    (hf : ∀ v, Leaves view (f v)) : Leaves view (a >>= f) := by
  intro s
  rcases hresult : (a s).result with e | v
  · rw [bind_of_error hresult]
    exact ha s
  · rw [bind_of_ok hresult]
    exact (hf v _).trans (ha s)

theorem leaves_attempt {a : Act σ α} (h : Leaves view a) : Leaves view a.attempt := h

theorem leaves_recover {a : Act σ α} {f : Failure → Act σ α} (ha : Leaves view a)
    (hf : ∀ e, Leaves view (f e)) : Leaves view (a.recover f) := by
  intro s
  have hleft := ha s
  rcases hrun : a s with ⟨e | v, s', log⟩ <;> rw [hrun] at hleft
  · rw [recover, hrun]
    exact (hf e s').trans hleft
  · rw [recover, hrun]
    exact hleft

/-- What is seen of the state does not depend on the part that is worked on. -/
theorem leaves_within {part : Part σ τ} (h : ∀ t s, view (part.set t s) = view s) (a : Act τ α) :
    Leaves view (within part a) := fun s => h _ s

/-- How an action ends that leaves what is seen of the state. -/
theorem Ends.leaves {a : Act σ α} (h : a.Ends s Q E) (hleaves : Leaves view a) :
    a.Ends s (fun v s' => Q v s' ∧ view s' = view s) fun e s' => E e s' ∧ view s' = view s := by
  rw [Ends] at h ⊢
  split at h <;> exact ⟨h, hleaves s⟩

theorem Leaves.ends {a : Act σ α} (h : Leaves view a) (s : σ) :
    a.Ends s (fun _ s' => view s' = view s) fun _ s' => view s' = view s := by
  rw [Ends]
  split <;> exact h s

end Leaves

end Act

end PageServer
