import BitCodec.Action

/-!
# Runs of actions

How an action that is put together runs, when it is known how its first part runs,
and where a run can lead.  `Respects` says of an action that it takes every state
along a relation, however it ends; the ways of putting actions together keep to any
relation that is reflexive and transitive.
-/

namespace BitCodec

/-! ## Endings -/

namespace Ending

variable {α β : Type} {f : α → β} {ending : Ending α}

theorem map_eq_value {b : β} (h : ending.map f = .value b) : ∃ a, ending = .value a ∧ f a = b := by
  cases ending with
  | value a => exact ⟨a, rfl, Ending.value.inj h⟩
  | failed e => cases h
  | broken c => cases h

end Ending

/-! ## Running one action after another -/

namespace Action

variable {σ α β : Type} {first : Action σ α} {next : α → Action σ β} {s s' : σ} {a : α}

theorem bind_trace {effects : List Effect} (h : first s = ⟨.value a, s', effects⟩) :
    (first >>= next) s =
      ⟨(next a s').ending, (next a s').state, effects ++ (next a s').effects⟩ := by
  rw [bind_apply]
  simp only [andThen, h]

/-- After a value without effects the rest runs on as if it stood alone. -/
theorem bind_value (h : first s = ⟨.value a, s', []⟩) : (first >>= next) s = next a s' :=
  bind_trace h

theorem bind_failed {e : Failure} {effects : List Effect}
    (h : first s = ⟨.failed e, s', effects⟩) : (first >>= next) s = ⟨.failed e, s', effects⟩ := by
  rw [bind_apply]
  simp only [andThen, h]

theorem bind_broken {b : Breach} {effects : List Effect}
    (h : first s = ⟨.broken b, s', effects⟩) : (first >>= next) s = ⟨.broken b, s', effects⟩ := by
  rw [bind_apply]
  simp only [andThen, h]

/-- What is made of the value changes nothing else about the run. -/
theorem map_run (body : Action σ α) (f : α → β) (s : σ) :
    (body >>= fun a => pure (f a)) s =
      ⟨(body s).ending.map f, (body s).state, (body s).effects⟩ := by
  rcases hrun : body s with ⟨ending, s', effects⟩
  cases ending with
  | value a =>
    rw [bind_trace hrun, pure_apply, List.append_nil]
    rfl
  | failed e => exact bind_failed hrun
  | broken b => exact bind_broken hrun

theorem demand_true {kept : Bool} (h : kept = true) (b : Breach) :
    (demand kept b : Action σ Unit) s = ⟨.value (), s, []⟩ := by
  rw [h]
  rfl

/-! ## Where runs lead -/

/-- A relation that a run of any length can be taken along. -/
structure Course (R : σ → σ → Prop) : Prop where
  refl : ∀ s, R s s
  trans : ∀ {a b c}, R a b → R b c → R a c

/-- However the action ends, it takes the state along the relation. -/
def Respects (R : σ → σ → Prop) (body : Action σ α) : Prop :=
  ∀ s, R s (body s).state

namespace Respects

variable {R : σ → σ → Prop} {body : Action σ α}

theorem of_still (hR : Course R) (h : ∀ s, (body s).state = s) : Respects R body := by
  intro s
  rw [h]
  exact hR.refl s

protected theorem pure (hR : Course R) (a : α) : Respects R (pure a : Action σ α) :=
  of_still hR fun _ => rfl

protected theorem fail (hR : Course R) (e : Failure) : Respects R (fail e : Action σ α) :=
  of_still hR fun _ => rfl

protected theorem emit (hR : Course R) (effect : Effect) : Respects R (emit effect) :=
  of_still hR fun _ => rfl

protected theorem current (hR : Course R) : Respects R (current : Action σ σ) :=
  of_still hR fun _ => rfl

protected theorem bind (hR : Course R) {next : α → Action σ β} (h : Respects R body)
    (hnext : ∀ a, Respects R (next a)) : Respects R (body >>= next) := by
  intro s
  have hfirst := h s
  rcases hrun : body s with ⟨ending, s', effects⟩
  rw [hrun] at hfirst
  cases ending with
  | value a =>
    rw [bind_trace hrun]
    exact hR.trans hfirst (hnext a s')
  | failed e =>
    rw [bind_failed hrun]
    exact hfirst
  | broken b =>
    rw [bind_broken hrun]
    exact hfirst

protected theorem ite {condition : Prop} [Decidable condition] {other : Action σ α}
    (h : condition → Respects R body) (hother : ¬condition → Respects R other) :
    Respects R (if condition then body else other) := by
  by_cases hc : condition
  · rw [if_pos hc]
    exact h hc
  · rw [if_neg hc]
    exact hother hc

end Respects

end Action

end BitCodec
