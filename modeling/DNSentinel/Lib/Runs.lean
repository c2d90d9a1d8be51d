import Mathlib.Tactic.Common

/-! # Runs of a transition system

`Run step s es s'`: from `s` the events `es` lead to `s'`. What every step preserves holds along
every run. A run under a condition on its steps is a run of the restricted relation. -/

namespace DNSentinel.Lib.Runs

variable {σ ε : Type} {step step' : σ → ε → σ → Prop}

inductive Run (step : σ → ε → σ → Prop) : σ → List ε → σ → Prop
  | nil (s : σ) : Run step s [] s
  | cons {s s' s'' : σ} {e : ε} {es : List ε} (h : step s e s') (rest : Run step s' es s'') :
      Run step s (e :: es) s''

/-- The steps that also meet `cond`. -/
def Restrict (step : σ → ε → σ → Prop) (cond : σ → ε → σ → Prop) (s : σ) (e : ε) (s' : σ) : Prop :=
  step s e s' ∧ cond s e s'

namespace Run

variable {s s' s'' : σ} {es es' : List ε}

/-- **The invariant rule.** -/
theorem invariant {P : σ → Prop} (hstep : ∀ s e s', P s → step s e s' → P s')
    (h : Run step s es s') (hs : P s) : P s' := by
  induction h with
  | nil => exact hs
  | cons hse _ ih => exact ih (hstep _ _ _ hs hse)

/-- **The rule for two runs** of the same events: what relates the states still does so at the
end. -/
theorem relation {τ : Type} {next : τ → ε → τ → Prop} {R : σ → τ → Prop} {ok : ε → Prop}
    (hstep : ∀ s s' t t' e, ok e → R s t → step s e s' → next t e t' → R s' t') {t t' : τ}
    (hes : ∀ e ∈ es, ok e) (h : Run step s es s') (h' : Run next t es t') (hst : R s t) :
    R s' t' := by
  induction h generalizing t with
  | nil =>
    cases h'
    exact hst
  | cons hse _ ih =>
    cases h' with
    | cons hte hrest =>
      refine ih (fun e he => hes e (List.mem_cons_of_mem _ he)) hrest ?_
      exact hstep _ _ _ _ _ (hes _ List.mem_cons_self) hst hse hte

theorem mono (hsub : ∀ s e s', step s e s' → step' s e s') (h : Run step s es s') :
    Run step' s es s' := by
  induction h with
  | nil s => exact .nil s
  | cons hse _ ih => exact .cons (hsub _ _ _ hse) ih

theorem of_restrict {cond : σ → ε → σ → Prop} (h : Run (Restrict step cond) s es s') :
    Run step s es s' := h.mono fun _ _ _ hse => hse.1

theorem restrict {ok : ε → Prop} (hes : ∀ e ∈ es, ok e) (h : Run step s es s') :
    Run (Restrict step fun _ e _ => ok e) s es s' := by
  induction h with
  | nil s => exact .nil s
  | cons hse _ ih =>
    exact .cons ⟨hse, hes _ List.mem_cons_self⟩ (ih fun e he => hes e (List.mem_cons_of_mem _ he))

/-- Events applied one after another. -/
def applyAll (f : σ → ε → Option σ) : σ → List ε → Option σ
  | s, [] => some s
  | s, e :: es => (f s e).bind fun s' => applyAll f s' es

/-- A run that is computed. -/
theorem of_applyAll {f : σ → ε → Option σ} (hf : ∀ s e s', f s e = some s' → step s e s') :
    ∀ (es : List ε) (s : σ), applyAll f s es = some s' → Run step s es s'
  | [], s, h => by
    obtain rfl := Option.some.inj h
    exact .nil s
  | e :: es, s, h => by
    obtain ⟨s₁, h₁, hrest⟩ := Option.bind_eq_some_iff.mp h
    exact .cons (hf s e s₁ h₁) (of_applyAll hf es s₁ hrest)

theorem exists_of_applyAll {f : σ → ε → Option σ} (hf : ∀ s e s', f s e = some s' → step s e s')
    {P : σ → Bool} (h : (applyAll f s es).any P = true) : ∃ s', Run step s es s' ∧ P s' = true := by
  cases hs' : applyAll f s es with
  | none => simp [hs'] at h
  | some s' => exact ⟨s', of_applyAll hf es s hs', by simpa [hs'] using h⟩

end Run

end DNSentinel.Lib.Runs
