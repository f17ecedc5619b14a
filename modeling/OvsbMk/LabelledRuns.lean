import Mathlib.Tactic

/-!
# Runs with labels

A run takes labelled steps one after the other. A relation between two systems that
every step keeps takes each run of the one to a run of the other with the same
labels, and a property that every step keeps holds after the run.
-/

namespace OvsbMk.LabelledRuns

variable {σ τ ℓ : Type*} {step : σ → ℓ → σ → Prop} {spec : τ → ℓ → τ → Prop} {s s' s'' : σ}
  {l : ℓ} {labels : List ℓ}

/-- The states joined by steps with the labels. -/
inductive Run (step : σ → ℓ → σ → Prop) : σ → List ℓ → σ → Prop where
  /-- No step. -/
  | stop (s : σ) : Run step s [] s
  /-- A step before others. -/
  | go {s s' s'' : σ} {l : ℓ} {labels : List ℓ} (first : step s l s')
    (rest : Run step s' labels s'') : Run step s (l::labels) s''

/-- A run of one step. -/
theorem Run.single (h : step s l s') : Run step s [l] s' := .go h (.stop s')

/-- Every step of the one system is answered by a step of the other with the same label. -/
def Simulates (step : σ → ℓ → σ → Prop) (spec : τ → ℓ → τ → Prop) (rel : σ → τ → Prop) : Prop :=
  ∀ s l s' a, rel s a → step s l s' → ∃ a', spec a l a' ∧ rel s' a'

/-- A relation that the steps keep takes runs to runs. -/
theorem Simulates.run {rel : σ → τ → Prop} (h : Simulates step spec rel) {a : τ} (hrel : rel s a)
    (hrun : Run step s labels s') : ∃ a', Run spec a labels a' ∧ rel s' a' := by
  induction hrun generalizing a with
  | stop s => exact ⟨a,.stop a,hrel⟩
  | go first _ ih =>
    obtain ⟨b,hstep,hb⟩ := h _ _ _ a hrel first
    obtain ⟨a',hrest,ha'⟩ := ih hb
    exact ⟨a',.go hstep hrest,ha'⟩

/-- A property that all steps keep is kept by a run. -/
theorem Run.keeps {P : σ → Prop} (hstep : ∀ s l s', P s → step s l s' → P s')
    (hrun : Run step s labels s') (h : P s) : P s' := by
  induction hrun with
  | stop s => exact h
  | go first _ ih => exact ih (hstep _ _ _ h first)

/-- A property that all steps keep, and what every step from a state with it says of its label. -/
theorem Run.all (P : σ → Prop) (Q : ℓ → Prop) (hstep : ∀ s l s', P s → step s l s' → P s' ∧ Q l)
    (hrun : Run step s labels s') (h : P s) : P s' ∧ ∀ l∈labels, Q l := by
  induction hrun with
  | stop s => exact ⟨h,nofun⟩
  | go first _ ih =>
    obtain ⟨hP,hQ⟩ := hstep _ _ _ h first
    obtain ⟨hend,hall⟩ := ih hP
    exact ⟨hend,List.forall_mem_cons.mpr ⟨hQ,hall⟩⟩

/-- A run whose labels have a property takes steps with such labels. -/
theorem Run.restrict {Q : ℓ → Prop} (hrun : Run step s labels s') (h : ∀ l∈labels, Q l) :
    Run (fun s l s' => step s l s' ∧ Q l) s labels s' := by
  induction hrun with
  | stop s => exact .stop s
  | go first _ ih =>
    obtain ⟨hQ,hall⟩ := List.forall_mem_cons.mp h
    exact .go ⟨first,hQ⟩ (ih hall)

end OvsbMk.LabelledRuns
