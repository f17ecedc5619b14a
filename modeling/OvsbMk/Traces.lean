import Mathlib.Data.List.Basic

/-!
# Properties of every step of a run

A machine takes inputs one after the other. A property of its state and the next input
holds at every step of a run if it holds at the first and at every step of the rest;
read off the run, it holds wherever the inputs are split before one of them.
-/

namespace OvsbMk.Traces

variable {σ ι : Type*} {step : σ → ι → σ} {P Q : σ → ι → Prop}

/-- The property holds at every step of the run from a state on. -/
def Always (step : σ → ι → σ) (P : σ → ι → Prop) : σ → List ι → Prop
  | _, [] => True
  | s, c::rest => P s c ∧ Always step P (step s c) rest

/-- The property holds wherever the inputs are split before one of them. -/
theorem always_iff {s : σ} {inputs : List ι} : Always step P s inputs ↔
    ∀ pre c post, inputs=pre++c::post → P (pre.foldl step s) c := by
  induction inputs generalizing s with
  | nil => exact iff_of_true trivial fun pre c post h => by simp at h
  | cons x rest ih =>
    rw [Always,ih]
    constructor
    · rintro ⟨hx,hrest⟩ pre c post heq
      cases pre with
      | nil =>
        obtain ⟨rfl,-⟩ := List.cons.inj heq
        exact hx
      | cons y pre =>
        obtain ⟨rfl,htail⟩ := List.cons.inj heq
        exact hrest pre c post htail
    · intro h
      exact ⟨h [] x rest rfl,fun pre c post heq => h (x::pre) c post (by rw [heq,List.cons_append])⟩

/-- A property that follows holds at every step, too. -/
theorem Always.imp (himp : ∀ s c, P s c → Q s c) {s : σ} {inputs : List ι}
    (h : Always step P s inputs) : Always step Q s inputs := by
  induction inputs generalizing s with
  | nil => trivial
  | cons c rest ih => exact ⟨himp s c h.1,ih h.2⟩

end OvsbMk.Traces
