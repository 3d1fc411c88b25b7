import Mathlib.Data.List.Basic

/-!
# Traces

The runs of a system whose steps can be seen from outside, by their labels. What every step keeps, every
run keeps, and a run of a system that is simulated is a run of the other one, with the same labels.
-/

variable {σ τ ℓ : Type}

/-- Steps one after the other, with what is seen of them. -/
inductive Trace (step : σ → ℓ → σ → Prop) (s : σ) : List ℓ → σ → Prop
  | nil : Trace step s [] s
  | concat {labels : List ℓ} {label : ℓ} {s' s'' : σ} (h : Trace step s labels s')
      (hstep : step s' label s'') : Trace step s (labels ++ [label]) s''

namespace Trace

variable {step : σ → ℓ → σ → Prop} {s s' s'' : σ} {labels labels' : List ℓ} {label : ℓ}

theorem append (h : Trace step s labels s') (h' : Trace step s' labels' s'') :
    Trace step s (labels ++ labels') s'' := by
  induction h' with
  | nil => rwa [List.append_nil]
  | concat _ hstep ih =>
    rw [← List.append_assoc]
    exact .concat ih hstep

theorem single (h : step s label s') : Trace step s [label] s' := .concat .nil h

theorem mono {step' : σ → ℓ → σ → Prop} (hstep : ∀ {s label s'}, step s label s' → step' s label s')
    (h : Trace step s labels s') : Trace step' s labels s' := by
  induction h with
  | nil => exact .nil
  | concat _ hl ih => exact .concat ih (hstep hl)

/-- An invariant holds after every run. -/
theorem invariant {I : σ → Prop} (hstep : ∀ {s label s'}, I s → step s label s' → I s')
    (h : Trace step s labels s') (hI : I s) : I s' := by
  induction h with
  | nil => exact hI
  | concat _ hl ih => exact hstep ih hl

/-- A simulation, by a view of the states and under an invariant, carries over to runs. -/
theorem simulate (step' : τ → ℓ → τ → Prop) (view : σ → τ) {I : σ → Prop}
    (hstep : ∀ {s label s'}, I s → step s label s' → I s' ∧ step' (view s) label (view s'))
    (h : Trace step s labels s') (hI : I s) : I s' ∧ Trace step' (view s) labels (view s') := by
  induction h with
  | nil => exact ⟨hI, .nil⟩
  | concat _ hl ih =>
    obtain ⟨hI', htrace⟩ := ih
    obtain ⟨hI'', hl'⟩ := hstep hI' hl
    exact ⟨hI'', .concat htrace hl'⟩

end Trace
