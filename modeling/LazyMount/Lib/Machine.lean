import Mathlib.Data.List.Basic

/-! Machines with a partial step function: runs over event lists, and the rules that carry a
step's guarantee to a run. -/

namespace Machine

variable {σ ε η : Type*} (step : σ → ε → Option σ)

def run : σ → List ε → Option σ
  | s, [] => some s
  | s, e :: es => (step s e).bind (run · es)

variable {step}

@[simp] theorem run_nil (s : σ) : run step s [] = some s := rfl

theorem run_cons {s t : σ} {e : ε} {es : List ε} :
    run step s (e :: es) = some t ↔ ∃ u, step s e = some u ∧ run step u es = some t := by
  simp [run, Option.bind_eq_some_iff]

theorem run_append {s t : σ} {es fs : List ε} :
    run step s (es ++ fs) = some t ↔ ∃ u, run step s es = some u ∧ run step u fs = some t := by
  induction es generalizing s with
  | nil => simp
  | cons e es ih =>
    simp only [List.cons_append, run_cons, ih]
    constructor
    · intro hh
      obtain ⟨u, hu, v, hv, ht⟩ := hh
      exact ⟨v, ⟨u, hu, hv⟩, ht⟩
    · intro hh
      obtain ⟨v, ⟨u, hu, hv⟩, ht⟩ := hh
      exact ⟨u, hu, v, hv, ht⟩

/-- A relation between state and history that every step extends holds along a run. -/
theorem run_history (I : σ → List η → Prop) (obs : ε → List η) (allowed : ε → Prop)
    (hstep : ∀ s h e t, allowed e → I s h → step s e = some t → I t (h ++ obs e))
    {s t : σ} {es : List ε} {h : List η} (hes : ∀ e ∈ es, allowed e) (hi : I s h)
    (hr : run step s es = some t) : I t (h ++ es.flatMap obs) := by
  induction es generalizing s h with
  | nil =>
    cases hr
    simpa using hi
  | cons e es ih =>
    obtain ⟨u, hu, ht⟩ := run_cons.mp hr
    have hh := ih (fun f hf => hes f (by simp [hf])) (hstep s h e u (hes e (by simp)) hi hu) ht
    simpa [List.append_assoc] using hh

/-- An invariant of every allowed step is one of every run of allowed steps. -/
theorem run_invariant (I : σ → Prop) (allowed : ε → Prop)
    (hstep : ∀ s e t, allowed e → I s → step s e = some t → I t)
    {s t : σ} {es : List ε} (hes : ∀ e ∈ es, allowed e) (hi : I s)
    (hr : run step s es = some t) : I t :=
  run_history (fun s (_ : List Unit) => I s) (fun _ => []) allowed
    (fun s _ e t he hs ht => hstep s e t he hs ht) (h := []) hes hi hr

end Machine
