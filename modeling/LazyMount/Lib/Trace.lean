import Mathlib.Logic.Basic

/-! Traces of labelled transition relations, and forward simulation between two of them. -/

namespace Transition

variable {σ τ ε : Type*}

inductive Trace (step : σ → ε → σ → Prop) : σ → List ε → σ → Prop
  | nil (s : σ) : Trace step s [] s
  | cons {s t u : σ} {e : ε} {es : List ε} (head : step s e t) (tail : Trace step t es u) :
      Trace step s (e :: es) u

variable {step step' : σ → ε → σ → Prop} {spec : τ → ε → τ → Prop}

theorem Trace.append {s t u : σ} {es fs : List ε} (h : Trace step s es t) (h' : Trace step t fs u) :
    Trace step s (es ++ fs) u := by
  induction h with
  | nil => exact h'
  | cons head _ ih => exact .cons head (ih h')

theorem Trace.mono (h : ∀ s e t, step s e t → step' s e t) {s t : σ} {es : List ε}
    (hr : Trace step s es t) : Trace step' s es t := by
  induction hr with
  | nil s => exact .nil s
  | cons head _ ih => exact .cons (h _ _ _ head) ih

/-- A simulation relation that every step keeps carries a whole trace over. -/
theorem Trace.simulate {R : σ → τ → Prop}
    (h : ∀ s t e s', R s t → step s e s' → ∃ t', spec t e t' ∧ R s' t')
    {s s' : σ} {t : τ} {es : List ε} (hr : Trace step s es s') (hst : R s t) :
    ∃ t', Trace spec t es t' ∧ R s' t' := by
  induction hr generalizing t with
  | nil s => exact ⟨t, .nil t, hst⟩
  | cons head _ ih =>
    obtain ⟨u, hu, hru⟩ := h _ _ _ _ hst head
    obtain ⟨t', ht', hr'⟩ := ih hru
    exact ⟨t', .cons hu ht', hr'⟩

/-- The trace of a function is its fold. -/
theorem Trace.eq_foldl {f : τ → ε → τ} {t u : τ} {es : List ε}
    (h : Trace (fun t e u => f t e = u) t es u) : u = es.foldl f t := by
  induction h with
  | nil => rfl
  | cons head _ ih => rw [List.foldl_cons, head, ih]

theorem Trace.invariant {I : σ → Prop} (h : ∀ s e s', I s → step s e s' → I s')
    {s s' : σ} {es : List ε} (hr : Trace step s es s') (hs : I s) : I s' := by
  induction hr with
  | nil => exact hs
  | cons head _ ih => exact ih (h _ _ _ hs head)

/-- An invariant of a state and of the steps that led to it. -/
theorem Trace.history {I : List ε → σ → Prop} {s₀ : σ} (h₀ : I [] s₀)
    (h : ∀ es s e t, I es s → step s e t → I (es ++ [e]) t) {t : σ} {es : List ε}
    (hr : Trace step s₀ es t) : I es t := by
  have hrun : ∀ {s t : σ} {fs : List ε}, Trace step s fs t → ∀ es, I es s → I (es ++ fs) t := by
    intro s t fs hr
    induction hr with
    | nil => exact fun es hs => by rwa [List.append_nil]
    | cons head _ ih =>
      intro es hs
      have hnext := ih _ (h _ _ _ _ hs head)
      rwa [List.append_assoc] at hnext
  exact hrun hr [] h₀

theorem Trace.invariant_of {I : σ → Prop} {ok : ε → Prop}
    (h : ∀ s e s', ok e → I s → step s e s' → I s')
    {s s' : σ} {es : List ε} (hr : Trace step s es s') (hok : ∀ e ∈ es, ok e) (hs : I s) : I s' := by
  induction hr with
  | nil => exact hs
  | cons head _ ih =>
    exact ih (fun e he => hok e (List.mem_cons_of_mem _ he)) (h _ _ _ (hok _ List.mem_cons_self) hs head)

end Transition
