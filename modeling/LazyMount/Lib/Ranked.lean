import LazyMount.Lib.Machine

/-! Machines with inner steps that count a rank down: left alone, they come to rest, and the rank
says how soon. -/

namespace Machine

variable {σ ε : Type*}

structure Ranked (step : σ → ε → Option σ) (inner : ε → Prop) (I : σ → Prop) (rank : σ → Nat) : Prop where
  keeps : ∀ s e t, I s → step s e = some t → I t
  lowers : ∀ s e t, inner e → I s → step s e = some t → rank t < rank s

/-- No inner step can be taken. -/
def AtRest (step : σ → ε → Option σ) (inner : ε → Prop) (s : σ) : Prop := ∀ e, inner e → step s e = none

variable {step : σ → ε → Option σ} {inner : ε → Prop} {I : σ → Prop} {rank : σ → Nat}

/-- A run of inner steps is no longer than the rank. -/
theorem Ranked.length_le (h : Ranked step inner I rank) {s t : σ} {es : List ε} (hs : I s)
    (hes : ∀ e ∈ es, inner e) (hr : run step s es = some t) : es.length + rank t ≤ rank s := by
  induction es generalizing s with
  | nil =>
    cases hr
    simp
  | cons e es ih =>
    obtain ⟨u, hu, ht⟩ := run_cons.mp hr
    have hlower := h.lowers s e u (hes e (by simp)) hs hu
    have hrest := ih (h.keeps s e u hs hu) (fun f hf => hes f (by simp [hf])) ht
    simp only [List.length_cons]
    omega

theorem Ranked.exists_atRest (h : Ranked step inner I rank) {s : σ} (hs : I s) :
    ∃ es t, (∀ e ∈ es, inner e) ∧ run step s es = some t ∧ AtRest step inner t := by
  induction hn : rank s using Nat.strongRecOn generalizing s with
  | _ n ih =>
    by_cases hrest : AtRest step inner s
    · exact ⟨[], s, by simp, rfl, hrest⟩
    · obtain ⟨e, he, hne⟩ : ∃ e, inner e ∧ step s e ≠ none := by simpa [AtRest] using hrest
      obtain ⟨u, hu⟩ := Option.ne_none_iff_exists'.mp hne
      have hlower := h.lowers s e u he hs hu
      obtain ⟨es, t, hes, ht, hat⟩ := ih (rank u) (by omega) (h.keeps s e u hs hu) rfl
      refine ⟨e :: es, t, ?_, run_cons.mpr ⟨u, hu, ht⟩, hat⟩
      simpa [he] using hes

end Machine
