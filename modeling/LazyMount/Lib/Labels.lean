import LazyMount.Lib.Prog

/-! The labels of the steps that a run takes, and what they tell of the run. -/

namespace Prog

variable {ℓ σ ε α β : Type}

def labels : Prog ℓ σ ε α → σ → List ℓ
  | done _, _ => []
  | step l upd k, s => l :: labels (k s) (upd s)

theorem labels_bind (m : Prog ℓ σ ε α) (f : α → Prog ℓ σ ε β) (s : σ) :
    labels (m >>= f) s = labels m s ++ match run m s with
      | (.ok a, t) => labels (f a) t
      | _ => [] := by
  induction m generalizing s with
  | done r => cases r <;> rfl
  | step l upd k ih => exact congrArg (l :: ·) (ih s (upd s))

theorem Within.labels {S : ℓ → (σ → σ) → Prop} {R : σ → σ → Prop} {m : Prog ℓ σ ε α} (hm : Within S R m)
    {s : σ} {l : ℓ} (hl : l ∈ m.labels s) : ∃ upd, S l upd := by
  induction m generalizing s with
  | done r => cases hl
  | step l' upd k ih =>
    rcases List.mem_cons.mp hl with rfl | hl
    · exact ⟨upd, hm.1⟩
    · exact ih s (hm.2.2 s) hl

/-- While `same` holds of the labels of a run of `m`, `m'` takes the same run. -/
def Follows (same : ℓ → Prop) (m m' : Prog ℓ σ ε α) : Prop :=
  ∀ s, (∀ l ∈ m.labels s, same l) → m'.run s = m.run s ∧ m'.labels s = m.labels s

variable {same : ℓ → Prop}

theorem follows_of_eq {m m' : Prog ℓ σ ε α} (h : m' = m) : Follows same m m' := by
  intro s _
  rw [h]
  exact ⟨rfl, rfl⟩

theorem follows_read {l : ℓ} {f f' : σ → Except ε α} (h : same l → f' = f) :
    Follows same (.read l f) (.read l f') := by
  intro s hs
  rw [h (hs l List.mem_cons_self)]
  exact ⟨rfl, rfl⟩

theorem follows_bind {m m' : Prog ℓ σ ε α} {f f' : α → Prog ℓ σ ε β} (hm : Follows same m m')
    (hf : ∀ a, Follows same (f a) (f' a)) : Follows same (m >>= f) (m' >>= f') := by
  intro s hs
  rw [labels_bind] at hs
  obtain ⟨hrun, hlabels⟩ := hm s fun l hl => hs l (List.mem_append_left _ hl)
  rw [run_bind, run_bind, labels_bind, labels_bind, hrun, hlabels]
  rcases hr : m.run s with ⟨r, t⟩
  rw [hr] at hs
  cases r with
  | ok a =>
    obtain ⟨hrun', hlabels'⟩ := hf a t fun l hl => hs l (List.mem_append_right _ hl)
    exact ⟨hrun', congrArg (m.labels s ++ ·) hlabels'⟩
  | error | diverge => exact ⟨rfl, rfl⟩

theorem follows_map {m m' : Prog ℓ σ ε α} (g : α → β) (h : Follows same m m') :
    Follows same (g <$> m) (g <$> m') :=
  follows_bind h fun _ => follows_of_eq rfl

end Prog
