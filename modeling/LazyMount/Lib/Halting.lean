import LazyMount.Lib.Prog

/-! Programs that recurse on fuel: when there is enough of it, and that more of it changes nothing. -/

namespace Prog

variable {ℓ σ ε α β : Type}

/-- From states with `P` the program comes to its end, and leaves `Q` if it returns. -/
def Halts (P : σ → Prop) (m : Prog ℓ σ ε α) (Q : α → σ → Prop) : Prop :=
  ∀ s, P s → match m.run s with
    | (.ok a, s') => Q a s'
    | (.error _, _) => True
    | (.diverge, _) => False

variable {P : σ → Prop} {Q : α → σ → Prop} {T : β → σ → Prop}

theorem halts_pure {a : α} (h : ∀ s, P s → Q a s) : Halts P (pure a : Prog ℓ σ ε α) Q := h

theorem halts_liftExcept {r : Except ε α} (h : ∀ a s, r = .ok a → P s → Q a s) :
    Halts P (liftExcept r : Prog ℓ σ ε α) Q := by
  cases r with
  | ok a => exact fun s hs => h a s rfl hs
  | error e => exact fun _ _ => trivial

theorem halts_atom {l : ℓ} {upd : σ → σ} {f : σ → Except ε α}
    (h : ∀ s a, P s → f s = .ok a → Q a (upd s)) : Halts P (atom l upd f) Q :=
  fun s hs => halts_liftExcept (P := fun t => t = upd s) (fun a _ ha ht => ht ▸ h s a hs ha) (upd s) rfl

theorem halts_read {l : ℓ} {f : σ → Except ε α} (h : ∀ s a, P s → f s = .ok a → Q a s) :
    Halts P (read l f) Q := halts_atom h

theorem halts_bind {m : Prog ℓ σ ε α} {f : α → Prog ℓ σ ε β} (hm : Halts P m Q)
    (hf : ∀ a, Halts (Q a) (f a) T) : Halts P (m >>= f) T := by
  intro s hs
  have hh := hm s hs
  rw [run_bind]
  rcases hr : m.run s with ⟨r, s'⟩
  rw [hr] at hh
  cases r with
  | ok a => exact hf a s' hh
  | error e => trivial
  | diverge => exact hh.elim

theorem halts_each {xs : List β} {f : β → Prog ℓ σ ε Unit}
    (h : ∀ x ∈ xs, Halts P (f x) fun _ => P) : Halts P (each xs f) fun _ => P := by
  induction xs with
  | nil => exact halts_pure fun _ hs => hs
  | cons x xs ih =>
    exact halts_bind (h x List.mem_cons_self) fun _ => ih fun y hy => h y (List.mem_cons_of_mem x hy)

theorem halts_of {φ : Prop} {m : Prog ℓ σ ε α} (h : φ → Halts P m Q) : Halts (fun s => φ ∧ P s) m Q :=
  fun s hs => h hs.1 s hs.2

theorem Halts.ne_diverge {m : Prog ℓ σ ε α} {s : σ} (h : Halts P m Q) (hs : P s) : (m.run s).1 ≠ .diverge := by
  have hh := h s hs
  rcases hr : m.run s with ⟨r, s'⟩
  rw [hr] at hh
  rintro rfl
  exact hh

/-- What comes to its end does so alike in the other program. -/
def Extends (m m' : Prog ℓ σ ε α) : Prop := ∀ s, (m.run s).1 ≠ .diverge → m'.run s = m.run s

theorem extends_refl (m : Prog ℓ σ ε α) : Extends m m := fun _ _ => rfl

theorem extends_diverge (m : Prog ℓ σ ε α) : Extends (diverge : Prog ℓ σ ε α) m := fun _ h => (h rfl).elim

theorem Extends.trans {m₁ m₂ m₃ : Prog ℓ σ ε α} (h : Extends m₁ m₂) (h' : Extends m₂ m₃) : Extends m₁ m₃ := by
  intro s hs
  have heq := h s hs
  rw [h' s (by rwa [heq]), heq]

theorem extends_bind {m m' : Prog ℓ σ ε α} {f f' : α → Prog ℓ σ ε β} (hm : Extends m m')
    (hf : ∀ a, Extends (f a) (f' a)) : Extends (m >>= f) (m' >>= f') := by
  intro s hs
  rw [run_bind] at hs
  have hmain := hm s
  rw [run_bind, run_bind]
  rcases hr : m.run s with ⟨r, s'⟩
  rw [hr] at hs hmain
  cases r with
  | ok a =>
    rw [hmain (by simp)]
    exact hf a s' hs
  | error e => rw [hmain (by simp)]
  | diverge => exact (hs rfl).elim

theorem extends_each {f f' : β → Prog ℓ σ ε Unit} (h : ∀ x, Extends (f x) (f' x)) (xs : List β) :
    Extends (each xs f) (each xs f') := by
  induction xs with
  | nil => exact extends_refl _
  | cons x xs ih => exact extends_bind (h x) fun _ => ih

end Prog
