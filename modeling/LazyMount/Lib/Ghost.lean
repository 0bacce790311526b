import LazyMount.Lib.Prog

/-! Programs beside a log: what a step appends to it no step reads. -/

namespace Prog

variable {ℓ σ ε α β τ : Type}

/-- The program beside a log that it leaves alone. -/
def beside (τ : Type) : Prog ℓ σ ε α → Prog ℓ (σ × List τ) ε α
  | done r => done r
  | step l upd k => step l (fun s => (upd s.1, s.2)) fun s => beside τ (k s.1)

/-- A read that is noted. -/
def noted (l : ℓ) (x : τ) (r : Except ε α) : Prog ℓ (σ × List τ) ε α :=
  .atom l (fun s => (s.1, s.2 ++ [x])) fun _ => r

theorem run_beside (m : Prog ℓ σ ε α) (s : σ × List τ) :
    (m.beside τ).run s = ((m.run s.1).1, (m.run s.1).2, s.2) := by
  induction m generalizing s with
  | done r => rfl
  | step l upd k ih => exact ih s.1 (upd s.1, s.2)

theorem ensures_atom_beside {l : ℓ} {upd : σ → σ} {f : σ → Except ε α} {P E : σ × List τ → Prop}
    {Q : α → σ × List τ → Prop} (hok : ∀ s a, P s → f s.1 = .ok a → Q a (upd s.1, s.2))
    (herr : ∀ s e, P s → f s.1 = .error e → E (upd s.1, s.2)) : Ensures P ((atom l upd f).beside τ) Q E := by
  intro s hs
  rw [run_beside]
  cases hf : f s.1 with
  | ok a =>
    rw [run_atom hf]
    exact hok s a hs hf
  | error e =>
    have hrun : (atom l upd f).run s.1 = (.error e, upd s.1) := by simp [atom, run, hf, liftExcept]
    rw [hrun]
    exact herr s e hs hf

theorem ensures_noted {l : ℓ} {x : τ} {P E : σ × List τ → Prop} {Q : Unit → σ × List τ → Prop}
    (h : ∀ s, P s → Q () (s.1, s.2 ++ [x])) : Ensures P (noted l x (.ok ()) : Prog ℓ (σ × List τ) ε Unit) Q E :=
  fun s hs => h s hs

/-- Without its log `m` runs as `h` does. -/
def Erases (m : Prog ℓ (σ × List τ) ε α) (h : Prog ℓ σ ε α) : Prop :=
  ∀ s, (m.run s).1 = (h.run s.1).1 ∧ (m.run s).2.1 = (h.run s.1).2

theorem erases_beside (h : Prog ℓ σ ε α) : Erases (h.beside τ) h := by
  intro s
  rw [run_beside]
  exact ⟨rfl, rfl⟩

theorem erases_done (r : Outcome ε α) : Erases (done r : Prog ℓ (σ × List τ) ε α) (done r) := fun _ => ⟨rfl, rfl⟩

theorem erases_liftExcept (r : Except ε α) : Erases (liftExcept r : Prog ℓ (σ × List τ) ε α) (liftExcept r) := by
  cases r <;> exact erases_done _

theorem erases_bind {m : Prog ℓ (σ × List τ) ε α} {h : Prog ℓ σ ε α} {f : α → Prog ℓ (σ × List τ) ε β}
    {g : α → Prog ℓ σ ε β} (hm : Erases m h) (hf : ∀ a, Erases (f a) (g a)) : Erases (m >>= f) (h >>= g) := by
  intro s
  obtain ⟨hr, hs⟩ := hm s
  rw [run_bind, run_bind]
  rcases hrun : m.run s with ⟨r, t⟩
  rcases hrun' : h.run s.1 with ⟨r', u⟩
  rw [hrun, hrun'] at hr hs
  subst hr
  have htu : t.1 = u := hs
  cases r with
  | ok a => exact htu ▸ hf a t
  | error e => exact ⟨rfl, htu⟩
  | diverge => exact ⟨rfl, htu⟩

theorem erases_each {f : β → Prog ℓ (σ × List τ) ε Unit} {g : β → Prog ℓ σ ε Unit}
    (h : ∀ x, Erases (f x) (g x)) (xs : List β) : Erases (each xs f) (each xs g) := by
  induction xs with
  | nil => exact erases_done _
  | cons x xs ih => exact erases_bind (h x) fun _ => ih

/-- Only a note is taken. -/
theorem erases_note {l : ℓ} {x : τ} {f : Unit → Prog ℓ (σ × List τ) ε α} {h : Prog ℓ σ ε α}
    (hf : Erases (f ()) h) : Erases (noted l x (.ok ()) >>= f) h :=
  fun s => hf (s.1, s.2 ++ [x])

end Prog
