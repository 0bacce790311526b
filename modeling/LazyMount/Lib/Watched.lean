import LazyMount.Lib.Prog

/-! Programs beside what is kept of the states they pass through: after each step, of the state it
read and of the one it leaves. No step reads it. -/

namespace Prog

variable {ℓ σ ε α β κ : Type} {keep : σ → σ → κ → κ}

def watched (keep : σ → σ → κ → κ) : Prog ℓ σ ε α → Prog ℓ (σ × κ) ε α
  | done r => done r
  | step l upd k => step l (fun s => (upd s.1, keep s.1 (upd s.1) s.2)) fun s => watched keep (k s.1)

theorem run_watched (m : Prog ℓ σ ε α) (s : σ × κ) :
    ((m.watched keep).run s).1 = (m.run s.1).1 ∧ ((m.watched keep).run s).2.1 = (m.run s.1).2 := by
  induction m generalizing s with
  | done r => exact ⟨rfl, rfl⟩
  | step l upd k ih => exact ih s.1 (upd s.1, keep s.1 (upd s.1) s.2)

theorem watched_bind (m : Prog ℓ σ ε α) (f : α → Prog ℓ σ ε β) :
    (m >>= f).watched keep = m.watched keep >>= fun a => (f a).watched keep := by
  induction m with
  | done r => cases r <;> rfl
  | step l upd k ih => exact congrArg (step l _) (funext fun s => ih s.1)

variable {A E : σ × κ → Prop} {Q : α → σ × κ → Prop} {T : β → σ × κ → Prop}

theorem watches_bind {m : Prog ℓ σ ε α} {f : α → Prog ℓ σ ε β} (hm : Ensures A (m.watched keep) Q E)
    (hf : ∀ a, Ensures (Q a) ((f a).watched keep) T E) : Ensures A ((m >>= f).watched keep) T E := by
  rw [watched_bind]
  exact ensures_bind hm hf

theorem watches_pure {a : α} (h : ∀ s, A s → Q a s) :
    Ensures A ((pure a : Prog ℓ σ ε α).watched keep) Q E := ensures_pure h

theorem watches_fail {e : ε} (h : ∀ s, A s → E s) :
    Ensures A ((fail e : Prog ℓ σ ε α).watched keep) Q E := ensures_fail h

theorem watches_atom {l : ℓ} {upd : σ → σ} {f : σ → Except ε α}
    (hok : ∀ s a, A s → f s.1 = .ok a → Q a (upd s.1, keep s.1 (upd s.1) s.2))
    (herr : ∀ s e, A s → f s.1 = .error e → E (upd s.1, keep s.1 (upd s.1) s.2)) :
    Ensures A ((atom l upd f).watched keep) Q E := by
  intro s hs
  have hok' := hok s
  have herr' := herr s
  cases hf : f s.1 with
  | ok a => simpa [atom, watched, run, hf, liftExcept] using hok' a hs hf
  | error e => simpa [atom, watched, run, hf, liftExcept] using herr' e hs hf

/-- What each allowed step keeps, of the state and of what is kept, holds in the end. -/
theorem Within.watches {S : ℓ → (σ → σ) → Prop} {R : σ → σ → Prop} {m : Prog ℓ σ ε α}
    (hm : Within S R m) (hA : ∀ l upd, S l upd → ∀ s, A s → A (upd s.1, keep s.1 (upd s.1) s.2))
    (hE : ∀ s, A s → E s) : Ensures A (m.watched keep) (fun _ => A) E := by
  induction m with
  | done r =>
    intro s hs
    cases r with
    | ok a => exact hs
    | error e => exact hE s hs
    | diverge => trivial
  | step l upd k ih => exact fun s hs => ih s.1 (hm.2.2 s.1) _ (hA l upd hm.1 s hs)

end Prog
