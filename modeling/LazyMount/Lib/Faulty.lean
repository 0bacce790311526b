import LazyMount.Lib.Annotated

/-! Runs in which steps fail. Two relations say what a step that is completed and what one that fails
may leave; the run keeps the labels of its completed steps and that of the step it fails at. -/

namespace Prog

variable {ℓ σ ε α β γ : Type}

/-- A step hands on what it read before it was taken. -/
inductive Faulty (does fails : ℓ → (σ → σ) → σ → σ → Prop) {α : Type} :
    Prog ℓ σ ε α → σ → List ℓ → Option ℓ → Outcome ε α → σ → Prop
  | done (r : Outcome ε α) (s : σ) : Faulty does fails (done r) s [] none r s
  | step {l : ℓ} {upd : σ → σ} {k : σ → Prog ℓ σ ε α} {s s' t : σ} {ls : List ℓ} {fault : Option ℓ}
    {r : Outcome ε α} (hd : does l upd s s') (h : Faulty does fails (k s) s' ls fault r t) :
    Faulty does fails (step l upd k) s (l :: ls) fault r t
  | fault {l : ℓ} {upd : σ → σ} {k : σ → Prog ℓ σ ε α} {s t : σ} (e : ε) (hf : fails l upd s t) :
    Faulty does fails (step l upd k) s [] (some l) (.error e) t

variable {does fails : ℓ → (σ → σ) → σ → σ → Prop} {s t : σ} {ls : List ℓ} {fault : Option ℓ}

/-- The run without faults is one. -/
theorem faulty_run (hdoes : ∀ l upd s, does l upd s (upd s)) (m : Prog ℓ σ ε α) (s : σ) :
    ∃ ls, Faulty does fails m s ls none (m.run s).1 (m.run s).2 := by
  induction m generalizing s with
  | done r => exact ⟨[], .done r s⟩
  | step l upd k ih =>
    obtain ⟨ls, h⟩ := ih s (upd s)
    exact ⟨l :: ls, .step (hdoes l upd s) h⟩

theorem faulty_error {m : Prog ℓ σ ε α} {r : Outcome ε α} {l : ℓ}
    (h : Faulty does fails m s ls fault r t) (hf : fault = some l) : ∃ e, r = .error e := by
  induction h with
  | done r s => cases hf
  | step hd _ ih => exact ih hf
  | fault e _ => exact ⟨e, rfl⟩

theorem faulty_bind {m : Prog ℓ σ ε α} {f : α → Prog ℓ σ ε β} {r : Outcome ε β}
    (h : Faulty does fails (m >>= f) s ls fault r t) :
    (∃ a u ls₁ ls₂, ls = ls₁ ++ ls₂ ∧ Faulty does fails m s ls₁ none (.ok a) u ∧
        Faulty does fails (f a) u ls₂ fault r t) ∨
      (∃ e, r = .error e ∧ Faulty does fails m s ls fault (.error e) t) ∨ r = .diverge := by
  induction m generalizing s ls with
  | done r₀ =>
    cases r₀ with
    | ok a => exact .inl ⟨a, s, [], ls, rfl, .done _ s, h⟩
    | error e =>
      cases h
      exact .inr (.inl ⟨e, rfl, .done _ _⟩)
    | diverge =>
      cases h
      exact .inr (.inr rfl)
  | step l upd k ih =>
    cases h with
    | step hd h =>
      rcases ih s h with ⟨a, u, ls₁, ls₂, rfl, hm, hf⟩ | ⟨e, rfl, hm⟩ | rfl
      · exact .inl ⟨a, u, l :: ls₁, ls₂, rfl, .step hd hm, hf⟩
      · exact .inr (.inl ⟨e, rfl, .step hd hm⟩)
      · exact .inr (.inr rfl)
    | fault e hf => exact .inr (.inl ⟨e, rfl, .fault e hf⟩)

theorem faulty_bind_ok {m : Prog ℓ σ ε α} {f : α → Prog ℓ σ ε β} {a : α} {u : σ} {ls' : List ℓ}
    {r : Outcome ε β} (hm : Faulty does fails m s ls none (.ok a) u)
    (hf : Faulty does fails (f a) u ls' fault r t) : Faulty does fails (m >>= f) s (ls ++ ls') fault r t := by
  induction m generalizing s ls with
  | done r₀ =>
    cases hm
    exact hf
  | step l upd k ih =>
    cases hm with
    | step hd hm => exact .step hd (ih s hm)

theorem faulty_atom_ok {l : ℓ} {upd : σ → σ} {f : σ → Except ε α} {a : α} (hd : does l upd s t)
    (ha : f s = .ok a) : Faulty does fails (atom l upd f) s [l] none (.ok a) t := by
  refine .step hd ?_
  rw [ha]
  exact .done _ _

/-! Pre- and postconditions: about the labels of the steps completed so far, and about the state. `E`
also has the label of the step that fails. -/

def Endures (does fails : ℓ → (σ → σ) → σ → σ → Prop) (I : List ℓ → σ → Prop) (m : Prog ℓ σ ε α)
    (Q : α → List ℓ → σ → Prop) (E : List ℓ → Option ℓ → σ → Prop) : Prop :=
  ∀ hs s ls fault r t, I hs s → Faulty does fails m s ls fault r t →
    match r with
    | .ok a => Q a (hs ++ ls) t
    | .error _ => E (hs ++ ls) fault t
    | .diverge => True

variable {I : List ℓ → σ → Prop} {Q Q' : α → List ℓ → σ → Prop} {T : β → List ℓ → σ → Prop}
  {E : List ℓ → Option ℓ → σ → Prop}

theorem endures_pure {a : α} (h : ∀ hs s, I hs s → Q a hs s) :
    Endures does fails I (pure a : Prog ℓ σ ε α) Q E := by
  intro hs s ls fault r t hi hrun
  cases hrun
  rw [List.append_nil]
  exact h hs s hi

theorem endures_fail {e : ε} (h : ∀ hs s, I hs s → E hs none s) :
    Endures does fails I (fail e : Prog ℓ σ ε α) Q E := by
  intro hs s ls fault r t hi hrun
  cases hrun
  rw [List.append_nil]
  exact h hs s hi

theorem endures_diverge : Endures does fails I (diverge : Prog ℓ σ ε α) Q E := by
  intro hs s ls fault r t hi hrun
  cases hrun
  trivial

theorem endures_liftExcept {r : Except ε α} (hok : ∀ a hs s, r = .ok a → I hs s → Q a hs s)
    (herr : ∀ hs s, I hs s → E hs none s) : Endures does fails I (liftExcept r : Prog ℓ σ ε α) Q E := by
  cases r with
  | ok a => exact endures_pure fun hs s hi => hok a hs s rfl hi
  | error e => exact endures_fail herr

theorem endures_bind {m : Prog ℓ σ ε α} {f : α → Prog ℓ σ ε β} (hm : Endures does fails I m Q E)
    (hf : ∀ a, Endures does fails (Q a) (f a) T E) : Endures does fails I (m >>= f) T E := by
  intro hs s ls fault r t hi hrun
  rcases faulty_bind hrun with ⟨a, u, ls₁, ls₂, rfl, hfirst, hrest⟩ | ⟨e, rfl, hfirst⟩ | rfl
  · have hq := hm hs s ls₁ none (.ok a) u hi hfirst
    have hh := hf a (hs ++ ls₁) u ls₂ fault r t hq hrest
    rwa [List.append_assoc] at hh
  · exact hm hs s ls fault (.error e) t hi hfirst
  · trivial

theorem endures_atom {l : ℓ} {upd : σ → σ} {f : σ → Except ε α}
    (hok : ∀ hs s s' a, I hs s → does l upd s s' → f s = .ok a → Q a (hs ++ [l]) s')
    (herr : ∀ hs s s' e, I hs s → does l upd s s' → f s = .error e → E (hs ++ [l]) none s')
    (hfault : ∀ hs s t, I hs s → fails l upd s t → E hs (some l) t) :
    Endures does fails I (atom l upd f) Q E := by
  intro hs s ls fault r t hi hrun
  cases hrun with
  | step hd h =>
    change Faulty does fails (liftExcept (f s)) _ _ _ _ _ at h
    cases hfs : f s with
    | ok a =>
      rw [hfs] at h
      cases h
      exact hok hs s _ a hi hd hfs
    | error e =>
      rw [hfs] at h
      cases h
      exact herr hs s _ e hi hd hfs
  | fault e hf =>
    rw [List.append_nil]
    exact hfault hs s t hi hf

theorem endures_of {φ : Prop} {m : Prog ℓ σ ε α} (h : φ → Endures does fails I m Q E) :
    Endures does fails (fun hs s => φ ∧ I hs s) m Q E :=
  fun hs s ls fault r t hi hrun => h hi.1 hs s ls fault r t hi.2 hrun

/-- What every step that a program may take keeps, completed or failed, holds when it stops. -/
theorem Within.endures {S : ℓ → (σ → σ) → Prop} {R : σ → σ → Prop} {m : Prog ℓ σ ε α} (hm : Within S R m)
    (hI : ∀ l upd hs s s', S l upd → I hs s → does l upd s s' → I (hs ++ [l]) s')
    (hE : ∀ hs s, I hs s → E hs none s)
    (hfault : ∀ l upd hs s t, S l upd → I hs s → fails l upd s t → E hs (some l) t) :
    Endures does fails I m (fun _ => I) E := by
  intro hs s ls fault r t hi hrun
  induction hrun generalizing hs with
  | done r s =>
    rw [List.append_nil]
    cases r with
    | ok a => exact hi
    | error e => exact hE hs s hi
    | diverge => trivial
  | step hd _ ih =>
    have hh := ih (hm.2.2 _) (hs ++ [_]) (hI _ _ hs _ _ hm.1 hi hd)
    rwa [List.append_assoc] at hh
  | fault e hf =>
    rw [List.append_nil]
    exact hfault _ _ hs _ _ hm.1 hi hf

/-- Up to some step the program takes only steps that `S` admits, and from there on only such as `S'`
admits. -/
def Phased (S S' : ℓ → (σ → σ) → Prop) : Prog ℓ σ ε α → Prop
  | done _ => True
  | step l upd k => (S l upd ∧ ∀ s, Phased S S' (k s)) ∨ Within S' Eq (step l upd k)

section Phased

variable {S S' : ℓ → (σ → σ) → Prop} {R : σ → σ → Prop}

theorem Within.phased {m : Prog ℓ σ ε α} (hm : Within S' Eq m) : Phased S S' m := by
  cases m with
  | done => trivial
  | step => exact .inr hm

theorem phased_bind {m : Prog ℓ σ ε α} {f : α → Prog ℓ σ ε β} (hm : Within S R m)
    (hf : ∀ a, Phased S S' (f a)) : Phased S S' (m >>= f) := by
  induction m with
  | done r =>
    cases r with
    | ok a => exact hf a
    | error | diverge => trivial
  | step l upd k ih => exact .inl ⟨hm.1, fun s => ih s (hm.2.2 s)⟩

theorem phased_map {m : Prog ℓ σ ε α} (f : α → β) (hm : Phased S S' m) : Phased S S' (f <$> m) := by
  induction m with
  | done r => cases r <;> trivial
  | step l upd k ih =>
    rcases hm with ⟨hS, hk⟩ | hw
    · exact .inl ⟨hS, fun s => ih s (hk s)⟩
    · exact .inr (within_map f hw)

/-- What the steps of the first phase keep holds up to its end, and gives what those of the second
keep. -/
theorem Phased.endures {m : Prog ℓ σ ε α} {I' : List ℓ → σ → Prop} (hm : Phased S S' m)
    (hI : ∀ l upd hs s s', S l upd → I hs s → does l upd s s' → I (hs ++ [l]) s')
    (hI' : ∀ l upd hs s s', S' l upd → I' hs s → does l upd s s' → I' (hs ++ [l]) s')
    (hturn : ∀ hs s, I hs s → I' hs s) (hE : ∀ hs s, I' hs s → E hs none s)
    (hfault : ∀ l upd hs s t, S l upd → I hs s → fails l upd s t → E hs (some l) t)
    (hfault' : ∀ l upd hs s t, S' l upd → I' hs s → fails l upd s t → E hs (some l) t) :
    Endures does fails I m (fun _ => I') E := by
  intro hs s ls fault r t hi hrun
  induction hrun generalizing hs with
  | done r s =>
    rw [List.append_nil]
    cases r with
    | ok a => exact hturn hs s hi
    | error e => exact hE hs s (hturn hs s hi)
    | diverge => trivial
  | step hd hrest ih =>
    rcases hm with ⟨hS, hk⟩ | hw
    · have hh := ih (hk _) (hs ++ [_]) (hI _ _ hs _ _ hS hi hd)
      rwa [List.append_assoc] at hh
    · exact hw.endures hI' hE hfault' hs _ _ _ _ _ (hturn hs _ hi) (.step hd hrest)
  | fault e hf =>
    rw [List.append_nil]
    rcases hm with ⟨hS, -⟩ | hw
    · exact hfault _ _ hs _ _ hS hi hf
    · exact hfault' _ _ hs _ _ hw.1 (hturn hs _ hi) hf

end Phased

/-- An annotated program keeps an assertion about its notes, the labels of its completed steps and the
state, if each completed step does; a step that fails is one that the rule allows from there. -/
theorem Annotated.faulty {J : σ → Prop} {rule : γ → ℓ → (σ → σ) → (σ → γ) → Prop} {T : γ → α → Prop}
    {A : γ → List ℓ → σ → Prop} {g : γ} {m : Prog ℓ σ ε α} {hs : List ℓ} {r : Outcome ε α}
    (hm : Annotated J rule T g m) (hJ : ∀ g hs s, A g hs s → J s)
    (hA : ∀ g l upd next hs s s', rule g l upd next → A g hs s → does l upd s s' → A (next s) (hs ++ [l]) s')
    (hs₀ : A g hs s) (hrun : Faulty does fails m s ls fault r t) :
    ∃ g' u, A g' (hs ++ ls) u ∧ (fault = none ∧ t = u ∨
      ∃ l upd next, fault = some l ∧ rule g' l upd next ∧ fails l upd u t ∧ ∃ e, r = .error e) := by
  induction hrun generalizing g hs with
  | done r s =>
    rw [List.append_nil]
    exact ⟨g, s, hs₀, .inl ⟨rfl, rfl⟩⟩
  | step hd _ ih =>
    obtain ⟨next, hr, hk⟩ := hm
    obtain ⟨g', u, hu, hend⟩ := ih (hk _ (hJ g hs _ hs₀)) (hA g _ _ next hs _ _ hr hs₀ hd)
    rw [List.append_assoc] at hu
    exact ⟨g', u, hu, hend⟩
  | fault e hf =>
    obtain ⟨next, hr, -⟩ := hm
    rw [List.append_nil]
    exact ⟨g, _, hs₀, .inr ⟨_, _, next, rfl, hr, hf, e, rfl⟩⟩

end Prog
