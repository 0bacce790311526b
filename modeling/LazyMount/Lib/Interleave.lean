import LazyMount.Lib.Prog

/-! Two programs on one state, and the interleavings of their steps that are worth a serial
run. -/

namespace Prog

variable {ℓ σ ε α β : Type}

/-- The schedule tells which of the two goes on: the first on `true`. -/
def interleave : List Bool → σ → Prog ℓ σ ε α → Prog ℓ σ ε β → σ × Prog ℓ σ ε α × Prog ℓ σ ε β
  | [], s, m, n => (s, m, n)
  | true :: bs, s, step _ upd k, n => interleave bs (upd s) (k s) n
  | true :: bs, s, done r, n => interleave bs s (done r) n
  | false :: bs, s, m, step _ upd k => interleave bs (upd s) m (k s)
  | false :: bs, s, m, done r => interleave bs s m (done r)

def serial (s : σ) (m : Prog ℓ σ ε α) (n : Prog ℓ σ ε β) : σ × Outcome ε α × Outcome ε β :=
  ((n.run (m.run s).2).2, (m.run s).1, (n.run (m.run s).2).1)

/-- A step that may as well be taken behind all that the program has left to do: it reads the
same there, each step of the program reads the same without it, and `R` does not tell the two
orders apart. -/
def Passes (R : σ → σ → Prop) (upd : σ → σ) (k : σ → Prog ℓ σ ε β) : σ → Prog ℓ σ ε α → Prop
  | _, done _ => True
  | s, step _ upd' k' =>
    R (upd' (upd s)) (upd (upd' s)) ∧ k' (upd s) = k' s ∧ k (upd' s) = k s ∧
      Passes R upd k (upd' s) (k' s)

/-- Each step that the second takes before the first has ended may as well be taken behind. -/
def Defers (R : σ → σ → Prop) : List Bool → σ → Prog ℓ σ ε α → Prog ℓ σ ε β → Prop
  | [], _, _, _ => True
  | true :: bs, s, step _ upd k, n => Defers R bs (upd s) (k s) n
  | true :: bs, s, done r, n => Defers R bs s (done r) n
  | false :: bs, s, m, step _ upd k => Passes R upd k s m ∧ Defers R bs (upd s) m (k s)
  | false :: bs, s, m, done r => Defers R bs s m (done r)

theorem interleave_not (bs : List Bool) (s : σ) (m : Prog ℓ σ ε α) (n : Prog ℓ σ ε β) :
    interleave (bs.map not) s n m =
      ((interleave bs s m n).1, (interleave bs s m n).2.2, (interleave bs s m n).2.1) := by
  induction bs generalizing s m n with
  | nil => rfl
  | cons b bs ih =>
    cases b with
    | true => cases m <;> exact ih _ _ _
    | false => cases n <;> exact ih _ _ _

variable {S : ℓ → (σ → σ) → Prop} {R : σ → σ → Prop}

theorem defers_done (bs : List Bool) (s : σ) (r : Outcome ε α) (n : Prog ℓ σ ε β) :
    Defers R bs s (done r) n := by
  induction bs generalizing s n with
  | nil => trivial
  | cons b bs ih =>
    cases b with
    | true => exact ih s n
    | false =>
      cases n with
      | done q => exact ih s (done q)
      | step l upd k => exact ⟨trivial, ih (upd s) (k s)⟩

theorem Within.run_congr {m : Prog ℓ σ ε α} (hm : Within S R m)
    (hS : ∀ l upd, S l upd → ∀ s t, R s t → R (upd s) (upd t)) {s t : σ} (h : R s t) :
    (m.run s).1 = (m.run t).1 ∧ R (m.run s).2 (m.run t).2 := by
  induction m generalizing s t with
  | done r => exact ⟨rfl, h⟩
  | step l upd k ih =>
    obtain ⟨hl, hk, hrest⟩ := hm
    have hh := ih s (hrest s) (hS l upd hl s t h)
    simp only [Prog.run, ← hk s t h]
    exact hh

theorem Passes.run {upd : σ → σ} {k : σ → Prog ℓ σ ε β} {m : Prog ℓ σ ε α} (hm : Within S R m)
    (hS : ∀ l upd, S l upd → ∀ s t, R s t → R (upd s) (upd t)) (hR : Equivalence R) {s : σ}
    (h : Passes R upd k s m) :
    (m.run (upd s)).1 = (m.run s).1 ∧ R (m.run (upd s)).2 (upd (m.run s).2) ∧
      k (m.run s).2 = k s := by
  induction m generalizing s with
  | done r => exact ⟨rfl, hR.refl _, rfl⟩
  | step l upd' k' ih =>
    obtain ⟨hcomm, hk', hk, hrest⟩ := h
    obtain ⟨hr, hend, hread⟩ := ih s (hm.2.2 s) hrest
    have hc := (hm.2.2 s).run_congr hS hcomm
    simp only [Prog.run, hk']
    exact ⟨hc.1.trans hr, hR.trans hc.2 hend, hread.trans hk⟩

/-- The interleaving is worth the serial run. -/
theorem Defers.serial {bs : List Bool} {s s' : σ} {m : Prog ℓ σ ε α} {n : Prog ℓ σ ε β}
    {r : Outcome ε α} {q : Outcome ε β} (hm : Within S R m) (hn : Within S R n)
    (hS : ∀ l upd, S l upd → ∀ s t, R s t → R (upd s) (upd t)) (hR : Equivalence R)
    (h : Defers R bs s m n) (hrun : interleave bs s m n = (s', done r, done q)) :
    (Prog.serial s m n).2 = (r, q) ∧ R s' (Prog.serial s m n).1 := by
  induction bs generalizing s m n with
  | nil =>
    cases hrun
    exact ⟨rfl, hR.refl _⟩
  | cons b bs ih =>
    cases b with
    | true =>
      cases m with
      | done => exact ih hm hn h hrun
      | step l upd k => exact ih (s := upd s) (m := k s) (hm.2.2 s) hn h hrun
    | false =>
      cases n with
      | done => exact ih hm hn h hrun
      | step l upd k =>
        obtain ⟨hp, hrest⟩ := h
        obtain ⟨hres, hend⟩ := ih hm (hn.2.2 s) hrest hrun
        obtain ⟨hr, hstate, hread⟩ := hp.run hm hS hR
        have hc := (hn.2.2 s).run_congr hS hstate
        simp only [Prog.serial, Prod.mk.injEq, Prog.run, hread] at hres hend ⊢
        exact ⟨⟨hr.symm.trans hres.1, hc.1.symm.trans hres.2⟩, hR.trans hend hc.2⟩

end Prog
