import Mathlib.Logic.Basic

/-! Programs as sequences of labelled atomic steps on a shared state. A program runs alone, or
its steps interleave with those of other programs. -/

inductive Outcome (ε α : Type*) where
  | ok (a : α)
  | error (e : ε)
  | diverge
deriving DecidableEq, Repr

/-- `step l upd k` reads the state, replaces it by `upd` of it and goes on with `k` of what it
read. -/
inductive Prog (ℓ σ ε α : Type) where
  | done (r : Outcome ε α)
  | step (l : ℓ) (upd : σ → σ) (k : σ → Prog ℓ σ ε α)

namespace Prog

variable {ℓ σ ε α β : Type}

def bind : Prog ℓ σ ε α → (α → Prog ℓ σ ε β) → Prog ℓ σ ε β
  | done (.ok a), f => f a
  | done (.error e), _ => done (.error e)
  | done .diverge, _ => done .diverge
  | step l upd k, f => step l upd fun s => bind (k s) f

instance : Monad (Prog ℓ σ ε) where
  pure a := done (.ok a)
  bind := bind

def fail (e : ε) : Prog ℓ σ ε α := done (.error e)

def diverge : Prog ℓ σ ε α := done .diverge

def liftExcept : Except ε α → Prog ℓ σ ε α
  | .ok a => done (.ok a)
  | .error e => done (.error e)

/-- One step: what `f` reads is returned, and the state becomes `upd` of it. -/
def atom (l : ℓ) (upd : σ → σ) (f : σ → Except ε α) : Prog ℓ σ ε α :=
  step l upd fun s => liftExcept (f s)

def read (l : ℓ) (f : σ → Except ε α) : Prog ℓ σ ε α := atom l id f

def whenever (c : Bool) (m : Prog ℓ σ ε Unit) : Prog ℓ σ ε Unit := if c then m else pure ()

/-- `for x in xs`, keeping what `f` returns. -/
def collect (xs : List β) (f : β → Prog ℓ σ ε (Option α)) : Prog ℓ σ ε (List α) :=
  match xs with
  | [] => pure []
  | x :: xs => do
    let y ← f x
    let ys ← collect xs f
    pure (y.toList ++ ys)

def each (xs : List β) (f : β → Prog ℓ σ ε Unit) : Prog ℓ σ ε Unit :=
  match xs with
  | [] => pure ()
  | x :: xs => do
    f x
    each xs f

def run : Prog ℓ σ ε α → σ → Outcome ε α × σ
  | done r, s => (r, s)
  | step _ upd k, s => run (k s) (upd s)

@[simp] theorem run_pure (a : α) (s : σ) : run (pure a : Prog ℓ σ ε α) s = (.ok a, s) := rfl

@[simp] theorem run_fail (e : ε) (s : σ) : run (fail e : Prog ℓ σ ε α) s = (.error e, s) := rfl

theorem run_bind (m : Prog ℓ σ ε α) (f : α → Prog ℓ σ ε β) (s : σ) :
    run (m >>= f) s = match run m s with
      | (.ok a, s') => run (f a) s'
      | (.error e, s') => (.error e, s')
      | (.diverge, s') => (.diverge, s') := by
  induction m generalizing s with
  | done r => cases r <;> rfl
  | step l upd k ih => exact ih s (upd s)

theorem run_bind_ok {m : Prog ℓ σ ε α} {f : α → Prog ℓ σ ε β} {s s' : σ} {a : α}
    (h : run m s = (.ok a, s')) : run (m >>= f) s = run (f a) s' := by
  rw [run_bind, h]

theorem run_bind_eq_ok {m : Prog ℓ σ ε α} {f : α → Prog ℓ σ ε β} {s t : σ} {b : β}
    (h : run (m >>= f) s = (.ok b, t)) :
    ∃ a u, run m s = (.ok a, u) ∧ run (f a) u = (.ok b, t) := by
  rw [run_bind] at h
  split at h
  · exact ⟨_, _, ‹_›, h⟩
  · cases h
  · cases h

theorem run_bind_eq_error {m : Prog ℓ σ ε α} {f : α → Prog ℓ σ ε β} {s t : σ} {e : ε}
    (h : run (m >>= f) s = (.error e, t)) :
    run m s = (.error e, t) ∨ ∃ a u, run m s = (.ok a, u) ∧ run (f a) u = (.error e, t) := by
  rw [run_bind] at h
  split at h
  · exact .inr ⟨_, _, ‹_›, h⟩
  · rename_i hm
    cases h
    exact .inl hm
  · cases h

theorem run_map_eq_ok {m : Prog ℓ σ ε α} {f : α → β} {s t : σ} {b : β}
    (h : run (f <$> m) s = (.ok b, t)) : ∃ a, run m s = (.ok a, t) ∧ f a = b := by
  obtain ⟨a, u, ha, h⟩ := run_bind_eq_ok h
  cases h
  exact ⟨a, ha, rfl⟩

theorem run_map_snd (m : Prog ℓ σ ε α) (f : α → β) (s : σ) : (run (f <$> m) s).2 = (run m s).2 := by
  have hrun : run (f <$> m) s = _ := run_bind m _ s
  rw [hrun]
  rcases run m s with ⟨a | e | _, t⟩ <;> rfl

theorem run_bind_error {m : Prog ℓ σ ε α} {f : α → Prog ℓ σ ε β} {s : σ} {e : ε}
    (h : (run m s).1 = .error e) : (run (m >>= f) s).1 = .error e := by
  rw [run_bind]
  split
  · rename_i hr
    rw [hr] at h
    cases h
  · rename_i hr
    rw [hr] at h
    injection h with h
    rw [h]
  · rename_i hr
    rw [hr] at h
    cases h

theorem run_atom {l : ℓ} {upd : σ → σ} {f : σ → Except ε α} {s : σ} {a : α} (h : f s = .ok a) :
    run (atom l upd f) s = (.ok a, upd s) := by
  simp [atom, run, h, liftExcept]

theorem run_read {l : ℓ} {f : σ → Except ε α} {s : σ} {a : α} (h : f s = .ok a) :
    run (read l f) s = (.ok a, s) := run_atom h

theorem run_bind_read (l : ℓ) (f : σ → Except ε α) (g : α → Prog ℓ σ ε β) (s : σ) :
    run (read l f >>= g) s = match f s with
      | .ok a => run (g a) s
      | .error e => (.error e, s) := by
  rw [run_bind]
  cases h : f s <;> simp [read, atom, run, h, liftExcept]

theorem run_bind_read_error {l : ℓ} {f : σ → Except ε α} {g : α → Prog ℓ σ ε β} {s : σ} {e : ε}
    (h : f s = .error e) : run (read l f >>= g) s = (.error e, s) := by
  rw [run_bind_read, h]

theorem liftExcept_ok_bind (a : α) (f : α → Prog ℓ σ ε β) :
    ((liftExcept (.ok a) : Prog ℓ σ ε α) >>= f) = f a := rfl

theorem run_liftExcept_ok (a : α) (s : σ) :
    run (liftExcept (.ok a) : Prog ℓ σ ε α) s = (.ok a, s) := rfl

theorem run_liftExcept_eq_ok {r : Except ε α} {s t : σ} {a : α}
    (h : run (liftExcept r : Prog ℓ σ ε α) s = (.ok a, t)) : r = .ok a ∧ t = s := by
  cases r with
  | ok b =>
    cases h
    exact ⟨rfl, rfl⟩
  | error e => cases h

theorem run_atom_eq_ok {l : ℓ} {upd : σ → σ} {f : σ → Except ε α} {s t : σ} {a : α}
    (h : run (atom l upd f) s = (.ok a, t)) : f s = .ok a ∧ t = upd s := run_liftExcept_eq_ok h

theorem run_read_eq_ok {l : ℓ} {f : σ → Except ε α} {s t : σ} {a : α}
    (h : run (read l f) s = (.ok a, t)) : f s = .ok a ∧ t = s := run_atom_eq_ok h

theorem run_each_append_ok {xs ys : List β} {f : β → Prog ℓ σ ε Unit} {s t : σ}
    (h : run (each xs f) s = (.ok (), t)) : run (each (xs ++ ys) f) s = run (each ys f) t := by
  induction xs generalizing s with
  | nil =>
    cases h
    rfl
  | cons x xs ih =>
    obtain ⟨_, u, hx, hxs⟩ := run_bind_eq_ok h
    exact (run_bind_ok hx).trans (ih hxs)

theorem run_each_eq_error {xs : List β} {f : β → Prog ℓ σ ε Unit} {s t : σ} {e : ε}
    (h : run (each xs f) s = (.error e, t)) : ∃ pre x post u, xs = pre ++ x :: post ∧
      run (each pre f) s = (.ok (), u) ∧ run (f x) u = (.error e, t) := by
  induction xs generalizing s with
  | nil => cases h
  | cons x xs ih =>
    rcases run_bind_eq_error h with hx | ⟨_, u, hx, hxs⟩
    · exact ⟨[], x, xs, s, rfl, rfl, hx⟩
    · obtain ⟨pre, y, post, v, rfl, hpre, hy⟩ := ih hxs
      exact ⟨x :: pre, y, post, v, rfl, (run_bind_ok hx).trans hpre, hy⟩

theorem run_collect_none {xs : List β} {f : β → Prog ℓ σ ε (Option α)} {s : σ}
    (h : ∀ x ∈ xs, run (f x) s = (.ok none, s)) : run (collect xs f) s = (.ok [], s) := by
  induction xs with
  | nil => rfl
  | cons x xs ih =>
    have hx := h x (by simp)
    have hxs := ih fun y hy => h y (by simp [hy])
    rw [collect, run_bind_ok hx, run_bind_ok hxs]
    rfl

theorem run_collect_ok {xs : List β} {f : β → Prog ℓ σ ε (Option α)}
    (h : ∀ x ∈ xs, ∀ s, ∃ y t, run (f x) s = (.ok y, t)) {s : σ} :
    ∃ ys t, run (collect xs f) s = (.ok ys, t) := by
  induction xs generalizing s with
  | nil => exact ⟨[], s, rfl⟩
  | cons x xs ih =>
    obtain ⟨y, u, hy⟩ := h x List.mem_cons_self s
    obtain ⟨ys, t, hys⟩ := ih (fun z hz => h z (List.mem_cons_of_mem x hz)) (s := u)
    exact ⟨y.toList ++ ys, t, (run_bind_ok hy).trans (run_bind_ok hys)⟩

theorem run_collect_each {xs : List β} {f : β → Prog ℓ σ ε (Option α)} {s t : σ} {ys : List α}
    (hr : run (collect xs f) s = (.ok ys, t)) : ∀ x ∈ xs, ∃ s y u, run (f x) s = (.ok y, u) := by
  induction xs generalizing s t ys with
  | nil => simp
  | cons x xs ih =>
    obtain ⟨y, u, hy, h₁⟩ := run_bind_eq_ok hr
    obtain ⟨rest, v, hrest, -⟩ := run_bind_eq_ok h₁
    intro z hz
    rcases List.mem_cons.mp hz with rfl | hz
    · exact ⟨s, y, u, hy⟩
    · exact ih hrest z hz

/-- Where the body of a loop returns, up to `proj`, what `g` says of the element, so does the loop. -/
theorem run_collect_map {γ : Type} {xs : List β} {f : β → Prog ℓ σ ε (Option α)} {g : β → Option γ}
    {proj : α → γ} {I : σ → Prop}
    (h : ∀ x ∈ xs, ∀ s y t, I s → run (f x) s = (.ok y, t) → y.map proj = g x ∧ I t)
    {s t : σ} {ys : List α} (hs : I s) (hr : run (collect xs f) s = (.ok ys, t)) :
    ys.map proj = xs.filterMap g ∧ I t := by
  induction xs generalizing s ys with
  | nil =>
    cases hr
    exact ⟨rfl, hs⟩
  | cons x xs ih =>
    obtain ⟨y, u, hy, hr⟩ := run_bind_eq_ok hr
    obtain ⟨rest, v, hrest, hr⟩ := run_bind_eq_ok hr
    cases hr
    obtain ⟨hproj, hu⟩ := h x List.mem_cons_self s y u hs hy
    obtain ⟨hmap, hv⟩ := ih (fun z hz => h z (List.mem_cons_of_mem x hz)) hu hrest
    refine ⟨?_, hv⟩
    rw [List.filterMap_cons, ← hproj, List.map_append, hmap]
    cases y <;> rfl

/-- What the body of a loop does for what it returns, the loop does, if nothing undoes it. -/
theorem run_collect_mem {xs : List β} {f : β → Prog ℓ σ ε (Option α)} {le : σ → σ → Prop}
    {did : α → σ → σ → Prop} (hrefl : ∀ s, le s s) (htrans : ∀ {s t u}, le s t → le t u → le s u)
    (hmono : ∀ {a s s' t' t}, le s s' → did a s' t' → le t' t → did a s t)
    (h : ∀ x s y t, run (f x) s = (.ok y, t) → le s t ∧ ∀ a ∈ y, did a s t)
    {s t : σ} {ys : List α} (hr : run (collect xs f) s = (.ok ys, t)) :
    le s t ∧ ∀ a ∈ ys, did a s t := by
  induction xs generalizing s ys with
  | nil =>
    cases hr
    exact ⟨hrefl _, fun a ha => (List.not_mem_nil ha).elim⟩
  | cons x xs ih =>
    obtain ⟨y, u, hy, h₁⟩ := run_bind_eq_ok hr
    obtain ⟨rest, v, hrest, h₂⟩ := run_bind_eq_ok h₁
    cases h₂
    obtain ⟨hle, hdid⟩ := h x _ _ _ hy
    obtain ⟨hle', hdid'⟩ := ih hrest
    refine ⟨htrans hle hle', fun a ha => ?_⟩
    rcases List.mem_append.mp ha with ha | ha
    · exact hmono (hrefl _) (hdid a (Option.mem_toList.mp ha)) hle'
    · exact hmono hle (hdid' a ha) (hrefl _)

/-! What the steps of a program may do, and what follows for all of them. -/

/-- Every step of the program is one that `S` admits, and goes on alike from states that `R`
relates. -/
def Within (S : ℓ → (σ → σ) → Prop) (R : σ → σ → Prop) : Prog ℓ σ ε α → Prop
  | done _ => True
  | step l upd k => S l upd ∧ (∀ s t, R s t → k s = k t) ∧ ∀ s, Within S R (k s)

section Within

variable {S S' : ℓ → (σ → σ) → Prop} {R : σ → σ → Prop}

theorem within_pure (a : α) : Within S R (pure a : Prog ℓ σ ε α) := trivial

theorem within_fail (e : ε) : Within S R (fail e : Prog ℓ σ ε α) := trivial

theorem within_diverge : Within S R (diverge : Prog ℓ σ ε α) := trivial

theorem within_liftExcept (r : Except ε α) : Within S R (liftExcept r : Prog ℓ σ ε α) := by
  cases r <;> trivial

def Returns (T : α → Prop) : Prog ℓ σ ε α → Prop
  | done (.ok a) => T a
  | done _ => True
  | step _ _ k => ∀ s, Returns T (k s)

theorem within_bind_of {m : Prog ℓ σ ε α} {f : α → Prog ℓ σ ε β} {T : α → Prop}
    (hm : Within S R m) (hr : Returns T m) (hf : ∀ a, T a → Within S R (f a)) :
    Within S R (m >>= f) := by
  induction m with
  | done r =>
    cases r with
    | ok a => exact hf a hr
    | error | diverge => trivial
  | step l upd k ih =>
    refine ⟨hm.1, fun s t hst => ?_, fun s => ih s (hm.2.2 s) (hr s)⟩
    show bind (k s) f = bind (k t) f
    rw [hm.2.1 s t hst]

theorem returns_true (m : Prog ℓ σ ε α) : Returns (fun _ => True) m := by
  induction m with
  | done r => cases r <;> trivial
  | step l upd k ih => exact ih

theorem returns_bind_of {m : Prog ℓ σ ε α} {f : α → Prog ℓ σ ε β} {U : α → Prop} {T : β → Prop}
    (hm : Returns U m) (hf : ∀ a, U a → Returns T (f a)) : Returns T (m >>= f) := by
  induction m with
  | done r =>
    cases r with
    | ok a => exact hf a hm
    | error | diverge => trivial
  | step l upd k ih => exact fun s => ih s (hm s)

theorem returns_bind {m : Prog ℓ σ ε α} {f : α → Prog ℓ σ ε β} {T : β → Prop}
    (hf : ∀ a, Returns T (f a)) : Returns T (m >>= f) :=
  returns_bind_of (returns_true m) fun a _ => hf a

theorem within_bind {m : Prog ℓ σ ε α} {f : α → Prog ℓ σ ε β} (hm : Within S R m)
    (hf : ∀ a, Within S R (f a)) : Within S R (m >>= f) :=
  within_bind_of hm (returns_true m) fun a _ => hf a

theorem within_bind_liftExcept {r : Except ε α} {f : α → Prog ℓ σ ε β}
    (hf : ∀ a, r = .ok a → Within S R (f a)) : Within S R (liftExcept r >>= f) := by
  cases r with
  | ok a => exact hf a rfl
  | error e => exact within_fail e

theorem Returns.mono {m : Prog ℓ σ ε α} {T U : α → Prop} (h : Returns T m) (hTU : ∀ a, T a → U a) :
    Returns U m := by
  induction m with
  | done r =>
    cases r with
    | ok a => exact hTU a h
    | error | diverge => trivial
  | step l upd k ih => exact fun s => ih s (h s)

theorem Returns.run {m : Prog ℓ σ ε α} {T : α → Prop} (h : Returns T m) {s s' : σ} {a : α}
    (hr : m.run s = (.ok a, s')) : T a := by
  induction m generalizing s with
  | done r =>
    cases r with
    | ok b =>
      cases hr
      exact h
    | error | diverge => cases hr
  | step l upd k ih => exact ih s (h s) hr

theorem within_map {m : Prog ℓ σ ε α} (g : α → β) (hm : Within S R m) : Within S R (g <$> m) :=
  within_bind hm fun a => within_pure (g a)

theorem within_atom {l : ℓ} {upd : σ → σ} {f : σ → Except ε α} (hS : S l upd)
    (hR : ∀ s t, R s t → f s = f t) : Within S R (atom l upd f) :=
  ⟨hS, fun s t hst => congrArg liftExcept (hR s t hst), fun s => within_liftExcept (f s)⟩

theorem within_whenever {c : Bool} {m : Prog ℓ σ ε Unit} (h : Within S R m) :
    Within S R (whenever c m) := by
  cases c with
  | true => exact h
  | false => trivial

theorem within_collect {xs : List β} {f : β → Prog ℓ σ ε (Option α)} (h : ∀ x, Within S R (f x)) :
    Within S R (collect xs f) := by
  induction xs with
  | nil => trivial
  | cons x xs ih => exact within_bind (h x) fun _ => within_bind ih fun _ => within_pure _

theorem within_each {xs : List β} {f : β → Prog ℓ σ ε Unit} (h : ∀ x, Within S R (f x)) :
    Within S R (each xs f) := by
  induction xs with
  | nil => trivial
  | cons x xs ih => exact within_bind (h x) fun _ => ih

theorem Within.mono {m : Prog ℓ σ ε α} (hm : Within S R m) (h : ∀ l upd, S l upd → S' l upd) :
    Within S' R m := by
  induction m with
  | done r => trivial
  | step l upd k ih => exact ⟨h l upd hm.1, hm.2.1, fun s => ih s (hm.2.2 s)⟩

/-- An invariant of every admitted step is one of the program. -/
theorem Within.run {m : Prog ℓ σ ε α} (hm : Within S R m) {I : σ → Prop}
    (hI : ∀ l upd, S l upd → ∀ s, I s → I (upd s)) {s : σ} (hs : I s) : I (m.run s).2 := by
  induction m generalizing s with
  | done r => exact hs
  | step l upd k ih => exact ih s (hm.2.2 s) (hI l upd hm.1 s hs)

/-- What is left when the first part has returned. -/
theorem Within.rest {m : Prog ℓ σ ε α} {f : α → Prog ℓ σ ε β} {s t : σ} {a : α}
    (h : Within S R (m >>= f)) (hm : m.run s = (.ok a, t)) : Within S R (f a) := by
  induction m generalizing s with
  | done r =>
    cases hm
    exact h
  | step l upd k ih => exact ih s (h.2.2 s) hm

/-- Some step of the run from this state is one that `E` tells of. -/
def Meets (E : ℓ → (σ → σ) → σ → Prop) : Prog ℓ σ ε α → σ → Prop
  | done _, _ => False
  | step l upd k, s => E l upd s ∨ Meets E (k s) (upd s)

variable {E : ℓ → (σ → σ) → σ → Prop}

/-- A counter that such steps raise, and no others, tells whether there was one. -/
theorem Within.meets_iff {m : Prog ℓ σ ε α} (hm : Within S R m) {f : σ → Nat}
    (hup : ∀ l upd s, S l upd → E l upd s → f s < f (upd s))
    (hkeep : ∀ l upd s, S l upd → ¬ E l upd s → f (upd s) = f s) (s : σ) :
    f s ≤ f (m.run s).2 ∧ (m.Meets E s ↔ f s < f (m.run s).2) := by
  induction m generalizing s with
  | done r => exact ⟨Nat.le_refl _, fun h => h.elim, fun h => (Nat.lt_irrefl _ h).elim⟩
  | step l upd k ih =>
    obtain ⟨hle, hiff⟩ := ih s (hm.2.2 s) (upd s)
    have hrun : (step l upd k).run s = (k s).run (upd s) := rfl
    rw [hrun]
    by_cases he : E l upd s
    · have hlt := Nat.lt_of_lt_of_le (hup l upd s hm.1 he) hle
      exact ⟨Nat.le_of_lt hlt, fun _ => hlt, fun _ => .inl he⟩
    · rw [hkeep l upd s hm.1 he] at hle hiff
      exact ⟨hle, fun h => hiff.mp (h.resolve_left he), fun h => .inr (hiff.mpr h)⟩

theorem Within.not_meets {m : Prog ℓ σ ε α} (hm : Within S R m) (h : ∀ l upd s, S l upd → ¬ E l upd s)
    (s : σ) : ¬ m.Meets E s := by
  induction m generalizing s with
  | done r => exact id
  | step l upd k ih => exact fun hs => hs.elim (h l upd s hm.1) (ih s (hm.2.2 s) (upd s))

end Within

/-! Pre- and postconditions: `Q` when the program returns, `E` when it fails. -/

def Ensures (P : σ → Prop) (m : Prog ℓ σ ε α) (Q : α → σ → Prop) (E : σ → Prop) : Prop :=
  ∀ s, P s → match m.run s with
    | (.ok a, s') => Q a s'
    | (.error _, s') => E s'
    | (.diverge, _) => True

variable {P P' : σ → Prop} {Q Q' : α → σ → Prop} {T : β → σ → Prop} {E : σ → Prop}

theorem ensures_pure {a : α} (h : ∀ s, P s → Q a s) : Ensures P (pure a : Prog ℓ σ ε α) Q E :=
  fun s hs => h s hs

theorem ensures_fail {e : ε} (h : ∀ s, P s → E s) : Ensures P (fail e : Prog ℓ σ ε α) Q E :=
  fun s hs => h s hs

theorem ensures_diverge : Ensures P (diverge : Prog ℓ σ ε α) Q E := fun _ _ => trivial

theorem ensures_liftExcept {r : Except ε α} (hok : ∀ a s, r = .ok a → P s → Q a s)
    (herr : ∀ s, P s → E s) : Ensures P (liftExcept r : Prog ℓ σ ε α) Q E := by
  cases r with
  | ok a => exact fun s hs => hok a s rfl hs
  | error e => exact herr

theorem ensures_bind {m : Prog ℓ σ ε α} {f : α → Prog ℓ σ ε β} (hm : Ensures P m Q E)
    (hf : ∀ a, Ensures (Q a) (f a) T E) : Ensures P (m >>= f) T E := by
  intro s hs
  have hh := hm s hs
  rw [run_bind]
  rcases hr : m.run s with ⟨r, s'⟩
  rw [hr] at hh
  cases r with
  | ok a => exact hf a s' hh
  | error e => exact hh
  | diverge => trivial

theorem ensures_map {m : Prog ℓ σ ε α} {g : α → β} {I : σ → Prop} (h : Ensures P m (fun _ => I) E) :
    Ensures P (g <$> m) (fun _ => I) E := ensures_bind h fun _ => ensures_pure fun _ hs => hs

theorem ensures_mono {E' : σ → Prop} {m : Prog ℓ σ ε α} (h : Ensures P' m Q' E') (hp : ∀ s, P s → P' s)
    (hq : ∀ a s, Q' a s → Q a s) (he : ∀ s, E' s → E s) : Ensures P m Q E := by
  intro s hs
  have hh := h s (hp s hs)
  rcases hr : m.run s with ⟨r, s'⟩
  rw [hr] at hh
  cases r with
  | ok a => exact hq a s' hh
  | error e => exact he s' hh
  | diverge => trivial

theorem ensures_weaken {m : Prog ℓ σ ε α} (h : Ensures P' m Q' E) (hp : ∀ s, P s → P' s)
    (hq : ∀ a s, Q' a s → Q a s) : Ensures P m Q E := ensures_mono h hp hq fun _ he => he

theorem ensures_and {E' : σ → Prop} {m : Prog ℓ σ ε α} (h : Ensures P m Q E) (h' : Ensures P m Q' E') :
    Ensures P m (fun a s => Q a s ∧ Q' a s) fun s => E s ∧ E' s := by
  intro s hs
  have hh := h s hs
  have hh' := h' s hs
  rcases hr : m.run s with ⟨r, s'⟩
  rw [hr] at hh hh'
  cases r with
  | ok a => exact ⟨hh, hh'⟩
  | error e => exact ⟨hh, hh'⟩
  | diverge => trivial

theorem ensures_of {φ : Prop} {m : Prog ℓ σ ε α} (h : φ → Ensures P m Q E) :
    Ensures (fun s => φ ∧ P s) m Q E := fun s hs => h hs.1 s hs.2

theorem ensures_from {m : Prog ℓ σ ε α} (h : ∀ s, P s → Ensures (· = s) m Q E) : Ensures P m Q E :=
  fun s hs => h s hs s rfl

/-- All that is known of what a program leaves. -/
theorem ensures_run {m : Prog ℓ σ ε α} : Ensures P m (fun a t => ∃ s, P s ∧ m.run s = (.ok a, t)) fun _ => True := by
  intro s hs
  rcases hr : m.run s with ⟨r, t⟩
  cases r with
  | ok a => exact ⟨s, hs, hr⟩
  | error | diverge => trivial

theorem Within.ensures {S : ℓ → (σ → σ) → Prop} {R : σ → σ → Prop} {m : Prog ℓ σ ε α}
    (hm : Within S R m) (hI : ∀ l upd, S l upd → ∀ s, P s → P (upd s)) (hE : ∀ s, P s → E s) :
    Ensures P m (fun _ => P) E := by
  intro s hs
  have hh := hm.run hI hs
  rcases hr : m.run s with ⟨r, s'⟩
  rw [hr] at hh
  cases r with
  | ok a => exact hh
  | error e => exact hE s' hh
  | diverge => trivial

theorem ensures_atom {l : ℓ} {upd : σ → σ} {f : σ → Except ε α}
    (hok : ∀ s a, P s → f s = .ok a → Q a (upd s)) (herr : ∀ s e, P s → f s = .error e → E (upd s)) :
    Ensures P (atom l upd f) Q E := by
  intro s hs
  show match (liftExcept (f s)).run (upd s) with
    | (.ok a, s') => Q a s'
    | (.error _, s') => E s'
    | (.diverge, _) => True
  cases hf : f s with
  | ok a => exact hok s a hs hf
  | error e => exact herr s e hs hf

theorem ensures_read {l : ℓ} {f : σ → Except ε α} (hok : ∀ s a, P s → f s = .ok a → Q a s)
    (herr : ∀ s, P s → E s) : Ensures P (read l f) Q E :=
  ensures_atom hok fun s _ hs _ => herr s hs

/-- The loop invariant `J` is about the elements that are done and those that are left. -/
theorem ensures_each {xs : List β} {f : β → Prog ℓ σ ε Unit} (J : List β → List β → σ → Prop)
    (h : ∀ ys x zs, xs = ys ++ x :: zs →
      Ensures (J ys (x :: zs)) (f x) (fun _ => J (ys ++ [x]) zs) E) :
    Ensures (J [] xs) (each xs f) (fun _ => J xs []) E := by
  suffices hh : ∀ ys zs, xs = ys ++ zs → Ensures (J ys zs) (each zs f) (fun _ => J xs []) E from
    hh [] xs rfl
  intro ys zs
  induction zs generalizing ys with
  | nil =>
    intro hxs
    rw [List.append_nil] at hxs
    exact ensures_pure fun s hs => hxs ▸ hs
  | cons x zs ih =>
    intro hxs
    exact ensures_bind (h ys x zs hxs) fun _ => ih (ys ++ [x]) (by simpa using hxs)

theorem ensures_collect {xs : List β} {f : β → Prog ℓ σ ε (Option α)} {I : σ → Prop}
    (h : ∀ x ∈ xs, Ensures I (f x) (fun _ => I) E) : Ensures I (collect xs f) (fun _ => I) E := by
  induction xs with
  | nil => exact ensures_pure fun _ hs => hs
  | cons x xs ih =>
    have hrest := ih fun y hy => h y (List.mem_cons_of_mem x hy)
    exact ensures_bind (h x List.mem_cons_self) fun _ => ensures_bind hrest fun _ => ensures_pure fun _ hs => hs

end Prog
