import Mathlib.Logic.Function.Basic

/-! A lock for each key, and what the parties are at: a party's phase tells which lock it holds, if it
holds one. -/

namespace KeyedLock

open Function (update)

variable {κ φ : Type} (lockOf : φ → Option κ)

/-- The lock's word and the phases agree on who holds it. -/
def Exclusive (holder : κ → Option Nat) (phase : Nat → φ) : Prop :=
  ∀ k c, holder k = some c ↔ lockOf (phase c) = some k

variable {lockOf} {holder : κ → Option Nat} {phase : Nat → φ} {c d : Nat} {k : κ} {p : φ}

theorem Exclusive.unique (h : Exclusive lockOf holder phase) (hc : lockOf (phase c) = some k)
    (hd : lockOf (phase d) = some k) : c = d := by
  rw [← h] at hc hd
  rw [hc] at hd
  exact Option.some.inj hd

/-- A party goes on with the lock that it has, or without one. -/
theorem Exclusive.move (h : Exclusive lockOf holder phase) (hp : lockOf p = lockOf (phase c)) :
    Exclusive lockOf holder (update phase c p) := by
  intro k d
  rw [h]
  by_cases hd : d = c
  · rw [hd, Function.update_self, hp]
  · rw [Function.update_of_ne hd]

variable [DecidableEq κ]

theorem Exclusive.acquire (h : Exclusive lockOf holder phase) (hfree : holder k = none)
    (hc : lockOf (phase c) = none) (hp : lockOf p = some k) :
    Exclusive lockOf (update holder k (some c)) (update phase c p) := by
  intro j d
  by_cases hj : j = k <;> by_cases hd : d = c
  · rw [hj, hd, Function.update_self, Function.update_self, hp]
    simp
  · rw [hj, Function.update_self, Function.update_of_ne hd, ← h, hfree]
    simp [Ne.symm hd]
  · rw [hd, Function.update_of_ne hj, Function.update_self, hp, h, hc]
    simp [Ne.symm hj]
  · rw [Function.update_of_ne hj, Function.update_of_ne hd, h]

theorem Exclusive.release (h : Exclusive lockOf holder phase) (hc : lockOf (phase c) = some k)
    (hp : lockOf p = none) : Exclusive lockOf (update holder k none) (update phase c p) := by
  intro j d
  by_cases hj : j = k <;> by_cases hd : d = c
  · rw [hj, hd, Function.update_self, Function.update_self, hp]
    simp
  · have hother : lockOf (phase d) ≠ some k := fun hdk => hd (h.unique hdk hc)
    rw [hj, Function.update_self, Function.update_of_ne hd]
    simp [hother]
  · rw [hd, Function.update_of_ne hj, Function.update_self, hp, h, hc]
    simp [Ne.symm hj]
  · rw [Function.update_of_ne hj, Function.update_of_ne hd, h]

end KeyedLock
