import Mathlib.Algebra.BigOperators.Group.Finset.Basic
import Mathlib.Data.Fintype.BigOperators
import Mathlib.Logic.Function.Basic

/-! How many of the first `n` parties are where a test asks, and what one party's step does to that. -/

namespace Tally

open Function (update)

variable {φ : Type} (q : φ → Bool)

def count (f : Nat → φ) : Nat → Nat
  | 0 => 0
  | n + 1 => count f n + if q (f n) then 1 else 0

variable {q} {f : Nat → φ} {n w : Nat} {p : φ}

theorem count_le (q : φ → Bool) (f : Nat → φ) (n : Nat) : count q f n ≤ n := by
  induction n with
  | zero => exact Nat.le_refl 0
  | succ n ih =>
    rw [count]
    split <;> omega

theorem count_update_of_le (h : n ≤ w) : count q (update f w p) n = count q f n := by
  induction n with
  | zero => rfl
  | succ n ih =>
    have hne : n ≠ w := by omega
    rw [count, count, ih (by omega), Function.update_of_ne hne]

theorem count_update (h : w < n) :
    count q (update f w p) n + (if q (f w) then 1 else 0) = count q f n + if q p then 1 else 0 := by
  induction n with
  | zero => omega
  | succ n ih =>
    rw [count, count]
    by_cases hw : w = n
    · rw [hw, Function.update_self, count_update_of_le (Nat.le_refl n)]
      omega
    · have hrest := ih (by omega)
      rw [Function.update_of_ne (Ne.symm hw)]
      omega

/-- The same for weights and a fixed number of parties. -/
theorem sum_update {n : Nat} (weight : φ → Nat) (f : Fin n → φ) (w : Fin n) (p : φ) :
    (∑ v, weight (update f w p v)) + weight (f w) = (∑ v, weight (f v)) + weight p := by
  have hsplit := Finset.sum_update_of_mem (Finset.mem_univ w) (weight ∘ f) (weight p)
  have hrest := Finset.add_sum_erase Finset.univ (weight ∘ f) (Finset.mem_univ w)
  rw [← Function.comp_update, Finset.sdiff_singleton_eq_erase] at hsplit
  simp only [Function.comp_apply] at hsplit hrest
  omega

/-- The parties are the first `n` of all numbers. -/
theorem sum_update_val {n : Nat} (weight : φ → Nat) (f : Nat → φ) {w : Nat} (hw : w < n) (p : φ) :
    (∑ v : Fin n, weight (update f w p v)) + weight (f w) = (∑ v : Fin n, weight (f v)) + weight p := by
  have hcomp : (fun v : Fin n => update f w p v) = update (fun v : Fin n => f v) ⟨w, hw⟩ p := by
    funext v
    by_cases hv : v = ⟨w, hw⟩
    · rw [hv, Function.update_self, Function.update_self]
    · have hval : v.val ≠ w := fun h => hv (Fin.ext h)
      rw [Function.update_of_ne hv, Function.update_of_ne hval]
  have hsum := sum_update weight (fun v : Fin n => f v) ⟨w, hw⟩ p
  rwa [← hcomp] at hsum

end Tally
