import Mathlib.Data.Set.Basic
import Mathlib.Logic.Function.Basic

/-! A reader that keeps what it has seen, and forgets the keys that a feed marks as changed since it
last asked. -/

namespace ChangeFeed

open Function (update)

variable {σ κ ν : Type*}

/-- What there is to see in a state, and the keys marked in a state since an earlier one. -/
structure Feed (σ κ ν : Type*) where
  view : σ → κ → ν
  marked : σ → σ → Set κ

namespace Feed

variable (F : Feed σ κ ν)

/-- From `a` to `s` no key changed without a mark. -/
def Sound (a s : σ) : Prop := ∀ k, k ∉ F.marked a s → F.view s k = F.view a k

/-- Each key that the reader has seen shows the same still, or is marked since `a`. -/
def Believes (a s : σ) (seen : κ → Option ν) : Prop :=
  ∀ k v, seen k = some v → k ∈ F.marked a s ∨ v = F.view s k

variable {F} {a s t : σ} {seen : κ → Option ν}

/-- What shows the same at `s` as at `a` does so at `t`, unless it is marked by then. -/
theorem Believes.move (h : F.Believes a s seen) (hs : F.Sound a s) (ht : F.Sound a t)
    (hmono : F.marked a s ⊆ F.marked a t) : F.Believes a t seen := by
  intro k v hv
  by_cases hk : k ∈ F.marked a t
  · exact .inl hk
  · have hks : k ∉ F.marked a s := fun hm => hk (hmono hm)
    rcases h k v hv with hm | rfl
    · exact absurd hm hks
    · rw [hs k hks, ht k hk]
      exact .inr rfl

theorem Believes.look [DecidableEq κ] (h : F.Believes a s seen) (k : κ) :
    F.Believes a s (update seen k (some (F.view s k))) := by
  intro j v hv
  by_cases hj : j = k
  · subst hj
    rw [Function.update_self] at hv
    exact .inr (Option.some.inj hv).symm
  · rw [Function.update_of_ne hj] at hv
    exact h j v hv

theorem Believes.mono (h : F.Believes a s seen) {seen' : κ → Option ν}
    (hsub : ∀ k v, seen' k = some v → seen k = some v) : F.Believes a s seen' := by
  intro k v hv
  exact h k v (hsub k v hv)

/-- A reader that takes over values, each the one there is to see or for a marked key. -/
theorem Believes.accept (h : F.Believes a s seen) {accepts : κ → Bool} {value : κ → ν}
    (hvalue : ∀ k, accepts k = true → k ∈ F.marked a s ∨ value k = F.view s k) :
    F.Believes a s fun k => if accepts k then some (value k) else seen k := by
  intro k v hv
  dsimp only at hv
  split at hv
  · rename_i hk
    rw [← Option.some.inj hv]
    exact hvalue k hk
  · exact h k v hv

/-- A reader that forgets what it is told, if it is told of all marks, is right about the rest. -/
theorem Believes.forget (h : F.Believes a s seen) {told : κ → Bool}
    (htold : ∀ k ∈ F.marked a s, told k = true) {k : κ} {v : ν}
    (hv : (if told k then none else seen k) = some v) : v = F.view s k := by
  split at hv
  · cases hv
  · rename_i hk
    rcases h k v hv with hm | hview
    · exact absurd (htold k hm) hk
    · exact hview

end Feed

end ChangeFeed
