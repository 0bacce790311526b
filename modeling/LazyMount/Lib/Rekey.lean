import Mathlib.Logic.Function.Basic

/-! Maps whose values move from key to key, one pair of keys at a time. -/

namespace Rekey

open Function (update)

variable {κ ι : Type}

/-- No two pairs share a key, unless they are the same. -/
structure Matching (pairs : List (κ × κ)) : Prop where
  iff : ∀ a b a' b', (a, b) ∈ pairs → (a', b') ∈ pairs → (a = a' ↔ b = b')
  apart : ∀ a b a' b', (a, b) ∈ pairs → (a', b') ∈ pairs → a ≠ b'

theorem Matching.tail {p : κ × κ} {pairs : List (κ × κ)} (h : Matching (p :: pairs)) : Matching pairs :=
  ⟨fun a b a' b' hp hq => h.iff a b a' b' (List.mem_cons_of_mem p hp) (List.mem_cons_of_mem p hq),
    fun a b a' b' hp hq => h.apart a b a' b' (List.mem_cons_of_mem p hp) (List.mem_cons_of_mem p hq)⟩

variable [DecidableEq κ]

/-- The value of `old` goes to `new`, if there is one. -/
def shift (m : κ → Option ι) (old new : κ) : κ → Option ι :=
  match m old with
  | some i => update (update m old none) new (some i)
  | none => m

def shiftAll (m : κ → Option ι) (pairs : List (κ × κ)) : κ → Option ι :=
  pairs.foldl (fun m p => shift m p.1 p.2) m

variable {m : κ → Option ι} {pairs : List (κ × κ)} {a b c old new : κ}

theorem shift_of_none (h : m old = none) : shift m old new = m := by
  simp [shift, h]

theorem shift_of_some {i : ι} (h : m old = some i) :
    shift m old new = update (update m old none) new (some i) := by
  simp [shift, h]

theorem shift_of_ne (hold : c ≠ old) (hnew : c ≠ new) : shift m old new c = m c := by
  cases h : m old with
  | none => rw [shift_of_none h]
  | some i => rw [shift_of_some h, Function.update_of_ne hnew, Function.update_of_ne hold]

theorem shift_old (hne : old ≠ new) : shift m old new old = none := by
  cases h : m old with
  | none => rw [shift_of_none h, h]
  | some i => rw [shift_of_some h, Function.update_of_ne hne, Function.update_self]

theorem shift_new : shift m old new new = (m old).or (m new) := by
  cases h : m old with
  | none => rw [shift_of_none h, Option.none_or]
  | some i => rw [shift_of_some h, Function.update_self, Option.some_or]

theorem shiftAll_append (m : κ → Option ι) (xs ys : List (κ × κ)) :
    shiftAll m (xs ++ ys) = shiftAll (shiftAll m xs) ys := List.foldl_append

theorem shiftAll_of_notMem (h : ∀ p ∈ pairs, c ≠ p.1 ∧ c ≠ p.2) : shiftAll m pairs c = m c := by
  induction pairs generalizing m with
  | nil => rfl
  | cons p pairs ih =>
    have hrest := ih (m := shift m p.1 p.2) fun q hq => h q (List.mem_cons_of_mem p hq)
    obtain ⟨hold, hnew⟩ := h p List.mem_cons_self
    rw [shift_of_ne hold hnew] at hrest
    exact hrest

/-- Whatever the order, the value of `a` goes to `b`, and `b` keeps its own only if there is none. -/
theorem shiftAll_of_mem (h : Matching pairs) (hmem : (a, b) ∈ pairs) :
    shiftAll m pairs a = none ∧ shiftAll m pairs b = (m a).or (m b) := by
  induction pairs generalizing m with
  | nil => cases hmem
  | cons p pairs ih =>
    obtain ⟨old, new⟩ := p
    have hfirst : (old, new) ∈ (old, new) :: pairs := List.mem_cons_self
    have hne : old ≠ new := h.apart old new old new hfirst hfirst
    show shiftAll (shift m old new) pairs a = none ∧ shiftAll (shift m old new) pairs b = _
    by_cases hin : (a, b) ∈ pairs
    · obtain ⟨hnone, hval⟩ := ih (m := shift m old new) h.tail hin
      refine ⟨hnone, ?_⟩
      rw [hval]
      by_cases ha : a = old
      · have hb : b = new := (h.iff a b old new hmem hfirst).mp ha
        rw [ha, hb, shift_old hne, shift_new, Option.none_or]
      · have hb : b ≠ new := fun hb => ha ((h.iff a b old new hmem hfirst).mpr hb)
        have hcross := h.apart a b old new hmem hfirst
        have hcross' := (h.apart old new a b hfirst hmem).symm
        rw [shift_of_ne ha hcross, shift_of_ne hcross' hb]
    · obtain ⟨rfl, rfl⟩ : a = old ∧ b = new := by
        rcases List.mem_cons.mp hmem with heq | hmem
        · exact ⟨congrArg Prod.fst heq, congrArg Prod.snd heq⟩
        · exact absurd hmem hin
      have hfree : ∀ p ∈ pairs, (a ≠ p.1 ∧ a ≠ p.2) ∧ b ≠ p.1 ∧ b ≠ p.2 := by
        intro p hp
        have hp' := List.mem_cons_of_mem (a, b) hp
        have hiff := h.iff a b p.1 p.2 hmem hp'
        have ha : a ≠ p.1 := fun ha => hin (by rw [ha, hiff.mp ha]; exact hp)
        have hb : b ≠ p.2 := fun hb => hin (by rw [hiff.mpr hb, hb]; exact hp)
        exact ⟨⟨ha, h.apart a b p.1 p.2 hmem hp'⟩, (h.apart p.1 p.2 a b hp' hmem).symm, hb⟩
      rw [shiftAll_of_notMem fun p hp => (hfree p hp).1, shiftAll_of_notMem fun p hp => (hfree p hp).2]
      exact ⟨shift_old hne, shift_new⟩

end Rekey
