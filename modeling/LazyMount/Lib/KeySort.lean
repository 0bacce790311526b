import Mathlib.Data.List.Basic
import Mathlib.Data.List.Nodup

/-! Sorting by a comparison that follows the order of keys on the list at hand: elsewhere it need not
be an order at all. -/

namespace KeySort

variable {α κ : Type} [Ord κ]

/-- A stable sort. -/
def sortBy (cmp : α → α → Ordering) (l : List α) : List α := l.mergeSort fun a b => cmp a b != .gt

/-- On these elements the comparison is the one of their keys. -/
def Follows (cmp : α → α → Ordering) (key : α → κ) (l : List α) : Prop :=
  ∀ a ∈ l, ∀ b ∈ l, cmp a b = compare (key a) (key b)

theorem sortBy_perm (cmp : α → α → Ordering) (l : List α) : (sortBy cmp l).Perm l :=
  List.mergeSort_perm l _

theorem sortBy_congr {cmp : α → α → Ordering} {key : α → κ} {l : List α} (h : Follows cmp key l) :
    sortBy cmp l = sortBy (fun a b => compare (key a) (key b)) l := by
  have hmap := List.map_mergeSort (r := fun a b => cmp a b != .gt)
    (s := fun a b => compare (key a) (key b) != .gt) (f := id) (l := l)
    fun a ha b hb => by rw [h a ha b hb]; rfl
  simpa only [List.map_id, sortBy] using hmap

variable [Std.TransOrd κ]

theorem pairwise_le_sortBy (key : α → κ) (l : List α) :
    (sortBy (fun a b => compare (key a) (key b)) l).Pairwise
      fun a b => compare (key a) (key b) ≠ .gt := by
  have hsorted := @List.pairwise_mergeSort α (fun a b => compare (key a) (key b) != .gt)
    (fun a b c hab hbc => by
      simp only [bne_iff_ne, ne_eq, Ordering.ne_gt_iff_isLE] at hab hbc ⊢
      exact Std.TransCmp.isLE_trans hab hbc)
    (fun a b => by
      have hswap : compare (key b) (key a) = (compare (key a) (key b)).swap := Std.OrientedCmp.eq_swap
      rw [hswap]
      cases compare (key a) (key b) <;> rfl)
    l
  exact hsorted.imp fun h => by simpa using h

/-- Elements of one key stay in their order. -/
theorem filter_sortBy [DecidableEq κ] {cmp : α → α → Ordering} {key : α → κ} {l : List α} (h : Follows cmp key l)
    (k : κ) : (sortBy cmp l).filter (fun a => key a = k) = l.filter fun a => key a = k := by
  rw [sortBy_congr h]
  have htrans : ∀ a b c : α, (compare (key a) (key b) != .gt) = true → (compare (key b) (key c) != .gt) = true →
      (compare (key a) (key c) != .gt) = true := by
    intro a b c hab hbc
    simp only [bne_iff_ne, ne_eq, Ordering.ne_gt_iff_isLE] at hab hbc ⊢
    exact Std.TransCmp.isLE_trans hab hbc
  have htotal : ∀ a b : α, ((compare (key a) (key b) != .gt) || (compare (key b) (key a) != .gt)) = true := by
    intro a b
    have hswap : compare (key b) (key a) = (compare (key a) (key b)).swap := Std.OrientedCmp.eq_swap
    rw [hswap]
    cases compare (key a) (key b) <;> rfl
  have hsame : (l.filter fun a => key a = k).Pairwise fun a b => (compare (key a) (key b) != .gt) = true := by
    refine List.pairwise_of_forall_mem_list fun a ha b hb => ?_
    have hka : key a = k := by simpa using (List.mem_filter.mp ha).2
    have hkb : key b = k := by simpa using (List.mem_filter.mp hb).2
    have hself : compare k k = .eq := Std.ReflOrd.compare_self
    rw [hka, hkb, hself]
    rfl
  have hsub := (List.sublist_mergeSort htrans htotal hsame List.filter_sublist).filter fun a => key a = k
  rw [List.filter_filter] at hsub
  simp only [Bool.and_self] at hsub
  exact (hsub.eq_of_length ((sortBy_perm _ l).filter _).length_eq.symm).symm

variable [Std.LawfulEqOrd κ] {cmp : α → α → Ordering} {key : α → κ} {l : List α}

/-- Where no two keys are alike the sort is strict. -/
theorem pairwise_sortBy (h : Follows cmp key l) (hkeys : (l.map key).Nodup) :
    (sortBy cmp l).Pairwise fun a b => compare (key a) (key b) = .lt := by
  have hle := pairwise_le_sortBy key l
  rw [← sortBy_congr h] at hle
  have hdistinct : ((sortBy cmp l).map key).Nodup := ((sortBy_perm cmp l).map key).nodup_iff.2 hkeys
  rw [List.nodup_iff_pairwise_ne, List.pairwise_map] at hdistinct
  refine (hle.and hdistinct).imp fun {a b} hab => ?_
  have heq : compare (key a) (key b) ≠ .eq := fun he => hab.2 (Std.LawfulEqCmp.eq_of_compare he)
  cases hcmp : compare (key a) (key b) with
  | lt => rfl
  | eq => exact (heq hcmp).elim
  | gt => exact (hab.1 hcmp).elim

theorem sortBy_eq_of_perm {l' : List α} (h : Follows cmp key l) (hkeys : (l.map key).Nodup)
    (hperm : l'.Perm l) : sortBy cmp l' = sortBy cmp l := by
  have h' : Follows cmp key l' := fun a ha b hb => h a (hperm.mem_iff.1 ha) b (hperm.mem_iff.1 hb)
  have hkeys' : (l'.map key).Nodup := (hperm.map key).nodup_iff.2 hkeys
  refine List.Perm.eq_of_pairwise ?_ (pairwise_sortBy h' hkeys') (pairwise_sortBy h hkeys)
    ((sortBy_perm cmp l').trans (hperm.trans (sortBy_perm cmp l).symm))
  intro a b _ _ hab hba
  have hswap : compare (key a) (key b) = (compare (key b) (key a)).swap := Std.OrientedCmp.eq_swap
  rw [hswap, hba] at hab
  cases hab

end KeySort
