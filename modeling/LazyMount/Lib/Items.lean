import Mathlib.Data.List.Basic

/-! Items written one after the other. If every item shows where it ends, a text is a sequence of
items in one way at most, and a text that stops inside an item is no sequence at all. -/

namespace Items

variable {α β : Type} {item : α → List β → Prop}

/-- The texts of the items, in order, make up the whole text. -/
inductive Many (item : α → List β → Prop) : List α → List β → Prop
  | nil : Many item [] []
  | cons {a as u bs} (head : item a u) (tail : Many item as bs) : Many item (a :: as) (u ++ bs)

structure SelfDelimiting (item : α → List β → Prop) : Prop where
  ne_nil : ∀ {a u}, item a u → u ≠ []
  ends : ∀ {a b u v s t}, item a u → item b v → u ++ s = v ++ t → a = b ∧ u = v

theorem Many.append {as bs : List α} {u v : List β} (ha : Many item as u) (hb : Many item bs v) :
    Many item (as ++ bs) (u ++ v) := by
  induction ha with
  | nil => exact hb
  | cons head _ ih =>
    rw [List.append_assoc]
    exact .cons head ih

/-- What follows a sequence that another one begins with is a sequence itself. -/
theorem Many.rest (hitem : SelfDelimiting item) {as bs : List α} {u s : List β}
    (ha : Many item as u) (hb : Many item bs (u ++ s)) :
    ∃ cs, bs = as ++ cs ∧ Many item cs s := by
  induction ha generalizing bs with
  | nil => exact ⟨bs, rfl, hb⟩
  | @cons a as u v head _ ih =>
    generalize htext : u ++ v ++ s = text at hb
    cases hb with
    | nil =>
      have hnil : u = [] := by simp only [List.append_eq_nil_iff] at htext; exact htext.1.1
      exact (hitem.ne_nil head hnil).elim
    | @cons b bs u' v' head' tail' =>
      rw [List.append_assoc] at htext
      obtain ⟨rfl, rfl⟩ := hitem.ends head head' htext
      rw [← List.append_cancel_left htext] at tail'
      obtain ⟨cs, rfl, hcs⟩ := ih tail'
      exact ⟨cs, rfl, hcs⟩

theorem Many.eq_nil (hitem : SelfDelimiting item) {as : List α} (h : Many item as []) : as = [] := by
  generalize htext : ([] : List β) = text at h
  cases h with
  | nil => rfl
  | @cons a as u v head _ =>
    have hnil : u = [] := (List.append_eq_nil_iff.1 htext.symm).1
    exact (hitem.ne_nil head hnil).elim

theorem Many.unique (hitem : SelfDelimiting item) {as bs : List α} {u : List β}
    (ha : Many item as u) (hb : Many item bs u) : as = bs := by
  rw [← List.append_nil u] at hb
  obtain ⟨cs, rfl, hcs⟩ := ha.rest hitem hb
  rw [hcs.eq_nil hitem, List.append_nil]

theorem Many.not_truncated (hitem : SelfDelimiting item) {as bs : List α} {a : α} {u v s : List β}
    (ha : Many item as u) (hcut : item a (v ++ s)) (hv : v ≠ []) (hs : s ≠ []) :
    ¬Many item bs (u ++ v) := by
  intro hb
  obtain ⟨cs, rfl, hcs⟩ := ha.rest hitem hb
  cases hcs with
  | nil => exact hv rfl
  | @cons c cs w bs head _ =>
    -- the first item of the rest and the item that is cut begin alike
    have hboth : w ++ (bs ++ s) = w ++ bs ++ s ++ [] := by simp only [List.append_assoc, List.append_nil]
    have hw : w = w ++ bs ++ s := (hitem.ends head hcut hboth).2
    have hlen := congrArg List.length hw
    have hpos := List.length_pos_of_ne_nil hs
    simp only [List.length_append] at hlen
    omega

section Splitting

variable [DecidableEq α]

theorem idxOf?_append_cons {a : α} {front : List α} (h : a ∉ front) (back : List α) :
    (front ++ a :: back).idxOf? a = some front.length := by
  rw [List.idxOf?_eq_some_iff]
  refine ⟨by simp, by simp, ?_⟩
  intro j hj
  rw [List.getElem_append_left hj]
  exact fun he => h (he ▸ List.getElem_mem hj)

theorem split_of_idxOf? {a : α} {l : List α} {i : Nat} (h : l.idxOf? a = some i) :
    ∃ front back, a ∉ front ∧ front.length = i ∧ l = front ++ a :: back := by
  obtain ⟨hi, ha, hbefore⟩ := List.idxOf?_eq_some_iff.1 h
  refine ⟨l.take i, l.drop (i + 1), ?_, List.length_take_of_le (Nat.le_of_lt hi), ?_⟩
  · intro hmem
    obtain ⟨j, hj, he⟩ := List.getElem_of_mem hmem
    have hji : j < i := by rw [List.length_take] at hj; omega
    rw [List.getElem_take] at he
    exact hbefore j hji he
  · rw [← ha, List.getElem_cons_drop, List.take_append_drop]

theorem split_unique {a : α} {front front' back back' : List α} (h : a ∉ front) (h' : a ∉ front')
    (he : front ++ a :: back = front' ++ a :: back') : front = front' ∧ back = back' := by
  have hlen : front.length = front'.length := by
    have hidx := idxOf?_append_cons h back
    rw [he, idxOf?_append_cons h' back'] at hidx
    exact (Option.some.inj hidx).symm
  obtain ⟨hfront, hback⟩ := List.append_inj he hlen
  exact ⟨hfront, (List.cons.inj hback).2⟩

end Splitting

end Items
