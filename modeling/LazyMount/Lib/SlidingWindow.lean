import Mathlib.Data.List.Infix

/-! A history of which only a suffix is retained. A reader numbers the retained entries it
keeps from the count of dropped ones; `label` is the number of the last one. -/

namespace SlidingWindow

variable {α : Type*} (keep : α → Bool)

def window (base : Nat) (h : List α) : List α := (h.drop base).filter keep

def label (base : Nat) (h : List α) : Nat := base + (window keep base h).length

theorem window_append {base : Nat} {h : List α} (hb : base ≤ h.length) (t : List α) :
    window keep base (h ++ t) = window keep base h ++ t.filter keep := by
  simp only [window, List.drop_append_of_le_length hb, List.filter_append]

theorem label_le_length {base : Nat} {h : List α} (hb : base ≤ h.length) :
    label keep base h ≤ h.length := by
  have := List.length_filter_le keep (h.drop base)
  simp only [List.length_drop] at this
  simp only [label, window]
  omega

theorem label_mono {b c : Nat} (h : List α) (hbc : b ≤ c) : label keep b h ≤ label keep c h := by
  obtain ⟨n, rfl⟩ := Nat.exists_eq_add_of_le hbc
  have hs : h.drop b = (h.drop b).take n ++ h.drop (b + n) := by
    rw [← List.drop_drop, List.take_append_drop]
  have hl := List.length_filter_le keep ((h.drop b).take n)
  have ht := List.length_take_le n (h.drop b)
  simp only [label, window]
  rw [hs, List.filter_append, List.length_append]
  omega

/-- A reader that holds the label of an earlier history, reads a window with a base that is
at least the window's own, and takes the entries above that label misses none of the kept
entries that came later. -/
theorem mem_drop_of_later {b c base : Nat} {h t : List α} {x : α}
    (hb : b ≤ h.length) (hbc : b ≤ c) (hbase : c ≤ base) (hlive : base ≤ label keep b h)
    (hx : x ∈ t) (hk : keep x = true) :
    x ∈ (window keep c (h ++ t)).drop (label keep b h - base) := by
  have hle := label_le_length keep hb
  have hmono := label_mono keep h hbc
  have hc : c ≤ h.length := by omega
  have hoff : label keep b h - base ≤ (window keep c h).length := by
    simp only [label] at hmono ⊢
    omega
  rw [window_append keep hc, List.drop_append_of_le_length hoff]
  exact List.mem_append_right _ (List.mem_filter.mpr ⟨hx, hk⟩)

theorem mem_drop_drop_append {m k : Nat} {h t : List α} {x : α} (hle : m + k ≤ h.length)
    (hx : x ∈ t) : x ∈ ((h ++ t).drop m).drop k := by
  rw [List.drop_drop, List.drop_append_of_le_length hle]
  exact List.mem_append_right _ hx

end SlidingWindow
