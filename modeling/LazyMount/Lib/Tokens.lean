import Mathlib.Data.List.Basic

/-! The tokens that separators leave of a text, and where in the text one stands that is not the
first. -/

namespace Tokens

variable {α : Type} {p : α → Bool}

/-- The non-empty pieces between separators. -/
def tokens (p : α → Bool) (l : List α) : List (List α) := (l.splitOnP p).filter (!·.isEmpty)

/-- A separator, or the end. -/
def Ends (p : α → Bool) (l : List α) : Prop := l = [] ∨ ∃ c l', l = c :: l' ∧ p c = true

theorem tokens_append (a b : List α) {c : α} (hc : p c = true) :
    tokens p (a ++ c :: b) = tokens p a ++ tokens p b := by
  rw [tokens, List.splitOnP_append_cons a b hc, List.filter_append]
  rfl

theorem tokens_nil : tokens p [] = [] := by simp [tokens]

theorem tokens_of_clean {t : List α} (ht : t ≠ []) (hclean : ∀ x ∈ t, p x = false) :
    tokens p t = [t] := by
  rw [tokens, List.splitOnP_eq_singleton hclean]
  simp [ht]

theorem tokens_of_ends {t b : List α} (ht : t ≠ []) (hclean : ∀ x ∈ t, p x = false) (hb : Ends p b) :
    t ∈ tokens p (t ++ b) := by
  rcases hb with rfl | ⟨c, b, rfl, hc⟩
  · rw [List.append_nil, tokens_of_clean ht hclean]
    exact List.mem_singleton_self t
  · rw [tokens_append t b hc, tokens_of_clean ht hclean]
    exact List.mem_append_left _ (List.mem_singleton_self t)

theorem clean_or_split (p : α → Bool) (l : List α) :
    (∀ x ∈ l, p x = false) ∨ ∃ a c b, l = a ++ c :: b ∧ (∀ x ∈ a, p x = false) ∧ p c = true := by
  induction l with
  | nil => exact .inl (by simp)
  | cons x l ih =>
    cases hx : p x with
    | true => exact .inr ⟨[], x, l, rfl, by simp, hx⟩
    | false =>
      rcases ih with hclean | ⟨a, c, b, rfl, ha, hc⟩
      · exact .inl (List.forall_mem_cons.2 ⟨hx, hclean⟩)
      · exact .inr ⟨x :: a, c, b, rfl, List.forall_mem_cons.2 ⟨hx, ha⟩, hc⟩

theorem tokens_ne_nil {l : List α} {x : α} (hx : x ∈ l) (hp : p x = false) : tokens p l ≠ [] := by
  induction hn : l.length using Nat.strongRecOn generalizing l with
  | ind n ih =>
    rcases clean_or_split p l with hclean | ⟨a, c, b, rfl, ha, hc⟩
    · rw [tokens_of_clean (List.ne_nil_of_mem hx) hclean]
      simp
    · rw [tokens_append a b hc]
      rcases List.mem_append.1 hx with hxa | hxb
      · rw [tokens_of_clean (List.ne_nil_of_mem hxa) ha]
        simp
      · rcases List.mem_cons.1 hxb with rfl | hxb
        · rw [hp] at hc
          cases hc
        · have hlen : b.length < n := by
            simp only [List.length_append, List.length_cons] at hn
            omega
          simp [ih b.length hlen hxb rfl]

/-- A token behind a separator: a separator stands right before it, and it ends at one. -/
theorem split_of_mem {c : α} {l t : List α} (hc : p c = true) (ht : t ∈ tokens p l) :
    ∃ a d b, c :: l = a ++ d :: (t ++ b) ∧ p d = true ∧ Ends p b := by
  induction hn : l.length using Nat.strongRecOn generalizing c l with
  | ind n ih =>
    by_cases hnil : l = []
    · rw [hnil, tokens_nil] at ht
      cases ht
    rcases clean_or_split p l with hclean | ⟨f, d, r, rfl, hf, hd⟩
    · rw [tokens_of_clean hnil hclean] at ht
      obtain rfl := List.mem_singleton.1 ht
      exact ⟨[], c, [], by simp, hc, .inl rfl⟩
    · rw [tokens_append f r hd] at ht
      rcases List.mem_append.1 ht with ht | ht
      · by_cases hfnil : f = []
        · rw [hfnil, tokens_nil] at ht
          cases ht
        · rw [tokens_of_clean hfnil hf] at ht
          obtain rfl := List.mem_singleton.1 ht
          exact ⟨[], c, d :: r, rfl, hc, .inr ⟨d, r, rfl, hd⟩⟩
      · have hlen : r.length < n := by
          simp only [List.length_append, List.length_cons] at hn
          omega
        obtain ⟨a, e, b, he, hpe, hb⟩ := ih r.length hlen hd ht rfl
        exact ⟨c :: (f ++ a), e, b, by simp [he], hpe, hb⟩

theorem ne_nil_of_mem {l t : List α} (ht : t ∈ tokens p l) : t ≠ [] := by
  have hkept := (List.mem_filter.1 ht).2
  rintro rfl
  cases hkept

/-- A token that is not the first one stands behind a separator with more than separators before it. -/
theorem split_of_mem_tail {l t : List α} (ht : t ∈ (tokens p l).tail) :
    ∃ a c b, l = a ++ c :: (t ++ b) ∧ (∃ x ∈ a, p x = false) ∧ p c = true ∧ Ends p b := by
  induction hn : l.length using Nat.strongRecOn generalizing l with
  | ind n ih =>
    rcases clean_or_split p l with hclean | ⟨f, c, r, rfl, hf, hc⟩
    · by_cases hnil : l = []
      · rw [hnil, tokens_nil] at ht
        cases ht
      · rw [tokens_of_clean hnil hclean] at ht
        cases ht
    · rw [tokens_append f r hc] at ht
      cases f with
      | nil =>
        rw [tokens_nil, List.nil_append] at ht
        have hlen : r.length < n := by
          simp only [List.nil_append, List.length_cons] at hn
          omega
        obtain ⟨a, d, b, rfl, ⟨x, hx, hpx⟩, hd, hb⟩ := ih r.length hlen ht rfl
        exact ⟨c :: a, d, b, by simp, ⟨x, List.mem_cons_of_mem c hx, hpx⟩, hd, hb⟩
      | cons x f =>
        rw [tokens_of_clean (by simp) hf, List.singleton_append, List.tail_cons] at ht
        obtain ⟨a, d, b, he, hd, hb⟩ := split_of_mem hc ht
        refine ⟨x :: f ++ a, d, b, by rw [he, List.append_assoc], ⟨x, by simp, ?_⟩, hd, hb⟩
        exact hf x List.mem_cons_self

theorem mem_tail_of_split {a t b : List α} {c x : α} (hx : x ∈ a) (hpx : p x = false) (hc : p c = true)
    (ht : t ≠ []) (hclean : ∀ y ∈ t, p y = false) (hb : Ends p b) :
    t ∈ (tokens p (a ++ c :: (t ++ b))).tail := by
  rw [tokens_append a _ hc, List.tail_append_of_ne_nil (tokens_ne_nil hx hpx)]
  exact List.mem_append_right _ (tokens_of_ends ht hclean hb)

end Tokens
