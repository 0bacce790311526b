import Mathlib.Data.List.Induction

/-! Append-only logs of separator-terminated records over an arbitrary alphabet, and
what a reader that splits at the separator recovers from them. -/

namespace RecordLog

variable {α : Type*} (sep : α)

def encode (rs : List (List α)) : List α := rs.flatMap (· ++ [sep])

/-- The next byte appended starts a record of its own. -/
def AtBoundary (log : List α) : Prop := log = [] ∨ ∃ l, log = l ++ [sep]

@[simp] theorem encode_nil : encode sep [] = [] := rfl

@[simp] theorem encode_cons (r : List α) (rs : List (List α)) :
    encode sep (r :: rs) = r ++ sep :: encode sep rs := by
  simp [encode]

theorem encode_append (rs ts : List (List α)) :
    encode sep (rs ++ ts) = encode sep rs ++ encode sep ts := by
  simp [encode]

theorem atBoundary_encode (rs : List (List α)) : AtBoundary sep (encode sep rs) := by
  induction rs using List.reverseRecOn with
  | nil => exact .inl rfl
  | append_singleton rs r _ => exact .inr ⟨encode sep rs ++ r, by simp [encode_append]⟩

theorem exists_torn_tail {log : List α} (hb : ¬ AtBoundary sep log) :
    ∃ l t, log = l ++ t ∧ AtBoundary sep l ∧ t ≠ [] ∧ sep ∉ t := by
  induction log using List.reverseRecOn with
  | nil => exact (hb (.inl rfl)).elim
  | append_singleton log x ih =>
    have hx : sep ≠ x := fun he => hb (.inr ⟨log, by rw [he]⟩)
    by_cases hl : AtBoundary sep log
    · exact ⟨log, [x], rfl, hl, by simp, by simp [hx]⟩
    · obtain ⟨l, t, rfl, hl, _, ht⟩ := ih hl
      exact ⟨l, t ++ [x], by simp, hl, by simp, by simp [ht, hx]⟩

variable [DecidableEq α]

/-- The non-empty pieces between separators. -/
def decode (log : List α) : List (List α) := (log.splitOn sep).filter (· ≠ [])

@[simp] theorem decode_nil : decode sep ([] : List α) = [] := by simp [decode]

theorem decode_append_sep (l r : List α) :
    decode sep (l ++ sep :: r) = decode sep l ++ decode sep r := by
  simp only [decode, List.splitOn_append_cons_self, List.filter_append]

theorem decode_append_sep_nil (l : List α) : decode sep (l ++ [sep]) = decode sep l := by
  simpa using decode_append_sep sep l []

theorem decode_piece {p : List α} (hp : sep ∉ p) :
    decode sep p = if p = [] then [] else [p] := by
  by_cases he : p = []
  · simp [he]
  · simp [decode, List.splitOn_eq_singleton hp, he]

theorem ne_nil_of_mem_decode {log r : List α} (h : r ∈ decode sep log) : r ≠ [] := by
  simpa using (List.mem_filter.mp h).2

theorem sep_notMem_of_mem_splitOn {log r : List α} (h : r ∈ log.splitOn sep) : sep ∉ r := by
  induction log generalizing r with
  | nil => simp_all
  | cons x xs ih =>
    rw [List.splitOn_cons_eq_if_modifyHead] at h
    by_cases hx : x = sep
    · simp only [hx, beq_self_eq_true, if_true, List.mem_cons] at h
      rcases h with rfl | h
      · simp
      · exact ih h
    · simp only [beq_iff_eq, hx, if_false] at h
      cases hs : xs.splitOn sep with
      | nil => simp [hs] at h
      | cons y ys =>
        simp only [hs, List.modifyHead_cons, List.mem_cons] at h
        rcases h with rfl | h
        · have hy := ih (r := y) (by simp [hs])
          simp [hy, Ne.symm hx]
        · exact ih (by simp [hs, h])

theorem sep_notMem_of_mem_decode {log r : List α} (h : r ∈ decode sep log) : sep ∉ r :=
  sep_notMem_of_mem_splitOn sep (List.mem_filter.mp h).1

theorem decode_encode {rs : List (List α)} (h : ∀ r ∈ rs, sep ∉ r) :
    decode sep (encode sep rs) = rs.filter (· ≠ []) := by
  induction rs with
  | nil => simp
  | cons r rs ih =>
    rw [encode_cons, decode_append_sep, decode_piece sep (h r (by simp)),
      ih (fun t ht => h t (by simp [ht]))]
    by_cases he : r = [] <;> simp [he]

theorem splitOn_encode {rs : List (List α)} (h : ∀ r ∈ rs, sep ∉ r) :
    (encode sep rs).splitOn sep = rs ++ [[]] := by
  induction rs with
  | nil => simp
  | cons r rs ih =>
    rw [encode_cons, List.splitOn_append_cons_self_of_not_mem (h r (by simp)),
      ih (fun t ht => h t (by simp [ht]))]
    rfl

theorem decode_append {log : List α} (hb : AtBoundary sep log) (r : List α) :
    decode sep (log ++ r) = decode sep log ++ decode sep r := by
  rcases hb with rfl | ⟨l, rfl⟩
  · simp
  · rw [List.append_assoc, List.singleton_append, decode_append_sep, decode_append_sep_nil]

theorem decode_append_record {log p : List α} (hb : AtBoundary sep log)
    (hp : sep ∉ p) (hne : p ≠ []) : decode sep (log ++ (p ++ [sep])) = decode sep log ++ [p] := by
  rw [decode_append sep hb, decode_append_sep_nil, decode_piece sep hp, if_neg hne]

theorem decode_append_torn {log p : List α} (hb : ¬ AtBoundary sep log) (hp : sep ∉ p) :
    ∃ rs t, t ≠ [] ∧ decode sep log = rs ++ [t] ∧
      decode sep (log ++ (p ++ [sep])) = rs ++ [t ++ p] := by
  obtain ⟨l, t, rfl, hl, hne, ht⟩ := exists_torn_tail sep hb
  refine ⟨decode sep l, t, hne, ?_, ?_⟩
  · rw [decode_append sep hl, decode_piece sep ht, if_neg hne]
  · have hs : sep ∉ t ++ p := by simp [ht, hp]
    rw [List.append_assoc, ← List.append_assoc t, decode_append sep hl, decode_append_sep_nil,
      decode_piece sep hs, if_neg (by simp [hne])]

end RecordLog
