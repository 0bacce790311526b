import Mathlib.Data.List.Basic

/-! A stream that arrives in pieces, and where its first line ends among them. -/

namespace Pieces

variable {α ε : Type}

/-- The answer to a request for more. -/
inductive Fill (α ε : Type) where
  | chunk (items : List α)
  | interrupted
  | failed (error : ε)
deriving DecidableEq, Repr

def stream : List (Fill α ε) → List α
  | [] => []
  | .chunk items :: fills => items ++ stream fills
  | .interrupted :: fills | .failed _ :: fills => stream fills

/-- No piece is empty and no request fails, up to the end of the stream. -/
def Whole (fills : List (Fill α ε)) : Prop :=
  ∀ f ∈ fills, (∃ items, items ≠ [] ∧ f = .chunk items) ∨ f = .interrupted

section Whole

variable {items : List α} {fills : List (Fill α ε)}

theorem whole_nil : Whole ([] : List (Fill α ε)) := fun _ h => (List.not_mem_nil h).elim

theorem Whole.tail {f : Fill α ε} (h : Whole (f :: fills)) : Whole fills :=
  fun g hg => h g (List.mem_cons_of_mem f hg)

theorem Whole.cons (h : Whole fills) (hne : items ≠ []) : Whole (.chunk items :: fills) := by
  intro f hf
  rcases List.mem_cons.mp hf with rfl | hf
  · exact .inl ⟨items, hne, rfl⟩
  · exact h f hf

end Whole

variable [DecidableEq α] (sep : α)

/-- Up to and with the first separator, or everything. -/
def line (s : List α) : List α :=
  match s.idxOf? sep with
  | some i => s.take (i + 1)
  | none => s

def behindLine (s : List α) : List α :=
  match s.idxOf? sep with
  | some i => s.drop (i + 1)
  | none => []

/-- What comes in pieces before the one with the first separator. -/
def lead : List (Fill α ε) → List α
  | [] => []
  | .chunk items :: fills => if sep ∈ items then [] else items ++ lead fills
  | .interrupted :: fills => lead fills
  | .failed _ :: _ => []

variable {sep} {items s : List α} {fills : List (Fill α ε)}

theorem idxOf?_append_of_mem (h : sep ∈ items) (s : List α) : (items ++ s).idxOf? sep = items.idxOf? sep := by
  show (items ++ s).findIdx? (· == sep) = items.findIdx? (· == sep)
  rw [List.findIdx?_append]
  cases hi : items.findIdx? (· == sep) with
  | some i => rfl
  | none => exact ((List.idxOf?_eq_none_iff.mp hi) h).elim

theorem idxOf?_append_of_notMem (h : sep ∉ items) (s : List α) :
    (items ++ s).idxOf? sep = (s.idxOf? sep).map (· + items.length) := by
  have hnone : items.findIdx? (· == sep) = none := List.idxOf?_eq_none_iff.mpr h
  rw [List.idxOf?, List.findIdx?_append, hnone]
  rfl

theorem line_append_of_mem (h : sep ∈ items) (s : List α) :
    line sep (items ++ s) = line sep items ∧ behindLine sep (items ++ s) = behindLine sep items ++ s := by
  simp only [line, behindLine, idxOf?_append_of_mem h]
  cases hi : items.idxOf? sep with
  | none => exact ((List.idxOf?_eq_none_iff.mp hi) h).elim
  | some i =>
    have hlt : i < items.length := (List.idxOf?_eq_some_iff.mp hi).1
    exact ⟨List.take_append_of_le_length hlt, List.drop_append_of_le_length hlt⟩

theorem line_append_of_notMem (h : sep ∉ items) (s : List α) :
    line sep (items ++ s) = items ++ line sep s ∧ behindLine sep (items ++ s) = behindLine sep s := by
  simp only [line, behindLine, idxOf?_append_of_notMem h]
  cases s.idxOf? sep with
  | none => exact ⟨rfl, rfl⟩
  | some i =>
    have hlen : i + items.length + 1 = items.length + (i + 1) := by omega
    exact ⟨by simp [hlen, List.take_append, List.take_of_length_le], by simp [hlen, List.drop_append]⟩

theorem line_of_notMem (h : sep ∉ s) : line sep s = s := by
  simp only [line, List.idxOf?_eq_none_iff.mpr h]

theorem length_lead_le (fills : List (Fill α ε)) : (lead sep fills).length ≤ (line sep (stream fills)).length := by
  induction fills with
  | nil => exact Nat.zero_le _
  | cons f fills ih =>
    cases f with
    | chunk items =>
      by_cases h : sep ∈ items
      · simp [lead, h]
      · rw [lead, if_neg h, stream, (line_append_of_notMem h _).1, List.length_append, List.length_append]
        omega
    | interrupted => exact ih
    | failed e => exact Nat.zero_le _

/-- Without a separator all pieces are before its own. -/
theorem lead_of_notMem (hw : Whole fills) (h : sep ∉ stream fills) : lead sep fills = stream fills := by
  induction fills with
  | nil => rfl
  | cons f fills ih =>
    cases f with
    | chunk items =>
      rw [stream, List.mem_append, not_or] at h
      rw [lead, if_neg h.1, stream, ih hw.tail h.2]
    | interrupted => exact ih hw.tail h
    | failed e =>
      rcases hw _ List.mem_cons_self with ⟨items, -, heq⟩ | heq <;> cases heq

end Pieces
