import Mathlib.Data.List.Basic

/-! The reading end of a pipe: what was written and not read yet, and whether the writer has gone.
A read that finds too little waits while the writer lives. -/

structure Pipe (α : Type*) where
  unread : List α
  ended : Bool
deriving DecidableEq, Repr

namespace Pipe

variable {α : Type*}

/-- What a writer adds; `gone` when it adds nothing more. -/
def write (p : Pipe α) (xs : List α) (gone : Bool) : Pipe α := ⟨p.unread ++ xs, gone⟩

section ReadUntil

variable [DecidableEq α]

/-- Everything up to and with the first `sep`, or up to the end; `none` while it waits. -/
def readUntil (sep : α) (p : Pipe α) : Option (List α × Pipe α) :=
  match p.unread.idxOf? sep with
  | some i => some (p.unread.take (i + 1), ⟨p.unread.drop (i + 1), p.ended⟩)
  | none => if p.ended then some (p.unread, ⟨[], true⟩) else none

theorem idxOf_append {sep : α} {line : List α} (h : sep ∉ line) (rest : List α) :
    (line ++ sep :: rest).idxOf? sep = some line.length := by
  induction line with
  | nil => simp [List.idxOf?_cons]
  | cons x line ih =>
    have hx : x ≠ sep := fun he => h (by simp [he])
    have hh := ih fun hm => h (List.mem_cons_of_mem _ hm)
    simp [List.idxOf?_cons, hx, hh]

theorem readUntil_line {sep : α} {line : List α} (h : sep ∉ line) (rest : List α) (ended : Bool) :
    readUntil sep ⟨line ++ sep :: rest, ended⟩ = some (line ++ [sep], ⟨rest, ended⟩) := by
  have htake : (line ++ sep :: rest).take (line.length + 1) = line ++ [sep] := by
    rw [List.take_append, List.take_of_length_le (Nat.le_succ _), Nat.add_sub_cancel_left]
    rfl
  have hdrop : (line ++ sep :: rest).drop (line.length + 1) = rest := by simp
  simp only [readUntil, idxOf_append h, htake, hdrop]

theorem readUntil_torn {sep : α} {line : List α} (h : sep ∉ line) :
    readUntil sep ⟨line, true⟩ = some (line, ⟨[], true⟩) := by
  have hnone : line.idxOf? sep = none := List.idxOf?_eq_none_iff.mpr h
  simp [readUntil, hnone]

end ReadUntil

/-- `n` items, or none when the end comes first; `none` outside while it waits. -/
def readExact (n : Nat) (p : Pipe α) : Option (Option (List α) × Pipe α) :=
  if n ≤ p.unread.length then some (some (p.unread.take n), ⟨p.unread.drop n, p.ended⟩)
  else if p.ended then some (none, ⟨[], true⟩) else none

theorem readExact_append (xs rest : List α) (ended : Bool) :
    readExact xs.length ⟨xs ++ rest, ended⟩ = some (some xs, ⟨rest, ended⟩) := by
  simp [readExact]

theorem readExact_short {n : Nat} {xs : List α} (h : xs.length < n) :
    readExact n ⟨xs, true⟩ = some (none, ⟨[], true⟩) := by
  have hn : ¬ n ≤ xs.length := by omega
  simp [readExact, hn]

end Pipe
