import LazyMount.Lib.Decimal
import LazyMount.Lib.Utf8
import Mathlib.Algebra.Group.Nat.Defs
import Mathlib.Data.List.Destutter
import Mathlib.Data.List.Sort

/-! Byte strings, and the standard library's text operations on them. -/

namespace LazyMount

abbrev Bytes := List UInt8

/-- A Rust `str`; on disk and in the sorted lists it is its UTF-8 bytes. -/
abbrev Text := List Char

def ascii (s : String) : Bytes := Utf8.encode s.toList

/-- `str::trim` on ASCII text. -/
def trim (s : Bytes) : Bytes :=
  let ws := fun b : UInt8 => b == 32 || (9 ≤ b && b ≤ 13)
  ((s.dropWhile ws).reverse.dropWhile ws).reverse

/-- The numeral of an unsigned integer: an optional `+` and at least one digit. -/
def parseDigits (s : Bytes) : Option Nat :=
  if s.head? = some 43 then Decimal.decode s.tail else Decimal.decode s

/-- `str::parse::<u64>` -/
def parseU64 (s : Bytes) : Option Nat := (parseDigits s).filter (· < 2 ^ 64)

/-- `Vec::sort` followed by `Vec::dedup`. -/
def sortDedup (ps : List Bytes) : List Bytes :=
  (ps.insertionSort (· ≤ ·)).destutter (· ≠ ·)

theorem isDigit_head_decimal (n : Nat) : ∃ b s, Decimal.encode n = b :: s ∧ Decimal.isDigit b := by
  cases h : Decimal.encode n with
  | nil => exact (Decimal.encode_ne_nil n h).elim
  | cons b s => exact ⟨b, s, rfl, Decimal.isDigit_of_mem_encode (n := n) (by simp [h])⟩

@[simp] theorem parseDigits_decimal (n : Nat) : parseDigits (Decimal.encode n) = some n := by
  obtain ⟨b, s, he, hd⟩ := isDigit_head_decimal n
  have hb : b ≠ 43 := by
    intro heq
    subst heq
    simp [Decimal.isDigit] at hd
  have hh : (Decimal.encode n).head? ≠ some 43 := by simp [he, hb]
  rw [parseDigits, if_neg hh, Decimal.decode_encode]

theorem parseU64_decimal (n : Nat) :
    parseU64 (Decimal.encode n) = if n < 2 ^ 64 then some n else none := by
  rw [parseU64, parseDigits_decimal, Option.filter_some]
  simp only [decide_eq_true_eq]

theorem dropWhile_digits {ws : UInt8 → Bool} (hws : ∀ b, Decimal.isDigit b → ws b = false)
    {s : Bytes} (hs : ∀ b ∈ s, Decimal.isDigit b) : s.dropWhile ws = s := by
  cases s with
  | nil => rfl
  | cons b s => simp [hws b (hs b (by simp))]

@[simp] theorem trim_decimal (n : Nat) : trim (Decimal.encode n) = Decimal.encode n := by
  have hws : ∀ b : UInt8, Decimal.isDigit b → (b == 32 || (9 ≤ b && b ≤ 13)) = false := by
    intro b hb
    simp only [Decimal.isDigit, Bool.and_eq_true, decide_eq_true_eq, UInt8.le_iff_toNat_le] at hb
    have h48 : (48 : UInt8).toNat = 48 := rfl
    have hne : b ≠ 32 := by
      intro heq
      subst heq
      simp at hb
    have hlt : ¬ b ≤ 13 := by
      have h13 : (13 : UInt8).toNat = 13 := rfl
      rw [UInt8.le_iff_toNat_le]
      omega
    simp [hne, hlt]
  have hd : ∀ b ∈ Decimal.encode n, Decimal.isDigit b = true :=
    fun b hb => Decimal.isDigit_of_mem_encode hb
  simp only [trim]
  rw [dropWhile_digits hws hd, dropWhile_digits hws (fun b hb => hd b (List.mem_reverse.mp hb)),
    List.reverse_reverse]

theorem mem_destutter_ne {α : Type*} [DecidableEq α] {l : List α} {x : α} :
    x ∈ l.destutter (· ≠ ·) ↔ x ∈ l := by
  refine ⟨fun h => (List.destutter_sublist _ l).subset h, ?_⟩
  cases l with
  | nil => simp
  | cons a l =>
    rw [List.destutter_cons']
    induction l generalizing a with
    | nil => simp
    | cons b l ih =>
      intro h
      rw [List.destutter'_cons]
      by_cases hab : a = b
      · subst hab
        simp only [ne_eq, not_true_eq_false, if_false]
        exact ih a (by simpa using h)
      · simp only [ne_eq, hab, not_false_eq_true, if_true, List.mem_cons]
        rcases List.mem_cons.mp h with rfl | h
        · exact .inl rfl
        · exact .inr (ih b h)

theorem bytes_lt_of_le_of_ne {a b : Bytes} (h : a ≤ b) (hne : a ≠ b) : a < b := by
  by_contra hlt
  exact hne (List.le_antisymm h (List.not_lt.mp hlt))

theorem pairwise_sortDedup (ps : List Bytes) : (sortDedup ps).Pairwise (· < ·) := by
  have hle : (sortDedup ps).Pairwise (· ≤ ·) :=
    (List.pairwise_insertionSort (· ≤ ·) ps).sublist (List.destutter_sublist _ _)
  have hne : (sortDedup ps).IsChain (· ≠ ·) := List.isChain_destutter _ _
  refine List.isChain_iff_pairwise.mp (List.isChain_iff_getElem.mpr fun i hi => ?_)
  have hsorted := List.isChain_iff_getElem.mp hle.isChain i hi
  exact bytes_lt_of_le_of_ne hsorted (List.isChain_iff_getElem.mp hne i hi)

@[simp] theorem mem_sortDedup {ps : List Bytes} {p : Bytes} : p ∈ sortDedup ps ↔ p ∈ ps := by
  rw [sortDedup, mem_destutter_ne, List.mem_insertionSort]

end LazyMount
