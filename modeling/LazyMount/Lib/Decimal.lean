import Mathlib.Data.List.Basic

/-! Decimal numerals as ASCII byte strings. -/

namespace Decimal

def digitByte (c : Char) : UInt8 := UInt8.ofNat c.toNat

def encode (n : Nat) : List UInt8 := (Nat.toDigits 10 n).map digitByte

def isDigit (b : UInt8) : Bool := 48 ≤ b && b ≤ 57

def value (s : List UInt8) : Nat := s.foldl (fun n b => 10 * n + (b.toNat - 48)) 0

def decode (s : List UInt8) : Option Nat := if s ≠ [] ∧ s.all isDigit then some (value s) else none

theorem digitByte_toNat {c : Char} (h : c.isDigit) : (digitByte c).toNat = c.toNat := by
  have hc : c.toNat ≤ 57 := by
    simp only [Char.isDigit, Bool.and_eq_true, decide_eq_true_eq] at h
    exact UInt32.le_iff_toNat_le.mp h.2
  simp only [digitByte, UInt8.toNat_ofNat']
  omega

theorem isDigit_digitByte {c : Char} (h : c.isDigit) : isDigit (digitByte c) = true := by
  have hn := digitByte_toNat h
  simp only [Char.isDigit, Bool.and_eq_true, decide_eq_true_eq] at h
  have hl := UInt32.le_iff_toNat_le.mp h.1
  have hh := UInt32.le_iff_toNat_le.mp h.2
  simp only [isDigit, Bool.and_eq_true, decide_eq_true_eq, UInt8.le_iff_toNat_le, hn]
  exact ⟨hl, hh⟩

theorem all_isDigit_encode (n : Nat) : (encode n).all isDigit = true := by
  simp only [encode, List.all_map, List.all_eq_true]
  exact fun c hc => isDigit_digitByte (Nat.isDigit_of_mem_toDigits (by omega) (by omega) hc)

theorem encode_ne_nil (n : Nat) : encode n ≠ [] := by simp [encode, Nat.toDigits_ne_nil]

theorem value_encode (n : Nat) : value (encode n) = n := by
  have hgen : ∀ (l : List Char) (m : Nat), (∀ c ∈ l, c.isDigit) →
      (l.map digitByte).foldl (fun n b => 10 * n + (b.toNat - 48)) m = Nat.ofDigitChars 10 l m := by
    intro l
    induction l with
    | nil => intro m _; rfl
    | cons c l ih =>
      intro m hl
      simp only [List.map_cons, List.foldl_cons, Nat.ofDigitChars, digitByte_toNat (hl c (by simp))]
      exact ih _ (fun d hd => hl d (by simp [hd]))
  rw [value, encode, hgen _ _ (fun c hc => Nat.isDigit_of_mem_toDigits (by omega) (by omega) hc),
    Nat.ofDigitChars_ten_toDigits]

@[simp] theorem decode_encode (n : Nat) : decode (encode n) = some n := by
  rw [decode, if_pos ⟨encode_ne_nil n, all_isDigit_encode n⟩, value_encode]

theorem isDigit_of_mem_encode {n : Nat} {b : UInt8} (h : b ∈ encode n) : isDigit b = true :=
  List.all_eq_true.mp (all_isDigit_encode n) b h

/-- A numeral has no leading zero. -/
theorem eq_zero_of_encode {n : Nat} {s : List UInt8} (h : encode n = 48 :: s) : n = 0 := by
  induction n using Nat.strongRecOn generalizing s with
  | ind n ih =>
    by_cases hn : n < 10
    · have hall : ∀ m : Fin 10, digitByte (Nat.digitChar m) = 48 → m.val = 0 := by decide
      rw [encode, Nat.toDigits_of_lt_base hn] at h
      have hhead : digitByte n.digitChar = 48 := (List.cons.inj h).1
      exact hall ⟨n, hn⟩ hhead
    · have hle : 10 ≤ n := by omega
      have hsplit : encode n = encode (n / 10) ++ [digitByte (n % 10).digitChar] := by
        rw [encode, Nat.toDigits_of_base_le (by omega) hle, List.map_append]
        rfl
      obtain ⟨b, t, ht⟩ := List.exists_cons_of_ne_nil (encode_ne_nil (n / 10))
      rw [hsplit, ht, List.cons_append] at h
      rw [(List.cons.inj h).1] at ht
      have hzero := ih (n / 10) (by omega) ht
      omega

theorem le_foldl (s : List UInt8) (m : Nat) : m ≤ s.foldl (fun n b => 10 * n + (b.toNat - 48)) m := by
  induction s generalizing m with
  | nil => exact Nat.le_refl m
  | cons b s ih =>
    have hh := ih (10 * m + (b.toNat - 48))
    rw [List.foldl_cons]
    omega

/-- The beginning of a numeral reads as zero only if it is the whole numeral of zero. -/
theorem eq_zero_of_beginning {n : Nat} {s t : List UInt8} (h : encode n = s ++ t) (hs : decode s = some 0) :
    n = 0 := by
  rw [decode] at hs
  split at hs
  · rename_i hdigits
    obtain ⟨b, s, rfl⟩ := List.exists_cons_of_ne_nil hdigits.1
    have hb : isDigit b = true := isDigit_of_mem_encode (n := n) (by rw [h]; simp)
    have hle := le_foldl s (10 * 0 + (b.toNat - 48))
    have hvalue : s.foldl (fun n b => 10 * n + (b.toNat - 48)) (10 * 0 + (b.toNat - 48)) = 0 := Option.some.inj hs
    simp only [isDigit, Bool.and_eq_true, decide_eq_true_eq, UInt8.le_iff_toNat_le] at hb
    have h48 : (48 : UInt8).toNat = 48 := rfl
    have hzero : b = 48 := UInt8.toNat_inj.mp (by omega)
    rw [hzero, List.cons_append] at h
    exact eq_zero_of_encode h
  · cases hs

end Decimal
