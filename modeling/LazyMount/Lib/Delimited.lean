import LazyMount.Lib.Decimal
import Mathlib.Data.List.Basic
import Mathlib.Logic.Function.Basic

/-! Codes of which it can be told where they end, and the ones of JSON strings, booleans and numbers. -/

namespace Delimited

variable {α γ β : Type*}

/-- Whatever follows a code, it is told apart from what follows. -/
def Delimits (f : α → List β) : Prop := ∀ a b r s, f a ++ r = f b ++ s → a = b ∧ r = s

variable {f : α → List β} {g : γ → List β}

theorem Delimits.injective (h : Delimits f) : Function.Injective f := by
  intro a b hab
  exact (h a b [] [] (by simpa using hab)).1

theorem Delimits.comp (h : Delimits f) {e : γ → α} (he : Function.Injective e) : Delimits (f ∘ e) := by
  intro a b r s hab
  obtain ⟨heq, hrs⟩ := h (e a) (e b) r s hab
  exact ⟨he heq, hrs⟩

/-- A reader that stops where the code ends. -/
theorem delimits_of_read (read : List β → Option (α × List β))
    (h : ∀ a r, read (f a ++ r) = some (a, r)) : Delimits f := by
  intro a b r s hab
  have hread : some (a, r) = some (b, s) := by rw [← h a r, hab, h b s]
  simpa using hread

theorem Delimits.prefixed (h : Delimits f) (c : List β) : Delimits fun a => c ++ f a := by
  intro a b r s hab
  simp only [List.append_assoc] at hab
  exact h a b r s (List.append_cancel_left hab)

/-- A list of codes up to an item with which none of them begins. -/
theorem Delimits.terminated (h : Delimits f) (stop : β)
    (hstop : ∀ a, ∃ x t, f a = x :: t ∧ x ≠ stop) : Delimits fun l : List α => l.flatMap f ++ [stop] := by
  intro l
  induction l with
  | nil =>
    intro m r s hab
    cases m with
    | nil => simpa using hab
    | cons b m =>
      obtain ⟨x, t, hx, hne⟩ := hstop b
      simp only [List.flatMap_cons, hx, List.flatMap_nil, List.nil_append, List.cons_append,
        List.cons.injEq] at hab
      exact absurd hab.1.symm hne
  | cons a l ih =>
    intro m r s hab
    cases m with
    | nil =>
      obtain ⟨x, t, hx, hne⟩ := hstop a
      simp only [List.flatMap_cons, hx, List.flatMap_nil, List.nil_append, List.cons_append,
        List.cons.injEq] at hab
      exact absurd hab.1 hne
    | cons b m =>
      simp only [List.flatMap_cons, List.append_assoc] at hab
      obtain ⟨rfl, hrest⟩ := h a b _ _ hab
      obtain ⟨rfl, hrs⟩ := ih m r s (by simpa using hrest)
      exact ⟨rfl, hrs⟩

/-- A code of one more thing, that begins as none of the others does. -/
theorem Delimits.orElse (h : Delimits f) {n : List β} {x : β} {t : List β} (hn : n = x :: t)
    (hx : ∀ a, ∃ y u, f a = y :: u ∧ y ≠ x) : Delimits fun o : Option α => o.elim n f := by
  intro a b r s hab
  cases a with
  | none =>
    cases b with
    | none => exact ⟨rfl, List.append_cancel_left hab⟩
    | some b =>
      obtain ⟨y, u, hy, hne⟩ := hx b
      simp only [Option.elim, hn, hy, List.cons_append, List.cons.injEq] at hab
      exact absurd hab.1.symm hne
  | some a =>
    cases b with
    | none =>
      obtain ⟨y, u, hy, hne⟩ := hx a
      simp only [Option.elim, hn, hy, List.cons_append, List.cons.injEq] at hab
      exact absurd hab.1 hne
    | some b =>
      obtain ⟨rfl, hrs⟩ := h a b r s hab
      exact ⟨rfl, hrs⟩

/-- Digits up to a byte that is none. -/
theorem delimits_decimal {c : UInt8} (hc : Decimal.isDigit c = false) :
    Delimits fun n => Decimal.encode n ++ [c] := by
  have hdigits : ∀ n, ∀ b ∈ Decimal.encode n, Decimal.isDigit b = true := fun _ _ => Decimal.isDigit_of_mem_encode
  refine delimits_of_read
    (fun s => (Decimal.decode (s.takeWhile Decimal.isDigit)).map (·, (s.dropWhile Decimal.isDigit).tail))
    fun n r => ?_
  have hcr : Decimal.isDigit c ≠ true := by simp [hc]
  rw [List.append_assoc, List.takeWhile_append_of_pos (hdigits n), List.dropWhile_append_of_pos (hdigits n)]
  simp [hc]

end Delimited

namespace JsonText

open Delimited

def quote : UInt8 := 34

def backslash : UInt8 := 92

/-- `0` to `f` -/
def hexDigit (n : UInt8) : UInt8 := if n < 10 then 48 + n else 87 + n

/-- A byte of a string literal. -/
def escape (b : UInt8) : List UInt8 :=
  if b = quote then [backslash, quote]
  else if b = backslash then [backslash, backslash]
  else if b = 8 then [backslash, 98]
  else if b = 9 then [backslash, 116]
  else if b = 10 then [backslash, 110]
  else if b = 12 then [backslash, 102]
  else if b = 13 then [backslash, 114]
  else if b < 32 then [backslash, 117, 48, 48, hexDigit (b / 16), hexDigit (b % 16)]
  else [b]

def string (s : List UInt8) : List UInt8 := quote :: (s.flatMap escape ++ [quote])

def bool (b : Bool) : List UInt8 := if b then [116, 114, 117, 101] else [102, 97, 108, 115, 101]

def null : List UInt8 := [110, 117, 108, 108]

def nullable (s : Option (List UInt8)) : List UInt8 := s.elim null string

def hexValue (b : UInt8) : UInt8 := if b < 58 then b - 48 else b - 87

/-- What an escape stands for, and what is behind it. -/
def unescape : List UInt8 → Option (UInt8 × List UInt8)
  | [] => none
  | b :: rest =>
    if b ≠ backslash then some (b, rest)
    else
      match rest with
      | [] => none
      | 117 :: _ :: _ :: h :: l :: rest => some (16 * hexValue h + hexValue l, rest)
      | 98 :: rest => some (8, rest)
      | 116 :: rest => some (9, rest)
      | 110 :: rest => some (10, rest)
      | 102 :: rest => some (12, rest)
      | 114 :: rest => some (13, rest)
      | c :: rest => some (c, rest)

theorem hexValue_hexDigit (b : UInt8) : 16 * hexValue (hexDigit (b / 16)) + hexValue (hexDigit (b % 16)) = b := by
  have hall : ∀ n : Fin 256, 16 * hexValue (hexDigit (UInt8.ofNat n / 16)) +
      hexValue (hexDigit (UInt8.ofNat n % 16)) = UInt8.ofNat n := by decide +kernel
  have hb := hall ⟨b.toNat, b.toNat_lt⟩
  simpa using hb

theorem unescape_escape (b : UInt8) (r : List UInt8) : unescape (escape b ++ r) = some (b, r) := by
  rw [escape]
  split
  · subst b
    rfl
  split
  · subst b
    rfl
  split
  · subst b
    rfl
  split
  · subst b
    rfl
  split
  · subst b
    rfl
  split
  · subst b
    rfl
  split
  · subst b
    rfl
  split
  · simp [unescape, hexValue_hexDigit]
  · rename_i hslash _ _ _ _ _ _
    simp [unescape, hslash]

theorem head_escape (b : UInt8) : ∃ x t, escape b = x :: t ∧ x ≠ quote := by
  simp only [escape]
  split_ifs with hq
  · exact ⟨_, _, rfl, by decide⟩
  iterate 7 exact ⟨_, _, rfl, by decide⟩
  exact ⟨b, [], rfl, hq⟩

theorem delimits_string : Delimits string :=
  ((delimits_of_read unescape unescape_escape).terminated quote head_escape).prefixed [quote]

theorem delimits_nullable : Delimits nullable :=
  delimits_string.orElse rfl fun _ => ⟨quote, _, rfl, by decide⟩

theorem delimits_bool : Delimits bool := by
  intro a b r s h
  cases a <;> cases b <;> simp_all [bool]

/-- Two digits for each byte. -/
def hexPair (b : UInt8) : List UInt8 := [hexDigit (b / 16), hexDigit (b % 16)]

def hex (s : List UInt8) : List UInt8 := s.flatMap hexPair

theorem hexDigit_ne_zero {b : UInt8} (h : b < 16) : hexDigit b ≠ 0 := by
  have hall : ∀ n : Fin 16, hexDigit (UInt8.ofNat n) ≠ 0 := by decide
  have hb := hall ⟨b.toNat, h⟩
  simpa using hb

theorem div_sixteen_lt (b : UInt8) : b / 16 < 16 := by
  have hb := b.toNat_lt
  rw [UInt8.lt_iff_toNat_lt, UInt8.toNat_div]
  exact Nat.div_lt_of_lt_mul hb

theorem delimits_hexPair : Delimits hexPair := by
  refine delimits_of_read (fun s =>
    match s with
    | h :: l :: rest => some (16 * hexValue h + hexValue l, rest)
    | _ => none) fun b r => ?_
  simp [hexPair, hexValue_hexDigit]

theorem hex_injective : Function.Injective hex := by
  intro s t h
  have hdelim := delimits_hexPair.terminated 0
    fun b => ⟨_, _, rfl, hexDigit_ne_zero (div_sixteen_lt b)⟩
  refine hdelim.injective ?_
  show hex s ++ [0] = hex t ++ [0]
  rw [h]

theorem length_hex (s : List UInt8) : (hex s).length = 2 * s.length := by
  induction s with
  | nil => rfl
  | cons b s ih =>
    rw [hex, List.flatMap_cons, List.length_append, ← hex, ih, List.length_cons]
    simp only [hexPair, List.length_cons, List.length_nil]
    omega

end JsonText
