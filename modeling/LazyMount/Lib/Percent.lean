import Mathlib.Data.List.Basic

/-! Percent-encoding: a byte stands for itself, or two digits for it behind a percent sign. -/

namespace Percent

def sign : UInt8 := 37

structure Code where
  keep : UInt8 → Bool
  digit : Nat → UInt8
  value : UInt8 → Option UInt8
  keep_sign : keep sign = false
  value_digit : ∀ n, n < 16 → value (digit n) = some (UInt8.ofNat n)
  value_sign : value sign = none

namespace Code

variable (c : Code)

def escape (b : UInt8) : List UInt8 :=
  if c.keep b then [b] else [sign, c.digit (b.toNat / 16), c.digit (b.toNat % 16)]

def encode (bs : List UInt8) : List UInt8 := bs.flatMap c.escape

/-- The byte that two digits stand for. -/
def octet (hi lo : UInt8) : Option UInt8 :=
  (c.value hi).bind fun h => (c.value lo).map (h <<< 4 ||| ·)

def decode : List UInt8 → Option (List UInt8)
  | [] => some []
  | b :: rest =>
    if b = sign then
      match rest with
      | hi :: lo :: rest => (c.octet hi lo).bind fun x => (decode rest).map (x :: ·)
      | _ => none
    else (decode rest).map (b :: ·)

variable {c}

theorem halves (b : UInt8) : UInt8.ofNat (b.toNat / 16) <<< 4 ||| UInt8.ofNat (b.toNat % 16) = b := by
  have hlt := b.toNat_lt
  have hor := Nat.shiftLeft_add_eq_or_of_lt (i := 4) (b := b.toNat % 16) (Nat.mod_lt _ (by decide)) (b.toNat / 16)
  have hshift : (b.toNat / 16) <<< 4 = b.toNat / 16 * 16 := Nat.shiftLeft_eq ..
  apply UInt8.toNat_inj.mp
  simp only [UInt8.toNat_or, UInt8.toNat_shiftLeft, UInt8.toNat_ofNat', UInt8.reduceToNat]
  have hhi : b.toNat / 16 % 2 ^ 8 = b.toNat / 16 := by omega
  have hlo : b.toNat % 16 % 2 ^ 8 = b.toNat % 16 := by omega
  have hfit : (b.toNat / 16) <<< 4 % 2 ^ 8 = (b.toNat / 16) <<< 4 := by omega
  rw [hhi, hlo, show 4 % 8 = 4 from rfl, hfit, ← hor]
  omega

theorem octet_digits (b : UInt8) : c.octet (c.digit (b.toNat / 16)) (c.digit (b.toNat % 16)) = some b := by
  have hlt := b.toNat_lt
  rw [octet, c.value_digit _ (by omega), c.value_digit _ (by omega), Option.bind_some, Option.map_some, halves]

theorem decode_keep {b : UInt8} (hb : b ≠ sign) (rest : List UInt8) :
    c.decode (b :: rest) = (c.decode rest).map (b :: ·) := by
  rw [decode.eq_def]
  exact if_neg hb

theorem decode_octet (hi lo : UInt8) (rest : List UInt8) :
    c.decode (sign :: hi :: lo :: rest) = (c.octet hi lo).bind fun x => (c.decode rest).map (x :: ·) := by
  rw [decode, if_pos rfl]

theorem decode_escape (b : UInt8) (rest : List UInt8) :
    c.decode (c.escape b ++ rest) = (c.decode rest).map (b :: ·) := by
  rw [escape]
  split
  · rename_i hk
    refine decode_keep (fun heq => ?_) rest
    rw [heq, c.keep_sign] at hk
    cases hk
  · exact (decode_octet _ _ rest).trans (by rw [octet_digits, Option.bind_some])

theorem decode_encode (bs : List UInt8) : c.decode (c.encode bs) = some bs := by
  induction bs with
  | nil => rfl
  | cons b bs ih =>
    rw [encode, List.flatMap_cons, decode_escape]
    exact congrArg (Option.map (b :: ·)) ih

/-- Two digits are needed behind every sign, wherever it stands. -/
theorem decode_bad (pre : List UInt8) {rest : List UInt8}
    (h : ∀ hi lo tail, rest = hi :: lo :: tail → c.value hi = none ∨ c.value lo = none) :
    c.decode (pre ++ sign :: rest) = none := by
  induction hn : pre.length using Nat.strongRecOn generalizing pre with
  | ind n ih =>
    cases pre with
    | nil =>
      match rest, h with
      | [], _ => rfl
      | [_], _ => rfl
      | hi :: lo :: tail, h =>
        rw [List.nil_append, decode_octet, octet]
        rcases h hi lo tail rfl with hv | hv
        · rw [hv]
          rfl
        · rw [hv]
          cases c.value hi <;> rfl
    | cons b pre =>
      rw [List.length_cons] at hn
      by_cases hb : b = sign
      · subst hb
        -- the sign is one of the digits of an earlier one, or stands behind them
        match pre, hn with
        | [], _ =>
          cases rest with
          | nil => rfl
          | cons lo tail =>
            show c.decode (sign :: sign :: lo :: tail) = none
            rw [decode_octet, octet, c.value_sign]
            rfl
        | [hi], _ =>
          show c.decode (sign :: hi :: sign :: rest) = none
          rw [decode_octet, octet, c.value_sign]
          cases c.value hi <;> rfl
        | hi :: lo :: pre, hn =>
          show c.decode (sign :: hi :: lo :: (pre ++ sign :: rest)) = none
          rw [decode_octet, ih pre.length (by simp only [List.length_cons] at hn; omega) pre rfl]
          cases c.octet hi lo <;> rfl
      · rw [List.cons_append, decode_keep hb, ih pre.length (by omega) pre rfl]
        rfl

end Code

end Percent
