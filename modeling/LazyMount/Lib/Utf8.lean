import Mathlib.Data.List.Basic

/-! UTF-8 texts as byte strings: strict and lossy decoding, and that a lossy reader leaves valid
text alone. -/

namespace Utf8

def encode (t : List Char) : List UInt8 := t.flatMap String.utf8EncodeChar

def decode (bs : List UInt8) : Option (List Char) := bs.toByteArray.utf8Decode?.map Array.toList

def Valid (bs : List UInt8) : Prop := ∃ t, bs = encode t

/-- U+FFFD -/
def replacement : List UInt8 := [0xEF, 0xBF, 0xBD]

/-- The second bytes that may follow the first byte of a sequence of three or four. -/
def secondByte (first second : UInt8) : Bool :=
  if first = 0xE0 then 0xA0 ≤ second && second ≤ 0xBF
  else if first = 0xED then 0x80 ≤ second && second ≤ 0x9F
  else if first = 0xF0 then 0x90 ≤ second && second ≤ 0xBF
  else if first = 0xF4 then 0x80 ≤ second && second ≤ 0x8F
  else 0xE1 ≤ first && first ≤ 0xF3 && 0x80 ≤ second && second ≤ 0xBF

/-- How many bytes one replacement character stands for: the longest beginning of a well-formed
sequence, one byte at least. -/
def invalidLength : List UInt8 → Nat
  | b :: c :: d :: _ =>
    if secondByte b c then if 0xF0 ≤ b && 0x80 ≤ d && d ≤ 0xBF then 3 else 2 else 1
  | [b, c] => if secondByte b c then 2 else 1
  | _ => 1

def lossyGo : Nat → List UInt8 → List UInt8
  | 0, _ | _ + 1, [] => []
  | n + 1, b :: bs =>
    match (b :: bs).toByteArray.utf8DecodeChar? 0 with
    | some c => (b :: bs).take c.utf8Size ++ lossyGo n ((b :: bs).drop c.utf8Size)
    | none => replacement ++ lossyGo n ((b :: bs).drop (invalidLength (b :: bs)))

def lossy (bs : List UInt8) : List UInt8 := lossyGo bs.length bs

theorem toByteArray_encode (t : List Char) : (encode t).toByteArray = t.utf8Encode := rfl

theorem decode_encode (t : List Char) : decode (encode t) = some t := by
  rw [decode, toByteArray_encode, List.utf8Decode?_utf8Encode]
  rfl

theorem encode_cons (c : Char) (t : List Char) :
    encode (c :: t) = String.utf8EncodeChar c ++ encode t := List.flatMap_cons ..

theorem decodeChar_encode_cons (c : Char) (t : List Char) :
    (encode (c :: t)).toByteArray.utf8DecodeChar? 0 = some c := by
  have happ : (encode (c :: t)).toByteArray = [c].utf8Encode ++ t.utf8Encode := by
    rw [toByteArray_encode, ← List.utf8Encode_append, List.singleton_append]
  rw [happ, List.utf8DecodeChar?_utf8Encode_singleton_append]

theorem lossyGo_encode {n : Nat} {t : List Char} (h : (encode t).length ≤ n) :
    lossyGo n (encode t) = encode t := by
  induction t generalizing n with
  | nil => cases n <;> rfl
  | cons c t ih =>
    have hlen : (String.utf8EncodeChar c).length = c.utf8Size := String.length_utf8EncodeChar c
    have hpos := c.utf8Size_pos
    have hdecode := decodeChar_encode_cons c t
    have hdrop : (encode (c :: t)).drop c.utf8Size = encode t := by
      rw [encode_cons, ← hlen, List.drop_left]
    have htake : (encode (c :: t)).take c.utf8Size = String.utf8EncodeChar c := by
      rw [encode_cons, ← hlen, List.take_left]
    have hsum : (encode (c :: t)).length = c.utf8Size + (encode t).length := by
      rw [encode_cons, List.length_append, hlen]
    cases n with
    | zero => omega
    | succ n =>
      cases hbs : encode (c :: t) with
      | nil => rw [hbs] at hsum; simp at hsum; omega
      | cons b bs =>
        rw [hbs] at hdecode hdrop htake
        simp only [lossyGo, hdecode, hdrop, htake]
        rw [ih (by omega), ← hbs, encode_cons]

theorem lossy_of_valid {bs : List UInt8} (h : Valid bs) : lossy bs = bs := by
  obtain ⟨t, rfl⟩ := h
  exact lossyGo_encode (Nat.le_refl _)

theorem lossy_ne_nil {bs : List UInt8} (h : bs ≠ []) : lossy bs ≠ [] := by
  cases bs with
  | nil => exact (h rfl).elim
  | cons b bs =>
    simp only [lossy, List.length_cons, lossyGo]
    split
    · rename_i c _
      obtain ⟨k, hk⟩ := Nat.exists_eq_succ_of_ne_zero (Nat.ne_of_gt c.utf8Size_pos)
      rw [hk]
      exact List.cons_ne_nil _ _
    · exact List.cons_ne_nil _ _

theorem encodeChar_ascii {c : Char} (h : c.toNat < 128) :
    String.utf8EncodeChar c = [UInt8.ofNat c.toNat] := by
  have hv : c.val.toNat ≤ 0x7f := Nat.le_of_lt_succ h
  simp only [String.utf8EncodeChar, if_pos hv]
  rfl

theorem encodeChar_high {c : Char} (h : 128 ≤ c.toNat) {b : UInt8} (hb : b ∈ String.utf8EncodeChar c) :
    128 ≤ b := by
  have hv : ¬ c.val.toNat ≤ 0x7f := Nat.not_le_of_gt h
  have hbyte : ∀ n, 128 ≤ n → n < 256 → 128 ≤ UInt8.ofNat n := by
    intro n hn hn'
    rw [UInt8.le_iff_toNat_le, UInt8.toNat_ofNat', Nat.mod_eq_of_lt hn']
    exact hn
  simp only [String.utf8EncodeChar, if_neg hv] at hb
  split at hb
  · simp only [List.mem_cons, List.not_mem_nil, or_false] at hb
    rcases hb with rfl | rfl <;> exact hbyte _ (by omega) (by omega)
  · split at hb
    · simp only [List.mem_cons, List.not_mem_nil, or_false] at hb
      rcases hb with rfl | rfl | rfl <;> exact hbyte _ (by omega) (by omega)
    · simp only [List.mem_cons, List.not_mem_nil, or_false] at hb
      rcases hb with rfl | rfl | rfl | rfl <;> exact hbyte _ (by omega) (by omega)

theorem encode_ascii {t : List Char} (h : ∀ c ∈ t, c.toNat < 128) :
    encode t = t.map fun c => UInt8.ofNat c.toNat := by
  induction t with
  | nil => rfl
  | cons c t ih =>
    rw [encode_cons, encodeChar_ascii (h c List.mem_cons_self), ih fun d hd => h d (List.mem_cons_of_mem c hd)]
    rfl

/-- A byte below 128 is a character. -/
theorem encode_eq_cons {t : List Char} {b : UInt8} {bs : List UInt8} (hb : b < 128) (h : encode t = b :: bs) :
    ∃ c r, t = c :: r ∧ c.toNat < 128 ∧ b = UInt8.ofNat c.toNat ∧ bs = encode r := by
  cases t with
  | nil => cases h
  | cons c r =>
    rw [encode_cons] at h
    by_cases hc : c.toNat < 128
    · rw [encodeChar_ascii hc] at h
      obtain ⟨hhead, htail⟩ := List.cons.inj h
      exact ⟨c, r, rfl, hc, hhead.symm, htail.symm⟩
    · have hmem : b ∈ String.utf8EncodeChar c := by
        cases hlist : String.utf8EncodeChar c with
        | nil =>
          have hlen := String.length_utf8EncodeChar c
          have hpos := c.utf8Size_pos
          rw [hlist, List.length_nil] at hlen
          omega
        | cons d ds =>
          rw [hlist] at h
          rw [(List.cons.inj h).1]
          exact List.mem_cons_self
      have hhigh := encodeChar_high (Nat.le_of_not_lt hc) hmem
      exact (UInt8.not_le.mpr hb hhigh).elim

theorem mem_encode_ascii {t : List Char} {c : Char} (hc : c.toNat < 128) :
    UInt8.ofNat c.toNat ∈ encode t ↔ c ∈ t := by
  induction t with
  | nil => simp [encode]
  | cons d t ih =>
    rw [encode_cons, List.mem_append, ih, List.mem_cons]
    refine or_congr ?_ Iff.rfl
    by_cases hd : d.toNat < 128
    · rw [encodeChar_ascii hd, List.mem_singleton, ← UInt8.toNat_inj, UInt8.toNat_ofNat', UInt8.toNat_ofNat']
      rw [Nat.mod_eq_of_lt (by omega), Nat.mod_eq_of_lt (by omega), Char.toNat_inj]
    · constructor
      · intro hmem
        have hhigh := encodeChar_high (Nat.le_of_not_lt hd) hmem
        rw [UInt8.le_iff_toNat_le, UInt8.toNat_ofNat', Nat.mod_eq_of_lt (by omega)] at hhigh
        exact (Nat.not_le_of_gt hc hhigh).elim
      · intro heq
        exact (hd (heq ▸ hc)).elim

end Utf8
