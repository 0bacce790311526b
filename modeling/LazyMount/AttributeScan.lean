import LazyMount.Bytes
import LazyMount.Lib.RecordLog
import LazyMount.Lib.Tokens
import Mathlib.Data.List.TakeWhile

/-! The scan of `.gitattributes` files for checkout conversions, and the assignments that git reads in
them. -/

namespace LazyMount

open Tokens

/-- `u8::is_ascii_whitespace` -/
def isAsciiWhitespace (b : UInt8) : Bool := b == 32 || b == 9 || b == 10 || b == 12 || b == 13

/-- `<[u8]>::trim_ascii` -/
def trimAscii (s : Bytes) : Bytes :=
  ((s.dropWhile isAsciiWhitespace).reverse.dropWhile isAsciiWhitespace).reverse

def isSpaceOrTab (b : UInt8) : Bool := b == 32 || b == 9

def declaresConversion (t : Bytes) : Bool :=
  t == ascii "ident" || t == ascii "eol=crlf" || (ascii "filter=").isPrefixOf t ||
    (ascii "working-tree-encoding=").isPrefixOf t

def lineDeclaresConversion (line : Bytes) : Bool :=
  let line := trimAscii line
  if line == [] || line.head? == some 35 then false
  else (tokens isSpaceOrTab line).tail.any declaresConversion

def attributesDeclareConversion (content : Bytes) : Bool := (content.splitOn 10).any lineDeclaresConversion

/-- From the contents of the tracked `.gitattributes`, in order. -/
def declaresConversionAttributes (contents : List Bytes) : Bool := contents.any attributesDeclareConversion

def isConversion (attr val : Bytes) : Bool :=
  if attr = ascii "eol" then val == ascii "crlf"
  else if attr = ascii "ident" then val == ascii "set"
  else if attr = ascii "filter" ∨ attr = ascii "working-tree-encoding" then
    val != ascii "unspecified" && val != ascii "unset"
  else false

/-- The loop over the triples of `check-attr -z`. -/
def convertedPaths : List Bytes → List Bytes
  | path :: attr :: val :: toks =>
    if path ≠ [] ∧ isConversion attr val then path :: convertedPaths toks else convertedPaths toks
  | _ => []

/-- `conversion_paths`, where `checkAttr` is what `git check-attr` would print. -/
def conversionPaths (contents : List Bytes) (checkAttr : Bytes) : List Bytes :=
  if !declaresConversionAttributes contents then [] else convertedPaths (checkAttr.splitOn 0)

/-! What git reads in a file of attributes. -/

def isBlank (b : UInt8) : Bool := b == 32 || b == 9 || b == 13

/-- The attribute that a token assigns to, and the value that `check-attr` has for it. -/
def assignment (t : Bytes) : Bytes × Bytes :=
  match t with
  | 45 :: attr => (attr, ascii "unset")
  | 33 :: attr => (attr, ascii "unspecified")
  | _ =>
    if 61 ∈ t then (t.takeWhile (· != 61), (t.dropWhile (· != 61)).tail) else (t, ascii "set")

/-- The tokens behind the pattern, unless the line is a comment. -/
def attributeTokens (line : Bytes) : List Bytes :=
  if (line.dropWhile isBlank).head? = some 35 then [] else (tokens isBlank line).tail

def assignments (content : Bytes) : List (Bytes × Bytes) :=
  (content.splitOn 10).flatMap fun line => (attributeTokens line).map assignment

/-- The line shows the scan what it looks for: behind a space or a tab. -/
def Shown (line : Bytes) : Prop :=
  (trimAscii line).head? ≠ some 35 ∧ ∃ a c t b, trimAscii line = a ++ c :: (t ++ b) ∧ isSpaceOrTab c = true ∧
    (t = ascii "filter=" ∨ t = ascii "working-tree-encoding=" ∨
      (t = ascii "ident" ∨ t = ascii "eol=crlf") ∧ Ends isSpaceOrTab b)

/-- No carriage return but at the ends, and no form feed in front. -/
def PlainLine (line : Bytes) : Prop := 13 ∉ trimAscii line ∧ (line.dropWhile isBlank).head? ≠ some 12

/-- The assignments that the scan has no case for. -/
def BareConversion (t : Bytes) : Prop :=
  t = ascii "filter" ∨ t = ascii "working-tree-encoding" ∨ t = ascii "ident=set"

/-- No token of the line is a bare conversion, and one that is a conversion stands on a plain line. -/
def Readable (line : Bytes) : Prop :=
  ∀ t ∈ attributeTokens line, ¬BareConversion t ∧
    (isConversion (assignment t).1 (assignment t).2 = true → PlainLine line)

section Trim

variable {line : Bytes}

theorem trimAscii_spec (line : Bytes) :
    ∃ r, line.dropWhile isAsciiWhitespace = trimAscii line ++ r ∧ ∀ x ∈ r, isAsciiWhitespace x = true := by
  refine ⟨((line.dropWhile isAsciiWhitespace).reverse.takeWhile isAsciiWhitespace).reverse, ?_, ?_⟩
  · rw [trimAscii, ← List.reverse_append, List.takeWhile_append_dropWhile, List.reverse_reverse]
  · intro x hx
    exact List.mem_takeWhile_imp (List.mem_reverse.1 hx)

theorem head_dropWhile {p : UInt8 → Bool} {s rest : Bytes} {b : UInt8} (h : s.dropWhile p = b :: rest) :
    p b = false := by
  have hhead := List.head?_dropWhile_not p s
  rw [h] at hhead
  simpa using hhead

theorem head_trimAscii {b : UInt8} {rest : Bytes} (h : trimAscii line = b :: rest) :
    isAsciiWhitespace b = false := by
  obtain ⟨r, hr, -⟩ := trimAscii_spec line
  rw [h] at hr
  exact head_dropWhile hr

end Trim

theorem isAsciiWhitespace_of_isSpaceOrTab {b : UInt8} (h : isSpaceOrTab b = true) :
    isAsciiWhitespace b = true := by
  simp only [isSpaceOrTab, isAsciiWhitespace, Bool.or_eq_true, beq_iff_eq] at h ⊢
  tauto

theorem isAsciiWhitespace_of_isBlank {b : UInt8} (h : isBlank b = true) : isAsciiWhitespace b = true := by
  simp only [isBlank, isAsciiWhitespace, Bool.or_eq_true, beq_iff_eq] at h ⊢
  tauto

/-- A token of the scan begins with one of its words, and the words for which equality is asked end
there. -/
theorem declaresConversion_iff (t : Bytes) : declaresConversion t = true ↔
    ∃ word v, t = word ++ v ∧ (word = ascii "filter=" ∨ word = ascii "working-tree-encoding=" ∨
      (word = ascii "ident" ∨ word = ascii "eol=crlf") ∧ v = []) := by
  simp only [declaresConversion, Bool.or_eq_true, beq_iff_eq, List.isPrefixOf_iff_prefix]
  constructor
  · rintro (((rfl | rfl) | ⟨v, rfl⟩) | ⟨v, rfl⟩)
    · exact ⟨ascii "ident", [], by simp, .inr (.inr ⟨.inl rfl, rfl⟩)⟩
    · exact ⟨ascii "eol=crlf", [], by simp, .inr (.inr ⟨.inr rfl, rfl⟩)⟩
    · exact ⟨_, v, rfl, .inl rfl⟩
    · exact ⟨_, v, rfl, .inr (.inl rfl)⟩
  · rintro ⟨word, v, rfl, rfl | rfl | ⟨rfl | rfl, rfl⟩⟩
    · exact .inl (.inr ⟨v, rfl⟩)
    · exact .inr ⟨v, rfl⟩
    · exact .inl (.inl (.inl (by simp)))
    · exact .inl (.inl (.inr (by simp)))

theorem word_clean {word : Bytes} (h : word = ascii "filter=" ∨ word = ascii "working-tree-encoding=" ∨
    word = ascii "ident" ∨ word = ascii "eol=crlf") :
    word ≠ [] ∧ ∀ x ∈ word, isAsciiWhitespace x = false := by
  have hall : word ≠ [] ∧ (word.all fun x => !isAsciiWhitespace x) = true := by
    rcases h with rfl | rfl | rfl | rfl <;> decide
  exact ⟨hall.1, fun x hx => by simpa using List.all_eq_true.1 hall.2 x hx⟩

theorem isSpaceOrTab_eq_false {x : UInt8} (hx : isAsciiWhitespace x = false) : isSpaceOrTab x = false := by
  cases hs : isSpaceOrTab x with
  | false => rfl
  | true =>
    rw [isAsciiWhitespace_of_isSpaceOrTab hs] at hx
    cases hx

theorem ends_dropWhile (p : UInt8 → Bool) (b : Bytes) : Ends p (b.dropWhile (!p ·)) := by
  cases hb : b.dropWhile (!p ·) with
  | nil => exact .inl rfl
  | cons c rest => exact .inr ⟨c, rest, rfl, by simpa using head_dropWhile hb⟩

theorem exists_of_trimAscii {line a rest : Bytes} {c : UInt8} (h : trimAscii line = a ++ c :: rest)
    (hc : isSpaceOrTab c = true) : ∃ x ∈ a, isSpaceOrTab x = false := by
  cases a with
  | nil =>
    have hhead := head_trimAscii h
    rw [isAsciiWhitespace_of_isSpaceOrTab hc] at hhead
    cases hhead
  | cons x a => exact ⟨x, List.mem_cons_self, isSpaceOrTab_eq_false (head_trimAscii h)⟩

theorem declares_of_shown {line a word b : Bytes} {c : UInt8}
    (htext : trimAscii line = a ++ c :: (word ++ b)) (hc : isSpaceOrTab c = true)
    (hword : word = ascii "filter=" ∨ word = ascii "working-tree-encoding=" ∨
      (word = ascii "ident" ∨ word = ascii "eol=crlf") ∧ Ends isSpaceOrTab b) :
    ∃ t ∈ (tokens isSpaceOrTab (trimAscii line)).tail, declaresConversion t = true := by
  obtain ⟨x, hx, hpx⟩ := exists_of_trimAscii htext hc
  have hclean : word ≠ [] ∧ ∀ y ∈ word, isAsciiWhitespace y = false :=
    word_clean (hword.imp_right (Or.imp_right And.left))
  -- the token goes on behind the word as far as there is no separator
  have hsplit : trimAscii line =
      a ++ c :: ((word ++ b.takeWhile (!isSpaceOrTab ·)) ++ b.dropWhile (!isSpaceOrTab ·)) := by
    rw [htext, List.append_assoc, List.takeWhile_append_dropWhile]
  have htoken : word ++ b.takeWhile (!isSpaceOrTab ·) ∈ (tokens isSpaceOrTab (trimAscii line)).tail := by
    rw [hsplit]
    refine mem_tail_of_split hx hpx hc (by simp [hclean.1]) ?_ (ends_dropWhile _ b)
    intro y hy
    rcases List.mem_append.1 hy with hy | hy
    · exact isSpaceOrTab_eq_false (hclean.2 y hy)
    · simpa using List.mem_takeWhile_imp hy
  refine ⟨_, htoken, (declaresConversion_iff _).2 ⟨word, _, rfl, ?_⟩⟩
  rcases hword with hfilter | hencoding | ⟨hexact, hends⟩
  · exact .inl hfilter
  · exact .inr (.inl hencoding)
  · refine .inr (.inr ⟨hexact, ?_⟩)
    rcases hends with rfl | ⟨d, b, rfl, hd⟩
    · rfl
    · simp [hd]

theorem lineDeclaresConversion_iff (line : Bytes) : lineDeclaresConversion line = true ↔ Shown line := by
  simp only [lineDeclaresConversion]
  by_cases hskip : (trimAscii line == [] || (trimAscii line).head? == some 35) = true
  · rw [if_pos hskip]
    refine iff_of_false (by simp) ?_
    rintro ⟨hcomment, a, c, t, b, htext, -⟩
    simp only [Bool.or_eq_true, beq_iff_eq] at hskip
    rcases hskip with hnil | hhead
    · rw [hnil] at htext
      simp at htext
    · exact hcomment hhead
  · rw [if_neg hskip]
    simp only [Bool.or_eq_true, beq_iff_eq, not_or] at hskip
    rw [List.any_eq_true]
    constructor
    · rintro ⟨t, ht, hdeclares⟩
      obtain ⟨a, c, b, htext, -, hc, hb⟩ := split_of_mem_tail ht
      obtain ⟨word, v, rfl, hword⟩ := (declaresConversion_iff t).1 hdeclares
      refine ⟨hskip.2, a, c, word, v ++ b, by rw [htext, List.append_assoc], hc, ?_⟩
      rcases hword with hfilter | hencoding | ⟨hexact, rfl⟩
      · exact .inl hfilter
      · exact .inr (.inl hencoding)
      · exact .inr (.inr ⟨hexact, hb⟩)
    · rintro ⟨-, a, c, word, b, htext, hc, hword⟩
      exact declares_of_shown htext hc hword

theorem attributesDeclareConversion_iff (content : Bytes) :
    attributesDeclareConversion content = true ↔ ∃ line ∈ content.splitOn 10, Shown line := by
  simp only [attributesDeclareConversion, List.any_eq_true, lineDeclaresConversion_iff]

theorem declaresConversionAttributes_iff (contents : List Bytes) :
    declaresConversionAttributes contents = true ↔
      ∃ content ∈ contents, ∃ line ∈ content.splitOn 10, Shown line := by
  simp only [declaresConversionAttributes, List.any_eq_true, attributesDeclareConversion_iff]

theorem isConversion_cases {attr val : Bytes} (h : isConversion attr val = true) :
    attr = ascii "eol" ∧ val = ascii "crlf" ∨ attr = ascii "ident" ∧ val = ascii "set" ∨
      (attr = ascii "filter" ∨ attr = ascii "working-tree-encoding") ∧ val ≠ ascii "unspecified" ∧
        val ≠ ascii "unset" := by
  unfold isConversion at h
  split_ifs at h with heol hident hfilter
  · exact .inl ⟨heol, eq_of_beq h⟩
  · exact .inr (.inl ⟨hident, eq_of_beq h⟩)
  · simp only [Bool.and_eq_true, bne_iff_ne] at h
    exact .inr (.inr ⟨hfilter, h⟩)

/-- A token that assigns a conversion is one that the scan knows, or a bare one. -/
theorem declares_or_bare {t : Bytes} (h : isConversion (assignment t).1 (assignment t).2 = true) :
    declaresConversion t = true ∨ BareConversion t := by
  rw [declaresConversion_iff]
  have hcases := isConversion_cases h
  unfold assignment at hcases
  split at hcases
  · dsimp only at hcases
    rcases hcases with ⟨-, hval⟩ | ⟨-, hval⟩ | ⟨-, -, hval⟩
    · exact absurd hval (by decide)
    · exact absurd hval (by decide)
    · exact (hval rfl).elim
  · dsimp only at hcases
    rcases hcases with ⟨-, hval⟩ | ⟨-, hval⟩ | ⟨-, hval, -⟩
    · exact absurd hval (by decide)
    · exact absurd hval (by decide)
    · exact (hval rfl).elim
  · by_cases heq : 61 ∈ t
    · rw [if_pos heq] at hcases
      dsimp only at hcases
      have htext : t = t.takeWhile (· != 61) ++ 61 :: (t.dropWhile (· != 61)).tail := by
        obtain ⟨front, back, rfl, hfront⟩ := List.eq_append_cons_of_mem heq
        have hkept : ∀ b ∈ front, (b != 61) = true := fun b hb => bne_iff_ne.2 fun he => hfront (he ▸ hb)
        rw [List.takeWhile_append_of_pos hkept, List.dropWhile_append_of_pos hkept]
        simp
      rcases hcases with ⟨hattr, hval⟩ | ⟨hattr, hval⟩ | ⟨hattr | hattr, -⟩
      · refine .inl ⟨t, [], by simp, .inr (.inr ⟨.inr ?_, rfl⟩)⟩
        rw [htext, hattr, hval]
        rfl
      · refine .inr (.inr (.inr ?_))
        rw [htext, hattr, hval]
        rfl
      · refine .inl ⟨ascii "filter=", (t.dropWhile (· != 61)).tail, ?_, .inl rfl⟩
        nth_rewrite 1 [htext]
        rw [hattr]
        rfl
      · refine .inl ⟨ascii "working-tree-encoding=", (t.dropWhile (· != 61)).tail, ?_, .inr (.inl rfl)⟩
        nth_rewrite 1 [htext]
        rw [hattr]
        rfl
    · rw [if_neg heq] at hcases
      dsimp only at hcases
      rcases hcases with ⟨-, hval⟩ | ⟨hattr, -⟩ | ⟨hattr | hattr, -⟩
      · exact absurd hval (by decide)
      · exact .inl ⟨t, [], by simp, .inr (.inr ⟨.inl hattr, rfl⟩)⟩
      · exact .inr (.inl hattr)
      · exact .inr (.inr (.inl hattr))

theorem trimAscii_of_plain {line : Bytes} {f : UInt8} {rest : Bytes} (hnl : 10 ∉ line)
    (hff : (line.dropWhile isBlank).head? ≠ some 12) (h : line.dropWhile isBlank = f :: rest) :
    ∃ r, f :: rest = trimAscii line ++ r ∧ (∀ x ∈ r, isAsciiWhitespace x = true) ∧
      (trimAscii line).head? = some f := by
  have hblank := head_dropWhile h
  have hline : line = line.takeWhile isBlank ++ f :: rest := by
    rw [← h, List.takeWhile_append_dropWhile]
  have hf : isAsciiWhitespace f = false := by
    have hnl' : f ≠ 10 := fun he => hnl (by rw [hline, he]; simp)
    have hff' : f ≠ 12 := fun he => hff (by rw [h, he]; rfl)
    simp only [isBlank, Bool.or_eq_false_iff, beq_eq_false_iff_ne] at hblank
    simp only [isAsciiWhitespace, Bool.or_eq_false_iff, beq_eq_false_iff_ne]
    tauto
  have hdrop : line.dropWhile isAsciiWhitespace = f :: rest := by
    rw [hline, List.dropWhile_append_of_pos fun x hx => isAsciiWhitespace_of_isBlank (List.mem_takeWhile_imp hx)]
    simp [hf]
  obtain ⟨r, hr, hall⟩ := trimAscii_spec line
  rw [hdrop] at hr
  refine ⟨r, hr, hall, ?_⟩
  cases htrim : trimAscii line with
  | nil =>
    rw [htrim, List.nil_append] at hr
    have hws := hall f (by rw [← hr]; exact List.mem_cons_self)
    rw [hf] at hws
    cases hws
  | cons b m =>
    rw [htrim] at hr
    rw [(List.cons.inj hr).1]
    rfl

theorem word_in_trimmed {front word back m r : Bytes} (hword : word ≠ [])
    (hclean : ∀ x ∈ word, isAsciiWhitespace x = false) (hws : ∀ x ∈ r, isAsciiWhitespace x = true)
    (h : front ++ word ++ back = m ++ r) : ∃ w, m = front ++ word ++ w ∧ back = w ++ r := by
  rcases List.append_eq_append_iff.1 h with ⟨w, hm, hback⟩ | ⟨z, hz, hr⟩
  · exact ⟨w, hm, hback⟩
  · cases hlast : z.getLast? with
    | none =>
      rw [List.getLast?_eq_none_iff] at hlast
      subst hlast
      exact ⟨[], by simp [hz], by simp [hr]⟩
    | some x =>
      have hxz : x ∈ z := List.mem_of_getLast? hlast
      have hxword : x ∈ word := by
        have hends : (front ++ word).getLast? = some x := by rw [hz, List.getLast?_append, hlast]; rfl
        rw [List.getLast?_append_of_ne_nil _ hword] at hends
        exact List.mem_of_getLast? hends
      have hxr := hws x (by rw [hr]; exact List.mem_append_left _ hxz)
      rw [hclean x hxword] at hxr
      cases hxr

/-- On a plain line the scan sees the tokens that git sees. -/
theorem shown_of_plain {line t : Bytes} (hnl : 10 ∉ line) (hplain : PlainLine line)
    (ht : t ∈ attributeTokens line) (hdeclares : declaresConversion t = true) : Shown line := by
  rw [attributeTokens] at ht
  split at ht
  · cases ht
  rename_i hcomment
  obtain ⟨a, c, b, htext, ⟨x, hx, hpx⟩, hc, hb⟩ := split_of_mem_tail ht
  obtain ⟨word, v, rfl, hword⟩ := (declaresConversion_iff t).1 hdeclares
  have hclean := word_clean (hword.imp_right (Or.imp_right And.left))
  -- the first byte that is no blank is in front of the separator
  obtain ⟨a', ha⟩ : ∃ a', a = line.takeWhile isBlank ++ a' ∧ line.dropWhile isBlank = a' ++ c :: (word ++ v ++ b) := by
    have hboth : line.takeWhile isBlank ++ line.dropWhile isBlank = a ++ c :: (word ++ v ++ b) := by
      rw [List.takeWhile_append_dropWhile, ← htext]
    rcases List.append_eq_append_iff.1 hboth with ⟨a', ha, hrest⟩ | ⟨a', ha, -⟩
    · exact ⟨a', ha, hrest⟩
    · have hblank := List.mem_takeWhile_imp (p := isBlank) (l := line) (by rw [ha]; exact List.mem_append_left _ hx)
      rw [hpx] at hblank
      cases hblank
  obtain ⟨hsplit, hdrop⟩ := ha
  have hxa : x ∈ a' := by
    rw [hsplit] at hx
    refine (List.mem_append.1 hx).resolve_left fun hblank => ?_
    rw [List.mem_takeWhile_imp hblank] at hpx
    cases hpx
  obtain ⟨f, a', rfl⟩ := List.exists_cons_of_ne_nil (List.ne_nil_of_mem hxa)
  obtain ⟨r, hr, hws, hhead⟩ := trimAscii_of_plain hnl hplain.2 hdrop
  have hbytes : (f :: a' ++ [c]) ++ word ++ (v ++ b) = trimAscii line ++ r := by
    rw [← hr]
    simp
  obtain ⟨w, htrim, hrest⟩ := word_in_trimmed hclean.1 hclean.2 hws hbytes
  have htrim' : trimAscii line = f :: a' ++ c :: (word ++ w) := by rw [htrim]; simp
  -- a separator within the trimmed line is no carriage return
  have hspace {d : UInt8} (hd : d ∈ trimAscii line) (hblank : isBlank d = true) : isSpaceOrTab d = true := by
    have hcr : d ≠ 13 := fun he => hplain.1 (he ▸ hd)
    simp only [isBlank, isSpaceOrTab, Bool.or_eq_true, beq_iff_eq] at hblank ⊢
    tauto
  refine ⟨?_, f :: a', c, word, w, htrim', hspace (by rw [htrim']; simp) hc, ?_⟩
  · rw [hhead]
    intro hf
    rw [hdrop] at hcomment
    exact hcomment hf
  · rcases hword with hfilter | hencoding | ⟨hexact, rfl⟩
    · exact .inl hfilter
    · exact .inr (.inl hencoding)
    · refine .inr (.inr ⟨hexact, ?_⟩)
      rw [List.nil_append] at hrest
      cases w with
      | nil => exact .inl rfl
      | cons d w =>
        rcases hb with rfl | ⟨d', b, rfl, hd⟩
        · cases hrest
        · have hdw : d' = d := (List.cons.inj hrest).1
          exact .inr ⟨d, w, rfl, hspace (by rw [htrim']; simp) (hdw ▸ hd)⟩

/-- Where no file declares a conversion no file assigns one either, if and only if a line of some file
shows the scan what it looks for or all lines are readable. -/
theorem attribute_scan_iff (contents : List Bytes) :
    (declaresConversionAttributes contents = false →
        (∀ checkAttr, conversionPaths contents checkAttr = []) ∧
        ∀ content ∈ contents, ∀ a ∈ assignments content, isConversion a.1 a.2 = false) ↔
      (∃ content ∈ contents, ∃ line ∈ content.splitOn 10, Shown line) ∨
        ∀ content ∈ contents, ∀ line ∈ content.splitOn 10, Readable line := by
  have hscan := declaresConversionAttributes_iff contents
  constructor
  · intro h
    cases hd : declaresConversionAttributes contents with
    | true => exact .inl (hscan.1 hd)
    | false =>
      have hnone := (h hd).2
      refine .inr fun content hcontent line hline t ht => ?_
      have ha : assignment t ∈ assignments content :=
        List.mem_flatMap.2 ⟨line, hline, List.mem_map_of_mem ht⟩
      have hplain := hnone content hcontent _ ha
      constructor
      · rintro (rfl | rfl | rfl)
        · exact absurd hplain (by decide)
        · exact absurd hplain (by decide)
        · exact absurd hplain (by decide)
      · intro hconv
        rw [hplain] at hconv
        cases hconv
  · intro h hd
    rcases h with hshown | hreadable
    · rw [hscan.2 hshown] at hd
      cases hd
    · refine ⟨fun checkAttr => by rw [conversionPaths, hd]; rfl, fun content hcontent a ha => ?_⟩
      obtain ⟨line, hline, hat⟩ := List.mem_flatMap.1 ha
      obtain ⟨t, ht, rfl⟩ := List.mem_map.1 hat
      obtain ⟨hbare, hplain⟩ := hreadable content hcontent line hline t ht
      cases hconv : isConversion (assignment t).1 (assignment t).2 with
      | false => rfl
      | true =>
        have hdeclares := (declares_or_bare hconv).resolve_right hbare
        have hnl := RecordLog.sep_notMem_of_mem_splitOn 10 hline
        have hshown := shown_of_plain hnl (hplain hconv) ht hdeclares
        rw [hscan.2 ⟨content, hcontent, line, hline, hshown⟩] at hd
        cases hd

/-- The scan passes over a bare `filter`, and over an `ident` behind a carriage return; both get a value
that counts as a conversion. -/
theorem attribute_scan_misses :
    declaresConversionAttributes [ascii "* filter"] = false ∧
      (ascii "filter", ascii "set") ∈ assignments (ascii "* filter") ∧
      isConversion (ascii "filter") (ascii "set") = true ∧
    declaresConversionAttributes [ascii "* text\rident"] = false ∧
      (ascii "ident", ascii "set") ∈ assignments (ascii "* text\rident") ∧
      isConversion (ascii "ident") (ascii "set") = true := by
  decide

end LazyMount
