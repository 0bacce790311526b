import LazyMount.Lib.KeySort
import LazyMount.Lib.Tokens
import LazyMount.SgrepOverlay
import Mathlib.Algebra.Group.Nat.Defs

/-! What sgrep prints, the better hits first, and what it reads where a command prints the hits, which may
be sgrep itself. -/

namespace LazyMount

open Tokens

namespace Text

/-- `str::splitn` -/
def splitN : Nat → Char → Text → List Text
  | 0, _, _ => []
  | 1, _, t => [t]
  | n + 2, sep, t =>
    if sep ∈ t then t.takeWhile (· ≠ sep) :: splitN (n + 1) sep (t.dropWhile (· ≠ sep)).tail else [t]

def trimStart (t : Text) : Text := t.dropWhile isWhitespace

def startsWith (t : Text) (s : String) : Bool := s.toList.isPrefixOf t

def contains (t : Text) (s : String) : Bool := t.tails.any fun r => s.toList.isPrefixOf r

end Text

def toAsciiLowercase (b : UInt8) : UInt8 := if 65 ≤ b ∧ b ≤ 90 then b + 32 else b

def generatedNames : List Bytes := [".d.ts", ".snap", ".snapshot"].map ascii

def generatedParts : List Bytes :=
  ["generated", "vendor", "third_party", "node_modules", "dist", "build"].map ascii

def testNames : List Bytes :=
  ["_test.rs", "_test.go", ".test.ts", ".test.tsx", ".test.js", ".test.jsx", ".spec.ts", ".spec.tsx", ".spec.js",
    ".spec.jsx"].map ascii

def testParts : List Bytes :=
  ["test", "tests", "testing", "fixtures", "fixture", "mock", "mocks", "__tests__", "bench", "benches", "benchmark",
    "benchmarks", "snapshot", "snapshots"].map ascii

def docParts : List Bytes :=
  ["doc", "docs", "example", "examples", "samples", "sample", "changelog", "changelogs", "packages-private"].map ascii

def pathRank (path : Bytes) : Nat :=
  let parts := tokens (fun b => b == 47 || b == 92) (path.map toAsciiLowercase)
  let name := parts.getLast?.getD []
  if generatedNames.any (·.isSuffixOf name) || parts.any generatedParts.contains then 60
  else if testNames.any (·.isSuffixOf name) || parts.any testParts.contains then 40
  else if parts.any docParts.contains then 50
  else 10

def definitions : List String :=
  ["export function ", "export async function ", "pub fn ", "pub async fn ", "fn ", "class ", "const ", "pub const "]

def textRank (text : Text) : Nat :=
  let t := text.trimStart
  if t.contains "Some(\"" || t.contains "register" || t.contains "registration" || definitions.any t.startsWith then 0
  else if t.contains "extension!(" || t.contains "ops = [" then 1
  else 10

/-- The order of `match_rank`: of the paths first. -/
def Match.cmp (a b : Match) : Ordering :=
  (compare (pathRank a.path) (pathRank b.path)).then (compare (textRank a.text) (textRank b.text))

/-- `sort_by_key` is stable. -/
def rankMatches (found : List Match) : List Match := KeySort.sortBy Match.cmp found

def Match.print (m : Match) : Bytes := m.path ++ 58 :: (Decimal.encode m.line ++ 58 :: (Utf8.encode m.text ++ [10]))

def printMatches (found : List Match) (filesOnly : Bool) : Bytes :=
  if filesOnly then (sortDedup (found.map (·.path))).flatMap (· ++ [10]) else found.flatMap Match.print

/-- `run` from the hits of the provider on: what is printed, and whether anything was found. -/
def report (read : Bytes → Option Bytes) (remote : List Match) (base : Bytes) (changed : List Bytes)
    (isMatch : Text → Bool) (filesOnly : Bool) : Bytes × Bool :=
  let results := rankMatches (apply read remote base changed isMatch)
  (printMatches results filesOnly, !results.isEmpty)

/-- One line of grep: a hit, or a path alone; a line with one colon only, or whose number is none, is
skipped. -/
def grepLine (line : Text) : Option Match :=
  match line.splitN 3 ':' with
  | [path, num, text] =>
    (parseU64 (Utf8.encode num)).map fun n => ⟨Utf8.encode path, n, text⟩
  | [path] => some ⟨Utf8.encode path, 0, []⟩
  | _ => none

/-- The cap is looked at behind each line that is not empty. -/
def grepLines (max : Nat) : List Text → List Match → List Match
  | [], out => out
  | [] :: lines, out => grepLines max lines out
  | line :: lines, out =>
    let out := out ++ (grepLine line).toList
    if max ≤ out.length then out else grepLines max lines out

def parseGrepLines (s : Text) (max : Nat) : List Match := grepLines max s.lines []

/-- `Exec::search` for a command that succeeded. -/
def execMatches (stdout : Bytes) (max : Nat) : List Match := parseGrepLines (lossyText stdout) max

/-- A hit that stands on one line and whose path ends where the line number begins. -/
structure Match.Printable (m : Match) : Prop where
  path : ∃ t : Text, m.path = Utf8.encode t ∧ t ≠ [] ∧ ':' ∉ t ∧ '\n' ∉ t ∧ t.getLast? ≠ some '\r'
  line : m.line < 2 ^ 64
  text : '\n' ∉ m.text ∧ m.text.getLast? ≠ some '\r'

namespace Text

theorem splitN_append {n : Nat} {sep : Char} {a : Text} (h : sep ∉ a) (b : Text) :
    splitN (n + 2) sep (a ++ sep :: b) = a :: splitN (n + 1) sep b := by
  have hall : ∀ c ∈ a, decide (c ≠ sep) = true := by
    intro c hc
    rw [decide_eq_true_eq]
    rintro rfl
    exact h hc
  rw [splitN, if_pos (by simp), List.takeWhile_append_of_pos hall, List.dropWhile_append_of_pos hall]
  simp

theorem lines_encode {ls : List Text} (h : ∀ l ∈ ls, '\n' ∉ l ∧ l.getLast? ≠ some '\r') :
    lines (RecordLog.encode '\n' ls) = ls := by
  rw [lines, RecordLog.splitOn_encode '\n' fun l hl => (h l hl).1]
  have hstrip : ls.map stripCr = ls :=
    (List.map_congr_left fun l hl => stripCr_of_getLast (h l hl).2).trans (List.map_id ls)
  simp [hstrip]

end Text

namespace Match

variable {m : Match} {found : List Match}

/-- The line of a hit whose path is the text. -/
def lineOf (path : Text) (m : Match) : Text := path ++ ':' :: (Nat.toDigits 10 m.line ++ ':' :: m.text)

theorem digits_ascii (n : Nat) : ∀ c ∈ Nat.toDigits 10 n, c.isDigit = true :=
  fun _ hc => Nat.isDigit_of_mem_toDigits (by omega) (by omega) hc

theorem encode_digits (n : Nat) : Utf8.encode (Nat.toDigits 10 n) = Decimal.encode n := by
  rw [Utf8.encode_ascii, Decimal.encode]
  · rfl
  · intro c hc
    have hdigit := digits_ascii n c hc
    simp only [Char.isDigit, Bool.and_eq_true, decide_eq_true_eq] at hdigit
    have hle : c.toNat ≤ 57 := UInt32.le_iff_toNat_le.mp hdigit.2
    omega

theorem print_eq {path : Text} (h : m.path = Utf8.encode path) :
    m.print = Utf8.encode (m.lineOf path ++ ['\n']) := by
  have hcolon : Utf8.encode [':'] = [58] := by decide
  have hnewline : Utf8.encode ['\n'] = [10] := by decide
  have happend : ∀ a b : Text, Utf8.encode (a ++ b) = Utf8.encode a ++ Utf8.encode b := fun _ _ => List.flatMap_append
  have hcons : ∀ a : Text, Utf8.encode (':' :: a) = 58 :: Utf8.encode a := fun a => by
    rw [← List.singleton_append, happend, hcolon]
    rfl
  rw [Match.print, lineOf, h]
  simp only [happend, hcons, hnewline, encode_digits, List.append_assoc, List.cons_append]

theorem grepLine_lineOf {path : Text} (h : m.path = Utf8.encode path) (hcolon : ':' ∉ path) (hline : m.line < 2 ^ 64) :
    grepLine (m.lineOf path) = some m := by
  have hdigits : ':' ∉ Nat.toDigits 10 m.line := by
    intro hc
    have hdigit := digits_ascii _ _ hc
    revert hdigit
    decide
  rw [grepLine, lineOf, Text.splitN_append hcolon, Text.splitN_append hdigits, Text.splitN]
  simp only [encode_digits, parseU64_decimal, hline, if_true, Option.map_some]
  rw [← h]

end Match

/-- Where each line is a hit, they are read up to the cap, but at least one. -/
theorem grepLines_eq {cap : Nat} {α : Type} {line : α → Text} {hit : α → Match} {found : List α}
    (hne : ∀ m ∈ found, line m ≠ []) (hread : ∀ m ∈ found, grepLine (line m) = some (hit m)) (out : List Match) :
    grepLines cap (found.map line) out = out ++ (found.map hit).take (max 1 (cap - out.length)) := by
  induction found generalizing out with
  | nil => simp [grepLines]
  | cons m found ih =>
    have hm := hread m (by simp)
    have hrest := ih (fun x hx => hne x (by simp [hx])) (fun x hx => hread x (by simp [hx])) (out ++ [hit m])
    obtain ⟨c, rest, hc⟩ := List.exists_cons_of_ne_nil (hne m (by simp))
    rw [List.map_cons, hc, grepLines]
    · rw [← hc, hm, Option.toList_some, List.map_cons]
      split
      · rename_i hcap
        rw [List.length_append, List.length_singleton] at hcap
        have hone : max 1 (cap - out.length) = 1 := by omega
        rw [hone]
        rfl
      · rename_i hcap
        rw [List.length_append, List.length_singleton] at hcap
        have hsucc : max 1 (cap - out.length) = max 1 (cap - (out ++ [hit m]).length) + 1 := by
          rw [List.length_append, List.length_singleton]
          omega
        rw [hrest, hsucc, List.take_succ_cons, List.append_assoc, List.singleton_append]
    · simp

theorem nodup_eraseDups {α : Type} [BEq α] [LawfulBEq α] (l : List α) : l.eraseDups.Nodup := by
  induction hn : l.length using Nat.strongRecOn generalizing l with
  | ind n ih =>
    cases l with
    | nil => simp
    | cons a l =>
      have hshort : (l.filter fun b => !b == a).length < n := by
        have hle := List.length_filter_le (fun b => !b == a) l
        rw [← hn, List.length_cons]
        omega
      rw [List.eraseDups_cons, List.nodup_cons]
      refine ⟨?_, ih _ hshort _ rfl⟩
      simp [List.mem_eraseDups]

theorem textRank_lt (text : Text) : textRank text < 256 := by
  simp only [textRank]
  split
  · decide
  · split <;> decide

theorem compare_then {p q s t : Nat} (hs : s < 256) (ht : t < 256) :
    (compare p q).then (compare s t) = compare (256 * p + s) (256 * q + t) := by
  rcases Nat.lt_trichotomy p q with h | rfl | h
  · have hlt : 256 * p + s < 256 * q + t := by omega
    rw [Nat.compare_eq_lt.mpr h, Nat.compare_eq_lt.mpr hlt]
    rfl
  · rw [Nat.compare_eq_eq.mpr rfl]
    rcases Nat.lt_trichotomy s t with h | rfl | h
    · rw [Nat.compare_eq_lt.mpr h, Nat.compare_eq_lt.mpr (by omega)]
      rfl
    · rw [Nat.compare_eq_eq.mpr rfl, Nat.compare_eq_eq.mpr rfl]
      rfl
    · rw [Nat.compare_eq_gt.mpr h, Nat.compare_eq_gt.mpr (by omega)]
      rfl
  · have hgt : 256 * q + t < 256 * p + s := by omega
    rw [Nat.compare_eq_gt.mpr h, Nat.compare_eq_gt.mpr hgt]
    rfl

/-- `match_rank`, as one number. -/
def Match.rank (m : Match) : Nat := 256 * pathRank m.path + textRank m.text

theorem follows_rank (found : List Match) : KeySort.Follows Match.cmp Match.rank found :=
  fun a _ b _ => compare_then (textRank_lt a.text) (textRank_lt b.text)

theorem sortDedup_congr {ps qs : List Bytes} (h : ∀ p, p ∈ ps ↔ p ∈ qs) : sortDedup ps = sortDedup qs := by
  have hnodup : ∀ rs : List Bytes, (sortDedup rs).Nodup := by
    intro rs
    refine (pairwise_sortDedup rs).imp fun {a b} hab => ?_
    rintro rfl
    exact List.lt_irrefl a hab
  have hperm : (sortDedup ps).Perm (sortDedup qs) :=
    (List.perm_ext_iff_of_nodup (hnodup ps) (hnodup qs)).mpr fun p => by simp [h]
  refine hperm.eq_of_pairwise (fun a b _ _ hab hba => ?_) (pairwise_sortDedup ps) (pairwise_sortDedup qs)
  exact absurd hba (List.lt_asymm hab)

section Report

variable {found : List Match} (h : ∀ m ∈ found, m.Printable)

include h

theorem execMatches_print (cap : Nat) : execMatches (printMatches found false) cap = found.take (max 1 cap) := by
  have hpaths : ∀ m, ∃ t : Text, m ∈ found → m.path = Utf8.encode t ∧ t ≠ [] ∧ ':' ∉ t ∧ '\n' ∉ t := by
    intro m
    by_cases hm : m ∈ found
    · obtain ⟨t, ht, hne, hcolon, hline, -⟩ := (h m hm).path
      exact ⟨t, fun _ => ⟨ht, hne, hcolon, hline⟩⟩
    · exact ⟨[], fun hm' => absurd hm' hm⟩
  choose path hpath using hpaths
  have hprint : printMatches found false =
      Utf8.encode (RecordLog.encode '\n' (found.map fun m => m.lineOf (path m))) := by
    have hmap : found.flatMap Match.print = found.flatMap fun m => Utf8.encode (m.lineOf (path m) ++ ['\n']) :=
      List.flatMap_congr fun m hm => Match.print_eq (hpath m hm).1
    rw [printMatches, if_neg Bool.false_ne_true, hmap, RecordLog.encode, List.flatMap_map, Utf8.encode,
      List.flatMap_assoc]
    rfl
  have hline : ∀ l ∈ found.map fun m => m.lineOf (path m), '\n' ∉ l ∧ l.getLast? ≠ some '\r' := by
    intro l hl
    obtain ⟨m, hm, rfl⟩ := List.mem_map.mp hl
    obtain ⟨hnewline, hreturn⟩ := (h m hm).text
    have hdigits : '\n' ∉ Nat.toDigits 10 m.line := by
      intro hc
      have hdigit := Match.digits_ascii _ _ hc
      revert hdigit
      decide
    refine ⟨by simp [Match.lineOf, (hpath m hm).2.2.2, hdigits, hnewline], ?_⟩
    have hsplit : m.lineOf (path m) = (path m ++ ':' :: Nat.toDigits 10 m.line ++ [':']) ++ m.text := by
      simp [Match.lineOf]
    rw [hsplit, List.getLast?_append, List.getLast?_concat]
    cases hlast : m.text.getLast? with
    | none => simp
    | some c => simpa [hlast] using hreturn
  have hread : ∀ m ∈ found, grepLine (m.lineOf (path m)) = some (id m) := fun m hm =>
    Match.grepLine_lineOf (hpath m hm).1 (hpath m hm).2.2.1 (h m hm).line
  have hne : ∀ m ∈ found, m.lineOf (path m) ≠ [] := fun m hm => by simp [Match.lineOf]
  rw [execMatches, hprint, lossyText_encode, parseGrepLines, Text.lines_encode hline, grepLines_eq hne hread]
  simp

theorem execMatches_files (cap : Nat) : execMatches (printMatches found true) cap =
    ((sortDedup (found.map (·.path))).map fun p => ⟨p, 0, []⟩).take (max 1 cap) := by
  have hpaths : ∀ p, ∃ t : Text, p ∈ sortDedup (found.map (·.path)) →
      p = Utf8.encode t ∧ t ≠ [] ∧ ':' ∉ t ∧ '\n' ∉ t ∧ t.getLast? ≠ some '\r' := by
    intro p
    by_cases hp : p ∈ sortDedup (found.map (·.path))
    · obtain ⟨m, hm, rfl⟩ := List.mem_map.mp (mem_sortDedup.mp hp)
      obtain ⟨t, ht⟩ := (h m hm).path
      exact ⟨t, fun _ => ht⟩
    · exact ⟨[], fun hp' => absurd hp' hp⟩
  choose path hpath using hpaths
  have hprint : printMatches found true =
      Utf8.encode (RecordLog.encode '\n' ((sortDedup (found.map (·.path))).map path)) := by
    have hnewline : Utf8.encode ['\n'] = [10] := by decide
    have hmap : ((sortDedup (found.map (·.path))).flatMap fun p => p ++ [10]) =
        (sortDedup (found.map (·.path))).flatMap fun p => Utf8.encode (path p ++ ['\n']) := by
      refine List.flatMap_congr fun p hp => ?_
      have happend : Utf8.encode (path p ++ ['\n']) = Utf8.encode (path p) ++ Utf8.encode ['\n'] := List.flatMap_append
      rw [happend, hnewline, ← (hpath p hp).1]
    rw [printMatches, if_pos rfl, hmap, RecordLog.encode, List.flatMap_map, Utf8.encode, List.flatMap_assoc]
    rfl
  have hline : ∀ l ∈ (sortDedup (found.map (·.path))).map path, '\n' ∉ l ∧ l.getLast? ≠ some '\r' := by
    intro l hl
    obtain ⟨p, hp, rfl⟩ := List.mem_map.mp hl
    exact (hpath p hp).2.2.2
  have hread : ∀ p ∈ sortDedup (found.map (·.path)), grepLine (path p) = some ⟨p, 0, []⟩ := by
    intro p hp
    have hcolon := (hpath p hp).2.2.1
    have hsplit : (path p).splitN 3 ':' = [path p] := by rw [Text.splitN, if_neg hcolon]
    rw [grepLine, hsplit]
    simp only [← (hpath p hp).1]
  have hne : ∀ p ∈ sortDedup (found.map (·.path)), path p ≠ [] := fun p hp => (hpath p hp).2.1
  rw [execMatches, hprint, lossyText_encode, parseGrepLines, Text.lines_encode hline, grepLines_eq hne hread]
  simp

end Report

end LazyMount
