import LazyMount.Error
import LazyMount.Sgrep

/-! What sgrep makes of the pattern on its command line: literal or regex, what it validates, and what
it searches for. -/

namespace LazyMount

/-- The fields of `Cli` that tell what to search for. -/
structure Cli where
  pattern : Text
  rev : Option Text
  fileFilter : Option Text
  ignoreCase : Bool
  literal : Bool
  count : Nat
  timeoutSecs : Nat
  broadTimeoutSecs : Nat
deriving DecidableEq, Repr

/-- `Query` of the providers. -/
structure SearchQuery where
  repo : Text
  rev : Option Text
  pattern : Text
  fileFilter : Option Text
  caseInsensitive : Bool
  literal : Bool
  maxResults : Nat
  timeoutSecs : Option Nat
deriving DecidableEq, Repr

/-- The `regex` crate: `RegexBuilder` with the flag for case, and `regex::escape`. -/
structure RegexCrate where
  Regex : Type
  Error : Type
  build : Text → (caseInsensitive : Bool) → Except Error Regex
  escape : Text → Text

inductive PatternError (ε : Type) where
  | tooBroad
  | regex (error : ε)
deriving DecidableEq, Repr

def PatternError.message {ε : Type} (render : ε → String) : PatternError ε → String
  | .tooBroad => "broad regex has no required literal; add --file or use a narrower pattern"
  | .regex error => render error

def patternIsPlainLiteral (pattern : Text) : Bool :=
  !pattern.isEmpty && !(Utf8.encode pattern).any fun b => b ∈ ascii "\\^$.|?*+()[]\x7b\x7d"

def intentBytes : Bytes := ascii "\\^$|?*+[]\x7b\x7d"

def regexIntent (pattern : Text) : Bool := (Utf8.encode pattern).any (· ∈ intentBytes)

def isAsciiAlphanumeric (b : UInt8) : Bool :=
  (48 ≤ b && b ≤ 57) || (65 ≤ b && b ≤ 90) || (97 ≤ b && b ≤ 122)

def isIdentPath (s : Text) : Bool :=
  !s.isEmpty && (s.splitOn '.').all fun part =>
    !part.isEmpty && (Utf8.encode part).all fun b => isAsciiAlphanumeric b || b = 95 || b = 36

def patternIsCodeLiteral (pattern : Text) : Bool :=
  if pattern.isEmpty || regexIntent pattern then false
  else
    match (pattern.dropSuffix? ['(', ')']).or (pattern.dropSuffix? ['(']) with
    | some base => isIdentPath base
    | none => pattern.contains '.' && isIdentPath pattern

def effectiveLiteral (pattern : Text) (explicitLiteral : Bool) : Bool :=
  explicitLiteral || patternIsPlainLiteral pattern || patternIsCodeLiteral pattern

def normalizedSearchPattern (pattern : Text) : Text :=
  (((pattern.dropSuffix? ['(', ')']).filter isIdentPath).map (· ++ ['('])).getD pattern

def triviallyBroad : List Text :=
  [".", ".*", ".+", "^.*$", "\\w+", "\\S+", "[A-Za-z_]+", "[a-zA-Z_]+"].map String.toList

def rejectTooBroadRegex {ε : Type} (pattern : Text) (fileFilter : Option Text) : Except (PatternError ε) Unit :=
  if fileFilter.isSome then .ok ()
  else if pattern.trim ∈ triviallyBroad then .error .tooBroad
  else .ok ()

variable {R : RegexCrate}

def localRegex (R : RegexCrate) (pattern : Text) (ignoreCase literal : Bool) : Except R.Error R.Regex :=
  R.build (if literal then R.escape pattern else pattern) ignoreCase

/-- `run` from the command line to the request, once the repository is known. -/
def searchQuery (R : RegexCrate) (cli : Cli) (repo : Text) : Except (PatternError R.Error) SearchQuery := do
  let searchPattern := normalizedSearchPattern cli.pattern
  let literal := effectiveLiteral cli.pattern cli.literal
  if !literal then
    rejectTooBroadRegex cli.pattern cli.fileFilter
    let _ ← (localRegex R cli.pattern cli.ignoreCase false).mapError .regex
  let timeoutSecs :=
    if cli.timeoutSecs > 0 then some cli.timeoutSecs
    else if cli.broadTimeoutSecs > 0 && cli.fileFilter.isNone then some cli.broadTimeoutSecs
    else none
  .ok ⟨repo, cli.rev, searchPattern, cli.fileFilter, cli.ignoreCase, literal, cli.count, timeoutSecs⟩

/-- What `run` compiles for the local overlay, after the request. -/
def overlayRegex (R : RegexCrate) (cli : Cli) (query : SearchQuery) : Except R.Error R.Regex :=
  localRegex R query.pattern cli.ignoreCase query.literal

/-! A call of an identifier path, which the search cuts short. -/

variable {pattern base : Text}

theorem isIdentPath_byte (h : isIdentPath base = true) {c : Char} (hc : c ∈ base) (hdot : c ≠ '.') {b : UInt8}
    (hb : b ∈ String.utf8EncodeChar c) : (isAsciiAlphanumeric b || b = 95 || b = 36) = true := by
  obtain ⟨part, hpart, hmem⟩ := exists_mem_splitOn hc hdot
  rw [isIdentPath, Bool.and_eq_true, List.all_eq_true] at h
  have hall := h.2 part hpart
  rw [Bool.and_eq_true, List.all_eq_true] at hall
  exact hall.2 b (List.mem_flatMap.mpr ⟨c, hmem, hb⟩)

/-- Of what marks a regex only the dollar sign stands in identifier paths. -/
theorem regexIntent_call (h : isIdentPath base = true) : regexIntent (base ++ ['(', ')']) = true ↔ '$' ∈ base := by
  have hcall : Utf8.encode (base ++ ['(', ')']) = Utf8.encode base ++ [40, 41] := List.flatMap_append
  have hend : ([40, 41] : Bytes).any (· ∈ intentBytes) = false := by decide +kernel
  have hcommon : ∀ b ∈ intentBytes, (isAsciiAlphanumeric b || b = 95 || b = 36) = true → b = 36 := by
    decide +kernel
  rw [regexIntent, hcall, List.any_append, hend, Bool.or_false, List.any_eq_true]
  constructor
  · rintro ⟨b, hb, hmeta⟩
    obtain ⟨c, hc, hbc⟩ := List.mem_flatMap.mp hb
    have hmeta := of_decide_eq_true hmeta
    by_cases hdot : c = '.'
    · subst hdot
      rw [List.mem_singleton.mp (show b ∈ [46] from hbc)] at hmeta
      exact absurd hmeta (by decide +kernel)
    · obtain rfl := hcommon b hmeta (isIdentPath_byte h hc hdot hbc)
      exact (Utf8.mem_encode_ascii (c := '$') (by decide)).mp hb
  · intro hc
    exact ⟨36, (Utf8.mem_encode_ascii (c := '$') (by decide)).mpr hc, by decide +kernel⟩

theorem dropSuffix_call (base : Text) : (base ++ ['(', ')']).dropSuffix? ['(', ')'] = some base :=
  List.dropSuffix?_eq_some_iff.mpr ⟨_, rfl, by decide⟩

theorem eq_call_of_dropSuffix (h : pattern.dropSuffix? ['(', ')'] = some base) : pattern = base ++ ['(', ')'] := by
  obtain ⟨suffix, rfl, hs⟩ := List.dropSuffix?_eq_some_iff.mp h
  rw [eq_of_beq hs]

theorem normalized_call (h : isIdentPath base = true) :
    normalizedSearchPattern (base ++ ['(', ')']) = base ++ ['('] := by
  rw [normalizedSearchPattern, dropSuffix_call, Option.filter_some, if_pos h]
  rfl

theorem normalized_eq_iff : normalizedSearchPattern pattern = pattern ↔
    ¬ ∃ base, pattern = base ++ ['(', ')'] ∧ isIdentPath base = true := by
  constructor
  · rintro hn ⟨base, rfl, h⟩
    rw [normalized_call h] at hn
    have hlen := congrArg List.length hn
    simp at hlen
  · intro hno
    rw [normalizedSearchPattern]
    cases hd : pattern.dropSuffix? ['(', ')'] with
    | none => rfl
    | some base =>
      have hident : ¬ isIdentPath base = true := fun h => hno ⟨base, eq_call_of_dropSuffix hd, h⟩
      rw [Option.filter_some, if_neg hident]
      rfl

theorem effectiveLiteral_call (h : isIdentPath base = true) :
    effectiveLiteral (base ++ ['(', ')']) false = false ↔ '$' ∈ base := by
  have hparen : 40 ∈ Utf8.encode (base ++ ['(', ')']) :=
    (Utf8.mem_encode_ascii (c := '(') (by decide)).mpr (by simp)
  have hplain : patternIsPlainLiteral (base ++ ['(', ')']) = false := by
    rw [patternIsPlainLiteral, Bool.and_eq_false_iff]
    right
    rw [Bool.not_eq_false', List.any_eq_true]
    exact ⟨40, hparen, by decide +kernel⟩
  rw [effectiveLiteral, Bool.false_or, hplain, Bool.false_or, patternIsCodeLiteral, ← regexIntent_call h]
  cases hr : regexIntent (base ++ ['(', ')']) with
  | true => simp
  | false =>
    have hne : (base ++ ['(', ')']).isEmpty = false := by simp
    rw [hne, dropSuffix_call]
    simp [h]

/-- A call of an identifier path that is given as a literal, or whose path has a dollar sign, which
makes it a regex. -/
def CutShort (pattern : Text) (explicit : Bool) : Prop :=
  ∃ base, pattern = base ++ ['(', ')'] ∧ isIdentPath base = true ∧ (explicit = true ∨ '$' ∈ base)

theorem kept_iff (pattern : Text) (explicit : Bool) :
    ((effectiveLiteral pattern false = false → normalizedSearchPattern pattern = pattern) ∧
      (explicit = true → normalizedSearchPattern pattern = pattern)) ↔ ¬ CutShort pattern explicit := by
  rw [normalized_eq_iff, ← or_imp]
  constructor
  · rintro hkept ⟨base, rfl, h, hor⟩
    exact hkept (hor.symm.imp_left (effectiveLiteral_call h).mpr) ⟨base, rfl, h⟩
  · rintro hno hor ⟨base, rfl, h⟩
    exact hno ⟨base, rfl, h, hor.symm.imp_right (effectiveLiteral_call h).mp⟩

theorem searchQuery_ok {cli : Cli} {repo : Text} {query : SearchQuery} (h : searchQuery R cli repo = .ok query) :
    query.pattern = normalizedSearchPattern cli.pattern ∧
      query.literal = effectiveLiteral cli.pattern cli.literal ∧
      (query.literal = false → ∃ re, localRegex R cli.pattern cli.ignoreCase false = .ok re) := by
  rw [searchQuery] at h
  cases hl : effectiveLiteral cli.pattern cli.literal with
  | true =>
    rw [hl] at h
    cases h
    exact ⟨rfl, rfl, by simp⟩
  | false =>
    simp only [hl, Bool.not_false, if_true] at h
    obtain ⟨_, -, h⟩ := Except.bind_eq_ok.mp h
    obtain ⟨re, hre, h⟩ := Except.bind_eq_ok.mp h
    cases h
    refine ⟨rfl, rfl, fun _ => ?_⟩
    cases hb : localRegex R cli.pattern cli.ignoreCase false with
    | ok re => exact ⟨re, rfl⟩
    | error e =>
      rw [hb] at hre
      cases hre

/-- What is searched for is what was validated, or the literal that was given, exactly if the pattern is
not cut short; then the request and the local overlay have the same regex. -/
theorem pattern_searched_iff (pattern : Text) (explicit : Bool) :
    (((effectiveLiteral pattern false = false → normalizedSearchPattern pattern = pattern) ∧
      (explicit = true → normalizedSearchPattern pattern = pattern)) ↔ ¬ CutShort pattern explicit) ∧
    ∀ (R : RegexCrate) (cli : Cli) (repo : Text) (query : SearchQuery), cli.pattern = pattern →
      cli.literal = explicit → searchQuery R cli repo = .ok query → ¬ CutShort pattern explicit →
      (explicit = true → query.pattern = pattern) ∧ (query.literal = false → query.pattern = pattern ∧
        ∃ re, localRegex R pattern cli.ignoreCase false = .ok re ∧ overlayRegex R cli query = .ok re) := by
  refine ⟨kept_iff pattern explicit, fun R cli repo query hp hl h hcut => ?_⟩
  subst hp hl
  obtain ⟨hregex, hliteral⟩ := (kept_iff _ _).mpr hcut
  obtain ⟨hpattern, hflag, hvalid⟩ := searchQuery_ok h
  refine ⟨fun hl => hpattern.trans (hliteral hl), fun hl => ?_⟩
  have hauto : effectiveLiteral cli.pattern false = false := by
    rw [hflag, effectiveLiteral, Bool.or_assoc, Bool.or_eq_false_iff] at hl
    rw [effectiveLiteral, Bool.false_or]
    exact hl.2
  obtain ⟨re, hre⟩ := hvalid hl
  have hkept := hpattern.trans (hregex hauto)
  refine ⟨hkept, re, hre, ?_⟩
  rw [overlayRegex, hkept, hl, hre]

/-- A crate that takes every pattern, and escapes none. -/
def plainCrate : RegexCrate := ⟨Text, Empty, fun pattern _ => .ok pattern, id⟩

/-- `sgrep 'f|g'` -/
def alternatives : Cli := ⟨"f|g".toList, none, none, false, false, 100, 0, 0⟩

theorem pattern_searched_alternatives : ∃ query, searchQuery plainCrate alternatives "o/r".toList = .ok query ∧
    query.literal = false ∧ query.pattern = alternatives.pattern := by
  obtain ⟨query, h⟩ : ∃ query, searchQuery plainCrate alternatives "o/r".toList = .ok query := ⟨_, rfl⟩
  have hliteral : query.literal = false := (searchQuery_ok h).2.1.trans (by decide +kernel)
  have hcut : ¬ CutShort alternatives.pattern alternatives.literal := by
    rintro ⟨base, hbase, -⟩
    have hlast := congrArg List.getLast? hbase
    rw [List.getLast?_append_of_ne_nil _ (by simp)] at hlast
    cases hlast
  exact ⟨query, h, hliteral,
    (((pattern_searched_iff _ _).2 plainCrate alternatives _ query rfl rfl h hcut).2 hliteral).1⟩

/-- `$f()` passes as a regex, and what is searched for is the regex `$f(`; `--literal f()` searches for
`f(`. -/
theorem pattern_cut_short :
    ¬ (∀ pattern explicit, (effectiveLiteral pattern false = false → normalizedSearchPattern pattern = pattern) ∧
      (explicit = true → normalizedSearchPattern pattern = pattern)) ∧
    effectiveLiteral "$f()".toList false = false ∧ normalizedSearchPattern "$f()".toList = "$f(".toList ∧
    normalizedSearchPattern "f()".toList = "f(".toList := by
  refine ⟨fun h => ?_, by decide +kernel, by decide +kernel, by decide +kernel⟩
  exact absurd ((h "$f()".toList false).1 (by decide +kernel)) (by decide +kernel)

end LazyMount
