import LazyMount.Lib.Percent
import LazyMount.RepoPath

/-! Paths as text for logs and JSON, and the laws by which a path is the list of its components. -/

namespace LazyMount

def percent : UInt8 := 37

/-- A digit of `{:X}`. -/
def upperHexDigit (n : Nat) : Char := if n < 10 then Char.ofNat (48 + n) else Char.ofNat (55 + n)

def hexVal (b : UInt8) : Option UInt8 :=
  if 48 ≤ b ∧ b ≤ 57 then some (b - 48)
  else if 97 ≤ b ∧ b ≤ 102 then some (b - 97 + 10)
  else if 65 ≤ b ∧ b ≤ 70 then some (b - 65 + 10)
  else none

namespace RepoPath

def escapeByte (b : UInt8) : Text :=
  if b = percent then "%25".toList
  else if 0x20 ≤ b ∧ b < 0x7f then [Char.ofNat b.toNat]
  else '%' :: [upperHexDigit (b.toNat / 16), upperHexDigit (b.toNat % 16)]

def escape (p : RepoPath) : Text := p.bytes.flatMap escapeByte

/-- The loop of `unescape` from `i` on; none if it indexes out of range. -/
def unescapeFrom (raw : Bytes) (i : Nat) (bytes : Bytes) : Option (Except PathError Bytes) :=
  if i < raw.length then do
    let b ← raw[i]?
    if b = percent then
      if i + 2 ≥ raw.length then some (.error .badEscape)
      else
        match hexVal (← raw[i + 1]?) with
        | none => some (.error .badEscape)
        | some hi =>
          match hexVal (← raw[i + 2]?) with
          | none => some (.error .badEscape)
          | some lo => unescapeFrom raw (i + 3) (bytes ++ [hi <<< 4 ||| lo])
    else unescapeFrom raw (i + 1) (bytes ++ [b])
  else some (.ok bytes)
termination_by raw.length - i

def unescape (s : Text) : Option (Except PathError RepoPath) := do
  let bytes ← unescapeFrom (Utf8.encode s) 0 []
  some (bytes.bind fromBytes)

/-! The two loops as percent-encoding. -/

theorem upperHexDigit_bounds {n : Nat} (h : n < 16) :
    0x20 ≤ (upperHexDigit n).toNat ∧ (upperHexDigit n).toNat < 0x7f := by
  revert n
  decide

/-- Printable ASCII but the percent sign stands for itself. -/
def pathCode : Percent.Code where
  keep b := b ≠ percent ∧ 0x20 ≤ b ∧ b < 0x7f
  digit n := UInt8.ofNat (upperHexDigit n).toNat
  value := hexVal
  keep_sign := rfl
  value_digit := by decide
  value_sign := rfl

theorem toNat_ofNat_ascii {n : Nat} (h : n < 0x7f) : (Char.ofNat n).toNat = n := by
  rw [Char.ofNat, dif_pos (.inl (by omega))]
  rfl

theorem escapeByte_bounds {b : UInt8} : ∀ c ∈ escapeByte b, 0x20 ≤ c.toNat ∧ c.toNat < 0x7f := by
  have hlt := b.toNat_lt
  intro c hc
  rw [escapeByte] at hc
  split at hc
  · have hlist : "%25".toList = ['%', '2', '5'] := rfl
    simp only [hlist, List.mem_cons, List.not_mem_nil, or_false] at hc
    rcases hc with rfl | rfl | rfl <;> decide
  · split at hc
    · rename_i hb
      rw [UInt8.le_iff_toNat_le, UInt8.lt_iff_toNat_lt] at hb
      rw [List.mem_singleton.mp hc, toNat_ofNat_ascii hb.2]
      exact hb
    · simp only [List.mem_cons, List.not_mem_nil, or_false] at hc
      rcases hc with rfl | rfl | rfl
      · decide
      · exact upperHexDigit_bounds (by omega)
      · exact upperHexDigit_bounds (by omega)

theorem encode_escapeByte (b : UInt8) : Utf8.encode (escapeByte b) = pathCode.escape b := by
  rw [Utf8.encode_ascii fun c hc => by have hb := escapeByte_bounds c hc; omega]
  by_cases hp : b = percent
  · subst hp
    rfl
  by_cases hb : 0x20 ≤ b ∧ b < 0x7f
  · have hkeep : pathCode.keep b = true := decide_eq_true ⟨hp, hb⟩
    rw [escapeByte, if_neg hp, if_pos hb, Percent.Code.escape, if_pos hkeep]
    rw [UInt8.lt_iff_toNat_lt] at hb
    rw [List.map_singleton, toNat_ofNat_ascii hb.2, UInt8.ofNat_toNat]
  · have hkeep : pathCode.keep b ≠ true := by
      intro hk
      exact hb (of_decide_eq_true hk).2
    rw [escapeByte, if_neg hp, if_neg hb, Percent.Code.escape, if_neg hkeep]
    rfl

theorem encode_escape (p : RepoPath) : Utf8.encode p.escape = pathCode.encode p.bytes := by
  rw [escape, Utf8.encode, List.flatMap_assoc, Percent.Code.encode]
  exact List.flatMap_congr fun b _ => encode_escapeByte b

/-- What the loop returns, by what is left to read. -/
def decoded (bytes rest : Bytes) : Except PathError Bytes :=
  match pathCode.decode rest with
  | some more => .ok (bytes ++ more)
  | none => .error .badEscape

theorem decoded_of_map {bytes rest rest' : Bytes} {b : UInt8}
    (h : pathCode.decode rest = (pathCode.decode rest').map (b :: ·)) :
    decoded bytes rest = decoded (bytes ++ [b]) rest' := by
  rw [decoded, h, decoded]
  cases pathCode.decode rest' with
  | none => rfl
  | some more => simp

theorem decoded_keep {b : UInt8} (hb : b ≠ percent) (bytes rest : Bytes) :
    decoded bytes (b :: rest) = decoded (bytes ++ [b]) rest := decoded_of_map (Percent.Code.decode_keep hb rest)

theorem decoded_octet {hi lo h l : UInt8} (hh : hexVal hi = some h) (hl : hexVal lo = some l) (bytes rest : Bytes) :
    decoded bytes (percent :: hi :: lo :: rest) = decoded (bytes ++ [h <<< 4 ||| l]) rest := by
  refine decoded_of_map ((Percent.Code.decode_octet hi lo rest).trans ?_)
  have hoctet : pathCode.octet hi lo = some (h <<< 4 ||| l) := by
    show (hexVal hi).bind _ = _
    rw [hh, Option.bind_some]
    exact congrArg (Option.map _) hl
  rw [hoctet, Option.bind_some]

theorem decoded_bad {hi lo : UInt8} (h : hexVal hi = none ∨ hexVal lo = none) (bytes rest : Bytes) :
    decoded bytes (percent :: hi :: lo :: rest) = .error .badEscape := by
  have hnone : pathCode.decode (percent :: hi :: lo :: rest) = none := by
    refine Percent.Code.decode_bad [] fun hi' lo' tail he => ?_
    cases he
    exact h
  rw [decoded, hnone]

/-- The loop stays in range, and decodes what is left to read. -/
theorem unescapeFrom_append (pre rest bytes : Bytes) :
    unescapeFrom (pre ++ rest) pre.length bytes = some (decoded bytes rest) := by
  induction hn : rest.length using Nat.strongRecOn generalizing pre rest bytes with
  | ind n ih =>
    have hnext : ∀ (skip tail bytes : Bytes), rest = skip ++ tail → skip ≠ [] →
        unescapeFrom (pre ++ rest) (pre.length + skip.length) bytes = some (decoded bytes tail) := by
      intro skip tail bytes hrest hskip
      have hpos := List.length_pos_of_ne_nil hskip
      have hlen : tail.length < n := by
        rw [← hn, hrest, List.length_append]
        omega
      have hh := ih tail.length hlen (pre ++ skip) tail bytes rfl
      rwa [List.append_assoc, ← hrest, List.length_append] at hh
    cases rest with
    | nil =>
      rw [unescapeFrom, if_neg (by simp)]
      simp [decoded, Percent.Code.decode]
    | cons b tail =>
      rw [unescapeFrom, if_pos (by simp)]
      have hb : (pre ++ b :: tail)[pre.length]? = some b := by simp
      simp only [hb, Option.bind_eq_bind, Option.bind_some]
      by_cases hp : b = percent
      · subst hp
        rw [if_pos rfl]
        cases tail with
        | nil =>
          rw [if_pos (by simp)]
          rfl
        | cons hi tail =>
          cases tail with
          | nil =>
            rw [if_pos (by simp)]
            rfl
          | cons lo tail =>
            have hhi : (pre ++ percent :: hi :: lo :: tail)[pre.length + 1]? = some hi := by simp
            have hlo : (pre ++ percent :: hi :: lo :: tail)[pre.length + 2]? = some lo := by simp
            rw [if_neg (by simp), hhi, hlo, Option.bind_some]
            cases hvh : hexVal hi with
            | none => rw [decoded_bad (.inl hvh)]
            | some h =>
              simp only [Option.bind_some]
              cases hvl : hexVal lo with
              | none => rw [decoded_bad (.inr hvl)]
              | some l =>
                rw [decoded_octet hvh hvl]
                exact hnext [percent, hi, lo] tail _ rfl (by simp)
      · rw [if_neg hp, decoded_keep hp]
        exact hnext [b] tail _ rfl (by simp)

theorem unescape_eq (s : Text) : unescape s = some ((decoded [] (Utf8.encode s)).bind fromBytes) := by
  rw [unescape, show unescapeFrom (Utf8.encode s) 0 [] = _ from unescapeFrom_append [] (Utf8.encode s) []]
  rfl

theorem unescape_escape (p : RepoPath) : unescape p.escape = some (.ok p) := by
  rw [unescape_eq, encode_escape, decoded, Percent.Code.decode_encode]
  exact congrArg some (fromBytes_bytes p)

def HexDigit (c : Char) : Prop := '0' ≤ c ∧ c ≤ '9' ∨ 'a' ≤ c ∧ c ≤ 'f' ∨ 'A' ≤ c ∧ c ≤ 'F'

theorem hexVal_bounds {b : UInt8} (h : hexVal b ≠ none) : 48 ≤ b.toNat ∧ b.toNat ≤ 57 ∨
    97 ≤ b.toNat ∧ b.toNat ≤ 102 ∨ 65 ≤ b.toNat ∧ b.toNat ≤ 70 := by
  by_contra hout
  simp only [not_or] at hout
  obtain ⟨hdigit, hlower, hupper⟩ := hout
  refine h ?_
  simp only [hexVal, UInt8.le_iff_toNat_le, UInt8.reduceToNat]
  rw [if_neg hdigit, if_neg hlower, if_neg hupper]

theorem hexDigit_of_hexVal {c : Char} (hc : c.toNat < 128) (h : hexVal (UInt8.ofNat c.toNat) ≠ none) :
    HexDigit c := by
  have hbounds := hexVal_bounds h
  rw [UInt8.toNat_ofNat', Nat.mod_eq_of_lt (by omega)] at hbounds
  simp only [HexDigit, Char.le_def, UInt32.le_iff_toNat_le]
  show 48 ≤ c.toNat ∧ c.toNat ≤ 57 ∨ 97 ≤ c.toNat ∧ c.toNat ≤ 102 ∨ 65 ≤ c.toNat ∧ c.toNat ≤ 70
  exact hbounds

theorem hexDigit_of_encode {t : Text} {b : UInt8} {bs : Bytes} (he : Utf8.encode t = b :: bs)
    (h : hexVal b ≠ none) : ∃ c r, t = c :: r ∧ HexDigit c ∧ bs = Utf8.encode r := by
  have hlt : b < 128 := by
    have hbounds := hexVal_bounds h
    rw [UInt8.lt_iff_toNat_lt, show (128 : UInt8).toNat = 128 from rfl]
    omega
  obtain ⟨c, r, rfl, hc, rfl, rfl⟩ := Utf8.encode_eq_cons hlt he
  exact ⟨c, r, rfl, hexDigit_of_hexVal hc h, rfl⟩

/-- Two digits are needed behind every percent sign of the text. -/
theorem unescape_bad {pre rest : Text}
    (h : ∀ hi lo tail, rest = hi :: lo :: tail → ¬ (HexDigit hi ∧ HexDigit lo)) :
    unescape (pre ++ '%' :: rest) = some (.error .badEscape) := by
  have hbytes : Utf8.encode (pre ++ '%' :: rest) = Utf8.encode pre ++ Percent.sign :: Utf8.encode rest := by
    rw [Utf8.encode, List.flatMap_append, List.flatMap_cons]
    rfl
  have hdigits : ∀ hi lo tail, Utf8.encode rest = hi :: lo :: tail → hexVal hi = none ∨ hexVal lo = none := by
    intro hi lo tail he
    by_contra hboth
    rw [not_or] at hboth
    obtain ⟨c, r, rfl, hhi, hr⟩ := hexDigit_of_encode he hboth.1
    obtain ⟨d, r', rfl, hlo, -⟩ := hexDigit_of_encode hr.symm hboth.2
    exact h c d r' rfl ⟨hhi, hlo⟩
  have hnone := Percent.Code.decode_bad (c := pathCode) (Utf8.encode pre) hdigits
  rw [unescape_eq, hbytes, decoded, hnone]
  rfl

/-- The rules that a path obeys. -/
structure Canonical (bytes : Bytes) : Prop where
  nul : 0 ∉ bytes
  leading : bytes.head? ≠ some slash
  trailing : bytes.getLast? ≠ some slash
  components : bytes ≠ [] → ∀ c ∈ bytes.splitOn slash, c ≠ [] ∧ c ≠ [dot] ∧ c ≠ [dot, dot]

theorem last_ne_slash (p : RepoPath) : p.bytes.getLast? ≠ some slash := by
  rcases p.eq_root_or_concat with rfl | ⟨cs, c, h⟩
  · simp [root]
  · have hvalid := validComponent_of_mem (p := p) (c := c) (by simp [h])
    have hlast : p.bytes.getLast? = c.getLast? := by
      rw [bytes_eq, h]
      by_cases hcs : cs = []
      · rw [hcs, List.nil_append, intercalateSlash, List.intercalate_singleton]
      · rw [intercalateSlash_concat hcs, List.append_cons]
        exact List.getLast?_append_of_ne_nil _ hvalid.1
    rw [hlast]
    intro heq
    exact hvalid.2.2.1 (List.mem_of_getLast? heq)

theorem canonical_bytes (p : RepoPath) : Canonical p.bytes := by
  refine ⟨p.nul_notMem, p.head_ne_slash, p.last_ne_slash, fun hne c hc => ?_⟩
  obtain ⟨hc, -, -, hd, hdd⟩ := p.valid.resolve_left hne c hc
  exact ⟨hc, hd, hdd⟩

theorem fromBytes_ok_iff {bytes : Bytes} : (∃ p, fromBytes bytes = .ok p) ↔
    bytes = [] ∨ ∃ cs, cs ≠ [] ∧ (∀ c ∈ cs, ValidComponent c) ∧ bytes = intercalateSlash cs := by
  constructor
  · rintro ⟨p, hp⟩
    rw [← fromBytes_ok hp]
    by_cases hne : p.bytes = []
    · exact .inl hne
    · exact .inr ⟨p.components, bytes_ne_nil_iff.mp hne, fun c hc => validComponent_of_mem hc, p.bytes_eq⟩
  · rintro (rfl | ⟨cs, -, hv, rfl⟩)
    · exact ⟨root, rfl⟩
    · exact ⟨ofComponents cs hv, fromBytes_bytes (ofComponents cs hv)⟩

theorem join_parent_fileName {p : RepoPath} (hp : p ≠ root) :
    ∃ d c, p.parent = some d ∧ p.fileName = some c ∧ d.join c = .ok p := by
  obtain ⟨cs, c, h⟩ := p.eq_root_or_concat.resolve_left hp
  obtain ⟨d, hd, hcs⟩ := parent_of_components h
  refine ⟨d, c, hd, fileName_of_components h, join_ok_iff.mpr ⟨?_, by rw [h, hcs]⟩⟩
  exact validComponent_of_mem (p := p) (by simp [h])

theorem exists_join (p : RepoPath) {c : Bytes} (hc : ValidComponent c) :
    ∃ q, p.join c = .ok q ∧ q.components = p.components ++ [c] ∧ q.parent = some p ∧ q.fileName = some c := by
  have hcs := components_ofComponents _ (forall_components_concat (p := p) hc)
  obtain ⟨d, hd, hdc⟩ := parent_of_components hcs
  refine ⟨_, join_ok_iff.mpr ⟨hc, hcs⟩, hcs, ?_, fileName_of_components hcs⟩
  rw [hd, ext_components hdc]

/-- A path is the list of its components: whatever builds one builds it from valid ones, and the
operations on its bytes are those of the list. -/
theorem path_is_components :
    ((∀ bytes p, fromBytes bytes = .ok p → Canonical p.bytes) ∧ Canonical root.bytes ∧
      (∀ p c q, join p c = .ok q → Canonical q.bytes) ∧ (∀ p q, parent p = some q → Canonical q.bytes) ∧
      ∀ s p, unescape s = some (.ok p) → Canonical p.bytes) ∧
    (∀ bytes, (∃ p, fromBytes bytes = .ok p ∧ p.bytes = bytes) ↔
      bytes = [] ∨ ∃ cs, cs ≠ [] ∧ (∀ c ∈ cs, ValidComponent c) ∧ bytes = intercalateSlash cs) ∧
    (∀ p c, ValidComponent c → ∃ q, join p c = .ok q ∧ q.components = p.components ++ [c] ∧
      q.parent = some p ∧ q.fileName = some c) ∧
    (∀ p, p ≠ root → ∃ d c, parent p = some d ∧ fileName p = some c ∧ join d c = .ok p) ∧
    ∀ p q, isPrefixOf p q = true ↔ p.components <+: q.components := by
  refine ⟨⟨fun _ p _ => canonical_bytes p, canonical_bytes root, fun _ _ q _ => canonical_bytes q,
    fun _ q _ => canonical_bytes q, fun _ p _ => canonical_bytes p⟩, fun bytes => ?_,
    fun p c => exists_join p, fun p => join_parent_fileName, fun p q => isPrefixOf_iff⟩
  rw [← fromBytes_ok_iff]
  exact exists_congr fun p => and_iff_left_of_imp fromBytes_ok

/-- Escaping loses nothing, and what is read back is a path or refused. -/
theorem escape_reversible :
    (∀ p : RepoPath, (∀ c ∈ p.escape, 0x20 ≤ c.toNat ∧ c.toNat < 0x7f) ∧ unescape p.escape = some (.ok p)) ∧
      Function.Injective escape ∧
      (∀ s, (∃ e, unescape s = some (.error e)) ∨
        ∃ p, unescape s = some (.ok p) ∧ Canonical p.bytes ∧ unescape p.escape = some (.ok p)) ∧
      ∀ pre rest, (∀ hi lo tail, rest = hi :: lo :: tail → ¬ (HexDigit hi ∧ HexDigit lo)) →
        unescape (pre ++ '%' :: rest) = some (.error .badEscape) := by
  refine ⟨fun p => ⟨fun c hc => ?_, unescape_escape p⟩, fun p q h => ?_, fun s => ?_, fun pre rest => unescape_bad⟩
  · obtain ⟨b, -, hb⟩ := List.mem_flatMap.mp hc
    exact escapeByte_bounds c hb
  · have hp := unescape_escape p
    rw [h, unescape_escape q] at hp
    cases hp
    rfl
  · cases hr : (decoded [] (Utf8.encode s)).bind fromBytes with
    | error e => exact .inl ⟨e, by rw [unescape_eq, hr]⟩
    | ok p => exact .inr ⟨p, by rw [unescape_eq, hr], canonical_bytes p, unescape_escape p⟩

end RepoPath

end LazyMount
