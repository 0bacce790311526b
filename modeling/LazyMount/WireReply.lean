import LazyMount.Recording

/-! The reply to git on the wire: a token, a NUL, and paths that each end in a NUL. -/

namespace LazyMount

def Query.encode : Query → Bytes
  | .fullInvalidation token => token.encode ++ 0 :: [slash, 0]
  | .changes token paths => token.encode ++ 0 :: paths.flatMap (· ++ [0])

/-- What an answer names: the single path `/` stands for everything. -/
def Query.paths : Query → List Bytes
  | .fullInvalidation _ => [[slash]]
  | .changes _ paths => paths

/-- The reply up to its first NUL. -/
def replyToken (reply : Bytes) : Bytes := reply.takeWhile (· != 0)

/-- The pieces between the NULs behind the first one; nothing stands behind the last. -/
def replyPaths (reply : Bytes) : List Bytes := ((reply.dropWhile (· != 0)).tail.splitOn 0).dropLast

theorem nul_notMem_decimal (n : Nat) : 0 ∉ Decimal.encode n := by
  intro h
  have hd := Decimal.isDigit_of_mem_encode h
  simp [Decimal.isDigit] at hd

theorem Token.nul_notMem_encode {t : Token} (hw : 0 ∉ t.workspace) : 0 ∉ t.encode := by
  have hp : (0 : UInt8) ∉ tokenPrefix := by decide
  have hc : (0 : UInt8) ≠ colon := by decide
  simp [Token.encode, hp, hc, hw, nul_notMem_decimal]

theorem RepoPath.bytes_ne_slash (p : RepoPath) : p.bytes ≠ [slash] := by
  intro h
  rcases p.valid with hnil | hv
  · rw [h] at hnil
    cases hnil
  · have hempty : ([] : Bytes) ∈ p.bytes.splitOn slash := by rw [h]; decide
    exact (hv [] hempty).1 rfl

section Wire

variable {q : Query}

theorem Query.encode_eq (q : Query) : q.encode = q.token.encode ++ 0 :: RecordLog.encode 0 q.paths := by
  cases q <;> rfl

theorem replyToken_encode (hw : 0 ∉ q.token.workspace) : replyToken q.encode = q.token.encode := by
  have hkept : ∀ b ∈ q.token.encode, (b != 0) = true :=
    fun b hb => bne_iff_ne.2 fun he => Token.nul_notMem_encode hw (he ▸ hb)
  rw [replyToken, Query.encode_eq, List.takeWhile_append_of_pos hkept]
  simp

theorem replyPaths_encode (hw : 0 ∉ q.token.workspace) (hpaths : ∀ p ∈ q.paths, 0 ∉ p) :
    replyPaths q.encode = q.paths := by
  have hkept : ∀ b ∈ q.token.encode, (b != 0) = true :=
    fun b hb => bne_iff_ne.2 fun he => Token.nul_notMem_encode hw (he ▸ hb)
  have hrest : q.encode.dropWhile (· != 0) = 0 :: RecordLog.encode 0 q.paths := by
    rw [Query.encode_eq, List.dropWhile_append_of_pos hkept]
    simp
  rw [replyPaths, hrest, List.tail_cons, RecordLog.splitOn_encode 0 hpaths, List.dropLast_concat]

end Wire

/-- A client that splits the reply gets back the token and the paths of the answer, tells an
invalidation from a list of changes, and is told of no change when it asks again with the token. -/
theorem query_reply_decodes (j : ChangeJournal) (prev : Bytes) (hcolon : colon ∉ j.workspace)
    (hnul : 0 ∉ j.workspace)
    (hpaths : ∀ token paths, j.query prev = .changes token paths →
      ∀ p ∈ paths, ∃ path : RepoPath, path ≠ RepoPath.root ∧ path.bytes = p) :
    Token.parse (replyToken (j.query prev).encode) = some (j.query prev).token ∧
    (∀ token, j.query prev = .fullInvalidation token → replyPaths (j.query prev).encode = [[slash]]) ∧
    (∀ token paths, j.query prev = .changes token paths →
      replyPaths (j.query prev).encode = paths ∧ paths ≠ [[slash]]) ∧
    j.query (replyToken (j.query prev).encode) = .changes j.currentToken [] := by
  have htoken := ChangeJournal.query_token j prev
  have hw : 0 ∉ (j.query prev).token.workspace := by rw [htoken]; exact hnul
  have hwire := replyToken_encode hw
  refine ⟨?_, ?_, ?_, ?_⟩
  · rw [hwire]
    apply Token.parse_encode
    rw [htoken]
    exact hcolon
  · intro token hq
    rw [replyPaths_encode hw, hq]
    · rfl
    · intro p hp
      rw [hq] at hp
      rw [List.mem_singleton.1 hp]
      decide
  · intro token paths hq
    have hvalid := hpaths token paths hq
    constructor
    · rw [replyPaths_encode hw, hq]
      · rfl
      · intro p hp
        rw [hq] at hp
        obtain ⟨path, -, rfl⟩ := hvalid p hp
        exact path.nul_notMem
    · intro hslash
      obtain ⟨path, -, hbytes⟩ := hvalid [slash] (by rw [hslash]; exact List.mem_singleton_self _)
      exact path.bytes_ne_slash hbytes
  · rw [hwire, htoken, ChangeJournal.currentToken, ChangeJournal.query_seq hcolon, if_neg]
    · have hwindow : j.state.paths.drop (curSeq j.state - j.state.base) = [] := by
        rw [List.drop_eq_nil_iff, curSeq]
        omega
      rw [hwindow]
      rfl
    · rw [curSeq]
      omega

/-- A window with two records behind a pruned one. -/
def prunedJournal : ChangeJournal := ⟨ascii "0f", 1, 0, ⟨[ascii "b", ascii "a/b"], 1⟩⟩

theorem query_reply_decodes_pruned :
    let q := prunedJournal.query (prunedJournal.tokenAt 1).encode
    Token.parse (replyToken q.encode) = some q.token ∧
    (∀ token, q = .fullInvalidation token → replyPaths q.encode = [[slash]]) ∧
    (∀ token paths, q = .changes token paths → replyPaths q.encode = paths ∧ paths ≠ [[slash]]) ∧
    prunedJournal.query (replyToken q.encode) = .changes prunedJournal.currentToken [] := by
  apply query_reply_decodes
  · decide
  · decide
  · intro token paths hq p hp
    rw [ChangeJournal.query_seq (by decide), if_neg (by decide)] at hq
    cases hq
    have hmem : p ∈ [ascii "b", ascii "a/b"] := mem_sortDedup.1 hp
    simp only [List.mem_cons, List.not_mem_nil, or_false] at hmem
    rcases hmem with rfl | rfl
    · exact ⟨⟨ascii "b", by decide⟩, by decide, rfl⟩
    · exact ⟨⟨ascii "a/b", by decide⟩, by decide, rfl⟩

end LazyMount
