import LazyMount.Bytes
import LazyMount.Lib.RecordLog

/-! The durable change journal: FSMonitor tokens, the append log with its `base` sidecar,
the sliding-window prune and the query that the hook answers from a fresh replay. -/

namespace LazyMount

/-- `"glm1"` -/
def tokenPrefix : Bytes := [103, 108, 109, 49]

def colon : UInt8 := 58

/-- The counters are `u64`s that count what was recorded; here they are not bounded. -/
structure Token where
  workspace : Bytes
  epoch : Nat
  seq : Nat
  generation : Nat
deriving DecidableEq, Repr

/-- `glm1:ws:epoch:seq:gen` -/
def Token.encode (t : Token) : Bytes :=
  tokenPrefix ++ colon :: t.workspace ++ colon :: Decimal.encode t.epoch ++
    colon :: Decimal.encode t.seq ++ colon :: Decimal.encode t.generation

def Token.parse (s : Bytes) : Option Token :=
  match s.splitOn colon with
  | [tag, workspace, epoch, seq, generation] =>
    if tag = tokenPrefix then do
      let epoch ← parseDigits epoch
      let seq ← parseDigits seq
      let generation ← parseDigits generation
      some ⟨workspace, epoch, seq, generation⟩
    else none
  | _ => none

inductive Query where
  | fullInvalidation (token : Token)
  | changes (token : Token) (paths : List Bytes)
deriving DecidableEq, Repr

def Query.token : Query → Token
  | .fullInvalidation token => token
  | .changes token _ => token

/-- What git re-examines after this answer includes `p`. -/
def Query.Reports (q : Query) (p : Bytes) : Prop :=
  match q with
  | .fullInvalidation _ => True
  | .changes _ paths => p ∈ paths

instance (q : Query) (p : Bytes) : Decidable (q.Reports p) := by
  cases q <;> simp only [Query.Reports] <;> infer_instance

/-- The live window and the number of records pruned before it. -/
structure State where
  paths : List Bytes
  base : Nat
deriving DecidableEq, Repr

def curSeq (st : State) : Nat := st.base + st.paths.length

structure ChangeJournal where
  workspace : Bytes
  epoch : Nat
  generation : Nat
  state : State
deriving DecidableEq, Repr

/-- `KEEP_MIN`, `KEEP_MAX` and `LOG_BYTE_CAP`. -/
structure Limits where
  keepMin : Nat
  keepMax : Nat
  logByteCap : Nat
  lt : keepMin < keepMax

def smallLimits : Limits := ⟨1, 2, 1000, by decide⟩

/-- The files of the journal directory: `changes.log`, `changes.log.tmp` and `base`. -/
structure JournalDir where
  log : Option Bytes
  logTmp : Option Bytes
  base : Option Bytes
deriving DecidableEq, Repr

namespace JournalDir

def empty : JournalDir := ⟨none, none, none⟩

def readLog (d : JournalDir) : List Bytes := RecordLog.decode 0 (d.log.getD [])

/-- The `base` sidecar, 0 if absent or malformed. -/
def readBase (d : JournalDir) : Nat := (d.base.bind (fun s => parseDigits (trim s))).getD 0

/-- `OpenOptions::new().create(true).append(true)` -/
def createLog (d : JournalDir) : JournalDir := { d with log := some (d.log.getD []) }

def writeAll (d : JournalDir) (bytes : Bytes) : JournalDir :=
  { d with log := some (d.log.getD [] ++ bytes) }

def append (d : JournalDir) (path : Bytes) : JournalDir := (d.writeAll path).writeAll [0]

def logBytes (d : JournalDir) : Nat := (d.log.getD []).length

def stageLog (d : JournalDir) (retained : List Bytes) : JournalDir :=
  { d with logTmp := some (RecordLog.encode 0 retained) }

/-- `write_u64_atomic` on the `base` sidecar. -/
def writeU64Atomic (d : JournalDir) (value : Nat) : JournalDir :=
  { d with base := some (Decimal.encode value) }

def swapLog (d : JournalDir) : JournalDir := { d with log := d.logTmp, logTmp := none }

end JournalDir

namespace State

def push (st : State) (path : Bytes) : State := { st with paths := st.paths ++ [path] }

/-- A prune at or below `KEEP_MIN` returns at once. -/
def needsPrune (L : Limits) (st : State) (d : JournalDir) : Bool :=
  (L.keepMax < st.paths.length || L.logByteCap < d.logBytes) && L.keepMin < st.paths.length

def dropN (L : Limits) (st : State) : Nat := st.paths.length - L.keepMin

def pruned (L : Limits) (st : State) : State :=
  { paths := st.paths.drop (st.dropN L), base := st.base + st.dropN L }

end State

/-- The three persists of a prune in their order: stage the suffix, publish the larger base,
swap the log. -/
def prune (L : Limits) (st : State) (d : JournalDir) : State × JournalDir :=
  (st.pruned L, ((d.stageLog (st.pruned L).paths).writeU64Atomic (st.pruned L).base).swapLog)

/-- `ChangeJournal::record` when no file operation fails. -/
def record (L : Limits) (st : State) (d : JournalDir) (path : Bytes) : State × JournalDir :=
  let d := d.append path
  let st := st.push path
  if st.needsPrune L d then prune L st d else (st, d)

namespace ChangeJournal

/-- The replay of `ChangeJournal::open`: the log is read first, `base` later, and the
directory may have changed in between. -/
def replay (workspace : Bytes) (epoch generation : Nat) (atLog atBase : JournalDir) :
    ChangeJournal :=
  ⟨workspace, epoch, generation, ⟨atLog.readLog, atBase.readBase⟩⟩

def tokenAt (j : ChangeJournal) (seq : Nat) : Token := ⟨j.workspace, j.epoch, seq, j.generation⟩

def currentToken (j : ChangeJournal) : Token := j.tokenAt (curSeq j.state)

def query (j : ChangeJournal) (prev : Bytes) : Query :=
  let cur := curSeq j.state
  let token := j.tokenAt cur
  if prev = [] then
    if cur = 0 then .changes token [] else .fullInvalidation token
  else
    match Token.parse prev with
    | none => .fullInvalidation token
    | some p =>
      if p.workspace ≠ j.workspace ∨ p.epoch ≠ j.epoch ∨ p.generation ≠ j.generation then
        .fullInvalidation token
      else if curSeq j.state < p.seq ∨ p.seq < j.state.base then .fullInvalidation token
      else .changes token (sortDedup (j.state.paths.drop (p.seq - j.state.base)))

end ChangeJournal

/-- `format!("{:x}")` of one nibble. -/
def hexDigit (n : Nat) : UInt8 := if n < 10 then UInt8.ofNat (48 + n) else UInt8.ofNat (87 + n)

def workspaceId (hash : UInt64) : Bytes :=
  (List.range 16).map (fun i => hexDigit ((hash.toNat >>> (4 * (15 - i))) % 16))

/-- The hook process: no log means a full invalidation with the sentinel token
`glm1::0:0:0`, else the query of a fresh replay. -/
def hookQuery (hash : UInt64) (atLog atBase : JournalDir) (prev : Bytes) : Query :=
  if atLog.log.isNone then .fullInvalidation ⟨[], 0, 0, 0⟩
  else (ChangeJournal.replay (workspaceId hash) 1 0 atLog atBase).query prev

/-! Tokens travel as text: what was minted is what is parsed back. -/

theorem colon_notMem_decimal (n : Nat) : colon ∉ Decimal.encode n := by
  intro h
  have hd := Decimal.isDigit_of_mem_encode h
  simp [Decimal.isDigit, colon] at hd

theorem Token.encode_ne_nil (t : Token) : t.encode ≠ [] := by simp [Token.encode, tokenPrefix]

theorem Token.parse_encode {t : Token} (hw : colon ∉ t.workspace) : Token.parse t.encode = some t := by
  have hp : colon ∉ tokenPrefix := by decide
  have he := colon_notMem_decimal t.epoch
  have hs := colon_notMem_decimal t.seq
  have hg := colon_notMem_decimal t.generation
  have hsplit : t.encode.splitOn colon = [tokenPrefix, t.workspace, Decimal.encode t.epoch,
      Decimal.encode t.seq, Decimal.encode t.generation] := by
    simp only [Token.encode, List.append_assoc, List.cons_append]
    rw [List.splitOn_append_cons_self_of_not_mem hp, List.splitOn_append_cons_self_of_not_mem hw,
      List.splitOn_append_cons_self_of_not_mem he, List.splitOn_append_cons_self_of_not_mem hs,
      List.splitOn_eq_singleton hg]
  simp [Token.parse, hsplit]

theorem Token.colon_notMem_of_parse {s : Bytes} {t : Token} (h : Token.parse s = some t) :
    colon ∉ t.workspace := by
  rw [Token.parse] at h
  split at h
  · rename_i tag workspace epoch seq generation hsplit
    split at h
    · simp only [Option.bind_eq_bind, Option.bind_eq_some_iff] at h
      obtain ⟨e, -, q, -, g, -, ⟨⟩⟩ := h
      have hmem : workspace ∈ s.splitOn colon := by simp [hsplit]
      exact RecordLog.sep_notMem_of_mem_splitOn colon hmem
    · cases h
  · cases h

theorem hexDigit_ne_colon {n : Nat} (h : n < 16) : hexDigit n ≠ colon := by
  have hall : ∀ m : Fin 16, hexDigit m ≠ colon := by decide
  exact hall ⟨n, h⟩

theorem colon_notMem_workspaceId (hash : UInt64) : colon ∉ workspaceId hash := by
  simp only [workspaceId, List.mem_map, not_exists, not_and]
  exact fun i _ => hexDigit_ne_colon (Nat.mod_lt _ (by omega))

namespace ChangeJournal

@[simp] theorem query_token (j : ChangeJournal) (prev : Bytes) :
    (j.query prev).token = j.currentToken := by
  simp only [query, currentToken]
  repeat' split
  all_goals rfl

theorem query_seq {j : ChangeJournal} (hw : colon ∉ j.workspace) (seq : Nat) :
    j.query (j.tokenAt seq).encode =
      if curSeq j.state < seq ∨ seq < j.state.base then .fullInvalidation j.currentToken
      else .changes j.currentToken (sortDedup (j.state.paths.drop (seq - j.state.base))) := by
  have hp : Token.parse (j.tokenAt seq).encode = some (j.tokenAt seq) := Token.parse_encode hw
  simp only [query, if_neg (Token.encode_ne_nil _), hp]
  rw [if_neg (by simp [tokenAt])]
  rfl

theorem query_seq_reports {j : ChangeJournal} (hw : colon ∉ j.workspace) {seq : Nat} {p : Bytes}
    (h : j.state.base ≤ seq → p ∈ j.state.paths.drop (seq - j.state.base)) :
    (j.query (j.tokenAt seq).encode).Reports p := by
  rw [query_seq hw]
  split
  · trivial
  · simp only [Query.Reports, mem_sortDedup]
    exact h (by omega)

/-- A numeral that is no `u64` is answered as a token that does not parse, so that the counters
are not bounded is not seen. -/
theorem query_oversized {j : ChangeJournal} {prev : Bytes} {t : Token}
    (hj : j.epoch < 2 ^ 64 ∧ curSeq j.state < 2 ^ 64 ∧ j.generation < 2 ^ 64)
    (hparse : Token.parse prev = some t)
    (ht : 2 ^ 64 ≤ t.epoch ∨ 2 ^ 64 ≤ t.seq ∨ 2 ^ 64 ≤ t.generation) :
    j.query prev = .fullInvalidation j.currentToken := by
  have hne : prev ≠ [] := by
    rintro rfl
    cases hparse
  simp only [query, if_neg hne, hparse]
  split
  · rfl
  · rename_i hsame
    simp only [not_or, not_not] at hsame
    rw [if_pos (by omega)]
    rfl

/-- A workspace with a colon in its name mints tokens that no query can place. -/
theorem query_tokenAt_reports (j : ChangeJournal) {seq : Nat} {p : Bytes}
    (h : j.state.base ≤ seq → p ∈ j.state.paths.drop (seq - j.state.base)) :
    (j.query (j.tokenAt seq).encode).Reports p := by
  by_cases hw : colon ∈ j.workspace
  · have hne : ∀ t, Token.parse (j.tokenAt seq).encode = some t → t.workspace ≠ j.workspace :=
      fun t ht heq => Token.colon_notMem_of_parse ht (heq ▸ hw)
    simp only [query, if_neg (Token.encode_ne_nil _)]
    split
    · trivial
    · rename_i t ht
      rw [if_pos (.inl (hne t ht))]
      trivial
  · exact query_seq_reports hw h

end ChangeJournal

/-! What the file operations leave on disk. -/

namespace JournalDir

variable (d : JournalDir)

@[simp] theorem readBase_writeAll (bs : Bytes) : (d.writeAll bs).readBase = d.readBase := rfl

@[simp] theorem readBase_append (p : Bytes) : (d.append p).readBase = d.readBase := rfl

@[simp] theorem readBase_stageLog (rs : List Bytes) : (d.stageLog rs).readBase = d.readBase := rfl

@[simp] theorem readBase_swapLog : d.swapLog.readBase = d.readBase := rfl

@[simp] theorem readBase_writeU64Atomic (n : Nat) : (d.writeU64Atomic n).readBase = n := by
  simp [readBase, writeU64Atomic]

theorem log_append (p : Bytes) : (d.append p).log = some (d.log.getD [] ++ (p ++ [0])) := by
  simp [append, writeAll]

end JournalDir

end LazyMount
