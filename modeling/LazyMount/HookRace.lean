import LazyMount.Journal
import LazyMount.Lib.Machine
import LazyMount.Lib.SlidingWindow

/-! The serve process and the FSMonitor hook share the journal directory without a lock: a
prune is three file steps, a hook query two file reads. -/

namespace LazyMount

inductive PruneStep where
  | stage
  | publish
  | swap
deriving DecidableEq, Repr

structure Serve where
  st : State
  dir : JournalDir
  pruning : Option PruneStep
deriving DecidableEq, Repr

/-- A `record` call up to its append, or one file step of the prune it runs into. The
recorded path is free of NUL, as every `RepoPath` is. -/
inductive ServeEvent where
  | record (path : {p : Bytes // 0 ∉ p})
  | stage
  | publish
  | swap
deriving DecidableEq

namespace ServeEvent

def path : ServeEvent → List Bytes
  | .record p => [p]
  | _ => []

end ServeEvent

def recordedPaths (es : List ServeEvent) : List Bytes := es.flatMap ServeEvent.path

namespace Serve

/-- `ChangeJournal::open` on a fresh journal directory. -/
def start : Serve := ⟨⟨[], 0⟩, JournalDir.empty.createLog, none⟩

def step (L : Limits) (s : Serve) (e : ServeEvent) : Option Serve :=
  match s.pruning, e with
  | none, .record p =>
    let dir := s.dir.append p
    let st := s.st.push p
    some ⟨st, dir, if st.needsPrune L dir then some .stage else none⟩
  | some .stage, .stage =>
    some { s with dir := s.dir.stageLog (s.st.pruned L).paths, pruning := some .publish }
  | some .publish, .publish =>
    some { s with dir := s.dir.writeU64Atomic (s.st.pruned L).base, pruning := some .swap }
  | some .swap, .swap => some ⟨s.st.pruned L, s.dir.swapLog, none⟩
  | _, _ => none

def run (L : Limits) : Serve → List ServeEvent → Option Serve := Machine.run (step L)

/-- The live paths and the files against the list `h` of all paths recorded so far. -/
structure Tracks (L : Limits) (s : Serve) (h : List Bytes) : Prop where
  base_le : s.st.base ≤ h.length
  paths : s.st.paths = h.drop s.st.base
  log : s.dir.log = some (RecordLog.encode 0 s.st.paths)
  logTmp : s.pruning = some .publish ∨ s.pruning = some .swap →
    s.dir.logTmp = some (RecordLog.encode 0 (s.st.pruned L).paths)
  base : s.dir.readBase = if s.pruning = some .swap then (s.st.pruned L).base else s.st.base
  nulFree : ∀ r ∈ h, 0 ∉ r

abbrev keep (r : Bytes) : Bool := r ≠ []

variable {L : Limits}

theorem pruned_base_le {st : State} {h : List Bytes} (hb : st.base ≤ h.length)
    (hp : st.paths = h.drop st.base) : (st.pruned L).base ≤ h.length := by
  simp only [State.pruned, State.dropN, hp, List.length_drop]
  omega

theorem pruned_paths {st : State} {h : List Bytes} (hp : st.paths = h.drop st.base) :
    (st.pruned L).paths = h.drop (st.pruned L).base := by
  simp only [State.pruned, hp, List.drop_drop]

theorem base_le_pruned (st : State) : st.base ≤ (st.pruned L).base := by simp [State.pruned]

theorem tracks_start : Tracks L start [] :=
  ⟨le_rfl, rfl, rfl, by simp [start], rfl, by simp⟩

theorem tracks_step {s t : Serve} {h : List Bytes} {e : ServeEvent} (hs : Tracks L s h)
    (he : step L s e = some t) : Tracks L t (h ++ e.path) := by
  obtain ⟨st, dir, pruning⟩ := s
  obtain ⟨hb, hp, hlog, htmp, hbase, hnul⟩ := hs
  dsimp only at hb hp hlog htmp hbase
  cases pruning with
  | none =>
    cases e with
    | record p =>
      simp only [step, Option.some.injEq] at he
      subst t
      refine ⟨?_, ?_, ?_, ?_, ?_, ?_⟩
      · simp only [State.push, ServeEvent.path, List.length_append]
        omega
      · simp only [State.push, ServeEvent.path, hp, List.drop_append_of_le_length hb]
      · simp [JournalDir.log_append, hlog, State.push, RecordLog.encode_append]
      · dsimp only
        split <;> simp
      · dsimp only
        split <;> simpa [State.push] using hbase
      · intro r hr
        rcases List.mem_append.mp hr with hr | hr
        · exact hnul r hr
        · rw [List.mem_singleton.mp hr]
          exact p.2
    | stage | publish | swap => simp [step] at he
  | some next =>
    cases next <;> cases e <;> simp only [step, Option.some.injEq, reduceCtorEq] at he <;>
      subst t <;> simp only [ServeEvent.path, List.append_nil]
    case stage.stage => exact ⟨hb, hp, hlog, fun _ => rfl, by simpa using hbase, hnul⟩
    case publish.publish =>
      exact ⟨hb, hp, hlog, fun _ => htmp (.inl rfl), by simp, hnul⟩
    case swap.swap =>
      exact ⟨pruned_base_le hb hp, pruned_paths hp, htmp (.inr rfl), by simp,
        by simpa using hbase, hnul⟩

theorem tracks_run {s t : Serve} {h : List Bytes} {es : List ServeEvent} (hs : Tracks L s h)
    (hr : s.run L es = some t) : Tracks L t (h ++ recordedPaths es) :=
  Machine.run_history (Tracks L) ServeEvent.path (fun _ => True)
    (fun _ _ _ _ _ hs he => tracks_step hs he) (fun _ _ => trivial) hs hr

theorem base_step {s t : Serve} {e : ServeEvent} (he : step L s e = some t) :
    s.st.base ≤ t.st.base := by
  obtain ⟨st, dir, pruning⟩ := s
  cases pruning with
  | none => cases e <;> simp only [step, Option.some.injEq, reduceCtorEq] at he; subst t; exact le_rfl
  | some next =>
    cases next <;> cases e <;> simp only [step, Option.some.injEq, reduceCtorEq] at he <;>
      subst t <;> first | exact le_rfl | exact base_le_pruned st

theorem base_run {s t : Serve} {es : List ServeEvent} (hr : s.run L es = some t) :
    s.st.base ≤ t.st.base :=
  Machine.run_invariant (fun u => s.st.base ≤ u.st.base) (fun _ => True)
    (fun _ _ _ _ hs he => hs.trans (base_step he)) (fun _ _ => trivial) le_rfl hr

theorem Tracks.base_le_readBase {s : Serve} {h : List Bytes} (hs : Tracks L s h) :
    s.st.base ≤ s.dir.readBase := by
  rw [hs.base]
  split
  · exact base_le_pruned s.st
  · exact le_rfl

theorem run_record (st : State) (dir : JournalDir) (p : {p : Bytes // 0 ∉ p}) :
    ∃ es, recordedPaths es = [p.1] ∧ run L ⟨st, dir, none⟩ es =
      some ⟨(LazyMount.record L st dir p).1, (LazyMount.record L st dir p).2, none⟩ := by
  rw [LazyMount.record]
  by_cases hn : (st.push p).needsPrune L (dir.append p) = true
  · refine ⟨[.record p, .stage, .publish, .swap], rfl, ?_⟩
    simp only [run, Machine.run, step, Option.bind_some, hn, if_true]
    rfl
  · refine ⟨[.record p], rfl, ?_⟩
    simp only [run, Machine.run, step, Option.bind_some, hn]
    rfl

theorem Tracks.readLog {s : Serve} {h : List Bytes} (hs : Tracks L s h) :
    s.dir.readLog = SlidingWindow.window keep s.st.base h := by
  have hnul : ∀ r ∈ h.drop s.st.base, 0 ∉ r := fun r hr => hs.nulFree r (List.mem_of_mem_drop hr)
  simp only [JournalDir.readLog, hs.log, hs.paths, Option.getD_some, SlidingWindow.window]
  exact RecordLog.decode_encode 0 hnul

theorem readBase_run {s t : Serve} {es : List ServeEvent} (hes : ServeEvent.publish ∉ es)
    (hr : s.run L es = some t) : t.dir.readBase = s.dir.readBase := by
  refine Machine.run_invariant (fun u => u.dir.readBase = s.dir.readBase)
    (fun e => e ≠ .publish) ?_ (fun e he hp => hes (by rwa [hp] at he)) rfl hr
  intro u e v hne hu he
  rw [← hu]
  obtain ⟨st, dir, pruning⟩ := u
  cases pruning with
  | none => cases e <;> simp only [step, Option.some.injEq, reduceCtorEq] at he; subst v; rfl
  | some next =>
    cases next <;> cases e <;> simp only [step, Option.some.injEq, reduceCtorEq] at he <;>
      first | (subst v; rfl) | exact (hne rfl).elim

end Serve

theorem hookQuery_token {L : Limits} {a b : Serve} {h : List Bytes} (ha : a.Tracks L h)
    (hbase : b.dir.readBase = a.st.base) (hash : UInt64) (prev : Bytes) :
    (hookQuery hash a.dir b.dir prev).token =
      ⟨workspaceId hash, 1, SlidingWindow.label Serve.keep a.st.base h, 0⟩ := by
  simp [hookQuery, ha.log, ChangeJournal.currentToken, ChangeJournal.tokenAt, ChangeJournal.replay,
    curSeq, ha.readLog, hbase, SlidingWindow.label]

/-- A token that labels the history at `a` is sound from there on: what is appended later is
reported. -/
theorem hookQuery_reports {L : Limits} {hash : UInt64} {prev : Bytes} {a b c d : Serve}
    {h : List Bytes} {es es' : List ServeEvent} (ha : a.Tracks L h)
    (hbase : b.dir.readBase = a.st.base) (hc : a.run L es = some c) (hd : c.run L es' = some d)
    {p : Bytes} (hp : p ∈ recordedPaths es) (hne : p ≠ []) :
    (hookQuery hash c.dir d.dir (hookQuery hash a.dir b.dir prev).token.encode).Reports p := by
  have htc := Serve.tracks_run ha hc
  have htd := Serve.tracks_run htc hd
  rw [hookQuery_token ha hbase, hookQuery, if_neg (by simp [htc.log])]
  refine ChangeJournal.query_seq_reports (colon_notMem_workspaceId hash) fun hlive => ?_
  simp only [ChangeJournal.replay, htc.readLog] at hlive ⊢
  exact SlidingWindow.mem_drop_of_later Serve.keep ha.base_le (Serve.base_run hc)
    ((Serve.base_run hd).trans htd.base_le_readBase) hlive hp (by simpa using hne)

/-- A hook query `Q1` reads the log at `a` and `base` at `b`; a later one, given the token of
`Q1`, reads the log at `c` and `base` at `d`. If no prune had published its base without
swapping its log at `a`, and none publishes a base between `a` and `b`, then `Q2` reports
every path appended between the two log reads. -/
theorem hook_tokens_sound {L : Limits} {hash : UInt64} {prev : Bytes} {a b c d : Serve}
    {before e1 e2 e3 : List ServeEvent} (ha : Serve.start.run L before = some a)
    (hb : a.run L e1 = some b) (hc : b.run L e2 = some c) (hd : c.run L e3 = some d)
    (hswap : a.pruning ≠ some .swap) (hpublish : ServeEvent.publish ∉ e1) :
    ∀ p ∈ recordedPaths (e1 ++ e2), p ≠ [] →
      (hookQuery hash c.dir d.dir (hookQuery hash a.dir b.dir prev).token.encode).Reports p := by
  intro p hp hne
  have hta := Serve.tracks_run (h := []) Serve.tracks_start ha
  have hac : a.run L (e1 ++ e2) = some c := Machine.run_append.mpr ⟨b, hb, hc⟩
  have hbase : b.dir.readBase = a.st.base := by
    rw [Serve.readBase_run hpublish hb, hta.base, if_neg hswap]
  exact hookQuery_reports hta hbase hac hd hp hne

def recordByte (c : UInt8) (h : 0 ∉ [c] := by decide) : ServeEvent := .record ⟨[c], h⟩

theorem hook_tokens_sound_three_records :
    ∃ a b c, Serve.start.run smallLimits [recordByte 97] = some a ∧
      a.run smallLimits [recordByte 98] = some b ∧ b.run smallLimits [recordByte 99] = some c ∧
      (hookQuery 0 c.dir c.dir (hookQuery 0 a.dir b.dir []).token.encode).Reports [98] :=
  ⟨_, _, _, rfl, rfl, rfl, hook_tokens_sound
    (show Serve.start.run smallLimits [recordByte 97] = some _ from rfl)
    (show Serve.run smallLimits _ [recordByte 98] = some _ from rfl)
    (show Serve.run smallLimits _ [recordByte 99] = some _ from rfl)
    (show Serve.run smallLimits _ [] = some _ from rfl) (by decide) (by decide) [98]
    (by decide) (by decide)⟩

/-- `Q1` reads the log before a prune and `base` after it was published: its token counts two
records too many. Two records later the journal has caught up, and `Q2` answers that nothing
changed. -/
theorem torn_token_misses_records :
    ∃ a b c, Serve.start.run smallLimits [recordByte 97, recordByte 98, recordByte 99] = some a ∧
      a.run smallLimits [.stage, .publish] = some b ∧
      b.run smallLimits [.swap, recordByte 100, recordByte 101] = some c ∧
      [100] ∈ recordedPaths ([.stage, .publish] ++ [.swap, recordByte 100, recordByte 101]) ∧
      ¬ (hookQuery 0 c.dir c.dir (hookQuery 0 a.dir b.dir []).token.encode).Reports [100] :=
  ⟨_, _, _, rfl, rfl, rfl, by decide, by decide⟩

end LazyMount
