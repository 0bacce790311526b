import LazyMount.HookRace

/-! The journal as a process that dies between two file operations: `record` and `prune` cut
into the operations they perform, crashes among them, and the journals opened on what is left. -/

namespace LazyMount

/-- The journal directory with the temporary file of `write_u64_atomic`. -/
structure JournalDisk extends JournalDir where
  baseTmp : Option Bytes
deriving DecidableEq, Repr

/-- A file operation of `prune`. The fsyncs between them change no file. -/
inductive PruneOp where
  | createLogTmp
  | writeLogTmp (bytes : Bytes)
  | createBaseTmp
  | writeBaseTmp (bytes : Bytes)
  | renameBase
  | renameLog
  | reopenLog
deriving DecidableEq, Repr

namespace PruneOp

def apply (d : JournalDisk) : PruneOp → JournalDisk
  | .createLogTmp => { d with logTmp := some [] }
  | .writeLogTmp bytes => { d with logTmp := some (d.logTmp.getD [] ++ bytes) }
  | .createBaseTmp => { d with baseTmp := some [] }
  | .writeBaseTmp bytes => { d with baseTmp := some (d.baseTmp.getD [] ++ bytes) }
  | .renameBase => { d with base := d.baseTmp, baseTmp := none }
  | .renameLog => { d with toJournalDir := d.toJournalDir.swapLog }
  | .reopenLog => { d with toJournalDir := d.toJournalDir.createLog }

def applyAll (d : JournalDisk) (ops : List PruneOp) : JournalDisk := ops.foldl apply d

end PruneOp

/-- Step 1 of a prune: the retained suffix goes to `changes.log.tmp`, each record and each NUL
in a write of its own. -/
def stageOps (retained : List Bytes) : List PruneOp :=
  .createLogTmp :: retained.flatMap (fun r => [.writeLogTmp r, .writeLogTmp [0]])

/-- Step 2: `write_u64_atomic`. -/
def publishOps (newBase : Nat) : List PruneOp :=
  [.createBaseTmp, .writeBaseTmp (Decimal.encode newBase), .renameBase]

def pruneOps (L : Limits) (st : State) : List PruneOp :=
  stageOps (st.pruned L).paths ++ (publishOps (st.pruned L).base ++ [.renameLog, .reopenLog])

/-- `proc` is the live window and what the running `record` call has still to do; `none` after
a crash. -/
structure Daemon where
  disk : JournalDisk
  proc : Option (State × List PruneOp)
deriving DecidableEq, Repr

/-- The recorded path is free of NUL, as every `RepoPath` is, and not the root. Its append is
one operation. -/
inductive DaemonEvent where
  | opened
  | record (path : {p : Bytes // 0 ∉ p ∧ p ≠ []})
  | fileOp
  | crash
deriving DecidableEq

def DaemonEvent.path : DaemonEvent → List Bytes
  | .record p => [p]
  | _ => []

def appendedPaths (es : List DaemonEvent) : List Bytes := es.flatMap DaemonEvent.path

namespace Daemon

/-- Before the journal directory has any file. -/
def start : Daemon := ⟨⟨JournalDir.empty, none⟩, none⟩

def step (L : Limits) (s : Daemon) (e : DaemonEvent) : Option Daemon :=
  match s.proc, e with
  | none, .opened => some ⟨⟨s.disk.createLog, s.disk.baseTmp⟩, some (⟨s.disk.readLog, s.disk.readBase⟩, [])⟩
  | some (st, []), .record p =>
    let dir := s.disk.append p
    let st := st.push p
    some ⟨⟨dir, s.disk.baseTmp⟩, some (st, if st.needsPrune L dir then pruneOps L st else [])⟩
  | some (st, [op]), .fileOp => some ⟨op.apply s.disk, some (st.pruned L, [])⟩
  | some (st, op :: ops), .fileOp => some ⟨op.apply s.disk, some (st, ops)⟩
  | some _, .crash => some ⟨s.disk, none⟩
  | _, _ => none

def run (L : Limits) : Daemon → List DaemonEvent → Option Daemon := Machine.run (step L)

/-- No prune is part-way: its process is dead, or has not begun it or has finished it. -/
def Quiet (L : Limits) (s : Daemon) : Prop :=
  ∀ st ops, s.proc = some (st, ops) → ops = [] ∨ ops = pruneOps L st

/-- The log has lost the first `n` of the appended paths `h`; the base counts `extra` more. -/
structure Settled (d : JournalDisk) (h : List Bytes) (n extra : Nat) : Prop where
  le : n ≤ h.length
  log : d.log.getD [] = RecordLog.encode 0 (h.drop n)
  base : d.readBase = n + extra

/-- What is left of a prune's operations, and the disk it began on. -/
structure Pruning (L : Limits) (d : JournalDisk) (st : State) (ops : List PruneOp) (h : List Bytes)
    (n extra : Nat) : Prop where
  rest : ops ≠ []
  begun : ∃ d₀ done, Settled d₀ h n extra ∧ pruneOps L st = done ++ ops ∧
    d = PruneOp.applyAll d₀ done

structure Tracks (L : Limits) (s : Daemon) (h : List Bytes) (n extra : Nat) : Prop where
  nulFree : ∀ r ∈ h, 0 ∉ r ∧ r ≠ []
  live : ∀ st ops, s.proc = some (st, ops) → st = ⟨h.drop n, n + extra⟩ ∧
    (ops = [] ∧ Settled s.disk h n extra ∨ Pruning L s.disk st ops h n extra)
  dead : s.proc = none → Settled s.disk h n extra

end Daemon

namespace PruneOp

variable {d : JournalDisk}

theorem applyAll_append (ops ops' : List PruneOp) :
    applyAll d (ops ++ ops') = applyAll (applyAll d ops) ops' := List.foldl_append ..

@[simp] theorem applyAll_nil : applyAll d [] = d := rfl

@[simp] theorem applyAll_cons (op : PruneOp) (ops : List PruneOp) :
    applyAll d (op :: ops) = applyAll (op.apply d) ops := rfl

theorem applyAll_writes (rs : List Bytes) :
    applyAll d (rs.flatMap (fun r => [.writeLogTmp r, .writeLogTmp [0]])) =
      { d with logTmp :=
          (if rs = [] then d.logTmp else some (d.logTmp.getD [] ++ RecordLog.encode 0 rs)) } := by
  induction rs generalizing d with
  | nil => simp
  | cons r rs ih =>
    simp only [List.flatMap_cons, applyAll_append, applyAll_cons, applyAll_nil, ih, apply]
    by_cases hrs : rs = []
    · simp [hrs]
    · simp [hrs]

theorem applyAll_stageOps (rs : List Bytes) :
    applyAll d (stageOps rs) = ⟨d.toJournalDir.stageLog rs, d.baseTmp⟩ := by
  rw [stageOps, applyAll_cons, applyAll_writes]
  by_cases hrs : rs = []
  · simp [hrs, apply, JournalDir.stageLog]
  · simp [hrs, apply, JournalDir.stageLog]

theorem applyAll_publishOps (n : Nat) :
    applyAll d (publishOps n) = ⟨d.toJournalDir.writeU64Atomic n, none⟩ := rfl

/-- The operations of a prune, all of them performed, are the prune. -/
theorem applyAll_pruneOps (L : Limits) (st : State) :
    applyAll d (pruneOps L st) = ⟨(prune L st d.toJournalDir).2, none⟩ := by
  rw [pruneOps, applyAll_append, applyAll_append, applyAll_stageOps, applyAll_publishOps]
  rfl

theorem applyAll_of_prefix_stageOps {rs : List Bytes} {done ops : List PruneOp}
    (h : stageOps rs = done ++ ops) :
    (applyAll d done).log = d.log ∧ (applyAll d done).base = d.base := by
  have hall : ∀ op ∈ done, op = .createLogTmp ∨ ∃ bytes, op = .writeLogTmp bytes := by
    intro op hop
    have hmem : op ∈ stageOps rs := h ▸ List.mem_append_left _ hop
    simp only [stageOps, List.mem_cons, List.mem_flatMap, List.not_mem_nil, or_false] at hmem
    rcases hmem with rfl | ⟨r, _, rfl | rfl⟩
    · exact .inl rfl
    · exact .inr ⟨r, rfl⟩
    · exact .inr ⟨[0], rfl⟩
  clear h
  induction done generalizing d with
  | nil => exact ⟨rfl, rfl⟩
  | cons op done ih =>
    obtain ⟨hlog, hbase⟩ := ih (d := op.apply d) (fun o ho => hall o (List.mem_cons_of_mem _ ho))
    rcases hall op List.mem_cons_self with rfl | ⟨bytes, rfl⟩
    · exact ⟨hlog, hbase⟩
    · exact ⟨hlog, hbase⟩

/-- Wherever a prune stops, the log is the old one, under the old or the new base, or it is the
new one under the new base. -/
theorem applyAll_of_prefix_pruneOps {L : Limits} {st : State} {done ops : List PruneOp}
    (h : pruneOps L st = done ++ ops) :
    (applyAll d done).log = d.log ∧ ((applyAll d done).readBase = d.readBase ∨
        (applyAll d done).readBase = (st.pruned L).base) ∨
      (applyAll d done).log = some (RecordLog.encode 0 (st.pruned L).paths) ∧
        (applyAll d done).readBase = (st.pruned L).base := by
  rcases List.append_eq_append_iff.mp h with ⟨late, rfl, hlate⟩ | ⟨early, hearly, -⟩
  · rw [applyAll_append, applyAll_stageOps]
    have htake := List.prefix_iff_eq_take.mp ⟨ops, hlate.symm⟩
    generalize late.length = k at htake
    subst late
    -- before the rename of `base`, between the two renames, after them
    match k with
    | 0 | 1 | 2 => exact .inl ⟨rfl, .inl rfl⟩
    | 3 => exact .inl ⟨rfl, .inr (JournalDir.readBase_writeU64Atomic _ _)⟩
    | 4 => exact .inr ⟨rfl, JournalDir.readBase_writeU64Atomic d.toJournalDir _⟩
    | k + 5 =>
      rw [List.take_of_length_le (show 5 ≤ k + 5 by omega)]
      exact .inr ⟨rfl, JournalDir.readBase_writeU64Atomic d.toJournalDir _⟩
  · obtain ⟨hlog, hbase⟩ := applyAll_of_prefix_stageOps (d := d) hearly
    exact .inl ⟨hlog, .inl (by rw [JournalDir.readBase, hbase]; rfl)⟩

end PruneOp

namespace Daemon

variable {L : Limits} {d : JournalDisk} {h : List Bytes} {n extra : Nat}

theorem Settled.readLog (hd : Settled d h n extra) (hnul : ∀ r ∈ h, 0 ∉ r ∧ r ≠ []) :
    d.readLog = h.drop n := by
  have hdrop : ∀ r ∈ h.drop n, 0 ∉ r ∧ r ≠ [] := fun r hr => hnul r (List.mem_of_mem_drop hr)
  rw [JournalDir.readLog, hd.log, RecordLog.decode_encode 0 (fun r hr => (hdrop r hr).1)]
  exact List.filter_eq_self.mpr fun r hr => by simpa using (hdrop r hr).2

theorem Settled.append (hd : Settled d h n extra) (p : Bytes) :
    Settled ⟨d.toJournalDir.append p, d.baseTmp⟩ (h ++ [p]) n extra := by
  have hle := hd.le
  refine ⟨by simp; omega, ?_, hd.base⟩
  rw [List.drop_append_of_le_length hle, RecordLog.encode_append, ← hd.log, JournalDir.log_append]
  simp

/-- A prune cut short loses what it drops, or counts it twice from then on, or has done nothing. -/
theorem Pruning.settled {st : State} {ops : List PruneOp} (hp : Pruning L d st ops h n extra)
    (hst : st = ⟨h.drop n, n + extra⟩) :
    ∃ m y, n ≤ m ∧ extra ≤ y ∧ Settled d h m y := by
  obtain ⟨_, d₀, done, ⟨hle, hlog, hbase⟩, hops, rfl⟩ := hp
  have hlen : st.paths.length = h.length - n := by rw [hst, List.length_drop]
  have hdrop : st.dropN L ≤ st.paths.length := Nat.sub_le _ _
  have hpbase : (st.pruned L).base = n + extra + st.dropN L := by rw [State.pruned, hst]
  have hppaths : (st.pruned L).paths = h.drop (n + st.dropN L) := by
    rw [← List.drop_drop, State.pruned, hst]
  rcases PruneOp.applyAll_of_prefix_pruneOps (d := d₀) hops with ⟨hl, hb | hb⟩ | ⟨hl, hb⟩
  · exact ⟨n, extra, le_rfl, le_rfl, hle, by rw [hl, hlog], by rw [hb, hbase]⟩
  · exact ⟨n, extra + st.dropN L, le_rfl, by omega, hle, by rw [hl, hlog], by rw [hb, hpbase]; omega⟩
  · exact ⟨n + st.dropN L, extra, by omega, le_rfl, by omega, by rw [hl, hppaths]; rfl,
      by rw [hb, hpbase]; omega⟩

theorem pruned_eq {st : State} (hst : st = ⟨h.drop n, n + extra⟩) :
    st.pruned L = ⟨h.drop (n + st.dropN L), n + st.dropN L + extra⟩ := by
  have hpaths : st.paths = h.drop n := by rw [hst]
  have hbase : st.base = n + extra := by rw [hst]
  rw [State.pruned, hpaths, hbase, List.drop_drop]
  congr 1
  omega

/-- The last file operation of a prune leaves exactly what the window holds. -/
theorem Pruning.finish {st : State} {op : PruneOp} (hp : Pruning L d st [op] h n extra)
    (hst : st = ⟨h.drop n, n + extra⟩) : Settled (op.apply d) h (n + st.dropN L) extra := by
  obtain ⟨_, d₀, done, ⟨hle, _, _⟩, hops, rfl⟩ := hp
  have hlen : st.paths.length = h.length - n := by rw [hst, List.length_drop]
  have hdrop : st.dropN L ≤ st.paths.length := Nat.sub_le _ _
  have hall : op.apply (PruneOp.applyAll d₀ done) = ⟨(prune L st d₀.toJournalDir).2, none⟩ := by
    rw [← PruneOp.applyAll_pruneOps L st, hops, PruneOp.applyAll_append]
    rfl
  rw [hall]
  refine ⟨by omega, ?_, ?_⟩
  · show RecordLog.encode 0 (st.pruned L).paths = _
    rw [pruned_eq hst]
  · show JournalDir.readBase _ = _
    rw [prune, JournalDir.readBase_swapLog, JournalDir.readBase_writeU64Atomic, pruned_eq hst]

theorem Pruning.advance {st : State} {op op' : PruneOp} {ops : List PruneOp}
    (hp : Pruning L d st (op :: op' :: ops) h n extra) :
    Pruning L (op.apply d) st (op' :: ops) h n extra := by
  obtain ⟨_, d₀, done, hd, hops, rfl⟩ := hp
  refine ⟨List.cons_ne_nil _ _, d₀, done ++ [op], hd, by simp [hops], ?_⟩
  rw [PruneOp.applyAll_append]
  rfl

theorem tracks_start : Tracks L start [] 0 0 :=
  ⟨by simp, by simp [start], fun _ => ⟨le_rfl, rfl, rfl⟩⟩

theorem nulFree_append (hnul : ∀ r ∈ h, 0 ∉ r ∧ r ≠ []) (p : {p : Bytes // 0 ∉ p ∧ p ≠ []}) :
    ∀ r ∈ h ++ [p.1], 0 ∉ r ∧ r ≠ [] := by
  intro r hr
  rcases List.mem_append.mp hr with hr | hr
  · exact hnul r hr
  · rw [List.mem_singleton.mp hr]
    exact p.2

theorem run_fileOps (st : State) (ops : List PruneOp) (hne : ops ≠ []) (d : JournalDisk) :
    run L ⟨d, some (st, ops)⟩ (List.replicate ops.length .fileOp) =
      some ⟨PruneOp.applyAll d ops, some (st.pruned L, [])⟩ := by
  induction ops generalizing d with
  | nil => exact (hne rfl).elim
  | cons op ops ih =>
    cases ops with
    | nil => rfl
    | cons op' ops => exact ih (List.cons_ne_nil _ _) (op.apply d)

theorem run_record (st : State) (d : JournalDisk) (p : {p : Bytes // 0 ∉ p ∧ p ≠ []}) :
    ∃ k tmp, run L ⟨d, some (st, [])⟩ (.record p :: List.replicate k .fileOp) =
      some ⟨⟨(record L st d.toJournalDir p).2, tmp⟩,
        some ((record L st d.toJournalDir p).1, [])⟩ := by
  rw [record]
  by_cases hn : (st.push p).needsPrune L (d.toJournalDir.append p) = true
  · have hne : pruneOps L (st.push p) ≠ [] := by simp [pruneOps, stageOps]
    have hall := run_fileOps (L := L) (st.push p) _ hne ⟨d.toJournalDir.append p, d.baseTmp⟩
    refine ⟨(pruneOps L (st.push p)).length, none, ?_⟩
    rw [PruneOp.applyAll_pruneOps] at hall
    simp only [run, Machine.run, step, Option.bind_some, if_pos hn]
    exact hall
  · refine ⟨0, d.baseTmp, ?_⟩
    simp only [List.replicate_zero, run, Machine.run, step, Option.bind_some, if_neg hn]

/-- One step: neither the number of lost records nor what the base counts beyond it falls. -/
theorem tracks_step {s t : Daemon} {e : DaemonEvent} (hs : Tracks L s h n extra)
    (he : step L s e = some t) :
    ∃ m y, n ≤ m ∧ extra ≤ y ∧ Tracks L t (h ++ e.path) m y := by
  obtain ⟨disk, proc⟩ := s
  obtain ⟨hnul, hlive, hdead⟩ := hs
  cases proc with
  | none =>
    cases e <;> simp only [step, Option.some.injEq, reduceCtorEq] at he
    case opened =>
      subst t
      have hd := hdead rfl
      refine ⟨n, extra, le_rfl, le_rfl, by simpa [DaemonEvent.path] using hnul, ?_, by simp⟩
      rintro st ops ⟨⟩
      have hopen : Settled ⟨disk.createLog, disk.baseTmp⟩ h n extra := ⟨hd.le, hd.log, hd.base⟩
      rw [show h ++ DaemonEvent.opened.path = h from List.append_nil h, hd.readLog hnul, hd.base]
      exact ⟨rfl, .inl ⟨rfl, hopen⟩⟩
  | some proc =>
    obtain ⟨st, ops⟩ := proc
    obtain ⟨hst, hops⟩ := hlive st ops rfl
    cases e with
    | opened => simp [step] at he
    | crash =>
      simp only [step, Option.some.injEq] at he
      subst t
      simp only [DaemonEvent.path, List.append_nil]
      rcases hops with ⟨-, hd⟩ | hp
      · exact ⟨n, extra, le_rfl, le_rfl, hnul, by simp, fun _ => hd⟩
      · obtain ⟨m, y, hm, hy, hd⟩ := hp.settled hst
        exact ⟨m, y, hm, hy, hnul, by simp, fun _ => hd⟩
    | record p =>
      cases ops with
      | cons op ops => simp [step] at he
      | nil =>
        simp only [step, Option.some.injEq] at he
        subst t
        have hd : Settled disk h n extra := by
          rcases hops with ⟨-, hd⟩ | hp
          · exact hd
          · exact (hp.rest rfl).elim
        have happ := hd.append p.1
        have hpush : st.push p = ⟨(h ++ [p.1]).drop n, n + extra⟩ := by
          rw [State.push, hst, List.drop_append_of_le_length hd.le]
        refine ⟨n, extra, le_rfl, le_rfl, nulFree_append hnul p, ?_, by simp⟩
        rintro st' ops' ⟨⟩
        refine ⟨hpush, ?_⟩
        split
        · exact .inr ⟨by simp [pruneOps, stageOps], _, [], happ, rfl, rfl⟩
        · exact .inl ⟨rfl, happ⟩
    | fileOp =>
      cases ops with
      | nil => simp [step] at he
      | cons op ops =>
        have hp : Pruning L disk st (op :: ops) h n extra := by
          rcases hops with ⟨hnil, -⟩ | hp
          · exact (List.cons_ne_nil _ _ hnil).elim
          · exact hp
        have hpath : h ++ DaemonEvent.fileOp.path = h := List.append_nil h
        rw [hpath]
        cases ops with
        | nil =>
          simp only [step, Option.some.injEq] at he
          subst t
          refine ⟨n + st.dropN L, extra, by omega, le_rfl, hnul, ?_, by simp⟩
          rintro st' ops' ⟨⟩
          exact ⟨pruned_eq hst, .inl ⟨rfl, hp.finish hst⟩⟩
        | cons op' ops =>
          simp only [step, Option.some.injEq] at he
          subst t
          refine ⟨n, extra, le_rfl, le_rfl, hnul, ?_, by simp⟩
          rintro st' ops' ⟨⟩
          exact ⟨hst, .inr hp.advance⟩

theorem tracks_run {s t : Daemon} {es : List DaemonEvent} (hs : Tracks L s h n extra)
    (hr : s.run L es = some t) :
    ∃ m y, n ≤ m ∧ extra ≤ y ∧ Tracks L t (h ++ appendedPaths es) m y := by
  refine Machine.run_history (fun u k => ∃ m y, n ≤ m ∧ extra ≤ y ∧ Tracks L u k m y)
    DaemonEvent.path (fun _ => True) ?_ (fun _ _ => trivial) ⟨n, extra, le_rfl, le_rfl, hs⟩ hr
  rintro u k e v - ⟨m, y, hm, hy, hu⟩ he
  obtain ⟨m', y', hm', hy', hv⟩ := tracks_step hu he
  exact ⟨m', y', hm.trans hm', hy.trans hy', hv⟩

theorem Tracks.settled {s : Daemon} (hs : Tracks L s h n extra) (hq : s.Quiet L) :
    Settled s.disk h n extra := by
  cases hproc : s.proc with
  | none => exact hs.dead hproc
  | some proc =>
    obtain ⟨st, ops⟩ := proc
    obtain ⟨-, ⟨-, hd⟩ | ⟨hrest, d₀, done, hd, hops, hdisk⟩⟩ := hs.live st ops hproc
    · exact hd
    · rcases hq st ops hproc with rfl | rfl
      · exact (hrest rfl).elim
      · obtain rfl := List.self_eq_append_left.mp hops
        rwa [hdisk]

/-- The running process, or a journal opened on the files, answers a query with `T`. -/
inductive Mints (workspace : Bytes) (epoch generation : Nat) (s : Daemon) : Token → Prop
  | live {st : State} {ops : List PruneOp} (prev : Bytes) (hproc : s.proc = some (st, ops)) :
      Mints workspace epoch generation s
        ((⟨workspace, epoch, generation, st⟩ : ChangeJournal).query prev).token
  | fresh (prev : Bytes) : Mints workspace epoch generation s
      ((ChangeJournal.replay workspace epoch generation s.disk.toJournalDir
        s.disk.toJournalDir).query prev).token

variable {workspace : Bytes} {epoch generation : Nat}

theorem Mints.eq {s : Daemon} {t : Token} (ht : s.Mints workspace epoch generation t)
    (hs : Tracks L s h n extra) (hq : s.Quiet L) :
    t = ⟨workspace, epoch, extra + h.length, generation⟩ := by
  have hd := hs.settled hq
  have hle := hd.le
  have hseq : curSeq ⟨h.drop n, n + extra⟩ = extra + h.length := by
    show n + extra + (h.drop n).length = _
    rw [List.length_drop]
    omega
  cases ht with
  | live prev hproc =>
    rw [ChangeJournal.query_token, ChangeJournal.currentToken, (hs.live _ _ hproc).1, hseq]
    rfl
  | fresh prev =>
    rw [ChangeJournal.query_token, ChangeJournal.currentToken, ChangeJournal.replay,
      hd.readLog hs.nulFree, hd.base, hseq]
    rfl

end Daemon

/-- A token minted while no prune was part-way: a journal opened later, when none is, answers it
with a full invalidation or with every path appended since, whatever crashed in between. -/
theorem prune_crash_safe {L : Limits} {before after : List DaemonEvent} {a b : Daemon}
    (ha : Daemon.start.run L before = some a) (hb : a.run L after = some b)
    (hqa : a.Quiet L) (hqb : b.Quiet L) {workspace : Bytes} {epoch generation : Nat} {T : Token}
    (hT : a.Mints workspace epoch generation T) :
    ∀ p ∈ appendedPaths after, ((ChangeJournal.replay workspace epoch generation
      b.disk.toJournalDir b.disk.toJournalDir).query T.encode).Reports p := by
  intro p hp
  obtain ⟨n, x, -, -, hta⟩ := Daemon.tracks_run Daemon.tracks_start ha
  obtain ⟨m, y, -, hxy, htb⟩ := Daemon.tracks_run hta hb
  have hd := htb.settled hqb
  have hread := hd.readLog htb.nulFree
  obtain rfl := hT.eq hta hqa
  refine ChangeJournal.query_tokenAt_reports (.replay workspace epoch generation
    b.disk.toJournalDir b.disk.toJournalDir) fun hlive => ?_
  simp only [ChangeJournal.replay, hread, hd.base] at hlive ⊢
  exact SlidingWindow.mem_drop_drop_append (by omega) hp

def daemonRecord (c : UInt8) (h : 0 ∉ [c] ∧ [c] ≠ [] := by decide) : DaemonEvent := .record ⟨[c], h⟩

/-- The process dies between the two renames of the prune. -/
theorem prune_crash_safe_between_renames :
    ∃ a b, Daemon.start.run smallLimits [.opened, daemonRecord 97] = some a ∧
      a.run smallLimits ([daemonRecord 98, daemonRecord 99] ++ List.replicate 6 .fileOp ++
        [.crash, .opened, daemonRecord 100]) = some b ∧
      ∀ p ∈ [[98], [99], [100]], ((ChangeJournal.replay [119] 1 0 b.disk.toJournalDir
        b.disk.toJournalDir).query (Token.mk [119] 1 1 0).encode).Reports p :=
  ⟨_, _, rfl, rfl, prune_crash_safe
    (show Daemon.start.run smallLimits [.opened, daemonRecord 97] = some _ from rfl)
    (show Daemon.run smallLimits _ ([daemonRecord 98, daemonRecord 99] ++
      List.replicate 6 .fileOp ++ [.crash, .opened, daemonRecord 100]) = some _ from rfl)
    (by rintro st ops ⟨⟩; exact .inl rfl) (by rintro st ops ⟨⟩; exact .inr rfl) (.fresh [])⟩

end LazyMount
