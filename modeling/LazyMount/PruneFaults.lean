import LazyMount.JournalCrash

/-! Prunes that fail part-way under a serve process that lives on: what each file operation that
returns an error leaves on disk, in memory and behind the append handle. -/

namespace LazyMount

/-- The file operation of a prune that returns an error. `stage k n` and `publish k n`: it is the
operation number `k`, after `n` bytes if it is a write, or the fsync behind the last write, or the
rename of the base. -/
inductive PruneFault where
  | stage (k n : Nat)
  | publish (k n : Nat)
  | renameLog
  | reopenLog
deriving DecidableEq, Repr

/-- A call of `record`. A prune that the call runs into meets the fault. -/
structure RecordEvent where
  path : {p : Bytes // 0 ∉ p ∧ p ≠ []}
  fault : Option PruneFault
deriving DecidableEq

/-- A live serve process: its window, the files, and the bytes behind the append handle once
another file has taken the name `changes.log`. -/
structure Recorder where
  st : State
  disk : JournalDisk
  handle : Option Bytes
deriving DecidableEq, Repr

namespace PruneOp

/-- What an operation that fails after `n` bytes has done. -/
def cut (n : Nat) : PruneOp → List PruneOp
  | .writeLogTmp bytes => [.writeLogTmp (bytes.take n)]
  | .writeBaseTmp bytes => [.writeBaseTmp (bytes.take n)]
  | _ => []

def cutAt (k n : Nat) (ops : List PruneOp) : List PruneOp :=
  ops.take k ++ ((ops.drop k).take 1).flatMap (cut n)

/-- It writes one of the temporary files. -/
def Staging : PruneOp → Prop
  | .createLogTmp | .writeLogTmp _ | .createBaseTmp | .writeBaseTmp _ => True
  | _ => False

end PruneOp

namespace PruneFault

/-- The operations performed before the error. -/
def performed (L : Limits) (st : State) : Option PruneFault → List PruneOp
  | none => pruneOps L st
  | some (.stage k n) => PruneOp.cutAt k n (stageOps (st.pruned L).paths)
  | some (.publish k n) =>
    stageOps (st.pruned L).paths ++ PruneOp.cutAt k n ((publishOps (st.pruned L).base).take 2)
  | some .renameLog => stageOps (st.pruned L).paths ++ publishOps (st.pruned L).base
  | some .reopenLog =>
    stageOps (st.pruned L).paths ++ (publishOps (st.pruned L).base ++ [.renameLog])

end PruneFault

namespace Recorder

/-- `ChangeJournal::open` on whatever the journal directory holds. -/
def opened (d : JournalDisk) : Recorder :=
  ⟨⟨d.readLog, d.readBase⟩, ⟨d.createLog, d.baseTmp⟩, none⟩

/-- The append reaches the file the handle was opened on. -/
def append (s : Recorder) (p : Bytes) : Recorder :=
  match s.handle with
  | none => ⟨s.st.push p, ⟨s.disk.append p, s.disk.baseTmp⟩, none⟩
  | some bytes => ⟨s.st.push p, s.disk, some (bytes ++ (p ++ [0]))⟩

def perform (s : Recorder) : PruneOp → Recorder
  | .renameLog =>
    { s with disk := PruneOp.apply s.disk .renameLog, handle := some (s.handle.getD (s.disk.log.getD [])) }
  | .reopenLog => { s with disk := PruneOp.apply s.disk .reopenLog, handle := none }
  | op => { s with disk := op.apply s.disk }

/-- `prune`: the window is drained only behind the last operation. -/
def prune (L : Limits) (s : Recorder) (fault : Option PruneFault) : Recorder :=
  let t := (PruneFault.performed L s.st fault).foldl perform s
  if fault = none then { t with st := s.st.pruned L } else t

def Prunes (L : Limits) (s : Recorder) (p : Bytes) : Prop :=
  (s.append p).st.needsPrune L (s.append p).disk.toJournalDir = true

instance (L : Limits) (s : Recorder) (p : Bytes) : Decidable (s.Prunes L p) :=
  inferInstanceAs (Decidable (_ = true))

/-- `ChangeJournal::record` when its append succeeds. -/
def step (L : Limits) (s : Recorder) (e : RecordEvent) : Recorder :=
  if s.Prunes L e.path then (s.append e.path).prune L e.fault else s.append e.path

/-- `record` returns `Ok`. -/
def Acknowledges (L : Limits) (s : Recorder) (e : RecordEvent) : Prop :=
  s.Prunes L e.path → e.fault = none

instance (L : Limits) (s : Recorder) (e : RecordEvent) : Decidable (s.Acknowledges L e) :=
  inferInstanceAs (Decidable (_ → _))

def run (L : Limits) (s : Recorder) (es : List RecordEvent) : Recorder := es.foldl (step L) s

/-- The paths whose `record` returned `Ok` along a run. -/
def acknowledged (L : Limits) : Recorder → List RecordEvent → List Bytes
  | _, [] => []
  | s, e :: es => (if s.Acknowledges L e then [e.path.1] else []) ++ acknowledged L (s.step L e) es

/-- A hook query between two calls. -/
def hook (hash : UInt64) (s : Recorder) (prev : Bytes) : Query :=
  hookQuery hash s.disk.toJournalDir s.disk.toJournalDir prev

/-- If the record runs into a prune, the rename of the log fails only under a handle that an
earlier prune has left behind, and the handle fails to open again only where the next record is
sure to prune: the window is full, or the log that was just published is beyond its cap. -/
def Spares (L : Limits) (s : Recorder) (e : RecordEvent) : Prop :=
  s.Prunes L e.path →
    (e.fault = some .renameLog → s.handle ≠ none) ∧
    (e.fault = some .reopenLog → L.keepMax ≤ (s.append e.path).st.paths.length ∨
      L.logByteCap < (RecordLog.encode 0 ((s.append e.path).st.pruned L).paths).length)

instance (L : Limits) (s : Recorder) (e : RecordEvent) : Decidable (s.Spares L e) :=
  inferInstanceAs (Decidable (_ → _ ∧ _))

def Spared (L : Limits) : Recorder → List RecordEvent → Prop
  | _, [] => True
  | s, e :: es => s.Spares L e ∧ Spared L (s.step L e) es

instance decidableSpared (L : Limits) : (s : Recorder) → (es : List RecordEvent) → Decidable (Spared L s es)
  | _, [] => inferInstanceAs (Decidable True)
  | s, e :: es =>
    have := decidableSpared L (s.step L e) es
    inferInstanceAs (Decidable (_ ∧ _))

/-- A token the hook hands out here is answered, after these calls, with every path that they
acknowledge. -/
def Honours (hash : UInt64) (L : Limits) (s : Recorder) (after : List RecordEvent) : Prop :=
  ∀ prev, ∀ p ∈ s.acknowledged L after,
    ((s.run L after).hook hash (s.hook hash prev).token.encode).Reports p

end Recorder

/-! What a prune leaves, fault by fault. -/

namespace PruneOp

variable {d : JournalDisk}

theorem staging_cutAt {ops : List PruneOp} (h : ∀ op ∈ ops, op.Staging) (k n : Nat) :
    ∀ op ∈ cutAt k n ops, op.Staging := by
  intro op hop
  rcases List.mem_append.mp hop with hop | hop
  · exact h op (List.mem_of_mem_take hop)
  · obtain ⟨op', -, hcut⟩ := List.mem_flatMap.mp hop
    cases op' <;> simp only [cut, List.mem_singleton, List.not_mem_nil] at hcut
    all_goals
      subst op
      trivial

theorem staging_stageOps (rs : List Bytes) : ∀ op ∈ stageOps rs, op.Staging := by
  intro op hop
  simp only [stageOps, List.mem_cons, List.mem_flatMap, List.not_mem_nil, or_false] at hop
  rcases hop with rfl | ⟨r, -, rfl | rfl⟩
  all_goals trivial

theorem staging_publishOps (n : Nat) : ∀ op ∈ (publishOps n).take 2, op.Staging := by
  intro op hop
  simp only [publishOps, List.take_succ_cons, List.take_zero, List.mem_cons, List.not_mem_nil,
    or_false] at hop
  rcases hop with rfl | rfl
  all_goals trivial

end PruneOp

namespace Recorder

variable {L : Limits} {s : Recorder}

theorem foldl_disk (s : Recorder) (ops : List PruneOp) :
    (ops.foldl perform s).disk = PruneOp.applyAll s.disk ops := by
  induction ops generalizing s with
  | nil => rfl
  | cons op ops ih =>
    rw [List.foldl_cons, ih, PruneOp.applyAll_cons]
    cases op <;> rfl

theorem foldl_st (s : Recorder) (ops : List PruneOp) : (ops.foldl perform s).st = s.st := by
  induction ops generalizing s with
  | nil => rfl
  | cons op ops ih =>
    rw [List.foldl_cons, ih]
    cases op <;> rfl

theorem foldl_staging {ops : List PruneOp} (h : ∀ op ∈ ops, op.Staging) :
    (ops.foldl perform s).disk.log = s.disk.log ∧ (ops.foldl perform s).disk.base = s.disk.base ∧
      (ops.foldl perform s).handle = s.handle := by
  induction ops generalizing s with
  | nil => exact ⟨rfl, rfl, rfl⟩
  | cons op ops ih =>
    obtain ⟨hlog, hbase, hhandle⟩ := ih (s := s.perform op) fun o ho => h o (List.mem_cons_of_mem _ ho)
    have hop := h op List.mem_cons_self
    rw [List.foldl_cons, hlog, hbase, hhandle]
    cases op <;> first | exact hop.elim | exact ⟨rfl, rfl, rfl⟩

theorem foldl_published (s : Recorder) (rs : List Bytes) (base : Nat) :
    (stageOps rs ++ publishOps base).foldl perform s =
      ⟨s.st, ⟨(s.disk.stageLog rs).writeU64Atomic base, none⟩, s.handle⟩ := by
  have hdisk := foldl_disk s (stageOps rs ++ publishOps base)
  rw [PruneOp.applyAll_append, PruneOp.applyAll_stageOps, PruneOp.applyAll_publishOps] at hdisk
  have hhandle : ((stageOps rs ++ publishOps base).foldl perform s).handle = s.handle := by
    rw [List.foldl_append]
    exact (foldl_staging (PruneOp.staging_stageOps rs)).2.2
  calc (stageOps rs ++ publishOps base).foldl perform s
      = ⟨((stageOps rs ++ publishOps base).foldl perform s).st,
          ((stageOps rs ++ publishOps base).foldl perform s).disk,
          ((stageOps rs ++ publishOps base).foldl perform s).handle⟩ := rfl
    _ = _ := by rw [foldl_st, hdisk, hhandle]

theorem prune_none (s : Recorder) : s.prune L none =
    ⟨s.st.pruned L, ⟨(LazyMount.prune L s.st s.disk.toJournalDir).2, none⟩, none⟩ := by
  have hdisk := foldl_disk s (pruneOps L s.st)
  rw [PruneOp.applyAll_pruneOps] at hdisk
  have hops : pruneOps L s.st = (stageOps (s.st.pruned L).paths ++
      (publishOps (s.st.pruned L).base ++ [.renameLog])) ++ [.reopenLog] := by simp [pruneOps]
  have hhandle : ((pruneOps L s.st).foldl perform s).handle = none := by
    rw [hops, List.foldl_append]
    rfl
  simp only [prune, PruneFault.performed, if_true, hdisk, hhandle]

theorem prune_begun {fault : PruneFault} (h : fault ≠ .renameLog) (h' : fault ≠ .reopenLog) :
    (s.prune L (some fault)).st = s.st ∧ (s.prune L (some fault)).disk.log = s.disk.log ∧
      (s.prune L (some fault)).disk.base = s.disk.base ∧
      (s.prune L (some fault)).handle = s.handle := by
  have hstage := PruneOp.staging_stageOps (s.st.pruned L).paths
  have hpublish := PruneOp.staging_publishOps (s.st.pruned L).base
  have hops : ∀ op ∈ PruneFault.performed L s.st (some fault), op.Staging := by
    cases fault with
    | stage k n => exact PruneOp.staging_cutAt hstage k n
    | publish k n =>
      intro op hop
      rcases List.mem_append.mp hop with hop | hop
      · exact hstage op hop
      · exact PruneOp.staging_cutAt hpublish k n op hop
    | renameLog => exact (h rfl).elim
    | reopenLog => exact (h' rfl).elim
  obtain ⟨hlog, hbase, hhandle⟩ := foldl_staging (s := s) hops
  exact ⟨foldl_st s _, hlog, hbase, hhandle⟩

/-- The new base stands over the old log. -/
theorem prune_renameLog (s : Recorder) : s.prune L (some .renameLog) =
    ⟨s.st, ⟨(s.disk.stageLog (s.st.pruned L).paths).writeU64Atomic (s.st.pruned L).base, none⟩,
      s.handle⟩ :=
  foldl_published s (s.st.pruned L).paths (s.st.pruned L).base

/-- The files are pruned, the window is not, and the handle names the old log. -/
theorem prune_reopenLog (s : Recorder) : s.prune L (some .reopenLog) =
    ⟨s.st, ⟨(LazyMount.prune L s.st s.disk.toJournalDir).2, none⟩,
      some (s.handle.getD (s.disk.log.getD []))⟩ := by
  have hpublished := foldl_published s (s.st.pruned L).paths (s.st.pruned L).base
  simp only [prune, PruneFault.performed, reduceCtorEq, if_false]
  rw [← List.append_assoc, List.foldl_append, List.foldl_cons, List.foldl_nil, hpublished]
  rfl

/-! The labels of the log against those of the window. -/

/-- The history `h` is numbered from `b`. The window has lost its first `n` paths. The log holds
those from `m` up to `k`, and a replay numbers the last of them `c`; what was recorded behind `k`
went to a file that has lost its name, and no call acknowledged it. -/
structure Tracks (L : Limits) (s : Recorder) (b : Nat) (h : List Bytes) (n m k c : Nat) : Prop where
  nulFree : ∀ r ∈ h, 0 ∉ r ∧ r ≠ []
  dropped : n ≤ h.length
  window : s.st = ⟨h.drop n, b + n⟩
  first : m ≤ k
  last : k ≤ c
  label : c ≤ h.length
  present : s.disk.log ≠ none
  boundary : RecordLog.AtBoundary 0 (s.disk.log.getD [])
  log : s.disk.readLog = (h.take k).drop m
  base : s.disk.readBase = b + m + (c - k)
  attached : s.handle = none → k = h.length ∧ m = n
  detached : s.handle ≠ none → m + L.keepMin = k ∧ L.keepMin < s.st.paths.length ∧
    (L.keepMax ≤ s.st.paths.length ∨ L.logByteCap < s.disk.logBytes)

variable {b n m k c : Nat} {h : List Bytes}

theorem tracks_opened {d : JournalDisk} (hd : RecordLog.AtBoundary 0 (d.log.getD [])) :
    Tracks L (opened d) d.readBase d.readLog 0 0 d.readLog.length d.readLog.length := by
  have hnul : ∀ r ∈ d.readLog, 0 ∉ r ∧ r ≠ [] := fun r hr =>
    ⟨RecordLog.sep_notMem_of_mem_decode 0 hr, RecordLog.ne_nil_of_mem_decode 0 hr⟩
  have hlog : (opened d).disk.readLog = (d.readLog.take d.readLog.length).drop 0 := by
    rw [List.take_length]
    rfl
  have hbase : (opened d).disk.readBase = d.readBase + 0 + (d.readLog.length - d.readLog.length) := by
    rw [Nat.sub_self]
    rfl
  exact ⟨hnul, Nat.zero_le _, rfl, Nat.zero_le _, le_rfl, le_rfl, by simp [opened, JournalDir.createLog], hd,
    hlog, hbase, fun _ => ⟨rfl, rfl⟩, fun hne => (hne rfl).elim⟩

theorem nulFree_append (hnul : ∀ r ∈ h, (0 : UInt8) ∉ r ∧ r ≠ []) (p : {p : Bytes // 0 ∉ p ∧ p ≠ []}) :
    ∀ r ∈ h ++ [p.1], (0 : UInt8) ∉ r ∧ r ≠ [] := by
  intro r hr
  rcases List.mem_append.mp hr with hr | hr
  · exact hnul r hr
  · rw [List.mem_singleton.mp hr]
    exact p.2

theorem Tracks.append (hs : Tracks L s b h n m k c) (p : {p : Bytes // 0 ∉ p ∧ p ≠ []}) :
    ∃ k' c', Tracks L (s.append p) b (h ++ [p.1]) n m k' c' ∧ k ≤ k' := by
  have hnul := nulFree_append hs.nulFree p
  have hlen : (h ++ [p.1]).length = h.length + 1 := by simp
  have hpush : s.st.push p = ⟨(h ++ [p.1]).drop n, b + n⟩ := by
    rw [State.push, hs.window, List.drop_append_of_le_length hs.dropped]
  have hkc := hs.last
  have hch := hs.label
  have hmk := hs.first
  have hnh := hs.dropped
  cases hhandle : s.handle with
  | none =>
    obtain ⟨rfl, rfl⟩ := hs.attached hhandle
    have happ : s.append p = ⟨s.st.push p, ⟨s.disk.append p, s.disk.baseTmp⟩, none⟩ := by
      rw [Recorder.append, hhandle]
    have hlog : (s.disk.append p.1).readLog = ((h ++ [p.1]).take (h.length + 1)).drop m := by
      have hread : RecordLog.decode 0 (s.disk.log.getD []) = (h.take h.length).drop m := hs.log
      rw [JournalDir.readLog, JournalDir.log_append, Option.getD_some,
        RecordLog.decode_append_record 0 hs.boundary p.2.1 p.2.2, hread, List.take_length, ← hlen,
        List.take_length, List.drop_append_of_le_length hnh]
    have hbase : (s.disk.append p.1).readBase = b + m + (h.length + 1 - (h.length + 1)) := by
      rw [JournalDir.readBase_append, hs.base]
      omega
    refine ⟨h.length + 1, h.length + 1, ?_, by omega⟩
    rw [happ]
    exact ⟨hnul, by omega, hpush, by omega, le_rfl, hlen.ge, by simp [JournalDir.log_append],
      .inr ⟨s.disk.log.getD [] ++ p.1, by simp [JournalDir.log_append]⟩, hlog, hbase,
      fun _ => ⟨hlen.symm, rfl⟩, fun hne => (hne rfl).elim⟩
  | some bytes =>
    have happ : s.append p = ⟨s.st.push p, s.disk, some (bytes ++ (p.1 ++ [0]))⟩ := by
      rw [Recorder.append, hhandle]
    obtain ⟨hmin, hfull, htrigger⟩ := hs.detached (by simp [hhandle])
    have hlog : s.disk.readLog = ((h ++ [p.1]).take k).drop m := by
      rw [List.take_append_of_le_length (by omega), hs.log]
    have hpaths : (s.st.push p).paths.length = s.st.paths.length + 1 := by simp [State.push]
    refine ⟨k, c, ?_, le_rfl⟩
    rw [happ]
    refine ⟨hnul, by omega, hpush, hmk, hkc, by omega, hs.present, hs.boundary, hlog, hs.base,
      (fun hnone => (Option.some_ne_none _ hnone).elim), fun _ => ⟨hmin, ?_, ?_⟩⟩
    · show L.keepMin < (s.st.push p).paths.length
      omega
    · show L.keepMax ≤ (s.st.push p).paths.length ∨ _
      rcases htrigger with hmax | hcap
      · exact .inl (by omega)
      · exact .inr hcap

/-- Behind a handle that lost its file every record prunes. -/
theorem Tracks.prunes (hs : Tracks L s b h n m k c) (hhandle : s.handle ≠ none) (p : Bytes) :
    s.Prunes L p := by
  obtain ⟨bytes, hbytes⟩ := Option.ne_none_iff_exists'.mp hhandle
  obtain ⟨-, hfull, htrigger⟩ := hs.detached hhandle
  have happ : s.append p = ⟨s.st.push p, s.disk, some (bytes ++ (p ++ [0]))⟩ := by
    rw [Recorder.append, hbytes]
  have hpaths : (s.st.push p).paths.length = s.st.paths.length + 1 := by simp [State.push]
  show (s.append p).st.needsPrune L (s.append p).disk.toJournalDir = true
  rw [happ]
  simp only [State.needsPrune, Bool.and_eq_true, Bool.or_eq_true, decide_eq_true_eq, hpaths]
  refine ⟨?_, by omega⟩
  rcases htrigger with hmax | hcap
  · exact .inl (by omega)
  · exact .inr hcap

theorem pruned_window (hlen : n ≤ h.length) (hst : s.st = ⟨h.drop n, b + n⟩)
    (hfull : L.keepMin < s.st.paths.length) :
    s.st.pruned L = ⟨h.drop (h.length - L.keepMin), b + (h.length - L.keepMin)⟩ := by
  have hpaths : s.st.paths.length = h.length - n := by rw [hst, List.length_drop]
  have hdrop : n + s.st.dropN L = h.length - L.keepMin := by
    rw [State.dropN]
    omega
  rw [State.pruned, hst, List.drop_drop]
  rw [hst] at hdrop
  rw [hdrop]
  congr 1
  show b + n + State.dropN L ⟨h.drop n, b + n⟩ = _
  omega

theorem readLog_pruned (hnul : ∀ r ∈ h, (0 : UInt8) ∉ r ∧ r ≠ []) (d : JournalDir) {st : State} {i : Nat}
    (hst : (st.pruned L).paths = h.drop i) : (LazyMount.prune L st d).2.readLog = h.drop i := by
  have hdrop : ∀ r ∈ h.drop i, (0 : UInt8) ∉ r ∧ r ≠ [] := fun r hr => hnul r (List.mem_of_mem_drop hr)
  have hlog : (LazyMount.prune L st d).2.readLog = RecordLog.decode 0 (RecordLog.encode 0 (st.pruned L).paths) :=
    rfl
  rw [hlog, hst, RecordLog.decode_encode 0 fun r hr => (hdrop r hr).1]
  exact List.filter_eq_self.mpr fun r hr => by simpa using (hdrop r hr).2

theorem tracks_finished (hnul : ∀ r ∈ h, (0 : UInt8) ∉ r ∧ r ≠ []) (hlen : n ≤ h.length)
    (hst : s.st = ⟨h.drop n, b + n⟩) (hfull : L.keepMin < s.st.paths.length) :
    Tracks L (s.prune L none) b h (h.length - L.keepMin) (h.length - L.keepMin) h.length h.length := by
  have hwindow := pruned_window hlen hst hfull
  have hlog := readLog_pruned (L := L) hnul s.disk.toJournalDir (congrArg State.paths hwindow)
  have hbase : (LazyMount.prune L s.st s.disk.toJournalDir).2.readBase = (s.st.pruned L).base := by
    rw [LazyMount.prune, JournalDir.readBase_swapLog, JournalDir.readBase_writeU64Atomic]
  rw [prune_none]
  refine ⟨hnul, Nat.sub_le _ _, hwindow, Nat.sub_le _ _, le_rfl, le_rfl, by simp [LazyMount.prune,
    JournalDir.swapLog, JournalDir.writeU64Atomic, JournalDir.stageLog],
    RecordLog.atBoundary_encode 0 (s.st.pruned L).paths, ?_, ?_, fun _ => ⟨rfl, rfl⟩, fun hne => (hne rfl).elim⟩
  · rw [List.take_length]
    exact hlog
  · show (LazyMount.prune L s.st s.disk.toJournalDir).2.readBase = _
    rw [hbase, hwindow]
    show b + (h.length - L.keepMin) = _
    omega

theorem Tracks.begun {fault : PruneFault} (hs : Tracks L s b h n m k c) (hne : fault ≠ .renameLog)
    (hne' : fault ≠ .reopenLog) : Tracks L (s.prune L (some fault)) b h n m k c := by
  obtain ⟨hst, hlog, hbase, hhandle⟩ := prune_begun (L := L) (s := s) hne hne'
  have hread : (s.prune L (some fault)).disk.readLog = s.disk.readLog := by
    rw [JournalDir.readLog, hlog]
    rfl
  have hreadBase : (s.prune L (some fault)).disk.readBase = s.disk.readBase := by
    rw [JournalDir.readBase, hbase]
    rfl
  have hbytes : (s.prune L (some fault)).disk.logBytes = s.disk.logBytes := by
    rw [JournalDir.logBytes, hlog]
    rfl
  exact ⟨hs.nulFree, hs.dropped, hst.trans hs.window, hs.first, hs.last, hs.label, by rw [hlog]; exact hs.present,
    by rw [hlog]; exact hs.boundary, hread.trans hs.log, hreadBase.trans hs.base,
    fun hnone => hs.attached (hhandle ▸ hnone), fun hnone => by
      rw [hst, hbytes]
      exact hs.detached (hhandle ▸ hnone)⟩

/-- The records of the old log are numbered as the last ones of the window are. -/
theorem Tracks.renamed (hs : Tracks L s b h n m k c) (hhandle : s.handle ≠ none) :
    Tracks L (s.prune L (some .renameLog)) b h n m k h.length := by
  obtain ⟨hmin, hfull, htrigger⟩ := hs.detached hhandle
  have hwindow := pruned_window hs.dropped hs.window hfull
  have hfirst := hs.first
  have hlast := hs.last
  have hlabel := hs.label
  rw [prune_renameLog]
  refine ⟨hs.nulFree, hs.dropped, hs.window, hs.first, by omega, le_rfl, hs.present, hs.boundary, hs.log, ?_,
    fun hnone => (hhandle hnone).elim, fun _ => ⟨hmin, hfull, htrigger⟩⟩
  show ((s.disk.stageLog (s.st.pruned L).paths).writeU64Atomic (s.st.pruned L).base).readBase = _
  rw [JournalDir.readBase_writeU64Atomic, hwindow]
  show b + (h.length - L.keepMin) = _
  omega

theorem Tracks.left (hs : Tracks L s b h n m k c) (hfull : L.keepMin < s.st.paths.length)
    (hsure : L.keepMax ≤ s.st.paths.length ∨
      L.logByteCap < (RecordLog.encode 0 (s.st.pruned L).paths).length) :
    Tracks L (s.prune L (some .reopenLog)) b h n (h.length - L.keepMin) h.length h.length := by
  have hwindow := pruned_window hs.dropped hs.window hfull
  have hlog := readLog_pruned (L := L) hs.nulFree s.disk.toJournalDir (congrArg State.paths hwindow)
  have hbase : (LazyMount.prune L s.st s.disk.toJournalDir).2.readBase = (s.st.pruned L).base := by
    rw [LazyMount.prune, JournalDir.readBase_swapLog, JournalDir.readBase_writeU64Atomic]
  have hpaths : s.st.paths.length = h.length - n := by rw [hs.window, List.length_drop]
  rw [prune_reopenLog]
  refine ⟨hs.nulFree, hs.dropped, hs.window, Nat.sub_le _ _, le_rfl, le_rfl, by simp [LazyMount.prune,
    JournalDir.swapLog, JournalDir.writeU64Atomic, JournalDir.stageLog],
    RecordLog.atBoundary_encode 0 (s.st.pruned L).paths, ?_, ?_, (fun hnone => (Option.some_ne_none _ hnone).elim),
    fun _ => ⟨by omega, hfull, hsure⟩⟩
  · rw [List.take_length]
    exact hlog
  · show (LazyMount.prune L s.st s.disk.toJournalDir).2.readBase = _
    rw [hbase, hwindow]
    show b + (h.length - L.keepMin) = _
    omega

/-- One call: an acknowledged record is in the log, and the log forgets none it held but by a
prune that counts it. -/
theorem Tracks.step (hs : Tracks L s b h n m k c) (e : RecordEvent) (he : s.Spares L e) :
    ∃ n' m' k' c', Tracks L (s.step L e) b (h ++ [e.path.1]) n' m' k' c' ∧ k ≤ k' ∧
      (s.Acknowledges L e → k' = h.length + 1) := by
  obtain ⟨k', c', hs', hk⟩ := hs.append e.path
  have hlen : (h ++ [e.path.1]).length = h.length + 1 := by simp
  have hlast := hs'.last
  have hlabel := hs'.label
  by_cases hp : s.Prunes L e.path
  · have hfull : L.keepMin < (s.append e.path).st.paths.length := by
      have hprunes := hp
      simp only [Prunes, State.needsPrune, Bool.and_eq_true, decide_eq_true_eq] at hprunes
      exact hprunes.2
    have hstep : s.step L e = (s.append e.path).prune L e.fault := if_pos hp
    have hack : s.Acknowledges L e → e.fault = none := fun h => h hp
    obtain ⟨hrename, hreopen⟩ := he hp
    rw [hstep]
    cases hfault : e.fault with
    | none =>
      exact ⟨_, _, _, _, tracks_finished hs'.nulFree hs'.dropped hs'.window hfull, by omega,
        fun _ => hlen⟩
    | some fault =>
      rw [hfault] at hack hrename hreopen
      have hnack : ¬ s.Acknowledges L e := fun h => nomatch hack h
      cases fault with
      | stage i j => exact ⟨n, m, k', c', hs'.begun (by simp) (by simp), hk, fun h => (hnack h).elim⟩
      | publish i j => exact ⟨n, m, k', c', hs'.begun (by simp) (by simp), hk, fun h => (hnack h).elim⟩
      | renameLog =>
        have hhandle : (s.append e.path).handle ≠ none := by
          obtain ⟨bytes, hbytes⟩ := Option.ne_none_iff_exists'.mp (hrename rfl)
          simp [Recorder.append, hbytes]
        exact ⟨_, _, _, _, hs'.renamed hhandle, hk, fun h => (hnack h).elim⟩
      | reopenLog =>
        exact ⟨_, _, _, _, hs'.left hfull (hreopen rfl), by omega, fun h => (hnack h).elim⟩
  · have hstep : s.step L e = s.append e.path := if_neg hp
    have hnone : s.handle = none := by
      by_contra hne
      exact hp (hs.prunes hne e.path)
    have hhandle : (s.append e.path).handle = none := by simp [Recorder.append, hnone]
    rw [hstep]
    exact ⟨n, m, k', c', hs', hk, fun _ => (hs'.attached hhandle).1.trans hlen⟩

def paths (es : List RecordEvent) : List Bytes := es.map fun e => e.path.1

theorem mem_drop_mono {l : List Bytes} {p : Bytes} {i j : Nat} (hij : i ≤ j) (hp : p ∈ l.drop j) :
    p ∈ l.drop i := by
  obtain ⟨d, rfl⟩ := Nat.exists_eq_add_of_le hij
  rw [← List.drop_drop] at hp
  exact List.mem_of_mem_drop hp

theorem Tracks.run (hs : Tracks L s b h n m k c) {es : List RecordEvent} (he : Spared L s es) :
    ∃ n' m' k' c', Tracks L (s.run L es) b (h ++ paths es) n' m' k' c' ∧ k ≤ k' ∧
      ∀ p ∈ s.acknowledged L es, p ∈ ((h ++ paths es).take k').drop h.length := by
  induction es generalizing s h n m k c with
  | nil => exact ⟨n, m, k, c, by simpa [paths, Recorder.run] using hs, le_rfl, by simp [acknowledged]⟩
  | cons e es ih =>
    obtain ⟨n₁, m₁, k₁, c₁, hs₁, hk₁, hack⟩ := hs.step e he.1
    obtain ⟨n₂, m₂, k₂, c₂, hs₂, hk₂, hmem⟩ := ih hs₁ he.2
    have hpaths : h ++ paths (e :: es) = h ++ [e.path.1] ++ paths es := by simp [paths]
    have hlen : (h ++ [e.path.1]).length = h.length + 1 := by simp
    rw [hpaths]
    refine ⟨n₂, m₂, k₂, c₂, hs₂, by omega, fun p hp => ?_⟩
    rcases List.mem_append.mp hp with hp | hp
    · split at hp
      · rename_i hok
        have hlt : h.length < k₂ := by
          have := hack hok
          omega
        obtain ⟨j, rfl⟩ := Nat.exists_eq_add_of_lt hlt
        rw [List.mem_singleton.mp hp, List.append_assoc, List.take_append, List.drop_append]
        refine List.mem_append_right _ ?_
        rw [List.take_of_length_le (by omega), Nat.sub_self, List.drop_zero,
          show h.length + j + 1 - h.length = j + 1 by omega]
        exact List.mem_cons_self
      · cases hp
    · exact mem_drop_mono (by omega) (hmem p hp)

theorem hook_token (hlog : s.disk.log ≠ none) (hash : UInt64) (prev : Bytes) :
    (s.hook hash prev).token = ⟨workspaceId hash, 1, s.disk.readBase + s.disk.readLog.length, 0⟩ := by
  obtain ⟨bytes, hbytes⟩ := Option.ne_none_iff_exists'.mp hlog
  simp only [hook, hookQuery, hbytes, Option.isNone_some, Bool.false_eq_true, if_false, ChangeJournal.query_token,
    ChangeJournal.currentToken, ChangeJournal.tokenAt, ChangeJournal.replay, curSeq]

theorem Tracks.count (hs : Tracks L s b h n m k c) : s.disk.readBase + s.disk.readLog.length = b + c := by
  have hfirst := hs.first
  have hlast := hs.last
  have hlabel := hs.label
  rw [hs.log, hs.base, List.length_drop, List.length_take]
  omega

/-- What a token misses lies behind its own number, and the log has it under a number that is at
least as high. -/
theorem Tracks.reports (hs : Tracks L s b h n m k c) {seq : Nat} (hash : UInt64) {p : Bytes}
    (hp : p ∈ (h.take k).drop seq) :
    (s.hook hash (Token.mk (workspaceId hash) 1 (b + seq) 0).encode).Reports p := by
  have hlast := hs.last
  obtain ⟨bytes, hbytes⟩ := Option.ne_none_iff_exists'.mp hs.present
  rw [hook, hookQuery, hbytes, Option.isNone_some, if_neg (by decide)]
  refine ChangeJournal.query_seq_reports (colon_notMem_workspaceId hash) fun hlive => ?_
  have hlive' : s.disk.readBase ≤ b + seq := hlive
  show p ∈ s.disk.readLog.drop (b + seq - s.disk.readBase)
  rw [hs.base] at hlive' ⊢
  rw [hs.log, List.drop_drop]
  exact mem_drop_mono (by omega) hp

theorem spared_append {es fs : List RecordEvent} :
    Spared L s (es ++ fs) ↔ Spared L s es ∧ Spared L (s.run L es) fs := by
  induction es generalizing s with
  | nil => exact ⟨fun h => ⟨trivial, h⟩, fun h => h.2⟩
  | cons e es ih =>
    show _ ∧ Spared L (s.step L e) (es ++ fs) ↔ (_ ∧ Spared L (s.step L e) es) ∧ _
    rw [ih, and_assoc]
    rfl

theorem Tracks.honours (hs : Tracks L s b h n m k c) {after : List RecordEvent} (he : Spared L s after)
    (hash : UInt64) : s.Honours hash L after := by
  intro prev p hp
  obtain ⟨n', m', k', c', hs', -, hmem⟩ := hs.run he
  have hlabel := hs.label
  rw [hook_token hs.present, hs.count]
  exact hs'.reports hash (mem_drop_mono hlabel (hmem p hp))

/-! The faults that no condition on the state excuses. -/

theorem hook_current (s : Recorder) (hash : UInt64) (hlog : s.disk.log ≠ none) {seq : Nat}
    (hseq : s.disk.readBase + s.disk.readLog.length = seq) (p : Bytes) :
    ¬ (s.hook hash (Token.mk (workspaceId hash) 1 seq 0).encode).Reports p := by
  obtain ⟨bytes, hbytes⟩ := Option.ne_none_iff_exists'.mp hlog
  have hquery := ChangeJournal.query_seq
    (j := .replay (workspaceId hash) 1 0 s.disk.toJournalDir s.disk.toJournalDir)
    (colon_notMem_workspaceId hash) seq
  rw [if_neg (by simp only [ChangeJournal.replay, curSeq]; omega)] at hquery
  rw [hook, hookQuery, hbytes, Option.isNone_some, if_neg (by decide)]
  have htoken : Token.mk (workspaceId hash) 1 seq 0 =
    (ChangeJournal.replay (workspaceId hash) 1 0 s.disk.toJournalDir s.disk.toJournalDir).tokenAt seq := rfl
  rw [htoken, hquery]
  simp only [Query.Reports, mem_sortDedup, ChangeJournal.replay]
  rw [List.drop_eq_nil_of_le (by omega)]
  simp

theorem spared_of_faultless {es : List RecordEvent} (hes : ∀ e ∈ es, e.fault = none) : Spared L s es := by
  induction es generalizing s with
  | nil => trivial
  | cons e es ih =>
    have he := hes e List.mem_cons_self
    refine ⟨fun _ => ?_, ih fun f hf => hes f (List.mem_cons_of_mem _ hf)⟩
    rw [he]
    exact ⟨(fun h => nomatch h), fun h => nomatch h⟩

theorem handle_step {e : RecordEvent} (hs : s.handle = none) (he : e.fault = none) :
    (s.step L e).handle = none := by
  rw [step, he]
  split
  · rw [prune_none]
  · simp [append, hs]

theorem handle_run {es : List RecordEvent} (hs : s.handle = none) (hes : ∀ e ∈ es, e.fault = none) :
    (s.run L es).handle = none := by
  induction es generalizing s with
  | nil => exact hs
  | cons e es ih =>
    exact ih (handle_step hs (hes e List.mem_cons_self)) fun f hf => hes f (List.mem_cons_of_mem _ hf)

theorem mem_acknowledged {e : RecordEvent} (he : e.fault = none) (es : List RecordEvent) :
    e.path.1 ∈ s.acknowledged L (e :: es) := by
  have hok : s.Acknowledges L e := fun _ => he
  simp [acknowledged, hok]

/-- The base of a prune whose log was not swapped counts the dropped records twice. The next
record swaps the log, and as many records as were dropped go unnoticed. -/
theorem Tracks.misnumbered (hs : Tracks L s b h n m k c) (hhandle : s.handle = none)
    (hprunes : s.st.needsPrune L s.disk.toJournalDir = true) (p : {p : Bytes // 0 ∉ p ∧ p ≠ []})
    (hash : UInt64) : ∃ after, (∀ e ∈ after, e.fault = none) ∧
      ¬ (s.prune L (some .renameLog)).Honours hash L after := by
  obtain ⟨rfl, rfl⟩ := hs.attached hhandle
  obtain rfl : c = h.length := le_antisymm hs.label hs.last
  have hdropped := hs.dropped
  simp only [State.needsPrune, Bool.and_eq_true, Bool.or_eq_true, decide_eq_true_eq] at hprunes
  obtain ⟨htrigger, hfull⟩ := hprunes
  have hpaths : s.st.paths.length = h.length - m := by rw [hs.window, List.length_drop]
  have hwindow := pruned_window hs.dropped hs.window hfull
  obtain ⟨i, hi⟩ := Nat.exists_eq_add_of_lt (show L.keepMin < h.length - m by omega)
  -- `i + 1` records are dropped, and so many follow
  let e : RecordEvent := ⟨p, none⟩
  have hfaultless : ∀ f ∈ e :: List.replicate i e, f.fault = none := by
    intro f hf
    rcases List.mem_cons.mp hf with rfl | hf
    · rfl
    · rw [List.eq_of_mem_replicate hf]
  have hrest : ∀ f ∈ List.replicate i e, f.fault = none := fun f hf => hfaultless f (List.mem_cons_of_mem _ hf)
  refine ⟨e :: List.replicate i e, hfaultless, fun hh => ?_⟩
  have hprune := prune_renameLog (L := L) s
  rw [hhandle] at hprune
  generalize s.prune L (some .renameLog) = t at hh hprune
  have hread : t.disk.readLog = h.drop m := by
    rw [hprune]
    show s.disk.readLog = _
    rw [hs.log, List.take_length]
  have hbase : t.disk.readBase = b + (h.length - L.keepMin) := by
    rw [hprune]
    show ((s.disk.stageLog (s.st.pruned L).paths).writeU64Atomic (s.st.pruned L).base).readBase = _
    rw [JournalDir.readBase_writeU64Atomic, hwindow]
  have hlog : t.disk.log = s.disk.log := by rw [hprune]; rfl
  have hseq : t.disk.readBase + t.disk.readLog.length = b + (h.length + (i + 1)) := by
    rw [hread, hbase, List.length_drop]
    omega
  have hmiss := hh [] p.1 (mem_acknowledged rfl _)
  rw [hook_token (by rw [hlog]; exact hs.present), hseq] at hmiss
  have happ : (t.append p.1).st = ⟨(h ++ [p.1]).drop m, b + m⟩ := by
    rw [hprune]
    show s.st.push p.1 = _
    rw [State.push, hs.window, List.drop_append_of_le_length hdropped]
  have hlonger : (t.append p.1).st.paths.length = s.st.paths.length + 1 := by
    rw [happ, hs.window, List.drop_append_of_le_length hdropped, List.length_append]
    rfl
  have hstep : t.step L e = (t.append p.1).prune L none := by
    refine if_pos ?_
    have hbytes : s.disk.logBytes ≤ (t.append p.1).disk.logBytes := by
      rw [hprune]
      show _ ≤ ((some ((some ((s.disk.log).getD [] ++ p.1)).getD [] ++ [0])).getD []).length
      simp only [Option.getD_some, List.length_append, JournalDir.logBytes]
      omega
    simp only [Prunes, State.needsPrune, Bool.and_eq_true, Bool.or_eq_true, decide_eq_true_eq]
    show (L.keepMax < (t.append p.1).st.paths.length ∨ L.logByteCap < (t.append p.1).disk.logBytes) ∧
      L.keepMin < (t.append p.1).st.paths.length
    omega
  have hfin : Tracks L (t.step L e) b (h ++ [p.1]) _ _ _ _ := hstep ▸ tracks_finished (s := t.append p.1)
    (nulFree_append hs.nulFree p) (by rw [List.length_append]; omega) happ (by omega)
  obtain ⟨n', m', k', c', hend, -, -⟩ := hfin.run (spared_of_faultless hrest)
  have hopen : ((t.step L e).run L (List.replicate i e)).handle = none :=
    handle_run (by rw [hstep, prune_none]) hrest
  obtain ⟨rfl, rfl⟩ := hend.attached hopen
  have hcount := hend.count
  rw [le_antisymm hend.label hend.last] at hcount
  refine hook_current _ hash hend.present (hcount.trans ?_) p.1 hmiss
  simp [paths]

/-- A handle that could not be opened again takes the next record away. -/
theorem swallowed (hfull : s.st.paths.length < L.keepMax)
    (hcap : (RecordLog.encode 0 (s.st.pruned L).paths).length ≤ L.logByteCap)
    (p : {p : Bytes // 0 ∉ p ∧ p ≠ []}) (hash : UInt64) :
    ¬ (s.prune L (some .reopenLog)).Honours hash L [⟨p, none⟩] := by
  intro hh
  have hmiss := hh [] p.1 (mem_acknowledged rfl [])
  have hprune := prune_reopenLog (L := L) s
  generalize s.prune L (some .reopenLog) = t at hh hmiss hprune
  have hlog : t.disk.log = some (RecordLog.encode 0 (s.st.pruned L).paths) := by rw [hprune]; rfl
  have happ : (t.append p.1).st = s.st.push p.1 ∧ (t.append p.1).disk = t.disk := by
    rw [hprune]
    exact ⟨rfl, rfl⟩
  have hlonger : (s.st.push p.1).paths.length = s.st.paths.length + 1 := by simp [State.push]
  have hrun : t.run L [⟨p, none⟩] = t.append p.1 := by
    refine if_neg ?_
    have hbytes : (t.append p.1).disk.logBytes = (RecordLog.encode 0 (s.st.pruned L).paths).length := by
      rw [happ.2, JournalDir.logBytes, hlog]
      rfl
    simp only [Prunes, State.needsPrune, Bool.and_eq_true, Bool.or_eq_true, decide_eq_true_eq, happ.1, hbytes]
    omega
  rw [hrun, hook_token (by rw [hlog]; exact Option.some_ne_none _)] at hmiss
  refine hook_current (t.append p.1) hash ?_ ?_ p.1 hmiss
  · rw [happ.2, hlog]
    exact Option.some_ne_none _
  · rw [happ.2]

theorem Tracks.unspared (hs : Tracks L s b h n m k c) {e : RecordEvent} (he : ¬ s.Spares L e)
    (hash : UInt64) : ∃ after, (∀ f ∈ after, f.fault = none) ∧ ¬ (s.step L e).Honours hash L after := by
  simp only [Spares, Classical.not_imp, not_and_or] at he
  obtain ⟨hp, ⟨hfault, hhandle⟩ | ⟨hfault, hsure⟩⟩ := he
  · have hstep : s.step L e = (s.append e.path).prune L (some .renameLog) := by
      rw [Recorder.step, if_pos hp, hfault]
    obtain ⟨k', c', hs', -⟩ := hs.append e.path
    rw [hstep]
    have hnone : s.handle = none := not_not.mp hhandle
    exact hs'.misnumbered (by simp [Recorder.append, hnone]) hp e.path hash
  · have hstep : s.step L e = (s.append e.path).prune L (some .reopenLog) := by
      rw [Recorder.step, if_pos hp, hfault]
    simp only [not_or, not_le, not_lt] at hsure
    rw [hstep]
    refine ⟨[⟨e.path, none⟩], fun f hf => ?_, swallowed hsure.1 hsure.2 e.path hash⟩
    rw [List.mem_singleton.mp hf]

end Recorder

/-- The journal is opened on files without a torn record, and any of its prunes may stop at an
operation that fails. While no step drops the rename of a log that the handle still names, or a
handle whose records no later prune rewrites, every hook token is honoured; and behind the first
such step one is not, though nothing fails any more. -/
theorem prune_errors_honoured (hash : UInt64) (L : Limits) {d : JournalDisk}
    (hd : RecordLog.AtBoundary 0 (d.log.getD [])) :
    (∀ before after, Recorder.Spared L (.opened d) (before ++ after) →
      ((Recorder.opened d).run L before).Honours hash L after) ∧
    ∀ before e, Recorder.Spared L (.opened d) before → ¬ ((Recorder.opened d).run L before).Spares L e →
      ∃ after, (∀ f ∈ after, f.fault = none) ∧
        ¬ ((Recorder.opened d).run L (before ++ [e])).Honours hash L after := by
  have hopened := Recorder.tracks_opened (L := L) hd
  refine ⟨fun before after hspared => ?_, fun before e hspared he => ?_⟩
  · obtain ⟨hbefore, hafter⟩ := Recorder.spared_append.mp hspared
    obtain ⟨n, m, k, c, htracks, -, -⟩ := hopened.run hbefore
    exact htracks.honours hafter hash
  · obtain ⟨n, m, k, c, htracks, -, -⟩ := hopened.run hspared
    have hrun : (Recorder.opened d).run L (before ++ [e]) = ((Recorder.opened d).run L before).step L e :=
      List.foldl_append
    rw [hrun]
    exact htracks.unspared he hash

def recordOf (c : UInt8) (fault : Option PruneFault := none) (h : 0 ∉ [c] ∧ [c] ≠ [] := by decide) : RecordEvent :=
  ⟨⟨[c], h⟩, fault⟩

/-- The prunes of two records meet a full disk and a handle that does not open; both are excused. -/
theorem prune_errors_honoured_faults :
    ((Recorder.opened ⟨.empty, none⟩).run smallLimits
      [recordOf 97, recordOf 98, recordOf 99 (some (.stage 1 0))]).Honours
      0 smallLimits [recordOf 100 (some .reopenLog), recordOf 101] :=
  (prune_errors_honoured 0 smallLimits (d := ⟨.empty, none⟩) (.inl rfl)).1 _ _ (by decide +kernel)

/-- The rename of the log fails in the prune of the third record. The next record prunes again, and
the one behind it is not reported to the hook that asked in between. -/
theorem failed_log_rename_hides_record :
    let s := (Recorder.opened ⟨.empty, none⟩).run smallLimits
      [recordOf 97, recordOf 98, recordOf 99 (some .renameLog)]
    let t := s.run smallLimits [recordOf 100, recordOf 101]
    [101] ∈ s.acknowledged smallLimits [recordOf 100, recordOf 101] ∧
      ¬ (t.hook 0 (s.hook 0 []).token.encode).Reports [101] := by
  decide +kernel

end LazyMount
