import LazyMount.Gitfile
import LazyMount.Sgrep
import LazyMount.WorkingTree

/-! The local-edits overlay of sgrep: hits of a remote index in changed files give way to those of a
local search, so that the result is that of the working tree. -/

namespace LazyMount

open RepoPath Prog Handler Transition

/-- A repo-relative path, a line number from 1 on, and the line. -/
structure Match where
  path : Bytes
  line : Nat
  text : Text
deriving DecidableEq

/-- Absolute, or with a parent component. -/
def escapesBase (p : Bytes) : Bool := p.head? = some slash || (p.splitOn slash).contains [dot, dot]

/-- `String::from_utf8_lossy` -/
def lossyText (bytes : Bytes) : Text := (Utf8.decode (Utf8.lossy bytes)).getD []

/-- The matching lines of one file. -/
def matchesIn (isMatch : Text → Bool) (path bytes : Bytes) : List Match :=
  (lossyText bytes).lines.zipIdx.filterMap fun (line, i) =>
    if isMatch line then some ⟨path, i + 1, line⟩ else none

/-- `grep_local`; `read` is the content of a file that can be read. -/
def grepLocal (read : Bytes → Option Bytes) (base : Bytes) (paths : List Bytes)
    (isMatch : Text → Bool) : List Match :=
  paths.flatMap fun p =>
    if escapesBase p then []
    else
      match read (joinPath base p) with
      | some bytes => matchesIn isMatch p bytes
      | none => []

def apply (read : Bytes → Option Bytes) (remote : List Match) (base : Bytes) (changed : List Bytes)
    (isMatch : Text → Bool) : List Match :=
  (remote.filter (fun m => !changed.contains m.path) ++ grepLocal read base changed isMatch).eraseDups

variable {isMatch : Text → Bool} {path bytes base : Bytes} {m : Match}
  {read : Bytes → Option Bytes} {remote : List Match} {changed : List Bytes}

theorem lossyText_encode (t : Text) : lossyText (Utf8.encode t) = t := by
  rw [lossyText, Utf8.lossy_of_valid ⟨t, rfl⟩, Utf8.decode_encode]
  rfl

theorem path_of_mem_matchesIn (h : m ∈ matchesIn isMatch path bytes) : m.path = path := by
  obtain ⟨⟨line, i⟩, -, hm⟩ := List.mem_filterMap.mp h
  obtain ⟨-, heq⟩ := Option.ite_none_right_eq_some.mp hm
  rw [← Option.some.inj heq]

theorem mem_apply : m ∈ apply read remote base changed isMatch ↔ (m ∈ remote ∧ m.path ∉ changed) ∨
    ∃ p ∈ changed, escapesBase p = false ∧ ∃ bytes, read (joinPath base p) = some bytes ∧
      m ∈ matchesIn isMatch p bytes := by
  rw [apply, List.mem_eraseDups, List.mem_append, List.mem_filter, grepLocal, List.mem_flatMap]
  refine or_congr (and_congr_right fun _ => by simp) (exists_congr fun p => and_congr_right fun _ => ?_)
  cases escapesBase p with
  | true => simp
  | false =>
    cases read (joinPath base p) with
    | none => simp
    | some bytes => simp

theorem RepoPath.escapesBase (p : RepoPath) : escapesBase p.bytes = false := by
  rw [LazyMount.escapesBase, Bool.or_eq_false_iff]
  refine ⟨decide_eq_false p.head_ne_slash, ?_⟩
  rw [← Bool.not_eq_true, List.contains_iff_mem]
  intro hmem
  rcases p.valid with hnil | hvalid
  · rw [hnil] at hmem
    exact absurd hmem (by decide)
  · exact (hvalid _ hmem).2.2.2.2 rfl

/-- A file or a directory, for one who opens a path by name. -/
def Resolved.Plain : Resolved → Prop
  | .dir _ | .file _ _ => True
  | .symlink _ | .gitfile => False

namespace Projection

variable (P : Projection)

/-- Neither a symlink nor the `.git` file stands at the path or above it. -/
def Plain (ov : Overlay) (p : RepoPath) : Prop :=
  ∀ m, Under m p → ∀ r, P.resolve ov m = .ok (some r) → r.Plain

/-- The hits in the files of the working tree. -/
def TreeMatch (ov : Overlay) (isMatch : Text → Bool) (m : Match) : Prop :=
  ∃ q bytes, P.TreeFile ov q bytes ∧ m ∈ matchesIn isMatch q.bytes bytes

/-- Reading a path under the mount, where no symlink leads elsewhere, is reading a file of the working
tree. -/
def Serves (ov : Overlay) (read : Bytes → Option Bytes) (root : Bytes) : Prop :=
  ∀ p : RepoPath, p ≠ RepoPath.root → P.Plain ov p → ∀ bytes,
    read (joinPath root p.bytes) = some bytes ↔ P.TreeFile ov p bytes

variable {P} {u w : World} {ps : List RepoPath} {ov : Overlay} {q : RepoPath} {bytes bytes' : Bytes}

theorem TreeFile.plain (h : P.TreeFile ov q bytes) : P.Plain ov q := by
  obtain ⟨hreach, source, x, hfile⟩ := h.fileAt
  intro m hm r hr
  by_cases hne : m = q
  · rw [hne, hfile] at hr
    cases hr
    trivial
  · obtain ⟨bt, hbt⟩ := hreach m (under_root m) hm hne
    rw [hbt] at hr
    cases hr
    trivial

theorem TreeFile.unique (h : P.TreeFile ov q bytes) (h' : P.TreeFile ov q bytes') : bytes = bytes' := by
  obtain ⟨-, -, x, hv⟩ := h
  obtain ⟨-, -, y, hv'⟩ := h'
  cases Except.ok.inj (hv.symm.trans hv')
  rfl

/-- What sgrep reads of a journal that has dropped nothing. -/
theorem changedPaths_unpruned {pid : Nat}
    (h : World.Appended P.limits (World.journaledFresh pid) w (ps.map RepoPath.bytes))
    (hbase : w.journal.map (·.1.base) = some 0) (hlog : w.journalDir.log = some bytes)
    (hutf : ∀ r ∈ w.journalDir.readLog, Utf8.Valid r) :
    (∀ p ∈ ps, p ≠ root → p.bytes ∈ w.journalDir.readLog) ∧
      ∀ path, path ∈ changedPaths bytes ↔ ∃ p ∈ ps, p ≠ root ∧ p.bytes = path := by
  obtain ⟨st, dir, es, hj, hrun, hes⟩ := h _ _ rfl
  have htracks := Serve.tracks_run Serve.tracks_start hrun
  have hdir : w.journalDir = dir := by rw [World.journalDir, hj]; rfl
  have hzero : st.base = 0 := by
    rw [hj] at hbase
    exact Option.some.inj hbase
  have hread : dir.readLog = (ps.map RepoPath.bytes).filter (· ≠ []) := by
    have hwindow := htracks.readLog
    rw [List.nil_append, hes] at hwindow
    simp only [hzero, SlidingWindow.window, List.drop_zero] at hwindow
    exact hwindow
  have hmem : ∀ path, path ∈ dir.readLog ↔ ∃ p ∈ ps, p ≠ root ∧ p.bytes = path := by
    intro path
    rw [hread, List.mem_filter, List.mem_map]
    constructor
    · rintro ⟨⟨p, hp, rfl⟩, hne⟩
      refine ⟨p, hp, ?_, rfl⟩
      rintro rfl
      exact (of_decide_eq_true hne) rfl
    · rintro ⟨p, hp, hne, rfl⟩
      exact ⟨⟨p, hp, rfl⟩, decide_eq_true (bytes_ne_nil hne)⟩
  rw [hdir] at hlog hutf ⊢
  have hdecode : RecordLog.decode 0 bytes = dir.readLog := by rw [JournalDir.readLog, hlog]; rfl
  refine ⟨fun p hp hne => (hmem _).mpr ⟨p, hp, hne, rfl⟩, fun path => ?_⟩
  rw [mem_changedPaths, hdecode, ← hmem]
  constructor
  · rintro ⟨r, hr, rfl⟩
    rwa [Utf8.lossy_of_valid (hutf r hr)]
  · intro hpath
    exact ⟨path, hpath, Utf8.lossy_of_valid (hutf path hpath)⟩

end Projection

/-- From a fresh mount with a journal, through calls that neither remove nor move nor replace a
directory with files, what sgrep merges is what the working tree has, unless a recorded path is a symlink
or lies beneath one and can be read. -/
theorem sgrep_matches_working_tree (P : Projection) {pid : Nat} {edits : List Edit} {w : World}
    (hrun : Trace (Edit.ClearStep P) (World.journaledFresh pid) edits w)
    (hbase : w.journal.map (·.1.base) = some 0) (hutf : ∀ r ∈ w.journalDir.readLog, Utf8.Valid r)
    {read : Bytes → Option Bytes} {root : Bytes} {gitdir : Text}
    (hmount : OnMount read root gitdir w.journalDir.log) (hserves : P.Serves w.overlay read root)
    (hplain : ∀ p : RepoPath, p.bytes ∈ w.journalDir.readLog →
      P.Plain w.overlay p ∨ read (joinPath root p.bytes) = none)
    {isMatch : Text → Bool} {remote : List Match}
    (hremote : ∀ m, m ∈ remote ↔ P.TreeMatch (Overlay.fresh pid) isMatch m) :
    ∃ changed, glmChanged read root = some changed ∧
      ∀ m, m ∈ apply read remote root changed isMatch ↔ P.TreeMatch w.overlay isMatch m := by
  obtain ⟨ps, hps⟩ := Projection.recounts_run hrun rfl
  obtain ⟨bytes, hlog⟩ : ∃ bytes, w.journalDir.log = some bytes := by
    obtain ⟨st, dir, es, hj, hes, -⟩ := hps.appended _ _ rfl
    have hdir : w.journalDir = dir := by rw [World.journalDir, hj]; rfl
    rw [hdir]
    exact ⟨_, (Serve.tracks_run Serve.tracks_start hes).log⟩
  obtain ⟨hlogged, hchanged⟩ := Projection.changedPaths_unpruned hps.appended hbase hlog hutf
  rw [hlog] at hmount
  refine ⟨_, hmount.glmChanged, fun m => ?_⟩
  rw [mem_apply]
  constructor
  · rintro (⟨hm, hpath⟩ | ⟨p, hp, -, bytes', hread, hm⟩)
    · -- a hit of the index in a file that no record names
      obtain ⟨q, bs, hq, hmq⟩ := (hremote m).mp hm
      refine ⟨q, bs, (Projection.treeFile_unrecorded hps fun hmem => hpath ?_).mpr hq, hmq⟩
      exact (hchanged _).mpr ⟨q, hmem, hq.1.1, (path_of_mem_matchesIn hmq).symm⟩
    · -- a hit of the local search
      obtain ⟨q, hmem, hne, rfl⟩ := (hchanged p).mp hp
      have hpl : P.Plain w.overlay q := by
        refine (hplain q (hlogged q hmem hne)).resolve_right fun hnone => ?_
        rw [hread] at hnone
        cases hnone
      exact ⟨q, bytes', (hserves q hne hpl bytes').mp hread, hm⟩
  · rintro ⟨q, bs, hq, hmq⟩
    have hpath := path_of_mem_matchesIn hmq
    by_cases hmem : q ∈ ps
    · refine .inr ⟨q.bytes, (hchanged _).mpr ⟨q, hmem, hq.1.1, rfl⟩, q.escapesBase, bs, ?_, hmq⟩
      exact (hserves q hq.1.1 hq.plain bs).mpr hq
    · refine .inl ⟨(hremote m).mpr ⟨q, bs, (Projection.treeFile_unrecorded hps hmem).mp hq, hmq⟩, fun hin => ?_⟩
      obtain ⟨q', hmem', -, hbytes⟩ := (hchanged _).mp hin
      have heq : q' = q := by
        cases q
        cases q'
        simp_all
      exact hmem (heq ▸ hmem')

/-! A mount whose readers find what the overlay shows. -/

open Classical in
/-- The files of a mount that are no files of its working tree, and those that are. -/
noncomputable def treeFiles (P : Projection) (ov : Overlay) (root : Bytes) (gitdir : Text)
    (log : Option Bytes) (path : Bytes) : Option Bytes :=
  if h : ∃ (p : RepoPath) (bytes : Bytes), path = joinPath root p.bytes ∧ P.TreeFile ov p bytes then
    some h.choose_spec.choose
  else mountFiles root gitdir log path

theorem joinPath_mount (p : RepoPath) : joinPath (ascii "/w") p.bytes = ascii "/w" ++ slash :: p.bytes := by
  rw [joinPath, if_neg (not_or.mpr ⟨p.head_ne_slash, by decide⟩), if_neg (by decide)]

theorem joinPath_mount_inj {p q : RepoPath}
    (h : joinPath (ascii "/w") p.bytes = joinPath (ascii "/w") q.bytes) : p = q := by
  rw [joinPath_mount, joinPath_mount] at h
  have hbytes : p.bytes = q.bytes := by simpa using h
  cases p
  cases q
  simp_all

theorem journal_not_beneath (p : RepoPath) : joinPath (ascii "/w") p.bytes ≠
    joinPath (journalDir (Utf8.encode "/g".toList)) (ascii "changes.log") := by
  intro h
  rw [joinPath_mount] at h
  have hhead := congrArg (fun l : Bytes => l[1]?) h
  exact absurd hhead (by
    rw [List.getElem?_append_left (by decide)]
    decide)

theorem gitfile_of_joinPath {p : RepoPath}
    (h : joinPath (ascii "/w") p.bytes = joinPath (ascii "/w") (ascii ".git")) : p = gitfilePath :=
  joinPath_mount_inj h

theorem treeFiles_of_none {P : Projection} {ov : Overlay} {log : Option Bytes} {path : Bytes}
    (h : ∀ (p : RepoPath) bytes, path = joinPath (ascii "/w") p.bytes → ¬ P.TreeFile ov p bytes) :
    treeFiles P ov (ascii "/w") "/g".toList log path = mountFiles (ascii "/w") "/g".toList log path := by
  rw [treeFiles, dif_neg]
  rintro ⟨p, bytes, hp, hfile⟩
  exact h p bytes hp hfile

theorem serves_treeFiles (P : Projection) (ov : Overlay) (log : Option Bytes) :
    P.Serves ov (treeFiles P ov (ascii "/w") "/g".toList log) (ascii "/w") := by
  intro p hp hplain bytes
  by_cases h : ∃ bytes', P.TreeFile ov p bytes'
  · obtain ⟨bytes', hfile⟩ := h
    have hex : ∃ (q : RepoPath) (bs : Bytes), joinPath (ascii "/w") p.bytes = joinPath (ascii "/w") q.bytes ∧
        P.TreeFile ov q bs := ⟨p, bytes', rfl, hfile⟩
    have hsame : ∀ (q : RepoPath) (bs : Bytes), joinPath (ascii "/w") p.bytes = joinPath (ascii "/w") q.bytes →
        P.TreeFile ov q bs → P.TreeFile ov p bs := by
      intro q bs hq hf
      rwa [joinPath_mount_inj hq]
    have hspec := hex.choose_spec.choose_spec
    have hchosen := hsame _ _ hspec.1 hspec.2
    rw [treeFiles, dif_pos hex, Option.some.injEq]
    constructor
    · rintro rfl
      exact hchosen
    · exact fun hb => hchosen.unique hb
  · have hnone : ¬ P.TreeFile ov p bytes := fun hfile => h ⟨bytes, hfile⟩
    have hother : ∀ (q : RepoPath) bs, joinPath (ascii "/w") p.bytes = joinPath (ascii "/w") q.bytes →
        ¬ P.TreeFile ov q bs := by
      intro q bs hq hfile
      rw [← joinPath_mount_inj hq] at hfile
      exact h ⟨bs, hfile⟩
    rw [treeFiles_of_none hother, mountFiles,
      if_neg fun heq => ?_, if_neg (journal_not_beneath p)]
    · simp [hnone]
    · rw [gitfile_of_joinPath heq] at hplain
      exact hplain gitfilePath (.refl _) .gitfile (Projection.resolve_gitfile ov)

theorem onMount_treeFiles (P : Projection) (ov : Overlay) (log : Option Bytes) :
    OnMount (treeFiles P ov (ascii "/w") "/g".toList log) (ascii "/w") "/g".toList log := by
  have hmount := onMount_mountFiles log
  refine ⟨?_, ?_, hmount.absolute, hmount.oneLine, hmount.trimmed⟩
  · rw [treeFiles_of_none fun p bytes hp hfile => ?_]
    · exact hmount.gitfile
    · exact not_ordinary_gitfilePath (gitfile_of_joinPath hp.symm ▸ hfile.1)
  · rw [treeFiles_of_none fun p bytes hp _ => journal_not_beneath p hp.symm]
    exact hmount.log

/-- The path `d/f`. -/
def nested : RepoPath := ofComponents [[100], [102]] (by decide)

theorem under_letter {m : RepoPath} {b : UInt8} {hb : ValidComponent [b]} (h : Under m (letter b hb)) :
    m = letter b hb ∨ m = root := by
  have hchild : Child root [b] (letter b hb) := components_ofComponents _ _
  exact ((under_child_iff hchild).mp h).imp_right eq_root_of_under

theorem walk_smallStore {cs : List Bytes} {source : FileSource} {x : Bool}
    (h : smallStore.walk ⟨[1]⟩ cs = .ok (some (.file source x))) : cs = [[97]] ∨ cs = [[100], [102]] := by
  have hread : smallStore.readTree ⟨[1]⟩ =
      .ok [⟨[97], .regular, ⟨[3]⟩⟩, ⟨[100], .tree, ⟨[2]⟩⟩] := rfl
  have hread' : smallStore.readTree ⟨[2]⟩ = .ok [⟨[102], .regular, ⟨[3]⟩⟩] := rfl
  cases cs with
  | nil => cases h
  | cons c rest =>
    by_cases ha : c = [97]
    · subst ha
      cases rest with
      | nil => exact .inl rfl
      | cons => simp [GitStore.walk, hread] at h
    · by_cases hd : c = [100]
      · subst hd
        cases rest with
        | nil => simp [GitStore.walk, hread] at h
        | cons c' rest =>
          by_cases hf : c' = [102]
          · subst hf
            cases rest with
            | nil => exact .inr rfl
            | cons => simp [GitStore.walk, hread, hread'] at h
          · simp [GitStore.walk, hread, hread', Ne.symm hf] at h
      · simp [GitStore.walk, hread, Ne.symm ha, Ne.symm hd] at h

theorem treeFile_small {pid : Nat} {q : RepoPath} {bytes : Bytes} :
    smallProjection.TreeFile (Overlay.fresh pid) q bytes ↔ (q = letter 97 ∨ q = nested) ∧ bytes = [120] := by
  constructor
  · intro h
    obtain ⟨-, source, x, hr⟩ := h.fileAt
    rw [Projection.resolve_fresh pid h.1] at hr
    obtain ⟨-, -, y, hv⟩ := h
    rcases walk_smallStore hr with hq | hq
    · obtain rfl : q = letter 97 := ext_components hq
      cases hv
      exact ⟨.inl rfl, rfl⟩
    · obtain rfl : q = nested := ext_components hq
      cases hv
      exact ⟨.inr rfl, rfl⟩
  · have hroot : ∃ bt, smallProjection.resolve (Overlay.fresh pid) root = .ok (some (.dir bt)) := ⟨_, rfl⟩
    have hdir : ∃ bt, smallProjection.resolve (Overlay.fresh pid) (letter 100) = .ok (some (.dir bt)) :=
      ⟨_, rfl⟩
    rintro ⟨rfl | rfl, rfl⟩
    · refine ⟨⟨by decide, by decide⟩, fun m _ hm hne => ?_, false, rfl⟩
      rw [(under_letter hm).resolve_left hne]
      exact hroot
    · refine ⟨⟨by decide, by decide⟩, fun m _ hm hne => ?_, false, rfl⟩
      have hchild : Child (letter 100) [102] nested := components_ofComponents _ _
      have hm' : Under m (letter 100) := ((under_child_iff hchild).mp hm).resolve_left hne
      rcases under_letter hm' with rfl | rfl
      · exact hdir
      · exact hroot

/-- What the index has of the two files, each of which is the line `x`. -/
def indexHits : List Match := [⟨[97], 1, ['x']⟩, ⟨[100, 47, 102], 1, ['x']⟩]

theorem matchesIn_x (path : Bytes) : matchesIn (fun _ => true) path [120] = [⟨path, 1, ['x']⟩] := by
  have htext : lossyText [120] = ['x'] := lossyText_encode ['x']
  rw [matchesIn, htext]
  rfl

theorem mem_indexHits {pid : Nat} {m : Match} :
    m ∈ indexHits ↔ smallProjection.TreeMatch (Overlay.fresh pid) (fun _ => true) m := by
  constructor
  · intro h
    rcases List.mem_pair.mp h with rfl | rfl
    · refine ⟨letter 97, [120], treeFile_small.mpr ⟨.inl rfl, rfl⟩, ?_⟩
      rw [matchesIn_x]
      exact List.mem_singleton.mpr rfl
    · refine ⟨nested, [120], treeFile_small.mpr ⟨.inr rfl, rfl⟩, ?_⟩
      rw [matchesIn_x]
      exact List.mem_singleton.mpr rfl
  · rintro ⟨q, bytes, hq, hm⟩
    obtain ⟨rfl | rfl, rfl⟩ := treeFile_small.mp hq
    · rw [matchesIn_x, List.mem_singleton] at hm
      exact hm ▸ List.mem_cons_self
    · rw [matchesIn_x, List.mem_singleton] at hm
      exact hm ▸ List.mem_cons_of_mem _ List.mem_cons_self

/-- A mount of the small tree after one call, and a reader of it. -/
noncomputable def edited (op : Op) : World := ((op.handler smallProjection 3).run (World.journaledFresh 7)).2

noncomputable def readEdited (op : Op) : Bytes → Option Bytes :=
  treeFiles smallProjection (edited op).overlay (ascii "/w") "/g".toList (edited op).journalDir.log

/-- `a` is removed. -/
theorem sgrep_matches_working_tree_unlinked :
    let op : Op := .unlink rootIno [97]
    ∃ changed, glmChanged (readEdited op) (ascii "/w") = some changed ∧
      ∀ m, m ∈ apply (readEdited op) indexHits (ascii "/w") changed (fun _ => true) ↔
        smallProjection.TreeMatch (edited op).overlay (fun _ => true) m := by
  intro op
  have hlog : (edited op).journalDir.readLog = [[97]] := by decide +kernel
  have hpath : (World.journaledFresh 7).pathOf rootIno = .ok root := rfl
  have hstep : Edit.ClearStep smallProjection (World.journaledFresh 7) (.call op) (edited op) := by
    refine ⟨fun p hn => ?_, 3, .unit, Prod.ext (by decide +kernel) rfl⟩
    obtain rfl := names_eq (p := letter 97) hpath rfl hn
    exact Projection.not_holds fun bt hbt => by cases hbt
  refine sgrep_matches_working_tree smallProjection (.cons hstep (.nil _)) (by decide +kernel)
    (fun r hr => ?_) (onMount_treeFiles _ _ _) (serves_treeFiles _ _ _) (fun p hp => .inl ?_)
    fun m => mem_indexHits
  · rw [hlog, List.mem_singleton] at hr
    exact ⟨['a'], hr⟩
  · rw [hlog, List.mem_singleton] at hp
    obtain rfl : p = letter 97 := by
      cases p
      subst hp
      rfl
    intro m hm r hr
    rcases under_letter hm with rfl | rfl
    · have hnone : smallProjection.resolve (edited op).overlay (letter 97) = .ok none := by decide +kernel
      rw [hnone] at hr
      cases hr
    · cases hr
      trivial

/-- The path `e/f`. -/
def moved : RepoPath := ofComponents [[101], [102]] (by decide)

/-- `rename d e`: the hit of the index in `d/f` stays, and the one in `e/f` is missing. -/
theorem sgrep_keeps_moved_file :
    let op : Op := .rename rootIno [100] rootIno [101] 0
    Edit.Step smallProjection (World.journaledFresh 7) (.call op) (edited op) ∧
      (edited op).journal.map (·.1.base) = some 0 ∧ (∀ r ∈ (edited op).journalDir.readLog, Utf8.Valid r) ∧
      OnMount (readEdited op) (ascii "/w") "/g".toList (edited op).journalDir.log ∧
      smallProjection.Serves (edited op).overlay (readEdited op) (ascii "/w") ∧
      (∀ m, m ∈ indexHits ↔ smallProjection.TreeMatch (Overlay.fresh 7) (fun _ => true) m) ∧
      ∃ changed, glmChanged (readEdited op) (ascii "/w") = some changed ∧
        (⟨[100, 47, 102], 1, ['x']⟩ ∈ apply (readEdited op) indexHits (ascii "/w") changed (fun _ => true) ∧
          ¬ smallProjection.TreeMatch (edited op).overlay (fun _ => true) ⟨[100, 47, 102], 1, ['x']⟩) ∧
        ⟨[101, 47, 102], 1, ['x']⟩ ∉ apply (readEdited op) indexHits (ascii "/w") changed (fun _ => true) ∧
          smallProjection.TreeMatch (edited op).overlay (fun _ => true) ⟨[101, 47, 102], 1, ['x']⟩ := by
  intro op
  have hlog : (edited op).journalDir.log = some [100, 0, 101, 0] := by decide +kernel
  have hread : RecordLog.decode 0 [100, 0, 101, 0] = ([[100], [101]] : List Bytes) := by decide
  have hutf : ∀ r ∈ ([[100], [101]] : List Bytes), Utf8.Valid r := by
    intro r hr
    rcases List.mem_pair.mp hr with rfl | rfl
    · exact ⟨['d'], rfl⟩
    · exact ⟨['e'], rfl⟩
  have hmount := onMount_treeFiles smallProjection (edited op).overlay (edited op).journalDir.log
  have hserves := serves_treeFiles smallProjection (edited op).overlay (edited op).journalDir.log
  have hunchanged : ∀ path, path ∉ ([[100], [101]] : List Bytes) → path ∉ changedPaths [100, 0, 101, 0] := by
    intro path hpath hmem
    obtain ⟨r, hr, rfl⟩ := mem_changedPaths.mp hmem
    rw [hread] at hr
    rw [Utf8.lossy_of_valid (hutf r hr)] at hpath
    exact hpath hr
  have hgone : smallProjection.resolve (edited op).overlay nested = .ok none := by decide +kernel
  refine ⟨⟨3, .unit, Prod.ext (by decide +kernel) rfl⟩, by decide +kernel, ?_, hmount, hserves,
    fun m => mem_indexHits, changedPaths [100, 0, 101, 0], ?_, ⟨?_, ?_⟩, ?_, ?_⟩
  · rwa [JournalDir.readLog, hlog, Option.getD_some, hread]
  · rw [hlog] at hmount
    exact OnMount.glmChanged (hlog ▸ hmount)
  · exact mem_apply.mpr (.inl ⟨by decide, hunchanged _ (by decide)⟩)
  · rintro ⟨q, bytes, hq, hm⟩
    have hpath : [100, 47, 102] = q.bytes := path_of_mem_matchesIn hm
    obtain rfl : q = nested := by
      cases q
      subst hpath
      rfl
    obtain ⟨-, source, x, hfile⟩ := hq.fileAt
    rw [hgone] at hfile
    cases hfile
  · intro hm
    rcases mem_apply.mp hm with ⟨hin, -⟩ | ⟨p, hp, -, bytes, -, hlocal⟩
    · exact absurd hin (by decide)
    · have hpath : [101, 47, 102] = p := path_of_mem_matchesIn hlocal
      exact hunchanged p (hpath ▸ by decide) hp
  · have hchild : Child (letter 101) [102] moved := components_ofComponents _ _
    refine ⟨moved, [120], ⟨⟨by decide, by decide⟩, fun m _ hm hne => ?_, false, by decide +kernel⟩, ?_⟩
    · rcases under_letter (((under_child_iff hchild).mp hm).resolve_left hne) with rfl | rfl
      · exact ⟨none, by decide +kernel⟩
      · exact ⟨_, rfl⟩
    · rw [matchesIn_x]
      exact List.mem_singleton.mpr rfl

end LazyMount
