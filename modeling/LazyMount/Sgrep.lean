import LazyMount.JournalHistory
import LazyMount.Lib.Utf8
import LazyMount.RepoPath

/-! The other reader of the journal: sgrep takes the set of files changed through a mount from
`changes.log` alone. -/

namespace LazyMount

namespace Text

/-- `char::is_whitespace`, the Unicode property White_Space. -/
def isWhitespace (c : Char) : Bool :=
  let n := c.toNat
  (0x9 ≤ n && n ≤ 0xD) || n == 0x20 || n == 0x85 || n == 0xA0 || n == 0x1680 ||
    (0x2000 ≤ n && n ≤ 0x200A) || n == 0x2028 || n == 0x2029 || n == 0x202F || n == 0x205F ||
    n == 0x3000

def trim (t : Text) : Text := ((t.dropWhile isWhitespace).reverse.dropWhile isWhitespace).reverse

def stripCr (t : Text) : Text := if t.getLast? = some '\r' then t.dropLast else t

/-- `str::lines`: a line ends in LF or CR LF, the last one perhaps in nothing. -/
def lines (t : Text) : List Text :=
  let pieces := t.splitOn '\n'
  pieces.dropLast.map stripCr ++ (pieces.getLast?.filter (· ≠ [])).toList

end Text

/-- `Path::join` -/
def joinPath (base rel : Bytes) : Bytes :=
  if rel.head? = some slash ∨ base = [] then rel
  else if base.getLast? = some slash then base ++ rel
  else base ++ slash :: rel

def journalDir (gitdir : Bytes) : Bytes := joinPath gitdir (ascii "glm-fsmonitor")

/-- `AdminRepo::synthetic_gitfile` -/
def syntheticGitfile (gitdir : Text) : Bytes :=
  Utf8.encode ("gitdir: ".toList ++ gitdir ++ ['\n'])

/-- `gitdir:` of the first line that has it. -/
def gitdirOf (gitfile : Text) : Option Text :=
  (gitfile.lines.findSome? ("gitdir:".toList.isPrefixOf? ·)).map Text.trim

/-- The non-empty pieces of the log, decoded, sorted and without duplicates. -/
def changedPaths (log : Bytes) : List Bytes :=
  sortDedup (((log.splitOn 0).filter (· ≠ [])).map Utf8.lossy)

/-- `glm_changed`; `read` is the content of a file that can be read. -/
def glmChanged (read : Bytes → Option Bytes) (root : Bytes) : Option (List Bytes) := do
  let gitfile ← (read (joinPath root (ascii ".git"))).bind Utf8.decode
  let raw ← gitdirOf gitfile
  let gitdir := if raw.head? = some '/' then Utf8.encode raw else joinPath root (Utf8.encode raw)
  let bytes ← read (joinPath (journalDir gitdir) (ascii "changes.log"))
  some (changedPaths bytes)

/-- What sgrep can read under a mount: the gitfile with the gitdir, an absolute path on one line,
and the log in it. -/
structure OnMount (read : Bytes → Option Bytes) (root : Bytes) (gitdir : Text) (log : Option Bytes) :
    Prop where
  gitfile : read (joinPath root (ascii ".git")) = some (syntheticGitfile gitdir)
  log : read (joinPath (journalDir (Utf8.encode gitdir)) (ascii "changes.log")) = log
  absolute : gitdir.head? = some '/'
  oneLine : '\n' ∉ gitdir
  trimmed : ∀ c, gitdir.getLast? = some c → Text.isWhitespace c = false

theorem Text.lines_of_oneLine {t : Text} (h : '\n' ∉ t) : Text.lines (t ++ ['\n']) = [stripCr t] := by
  have hsplit : (t ++ ['\n']).splitOn '\n' = [t, []] := by
    rw [List.splitOn_append_cons_self_of_not_mem h]
    rfl
  rw [Text.lines, hsplit]
  rfl

theorem Text.stripCr_of_getLast {t : Text} (h : t.getLast? ≠ some '\r') : stripCr t = t := if_neg h

theorem Text.trim_space_cons {t : Text} (hhead : ∀ c, t.head? = some c → isWhitespace c = false)
    (hlast : ∀ c, t.getLast? = some c → isWhitespace c = false) : trim (' ' :: t) = t := by
  have hleft : (' ' :: t).dropWhile isWhitespace = t := by
    rw [List.dropWhile_cons, if_pos (by decide)]
    cases t with
    | nil => rfl
    | cons c t => rw [List.dropWhile_cons, hhead c rfl]; rfl
  have hright : t.reverse.dropWhile isWhitespace = t.reverse := by
    rw [← List.head?_reverse] at hlast
    cases hr : t.reverse with
    | nil => rfl
    | cons c r =>
      rw [hr] at hlast
      rw [List.dropWhile_cons, hlast c rfl]
      rfl
  rw [trim, hleft, hright, List.reverse_reverse]

theorem OnMount.gitdirOf {read : Bytes → Option Bytes} {root : Bytes} {gitdir : Text}
    {log : Option Bytes} (h : OnMount read root gitdir log) :
    gitdirOf ("gitdir: ".toList ++ gitdir ++ ['\n']) = some gitdir := by
  have hne : gitdir ≠ [] := by
    intro hnil
    have habs := h.absolute
    rw [hnil] at habs
    cases habs
  have hline : '\n' ∉ "gitdir: ".toList ++ gitdir := by
    rw [List.mem_append, not_or]
    exact ⟨by decide, h.oneLine⟩
  have hlast : ("gitdir: ".toList ++ gitdir).getLast? ≠ some '\r' := by
    rw [List.getLast?_append_of_ne_nil _ hne]
    intro hcr
    have hws := h.trimmed '\r' hcr
    revert hws
    decide
  have htrim : Text.trim (' ' :: gitdir) = gitdir := by
    refine Text.trim_space_cons (fun c hc => ?_) h.trimmed
    rw [h.absolute] at hc
    injection hc with hc
    rw [← hc]
    decide
  rw [LazyMount.gitdirOf, Text.lines_of_oneLine hline, Text.stripCr_of_getLast hlast]
  show some (Text.trim (' ' :: gitdir)) = some gitdir
  rw [htrim]

theorem OnMount.glmChanged {read : Bytes → Option Bytes} {root : Bytes} {gitdir : Text}
    {bytes : Bytes} (h : OnMount read root gitdir (some bytes)) :
    glmChanged read root = some (changedPaths bytes) := by
  have hfile : (read (joinPath root (ascii ".git"))).bind Utf8.decode =
      some ("gitdir: ".toList ++ gitdir ++ ['\n']) := by
    rw [h.gitfile]
    exact Utf8.decode_encode _
  simp only [LazyMount.glmChanged, hfile, Option.bind_eq_bind, Option.bind_some, h.gitdirOf,
    if_pos h.absolute, h.log]

/-- The record of any path, the root's empty one as well, or an open. -/
def AppendEvent.Returns : AppendEvent → Prop
  | .recorded _ | .restart => True
  | .failed _ _ | .died _ _ => False

theorem AppendEvent.Returns.succeeds {es : List AppendEvent} (h : ∀ e ∈ es, e.Returns)
    (hne : [] ∉ history es) : ∀ e ∈ es, e.Succeeds := by
  intro e he
  cases e with
  | recorded p =>
    intro hp
    exact hne (List.mem_flatMap.mpr ⟨_, he, by simp [AppendEvent.path, hp]⟩)
  | restart => trivial
  | failed | died => exact h _ he

theorem mem_changedPaths {log p : Bytes} :
    p ∈ changedPaths log ↔ ∃ r ∈ RecordLog.decode 0 log, Utf8.lossy r = p := by
  rw [changedPaths, mem_sortDedup, List.mem_map]
  rfl

theorem nil_notMem_changedPaths (log : Bytes) : [] ∉ changedPaths log := by
  intro h
  obtain ⟨r, hr, hnil⟩ := mem_changedPaths.mp h
  exact Utf8.lossy_ne_nil (RecordLog.ne_nil_of_mem_decode 0 hr) hnil

namespace Journaled

variable {L : Limits} {s : Journaled}

theorem log_isSome_step (s : Journaled) (e : AppendEvent) : (s.step L e).dir.log.isSome := by
  cases e with
  | failed | died | restart => rfl
  | recorded p =>
    show (s.record L p).dir.log.isSome
    cases h : (s.st.push p).needsPrune L (s.dir.append p) with
    | true => rw [record_of_needsPrune h]; rfl
    | false => rw [record_of_not_needsPrune h]; rfl

theorem log_isSome_run (hs : s.dir.log.isSome) (es : List AppendEvent) :
    (s.run L es).dir.log.isSome := by
  induction es generalizing s with
  | nil => exact hs
  | cons e es ih => exact ih (log_isSome_step s e)

theorem paths_length_step {h : List Bytes} {e : AppendEvent} (hs : Windows L s h)
    (he : e.Succeeds) (hle : s.st.paths.length ≤ L.keepMax) :
    (s.step L e).st.paths.length ≤ L.keepMax := by
  have hlt := L.lt
  cases e with
  | failed | died => exact he.elim
  | restart =>
    show s.dir.readLog.length ≤ _
    rwa [hs.readLog]
  | recorded p =>
    show (s.record L p).st.paths.length ≤ _
    cases hn : (s.st.push p).needsPrune L (s.dir.append p) with
    | true =>
      rw [record_of_needsPrune hn]
      simp only [State.needsPrune, Bool.and_eq_true, decide_eq_true_eq] at hn
      simp only [State.pruned, State.dropN, List.length_drop]
      omega
    | false =>
      rw [record_of_not_needsPrune hn]
      simp only [State.needsPrune, Bool.and_eq_false_iff, Bool.or_eq_false_iff,
        decide_eq_false_iff_not] at hn
      show (s.st.push p).paths.length ≤ _
      omega

theorem paths_length_run {h : List Bytes} {es : List AppendEvent} (hs : Windows L s h)
    (hes : ∀ e ∈ es, e.Succeeds) (hle : s.st.paths.length ≤ L.keepMax) :
    (s.run L es).st.paths.length ≤ L.keepMax := by
  induction es generalizing s h with
  | nil => exact hle
  | cons e es ih =>
    have he := hes e List.mem_cons_self
    exact ih (windows_step hs he) (fun f hf => hes f (List.mem_cons_of_mem e hf))
      (paths_length_step hs he hle)

end Journaled

open Journaled in
/-- What sgrep misses is what the prunes so far have dropped for good, and the root. -/
theorem glm_changed_complete_iff {L : Limits} {es : List AppendEvent} (hes : ∀ e ∈ es, e.Returns)
    (hutf : ∀ p ∈ history es, Utf8.Valid p) {read : Bytes → Option Bytes} {root : Bytes}
    {gitdir : Text} (hm : OnMount read root gitdir (start.run L es).dir.log) :
    ∃ set, glmChanged read root = some set ∧
      ((∀ p ∈ history es, p ∈ set) ↔ [] ∉ history es ∧
        ∀ p ∈ (history es).take (start.run L es).st.base,
          p ∈ (history es).drop (start.run L es).st.base) := by
  obtain ⟨bytes, hlog⟩ := Option.isSome_iff_exists.mp
    (log_isSome_run (L := L) (s := start) rfl es)
  rw [hlog] at hm
  refine ⟨_, hm.glmChanged, ?_⟩
  by_cases hroot : [] ∈ history es
  · exact ⟨fun hall => (nil_notMem_changedPaths bytes (hall [] hroot)).elim,
      fun hcond => (hcond.1 hroot).elim⟩
  · have hw : Windows L (start.run L es) (history es) :=
      windows_run windows_start (AppendEvent.Returns.succeeds hes hroot)
    have hread : RecordLog.decode 0 bytes = (history es).drop (start.run L es).st.base := by
      rw [← hw.window, ← hw.readLog, JournalDir.readLog, hlog]
      rfl
    have hset : ∀ p, p ∈ changedPaths bytes ↔ p ∈ (history es).drop (start.run L es).st.base := by
      intro p
      rw [mem_changedPaths, hread]
      constructor
      · rintro ⟨r, hr, rfl⟩
        rwa [Utf8.lossy_of_valid (hutf r (List.mem_of_mem_drop hr))]
      · intro hp
        exact ⟨p, hp, Utf8.lossy_of_valid (hutf p (List.mem_of_mem_drop hp))⟩
    constructor
    · intro hall
      exact ⟨hroot, fun p hp => (hset p).mp (hall p (List.mem_of_mem_take hp))⟩
    · rintro ⟨-, hkept⟩ p hp
      rw [← List.take_append_drop (start.run L es).st.base (history es), List.mem_append] at hp
      rcases hp with hp | hp
      · exact (hset p).mpr (hkept p hp)
      · exact (hset p).mpr hp

/-- The files of a mount. -/
def mountFiles (root : Bytes) (gitdir : Text) (log : Option Bytes) (path : Bytes) : Option Bytes :=
  if path = joinPath root (ascii ".git") then some (syntheticGitfile gitdir)
  else if path = joinPath (journalDir (Utf8.encode gitdir)) (ascii "changes.log") then log
  else none

theorem onMount_mountFiles (log : Option Bytes) :
    OnMount (mountFiles (ascii "/w") "/g".toList log) (ascii "/w") "/g".toList log := by
  refine ⟨if_pos rfl, ?_, rfl, by decide, ?_⟩
  · rw [mountFiles, if_neg (by decide), if_pos rfl]
  · intro c hc
    injection hc with hc
    rw [← hc]
    decide

/-- The third record makes a prune drop the first two, and the fourth is the one that was missing then. -/
theorem glm_changed_complete_recorded_again :
    let es : List AppendEvent := [.recorded ⟨[97], by decide⟩, .recorded ⟨[98], by decide⟩,
      .recorded ⟨[97], by decide⟩, .recorded ⟨[98], by decide⟩]
    let s := Journaled.start.run smallLimits es
    s.st.base = 2 ∧ ∃ set, glmChanged (mountFiles (ascii "/w") "/g".toList s.dir.log) (ascii "/w") = some set ∧
      ∀ p ∈ [[97], [98]], p ∈ set := by
  intro es s
  have hutf : ∀ p ∈ history es, Utf8.Valid p := by
    intro p hp
    have hcases : p = [97] ∨ p = [98] ∨ p = [97] ∨ p = [98] := by simpa [es, history, AppendEvent.path] using hp
    rcases hcases with rfl | rfl | rfl | rfl
    · exact ⟨['a'], rfl⟩
    · exact ⟨['b'], rfl⟩
    · exact ⟨['a'], rfl⟩
    · exact ⟨['b'], rfl⟩
  obtain ⟨set, hset, hiff⟩ := glm_changed_complete_iff (L := smallLimits)
    (by simp [es, AppendEvent.Returns]) hutf (onMount_mountFiles _)
  have hall := hiff.2 ⟨by decide, by decide⟩
  exact ⟨by decide, set, hset, fun p hp => hall p (List.mem_append_left [[97], [98]] hp)⟩

theorem mem_history_cons (p : {p : Bytes // 0 ∉ p}) (es : List AppendEvent) :
    p.1 ∈ history (.recorded p :: es) := List.mem_cons_self

theorem history_replicate (n : Nat) (p : {p : Bytes // 0 ∉ p}) :
    history (List.replicate n (.recorded p)) = List.replicate n p.1 := by
  induction n with
  | zero => rfl
  | succ n ih =>
    rw [List.replicate_succ, List.replicate_succ, ← ih]
    rfl

open Journaled in
/-- One record of `p`, then more of `q` than a window holds. -/
theorem readLog_of_keepMax_le {L : Limits} {n : Nat} (hn : L.keepMax ≤ n)
    {p q : {p : Bytes // 0 ∉ p}} (hp : p.1 ≠ []) (hq : q.1 ≠ []) :
    ∀ r ∈ (start.run L (.recorded p :: List.replicate n (.recorded q))).dir.readLog, r = q.1 := by
  have hes : ∀ e ∈ AppendEvent.recorded p :: List.replicate n (.recorded q), e.Succeeds := by
    intro e he
    rcases List.mem_cons.mp he with rfl | he
    · exact hp
    · rw [(List.mem_replicate.mp he).2]
      exact hq
  have hw := windows_run (L := L) windows_start hes
  have hlen := paths_length_run (L := L) windows_start hes (Nat.zero_le _)
  have hh : history (.recorded p :: List.replicate n (.recorded q)) =
      p.1 :: List.replicate n q.1 := by
    rw [← history_replicate]
    rfl
  rw [List.nil_append, hh] at hw
  have hcur := hw.curSeq
  rw [curSeq, List.length_cons, List.length_replicate] at hcur
  obtain ⟨m, hm⟩ : ∃ m, (start.run L (.recorded p :: List.replicate n (.recorded q))).st.base = m + 1 :=
    Nat.exists_eq_succ_of_ne_zero (by omega)
  rw [hw.readLog, hw.window, hm, List.drop_succ_cons]
  intro r hr
  exact (List.mem_replicate.mp (List.mem_of_mem_drop hr)).2

theorem glmChanged_of_keepMax_le {L : Limits} {n : Nat} (hn : L.keepMax ≤ n)
    {p q : {p : Bytes // 0 ∉ p}} (hp : p.1 ≠ []) (hq : q.1 ≠ []) (hutf : Utf8.Valid q.1)
    {read : Bytes → Option Bytes} {root : Bytes} {gitdir : Text}
    (hm : OnMount read root gitdir
      (Journaled.start.run L (.recorded p :: List.replicate n (.recorded q))).dir.log) :
    ∃ set, glmChanged read root = some set ∧ ∀ r ∈ set, r = q.1 := by
  have hread := readLog_of_keepMax_le hn hp hq
  obtain ⟨bytes, hlog⟩ := Option.isSome_iff_exists.mp (Journaled.log_isSome_run (L := L)
    (s := Journaled.start) rfl (.recorded p :: List.replicate n (.recorded q)))
  rw [hlog] at hm
  rw [JournalDir.readLog, hlog, Option.getD_some] at hread
  refine ⟨_, hm.glmChanged, fun r hr => ?_⟩
  obtain ⟨piece, hpiece, rfl⟩ := mem_changedPaths.mp hr
  rw [hread piece hpiece, Utf8.lossy_of_valid hutf]

/-- The thresholds of a release build. -/
def releaseLimits : Limits := ⟨25000, 50000, 33554432, by decide⟩

/-- `a` is recorded once and `b` fifty thousand times: a prune has dropped the one record of `a`. -/
theorem glm_changed_misses_pruned :
    let es : List AppendEvent := .recorded ⟨[97], by decide⟩ ::
      List.replicate 50000 (.recorded ⟨[98], by decide⟩)
    let s := Journaled.start.run releaseLimits es
    ∃ set, glmChanged (mountFiles (ascii "/w") "/g".toList s.dir.log) (ascii "/w") = some set ∧
      [97] ∈ history es ∧ [97] ∉ set := by
  have hmiss := glmChanged_of_keepMax_le (L := releaseLimits) (n := 50000) le_rfl
    (p := ⟨[97], by decide⟩) (q := ⟨[98], by decide⟩) (by decide) (by decide) ⟨['b'], rfl⟩
    (onMount_mountFiles _)
  obtain ⟨set, hset, hall⟩ := hmiss
  refine ⟨set, hset, mem_history_cons _ _, fun hmem => ?_⟩
  exact absurd (hall [97] hmem) (by decide)

end LazyMount
