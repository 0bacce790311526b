import LazyMount.TornAppend

/-! The sliding window against the unbounded history: while every call succeeds, the live
journal and every journal opened on its files answer as one that never forgot a record would,
for the tokens still inside the window. -/

namespace LazyMount

namespace AppendEvent

def path : AppendEvent → List Bytes
  | .recorded p => [p]
  | _ => []

/-- The record of a non-empty path, or an open. -/
def Succeeds : AppendEvent → Prop
  | .recorded p => p.1 ≠ []
  | .failed _ _ | .died _ _ => False
  | .restart => True

end AppendEvent

/-- Every path recorded in the run, the oldest first. -/
def history (es : List AppendEvent) : List Bytes := es.flatMap AppendEvent.path

/-- What an unbounded journal knows of the calls after its first `k` records. -/
def since (h : List Bytes) (k : Nat) : List Bytes := sortDedup (h.drop k)

namespace Journaled

/-- The window is the part of the history `h` behind its first `base` records, in memory and on
disk. -/
structure Windows (L : Limits) (s : Journaled) (h : List Bytes) : Prop where
  tracks : Serve.Tracks L ⟨s.st, s.dir, none⟩ h
  nonempty : ∀ r ∈ h, r ≠ []

/-- A journal on this state: the live one, or one opened on the files. -/
def Opens (workspace : Bytes) (epoch generation : Nat) (s : Journaled) (j : ChangeJournal) : Prop :=
  j = ⟨workspace, epoch, generation, s.st⟩ ∨ j = .replay workspace epoch generation s.dir s.dir

variable {L : Limits} {s : Journaled} {h : List Bytes}

theorem windows_start : Windows L start [] := ⟨Serve.tracks_start, by simp⟩

theorem Windows.readLog (hs : Windows L s h) : s.dir.readLog = s.st.paths := by
  have hread : s.dir.readLog = SlidingWindow.window Serve.keep s.st.base h := hs.tracks.readLog
  have hpaths : s.st.paths = h.drop s.st.base := hs.tracks.paths
  rw [hread, hpaths, SlidingWindow.window]
  refine List.filter_eq_self.mpr fun r hr => ?_
  have hne := hs.nonempty r (List.mem_of_mem_drop hr)
  simpa using hne

theorem Windows.readBase (hs : Windows L s h) : s.dir.readBase = s.st.base := hs.tracks.base

theorem Windows.record (hs : Windows L s h) {p : {p : Bytes // 0 ∉ p}} (hp : p.1 ≠ []) :
    Windows L (s.record L p) (h ++ [p.1]) := by
  obtain ⟨es, hes, hrun⟩ := Serve.run_record (L := L) s.st s.dir p
  have ht := Serve.tracks_run hs.tracks hrun
  rw [hes] at ht
  refine ⟨ht, fun r hr => ?_⟩
  rcases List.mem_append.mp hr with hr | hr
  · exact hs.nonempty r hr
  · rwa [List.mem_singleton.mp hr]

theorem Windows.reopen (hs : Windows L s h) : Windows L (reopen s.dir) h := by
  have hst : (⟨s.dir.readLog, s.dir.readBase⟩ : State) = s.st := by
    rw [hs.readLog, hs.readBase]
  have hlog : s.dir.log = some (RecordLog.encode 0 s.st.paths) := hs.tracks.log
  have hdir : s.dir.createLog = s.dir := by
    rw [JournalDir.createLog, hlog, Option.getD_some, ← hlog]
  rw [Journaled.reopen, hst, hdir]
  exact hs

theorem windows_step (hs : Windows L s h) {e : AppendEvent} (he : e.Succeeds) :
    Windows L (s.step L e) (h ++ e.path) := by
  cases e with
  | recorded p => exact hs.record he
  | failed | died => exact he.elim
  | restart =>
    rw [show h ++ AppendEvent.restart.path = h from List.append_nil h]
    exact hs.reopen

theorem windows_run {es : List AppendEvent} (hs : Windows L s h) (hes : ∀ e ∈ es, e.Succeeds) :
    Windows L (s.run L es) (h ++ history es) := by
  induction es generalizing s h with
  | nil => simpa [history, run] using hs
  | cons e es ih =>
    have hstep := windows_step hs (hes e List.mem_cons_self)
    have hh := ih hstep fun f hf => hes f (List.mem_cons_of_mem e hf)
    rw [List.append_assoc] at hh
    exact hh

variable {workspace : Bytes} {epoch generation : Nat} {j : ChangeJournal}

theorem Windows.opens (hs : Windows L s h) (hj : s.Opens workspace epoch generation j) :
    j = ⟨workspace, epoch, generation, s.st⟩ := by
  rcases hj with rfl | rfl
  · rfl
  · rw [ChangeJournal.replay, hs.readLog, hs.readBase]

theorem Windows.curSeq (hs : Windows L s h) : curSeq s.st = h.length := by
  have hle : s.st.base ≤ h.length := hs.tracks.base_le
  have hpaths : s.st.paths = h.drop s.st.base := hs.tracks.paths
  rw [LazyMount.curSeq, hpaths, List.length_drop]
  omega

theorem Windows.window (hs : Windows L s h) : s.st.paths = h.drop s.st.base := hs.tracks.paths

theorem Windows.base_le (hs : Windows L s h) : s.st.base ≤ h.length := hs.tracks.base_le

end Journaled

open Journaled in
/-- `j` was opened, or was live, after the calls `es`, and `k` after the calls `es ++ es'`. -/
theorem journal_refines_history {L : Limits} {workspace : Bytes} {epoch generation : Nat}
    (hw : colon ∉ workspace) {es es' : List AppendEvent} (hes : ∀ e ∈ es ++ es', e.Succeeds)
    {j k : ChangeJournal} (hj : (start.run L es).Opens workspace epoch generation j)
    (hk : (start.run L (es ++ es')).Opens workspace epoch generation k) :
    k.currentToken.seq = (history (es ++ es')).length ∧
    (k.state.base ≤ (history (es ++ es')).length ∧
      k.state.paths = (history (es ++ es')).drop k.state.base) ∧
    (k.query j.currentToken.encode =
      if k.state.base ≤ (history es).length then
        .changes k.currentToken (since (history (es ++ es')) (history es).length)
      else .fullInvalidation k.currentToken) ∧
    (since (history (es ++ es')) (history es).length).Pairwise (· < ·) ∧
    (∀ p, p ∈ since (history (es ++ es')) (history es).length ↔
      p ∈ (history (es ++ es')).drop (history es).length) ∧
    ((∃ t, k.query [] = .changes t []) ↔ history (es ++ es') = []) := by
  have hs : Windows L (start.run L es) (history es) :=
    windows_run windows_start fun e he => hes e (List.mem_append_left _ he)
  have ht : Windows L (start.run L (es ++ es')) (history (es ++ es')) :=
    windows_run windows_start hes
  obtain rfl := hs.opens hj
  obtain rfl := ht.opens hk
  have hle : (history es).length ≤ (history (es ++ es')).length := by
    simp [history, List.flatMap_append]
  have hbase := ht.base_le
  have hcur := ht.curSeq
  refine ⟨hcur, ⟨hbase, ht.window⟩, ?_, pairwise_sortDedup _, fun p => mem_sortDedup, ?_⟩
  · have hquery := ChangeJournal.query_seq (j := ⟨workspace, epoch, generation,
      (start.run L (es ++ es')).st⟩) hw (history es).length
    dsimp only at hquery ⊢
    rw [ChangeJournal.currentToken, hs.curSeq]
    refine hquery.trans ?_
    rw [hcur, ht.window, List.drop_drop]
    split <;> rename_i hlt
    · rw [if_neg (by omega)]
    · rw [if_pos (by omega), since]
      congr 3
      omega
  · rw [ChangeJournal.query, if_pos rfl, hcur]
    split <;> rename_i hlen
    · simpa using List.length_eq_zero_iff.mp hlen
    · simpa using fun hnil => hlen (List.length_eq_zero_iff.mpr hnil)

/-- Three records with a prune among them: the token of the first is too old, that of the second
is not. -/
theorem journal_refines_history_three_records :
    let es : List AppendEvent := [.recorded ⟨[98], by decide⟩, .recorded ⟨[97], by decide⟩, .restart]
    let s := Journaled.start.run smallLimits es
    let t := Journaled.start.run smallLimits (es ++ [.recorded ⟨[97], by decide⟩])
    (ChangeJournal.mk [119] 1 0 t.st).currentToken.seq = 3 ∧
      (ChangeJournal.mk [119] 1 0 t.st).query (ChangeJournal.mk [119] 1 0 s.st).currentToken.encode =
        .changes ⟨[119], 1, 3, 0⟩ [[97]] := by
  have hh := @journal_refines_history smallLimits [119] 1 0 (by decide)
    [.recorded ⟨[98], by decide⟩, .recorded ⟨[97], by decide⟩, .restart]
    [.recorded ⟨[97], by decide⟩] (by simp [AppendEvent.Succeeds]) _ _ (.inl rfl) (.inl rfl)
  exact ⟨hh.1, hh.2.2.1⟩

end LazyMount
