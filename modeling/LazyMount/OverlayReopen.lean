import LazyMount.Lib.Trace
import LazyMount.OverlayCrash

/-! Histories of overlay operations, crashes and reopens, against a specification that keeps
one namespace: every acknowledged operation takes effect once, an interrupted one once or
not at all. -/

namespace LazyMount

open Transition

/-- `crash op cut` stops `op` after `cut` file operations; a process then opens the overlay. -/
inductive OverlayEvent where
  | op (op : OverlayOp)
  | crash (op : OverlayOp) (cut : Nat) (pid : Nat) (order : List MetaName)
  | reopen (pid : Nat) (order : List MetaName)

structure NameState where
  entries : Namespace
  next : ContentId

namespace NameState

def apply (s : NameState) (op : OverlayOp) : NameState where
  entries := op.effect s.next s.entries
  next := match op with
    | .createFile _ _ _ => ⟨s.next.pid, s.next.seq + 1⟩
    | _ => s.next

def restart (s : NameState) (pid : Nat) : NameState := ⟨s.entries, ⟨pid, 0⟩⟩

inductive Step : NameState → OverlayEvent → NameState → Prop
  | op {s o} : Step s (.op o) (s.apply o)
  | lost {s o cut pid order} : Step s (.crash o cut pid order) (s.restart pid)
  | kept {s o cut pid order} : Step s (.crash o cut pid order) ((s.apply o).restart pid)
  | reopen {s pid order} : Step s (.reopen pid order) (s.restart pid)

end NameState

def OverlayOp.Avoids (p : RepoPath) : OverlayOp → Prop
  | .createFile q _ _ | .putSymlink q _ | .putDir q | .putBaseRef q _ _ | .tombstone q => q ≠ p
  | .clear _ | .setExecutable _ _ => True
  | .rename _ dst => dst ≠ p

def OverlayEvent.Avoids (p : RepoPath) : OverlayEvent → Prop
  | .op o | .crash o _ _ _ => o.Avoids p
  | .reopen _ _ => True

theorem effect_avoids {op : OverlayOp} {p : RepoPath} (h : op.Avoids p) (next : ContentId)
    {ns : Namespace} (hp : ns p = none) : op.effect next ns p = none := by
  cases op with
  | createFile q | putSymlink q | putDir q | putBaseRef q | tombstone q =>
    exact (Function.update_of_ne (Ne.symm h) _ _).trans hp
  | clear q =>
    by_cases hq : p = q
    · simp [OverlayOp.effect, hq]
    · exact (Function.update_of_ne hq _ _).trans hp
  | rename src dst =>
    have hpd : p ≠ dst := Ne.symm h
    cases hs : ns src with
    | none => simp [OverlayOp.effect, hs, hp]
    | some e =>
      simp only [OverlayOp.effect, hs]
      by_cases hq : p = src
      · simp [hq]
      · rw [Function.update_of_ne hq, Function.update_of_ne hpd, hp]
  | setExecutable q exec =>
    cases he : ns q with
    | none => simp [OverlayOp.effect, he, hp]
    | some e =>
      cases e with
      | file c x =>
        have hq : p ≠ q := by
          intro heq
          subst heq
          rw [hp] at he
          simp at he
        simp only [OverlayOp.effect, he]
        rw [Function.update_of_ne hq, hp]
      | symlink | dir | tombstone | baseRef => simp [OverlayOp.effect, he, hp]

namespace NameState

/-- In the specification what is cleared stays so until an operation writes it again. -/
theorem stays_absent {p : RepoPath} {s t : NameState} {es : List OverlayEvent}
    (hr : Trace Step s es t) (hav : ∀ e ∈ es, e.Avoids p) (hp : s.entries p = none) :
    t.entries p = none := by
  refine hr.invariant_of (I := fun s => s.entries p = none) ?_ hav hp
  intro s e s' hok hs hstep
  cases hstep with
  | op => exact effect_avoids hok _ hs
  | lost => exact hs
  | kept => exact effect_avoids hok _ hs
  | reopen => exact hs

end NameState

namespace Overlay

inductive Step : Overlay → OverlayEvent → Overlay → Prop
  | op {ov o} : Step ov (.op o) (ov.step o)
  | crash {ov o cut pid order} (h : ReadDir (crashDisk ov o cut) order) :
      Step ov (.crash o cut pid order) (openDisk (crashDisk ov o cut) order pid)
  | reopen {ov pid order} (h : ReadDir ov.disk order) :
      Step ov (.reopen pid order) (openDisk ov.disk order pid)

/-- The cuts that leave more or less than one operation on disk: behind a written temp file
that is not renamed yet, and inside a rename behind the publication of an entry at `dst` that
was not there. -/
def HalfDone (ov : Overlay) (op : OverlayOp) (cut : Nat) : Prop :=
  (∃ p e, ((ov.mutation op).fileOps.take cut).getLast? = some (.writeTmp p e)) ∨
    ∃ src dst e, op = .rename src dst ∧ cut = 3 ∧ src ≠ dst ∧ ov.lookup src = some e ∧
      ov.lookup dst ≠ some e

def Whole (ov : Overlay) : OverlayEvent → Prop
  | .crash op cut _ _ => ¬ HalfDone ov op cut
  | _ => True

/-- A step whose crash, if it is one, does not stop half-way. -/
def WholeStep (ov : Overlay) (e : OverlayEvent) (ov' : Overlay) : Prop :=
  Whole ov e ∧ Step ov e ov'

def names (ov : Overlay) : NameState := ⟨ov.index.entries, ov.newContentId⟩

theorem names_step (ov : Overlay) (op : OverlayOp) : (ov.step op).names = ov.names.apply op := by
  have hseq := contentSeq_step ov op
  simp only [names, NameState.apply, newContentId, step_entries, hseq, step_pid]
  cases op <;> rfl

variable {ov : Overlay} {cut : Nat} {op : OverlayOp}

theorem names_openDisk {d : Disk} {ns : Namespace} (h : Recovers d ns) {order : List MetaName}
    (hr : ReadDir d order) (pid : Nat) : (openDisk d order pid).names = ⟨ns, ⟨pid, 0⟩⟩ := by
  simp only [names, entries_openDisk h hr]
  rfl

theorem recovers_persist_take {d : Disk} {ns : Namespace} (hd : Recovers d ns) (p : RepoPath)
    (e : OverlayEntry) {k : Nat} (hk : k ≠ 2) :
    Recovers (d.execAll ((persist p e).take k)) (if k < 2 then ns else Function.update ns p (some e)) := by
  rcases k with _ | _ | _ | k
  · exact hd
  · exact ⟨fun q => by simp [persist, hd.sidecar], fun q => by simp [persist, hd.noTmp]⟩
  · exact (hk rfl).elim
  · rw [List.take_of_length_le (by simp [persist]), if_neg (by omega)]
    exact recovers_persist hd p e

theorem getLast?_persist_take (pre post : List FileOp) {p : RepoPath} {e : OverlayEntry}
    (hcut : cut = pre.length + 2) :
    ((pre ++ persist p e ++ post).take cut).getLast? = some (.writeTmp p e) := by
  simp [persist, List.take_append, hcut]

/-- A crash that is not half-way leaves the namespace before the operation or behind it. -/
theorem recovers_crashDisk (hs : Synced ov) (hw : ¬ HalfDone ov op cut) :
    Recovers (ov.crashDisk op cut) ov.index.entries ∨
      Recovers (ov.crashDisk op cut) (op.effect ov.newContentId ov.index.entries) := by
  have hd := ov.does op
  have hlast : ∀ p e, ((ov.mutation op).fileOps.take cut).getLast? ≠ some (.writeTmp p e) :=
    fun p e h => hw (.inl ⟨p, e, h⟩)
  rw [crashDisk]
  cases hm : ov.mutation op with
  | mk ops idx seq =>
    rw [hm] at hd hlast
    cases hd with
    | @put _ p e pre _ hpre heff =>
      have hk : cut - pre.length ≠ 2 := fun h =>
        hlast p e (by simpa using getLast?_persist_take pre [] (by omega))
      have hc : Recovers (ov.disk.execAll (pre.take cut)) ov.index.entries :=
        recovers_content hs fun o ho => hpre o (List.mem_of_mem_take ho)
      have hh := recovers_persist_take hc p e hk
      rw [← Disk.execAll_append, ← List.take_append] at hh
      split at hh
      · exact .inl hh
      · exact .inr (heff ▸ hh)
    | @clear p =>
      have hdrop := ov.onContent_dropContent p
      rcases Nat.lt_or_ge (ov.dropContent p).length cut with hcut | hcut
      · right
        have hall : (ov.dropContent p ++ [FileOp.removeSidecar p]).take cut =
            ov.dropContent p ++ [.removeSidecar p] := List.take_of_length_le (by simp; omega)
        have hh := recovers_removeSidecar (recovers_content hs hdrop) p
        rw [← Disk.execAll_nil (d := Disk.exec _ _), ← Disk.execAll_cons, ← Disk.execAll_append] at hh
        rw [hall]
        exact hh
      · left
        rw [List.take_append_of_le_length hcut]
        exact recovers_content hs fun o ho => hdrop o (List.mem_of_mem_take ho)
    | @rename src dst e he =>
      have hk : cut ≠ 2 := fun h =>
        hlast dst e (by simpa using getLast?_persist_take [] _ h)
      have hh := recovers_persist_take hs dst e hk
      rcases Nat.lt_or_ge 3 cut with hcut | hcut
      · right
        have hall : (persist dst e ++ [FileOp.removeSidecar src]).take cut =
            persist dst e ++ [.removeSidecar src] := List.take_of_length_le (by simp [persist]; omega)
        have hh := recovers_removeSidecar (recovers_persist hs dst e) src
        rw [← Disk.execAll_nil (d := Disk.exec _ _), ← Disk.execAll_cons, ← Disk.execAll_append] at hh
        have hns : ov.index.entries src = some e := he
        rw [hall]
        simpa [OverlayOp.effect, hns] using hh
      · left
        rw [List.take_append_of_le_length (by simpa [persist] using hcut)]
        split at hh
        · exact hh
        · -- the entry is published at `dst`, but it was there already
          have hsame : Function.update ov.index.entries dst (some e) = ov.index.entries := by
            refine Function.update_eq_self_iff.mpr ?_
            by_contra hne
            refine hw (.inr ⟨src, dst, e, rfl, by omega, ?_, he, fun h => hne h.symm⟩)
            intro heq
            subst heq
            exact hne he.symm
          rwa [hsame] at hh
    | unchanged heff =>
      left
      show Recovers (ov.disk.execAll ([].take cut)) ov.index.entries
      rw [List.take_nil]
      exact hs

theorem names_simulates {ov' : Overlay} {e : OverlayEvent} (hs : Synced ov)
    (h : WholeStep ov e ov') : NameState.Step ov.names e ov'.names ∧ Synced ov' := by
  obtain ⟨hw, hstep⟩ := h
  cases hstep with
  | op => exact ⟨names_step ov _ ▸ .op, synced_step hs _⟩
  | crash hr =>
    rcases recovers_crashDisk hs hw with hd | hd
    · exact ⟨names_openDisk hd hr _ ▸ .lost, synced_openDisk hr hd.noTmp _⟩
    · refine ⟨names_openDisk hd hr _ ▸ ?_, synced_openDisk hr hd.noTmp _⟩
      exact .kept
  | reopen hr => exact ⟨names_openDisk hs hr _ ▸ .reopen, synced_openDisk hr hs.noTmp _⟩

theorem trace_names {ov' : Overlay} {es : List OverlayEvent} (hr : Trace WholeStep ov es ov')
    (hs : Synced ov) : Trace NameState.Step ov.names es ov'.names ∧ Synced ov' := by
  have hsim : ∀ (ov : Overlay) (n : NameState) (e : OverlayEvent) (ov' : Overlay),
      n = ov.names ∧ Synced ov → WholeStep ov e ov' →
      ∃ n', NameState.Step n e n' ∧ n' = ov'.names ∧ Synced ov' := by
    rintro ov n e ov' ⟨rfl, hs⟩ h
    obtain ⟨hstep, hs'⟩ := names_simulates hs h
    exact ⟨_, hstep, rfl, hs'⟩
  obtain ⟨t, ht, rfl, hs'⟩ := hr.simulate hsim ⟨rfl, hs⟩
  exact ⟨ht, hs'⟩

end Overlay

/-- A history on a new overlay in which no crash stops half-way follows the specification, and
the index after every open is its namespace. Any further open recovers the same index, and an
entry that is gone stays away until an operation writes it. -/
theorem namespace_recovery_faithful (pid : Nat) {es : List OverlayEvent} {ov : Overlay}
    (hr : Trace Overlay.WholeStep (Overlay.fresh pid) es ov) :
    Trace NameState.Step (Overlay.fresh pid).names es ov.names ∧
      (∀ order pid', Overlay.ReadDir ov.disk order →
        (Overlay.openDisk ov.disk order pid').index = ov.index) ∧
      ∀ p fs ov', ov.lookup p = none → (∀ f ∈ fs, f.Avoids p) →
        Trace Overlay.WholeStep ov fs ov' → ov'.lookup p = none := by
  obtain ⟨ht, hs⟩ := Overlay.trace_names hr (Overlay.synced_fresh pid)
  refine ⟨ht, fun order pid' ho => Index.ext_entries (Overlay.entries_openDisk hs ho pid'), ?_⟩
  intro p fs ov' hp hav hfs
  exact NameState.stays_absent (Overlay.trace_names hfs hs).1 hav hp

/-- `mkdir a`; `mkdir b` dies before its temp file is written; `a` is cleared; `mkdir c` dies
behind its last file operation; the overlay is opened once more. -/
def clearedBetween (a b c : RepoPath) : List OverlayEvent :=
  [.op (.putDir a), .crash (.putDir b) 1 2 [.sidecar a, .tmp b], .op (.clear a),
    .crash (.putDir c) 3 3 [.sidecar c, .tmp b], .reopen 4 [.tmp b, .sidecar c]]

/-- The file operations of `clearedBetween`. -/
def clearedOps (a b c : RepoPath) : List FileOp :=
  Overlay.persist a .dir ++ [.createTmp b, .removeSidecar a] ++ Overlay.persist c .dir

theorem not_halfDone_putDir {ov : Overlay} {p : RepoPath} {cut : Nat} (h : cut ≠ 2) :
    ¬ Overlay.HalfDone ov (.putDir p) cut := by
  rintro (⟨q, e, hq⟩ | ⟨src, dst, e, hq, -⟩)
  · rcases cut with _ | _ | _ | cut
    · cases hq
    · cases hq
    · exact h rfl
    · cases cut <;> cases hq
  · cases hq

theorem namespace_recovery_faithful_clearedBetween :
    ∃ ov, Trace Overlay.WholeStep (Overlay.fresh 1) (clearedBetween (letter 97) (letter 98) (letter 99)) ov ∧
      Trace NameState.Step (Overlay.fresh 1).names (clearedBetween (letter 97) (letter 98) (letter 99)) ov.names ∧
      (∀ order pid', Overlay.ReadDir ov.disk order →
        (Overlay.openDisk ov.disk order pid').index = ov.index) ∧
      ov.lookup (letter 97) = none ∧ ov.lookup (letter 99) = some .dir ∧
      ∀ fs ov', (∀ f ∈ fs, f.Avoids (letter 97)) → Trace Overlay.WholeStep ov fs ov' →
        ov'.lookup (letter 97) = none := by
  let ops := clearedOps (letter 97) (letter 98) (letter 99)
  have hd₁ : Overlay.ReadDir (Disk.empty.execAll (ops.take 4)) [.sidecar (letter 97), .tmp (letter 98)] :=
    Overlay.readDir_execAll (by decide) (by decide)
  have hd₂ : Overlay.ReadDir (Disk.empty.execAll ops) [.sidecar (letter 99), .tmp (letter 98)] :=
    Overlay.readDir_execAll (by decide) (by decide)
  have hd₃ : Overlay.ReadDir (Disk.empty.execAll ops) [.tmp (letter 98), .sidecar (letter 99)] :=
    Overlay.readDir_execAll (by decide) (by decide)
  have hr : ∃ ov, Trace Overlay.WholeStep (Overlay.fresh 1) (clearedBetween (letter 97) (letter 98) (letter 99)) ov ∧
      ov.lookup (letter 97) = none ∧ ov.lookup (letter 99) = some .dir := by
    refine ⟨_, .cons ⟨trivial, .op⟩ (.cons ⟨not_halfDone_putDir (by decide), .crash hd₁⟩
      (.cons ⟨trivial, .op⟩ (.cons ⟨not_halfDone_putDir (by decide), .crash hd₂⟩
        (.cons ⟨trivial, .reopen hd₃⟩ (.nil _))))), ?_, ?_⟩
    · decide
    · decide
  obtain ⟨ov, hr, ha, hc⟩ := hr
  obtain ⟨ht, hopen, hgone⟩ := namespace_recovery_faithful 1 hr
  exact ⟨ov, hr, ht, hopen, ha, hc, fun fs ov' hav hfs => hgone _ fs ov' ha hav hfs⟩

/-- `mkdir a` dies behind its temp file; the next open reads it as the directory, `a` is
cleared, and the open after that reads it again. -/
theorem stale_tmp_resurrects :
    let es : List OverlayEvent := [.crash (.putDir (letter 97)) 2 2 [.tmp (letter 97)],
      .op (.clear (letter 97)), .reopen 3 [.tmp (letter 97)]]
    ∃ ov, Trace Overlay.Step (Overlay.fresh 1) es ov ∧ ov.lookup (letter 97) = some .dir ∧
      ∀ s, Trace NameState.Step (Overlay.fresh 1).names es s → s.entries (letter 97) = none := by
  have hd : ∀ n ∈ [2, 3], Overlay.ReadDir (Disk.empty.execAll ([.createTmp (letter 97),
      .writeTmp (letter 97) .dir, .removeSidecar (letter 97)].take n)) [.tmp (letter 97)] := by
    intro n hn
    exact Overlay.readDir_execAll (by decide) (by revert n; decide)
  refine ⟨_, .cons (.crash (hd 2 (by decide))) (.cons .op (.cons (.reopen (hd 3 (by decide))) (.nil _))),
    ?_, ?_⟩
  · decide
  · intro s hs
    cases hs with
    | cons _ hs =>
      cases hs with
      | cons hclear hs =>
        cases hs with
        | cons hre hs =>
          cases hs
          cases hre
          cases hclear
          simp [NameState.restart, NameState.apply, OverlayOp.effect]

end LazyMount
