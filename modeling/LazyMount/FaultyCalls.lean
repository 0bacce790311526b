import LazyMount.Lib.Faulty
import LazyMount.OverlayFaults

/-! Handler calls whose steps fail: an append to the journal, a read, or an overlay operation at one of
its file operations. -/

namespace LazyMount

open Function (update)
open RepoPath Prog Handler

namespace Overlay

/-- The operation returns `Ok`, but no removal has taken place. -/
def stuck (ov : Overlay) (op : OverlayOp) : Overlay :=
  { ov.step op with disk := ov.disk.execAll (ov.attempted op true) }

variable {ov : Overlay} {op op' : OverlayOp} {f : Fault} {p : RepoPath} {c : ContentId}

theorem content_stuck (ov : Overlay) (op : OverlayOp) (c : ContentId) :
    (ov.stuck op).disk.content c = (ov.step op).disk.content c ∨
      (ov.stuck op).disk.content c = ov.disk.content c := by
  have hpersist : ∀ p e, (ov.disk.execAll (persist p e)).content c = ov.disk.content c := fun _ _ => rfl
  show (ov.disk.execAll (ov.attempted op true)).content c =
      (ov.disk.execAll (ov.mutation op).fileOps).content c ∨
    (ov.disk.execAll (ov.attempted op true)).content c = ov.disk.content c
  cases hw : ov.written op with
  | none =>
    have hnone : ov.attempted op true = [] := by
      rw [List.eq_nil_iff_forall_not_mem]
      intro o ho
      have hyes := attempted_ignored hw o ho
      simp only [attempted, if_true, List.mem_filter] at ho
      simp [hyes] at ho
    rw [hnone]
    exact .inr rfl
  | some e =>
    cases op with
    | createFile p x seed =>
      left
      have hsame : ov.attempted (.createFile p x seed) true = (ov.mutation (.createFile p x seed)).fileOps := by
        simp only [attempted, if_true, mutation, createFile, List.filter_append, filter_copyUp, filter_persist]
      rw [hsame]
    | putSymlink | putDir | putBaseRef => exact .inr rfl
    | tombstone p =>
      right
      simp only [attempted, if_true, mutation, tombstone, List.filter_append, filter_dropContent,
        filter_persist, List.nil_append]
      exact hpersist p .tombstone
    | clear p => cases hw
    | rename src dst =>
      right
      have hl : ov.lookup src = some e := hw
      simp only [attempted, if_true, mutation, rename, hl, List.filter_append, filter_persist]
      exact hpersist dst e
    | setExecutable p x =>
      obtain ⟨rest, heq, hrest⟩ := attempted_eq true hw
      right
      have hnil : rest = [] := by
        rw [List.eq_nil_iff_forall_not_mem]
        intro o ho
        have hmem : o ∈ ov.attempted (.setExecutable p x) true := by
          rw [heq]
          simp [ho]
        simp only [attempted, if_true, List.mem_filter] at hmem
        simp [hrest o ho] at hmem
      rw [heq, hnil, List.append_nil]
      exact hpersist p e

/-- What a failed operation changes: the new content file, or that of an entry which the operation
would have made a tombstone. -/
theorem content_failed_ne (h : Fails ov op f) (hne : (ov.failed op f).disk.content c ≠ ov.disk.content c) :
    c = ov.newContentId ∧ (ov.step op).contentSeq = ov.contentSeq + 1 ∨
      (ov.failed op f).disk.content c = none ∧
        ∃ p x, ov.lookup p = some (.file c x) ∧ (ov.step op).lookup p = some .tombstone := by
  have hself := content_failed h c
  cases hs : ov.spoiled op f with
  | none =>
    rw [hs] at hself
    exact (hne hself).elim
  | some b =>
    obtain ⟨b, bytes⟩ := b
    rw [hs] at hself
    have hcb : c = b := by
      by_contra hcb
      exact hne (hself.trans (if_neg hcb))
    subst hcb
    replace hself := hself.trans (if_pos rfl)
    cases op with
    | createFile p x seed =>
      left
      refine ⟨?_, rfl⟩
      simp only [spoiled] at hs
      split at hs <;> cases hs <;> rfl
    | tombstone p =>
      right
      rw [spoiled] at hs
      split at hs
      · rename_i c' y hstuck hl
        cases hs
        refine ⟨hself, p, y, hl, ?_⟩
        show (ov.step (.tombstone p)).index.entries p = _
        rw [step_entries]
        exact Function.update_self _ _ _
      · cases hs
    | putSymlink | putDir | putBaseRef | clear | rename | setExecutable => cases hs

end Overlay

/-- A step that is completed. -/
inductive Completed (l : Action) (upd : World → World) (w : World) : World → Prop
  | whole : Completed l upd w (upd w)
  | stuck (op : OverlayOp) (hl : l = .mutate)
    (h : upd = fun w => { w with overlay := w.overlay.step op }) :
    Completed l upd w { w with overlay := w.overlay.stuck op }

/-- A step that fails. Of the journal anything may be left. -/
inductive Broken (l : Action) (upd : World → World) (w : World) : World → Prop
  | read (hl : l = .read ∨ ∃ blob, l = .fetch blob) : Broken l upd w w
  | record (path : RepoPath) (hl : l = .record path) (j j' : State × JournalDir) (hj : w.journal = some j) :
    Broken l upd w { w with journal := some j' }
  | mutate (op : OverlayOp) (f : Fault) (hl : l = .mutate)
    (h : upd = fun w => { w with overlay := w.overlay.step op }) (hf : w.overlay.Fails op f) :
    Broken l upd w { w with overlay := w.overlay.failed op f }
  | edit (content : ContentId) (g : Bytes → Bytes) (hl : l = .mutate)
    (h : upd = fun w => { w with overlay := w.overlay.editContent content g }) : Broken l upd w w

/-- A call that may fail at any step, after the steps `ls`; `fault` is the step at which it fails. -/
abbrev Handler.Falters {α : Type} (m : Handler α) (w : World) (ls : List Action) (fault : Option Action)
    (r : Outcome Error α) (t : World) : Prop := Faulty Completed Broken m w ls fault r t

theorem Handler.falters_run {α : Type} (m : Handler α) (w : World) :
    ∃ ls, m.Falters w ls none (m.run w).1 (m.run w).2 :=
  faulty_run (fun _ _ _ => Completed.whole) m w

namespace Projection

variable {P : Projection} {w w' t : World} {op : OverlayOp} {α : Type}

/-! The steps that come before any change. -/

/-- A step that leaves the overlay and the inode table alone. -/
inductive Silent (P : Projection) : Action → (World → World) → Prop
  | read : Silent P .read id
  | record (path : RepoPath) : Silent P (.record path)
      fun w => { w with journal := w.journal.map fun j => record P.limits j.1 j.2 path.bytes }

theorem silent_recordChangeFile (path : RepoPath) : Within P.Silent SameTree (P.recordChangeFile path) :=
  within_atom (.record path) fun _ _ _ => rfl

theorem silent_recordChange (path : RepoPath) : Within P.Silent SameTree (P.recordChange path) := by
  refine within_bind (silent_recordChangeFile path) fun _ => ?_
  split
  · split
    · exact within_pure _
    · exact silent_recordChangeFile _
  · exact within_pure _

theorem silent_resolveStep (path : RepoPath) : Within P.Silent SameTree (P.resolveStep path) :=
  within_atom .read fun _ _ h => by rw [h.1]

theorem completed_upd {l : Action} {upd : World → World} (h : Completed l upd w w') :
    w'.inodes = (upd w).inodes ∧ w'.overlay.index = (upd w).overlay.index ∧
      w'.overlay.newContentId = (upd w).overlay.newContentId ∧
      ∀ c, w'.overlay.disk.content c = (upd w).overlay.disk.content c ∨
        w'.overlay.disk.content c = w.overlay.disk.content c := by
  cases h with
  | whole => exact ⟨rfl, rfl, rfl, fun c => .inl rfl⟩
  | stuck op hl h =>
    subst h
    exact ⟨rfl, rfl, rfl, Overlay.content_stuck w.overlay op⟩

theorem broken_inodes {l : Action} {upd : World → World} (h : Broken l upd w t) : t.inodes = w.inodes := by
  cases h <;> rfl

theorem broken_index {l : Action} {upd : World → World} (h : Broken l upd w t) :
    t.overlay.index = w.overlay.index := by
  cases h <;> rfl

/-- A step that fails changes no content file but the new one, and those that it removes of the files
which it would have made tombstones. -/
theorem broken_content {l : Action} {upd : World → World} (h : Broken l upd w t) {c : ContentId}
    (hne : t.overlay.disk.content c ≠ w.overlay.disk.content c) :
    c = w.overlay.newContentId ∧ (upd w).overlay.contentSeq = w.overlay.contentSeq + 1 ∨
      t.overlay.disk.content c = none ∧
        ∃ p x, w.overlay.lookup p = some (.file c x) ∧ (upd w).overlay.lookup p = some .tombstone := by
  cases h with
  | read | record | edit => exact (hne rfl).elim
  | mutate op f hl h hf =>
    subst h
    exact Overlay.content_failed_ne hf hne

theorem completed_silent {l : Action} {upd : World → World} (hs : P.Silent l upd) (h : Completed l upd w w') :
    SameTree w' w := by
  cases h with
  | whole => cases hs <;> exact ⟨rfl, rfl⟩
  | stuck op hl h =>
    subst hl
    cases hs

theorem broken_silent {l : Action} {upd : World → World} (hs : P.Silent l upd) (h : Broken l upd w t) :
    SameTree t w := by
  cases h with
  | read | record => exact ⟨rfl, rfl⟩
  | mutate op f hl h hf =>
    subst hl
    cases hs
  | edit c g hl h =>
    subst hl
    cases hs

end Projection

end LazyMount
