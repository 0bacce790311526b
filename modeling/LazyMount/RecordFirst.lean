import LazyMount.Lib.Trace
import LazyMount.MovedDirectory
import LazyMount.RenameFaults
import LazyMount.Uncovered

/-! The records of a call come before its first change, and each path that the call changes is at or
beneath one of them, also when a step fails. -/

namespace LazyMount

open RepoPath Prog Handler Transition

/-- The records among the steps of a call that come before its first overlay operation. -/
def foretold : List Action → List RepoPath
  | [] => []
  | .mutate :: _ => []
  | .record p :: ls => p :: foretold ls
  | .read :: ls | .fetch _ :: ls | .inode :: ls => foretold ls

def records (ls : List Action) : List RepoPath :=
  ls.filterMap fun l => match l with
    | .record p => some p
    | _ => none

theorem mem_records {ls : List Action} {p : RepoPath} : p ∈ records ls ↔ Action.record p ∈ ls := by
  rw [records, List.mem_filterMap]
  constructor
  · rintro ⟨l, hl, he⟩
    cases l with
    | record q =>
      cases he
      exact hl
    | read | fetch | mutate | inode => cases he
  · intro h
    exact ⟨_, h, rfl⟩

/-- A step that records nothing. -/
def Unrecorded (l : Action) (_ : World → World) : Prop := ∀ p, l ≠ .record p

theorem foretold_append {ls : List Action} {l : Action} (h : ∀ p, l ≠ .record p) :
    foretold (ls ++ [l]) = foretold ls := by
  induction ls with
  | nil =>
    cases l with
    | record p => exact (h p rfl).elim
    | read | fetch | mutate | inode => rfl
  | cons k ls ih =>
    cases k with
    | record p => exact congrArg (p :: ·) ih
    | mutate => rfl
    | read | fetch | inode => exact ih

theorem records_append {ls : List Action} {l : Action} (h : ∀ p, l ≠ .record p) :
    records (ls ++ [l]) = records ls := by
  cases l with
  | record p => exact (h p rfl).elim
  | read | fetch | mutate | inode => simp [records]

theorem foretold_eq_records {ls : List Action} (h : Action.mutate ∉ ls) : foretold ls = records ls := by
  induction ls with
  | nil => rfl
  | cons l ls ih =>
    have hh := ih fun hm => h (List.mem_cons_of_mem _ hm)
    cases l with
    | record p => exact congrArg (p :: ·) hh
    | mutate => exact (h List.mem_cons_self).elim
    | read | fetch | inode => exact hh

namespace Projection

variable {P : Projection} {src dst path : RepoPath} {α : Type}

/-! No handler records behind its first change. -/

theorem unrecorded_read {f : World → Except Error α} : Within Unrecorded Eq (.read .read f : Handler α) :=
  within_atom (by simp [Unrecorded]) fun w v h => by rw [h]

theorem unrecorded_atom {l : Action} {upd : World → World} {f : World → Except Error α}
    (h : ∀ p, l ≠ .record p) : Within Unrecorded Eq (.atom l upd f : Handler α) :=
  within_atom h fun w v h => by rw [h]

theorem unrecorded_inodeRename (old new : RepoPath) : Within Unrecorded Eq (inodeRename old new) :=
  unrecorded_atom (by simp)

theorem unrecorded_mutate (op : OverlayOp) : Within Unrecorded Eq (mutate op) := unrecorded_atom (by simp)

theorem unrecorded_createFile (path : RepoPath) (x : Bool) (seed : Option Bytes) :
    Within Unrecorded Eq (createFile path x seed) := unrecorded_atom (by simp)

theorem unrecorded_inodeLookup (path : RepoPath) : Within Unrecorded Eq (inodeLookup path) :=
  unrecorded_atom (by simp)

theorem unrecorded_editContent (content : ContentId) (f : Bytes → Bytes) :
    Within Unrecorded Eq (editContent content f) := unrecorded_atom (by simp)

theorem unrecorded_materialize (oid : ObjectId) : Within Unrecorded Eq (P.materialize oid) :=
  unrecorded_atom (by simp)

theorem unrecorded_seed (c : Prop) [Decidable c] (oid : ObjectId) :
    Within Unrecorded Eq (if c then pure none else some <$> P.materialize oid : Handler (Option Bytes)) := by
  split
  · exact within_pure _
  · exact within_map _ (unrecorded_materialize oid)

theorem unrecorded_renameDir (fuel : Nat) : ∀ src dst, Within Unrecorded Eq (P.renameDir fuel src dst) := by
  induction fuel with
  | zero => exact fun _ _ => within_diverge
  | succ fuel ih =>
    intro src dst
    rw [renameDir_succ]
    refine within_bind (unrecorded_mutate _) fun _ => within_bind unrecorded_read fun kids => ?_
    refine within_bind (within_each fun kid => ?_) fun _ =>
      within_bind (unrecorded_mutate _) fun _ => unrecorded_inodeRename _ _
    refine within_bind_liftExcept fun cs _ => within_bind_liftExcept fun cd _ => ?_
    split
    · exact ih cs cd
    · split
      · exact within_bind (unrecorded_mutate _) fun _ => unrecorded_inodeRename _ _
      · exact within_pure _

theorem unrecorded_renameFile (src dst : RepoPath) : Within Unrecorded Eq (P.renameFile src dst) := by
  have hend : Within Unrecorded Eq (inodeRename src dst) := unrecorded_inodeRename _ _
  refine within_bind unrecorded_read fun o => ?_
  split
  · refine within_bind (unrecorded_mutate _) fun _ => within_bind unrecorded_read fun r => ?_
    exact within_bind (within_whenever (unrecorded_mutate _)) fun _ => hend
  · refine within_bind unrecorded_read fun r => ?_
    split
    · exact within_bind (unrecorded_mutate _) fun _ => within_bind (unrecorded_mutate _) fun _ => hend
    · exact within_bind (unrecorded_mutate _) fun _ => within_bind (unrecorded_mutate _) fun _ => hend
    · exact within_fail _

/-! The first phase of a handler reads and records. -/

abbrev RecordsFirst (P : Projection) (m : Handler α) : Prop := Phased P.Silent Unrecorded m

theorem silent_read {f : World → Except Error α} : Within P.Silent Eq (.read .read f : Handler α) :=
  within_atom .read fun w v h => by rw [h]

theorem silent_childPath (parent : Nat) (name : Bytes) : Within P.Silent Eq (childPath parent name) := by
  refine within_bind silent_read fun dir => within_bind (within_liftExcept _) fun path => ?_
  split
  · exact within_fail _
  · exact within_pure _

theorem recordsFirst_create (parent : Nat) (name : Bytes) (x : Bool) :
    P.RecordsFirst (P.create parent name x) := by
  refine phased_bind (silent_childPath parent name) fun path => ?_
  refine phased_bind (silent_recordChange path) fun _ => Within.phased ?_
  refine within_bind (unrecorded_createFile _ _ _) fun c => ?_
  exact within_bind (unrecorded_inodeLookup path) fun i => within_pure _

theorem recordsFirst_openWrite (ino : Nat) (trunc : Bool) : P.RecordsFirst (P.openWrite ino trunc) := by
  refine phased_bind (R := Eq) silent_read fun path => ?_
  refine phased_bind (silent_recordChangeFile path) fun _ => Within.phased ?_
  refine within_bind unrecorded_read fun o => ?_
  split
  · refine within_bind unrecorded_read fun c => ?_
    exact within_bind (within_whenever (unrecorded_editContent _ _)) fun _ => within_pure _
  · refine within_bind unrecorded_read fun r => ?_
    split
    · exact within_bind (unrecorded_seed _ _) fun seed => unrecorded_createFile _ _ _
    · exact within_fail _

theorem recordsFirst_truncate (ino size : Nat) : P.RecordsFirst (P.truncate ino size) := by
  refine phased_bind (R := Eq) silent_read fun path => phased_bind (R := Eq) silent_read fun o => ?_
  split
  · refine phased_bind (silent_recordChangeFile path) fun _ => Within.phased ?_
    exact within_bind unrecorded_read fun c => unrecorded_editContent _ _
  · refine phased_bind (R := Eq) silent_read fun r => ?_
    split
    · refine phased_bind (silent_recordChangeFile path) fun _ => Within.phased ?_
      refine within_bind (unrecorded_seed _ _) fun seed => ?_
      exact within_bind (unrecorded_createFile _ _ _) fun c => unrecorded_editContent _ _
    · exact Within.phased (within_fail _)

theorem recordsFirst_removeName (path : RepoPath) (onBaseline : Bool) :
    P.RecordsFirst (P.removeName path onBaseline) := by
  refine phased_bind (silent_recordChange path) fun _ => Within.phased ?_
  exact within_bind (unrecorded_mutate _) fun _ => unrecorded_atom (by simp)

theorem recordsFirst_unlink (parent : Nat) (name : Bytes) : P.RecordsFirst (P.unlink parent name) := by
  refine phased_bind (silent_childPath parent name) fun path => phased_bind (R := Eq) silent_read fun r => ?_
  split
  · exact recordsFirst_removeName path true
  · refine phased_bind (R := Eq) silent_read fun o => ?_
    cases o with
    | none => exact Within.phased (within_fail _)
    | some => exact recordsFirst_removeName path false

theorem recordsFirst_mkdir (parent : Nat) (name : Bytes) : P.RecordsFirst (P.mkdir parent name) := by
  refine phased_bind (silent_childPath parent name) fun path => phased_bind (R := Eq) silent_read fun r => ?_
  cases r with
  | some => exact Within.phased (within_fail _)
  | none =>
    refine phased_bind (silent_recordChange path) fun _ => Within.phased ?_
    refine within_bind (unrecorded_mutate _) fun _ => ?_
    exact within_bind (unrecorded_inodeLookup path) fun i => within_pure _

theorem recordsFirst_rmdir (parent : Nat) (name : Bytes) : P.RecordsFirst (P.rmdir parent name) := by
  refine phased_bind (silent_childPath parent name) fun path => phased_bind (R := Eq) silent_read fun b => ?_
  split
  · refine phased_bind (R := Eq) silent_read fun t => ?_
    split
    · exact recordsFirst_removeName path true
    · refine phased_bind (R := Eq) silent_read fun o => ?_
      cases o with
      | none => exact Within.phased (within_fail _)
      | some => exact recordsFirst_removeName path false
  · exact Within.phased (within_fail _)

theorem recordsFirst_symlink (parent : Nat) (name target : Bytes) :
    P.RecordsFirst (P.symlink parent name target) := by
  refine phased_bind (silent_childPath parent name) fun path => ?_
  refine phased_bind (silent_recordChange path) fun _ => Within.phased ?_
  refine within_bind (unrecorded_mutate _) fun _ => ?_
  exact within_bind (unrecorded_inodeLookup path) fun i => within_pure _

theorem recordsFirst_rename (fuel parent : Nat) (name : Bytes) (newparent : Nat) (newname : Bytes)
    (flags : UInt32) : P.RecordsFirst (P.rename fuel parent name newparent newname flags) := by
  refine phased_bind (silent_childPath parent name) fun src => ?_
  refine phased_bind (silent_childPath newparent newname) fun dst => ?_
  split
  · exact Within.phased (within_fail _)
  · refine phased_bind (R := Eq) ?_ fun occupied => ?_
    · split
      · exact within_map _ silent_read
      · exact within_pure _
    · split
      · exact Within.phased (within_fail _)
      · refine phased_bind (silent_recordChange src) fun _ => phased_bind (silent_recordChange dst) fun _ => ?_
        refine phased_bind (R := Eq) silent_read fun r => ?_
        split
        · exact Within.phased (unrecorded_renameDir fuel src dst)
        · exact Within.phased (unrecorded_renameFile src dst)

theorem recordsFirst_setExecutable (ino : Nat) (x : Bool) : P.RecordsFirst (P.setExecutable ino x) := by
  refine phased_bind (R := Eq) silent_read fun path => ?_
  refine phased_bind (silent_recordChangeFile path) fun _ => Within.phased ?_
  refine within_bind unrecorded_read fun o => ?_
  split
  · exact unrecorded_atom (by simp)
  · refine within_bind unrecorded_read fun r => ?_
    split
    · refine within_bind (unrecorded_materialize _) fun seed => ?_
      exact within_bind (unrecorded_createFile _ _ _) fun _ => within_pure _
    · exact within_fail _

end Projection

/-- The operations of the kernel that change the tree. -/
def Op.Mutator : Op → Prop
  | .lookup _ _ | .getattr _ | .readdir _ | .forget _ _ => False
  | _ => True

theorem Op.recordsFirst {P : Projection} {op : Op} (hop : op.Mutator) (fuel : Nat) :
    P.RecordsFirst (op.handler P fuel) := by
  cases op with
  | lookup | getattr | readdir | forget => exact hop.elim
  | create parent name x => exact phased_map _ (Projection.recordsFirst_create parent name x)
  | openWrite ino trunc => exact phased_map _ (Projection.recordsFirst_openWrite ino trunc)
  | truncate ino size => exact phased_map _ (Projection.recordsFirst_truncate ino size)
  | unlink parent name => exact phased_map _ (Projection.recordsFirst_unlink parent name)
  | mkdir parent name => exact phased_map _ (Projection.recordsFirst_mkdir parent name)
  | rmdir parent name => exact phased_map _ (Projection.recordsFirst_rmdir parent name)
  | symlink parent name target => exact phased_map _ (Projection.recordsFirst_symlink parent name target)
  | rename parent name newparent newname flags =>
    exact phased_map _ (Projection.recordsFirst_rename fuel parent name newparent newname flags)
  | setExecutable ino x => exact phased_map _ (Projection.recordsFirst_setExecutable ino x)

namespace Projection

variable {P : Projection} {w₀ w₁ w w' t : World} {g : Notes} {l : Action} {upd : World → World}
  {next : World → Notes} {α : Type}

/-- All records come first, and if one fails nothing has been changed. -/
theorem endures_recordsFirst {m : Handler α} (hm : P.RecordsFirst m) :
    Endures Completed Broken (Unbegun w₀) m (fun _ hs _ => foretold hs = records hs) fun hs fault t =>
      foretold hs = records hs ∧ ∀ p, fault = some (.record p) → SameTree t w₀ := by
  refine hm.endures ?_ ?_ (fun hs w hi => foretold_eq_records hi.1)
    (fun hs w hi => ⟨hi, by simp⟩) (fun l upd hs w t hl hi hf => ?_) fun l upd hs w t hl hi hf => ?_
  · intro l upd hs w w' hl hi hd
    refine ⟨fun hmem => ?_, equivalence_sameTree.trans (completed_silent hl hd) hi.2⟩
    rcases List.mem_append.mp hmem with hmem | hmem
    · exact hi.1 hmem
    · rw [List.mem_singleton] at hmem
      subst hmem
      cases hl
  · intro l upd hs w w' hl hi hd
    rw [foretold_append hl, records_append hl, hi]
  · exact ⟨foretold_eq_records hi.1, fun p _ => equivalence_sameTree.trans (broken_silent hl hf) hi.2⟩
  · exact ⟨hi, fun p hp => (hl p (Option.some.inj hp)).elim⟩

end Projection

namespace World

open Projection

variable {P : Projection} {w₀ w₁ w w' t : World} {g : Notes} {l : Action} {upd : World → World}
  {next : World → Notes}

/-! What no record covers is spared by steps that fail as well. -/

theorem Spares.completed (h : Spares w₁ g w) (hr : P.Rule g l upd next) (hd : Completed l upd w w') :
    Spares w₁ (next w) w' := by
  have hs := spares_rule hr h
  cases hd with
  | whole => exact hs
  | stuck op hl hupd =>
    subst hupd
    have hcontent := Overlay.content_stuck w.overlay op
    refine ⟨hs.unrooted, ⟨fun p q c x y hp hq hc => ?_, hs.distinct.minted⟩, hs.entry, fun p c x hp hlp => ?_,
      hs.owned⟩
    · rcases hcontent c with heq | heq
      · rw [heq] at hc
        exact hs.distinct.apart p q c x y hp hq hc
      · rw [heq] at hc
        exact h.distinct.apart_step hp hq (.inr hc)
    · rcases hcontent c with heq | heq
      · rw [heq]
        exact hs.content p c x hp hlp
      · rw [heq]
        have hp₀ : ¬ g.Covers p := fun hc => hp (hc.extends (hr.extends w))
        refine h.content p c x hp₀ ?_
        rw [h.entry p hp₀, ← hs.entry p hp]
        exact hlp

theorem Spares.broken (h : Spares w₁ g w) (hr : P.Rule g l upd next) (hf : Broken l upd w t) :
    Spares w₁ g t := by
  cases hf with
  | read | edit => exact h
  | record => exact h.quiet rfl
  | mutate op f hl hupd hfails =>
    have hs := spares_rule hr h
    subst hupd
    have hchange := fun c => Overlay.content_failed_ne hfails (c := c)
    have hcovers : ∀ p, (next w).Covers p → g.Covers p := by
      rintro p ⟨q, hq, hne, hu⟩
      refine ⟨q, (hr.recorded w hq).resolve_right ?_, hne, hu⟩
      rw [hl]
      simp
    refine ⟨h.unrooted, ⟨fun p q c x y hp hq hc => ?_, fun p c x hp hpid => ?_⟩, h.entry, fun p c x hp hlp => ?_,
      h.owned⟩
    · by_cases heq : (w.overlay.failed op f).disk.content c = w.overlay.disk.content c
      · rw [heq] at hc
        exact h.distinct.apart p q c x y hp hq hc
      · rcases hchange c heq with ⟨hnew, -⟩ | ⟨hnone, -⟩
        · exact (h.distinct.ne_newContentId hp hnew).elim
        · exact (hc hnone).elim
    · have hlt := h.distinct.minted p c x hp hpid
      have hseq := Overlay.contentSeq_step w.overlay op
      show c.seq < (w.overlay.step op).contentSeq
      omega
    · rw [← h.content p c x hp hlp]
      by_contra hne
      rcases hchange c hne with ⟨hnew, -⟩ | ⟨hnone, q, y, hq, htomb⟩
      · exact h.distinct.ne_newContentId hlp hnew
      · have hsome : w.overlay.disk.content c ≠ none := fun hh => hne (hnone.trans hh.symm)
        obtain rfl := h.distinct.apart p q c x y hlp hq hsome
        -- an entry that the step makes a tombstone is at a covered path
        have hkeep := hs.entry p fun hc => hp (hcovers p hc)
        rw [← h.entry p hp] at hkeep
        have hlost : w.overlay.lookup p = some .tombstone := hkeep.symm.trans htomb
        rw [hlost] at hq
        cases hq

theorem appended_completed (hr : P.Rule g l upd next) (hd : Completed l upd w w') :
    Appended P.limits w w' l.recorded := by
  cases hd with
  | whole => exact hr.appended w
  | stuck op hl =>
    subst hl
    exact appended_of_eq rfl

theorem spares_falters {op : Op} {fuel : Nat} {ls : List Action} {fault : Option Action}
    {r : Outcome Error Reply} (hroot : w.Unrooted) (hd : w.overlay.Distinct)
    (h : (op.handler P fuel).Falters w ls fault r t) :
    ∃ g, Spares w g t ∧ (∀ q ∈ g.recorded, Action.record q ∈ ls) ∧
      ((∀ p, fault ≠ some (.record p)) → Appended P.limits w t (ls.flatMap Action.recorded)) := by
  have hstart : Appended P.limits w w (([] : List Action).flatMap Action.recorded) := appended_of_eq rfl
  have hstep : ∀ (g : Notes) (l : Action) (upd : World → World) (next : World → Notes) (hs : List Action)
      (v v' : World), P.Rule g l upd next →
      (Spares w g v ∧ (∀ q ∈ g.recorded, Action.record q ∈ hs) ∧
        Appended P.limits w v (hs.flatMap Action.recorded)) → Completed l upd v v' →
      Spares w (next v) v' ∧ (∀ q ∈ (next v).recorded, Action.record q ∈ hs ++ [l]) ∧
        Appended P.limits w v' ((hs ++ [l]).flatMap Action.recorded) := by
    rintro g l upd next hs v v' hr ⟨hsp, hrec, happ⟩ hd
    refine ⟨hsp.completed hr hd, fun q hq => ?_, ?_⟩
    · rcases hr.recorded v hq with hq | rfl
      · exact List.mem_append_left _ (hrec q hq)
      · exact List.mem_append_right _ (List.mem_singleton_self _)
    · simpa using happ.trans (appended_completed hr hd)
  obtain ⟨g, u, ⟨hs, hrec, happ⟩, hend⟩ := (op.announces P fuel .empty).faulty
    (fun _ _ _ hA => hA.1.unrooted) hstep ⟨spares_self hroot hd, by simp [Notes.empty], hstart⟩ h
  rw [List.nil_append] at hrec happ
  rcases hend with ⟨-, rfl⟩ | ⟨l, upd, next, rfl, hr, hf, -⟩
  · exact ⟨g, hs, hrec, fun _ => happ⟩
  · refine ⟨g, hs.broken hr hf, hrec, fun hno => ?_⟩
    have hjournal : t.journal = u.journal := by
      cases hf with
      | read | mutate | edit => rfl
      | record path hl => exact (hno path (congrArg some hl)).elim
    simpa using happ.trans (appended_of_eq hjournal)

end World

/-- A call of a handler, the steps that it completes, the step that it fails at, and what it returns. -/
structure FaultyCall where
  op : Op
  fuel : Nat
  labels : List Action
  fault : Option Action
  result : Outcome Error Reply

namespace FaultyCall

variable {P : Projection} {w t u : World} {call : FaultyCall} {calls : List FaultyCall}

/-- The call is of one of the handlers that change the tree, and it returns. -/
def Ends (P : Projection) (w : World) (call : FaultyCall) (t : World) : Prop :=
  call.op.Mutator ∧ call.result ≠ .diverge ∧
    (call.op.handler P call.fuel).Falters w call.labels call.fault call.result t

/-- If an append fails nothing is changed. Else the records are in the journal, and what the call
changes is at or beneath a path that it had recorded before its first overlay operation. -/
structure Forewarned (P : Projection) (w : World) (call : FaultyCall) (t : World) : Prop where
  refused : ∀ p, call.fault = some (.record p) → (∃ e, call.result = .error e) ∧ SameTree t w
  appended : (∀ p, call.fault ≠ some (.record p)) →
    World.Appended P.limits w t (call.labels.flatMap Action.recorded)
  covered : ∀ p, P.resolve t.overlay p ≠ P.resolve w.overlay p ∨
    P.visible t.overlay p ≠ P.visible w.overlay p → ∃ q ∈ foretold call.labels, q ≠ root ∧ Under q p

/-- The records of a call come first, and an append that fails ends it before it has changed anything. -/
theorem Ends.recordsFirst (h : call.Ends P w t) : foretold call.labels = records call.labels ∧
    ∀ p, call.fault = some (.record p) → (∃ e, call.result = .error e) ∧ SameTree t w := by
  obtain ⟨hop, hret, hrun⟩ := h
  have hfirst := Projection.endures_recordsFirst (Op.recordsFirst hop call.fuel) [] w call.labels call.fault
    call.result t ⟨by simp, equivalence_sameTree.refl w⟩ hrun
  cases hr : call.result with
  | ok a =>
    rw [hr] at hfirst hrun
    refine ⟨hfirst, fun p hp => ?_⟩
    obtain ⟨e, he⟩ := faulty_error hrun hp
    cases he
  | error e =>
    rw [hr] at hfirst
    exact ⟨hfirst.1, fun p hp => ⟨⟨e, rfl⟩, hfirst.2 p hp⟩⟩
  | diverge => exact (hret hr).elim

theorem Ends.forewarned (h : call.Ends P w t) (hroot : w.Unrooted) (hd : w.overlay.Distinct) :
    call.Forewarned P w t ∧ t.Unrooted ∧ t.overlay.Distinct := by
  obtain ⟨g, hs, hrec, happ⟩ := World.spares_falters hroot hd h.2.2
  refine ⟨⟨h.recordsFirst.2, happ, fun p hp => ?_⟩, hs.unrooted, hs.distinct⟩
  by_contra hno
  have hc : ¬ g.Covers p := by
    rintro ⟨q, hq, hne, hu⟩
    refine hno ⟨q, ?_, hne, hu⟩
    rw [h.recordsFirst.1, mem_records]
    exact hrec q hq
  rcases hp with hp | hp
  · exact hp (hs.resolve hc)
  · exact hp (hs.visible hc)

theorem forewarned_run (h : Trace (Ends P) w calls u) (hroot : w.Unrooted) (hd : w.overlay.Distinct) :
    u.Unrooted ∧ u.overlay.Distinct := by
  induction h with
  | nil w => exact ⟨hroot, hd⟩
  | cons hcall _ ih =>
    obtain ⟨-, hroot', hd'⟩ := hcall.forewarned hroot hd
    exact ih hroot' hd'

/-! Two paths that share a content file: a truncation of the one that is not above the other. -/

theorem visible_file {ov : Overlay} {p : RepoPath} {c : ContentId} {x : Bool} {bytes : Bytes}
    (hp : p.Ordinary) (hl : ov.lookup p = some (.file c x)) (hc : ov.disk.content c = some bytes) :
    P.visible ov p = .ok (some (.file x bytes)) := by
  have hopen : ov.openContent p = .ok c := by
    rw [Overlay.openContent, hl]
    simp [hc]
  rw [Projection.visible, Projection.resolve_entry hp hl]
  simp only [Projection.entryResolved, Projection.seen, Projection.nodeOf, Overlay.readContent, hopen]
  show Except.ok (some (Node.file x ((ov.disk.content c).getD []))) = _
  rw [hc, Option.getD_some]

/-- The kernel's table with one path looked up. -/
def lookedUp (ov : Overlay) (p : RepoPath) : World :=
  ⟨ov, (InodeTable.new.lookup p).2, some (⟨[], 0⟩, JournalDir.empty.createLog)⟩

theorem pathOf_lookedUp (ov : Overlay) {p : RepoPath} (hp : p ≠ root) :
    (lookedUp ov p).pathOf (InodeTable.new.lookup p).1.1 = .ok p := by
  have hpath := InodeTable.new.pathOf_lookup p
  rw [World.pathOf, if_neg fun heq => ?_]
  · simp only [lookedUp, hpath]
  · rw [heq] at hpath
    exact hp (InodeTable.rootSafe_new.lookup p p hpath)

theorem truncate_shared (P : Projection) {ov : Overlay} {p q : RepoPath} {c : ContentId} {x y : Bool}
    (hp : p.Ordinary) (hq : q.Ordinary) (hlp : ov.lookup p = some (.file c x))
    (hlq : ov.lookup q = some (.file c y)) (hc : ov.disk.content c ≠ none) :
    ∃ (call : FaultyCall) (t : World), call.Ends P (lookedUp ov p) t ∧ foretold call.labels = [p] ∧
      P.visible t.overlay q ≠ P.visible ov q := by
  obtain ⟨bytes, hbytes⟩ := Option.ne_none_iff_exists'.mp hc
  have hopen : ov.openContent p = .ok c := by
    rw [Overlay.openContent, hlp]
    simp [hbytes]
  let w := lookedUp ov p
  let ino := (InodeTable.new.lookup p).1.1
  let w' : World := { w with journal := w.journal.map fun j => record P.limits j.1 j.2 p.bytes }
  let t : World := { w' with overlay := ov.editContent c (setLen (bytes.length + 1)) }
  have hpath : w.pathOf ino = .ok p := pathOf_lookedUp ov hp.1
  have hrun : Handler.Falters (P.truncate ino (bytes.length + 1)) w
      ([.read] ++ ([.read] ++ ([.record p] ++ ([.read] ++ [.mutate])))) none (.ok ()) t := by
    refine faulty_bind_ok (faulty_atom_ok .whole hpath) ?_
    refine faulty_bind_ok (faulty_atom_ok .whole (congrArg Except.ok hlp)) ?_
    refine faulty_bind_ok (faulty_atom_ok (t := w') .whole rfl) ?_
    exact faulty_bind_ok (faulty_atom_ok .whole hopen) (faulty_atom_ok .whole rfl)
  refine ⟨⟨.truncate ino (bytes.length + 1), 0, _, none, .ok .unit⟩, t,
    ⟨trivial, by simp, faulty_bind_ok hrun (.done _ _)⟩, rfl, ?_⟩
  have hlq' : t.overlay.lookup q = some (.file c y) := by
    rw [Overlay.lookup_editContent]
    exact hlq
  have hbytes' := Overlay.content_editContent_self hbytes (setLen (bytes.length + 1))
  rw [visible_file hq hlq hbytes, visible_file hq hlq' hbytes']
  intro heq
  have hlen := congrArg List.length (by simpa using heq : setLen (bytes.length + 1) bytes = bytes)
  simp [setLen] at hlen

end FaultyCall

/-- An append that fails leaves the tree alone, in any state. In a process whose new content ids are not
in use every call of every run announces what it changes if and only if no two paths share a content file
that exists. -/
theorem changes_forewarned_iff (P : Projection) :
    (∀ w (call : FaultyCall) t, call.Ends P w t → ∀ p, call.fault = some (.record p) →
      (∃ e, call.result = .error e) ∧ SameTree t w) ∧
    ∀ ov : Overlay, (∀ p e, ov.lookup p = some e → p.Ordinary) → ov.Minted →
      ((∀ w calls u, w.overlay = ov → Trace (FaultyCall.Ends P) w calls u →
          ∀ (call : FaultyCall) t, call.Ends P u t → call.Forewarned P u t) ↔
        ∀ p q c x y, ov.lookup p = some (.file c x) → ov.lookup q = some (.file c y) →
          ov.disk.content c ≠ none → p = q) := by
  refine ⟨fun w call t h => h.recordsFirst.2, fun ov hord hminted => ⟨fun h => ?_, fun h => ?_⟩⟩
  · -- one of two paths is not above the other
    have hapart : ∀ p q c x y, ov.lookup p = some (.file c x) → ov.lookup q = some (.file c y) →
        ov.disk.content c ≠ none → Under p q := by
      intro p q c x y hp hq hc
      obtain ⟨call, t, hends, hfore, hne⟩ :=
        FaultyCall.truncate_shared P (hord p _ hp) (hord q _ hq) hp hq hc
      obtain ⟨r, hr, -, hu⟩ := (h _ [] _ rfl (.nil _) call t hends).covered q (.inr hne)
      rw [hfore, List.mem_singleton] at hr
      exact hr ▸ hu
    intro p q c x y hp hq hc
    have hpq := hapart p q c x y hp hq hc
    have hqp := hapart q p c y x hq hp hc
    exact hpq.antisymm hqp
  · intro w calls u hw hrun call t hends
    have hroot : w.Unrooted := by
      rw [World.Unrooted, hw, Option.eq_none_iff_forall_ne_some]
      exact fun e he => (hord root e he).1 rfl
    have hd : w.overlay.Distinct := by
      rw [hw]
      exact ⟨h, hminted⟩
    obtain ⟨hroot', hd'⟩ := FaultyCall.forewarned_run hrun hroot hd
    exact (hends.forewarned hroot' hd').1

/-- An overlay with the one file `a`. -/
theorem changes_forewarned_iff_one_file :
    let ov := (Overlay.fresh 1).run [.createFile (letter 97) false none]
    ov.lookup (letter 97) = some (.file ⟨1, 0⟩ false) ∧
      ∀ w calls u, w.overlay = ov → Trace (FaultyCall.Ends smallProjection) w calls u →
        ∀ (call : FaultyCall) t, call.Ends smallProjection u t → call.Forewarned smallProjection u t := by
  intro ov
  have hentry : ∀ p e, ov.lookup p = some e → p = letter 97 := by
    intro p e he
    by_contra hp
    have hnone : ov.lookup p = none := Function.update_of_ne hp _ _
    rw [hnone] at he
    cases he
  have hord : ∀ p e, ov.lookup p = some e → p.Ordinary := by
    intro p e he
    rw [hentry p e he]
    exact ⟨by decide, by decide⟩
  have hminted : ov.Minted := Overlay.minted_run (Overlay.tidy_fresh 1).minted _
  refine ⟨by decide, ((changes_forewarned_iff smallProjection).2 ov hord hminted).mpr ?_⟩
  intro p q c x y hp hq _
  rw [hentry p _ hp, hentry q _ hq]

/-- Behind a crash in the rename of `a` to `b` both are there, with one content file. A truncation of one
of them, which is all that it records, changes the other. -/
theorem shared_content_changes_unrecorded :
    let d := ((Overlay.fresh 1).run [.createFile (letter 97) false none]).crashDisk
      (.rename (letter 97) (letter 98)) 3
    let order := [MetaName.sidecar (letter 97), .sidecar (letter 98)]
    Overlay.ReadDir d order ∧ ∃ (w : World) (call : FaultyCall) (t : World),
      w.overlay = Overlay.openDisk d order 2 ∧
      call.Ends smallProjection w t ∧ ¬ call.Forewarned smallProjection w t := by
  intro d order
  refine ⟨⟨by decide, fun name => ?_⟩, ?_⟩
  · show _ ↔ ((((Disk.empty.exec (.createContent ⟨1, 0⟩)).execAll
      (Overlay.persist (letter 97) (.file ⟨1, 0⟩ false))).execAll
      (Overlay.persist (letter 98) (.file ⟨1, 0⟩ false))).metaFiles name).isSome = true
    rw [Disk.metaFiles_persist, Disk.metaFiles_persist]
    by_cases hb : name = .sidecar (letter 98)
    · simp [hb, order]
    · by_cases htmp : name = .tmp (letter 98)
      · simp [htmp, order]
      · by_cases ha : name = .sidecar (letter 97)
        · have hab : letter 97 ≠ letter 98 := by decide
          simp [ha, order, hab]
        · by_cases htmp' : name = .tmp (letter 97)
          · simp [htmp', order]
          · simp [hb, ha, htmp, htmp', order, Disk.exec, Disk.setContent, Disk.empty]
  · have ha : (letter 97).Ordinary := ⟨by decide, by decide⟩
    have hb : (letter 98).Ordinary := ⟨by decide, by decide⟩
    have hla : (Overlay.openDisk d order 2).lookup (letter 97) = some (.file ⟨1, 0⟩ false) := by decide
    have hlb : (Overlay.openDisk d order 2).lookup (letter 98) = some (.file ⟨1, 0⟩ false) := by decide
    have hcontent : (Overlay.openDisk d order 2).disk.content ⟨1, 0⟩ ≠ none := by decide
    obtain ⟨call, t, hends, hfore, hne⟩ := FaultyCall.truncate_shared smallProjection
      ha hb hla hlb hcontent
    refine ⟨_, call, t, rfl, hends, fun h => ?_⟩
    obtain ⟨r, hr, -, hu⟩ := h.covered (letter 98) (.inr hne)
    rw [hfore, List.mem_singleton] at hr
    rw [hr] at hu
    exact absurd hu (by decide)

end LazyMount
