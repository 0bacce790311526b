import LazyMount.HandlerSteps
import LazyMount.Lib.Labels

/-! The blobs that a call asks for, as the labels of its steps tell. What a call does depends on no blob
but those. -/

namespace LazyMount

open Prog Handler

def Action.blob : Action → Option Fetch
  | .fetch blob => some blob
  | _ => none

/-- The fetch log of a call. -/
def Handler.fetched {α : Type} (m : Handler α) (w : World) : List Fetch := (m.labels w).filterMap Action.blob

/-- The calls that need no content: those that list, make, remove and move, and those that empty a file. -/
def Op.Structural : Op → Prop
  | .readdir _ | .mkdir _ _ | .unlink _ _ | .rmdir _ _ | .symlink _ _ _ | .create _ _ _ | .rename _ _ _ _ _ => True
  | .openWrite _ trunc => trunc = true
  | .truncate _ size => size = 0
  | .lookup _ _ | .getattr _ | .forget _ _ | .setExecutable _ _ => False

/-! The same repository with other blobs. -/

namespace Projection

variable (P : Projection) (raw : ObjectId → Except Error Bytes) (size : ObjectId → Except Error Nat)

def withBlobs : Projection := { P with store := { P.store with readBlobRaw := raw, objectSize := size } }

variable {P} {raw} {size}

theorem baselineResolve_withBlobs (path : RepoPath) :
    (P.withBlobs raw size).baselineResolve path = P.baselineResolve path := by
  have hwalk : ∀ cs tree, (P.withBlobs raw size).store.walk tree cs = P.store.walk tree cs := by
    intro cs
    induction cs with
    | nil => exact fun _ => rfl
    | cons c cs ih =>
      intro tree
      rw [GitStore.walk, GitStore.walk]
      simp only [ih]
      rfl
  exact hwalk path.components P.baselineTree

theorem baselineTreeAt_withBlobs (path : RepoPath) :
    (P.withBlobs raw size).baselineTreeAt path = P.baselineTreeAt path := by
  rw [baselineTreeAt, baselineTreeAt, baselineResolve_withBlobs]

theorem resolve_withBlobs (ov : Overlay) (path : RepoPath) :
    (P.withBlobs raw size).resolve ov path = P.resolve ov path := by
  have hentry : ∀ e, (P.withBlobs raw size).entryResolved path e = P.entryResolved path e := by
    intro e
    cases e with
    | dir => rw [entryResolved, entryResolved, baselineTreeAt_withBlobs]
    | file | symlink | tombstone | baseRef => rfl
  rw [resolve, resolve, baselineResolve_withBlobs]
  simp only [hentry]
  rfl

theorem dirIsEmpty_withBlobs (ov : Overlay) (path : RepoPath) :
    (P.withBlobs raw size).dirIsEmpty ov path = P.dirIsEmpty ov path := by
  rw [dirIsEmpty, dirIsEmpty, baselineTreeAt_withBlobs]
  rfl

theorem effectiveChildren_withBlobs (ov : Overlay) (dir : RepoPath) :
    (P.withBlobs raw size).effectiveChildren ov dir = P.effectiveChildren ov dir := by
  have hall : ∀ names, (P.withBlobs raw size).resolveAll ov dir names = P.resolveAll ov dir names := by
    intro names
    induction names with
    | nil => rfl
    | cons name names ih => simp only [resolveAll, ih, resolve_withBlobs]
  rw [effectiveChildren, effectiveChildren, resolve_withBlobs]
  simp only [hall]
  rfl

theorem resolveStep_withBlobs (path : RepoPath) :
    (P.withBlobs raw size).resolveStep path = P.resolveStep path := by
  simp only [resolveStep, resolve_withBlobs]

theorem baselineResolveStep_withBlobs (path : RepoPath) :
    (P.withBlobs raw size).baselineResolveStep path = P.baselineResolveStep path := by
  simp only [baselineResolveStep, baselineResolve_withBlobs]

theorem renameDir_withBlobs (fuel : Nat) (src dst : RepoPath) :
    (P.withBlobs raw size).renameDir fuel src dst = P.renameDir fuel src dst := by
  induction fuel generalizing src dst with
  | zero => rfl
  | succ fuel ih => simp only [renameDir, effectiveChildren_withBlobs, ih]

theorem readdir_withBlobs (ino : Nat) : (P.withBlobs raw size).readdir ino = P.readdir ino := by
  simp only [readdir, resolveStep_withBlobs]
  rfl

theorem unlink_withBlobs (parent : Nat) (name : Bytes) :
    (P.withBlobs raw size).unlink parent name = P.unlink parent name := by
  simp only [unlink, baselineResolveStep_withBlobs]
  rfl

theorem mkdir_withBlobs (parent : Nat) (name : Bytes) :
    (P.withBlobs raw size).mkdir parent name = P.mkdir parent name := by
  simp only [mkdir, resolveStep_withBlobs]
  rfl

theorem rmdir_withBlobs (parent : Nat) (name : Bytes) :
    (P.withBlobs raw size).rmdir parent name = P.rmdir parent name := by
  simp only [rmdir, dirIsEmpty_withBlobs, baselineTreeAt_withBlobs]
  rfl

theorem rename_withBlobs (fuel parent : Nat) (name : Bytes) (newparent : Nat) (newname : Bytes)
    (flags : UInt32) : (P.withBlobs raw size).rename fuel parent name newparent newname flags =
      P.rename fuel parent name newparent newname flags := by
  have hfile : ∀ src dst, (P.withBlobs raw size).renameFile src dst = P.renameFile src dst := by
    intro src dst
    simp only [renameFile, baselineResolveStep_withBlobs]
  simp only [rename, resolveStep_withBlobs, renameDir_withBlobs, hfile]
  rfl

end Projection

/-- The other repository has the same blob here. -/
def Fetch.Same (P : Projection) (raw : ObjectId → Except Error Bytes) (size : ObjectId → Except Error Nat) :
    Fetch → Prop
  | .objectSize oid => size oid = P.store.objectSize oid
  | .blobToFile oid => raw oid = P.store.readBlobRaw oid

def Action.Same (P : Projection) (raw : ObjectId → Except Error Bytes) (size : ObjectId → Except Error Nat)
    (l : Action) : Prop := ∀ blob, l = .fetch blob → blob.Same P raw size

namespace Projection

variable {P : Projection} {raw : ObjectId → Except Error Bytes} {size : ObjectId → Except Error Nat}

/-- The handler runs alike in a repository that has the blobs it asks for. -/
abbrev Alone {α : Type} (P : Projection) (raw : ObjectId → Except Error Bytes)
    (size : ObjectId → Except Error Nat) (m : Projection → Handler α) : Prop :=
  Follows (Action.Same P raw size) (m P) (m (P.withBlobs raw size))

theorem alone_cachedSize (oid : ObjectId) : P.Alone raw size (·.cachedSize oid) :=
  follows_read fun h => funext fun _ => h _ rfl

theorem alone_materialize (oid : ObjectId) : P.Alone raw size (·.materialize oid) :=
  follows_read fun h => funext fun _ => h _ rfl

theorem alone_resolveStep (path : RepoPath) : P.Alone raw size (·.resolveStep path) :=
  follows_of_eq (resolveStep_withBlobs path)

theorem alone_attrOf (ino generation : Nat) (r : Resolved) : P.Alone raw size (·.attrOf ino generation r) := by
  cases r with
  | dir | gitfile => exact follows_of_eq rfl
  | file source x =>
    cases source with
    | overlay path => exact follows_of_eq rfl
    | baseline oid => exact follows_bind (alone_cachedSize oid) fun _ => follows_of_eq rfl
  | symlink source =>
    cases source with
    | overlay target => exact follows_of_eq rfl
    | baseline oid => exact follows_bind (alone_cachedSize oid) fun _ => follows_of_eq rfl

theorem alone_lookup (parent : Nat) (name : Bytes) : P.Alone raw size (·.lookup parent name) := by
  refine follows_bind (follows_of_eq rfl) fun _ => follows_bind (follows_of_eq rfl) fun child =>
    follows_bind (alone_resolveStep child) fun r => ?_
  cases r with
  | none => exact follows_of_eq rfl
  | some r =>
    exact follows_bind (follows_of_eq rfl) fun _ =>
      follows_bind (alone_attrOf _ _ r) fun _ => follows_of_eq rfl

theorem alone_getattr (ino : Nat) : P.Alone raw size (·.getattr ino) := by
  refine follows_bind (follows_of_eq rfl) fun path => follows_bind (alone_resolveStep path) fun r => ?_
  cases r with
  | none => exact follows_of_eq rfl
  | some r => exact follows_bind (follows_of_eq rfl) fun _ => alone_attrOf _ _ r

theorem alone_seed (c : Prop) [Decidable c] (oid : ObjectId) :
    P.Alone raw size fun P => if c then pure none else some <$> P.materialize oid := by
  by_cases hc : c
  · simp only [Alone, if_pos hc]
    exact follows_of_eq rfl
  · simp only [Alone, if_neg hc]
    exact follows_map some (alone_materialize oid)

theorem alone_openWrite (ino : Nat) (trunc : Bool) : P.Alone raw size (·.openWrite ino trunc) := by
  refine follows_bind (follows_of_eq rfl) fun path => follows_bind (follows_of_eq rfl) fun _ =>
    follows_bind (follows_of_eq rfl) fun o => ?_
  rcases o with _ | _ | _ | _ | _ | _
  case some.file => exact follows_of_eq rfl
  all_goals
    refine follows_bind (alone_resolveStep path) fun r => ?_
    split
    · exact follows_bind (alone_seed _ _) fun _ => follows_of_eq rfl
    · exact follows_of_eq rfl

theorem alone_truncate (ino len : Nat) : P.Alone raw size (·.truncate ino len) := by
  refine follows_bind (follows_of_eq rfl) fun path => follows_bind (follows_of_eq rfl) fun o => ?_
  rcases o with _ | _ | _ | _ | _ | _
  case some.file => exact follows_of_eq rfl
  all_goals
    refine follows_bind (alone_resolveStep path) fun r => ?_
    split
    · exact follows_bind (follows_of_eq rfl) fun _ => follows_bind (alone_seed _ _) fun _ => follows_of_eq rfl
    · exact follows_of_eq rfl

theorem alone_setExecutable (ino : Nat) (exec : Bool) : P.Alone raw size (·.setExecutable ino exec) := by
  refine follows_bind (follows_of_eq rfl) fun path => follows_bind (follows_of_eq rfl) fun _ =>
    follows_bind (follows_of_eq rfl) fun o => ?_
  rcases o with _ | _ | _ | _ | _ | _
  case some.file => exact follows_of_eq rfl
  all_goals
    refine follows_bind (alone_resolveStep path) fun r => ?_
    split
    · exact follows_bind (alone_materialize _) fun _ => follows_of_eq rfl
    · exact follows_of_eq rfl

end Projection

/-- The log leaves nothing out: a call does the same, and asks for the same, in every repository that has
the blobs it asked for. -/
theorem Op.alone (P : Projection) (raw : ObjectId → Except Error Bytes) (size : ObjectId → Except Error Nat)
    (fuel : Nat) (op : Op) : P.Alone raw size fun P => op.handler P fuel := by
  cases op with
  | lookup parent name => exact follows_map _ (Projection.alone_lookup parent name)
  | getattr ino => exact follows_map _ (Projection.alone_getattr ino)
  | openWrite ino trunc => exact follows_map _ (Projection.alone_openWrite ino trunc)
  | truncate ino len => exact follows_map _ (Projection.alone_truncate ino len)
  | setExecutable ino exec => exact follows_map _ (Projection.alone_setExecutable ino exec)
  | readdir ino => exact follows_map _ (follows_of_eq (Projection.readdir_withBlobs ino))
  | forget | create | symlink => exact follows_of_eq rfl
  | unlink parent name => exact follows_map _ (follows_of_eq (Projection.unlink_withBlobs parent name))
  | mkdir parent name => exact follows_map _ (follows_of_eq (Projection.mkdir_withBlobs parent name))
  | rmdir parent name => exact follows_map _ (follows_of_eq (Projection.rmdir_withBlobs parent name))
  | rename parent name newparent newname flags =>
    exact follows_map _
      (follows_of_eq (Projection.rename_withBlobs fuel parent name newparent newname flags))

end LazyMount
