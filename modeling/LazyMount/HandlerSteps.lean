import LazyMount.Handlers
import LazyMount.Layering

/-! The steps that handlers are made of. -/

namespace LazyMount

open Prog Handler

def SameTree (w v : World) : Prop := w.overlay = v.overlay ∧ w.inodes = v.inodes

theorem equivalence_sameTree : Equivalence SameTree :=
  ⟨fun _ => ⟨rfl, rfl⟩, fun h => ⟨h.1.symm, h.2.symm⟩, fun h h' => ⟨h.1.trans h'.1, h.2.trans h'.2⟩⟩

/-- The operation gives entries to ordinary paths only, and no base-ref that is a directory. -/
structure OverlayOp.Ordinary (op : OverlayOp) : Prop where
  writes : ∀ p ∈ op.writes, p.Ordinary
  mode : ∀ p oid mode, op = .putBaseRef p oid mode → mode.kind ≠ .dir

namespace Projection

variable (P : Projection)

inductive Quiet : Action → (World → World) → Prop
  | read : Quiet .read id
  | fetch (blob : Fetch) : Quiet (.fetch blob) id
  | record (path : RepoPath) : Quiet (.record path)
      fun w => { w with journal := w.journal.map fun j => record P.limits j.1 j.2 path.bytes }
  | inode (f : InodeTable → InodeTable) (hf : ∀ t, t.RootSafe → (f t).RootSafe) :
    Quiet .inode fun w => { w with inodes := f w.inodes }

inductive HandlerStep : Action → (World → World) → Prop
  | quiet {l : Action} {upd : World → World} (h : P.Quiet l upd) : HandlerStep l upd
  | mutate (op : OverlayOp) :
    HandlerStep .mutate fun w => { w with overlay := w.overlay.step op }
  | edit (content : ContentId) (f : Bytes → Bytes) :
    HandlerStep .mutate fun w => { w with overlay := w.overlay.editContent content f }

/-- A handler's step, whose overlay operation is ordinary. -/
inductive OrdinaryStep : Action → (World → World) → Prop
  | quiet {l : Action} {upd : World → World} (h : P.Quiet l upd) : OrdinaryStep l upd
  | mutate (op : OverlayOp) (h : op.Ordinary) :
    OrdinaryStep .mutate fun w => { w with overlay := w.overlay.step op }
  | edit (content : ContentId) (f : Bytes → Bytes) :
    OrdinaryStep .mutate fun w => { w with overlay := w.overlay.editContent content f }

variable {P} {α : Type}

theorem OrdinaryStep.handlerStep {l : Action} {upd : World → World} (h : P.OrdinaryStep l upd) :
    P.HandlerStep l upd := by
  cases h with
  | quiet h => exact .quiet h
  | mutate op _ => exact .mutate op
  | edit content f => exact .edit content f

theorem quiet_read {f : World → Except Error α} (h : ∀ w v, SameTree w v → f w = f v) :
    Within P.Quiet SameTree (.read .read f : Handler α) := within_atom .read h

theorem quiet_pathOf (ino : Nat) : Within P.Quiet SameTree (pathOf ino) :=
  quiet_read fun w v h => by rw [World.pathOf, World.pathOf, h.2]

theorem quiet_lookupEntry (path : RepoPath) : Within P.Quiet SameTree (lookupEntry path) :=
  quiet_read fun w v h => by rw [h.1]

theorem quiet_openContent (path : RepoPath) : Within P.Quiet SameTree (openContent path) :=
  quiet_read fun w v h => by rw [h.1]

theorem quiet_resolveStep (path : RepoPath) : Within P.Quiet SameTree (P.resolveStep path) :=
  quiet_read fun w v h => by rw [h.1]

theorem quiet_baselineResolveStep (path : RepoPath) :
    Within P.Quiet SameTree (P.baselineResolveStep path) := quiet_read fun _ _ _ => rfl

theorem quiet_materialize (oid : ObjectId) : Within P.Quiet SameTree (P.materialize oid) :=
  within_atom (.fetch (.blobToFile oid)) fun _ _ _ => rfl

theorem quiet_cachedSize (oid : ObjectId) : Within P.Quiet SameTree (P.cachedSize oid) :=
  within_atom (.fetch (.objectSize oid)) fun _ _ _ => rfl

theorem quiet_recordChangeFile (path : RepoPath) :
    Within P.Quiet SameTree (P.recordChangeFile path) := within_atom (.record path) fun _ _ _ => rfl

theorem quiet_recordChange (path : RepoPath) : Within P.Quiet SameTree (P.recordChange path) := by
  refine within_bind (quiet_recordChangeFile path) fun _ => ?_
  split
  · split
    · exact within_pure ()
    · exact quiet_recordChangeFile _
  · exact within_pure ()

theorem quiet_inodeLookup (path : RepoPath) : Within P.Quiet SameTree (inodeLookup path) :=
  within_atom (.inode (fun t => (t.lookup path).2) fun _ ht => ht.lookup path) fun w v h => by rw [h.2]

theorem quiet_inodeForget (ino n : Nat) : Within P.Quiet SameTree (inodeForget ino n) :=
  within_atom (.inode (·.forget ino n) fun _ ht => ht.forget ino n) fun _ _ _ => rfl

theorem quiet_inodeUnlink (path : RepoPath) : Within P.Quiet SameTree (inodeUnlink path) :=
  within_atom (.inode (·.unlink path) fun _ ht => ht.unlink path) fun _ _ _ => rfl

theorem quiet_inodeRename {old : RepoPath} (h : old ≠ RepoPath.root) (new : RepoPath) :
    Within P.Quiet SameTree (inodeRename old new) :=
  within_atom (.inode (·.rename old new) fun _ ht => ht.rename h new) fun _ _ _ => rfl

theorem quiet_childPath (parent : Nat) (name : Bytes) :
    Within P.Quiet SameTree (childPath parent name) := by
  refine within_bind (quiet_pathOf parent) fun dir => within_bind (within_liftExcept _) fun path => ?_
  split
  · exact within_fail _
  · exact within_pure _

theorem returns_childPath (parent : Nat) (name : Bytes) :
    Returns RepoPath.Ordinary (childPath parent name) := by
  refine returns_bind fun dir => ?_
  cases hj : Projection.join dir name with
  | error e => trivial
  | ok path =>
    show Returns _ (if path.components = [gitfileName] then _ else _)
    split
    · trivial
    · rename_i hg
      exact ⟨(join_eq_ok.mp hj).2.ne_root, hg⟩

theorem quiet_attrOf (ino generation : Nat) (r : Resolved) :
    Within P.Quiet SameTree (P.attrOf ino generation r) := by
  cases r with
  | dir | gitfile => exact within_pure _
  | file source x =>
    cases source with
    | overlay path => exact within_bind (quiet_read fun w v h => by rw [h.1]) fun _ => within_pure _
    | baseline oid => exact within_bind (quiet_cachedSize oid) fun _ => within_pure _
  | symlink source =>
    cases source with
    | overlay target => exact within_pure _
    | baseline oid => exact within_bind (quiet_cachedSize oid) fun _ => within_pure _

theorem quiet_lookup (parent : Nat) (name : Bytes) : Within P.Quiet SameTree (P.lookup parent name) := by
  refine within_bind (quiet_pathOf parent) fun _ => within_bind (within_liftExcept _) fun child =>
    within_bind (quiet_resolveStep child) fun r => ?_
  cases r with
  | none => exact within_pure _
  | some r =>
    exact within_bind (quiet_inodeLookup child) fun _ =>
      within_bind (quiet_attrOf _ _ r) fun _ => within_pure _

theorem quiet_getattr (ino : Nat) : Within P.Quiet SameTree (P.getattr ino) := by
  refine within_bind (quiet_pathOf ino) fun path => within_bind (quiet_resolveStep path) fun r => ?_
  cases r with
  | none => exact within_fail _
  | some r => exact within_bind (quiet_inodeLookup path) fun _ => quiet_attrOf _ _ r

theorem quiet_push (path : RepoPath) (name : Bytes) (kind : Kind) :
    Within P.Quiet SameTree (push path name kind) :=
  within_bind (within_liftExcept _) fun child =>
    within_bind (quiet_inodeLookup child) fun _ => within_pure _

theorem quiet_listBaseline (path : RepoPath) (e : TreeEntry) :
    Within P.Quiet SameTree (listBaseline path e) := by
  rw [listBaseline]
  split
  · exact within_pure _
  · refine within_bind (within_liftExcept _) fun child => within_bind (quiet_lookupEntry child) fun o => ?_
    cases o with
    | none => exact quiet_push path e.name e.mode.kind
    | some => exact within_pure _

theorem quiet_listOverlay (path : RepoPath) (child : Bytes × OverlayEntry) :
    Within P.Quiet SameTree (listOverlay path child) := by
  rw [listOverlay]
  split
  · exact within_pure _
  all_goals exact quiet_push _ _ _

theorem quiet_readdir (ino : Nat) : Within P.Quiet SameTree (P.readdir ino) := by
  refine within_bind (quiet_pathOf ino) fun path => within_bind (quiet_resolveStep path) fun r => ?_
  split
  · refine within_bind (quiet_read fun _ _ _ => rfl) fun entries =>
      within_bind (within_collect (quiet_listBaseline path)) fun _ =>
      within_bind (quiet_read fun w v h => by rw [h.1]) fun kids =>
      within_bind (within_collect (quiet_listOverlay path)) fun _ => within_bind ?_ fun _ => within_pure _
    split
    · exact quiet_push _ _ _
    · exact within_pure _
  · exact within_fail _

/-! The handlers that change the overlay. -/

theorem Quiet.within {m : Handler α} (h : Within P.Quiet SameTree m) :
    Within P.OrdinaryStep SameTree m := h.mono fun _ _ => .quiet

theorem within_mutate {op : OverlayOp} (h : op.Ordinary) :
    Within P.OrdinaryStep SameTree (mutate op) := within_atom (.mutate op h) fun _ _ _ => rfl

theorem ordinary_singleton {op : OverlayOp} {p : RepoPath} (hop : op.writes = [p]) (h : p.Ordinary)
    (hm : ∀ q oid mode, op = .putBaseRef q oid mode → mode.kind ≠ .dir) : op.Ordinary := by
  refine ⟨fun q hq => ?_, hm⟩
  rw [hop] at hq
  rwa [List.mem_singleton.mp hq]

theorem ordinary_baseRef {dst : RepoPath} (h : dst.Ordinary) (oid : ObjectId) (x : Bool) :
    (OverlayOp.putBaseRef dst oid (if x then .executable else .regular)).Ordinary := by
  refine ordinary_singleton rfl h fun q o mode heq => ?_
  cases heq
  cases x <;> simp [GitMode.kind]

theorem within_createFile {path : RepoPath} (hp : path.Ordinary) (x : Bool) (seed : Option Bytes) :
    Within P.OrdinaryStep SameTree (createFile path x seed) :=
  within_atom (.mutate _ (ordinary_singleton rfl hp (by simp))) fun w v h => by rw [h.1]

theorem within_setExecutableBit (path : RepoPath) (x : Bool) :
    Within P.OrdinaryStep SameTree (setExecutableBit path x) :=
  within_atom (.mutate (.setExecutable path x) ⟨by simp [OverlayOp.writes], by simp⟩) fun w v h => by rw [h.1]

theorem within_editContent (content : ContentId) (edit : Bytes → Bytes) :
    Within P.OrdinaryStep SameTree (editContent content edit) := within_atom (.edit content edit) fun _ _ _ => rfl

theorem within_childPath {parent : Nat} {name : Bytes} {f : RepoPath → Handler α}
    (hf : ∀ path, path.Ordinary → Within P.OrdinaryStep SameTree (f path)) :
    Within P.OrdinaryStep SameTree (childPath parent name >>= f) :=
  within_bind_of (Quiet.within (quiet_childPath parent name)) (returns_childPath parent name) hf

theorem ordinary_of_resolve {ov : Overlay} {path : RepoPath} {oid : ObjectId} {x : Bool}
    (h : P.resolve ov path = .ok (some (.file (.baseline oid) x))) : path.Ordinary := by
  rw [resolve] at h
  split at h
  · cases h
  · rename_i hroot
    split at h
    · cases h
    · rename_i hgit
      exact ⟨fun heq => hroot (RepoPath.isRoot_iff.mpr heq), hgit⟩

theorem returns_resolveStep (path : RepoPath) :
    Returns (fun r => ∀ oid x, r = some (.file (.baseline oid) x) → path.Ordinary)
      (P.resolveStep path) := by
  intro w
  dsimp only
  cases hr : P.resolve w.overlay path with
  | error e => trivial
  | ok r =>
    intro oid x heq
    rw [heq] at hr
    exact ordinary_of_resolve hr

theorem within_create (parent : Nat) (name : Bytes) (x : Bool) :
    Within P.OrdinaryStep SameTree (P.create parent name x) :=
  within_childPath fun path hp =>
    within_bind (Quiet.within (quiet_recordChange path)) fun _ =>
    within_bind (within_createFile hp x none) fun _ =>
    within_bind (Quiet.within (quiet_inodeLookup path)) fun _ => within_pure _

theorem within_openWrite (ino : Nat) (trunc : Bool) :
    Within P.OrdinaryStep SameTree (P.openWrite ino trunc) := by
  refine within_bind (Quiet.within (quiet_pathOf ino)) fun path =>
    within_bind (Quiet.within (quiet_recordChangeFile path)) fun _ =>
    within_bind (Quiet.within (quiet_lookupEntry path)) fun o => ?_
  split
  · exact within_bind (Quiet.within (quiet_openContent path)) fun c =>
      within_bind (within_whenever (within_editContent c _)) fun _ => within_pure _
  · refine within_bind_of (Quiet.within (quiet_resolveStep path)) (returns_resolveStep path) fun r hr => ?_
    split
    · refine within_bind ?_ fun seed => within_createFile (hr _ _ rfl) _ seed
      split
      · exact within_pure _
      · exact within_map _ (Quiet.within (quiet_materialize _))
    · exact within_fail _

theorem within_truncate (ino size : Nat) : Within P.OrdinaryStep SameTree (P.truncate ino size) := by
  refine within_bind (Quiet.within (quiet_pathOf ino)) fun path =>
    within_bind (Quiet.within (quiet_lookupEntry path)) fun o => ?_
  split
  · exact within_bind (Quiet.within (quiet_recordChangeFile path)) fun _ =>
      within_bind (Quiet.within (quiet_openContent path)) fun c => within_editContent c _
  · refine within_bind_of (Quiet.within (quiet_resolveStep path)) (returns_resolveStep path) fun r hr => ?_
    split
    · refine within_bind (Quiet.within (quiet_recordChangeFile path)) fun _ => within_bind ?_ fun seed =>
        within_bind (within_createFile (hr _ _ rfl) _ seed) fun c => within_editContent c _
      split
      · exact within_pure _
      · exact within_map _ (Quiet.within (quiet_materialize _))
    · exact within_fail _

theorem within_removeName {path : RepoPath} (hp : path.Ordinary) (onBaseline : Bool) :
    Within P.OrdinaryStep SameTree (P.removeName path onBaseline) := by
  refine within_bind (Quiet.within (quiet_recordChange path)) fun _ =>
    within_bind (within_mutate ?_) fun _ => Quiet.within (quiet_inodeUnlink path)
  cases onBaseline with
  | true => exact ordinary_singleton rfl hp (by simp)
  | false => exact ⟨by simp [OverlayOp.writes], by simp⟩

theorem within_unlink (parent : Nat) (name : Bytes) :
    Within P.OrdinaryStep SameTree (P.unlink parent name) := by
  refine within_childPath fun path hp =>
    within_bind (Quiet.within (quiet_baselineResolveStep path)) fun r => ?_
  split
  · exact within_removeName hp true
  · refine within_bind (Quiet.within (quiet_lookupEntry path)) fun o => ?_
    cases o with
    | none => exact within_fail _
    | some => exact within_removeName hp false

theorem within_mkdir (parent : Nat) (name : Bytes) :
    Within P.OrdinaryStep SameTree (P.mkdir parent name) := by
  refine within_childPath fun path hp =>
    within_bind (Quiet.within (quiet_resolveStep path)) fun r => ?_
  cases r with
  | some => exact within_fail _
  | none =>
    exact within_bind (Quiet.within (quiet_recordChange path)) fun _ =>
      within_bind (within_mutate (ordinary_singleton rfl hp (by simp))) fun _ =>
      within_bind (Quiet.within (quiet_inodeLookup path)) fun _ => within_pure _

theorem within_rmdir (parent : Nat) (name : Bytes) :
    Within P.OrdinaryStep SameTree (P.rmdir parent name) := by
  refine within_childPath fun path hp =>
    within_bind (Quiet.within (quiet_read fun w v h => by rw [h.1])) fun b => ?_
  split
  · refine within_bind (Quiet.within (quiet_read fun _ _ _ => rfl)) fun t => ?_
    split
    · exact within_removeName hp true
    · refine within_bind (Quiet.within (quiet_lookupEntry path)) fun o => ?_
      cases o with
      | none => exact within_fail _
      | some => exact within_removeName hp false
  · exact within_fail _

theorem within_symlink (parent : Nat) (name target : Bytes) :
    Within P.OrdinaryStep SameTree (P.symlink parent name target) :=
  within_childPath fun path hp =>
    within_bind (Quiet.within (quiet_recordChange path)) fun _ =>
    within_bind (within_mutate (ordinary_singleton rfl hp (by simp))) fun _ =>
    within_bind (Quiet.within (quiet_inodeLookup path)) fun _ => within_pure _

theorem moveChild_writes {cs cd : RepoPath} {r : Resolved} {op : OverlayOp}
    (h : moveChild cs cd r = some op) : op.writes = [cd] := by
  cases r with
  | file source x => cases source <;> cases h <;> rfl
  | symlink source => cases source <;> cases h <;> rfl
  | dir | gitfile => cases h

theorem moveChild_ordinary {cs cd : RepoPath} {r : Resolved} {op : OverlayOp}
    (h : moveChild cs cd r = some op) (hd : cd.Ordinary) : op.Ordinary := by
  refine ordinary_singleton (moveChild_writes h) hd fun q oid mode heq => ?_
  subst heq
  cases r with
  | file source x =>
    cases source with
    | overlay => cases h
    | baseline =>
      cases h
      cases x <;> simp [GitMode.kind]
  | symlink source =>
    cases source with
    | overlay => cases h
    | baseline =>
      cases h
      simp [GitMode.kind]
  | dir | gitfile => cases h

theorem within_renameDir (fuel : Nat) {src dst : RepoPath} (hsrc : src.Ordinary) (hdst : dst.Ordinary) :
    Within P.OrdinaryStep SameTree (P.renameDir fuel src dst) := by
  induction fuel generalizing src dst with
  | zero => exact within_diverge
  | succ fuel ih =>
    refine within_bind (within_mutate (ordinary_singleton rfl hdst (by simp))) fun _ =>
      within_bind (Quiet.within (quiet_read fun w v h => by rw [h.1])) fun kids =>
      within_bind (within_each fun kid => ?_) fun _ =>
      within_bind (within_mutate (ordinary_singleton rfl hsrc (by simp))) fun _ =>
        Quiet.within (quiet_inodeRename hsrc.1 dst)
    refine within_bind_liftExcept fun cs hcs => within_bind_liftExcept fun cd hcd => ?_
    have hs : cs.Ordinary := (join_eq_ok.mp hcs).2.ordinary hsrc.1
    have hd : cd.Ordinary := (join_eq_ok.mp hcd).2.ordinary hdst.1
    split
    · exact ih hs hd
    · split
      · rename_i op hop
        exact within_bind (within_mutate (moveChild_ordinary hop hd)) fun _ =>
          Quiet.within (quiet_inodeRename hs.1 cd)
      · exact within_pure _

theorem within_renameFile {src dst : RepoPath} (hsrc : src.Ordinary) (hdst : dst.Ordinary) :
    Within P.OrdinaryStep SameTree (P.renameFile src dst) := by
  have htomb : Within P.OrdinaryStep SameTree (mutate (.tombstone src)) :=
    within_mutate (ordinary_singleton rfl hsrc (by simp))
  refine within_bind (Quiet.within (quiet_lookupEntry src)) fun o => ?_
  cases o with
  | some =>
    exact within_bind (within_mutate (ordinary_singleton rfl hdst (by simp))) fun _ =>
      within_bind (Quiet.within (quiet_baselineResolveStep src)) fun _ =>
      within_bind (within_whenever htomb) fun _ => Quiet.within (quiet_inodeRename hsrc.1 dst)
  | none =>
    refine within_bind (Quiet.within (quiet_baselineResolveStep src)) fun r => ?_
    split
    · exact within_bind (within_mutate (ordinary_baseRef hdst _ _)) fun _ =>
        within_bind htomb fun _ => Quiet.within (quiet_inodeRename hsrc.1 dst)
    · exact within_bind (within_mutate (ordinary_singleton rfl hdst (by simp [GitMode.kind]))) fun _ =>
        within_bind htomb fun _ => Quiet.within (quiet_inodeRename hsrc.1 dst)
    · exact within_fail _

theorem within_rename (fuel parent : Nat) (name : Bytes) (newparent : Nat) (newname : Bytes)
    (flags : UInt32) :
    Within P.OrdinaryStep SameTree (P.rename fuel parent name newparent newname flags) := by
  refine within_childPath fun src hsrc => within_childPath fun dst hdst => ?_
  split
  · exact within_fail _
  · refine within_bind ?_ fun occupied => ?_
    · split
      · exact within_map _ (Quiet.within (quiet_resolveStep dst))
      · exact within_pure _
    · split
      · exact within_fail _
      · refine within_bind (Quiet.within (quiet_recordChange src)) fun _ =>
          within_bind (Quiet.within (quiet_recordChange dst)) fun _ =>
          within_bind (Quiet.within (quiet_resolveStep src)) fun r => ?_
        split
        · exact within_renameDir fuel hsrc hdst
        · exact within_renameFile hsrc hdst

theorem within_setExecutable (ino : Nat) (x : Bool) :
    Within P.OrdinaryStep SameTree (P.setExecutable ino x) := by
  refine within_bind (Quiet.within (quiet_pathOf ino)) fun path =>
    within_bind (Quiet.within (quiet_recordChangeFile path)) fun _ =>
    within_bind (Quiet.within (quiet_lookupEntry path)) fun o => ?_
  split
  · exact within_setExecutableBit path x
  · refine within_bind_of (Quiet.within (quiet_resolveStep path)) (returns_resolveStep path) fun r hr => ?_
    split
    · exact within_bind (Quiet.within (quiet_materialize _)) fun seed =>
        within_bind (within_createFile (hr _ _ rfl) x (some seed)) fun _ => within_pure _
    · exact within_fail _

end Projection

theorem Op.within_ordinary (P : Projection) (fuel : Nat) (op : Op) :
    Within P.OrdinaryStep SameTree (op.handler P fuel) := by
  cases op with
  | lookup parent name => exact within_map _ (Projection.Quiet.within (Projection.quiet_lookup parent name))
  | getattr ino => exact within_map _ (Projection.Quiet.within (Projection.quiet_getattr ino))
  | readdir ino => exact within_map _ (Projection.Quiet.within (Projection.quiet_readdir ino))
  | forget ino n => exact within_map _ (Projection.Quiet.within (Projection.quiet_inodeForget ino n))
  | create parent name x => exact within_map _ (Projection.within_create parent name x)
  | openWrite ino trunc => exact within_map _ (Projection.within_openWrite ino trunc)
  | truncate ino size => exact within_map _ (Projection.within_truncate ino size)
  | unlink parent name => exact within_map _ (Projection.within_unlink parent name)
  | mkdir parent name => exact within_map _ (Projection.within_mkdir parent name)
  | rmdir parent name => exact within_map _ (Projection.within_rmdir parent name)
  | symlink parent name target => exact within_map _ (Projection.within_symlink parent name target)
  | rename parent name newparent newname flags =>
    exact within_map _ (Projection.within_rename fuel parent name newparent newname flags)
  | setExecutable ino x => exact within_map _ (Projection.within_setExecutable ino x)

/-- Every handler is made of these steps, and goes on alike whatever the journal holds. -/
theorem Op.within (P : Projection) (fuel : Nat) (op : Op) :
    Within P.HandlerStep SameTree (op.handler P fuel) :=
  (op.within_ordinary P fuel).mono fun _ _ => Projection.OrdinaryStep.handlerStep

end LazyMount
