import LazyMount.DirectoryPages
import LazyMount.Lib.Watched

/-! Open files: a descriptor still has the bytes of a content file whose name is gone from the
directory, and no later file is given its id. -/

namespace LazyMount

open Function (update)
open Prog RepoPath Transition

/-- The bytes of the content files that have been removed. -/
abbrev Unlinked := ContentId → Option Bytes

def keepUnlinked (w w' : World) (gone : Unlinked) : Unlinked := fun c =>
  if (w'.overlay.disk.content c).isSome then gone c else (w.overlay.disk.content c).or (gone c)

/-- What a descriptor of the file reads, in the directory or out of it. -/
def bytesOf (s : World × Unlinked) (c : ContentId) : Option Bytes := (s.1.overlay.disk.content c).or (s.2 c)

namespace FileHandle

def ino : FileHandle → Nat
  | read ino _ => ino
  | write ino _ => ino

def content : FileHandle → Option ContentId
  | write _ c => some c
  | read _ (.overlay c) => some c
  | read _ _ => none

def Writes : FileHandle → Prop
  | write _ _ => True
  | read _ _ => False

end FileHandle

inductive FileEdit where
  | write (offset : Nat) (data : Bytes)
  | setLen (size : Nat)
deriving DecidableEq

def FileEdit.apply (bytes : Bytes) : FileEdit → Bytes
  | .write offset data => writeAt offset data bytes
  | .setLen size => LazyMount.setLen size bytes

def FileEdit.applyAll (es : List FileEdit) (bytes : Bytes) : Bytes := es.foldl FileEdit.apply bytes

/-- The content file that an inode's path has. -/
def World.opened (w : World) (ino : Nat) : Option ContentId :=
  match w.pathOf ino with
  | .ok path => (w.overlay.openContent path).toOption
  | .error _ => none

/-- libc::EBADF -/
def ebadf : Nat := 9

structure OpenFiles where
  fs : TransparentFs
  unlinked : Unlinked

namespace OpenFiles

def start (w : World) : OpenFiles := ⟨.start w, fun _ => none⟩

def files (s : OpenFiles) : World × Unlinked := (s.fs.world, s.unlinked)

def unlinkedBy {α : Type} (s : OpenFiles) (m : Handler α) : Unlinked :=
  ((m.watched keepUnlinked).run s.files).2.2

/-- What is kept of removed files when the callback has run; a write reaches them through its
descriptor. -/
def unlinkedAfter (P : Projection) (fuel : Nat) (s : OpenFiles) : Callback → Unlinked
  | .call op => s.unlinkedBy (op.handler P fuel)
  | .openFile ino flags =>
    if flags &&& oAccmode ≠ 0 then s.unlinkedBy (P.openWrite ino (flags &&& oTrunc ≠ 0))
    else s.unlinkedBy (P.openRead ino)
  | .create parent name mode => s.unlinkedBy (P.create parent name (mode &&& 0o111 ≠ 0))
  | .setattr ino mode size => s.unlinkedBy (P.setattr ino mode size)
  | .write fh offset data =>
    match s.fs.handles fh with
    | some (.write _ c) =>
      if (s.fs.world.overlay.disk.content c).isSome then s.unlinked
      else update s.unlinked c ((s.unlinked c).map (writeAt offset.toNat data))
    | _ => s.unlinked
  | .release _ => s.unlinked

def step (P : Projection) (fuel : Nat) (s : OpenFiles) (c : Callback) : Option OpenFiles :=
  (s.fs.step P fuel c).map fun fs => ⟨fs, s.unlinkedAfter P fuel c⟩

/-- What the callback does to the bytes of a content file that is there when it comes. -/
def edits (s : OpenFiles) (c : ContentId) : Callback → List FileEdit
  | .write fh offset data =>
    match s.fs.handles fh with
    | some (.write _ b) => if b = c then [.write offset.toNat data] else []
    | _ => []
  | .setattr ino _ (some size) | .call (.truncate ino size) =>
    if s.fs.world.opened ino = some c then [.setLen size] else []
  | .openFile ino flags =>
    if flags &&& oAccmode ≠ 0 ∧ flags &&& oTrunc ≠ 0 ∧ s.fs.world.opened ino = some c then [.setLen 0]
    else []
  | .call (.openWrite ino true) => if s.fs.world.opened ino = some c then [.setLen 0] else []
  | _ => []

/-- A callback, and what it did to each content file. -/
structure Done where
  callback : Callback
  edits : ContentId → List FileEdit

/-- The edits of the file behind a handle; gitfile and cached blobs have none. -/
def Done.editsOf (d : Done) (h : FileHandle) : List FileEdit := h.content.elim [] d.edits

def Step (P : Projection) (s : OpenFiles) (d : Done) (t : OpenFiles) : Prop :=
  (∃ fuel, s.step P fuel d.callback = some t) ∧ d.edits = fun c => s.edits c d.callback

def behind (P : Projection) (s : OpenFiles) : FileHandle → Option Bytes
  | .write _ c | .read _ (.overlay c) => bytesOf s.files c
  | .read _ (.bytes bytes) => some bytes
  | .read _ (.cache oid) => (P.store.readBlobRaw oid).toOption

/-- The reply to a read: none if the bytes behind the handle were lost. -/
def read (P : Projection) (s : OpenFiles) (fh : Nat) (offset : Int) (size : Nat) :
    Option (Except Nat Bytes) :=
  match s.fs.handles fh with
  | some h => (s.behind P h).map fun bytes => .ok ((bytes.drop offset.toNat).take size)
  | none => some (.error ebadf)

/-- The loop of `open_size` over the handles, in the order of the hash map, from the size of the last
read handle on the inode. -/
def openSizeFrom (P : Projection) (s : OpenFiles) (ino : Nat) (size : Option Nat) :
    List Nat → Option Nat
  | [] => size
  | fh :: rest =>
    match s.fs.handles fh with
    | some (.write i c) =>
      if i = ino then (s.behind P (.write i c)).map List.length else openSizeFrom P s ino size rest
    | some (.read i c) =>
      if i = ino then openSizeFrom P s ino ((s.behind P (.read i c)).map List.length) rest
      else openSizeFrom P s ino size rest
    | none => openSizeFrom P s ino size rest

def openSize (P : Projection) (s : OpenFiles) (order : List Nat) (ino : Nat) : Option Nat :=
  s.openSizeFrom P ino none order

/-- The reply to `getattr`; where the path is gone an open handle tells the size. -/
def getattr (P : Projection) (s : OpenFiles) (order : List Nat) (ino : Nat) : Option (Except Error Attr) :=
  match (P.getattr ino).run s.fs.world with
  | (.ok a, _) => some (.ok a)
  | (.error e, _) =>
    match s.openSize P order ino with
    | some size => some (.ok ⟨ino, 0, size, .file false⟩)
    | none => some (.error e)
  | (.diverge, _) => none

end OpenFiles

theorem FileEdit.map_applyAll_nil (bytes : Option Bytes) : bytes.map (FileEdit.applyAll []) = bytes :=
  Option.map_id'

/-! Files that are made and removed. -/

theorem Disk.content_execAll_removed {ops : List FileOp} {c : ContentId} {d : Disk}
    (h : ∀ o ∈ ops, o.changes = some c → o = .removeContent c) :
    (d.execAll ops).content c = d.content c ∨ (d.execAll ops).content c = none := by
  induction ops generalizing d with
  | nil => exact .inl rfl
  | cons op ops ih =>
    rw [Disk.execAll_cons]
    have hrest : ∀ o ∈ ops, o.changes = some c → o = .removeContent c := fun o ho => h o (List.mem_cons_of_mem _ ho)
    by_cases hc : op.changes = some c
    · right
      apply Disk.content_execAll_none hrest
      rw [h op List.mem_cons_self hc]
      exact Function.update_self _ _ _
    · rw [← Disk.content_exec hc d]
      exact ih hrest

namespace Overlay

variable {ov : Overlay} {c : ContentId}

/-- No file that is made later is given the id. -/
def Taken (ov : Overlay) (c : ContentId) : Prop := c.pid = ov.pid → c.seq < ov.contentSeq

theorem Taken.ne_new (h : ov.Taken c) : c ≠ ov.newContentId := by
  rintro rfl
  exact Nat.lt_irrefl _ (h rfl)

theorem Taken.step (h : ov.Taken c) (op : OverlayOp) : (ov.step op).Taken c := by
  intro hpid
  have hlt := h hpid
  rw [contentSeq_step]
  omega

theorem taken_editContent {b : ContentId} {f : Bytes → Bytes} :
    (ov.editContent b f).Taken c ↔ ov.Taken c := by
  rw [editContent]
  split <;> rfl

theorem Taken.content_step (h : ov.Taken c) (op : OverlayOp) :
    (ov.step op).disk.content c = ov.disk.content c ∨ (ov.step op).disk.content c = none :=
  Disk.content_execAll_removed fun _ ho hc => ((changes_mutation ho hc).resolve_left h.ne_new).1

theorem taken_of_lookup (h : ov.Minted) {p : RepoPath} {x : Bool} (hl : ov.lookup p = some (.file c x)) :
    ov.Taken c := h p c x hl

end Overlay

theorem bytesOf_keep (w w' : World) (gone : Unlinked) (c : ContentId) :
    bytesOf (w', keepUnlinked w w' gone) c = (w'.overlay.disk.content c).or (bytesOf (w, gone) c) := by
  simp only [bytesOf, keepUnlinked]
  cases w'.overlay.disk.content c <;> simp

theorem keepUnlinked_same {w w' : World} (h : w'.overlay.disk.content = w.overlay.disk.content)
    (gone : Unlinked) : keepUnlinked w w' gone = gone := by
  funext c
  rw [keepUnlinked, h]
  cases w.overlay.disk.content c <;> simp

theorem keepUnlinked_edit (w : World) (gone : Unlinked) (b : ContentId) (f : Bytes → Bytes) :
    keepUnlinked w { w with overlay := w.overlay.editContent b f } gone = gone := by
  funext c
  by_cases hc : c = b
  · subst hc
    cases hold : w.overlay.disk.content c with
    | none =>
      have hsame : w.overlay.editContent c f = w.overlay := by rw [Overlay.editContent, hold]
      simp [keepUnlinked, hsame, hold]
    | some bytes => simp [keepUnlinked, Overlay.content_editContent_self hold]
  · cases hold : w.overlay.disk.content c <;> simp [keepUnlinked, Overlay.content_editContent hc, hold]

/-- The file is one of those that are there, in the directory or out of it, with these bytes. -/
def Bound (c : ContentId) (bytes : Option Bytes) (s : World × Unlinked) : Prop :=
  s.1.overlay.Taken c ∧ bytesOf s c = bytes

section Bound

variable {s : World × Unlinked} {c : ContentId} {bytes : Option Bytes}

theorem Bound.of_overlay (h : Bound c bytes s) {w : World} (hw : w.overlay = s.1.overlay) :
    Bound c bytes (w, keepUnlinked s.1 w s.2) := by
  obtain ⟨v, gone⟩ := s
  refine ⟨by rw [hw]; exact h.1, ?_⟩
  rw [keepUnlinked_same (by rw [hw]), ← h.2, bytesOf, bytesOf, hw]

theorem Bound.step (h : Bound c bytes s) (op : OverlayOp) {w : World} (hw : w.overlay = s.1.overlay.step op) :
    Bound c bytes (w, keepUnlinked s.1 w s.2) := by
  refine ⟨by rw [hw]; exact h.1.step op, ?_⟩
  rw [bytesOf_keep, hw, ← h.2]
  rcases h.1.content_step op with heq | heq
  · rw [heq, bytesOf]
    cases s.1.overlay.disk.content c <;> simp
  · rw [heq, Option.none_or]

/-- An edit of a file of the directory. -/
theorem Bound.edit (h : Bound c bytes s) {b : ContentId} (hb : (s.1.overlay.disk.content b).isSome)
    (f : Bytes → Bytes) {w : World} (hw : w.overlay = s.1.overlay.editContent b f) :
    Bound c (if b = c then bytes.map f else bytes) (w, keepUnlinked s.1 w s.2) := by
  refine ⟨by rw [hw, Overlay.taken_editContent]; exact h.1, ?_⟩
  rw [bytesOf_keep, hw, ← h.2]
  split
  · rename_i heq
    subst heq
    obtain ⟨old, hold⟩ := Option.isSome_iff_exists.mp hb
    rw [Overlay.content_editContent_self hold, bytesOf, hold]
    rfl
  · rename_i hne
    rw [Overlay.content_editContent (Ne.symm hne), bytesOf]
    cases s.1.overlay.disk.content c <;> simp

end Bound

/-! Handlers that write no content file: they make and remove some. -/

namespace Projection

open Handler

variable (P : Projection)

inductive Refiles : Action → (World → World) → Prop
  | quiet {l : Action} {upd : World → World} (h : P.Quiet l upd) : Refiles l upd
  | mutate (op : OverlayOp) : Refiles .mutate fun w => { w with overlay := w.overlay.step op }
  | inode (f : InodeTable → InodeTable) : Refiles .inode fun w => { w with inodes := f w.inodes }

variable {P} {α : Type}

theorem Quiet.refiles {R : World → World → Prop} {m : Handler α} (hm : Within P.Quiet R m) :
    Within P.Refiles R m := hm.mono fun _ _ h => .quiet h

theorem refiles_mutate (op : OverlayOp) : Within P.Refiles SameTree (mutate op) :=
  within_atom (.mutate op) fun _ _ _ => rfl

theorem refiles_createFile (path : RepoPath) (x : Bool) (seed : Option Bytes) :
    Within P.Refiles SameTree (createFile path x seed) :=
  within_atom (.mutate _) fun w v h => by rw [h.1]

theorem refiles_inodeRename (old new : RepoPath) : Within P.Refiles SameTree (inodeRename old new) :=
  within_atom (.inode fun t => t.rename old new) fun _ _ _ => rfl

theorem refiles_childPath {parent : Nat} {name : Bytes} {f : RepoPath → Handler α}
    (hf : ∀ path, Within P.Refiles SameTree (f path)) :
    Within P.Refiles SameTree (childPath parent name >>= f) :=
  within_bind (Quiet.refiles (quiet_childPath parent name)) hf

theorem refiles_create (parent : Nat) (name : Bytes) (x : Bool) :
    Within P.Refiles SameTree (P.create parent name x) :=
  refiles_childPath fun path =>
    within_bind (Quiet.refiles (quiet_recordChange path)) fun _ =>
    within_bind (refiles_createFile path x none) fun _ =>
    within_bind (Quiet.refiles (quiet_inodeLookup path)) fun _ => within_pure _

theorem refiles_removeName (path : RepoPath) (onBaseline : Bool) :
    Within P.Refiles SameTree (P.removeName path onBaseline) :=
  within_bind (Quiet.refiles (quiet_recordChange path)) fun _ =>
    within_bind (refiles_mutate _) fun _ => Quiet.refiles (quiet_inodeUnlink path)

/-- The end of `unlink` and of `rmdir`. -/
theorem refiles_remove (path : RepoPath) (onBaseline : Bool) (e : Error) :
    Within P.Refiles SameTree (if onBaseline then P.removeName path true
      else lookupEntry path >>= fun o =>
        match o with
        | none => .fail e
        | some _ => P.removeName path false) := by
  split
  · exact refiles_removeName path true
  · refine within_bind (Quiet.refiles (quiet_lookupEntry path)) fun o => ?_
    cases o with
    | none => exact within_fail _
    | some => exact refiles_removeName path false

theorem refiles_unlink (parent : Nat) (name : Bytes) :
    Within P.Refiles SameTree (P.unlink parent name) :=
  refiles_childPath fun path =>
    within_bind (Quiet.refiles (quiet_baselineResolveStep path)) fun _ => refiles_remove path _ _

theorem refiles_mkdir (parent : Nat) (name : Bytes) :
    Within P.Refiles SameTree (P.mkdir parent name) := by
  refine refiles_childPath fun path => within_bind (Quiet.refiles (quiet_resolveStep path)) fun r => ?_
  cases r with
  | some => exact within_fail _
  | none =>
    exact within_bind (Quiet.refiles (quiet_recordChange path)) fun _ =>
      within_bind (refiles_mutate _) fun _ =>
      within_bind (Quiet.refiles (quiet_inodeLookup path)) fun _ => within_pure _

theorem refiles_rmdir (parent : Nat) (name : Bytes) :
    Within P.Refiles SameTree (P.rmdir parent name) := by
  refine refiles_childPath fun path =>
    within_bind (Quiet.refiles (quiet_read fun w v h => by rw [h.1])) fun b => ?_
  split
  · exact within_bind (Quiet.refiles (quiet_read fun _ _ _ => rfl)) fun _ => refiles_remove path _ _
  · exact within_fail _

theorem refiles_symlink (parent : Nat) (name target : Bytes) :
    Within P.Refiles SameTree (P.symlink parent name target) :=
  refiles_childPath fun path =>
    within_bind (Quiet.refiles (quiet_recordChange path)) fun _ =>
    within_bind (refiles_mutate _) fun _ =>
    within_bind (Quiet.refiles (quiet_inodeLookup path)) fun _ => within_pure _

theorem refiles_renameDir (fuel : Nat) (src dst : RepoPath) :
    Within P.Refiles SameTree (P.renameDir fuel src dst) := by
  induction fuel generalizing src dst with
  | zero => exact within_diverge
  | succ fuel ih =>
    refine within_bind (refiles_mutate _) fun _ =>
      within_bind (Quiet.refiles (quiet_read fun w v h => by rw [h.1])) fun kids =>
      within_bind (within_each fun kid => ?_) fun _ =>
      within_bind (refiles_mutate _) fun _ => refiles_inodeRename src dst
    refine within_bind_liftExcept fun cs _ => within_bind_liftExcept fun cd _ => ?_
    split
    · exact ih cs cd
    · split
      · exact within_bind (refiles_mutate _) fun _ => refiles_inodeRename cs cd
      · exact within_pure _

theorem refiles_renameFile (src dst : RepoPath) : Within P.Refiles SameTree (P.renameFile src dst) := by
  refine within_bind (Quiet.refiles (quiet_lookupEntry src)) fun o => ?_
  cases o with
  | some =>
    exact within_bind (refiles_mutate _) fun _ =>
      within_bind (Quiet.refiles (quiet_baselineResolveStep src)) fun _ =>
      within_bind (within_whenever (refiles_mutate _)) fun _ => refiles_inodeRename src dst
  | none =>
    refine within_bind (Quiet.refiles (quiet_baselineResolveStep src)) fun r => ?_
    split
    · exact within_bind (refiles_mutate _) fun _ =>
        within_bind (refiles_mutate _) fun _ => refiles_inodeRename src dst
    · exact within_bind (refiles_mutate _) fun _ =>
        within_bind (refiles_mutate _) fun _ => refiles_inodeRename src dst
    · exact within_fail _

theorem refiles_rename (fuel parent : Nat) (name : Bytes) (newparent : Nat) (newname : Bytes)
    (flags : UInt32) :
    Within P.Refiles SameTree (P.rename fuel parent name newparent newname flags) := by
  refine refiles_childPath fun src => refiles_childPath fun dst => ?_
  split
  · exact within_fail _
  · refine within_bind ?_ fun occupied => ?_
    · split
      · exact within_map _ (Quiet.refiles (quiet_resolveStep dst))
      · exact within_pure _
    · split
      · exact within_fail _
      · refine within_bind (Quiet.refiles (quiet_recordChange src)) fun _ =>
          within_bind (Quiet.refiles (quiet_recordChange dst)) fun _ =>
          within_bind (Quiet.refiles (quiet_resolveStep src)) fun r => ?_
        split
        · exact refiles_renameDir fuel src dst
        · exact refiles_renameFile src dst

theorem refiles_setExecutable (ino : Nat) (x : Bool) :
    Within P.Refiles SameTree (P.setExecutable ino x) := by
  refine within_bind (Quiet.refiles (quiet_pathOf ino)) fun path =>
    within_bind (Quiet.refiles (quiet_recordChangeFile path)) fun _ =>
    within_bind (Quiet.refiles (quiet_lookupEntry path)) fun o => ?_
  split
  · exact within_atom (.mutate (.setExecutable path x)) fun w v h => by rw [h.1]
  · refine within_bind (Quiet.refiles (quiet_resolveStep path)) fun r => ?_
    split
    · exact within_bind (Quiet.refiles (quiet_materialize _)) fun seed =>
        within_bind (refiles_createFile path x (some seed)) fun _ => within_pure _
    · exact within_fail _

/-! What the handlers do to a file that is there. -/

theorem Quiet.overlay_upd {l : Action} {upd : World → World} (h : P.Quiet l upd) (w : World) :
    (upd w).overlay = w.overlay := by
  cases h <;> rfl

variable {c : ContentId} {bytes : Option Bytes} {o : Option ContentId} {E : World × Unlinked → Prop}

theorem Refiles.bound {l : Action} {upd : World → World} (h : P.Refiles l upd) (s : World × Unlinked)
    (hs : Bound c bytes s) : Bound c bytes (upd s.1, keepUnlinked s.1 (upd s.1) s.2) := by
  cases h with
  | quiet h => exact hs.of_overlay (h.overlay_upd s.1)
  | mutate op => exact hs.step op rfl
  | inode f => exact hs.of_overlay rfl

theorem bound_refiles {m : Handler α} (hm : Within P.Refiles SameTree m) :
    Ensures (Bound c bytes) (m.watched keepUnlinked) (fun _ => Bound c bytes) (Bound c bytes) :=
  hm.watches (fun _ _ h s hs => h.bound s hs) fun _ hs => hs

/-- A read, of what is then known. -/
theorem bound_read {f : World → Except Error α} (φ : World → Prop) (ψ : α → World → Prop)
    (hok : ∀ w a, φ w → f w = .ok a → ψ a w) (herr : ∀ s e, Bound c bytes s → φ s.1 → f s.1 = .error e → E s) :
    Ensures (fun s => Bound c bytes s ∧ φ s.1) ((Prog.read .read f : Handler α).watched keepUnlinked)
      (fun a s => Bound c bytes s ∧ ψ a s.1) E := by
  refine watches_atom (fun s a hs ha => ⟨hs.1.of_overlay rfl, hok s.1 a hs.2 ha⟩) fun s e hs he => ?_
  have hkeep : keepUnlinked s.1 (id s.1) s.2 = s.2 := keepUnlinked_same rfl s.2
  rw [hkeep]
  exact herr s e hs.1 hs.2 he

theorem openContent_file {ov : Overlay} {p : RepoPath} {b : ContentId} (h : ov.openContent p = .ok b) :
    (∃ x, ov.lookup p = some (.file b x)) ∧ (ov.disk.content b).isSome := by
  rw [Overlay.openContent] at h
  split at h
  · split at h
    · cases h
      exact ⟨⟨_, ‹_›⟩, ‹_›⟩
    · cases h
  · cases h

/-- A new file is none of those that are there. -/
theorem bound_createFile (path : RepoPath) (x : Bool) (seed : Option Bytes) :
    Ensures (Bound c bytes) ((createFile path x seed).watched keepUnlinked)
      (fun b s => Bound c bytes s ∧ b ≠ c ∧ (s.1.overlay.disk.content b).isSome) E := by
  refine watches_atom (fun s b hs hb => ⟨hs.step _ rfl, ?_⟩) fun s e _ he => by cases he
  cases hb
  refine ⟨Ne.symm hs.1.ne_new, ?_⟩
  rw [Overlay.content_createFile]
  rfl

theorem bound_editContent {b : ContentId} (f : Bytes → Bytes) :
    Ensures (fun s => Bound c bytes s ∧ (s.1.overlay.disk.content b).isSome)
      ((editContent b f).watched keepUnlinked)
      (fun _ => Bound c (if b = c then bytes.map f else bytes)) E :=
  watches_atom (fun _ _ hs _ => hs.1.edit hs.2 f rfl) fun _ _ _ he => by cases he

/-- The bytes behind an edit of the file that the inode's path has. -/
def edited (o : Option ContentId) (c : ContentId) (f : Bytes → Bytes) (bytes : Option Bytes) : Option Bytes :=
  if o = some c then bytes.map f else bytes

theorem edited_of_ne {f : Bytes → Bytes} (h : o = none) : edited o c f bytes = bytes := by
  simp [edited, h]

theorem edited_some {b : ContentId} {f : Bytes → Bytes} :
    edited (some b) c f bytes = if b = c then bytes.map f else bytes := by
  simp [edited]

variable {f : Bytes → Bytes} {p : RepoPath}

theorem bound_pathOf (ino : Nat) :
    Ensures (fun s => Bound c bytes s ∧ s.1.opened ino = o) ((pathOf ino).watched keepUnlinked)
      (fun p s => Bound c bytes s ∧ (s.1.overlay.openContent p).toOption = o) (Bound c (edited o c f bytes)) := by
  refine bound_read (fun w => w.opened ino = o) (fun p w => (w.overlay.openContent p).toOption = o)
    (fun w p hw hp => ?_) fun s e hs hw he => ?_
  · rwa [World.opened, hp] at hw
  · rw [World.opened, he] at hw
    rwa [edited_of_ne hw.symm]

theorem bound_lookupEntry (p : RepoPath) :
    Ensures (fun s => Bound c bytes s ∧ (s.1.overlay.openContent p).toOption = o)
      ((lookupEntry p).watched keepUnlinked)
      (fun e s => Bound c bytes s ∧ (s.1.overlay.openContent p).toOption = o ∧ s.1.overlay.lookup p = e) E := by
  refine bound_read (fun w => (w.overlay.openContent p).toOption = o)
    (fun e w => (w.overlay.openContent p).toOption = o ∧ w.overlay.lookup p = e)
    (fun w e hw he => ⟨hw, Except.ok.inj he⟩) fun s e _ _ he => by cases he

theorem bound_openContent (p : RepoPath) :
    Ensures (fun s => Bound c bytes s ∧ (s.1.overlay.openContent p).toOption = o)
      ((openContent p).watched keepUnlinked)
      (fun b s => Bound c bytes s ∧ o = some b ∧ (s.1.overlay.disk.content b).isSome)
      (Bound c (edited o c f bytes)) := by
  refine bound_read (fun w => (w.overlay.openContent p).toOption = o)
    (fun b w => o = some b ∧ (w.overlay.disk.content b).isSome)
    (fun w b hw hb => ⟨?_, (openContent_file hb).2⟩) fun s e hs hw he => ?_
  · rw [← hw, hb]
    rfl
  · rw [he] at hw
    rwa [edited_of_ne hw.symm]

theorem bound_record (p : RepoPath) :
    Ensures (fun s => Bound c bytes s ∧ (s.1.overlay.openContent p).toOption = o)
      ((P.recordChangeFile p).watched keepUnlinked)
      (fun _ s => Bound c bytes s ∧ (s.1.overlay.openContent p).toOption = o) E :=
  watches_atom (fun _ _ hs _ => ⟨hs.1.of_overlay rfl, hs.2⟩) fun _ _ _ he => by cases he

/-- The file of the path, edited. -/
theorem bound_editFile (p : RepoPath) :
    Ensures (fun s => Bound c bytes s ∧ (s.1.overlay.openContent p).toOption = o)
      ((openContent p >>= fun b => editContent b f).watched keepUnlinked)
      (fun _ => Bound c (edited o c f bytes)) (Bound c (edited o c f bytes)) := by
  refine watches_bind (bound_openContent p) fun b => ?_
  refine ensures_from fun s₀ hs₀ => ?_
  rw [hs₀.2.1, edited_some]
  exact ensures_weaken (bound_editContent f) (fun s hs => hs ▸ ⟨hs₀.1, hs₀.2.2⟩) fun _ _ h => h

theorem not_opened_of_entry {ov : Overlay} (h : ∀ b x, ov.lookup p ≠ some (.file b x)) :
    (ov.openContent p).toOption = none := by
  rw [Overlay.openContent]
  split
  · exact (h _ _ ‹_›).elim
  · rfl

theorem bound_truncate (c : ContentId) (bytes : Option Bytes) (o : Option ContentId) (ino size : Nat) :
    Ensures (fun s => Bound c bytes s ∧ s.1.opened ino = o) ((P.truncate ino size).watched keepUnlinked)
      (fun _ => Bound c (edited o c (setLen size) bytes)) (Bound c (edited o c (setLen size) bytes)) := by
  refine watches_bind (bound_pathOf ino) fun p => watches_bind (bound_lookupEntry p) fun e => ?_
  split
  · exact watches_bind (ensures_weaken (bound_record p) (fun _ h => ⟨h.1, h.2.1⟩) fun _ _ h => h) fun _ =>
      bound_editFile p
  · rename_i hne
    refine ensures_from fun s₀ hs₀ => ?_
    have ho : o = none := by
      rw [← hs₀.2.1, not_opened_of_entry]
      intro b x hl
      exact hne b x (hs₀.2.2.symm.trans hl)
    simp only [edited_of_ne ho]
    refine ensures_weaken ?_ (fun s hs => hs ▸ hs₀.1) fun _ _ h => h
    refine watches_bind (bound_refiles (Quiet.refiles (quiet_resolveStep p))) fun r => ?_
    split
    · refine watches_bind (bound_refiles (Quiet.refiles (quiet_recordChangeFile p))) fun _ =>
        watches_bind (bound_refiles (P := P) ?_) fun seed => watches_bind (bound_createFile p _ seed) fun b s hs => ?_
      · split
        · exact within_pure _
        · exact within_map _ (Quiet.refiles (quiet_materialize _))
      · have hedit := bound_editContent (E := Bound c bytes) (setLen size) s ⟨hs.1, hs.2.2⟩
        rwa [if_neg hs.2.1] at hedit
    · exact watches_fail fun _ h => h

theorem bound_openWrite (c : ContentId) (bytes : Option Bytes) (o : Option ContentId) (ino : Nat) (trunc : Bool) :
    Ensures (fun s => Bound c bytes s ∧ s.1.opened ino = o) ((P.openWrite ino trunc).watched keepUnlinked)
      (fun _ => Bound c (edited o c (if trunc then setLen 0 else id) bytes))
      (Bound c (edited o c (if trunc then setLen 0 else id) bytes)) := by
  refine watches_bind (bound_pathOf ino) fun p => watches_bind (bound_record p) fun _ =>
    watches_bind (bound_lookupEntry p) fun e => ?_
  split
  · refine watches_bind (ensures_weaken (bound_openContent p) (fun _ h => ⟨h.1, h.2.1⟩) fun _ _ h => h) fun b => ?_
    refine ensures_from fun s₀ hs₀ => ?_
    rw [hs₀.2.1, edited_some]
    cases trunc with
    | true =>
      refine watches_bind (ensures_weaken (bound_editContent _) (fun s hs => hs ▸ ⟨hs₀.1, hs₀.2.2⟩)
        fun _ _ h => h) fun _ => watches_pure fun _ h => h
    | false =>
      refine watches_bind (Q := fun _ => Bound c bytes) (watches_pure fun s hs => hs ▸ hs₀.1) fun _ =>
        watches_pure fun s hs => ?_
      simpa using hs
  · rename_i hne
    refine ensures_from fun s₀ hs₀ => ?_
    have ho : o = none := by
      rw [← hs₀.2.1, not_opened_of_entry]
      intro b x hl
      exact hne b x (hs₀.2.2.symm.trans hl)
    simp only [edited_of_ne ho]
    refine ensures_weaken ?_ (fun s hs => hs ▸ hs₀.1) fun _ _ h => h
    refine watches_bind (bound_refiles (Quiet.refiles (quiet_resolveStep p))) fun r => ?_
    split
    · refine watches_bind (bound_refiles (P := P) ?_) fun seed => bound_refiles (P := P) (refiles_createFile p _ seed)
      split
      · exact within_pure _
      · exact within_map _ (Quiet.refiles (quiet_materialize _))
    · exact watches_fail fun _ h => h

theorem bound_setattr (c : ContentId) (bytes : Option Bytes) (o : Option ContentId) (ino : Nat)
    (mode : Option UInt32) (size : Option Nat) :
    Ensures (fun s => Bound c bytes s ∧ s.1.opened ino = o) ((P.setattr ino mode size).watched keepUnlinked)
      (fun _ => Bound c (edited o c (size.elim id setLen) bytes))
      (Bound c (edited o c (size.elim id setLen) bytes)) := by
  have hmode : Within P.Refiles SameTree (P.setMode ino mode) := by
    cases mode with
    | none => exact within_pure _
    | some m => exact refiles_setExecutable ino _
  refine watches_bind (Q := fun _ => Bound c (edited o c (size.elim id setLen) bytes)) ?_ fun _ =>
    watches_bind (bound_refiles hmode) fun _ => bound_refiles (Quiet.refiles (quiet_getattr ino))
  cases size with
  | none => exact watches_pure fun s hs => by simpa [edited] using hs.1
  | some size => exact bound_truncate c bytes o ino size

/-! What an opened handle reads is there. -/

/-- The file is there, and no later file is given its id. -/
def Backed (c : ContentId) (s : World × Unlinked) : Prop := ∃ bytes, Bound c (some bytes) s

def MintedIn (s : World × Unlinked) : Prop := s.1.overlay.Minted

theorem mintedIn_quiet {m : Handler α} (hm : Within P.Quiet SameTree m) :
    Ensures MintedIn (m.watched keepUnlinked) (fun _ => MintedIn) fun _ => True := by
  refine hm.watches (fun l upd hu s hs => ?_) fun _ _ => trivial
  show (upd s.1).overlay.Minted
  rwa [hu.overlay_upd s.1]

theorem backed_openContent (p : RepoPath) :
    Ensures MintedIn ((openContent p).watched keepUnlinked)
      (fun b s => Backed b s ∧ (s.1.overlay.disk.content b).isSome) fun _ => True := by
  refine watches_atom (fun s b hs hb => ?_) fun _ _ _ _ => trivial
  obtain ⟨⟨x, hl⟩, hsome⟩ := openContent_file hb
  obtain ⟨bytes, hbytes⟩ := Option.isSome_iff_exists.mp hsome
  refine ⟨⟨bytes, Overlay.taken_of_lookup hs hl, ?_⟩, hsome⟩
  simp [bytesOf, hbytes]

theorem backed_createFile (p : RepoPath) (x : Bool) (seed : Option Bytes) :
    Ensures (fun _ => True) ((createFile p x seed).watched keepUnlinked) Backed fun _ => True := by
  refine watches_atom (fun s b _ hb => ?_) fun _ _ _ _ => trivial
  cases hb
  refine ⟨seed.getD [], fun _ => ?_, ?_⟩
  · show s.1.overlay.contentSeq < (s.1.overlay.step (.createFile p x seed)).contentSeq
    rw [Overlay.contentSeq_step]
    exact Nat.lt_succ_self _
  · rw [bytesOf_keep, Overlay.content_createFile]
    rfl

theorem backed_openWrite (ino : Nat) (trunc : Bool) :
    Ensures MintedIn ((P.openWrite ino trunc).watched keepUnlinked) Backed fun _ => True := by
  refine watches_bind (mintedIn_quiet (P := P) (quiet_pathOf ino)) fun p =>
    watches_bind (mintedIn_quiet (P := P) (quiet_recordChangeFile p)) fun _ =>
    watches_bind (mintedIn_quiet (P := P) (quiet_lookupEntry p)) fun e => ?_
  split
  · refine watches_bind (backed_openContent p) fun b =>
      watches_bind (Q := fun _ => Backed b) ?_ fun _ => watches_pure fun _ hs => hs
    cases trunc with
    | true =>
      refine watches_atom (fun s _ hs _ => ?_) fun _ _ _ _ => trivial
      obtain ⟨⟨bytes, hb⟩, hsome⟩ := hs
      exact ⟨setLen 0 bytes, by simpa using hb.edit hsome (setLen 0) rfl⟩
    | false => exact watches_pure fun _ hs => hs.1
  · refine watches_bind (mintedIn_quiet (P := P) (quiet_resolveStep p)) fun r => ?_
    split
    · refine watches_bind (Q := fun _ _ => True) ?_ fun seed => backed_createFile p _ seed
      exact ensures_mono ensures_run (fun _ h => h) (fun _ _ _ => trivial) fun _ _ => trivial
    · exact watches_fail fun _ _ => trivial

theorem backed_create (parent : Nat) (name : Bytes) (x : Bool) :
    Ensures MintedIn ((P.create parent name x).watched keepUnlinked) (fun r => Backed r.2) fun _ => True := by
  refine watches_bind (mintedIn_quiet (P := P) (quiet_childPath parent name)) fun p =>
    watches_bind (mintedIn_quiet (P := P) (quiet_recordChange p)) fun _ =>
    watches_bind (ensures_weaken (backed_createFile p x none) (fun _ _ => trivial) fun _ _ h => h) fun b =>
    watches_bind (Q := fun _ => Backed b) ?_ fun i => watches_pure fun _ hs => hs
  refine (quiet_inodeLookup (P := P) p).watches (fun l upd hu s hs => ?_) fun _ _ => trivial
  obtain ⟨bytes, hb⟩ := hs
  exact ⟨bytes, hb.of_overlay (hu.overlay_upd s.1)⟩

end Projection

/-- There is something to read behind the handle. -/
def FileHandle.Backed (P : Projection) (s : World × Unlinked) : FileHandle → Prop
  | .write _ c | .read _ (.overlay c) => Projection.Backed c s
  | .read _ (.bytes _) => True
  | .read _ (.cache oid) => ∃ bytes, P.store.readBlobRaw oid = .ok bytes

namespace Projection

open Handler

variable {P : Projection}

theorem backed_openRead (ino : Nat) :
    Ensures MintedIn ((P.openRead ino).watched keepUnlinked) (fun h s => (FileHandle.read ino h).Backed P s)
      fun _ => True := by
  refine watches_bind (mintedIn_quiet (P := P) (quiet_pathOf ino)) fun p =>
    watches_bind (mintedIn_quiet (P := P) (quiet_resolveStep p)) fun r => ?_
  split
  · exact watches_fail fun _ _ => trivial
  · exact watches_pure fun _ _ => trivial
  · exact watches_bind (backed_openContent _) fun b => watches_pure fun _ hs => hs.1
  · refine watches_bind (Q := fun bytes _ => P.store.readBlobRaw _ = .ok bytes)
      (watches_atom (fun _ _ _ h => h) fun _ _ _ _ => trivial) fun bytes => watches_pure fun _ h => ⟨bytes, h⟩
  · exact watches_fail fun _ _ => trivial
  · exact watches_fail fun _ _ => trivial

end Projection

namespace OpenFiles

open Projection

variable {P : Projection} {s t : OpenFiles} {fs : TransparentFs} {fuel : Nat} {cb : Callback} {c : ContentId}
  {bytes : Option Bytes} {α : Type} {m : Handler α} {handle : α → Option FileHandle}

/-- What a handler ensures, beside the removed files, holds when its callback has run. -/
theorem ensured_after {A E : World × Unlinked → Prop} {Q : α → World × Unlinked → Prop}
    (h : s.fs.after m handle = some fs) (hm : Ensures A (m.watched keepUnlinked) Q E) (hs : A s.files) :
    (∃ a, Q a (fs.world, s.unlinkedBy m) ∧
      fs.handles = (handle a).elim s.fs.handles fun x => update s.fs.handles s.fs.nextFh (some x)) ∨
      E (fs.world, s.unlinkedBy m) ∧ fs.handles = s.fs.handles := by
  have hh := hm s.files hs
  have hrun : ((m.watched keepUnlinked).run s.files).1 = _ ∧ ((m.watched keepUnlinked).run s.files).2.1 = _ :=
    run_watched m s.files
  rw [TransparentFs.after] at h
  rcases hr : (m.watched keepUnlinked).run s.files with ⟨r, w, gone⟩
  have hgone : s.unlinkedBy m = gone := by rw [unlinkedBy, hr]
  rcases hr' : m.run s.fs.world with ⟨r', w'⟩
  rw [hr] at hh hrun
  obtain ⟨heq, hw⟩ := hrun
  rw [files, hr'] at heq hw
  dsimp only at heq hw
  subst heq
  subst hw
  rw [hr'] at h
  rw [hgone]
  cases r with
  | ok a =>
    left
    refine ⟨a, ?_⟩
    cases hx : handle a with
    | none =>
      simp only [hx, Option.some.injEq] at h
      subst h
      exact ⟨hh, rfl⟩
    | some x =>
      simp only [hx, Option.some.injEq] at h
      subst h
      exact ⟨hh, rfl⟩
  | error e =>
    cases h
    exact .inr ⟨hh, rfl⟩
  | diverge => cases h

theorem ensured_of_after {I : World × Unlinked → Prop} {A : World × Unlinked → Prop}
    (h : s.fs.after m handle = some fs) (hm : Ensures A (m.watched keepUnlinked) (fun _ => I) I)
    (hs : A s.files) : I (fs.world, s.unlinkedBy m) := by
  rcases ensured_after h hm hs with ⟨a, hI, -⟩ | ⟨hI, -⟩
  · exact hI
  · exact hI

theorem edited_setLen (size : Nat) (o : Option ContentId) : edited o c (setLen size) bytes =
    bytes.map (FileEdit.applyAll (if o = some c then [.setLen size] else [])) := by
  rw [edited]
  split
  · rfl
  · exact (FileEdit.map_applyAll_nil bytes).symm

theorem edits_openFile (trunc : Bool) (o : Option ContentId) :
    edited o c (if trunc then setLen 0 else id) bytes =
      bytes.map (FileEdit.applyAll (if trunc ∧ o = some c then [.setLen 0] else [])) := by
  cases trunc with
  | true => simpa using edited_setLen 0 o
  | false => simp [edited, FileEdit.map_applyAll_nil]

/-- The calls that edit a file, and those that only make and remove files. -/
theorem bound_call (op : Op) : Ensures (fun s' => Bound c bytes s' ∧ s' = s.files)
    ((op.handler P fuel).watched keepUnlinked)
    (fun _ => Bound c (bytes.map (FileEdit.applyAll (s.edits c (.call op)))))
    (Bound c (bytes.map (FileEdit.applyAll (s.edits c (.call op))))) := by
  have hsame : ∀ {m : Handler Reply}, Within P.Refiles SameTree m →
      Ensures (fun s' => Bound c bytes s' ∧ s' = s.files) (m.watched keepUnlinked)
        (fun _ => Bound c (bytes.map (FileEdit.applyAll []))) (Bound c (bytes.map (FileEdit.applyAll []))) := by
    intro m hm
    rw [FileEdit.map_applyAll_nil]
    exact ensures_weaken (bound_refiles hm) (fun _ h => h.1) fun _ _ h => h
  cases op with
  | lookup parent name => exact hsame (within_map _ (Quiet.refiles (quiet_lookup parent name)))
  | getattr ino => exact hsame (within_map _ (Quiet.refiles (quiet_getattr ino)))
  | readdir ino => exact hsame (within_map _ (Quiet.refiles (quiet_readdir ino)))
  | forget ino n => exact hsame (within_map _ (Quiet.refiles (quiet_inodeForget ino n)))
  | create parent name x => exact hsame (within_map _ (refiles_create parent name x))
  | unlink parent name => exact hsame (within_map _ (refiles_unlink parent name))
  | mkdir parent name => exact hsame (within_map _ (refiles_mkdir parent name))
  | rmdir parent name => exact hsame (within_map _ (refiles_rmdir parent name))
  | symlink parent name target => exact hsame (within_map _ (refiles_symlink parent name target))
  | rename parent name newparent newname flags =>
    exact hsame (within_map _ (refiles_rename fuel parent name newparent newname flags))
  | setExecutable ino x => exact hsame (within_map _ (refiles_setExecutable ino x))
  | truncate ino size =>
    have htrunc := bound_truncate (P := P) c bytes (s.fs.world.opened ino) ino size
    rw [edited_setLen] at htrunc
    refine watches_bind (ensures_weaken htrunc (fun s' h => ⟨h.1, by rw [h.2]; rfl⟩) fun _ _ h => h) fun _ =>
      watches_pure fun _ h => h
  | openWrite ino trunc =>
    have hopen := bound_openWrite (P := P) c bytes (s.fs.world.opened ino) ino trunc
    rw [edits_openFile] at hopen
    have hedits : s.edits c (.call (.openWrite ino trunc)) =
        if trunc ∧ s.fs.world.opened ino = some c then [.setLen 0] else [] := by
      cases trunc <;> simp [edits]
    rw [hedits]
    refine watches_bind (ensures_weaken hopen (fun s' h => ⟨h.1, by rw [h.2]; rfl⟩) fun _ _ h => h) fun _ =>
      watches_pure fun _ h => h

theorem bound_write {offset : Int} {data : Bytes} {fh : Nat}
    (h : s.fs.step P fuel (.write fh offset data) = some fs) (hb : Bound c bytes s.files) :
    Bound c (bytes.map (FileEdit.applyAll (s.edits c (.write fh offset data))))
      (fs.world, s.unlinkedAfter P fuel (.write fh offset data)) := by
  have hkept : ∀ edits, edits = [] → Bound c (bytes.map (FileEdit.applyAll edits)) s.files := by
    rintro _ rfl
    rwa [FileEdit.map_applyAll_nil]
  simp only [TransparentFs.step] at h
  simp only [edits, unlinkedAfter]
  rcases hh : s.fs.handles fh with _ | ⟨ino, content⟩ | ⟨ino, b⟩
  · simp only [hh, Option.some.injEq] at h
    subst h
    exact hkept _ rfl
  · simp only [hh, Option.some.injEq] at h
    subst h
    exact hkept _ rfl
  · simp only [hh, Option.some.injEq] at h
    subst h
    have hbytes : bytes.map (FileEdit.applyAll (if b = c then [.write offset.toNat data] else [])) =
        if b = c then bytes.map (writeAt offset.toNat data) else bytes := by
      split
      · rfl
      · exact FileEdit.map_applyAll_nil bytes
    simp only [hbytes]
    by_cases hsome : (s.fs.world.overlay.disk.content b).isSome
    · have hedit : Bound c (if b = c then bytes.map (writeAt offset.toNat data) else bytes)
          (_, keepUnlinked s.fs.world { s.fs.world with
            overlay := s.fs.world.overlay.editContent b (writeAt offset.toNat data) } s.unlinked) :=
        hb.edit hsome (writeAt offset.toNat data) rfl
      rw [keepUnlinked_edit] at hedit
      rwa [if_pos hsome]
    · rw [if_neg hsome]
      rw [Option.not_isSome_iff_eq_none] at hsome
      have hsame : s.fs.world.overlay.editContent b (writeAt offset.toNat data) = s.fs.world.overlay := by
        rw [Overlay.editContent, hsome]
      rw [hsame]
      refine ⟨hb.1, ?_⟩
      rw [← hb.2]
      by_cases hbc : b = c
      · subst hbc
        simp [bytesOf, files, hsome]
      · simp [bytesOf, files, hbc, Function.update_of_ne (Ne.symm hbc)]

/-- What a callback does to a file that is there. -/
theorem bound_step (h : s.step P fuel cb = some t) (hb : Bound c bytes s.files) :
    Bound c (bytes.map (FileEdit.applyAll (s.edits c cb))) t.files := by
  obtain ⟨fs, hfs, heq⟩ := Option.map_eq_some_iff.mp h
  subst heq
  cases cb with
  | call op =>
    simp only [TransparentFs.step] at hfs
    exact ensured_of_after hfs (bound_call op) ⟨hb, rfl⟩
  | openFile ino flags =>
    simp only [TransparentFs.step] at hfs
    simp only [unlinkedAfter, edits, files]
    split at hfs
    · rename_i hwrite
      have hopen := bound_openWrite (P := P) c bytes (s.fs.world.opened ino) ino
        (flags &&& oTrunc ≠ 0)
      rw [edits_openFile] at hopen
      rw [if_pos hwrite]
      simpa [hwrite] using ensured_of_after hfs hopen ⟨hb, rfl⟩
    · rename_i hread
      have hsame := ensured_of_after (I := Bound c bytes) hfs (bound_refiles
        (Quiet.refiles (quiet_openRead (P := P) ino))) hb
      simpa [hread, FileEdit.map_applyAll_nil] using hsame
  | create parent name mode =>
    simp only [TransparentFs.step] at hfs
    have hsame := ensured_of_after (I := Bound c bytes) hfs (bound_refiles
      (refiles_create (P := P) parent name (mode &&& 0o111 ≠ 0))) hb
    simp only [edits, FileEdit.map_applyAll_nil]
    exact hsame
  | setattr ino mode size =>
    simp only [TransparentFs.step] at hfs
    have hset := bound_setattr (P := P) c bytes (s.fs.world.opened ino) ino mode size
    have hres := ensured_of_after hfs hset ⟨hb, rfl⟩
    cases size with
    | none =>
      have hsame : edited (s.fs.world.opened ino) c (Option.elim none id setLen) bytes = bytes := by
        simp [edited]
      rw [hsame] at hres
      simp only [edits, FileEdit.map_applyAll_nil]
      exact hres
    | some size =>
      rw [Option.elim, edited_setLen] at hres
      exact hres
  | write fh offset data => exact bound_write hfs hb
  | release fh =>
    cases hfs
    simp only [edits, FileEdit.map_applyAll_nil]
    exact hb

/-- Everything behind a handle is there. -/
structure Sound (P : Projection) (s : OpenFiles) : Prop where
  minted : s.fs.world.overlay.Minted
  backed : ∀ fh x, s.fs.handles fh = some x → x.Backed P s.files

theorem sound_start {w : World} (hw : w.overlay.Minted) : (start w).Sound P :=
  ⟨hw, fun _ _ h => by cases h⟩

theorem minted_editContent {ov : Overlay} (h : ov.Minted) (b : ContentId) (f : Bytes → Bytes) :
    (ov.editContent b f).Minted := by
  rw [Overlay.editContent]
  split <;> exact h

theorem minted_step (hs : s.fs.world.overlay.Minted) (h : s.fs.step P fuel cb = some fs) :
    fs.world.overlay.Minted := by
  refine TransparentFs.world_step (I := fun w => w.overlay.Minted) (fun l upd hu w hw => ?_) hs h
  cases hu with
  | quiet hq => rwa [hq.overlay_upd]
  | mutate op _ => exact Overlay.minted_step hw op
  | edit b f => exact minted_editContent hw b f

theorem backed_step {x : FileHandle} (h : s.step P fuel cb = some t) (hx : x.Backed P s.files) :
    x.Backed P t.files := by
  cases x with
  | write ino c =>
    obtain ⟨bytes, hb⟩ := hx
    exact ⟨_, bound_step h hb⟩
  | read ino content =>
    cases content with
    | overlay c =>
      obtain ⟨bytes, hb⟩ := hx
      exact ⟨_, bound_step h hb⟩
    | bytes | cache => exact hx

/-- A handler that returns a new handle backs it. -/
theorem backed_after {Q : α → World × Unlinked → Prop} (h : s.fs.after m handle = some fs)
    (hm : Ensures MintedIn (m.watched keepUnlinked) Q fun _ => True) (hs : s.fs.world.overlay.Minted)
    (hold : ∀ fh x, s.fs.handles fh = some x → x.Backed P (fs.world, s.unlinkedBy m))
    (hnew : ∀ a x s', Q a s' → handle a = some x → x.Backed P s') :
    ∀ fh x, fs.handles fh = some x → x.Backed P (fs.world, s.unlinkedBy m) := by
  intro fh x hx
  rcases ensured_after h hm hs with ⟨a, hQ, hh⟩ | ⟨-, hh⟩
  · cases ha : handle a with
    | none =>
      rw [hh, ha] at hx
      exact hold fh x hx
    | some y =>
      rw [hh, ha, Option.elim, Function.update_apply] at hx
      split at hx
      · cases hx
        exact hnew a x _ hQ ha
      · exact hold fh x hx
  · rw [hh] at hx
    exact hold fh x hx

theorem backed_of_after {fs : TransparentFs} {m : Handler α} {gone : World × Unlinked}
    (h : s.fs.after m (fun _ => none) = some fs)
    (hold : ∀ fh x, s.fs.handles fh = some x → x.Backed P gone) :
    ∀ fh x, fs.handles fh = some x → x.Backed P gone := by
  intro fh x hx
  rw [TransparentFs.after] at h
  split at h <;> cases h <;> exact hold fh x hx

theorem Sound.step (hs : s.Sound P) (h : s.step P fuel cb = some t) : t.Sound P := by
  have hold : ∀ fh x, s.fs.handles fh = some x → x.Backed P t.files := fun fh x hx =>
    backed_step h (hs.backed fh x hx)
  obtain ⟨fs, hfs, heq⟩ := Option.map_eq_some_iff.mp h
  subst heq
  refine ⟨minted_step hs.minted hfs, ?_⟩
  cases cb with
  | call op =>
    simp only [TransparentFs.step] at hfs
    exact backed_of_after hfs hold
  | setattr ino mode size =>
    simp only [TransparentFs.step] at hfs
    exact backed_of_after hfs hold
  | create parent name mode =>
    simp only [TransparentFs.step] at hfs
    refine backed_after hfs (backed_create parent name _) hs.minted hold fun a x s' ha hx => ?_
    cases hx
    exact ha
  | openFile ino flags =>
    simp only [TransparentFs.step] at hfs
    simp only [files, unlinkedAfter] at hold ⊢
    split at hfs
    · rename_i hwrite
      simp only [if_pos hwrite] at hold ⊢
      refine backed_after hfs (backed_openWrite ino _) hs.minted hold fun a x s' ha hx => ?_
      cases hx
      exact ha
    · rename_i hread
      simp only [if_neg hread] at hold ⊢
      refine backed_after hfs (backed_openRead ino) hs.minted hold fun a x s' ha hx => ?_
      cases hx
      exact ha
  | write fh offset data =>
    simp only [TransparentFs.step] at hfs
    split at hfs <;>
      · cases hfs
        exact hold
  | release fh =>
    cases hfs
    intro fh' x hx
    simp only [Function.update_apply] at hx
    split at hx
    · cases hx
    · exact hold fh' x hx

/-! What a handle reads. -/

theorem behind_of_backed {x : FileHandle} (hx : x.Backed P s.files) : ∃ bytes, s.behind P x = some bytes := by
  cases x with
  | write ino c =>
    obtain ⟨bytes, hb⟩ := hx
    exact ⟨bytes, hb.2⟩
  | read ino content =>
    cases content with
    | bytes bytes => exact ⟨bytes, rfl⟩
    | overlay c =>
      obtain ⟨bytes, hb⟩ := hx
      exact ⟨bytes, hb.2⟩
    | cache oid =>
      obtain ⟨bytes, hb⟩ := hx
      exact ⟨bytes, by simp [behind, hb, Except.toOption]⟩

theorem behind_step {x : FileHandle} (h : s.step P fuel cb = some t) (hx : x.Backed P s.files) :
    t.behind P x = (s.behind P x).map (FileEdit.applyAll (x.content.elim [] fun c => s.edits c cb)) := by
  cases x with
  | write ino c =>
    obtain ⟨bytes, hb⟩ := hx
    simp only [behind, hb.2]
    exact (bound_step h hb).2
  | read ino content =>
    cases content with
    | overlay c =>
      obtain ⟨bytes, hb⟩ := hx
      simp only [behind, hb.2]
      exact (bound_step h hb).2
    | bytes | cache => exact (FileEdit.map_applyAll_nil _).symm

theorem behind_run {x : FileHandle} {ds : List Done} (h : Trace (Step P) s ds t) (hx : x.Backed P s.files) :
    t.behind P x = (s.behind P x).map (FileEdit.applyAll (ds.flatMap (·.editsOf x))) := by
  induction h with
  | nil s => exact (FileEdit.map_applyAll_nil _).symm
  | @cons s t u d ds head _ ih =>
    obtain ⟨⟨fuel, hstep⟩, hedits⟩ := head
    rw [ih (backed_step hstep hx), behind_step hstep hx, Option.map_map, List.flatMap_cons]
    congr 1
    funext bytes
    simp only [Function.comp_apply, FileEdit.applyAll, List.foldl_append, Done.editsOf, hedits]

theorem read_eq {fh : Nat} {x : FileHandle} (hfh : s.fs.handles fh = some x) {bytes : Bytes}
    (hb : s.behind P x = some bytes) (offset : Int) (size : Nat) :
    s.read P fh offset size = some (.ok ((bytes.drop offset.toNat).take size)) := by
  simp [read, hfh, hb]

/-- A path that has the content file shows what the handle reads. -/
theorem visible_of_opened {x : FileHandle} {c : ContentId} (hc : x.content = some c) {now : Bytes}
    (hb : s.behind P x = some now) {p : RepoPath} (hp : p.Ordinary)
    (ho : s.fs.world.overlay.openContent p = .ok c) :
    ∃ exec, P.visible s.fs.world.overlay p = .ok (some (.file exec now)) := by
  obtain ⟨⟨exec, hl⟩, hsome⟩ := openContent_file ho
  obtain ⟨bytes, hbytes⟩ := Option.isSome_iff_exists.mp hsome
  have hbehind : s.behind P x = some bytes := by
    have hof : bytesOf s.files c = some bytes := by simp [bytesOf, files, hbytes]
    cases x with
    | write ino b =>
      cases hc
      exact hof
    | read ino content =>
      cases content with
      | overlay b =>
        cases hc
        exact hof
      | bytes | cache => cases hc
  obtain rfl : bytes = now := Option.some.inj (hbehind.symm.trans hb)
  refine ⟨exec, ?_⟩
  simp only [visible, resolve_entry hp hl, entryResolved, seen, nodeOf, Overlay.readContent, ho]
  show Except.ok (some (Node.file exec ((s.fs.world.overlay.disk.content c).getD []))) = _
  rw [hbytes]
  rfl

/-- The handle decides the size of its inode: no other handle of it is open, or it is the only one that
writes. -/
def Decides (s : OpenFiles) (fh : Nat) (x : FileHandle) : Prop :=
  ∀ k y, s.fs.handles k = some y → y.ino = x.ino → k = fh ∨ x.Writes ∧ ¬ y.Writes

theorem openSizeFrom_write {fh ino n : Nat} {c : ContentId} {order : List Nat} (size : Option Nat)
    (hfh : s.fs.handles fh = some (.write ino c)) (hmem : fh ∈ order)
    (honly : ∀ k b, s.fs.handles k = some (.write ino b) → k = fh)
    (hn : (s.behind P (.write ino c)).map List.length = some n) :
    s.openSizeFrom P ino size order = some n := by
  induction order generalizing size with
  | nil => cases hmem
  | cons k rest ih =>
    rw [openSizeFrom]
    have hrest : k ≠ fh → fh ∈ rest := fun hne => (List.mem_cons.mp hmem).resolve_left (Ne.symm hne)
    split
    · rename_i i b hk
      split
      · rename_i hi
        subst hi
        obtain rfl := honly k b hk
        rw [hfh] at hk
        cases hk
        exact hn
      · rename_i hi
        refine ih size (hrest fun heq => hi ?_)
        rw [heq, hfh] at hk
        cases hk
        rfl
    · rename_i i content hk
      have hne : k ≠ fh := by
        intro heq
        rw [heq, hfh] at hk
        cases hk
      split
      · exact ih _ (hrest hne)
      · exact ih _ (hrest hne)
    · rename_i hk
      refine ih size (hrest fun heq => ?_)
      rw [heq, hfh] at hk
      cases hk

theorem openSizeFrom_read {fh ino n : Nat} {content : ContentHandle} {order : List Nat} (size : Option Nat)
    (hfh : s.fs.handles fh = some (.read ino content)) (hsize : fh ∈ order ∨ size = some n)
    (honly : ∀ k y, s.fs.handles k = some y → y.ino = ino → k = fh)
    (hn : (s.behind P (.read ino content)).map List.length = some n) :
    s.openSizeFrom P ino size order = some n := by
  induction order generalizing size with
  | nil => exact hsize.resolve_left (by simp)
  | cons k rest ih =>
    rw [openSizeFrom]
    have hrest : k ≠ fh → fh ∈ rest ∨ size = some n := fun hne => hsize.imp_left fun h =>
      (List.mem_cons.mp h).resolve_left (Ne.symm hne)
    split
    · rename_i i b hk
      have hne : k ≠ fh := by
        intro heq
        rw [heq, hfh] at hk
        cases hk
      split
      · rename_i hi
        exact (hne (honly k _ hk hi)).elim
      · exact ih size (hrest hne)
    · rename_i i content' hk
      split
      · rename_i hi
        obtain rfl := honly k _ hk hi
        rw [hfh] at hk
        cases hk
        exact ih _ (.inr hn)
      · rename_i hi
        refine ih size (hrest fun heq => hi ?_)
        rw [heq, hfh] at hk
        cases hk
        rfl
    · rename_i hk
      refine ih size (hrest fun heq => ?_)
      rw [heq, hfh] at hk
      cases hk

/-- The size that `fstat` is told once the path is gone. -/
theorem getattr_of_gone {fh : Nat} {x : FileHandle} (hfh : s.fs.handles fh = some x) (hd : s.Decides fh x)
    {bytes : Bytes} (hb : s.behind P x = some bytes) {order : List Nat}
    (horder : ∀ k, k ∈ order ↔ (s.fs.handles k).isSome) {e : Error} {w : World}
    (hgone : (P.getattr x.ino).run s.fs.world = (.error e, w)) :
    s.getattr P order x.ino = some (.ok ⟨x.ino, 0, bytes.length, .file false⟩) := by
  have hmem : fh ∈ order := (horder fh).mpr (by rw [hfh]; rfl)
  have hlength : (s.behind P x).map List.length = some bytes.length := by
    rw [hb]
    rfl
  have hsize : s.openSize P order x.ino = some bytes.length := by
    cases x with
    | write ino c =>
      refine openSizeFrom_write none hfh hmem (fun k b hk => ?_) hlength
      exact (hd k _ hk rfl).resolve_right fun h => h.2 trivial
    | read ino content =>
      refine openSizeFrom_read none hfh (.inl hmem) (fun k y hk hy => ?_) hlength
      exact (hd k y hk hy).resolve_right fun h => h.1
  rw [OpenFiles.getattr, hgone]
  simp only [hsize]

end OpenFiles

open OpenFiles

noncomputable def OpenFiles.reached (cs : List Callback) : OpenFiles :=
  cs.foldl (fun s c => (s.step smallProjection 0 c).getD s) (start (World.fresh 7 none))

def writeAndUnlink : List Callback :=
  [.create 1 [101] 0o644, .write 1 0 [121], .call (.unlink 1 [101]), .write 1 1 [122]]

theorem OpenFiles.step_of {P : Projection} {s t : OpenFiles} (fuel : Nat) (cb : Callback)
    (h : s.step P fuel cb = some t) : Step P s ⟨cb, fun c => s.edits c cb⟩ t := ⟨⟨fuel, h⟩, rfl⟩

example : (reached writeAndUnlink).read smallProjection 1 0 8 = some (.ok [121, 122]) := rfl

end LazyMount
