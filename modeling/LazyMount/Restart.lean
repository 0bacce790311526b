import LazyMount.HandlerSteps
import LazyMount.Lib.Trace
import LazyMount.Visible

/-! Sessions of the projection over one overlay directory. The baseline is the tree of HEAD when
a session opens; git moves HEAD while it runs. -/

namespace LazyMount

open RepoPath Transition

namespace GitStore

inductive Reaches (store : GitStore) (tree : ObjectId) : ObjectId → Prop
  | self : Reaches store tree tree
  | sub {t : ObjectId} {entries : List TreeEntry} {e : TreeEntry} (ht : Reaches store tree t)
    (hes : store.readTree t = .ok entries) (he : e ∈ entries) (hm : e.mode = .tree) :
    Reaches store tree e.oid

/-- The store returns the tree of each of its names. -/
def Complete (store : GitStore) (tree : ObjectId) : Prop :=
  ∀ t, store.Reaches tree t → ∃ entries, store.readTree t = .ok entries

variable {store : GitStore} {tree : ObjectId}

theorem Reaches.trans {t u : ObjectId} (ht : store.Reaches tree t) (hu : store.Reaches t u) :
    store.Reaches tree u := by
  induction hu with
  | self => exact ht
  | sub _ hes he hm ih => exact .sub ih hes he hm

theorem walk_complete (h : store.Complete tree) (cs : List Bytes) : ∃ r, store.walk tree cs = .ok r := by
  induction cs generalizing tree with
  | nil => exact ⟨none, rfl⟩
  | cons comp rest ih =>
    obtain ⟨entries, hes⟩ := h tree .self
    simp only [walk, hes, Except.ok_bind]
    cases hf : entries.find? (fun e => e.name = comp) with
    | none => exact ⟨none, rfl⟩
    | some entry =>
      cases hm : entry.mode with
      | regular | executable | symlink | gitlink => simp [hm]
      | tree =>
        simp only [hm]
        split
        · exact ⟨_, rfl⟩
        · have hsub : store.Reaches tree entry.oid := .sub .self hes (List.mem_of_find?_eq_some hf) hm
          exact ih fun t ht => h t (hsub.trans ht)

end GitStore

def Projection.onTree (P : Projection) (tree : ObjectId) : Projection := { P with baselineTree := tree }

/-- A session: the baseline it opened on, and where HEAD is by now. -/
structure Mounted where
  baseline : ObjectId
  head : ObjectId
  world : World

inductive MountEvent where
  | op (op : Op)
  | write (content : ContentId) (offset : Nat) (bytes : Bytes)
  | moveHead (tree : ObjectId)
  | reopen (order : List MetaName) (pid : Nat)

namespace Mounted

def start (tree : ObjectId) (pid : Nat) (journal : Option (State × JournalDir)) : Mounted :=
  ⟨tree, tree, World.fresh pid journal⟩

/-- The projection is dropped, and `Projection::open` by process `pid` reads HEAD again. -/
def reopen (s : Mounted) (order : List MetaName) (pid : Nat) : Mounted :=
  ⟨s.head, s.head, Overlay.openDisk s.world.overlay.disk order pid, InodeTable.new, s.world.journal⟩

inductive Step (P : Projection) : Mounted → MountEvent → Mounted → Prop
  | op {s : Mounted} {op : Op} {w : World} (h : (P.onTree s.baseline).Step s.world op w) :
    Step P s (.op op) { s with world := w }
  | write (s : Mounted) (content : ContentId) (offset : Nat) (bytes : Bytes) :
    Step P s (.write content offset bytes)
      { s with world.overlay := s.world.overlay.editContent content (writeAt offset bytes) }
  | moveHead (s : Mounted) (tree : ObjectId) : Step P s (.moveHead tree) { s with head := tree }
  | reopen (s : Mounted) {order : List MetaName} (h : Overlay.ReadDir s.world.overlay.disk order)
    (pid : Nat) : Step P s (.reopen order pid) (s.reopen order pid)

def visible (P : Projection) (s : Mounted) : RepoPath → Except Error (Option Node) :=
  (P.onTree s.baseline).visible s.world.overlay

/-- The overlay does not decide the path: no entry, and no tombstone above it. -/
def LeftToBaseline (s : Mounted) (p : RepoPath) : Prop :=
  p.Ordinary ∧ s.world.overlay.lookup p = none ∧ s.world.overlay.ancestorTombstoned p = false

end Mounted

def Projection.nodeIn (P : Projection) (tree : ObjectId) (p : RepoPath) : Except Error (Option Node) :=
  P.seen (Overlay.fresh 0) ((P.onTree tree).baselineResolve p)

namespace Overlay

theorem synced_handlerStep {P : Projection} {l : Action} {upd : World → World}
    (h : P.HandlerStep l upd) (w : World) (hw : Synced w.overlay) : Synced (upd w).overlay := by
  cases h with
  | quiet h => cases h <;> exact hw
  | mutate op => exact synced_step hw op
  | edit content f =>
    show Synced (w.overlay.editContent content f)
    rw [editContent]
    split
    · exact ⟨hw.sidecar, hw.noTmp⟩
    · exact hw

theorem synced_mounted {P : Projection} {s t : Mounted} {e : MountEvent}
    (hs : Synced s.world.overlay) (h : Mounted.Step P s e t) : Synced t.world.overlay := by
  cases h with
  | @op op w h =>
    obtain ⟨fuel, r, hr, -⟩ := h
    have hh := (Op.within (P.onTree s.baseline) fuel op).run (I := fun w => Synced w.overlay)
      (fun _ _ hu w hw => synced_handlerStep hu w hw) hs
    rwa [hr] at hh
  | write content offset bytes =>
    exact synced_handlerStep (P := P) (.edit content (writeAt offset bytes)) s.world hs
  | moveHead => exact hs
  | reopen ho pid => exact synced_openDisk ho hs.noTmp pid

theorem openDisk_eq {ov : Overlay} (hs : Synced ov) {order : List MetaName}
    (ho : ReadDir ov.disk order) (pid : Nat) :
    openDisk ov.disk order pid = { ov with pid := pid, contentSeq := 0 } := by
  have hidx : (openDisk ov.disk order pid).index = ov.index :=
    Index.ext_entries (entries_openDisk hs ho pid)
  show openDisk ov.disk order pid = _
  cases ov
  simp only [openDisk] at hidx ⊢
  rw [hidx]

end Overlay

namespace Mounted

variable {P : Projection} {s : Mounted}

theorem visible_of_left {p : RepoPath} (h : s.LeftToBaseline p) (tree : ObjectId) :
    (P.onTree tree).visible s.world.overlay p = P.nodeIn tree p := by
  obtain ⟨hp, hl, ha⟩ := h
  have hroot : ¬ p.isRoot = true := by rw [isRoot_iff]; exact hp.1
  rw [Projection.visible, Projection.resolve, if_neg hroot, if_neg hp.2, hl, ha]
  exact Projection.seen_baseline _ _ p

theorem visible_decided {t u : ObjectId} {ov : Overlay} (ht : P.store.Complete t)
    (hu : P.store.Complete u) {p : RepoPath}
    (h : ¬ (p.Ordinary ∧ ov.lookup p = none ∧ ov.ancestorTombstoned p = false)) :
    (P.onTree t).visible ov p = (P.onTree u).visible ov p := by
  have hbt : ∀ tree, P.store.Complete tree → ∃ bt, (P.onTree tree).baselineTreeAt p = .ok bt := by
    intro tree hc
    obtain ⟨r, hr⟩ := GitStore.walk_complete hc p.components
    obtain ⟨bt, hbt, -⟩ := Projection.baselineTreeAt_of (P := P.onTree tree) (p := p) hr
    exact ⟨bt, hbt⟩
  rw [Projection.visible, Projection.visible, Projection.resolve, Projection.resolve]
  by_cases hroot : p.isRoot = true
  · rw [if_pos hroot, if_pos hroot]
    rfl
  by_cases hgit : p.components = [gitfileName]
  · rw [if_neg hroot, if_neg hroot, if_pos hgit, if_pos hgit]
    rfl
  rw [if_neg hroot, if_neg hroot, if_neg hgit, if_neg hgit]
  cases he : ov.lookup p with
  | none =>
    have ha : ov.ancestorTombstoned p = true := by
      by_contra ha
      exact h ⟨⟨fun hp => hroot (isRoot_iff.mpr hp), hgit⟩, he, by simpa using ha⟩
    rw [ha]
    rfl
  | some e =>
    cases e with
    | dir =>
      obtain ⟨bt, hb⟩ := hbt t ht
      obtain ⟨bu, hb'⟩ := hbt u hu
      simp [Projection.entryResolved, hb, hb', Projection.seen, Projection.nodeOf]
    | baseRef oid mode => cases mode <;> rfl
    | file | symlink | tombstone => rfl

/-- A restart changes nothing of the visible tree exactly if the tree of HEAD agrees with the
old baseline wherever the overlay leaves the decision to it. -/
theorem restart_keeps_tree_iff (P : Projection) {tree : ObjectId} {pid : Nat}
    {journal : Option (State × JournalDir)} {es : List MountEvent} {s : Mounted}
    (hrun : Trace (Step P) (start tree pid journal) es s) {order : List MetaName}
    (horder : Overlay.ReadDir s.world.overlay.disk order) (pid' : Nat)
    (hold : P.store.Complete s.baseline) (hnew : P.store.Complete s.head) :
    (∀ p, (s.reopen order pid').visible P p = s.visible P p) ↔
      ∀ p, s.LeftToBaseline p → P.nodeIn s.head p = P.nodeIn s.baseline p := by
  have hs : Overlay.Synced s.world.overlay :=
    hrun.invariant (I := fun s => Overlay.Synced s.world.overlay)
      (fun _ _ _ hs h => Overlay.synced_mounted hs h) (Overlay.synced_fresh pid)
  have hopen : ∀ p, (s.reopen order pid').visible P p = (P.onTree s.head).visible s.world.overlay p := by
    intro p
    rw [visible, reopen, Overlay.openDisk_eq hs horder]
    exact Projection.visible_congr (fun _ _ => rfl) fun _ _ _ => rfl
  constructor
  · intro h p hp
    rw [← visible_of_left hp, ← visible_of_left hp, ← hopen]
    exact h p
  · intro h p
    rw [hopen, visible]
    by_cases hp : s.LeftToBaseline p
    · rw [visible_of_left hp, visible_of_left hp, h p hp]
    · exact visible_decided hnew hold hp

theorem complete_smallStore {tree : ObjectId} (h : tree.raw = [2] ∨ tree.raw = [4]) :
    smallStore.Complete tree := by
  have hread : ∀ t : ObjectId, t.raw = [2] ∨ t.raw = [4] →
      ∃ entries, smallStore.readTree t = .ok entries ∧ ∀ e ∈ entries, e.mode = .regular := by
    rintro ⟨raw⟩ (rfl | rfl)
    · exact ⟨_, rfl, by simp⟩
    · exact ⟨_, rfl, by simp⟩
  have hreach : ∀ t, smallStore.Reaches tree t → t = tree := by
    intro t ht
    induction ht with
    | self => rfl
    | sub _ hes he hm ih =>
      subst ih
      obtain ⟨entries, hes', hall⟩ := hread _ h
      rw [hes] at hes'
      cases hes'
      rw [hall _ he] at hm
      cases hm
  intro t ht
  rw [hreach t ht]
  obtain ⟨entries, hes, -⟩ := hread tree h
  exact ⟨entries, hes⟩

noncomputable def committed : Mounted :=
  let w := (((Op.create rootIno [97] false).handler (smallProjection.onTree ⟨[2]⟩) 0).run
    (World.fresh 7 none)).2
  ⟨⟨[2]⟩, ⟨[4]⟩, { w with overlay := w.overlay.editContent ⟨7, 0⟩ (writeAt 0 [120]) }⟩

theorem trace_committed : Trace (Step smallProjection) (start ⟨[2]⟩ 7 none)
    [.op (.create rootIno [97] false), .write ⟨7, 0⟩ 0 [120], .moveHead ⟨[4]⟩] committed :=
  .cons (.op ⟨0, .ok (.opened (some ⟨2, 1, 0, .file false⟩) ⟨7, 0⟩),
    Prod.ext (by decide +kernel) rfl, by simp⟩)
    (.cons (.write _ _ _ _) (.cons (.moveHead _ _) (.nil _)))

theorem metaFiles_committed (name : MetaName) :
    committed.world.overlay.disk.metaFiles name =
      if name = .sidecar (letter 97) then
        some (.parsed ⟨(letter 97).bytes, .file ⟨7, 0⟩ false⟩) else none := by
  show ((Disk.empty.exec (.createContent ⟨7, 0⟩)).execAll
    (Overlay.persist (letter 97) (.file ⟨7, 0⟩ false))).metaFiles name = _
  rw [Disk.metaFiles_persist]
  by_cases ht : name = .tmp (letter 97)
  · simp [ht]
  · simp [ht, Disk.exec, Disk.setContent, Disk.empty]

theorem readDir_committed :
    Overlay.ReadDir committed.world.overlay.disk [.sidecar (letter 97)] := by
  refine ⟨by simp, fun name => ?_⟩
  rw [metaFiles_committed]
  by_cases hn : name = .sidecar (letter 97)
  · simp [hn]
  · simp [hn]

theorem restart_keeps_tree_iff_committed :
    (∀ p, (committed.reopen [.sidecar (letter 97)] 8).visible smallProjection p =
        committed.visible smallProjection p) ↔
      ∀ p, committed.LeftToBaseline p →
        smallProjection.nodeIn ⟨[4]⟩ p = smallProjection.nodeIn ⟨[2]⟩ p :=
  restart_keeps_tree_iff smallProjection trace_committed readDir_committed 8
    (complete_smallStore (.inl rfl)) (complete_smallStore (.inr rfl))

noncomputable def unlinked : Mounted :=
  { committed with world := (((Op.unlink rootIno [97]).handler
    (smallProjection.onTree ⟨[2]⟩) 0).run committed.world).2 }

/-- The unlinked file is back behind the restart. -/
theorem unlinked_file_returns :
    Trace (Step smallProjection) (start ⟨[2]⟩ 7 none)
        [.op (.create rootIno [97] false), .write ⟨7, 0⟩ 0 [120], .moveHead ⟨[4]⟩,
          .op (.unlink rootIno [97])] unlinked ∧
      Overlay.ReadDir unlinked.world.overlay.disk [] ∧
      unlinked.visible smallProjection (letter 97) = .ok none ∧
      (unlinked.reopen [] 8).visible smallProjection (letter 97) = .ok (some (.file false [120])) := by
  refine ⟨trace_committed.append (.cons (.op ⟨0, .ok .unit, Prod.ext (by decide +kernel) rfl, by simp⟩)
    (.nil _)), ⟨by simp, fun name => ?_⟩, by decide +kernel, by decide +kernel⟩
  show _ ↔ ((committed.world.overlay.disk.exec (.removeSidecar (letter 97))).metaFiles name).isSome
    = true
  simp only [Disk.exec, Disk.setMeta, Function.update_apply, metaFiles_committed]
  by_cases hn : name = .sidecar (letter 97)
  · simp [hn]
  · simp [hn]

end Mounted

end LazyMount
