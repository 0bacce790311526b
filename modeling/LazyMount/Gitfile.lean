import LazyMount.FreshDirectory
import LazyMount.Listing
import LazyMount.Restart

/-! The synthetic `.git`: the name check of the calls by name and the resolution order of the
calls by inode keep the overlay away from it. -/

namespace LazyMount

open Prog RepoPath Transition Handler

def gitfilePath : RepoPath := ofComponents [gitfileName] (by decide)

theorem components_gitfilePath : gitfilePath.components = [gitfileName] :=
  components_ofComponents _ _

theorem gitfilePath_ne_root : gitfilePath ≠ root := by
  intro h
  have hc := components_gitfilePath
  rw [h, components_root] at hc
  cases hc

theorem not_ordinary_gitfilePath : ¬ gitfilePath.Ordinary := fun h => h.2 components_gitfilePath

theorem eq_gitfilePath {p : RepoPath} (h : p.components = [gitfileName]) : p = gitfilePath :=
  ext_components (h.trans components_gitfilePath.symm)

theorem child_gitfilePath {name : Bytes} : Child root name gitfilePath ↔ name = gitfileName := by
  rw [Child, components_gitfilePath, components_root, List.nil_append, List.singleton_inj]
  exact eq_comm

namespace Overlay

/-- Neither the index nor a file of the meta directory has an entry for the root `.git`. -/
structure SparesGitfile (ov : Overlay) : Prop where
  lookup : ov.lookup gitfilePath = none
  sidecar : ov.disk.fileEntry (.sidecar gitfilePath) = none
  tmp : ov.disk.fileEntry (.tmp gitfilePath) = none

variable {ov : Overlay}

theorem sparesGitfile_openDisk {d : Disk} {order : List MetaName} (ho : ReadDir d order) (pid : Nat)
    (h : (openDisk d order pid).lookup gitfilePath = none) : (openDisk d order pid).SparesGitfile := by
  have hfile : ∀ name : MetaName, name.path = gitfilePath → d.fileEntry name = none := by
    intro name hname
    by_contra hne
    obtain ⟨e, he⟩ := Option.ne_none_iff_exists'.mp hne
    have hmem : name ∈ order := by
      rw [ho.mem]
      cases hf : d.metaFiles name with
      | none => simp [Disk.fileEntry, hf] at he
      | some f => rfl
    have hsome := scan_isSome hmem (by rw [he]; rfl)
    rw [hname] at hsome
    rw [lookup, openDisk] at h
    rw [h] at hsome
    cases hsome
  exact ⟨h, hfile _ rfl, hfile _ rfl⟩

theorem SparesGitfile.reopen (h : ov.SparesGitfile) {order : List MetaName} (pid : Nat) :
    (openDisk ov.disk order pid).SparesGitfile := by
  refine ⟨?_, h.sidecar, h.tmp⟩
  by_contra hne
  obtain ⟨e, he⟩ := Option.ne_none_iff_exists'.mp hne
  obtain ⟨name, -, hpath, hfile⟩ := exists_of_scan he
  cases name with
  | sidecar p =>
    obtain rfl : p = gitfilePath := hpath
    have hnone := h.sidecar
    rw [hfile] at hnone
    cases hnone
  | tmp p =>
    obtain rfl : p = gitfilePath := hpath
    have hnone := h.tmp
    rw [hfile] at hnone
    cases hnone

theorem SparesGitfile.step (h : ov.SparesGitfile) {op : OverlayOp}
    (hop : op.Ordinary) : (ov.step op).SparesGitfile := by
  have hnot : gitfilePath ∉ op.writes := fun hmem => not_ordinary_gitfilePath (hop.writes _ hmem)
  have heff : op.effect ov.newContentId ov.index.entries gitfilePath = none :=
    OverlayOp.effect_none hnot _ h.lookup
  have hlook : (ov.step op).lookup gitfilePath = none := by
    show (ov.step op).index.entries gitfilePath = none
    rw [step_entries, heff]
  have hdoes := ov.does op
  have hdisk : (ov.step op).disk = ov.disk.execAll (ov.mutation op).fileOps := rfl
  cases hm : ov.mutation op with
  | mk ops idx seq =>
    rw [hm] at hdoes hdisk
    cases hdoes with
    | @put _ p e pre _ hpre hput =>
      have hp : p ≠ gitfilePath := by
        intro heq
        rw [hput, heq, Function.update_self] at heff
        cases heff
      have hfile : ∀ n, (ov.step op).disk.fileEntry n = if n = .tmp p then none
          else if n = .sidecar p then some e else ov.disk.fileEntry n := by
        intro n
        rw [hdisk, Disk.execAll_append, Disk.fileEntry_persist, Disk.fileEntry_content hpre]
      refine ⟨hlook, ?_, ?_⟩
      · simp [hfile, hp.symm, h.sidecar]
      · simp [hfile, h.tmp]
    | @clear p =>
      have hfile : ∀ n, (ov.step (.clear p)).disk.fileEntry n =
          if n = .sidecar p then none else ov.disk.fileEntry n := by
        intro n
        rw [hdisk, Disk.execAll_append, Disk.execAll_cons, Disk.execAll_nil,
          Disk.fileEntry_removeSidecar, Disk.fileEntry_content (ov.onContent_dropContent p)]
      refine ⟨hlook, ?_, ?_⟩
      · simp [hfile, h.sidecar]
      · simp [hfile, h.tmp]
    | @rename src dst e he =>
      have hp : dst ≠ gitfilePath := fun heq => hnot (heq ▸ List.mem_singleton_self dst)
      have hfile : ∀ n, (ov.step (.rename src dst)).disk.fileEntry n =
          if n = .sidecar src then none else if n = .tmp dst then none
          else if n = .sidecar dst then some e else ov.disk.fileEntry n := by
        intro n
        rw [hdisk, Disk.execAll_append, Disk.execAll_cons, Disk.execAll_nil,
          Disk.fileEntry_removeSidecar, Disk.fileEntry_persist]
      refine ⟨hlook, ?_, ?_⟩
      · simp [hfile, hp.symm, h.sidecar]
      · simp [hfile, h.tmp]
    | unchanged => exact ⟨hlook, by rw [hdisk]; exact h.sidecar, by rw [hdisk]; exact h.tmp⟩

theorem SparesGitfile.editContent (h : ov.SparesGitfile) (content : ContentId) (f : Bytes → Bytes) :
    (ov.editContent content f).SparesGitfile := by
  rw [Overlay.editContent]
  split
  · exact ⟨h.lookup, h.sidecar, h.tmp⟩
  · exact h

theorem SparesGitfile.ordinaryStep {P : Projection} {l : Action} {upd : World → World}
    (hs : P.OrdinaryStep l upd) (w : World) (hw : w.overlay.SparesGitfile) :
    (upd w).overlay.SparesGitfile := by
  cases hs with
  | quiet hq => cases hq <;> exact hw
  | mutate op hop => exact hw.step hop
  | edit content f => exact hw.editContent content f

theorem sparesGitfile_mounted {P : Projection} {s t : Mounted} {e : MountEvent}
    (hs : s.world.overlay.SparesGitfile) (h : Mounted.Step P s e t) :
    t.world.overlay.SparesGitfile := by
  cases h with
  | @op op w h =>
    obtain ⟨fuel, r, hr, -⟩ := h
    have hh := (Op.within_ordinary (P.onTree s.baseline) fuel op).run
      (I := fun w => w.overlay.SparesGitfile) (fun _ _ hu w hw => hw.ordinaryStep hu w) hs
    rwa [hr] at hh
  | write content offset bytes => exact hs.editContent content (writeAt offset bytes)
  | moveHead => exact hs
  | reopen _ pid => exact hs.reopen pid

end Overlay

namespace Projection

variable {P : Projection}

theorem resolve_gitfile (ov : Overlay) : P.resolve ov gitfilePath = .ok (some .gitfile) := by
  rw [resolve, if_neg (by rw [isRoot_iff]; exact gitfilePath_ne_root),
    if_pos components_gitfilePath]

theorem baselineShown_root {ov : Overlay} {e : TreeEntry} {x : Bytes × Kind}
    (h : baselineShown ov root e = some x) : x.1 ≠ gitfileName := by
  rw [baselineShown] at h
  split at h
  · cases h
  · rename_i hcond
    split at h
    · split at h
      · cases h
      · cases h
        exact fun heq => hcond ⟨rfl, heq⟩
    · cases h

theorem children_root {ov : Overlay} (hov : ov.SparesGitfile) {child : Bytes × OverlayEntry}
    (h : child ∈ P.children ov root) : child.1 ≠ gitfileName := by
  intro heq
  obtain ⟨q, hq, hl⟩ := mem_children.mp h
  obtain rfl : q = gitfilePath := by
    refine eq_gitfilePath ?_
    rw [hq, components_root, heq, List.nil_append]
  rw [hov.lookup] at hl
  cases hl

theorem readdir_root_gitfile {w w' : World} (hw : w.overlay.SparesGitfile) {ino : Nat}
    (hino : w.pathOf ino = .ok root) {entries : List DirEntry}
    (hr : (P.readdir ino).run w = (.ok entries, w')) :
    ∃ i, entries.filter (·.name = gitfileName) = [⟨gitfileName, .file false, i⟩] := by
  obtain ⟨dir, bt, es, hdir, -, -, hshown⟩ := run_readdir hr
  obtain rfl : root = dir := Except.ok.inj (hino.symm.trans hdir)
  obtain ⟨rest, last, rfl, hrest, hlast⟩ := List.map_eq_append_iff.mp hshown
  have hnone : rest.filter (·.name = gitfileName) = [] := by
    refine List.filter_eq_nil_iff.mpr fun e he => ?_
    have hmem : e.shown ∈ es.filterMap (baselineShown w.overlay root) ++
        (P.children w.overlay root).filterMap overlayShown := hrest ▸ List.mem_map_of_mem he
    have hne : e.shown.1 ≠ gitfileName := by
      rcases List.mem_append.mp hmem with hm | hm
      · obtain ⟨te, -, hte⟩ := List.mem_filterMap.mp hm
        exact baselineShown_root hte
      · obtain ⟨child, hchild, hc⟩ := List.mem_filterMap.mp hm
        obtain ⟨kind, -, hk⟩ := Option.map_eq_some_iff.mp hc
        rw [← hk]
        exact children_root hw hchild
    simpa [DirEntry.shown] using hne
  obtain ⟨⟨name, kind, i⟩, rfl, he⟩ := List.map_eq_singleton_iff.mp hlast
  cases he
  refine ⟨i, ?_⟩
  rw [List.filter_append, hnone]
  rfl

end Projection

/-- The calls that would change the root `.git`. -/
def Op.OnGitfile (w : World) : Op → Prop
  | .create parent name _ | .mkdir parent name | .symlink parent name _ | .unlink parent name
  | .rmdir parent name => w.Names parent name gitfilePath
  | .rename parent name newparent newname _ =>
    w.Names parent name gitfilePath ∨ w.Names newparent newname gitfilePath
  | .openWrite ino _ | .truncate ino _ | .setExecutable ino _ => w.pathOf ino = .ok gitfilePath
  | .lookup _ _ | .getattr _ | .readdir _ | .forget _ _ => False

namespace Projection

variable {P : Projection} {w : World} {α β : Type}

theorem childPath_gitfile {parent : Nat} {name : Bytes} (h : w.Names parent name gitfilePath) :
    (childPath parent name).run w = (.error protectedGitfile, w) := by
  obtain ⟨dir, hdir, hchild⟩ := h
  have hpath : (pathOf parent).run w = (.ok dir, w) := run_read hdir
  have hjoin : (Prog.liftExcept (join dir name) : Handler RepoPath).run w = (.ok gitfilePath, w) := by
    rw [join_eq_ok.mpr ⟨valid_of_child hchild, hchild⟩]
    rfl
  rw [childPath, run_bind_ok hpath, run_bind_ok hjoin, if_pos components_gitfilePath]
  rfl

theorem childPath_cases (w : World) (parent : Nat) (name : Bytes) :
    (∃ path, (childPath parent name).run w = (.ok path, w)) ∨
      ∃ e, (childPath parent name).run w = (.error e, w) := by
  cases hdir : w.pathOf parent with
  | error e =>
    right
    refine ⟨e, ?_⟩
    have hpath : (pathOf parent).run w = (.error e, w) := by
      simp only [pathOf, Prog.read, Prog.atom, Prog.run, hdir]
      rfl
    rw [childPath, run_bind, hpath]
  | ok dir =>
    have hpath : (pathOf parent).run w = (.ok dir, w) := run_read hdir
    rw [childPath, run_bind_ok hpath]
    cases join dir name with
    | error e => exact .inr ⟨e, rfl⟩
    | ok path =>
      by_cases hgit : path.components = [gitfileName]
      · exact .inr ⟨protectedGitfile, by simp [Prog.liftExcept, run_bind, Prog.run, hgit]⟩
      · exact .inl ⟨path, by simp [Prog.liftExcept, run_bind, Prog.run, hgit]⟩

theorem childPath_bind_gitfile {parent : Nat} {name : Bytes} (h : w.Names parent name gitfilePath)
    (f : RepoPath → Handler α) : ∃ e, ((childPath parent name >>= f).run w).1 = .error e :=
  ⟨protectedGitfile, run_bind_error (by rw [childPath_gitfile h])⟩

theorem map_error {m : Handler α} (g : α → β) (h : ∃ e, (m.run w).1 = .error e) :
    ∃ e, ((g <$> m).run w).1 = .error e := by
  obtain ⟨e, he⟩ := h
  exact ⟨e, run_bind_error he⟩

theorem byInode_gitfile (hw : w.overlay.SparesGitfile) {ino : Nat} (hino : w.pathOf ino = .ok gitfilePath) :
    (∀ trunc, ((P.openWrite ino trunc).run w).1 = .error (internal "not a writable file")) ∧
      (∀ size, ((P.truncate ino size).run w).1 = .error (internal "not a file")) ∧
      ∀ x, ((P.setExecutable ino x).run w).1 = .error (internal "not a file") := by
  have hpath : (pathOf ino).run w = (.ok gitfilePath, w) := run_read hino
  obtain ⟨v, hov, hrec⟩ : ∃ v : World, v.overlay = w.overlay ∧
      (P.recordChangeFile gitfilePath).run w = (.ok (), v) :=
    ⟨{ w with journal := w.journal.map fun j => record P.limits j.1 j.2 gitfilePath.bytes }, rfl, rfl⟩
  have hlook : ∀ u : World, u.overlay = w.overlay →
      (lookupEntry gitfilePath).run u = (.ok none, u) := fun u hu =>
    run_read (by rw [hu, hw.lookup])
  have hres : ∀ u : World, (P.resolveStep gitfilePath).run u = (.ok (some .gitfile), u) := fun u =>
    run_read (resolve_gitfile u.overlay)
  refine ⟨fun trunc => ?_, fun size => ?_, fun x => ?_⟩
  · rw [openWrite, run_bind_ok hpath, run_bind_ok hrec, run_bind_ok (hlook v hov), run_bind_ok (hres v)]
    rfl
  · rw [truncate, run_bind_ok hpath, run_bind_ok (hlook w rfl), run_bind_ok (hres w)]
    rfl
  · rw [setExecutable, run_bind_ok hpath, run_bind_ok hrec, run_bind_ok (hlook v hov),
      run_bind_ok (hres v)]
    rfl

theorem onGitfile_error (hw : w.overlay.SparesGitfile) {op : Op} (hop : op.OnGitfile w) (fuel : Nat) :
    ∃ e, ((op.handler P fuel).run w).1 = .error e := by
  cases op with
  | lookup | getattr | readdir | forget => exact hop.elim
  | create | mkdir | symlink | unlink | rmdir => exact map_error _ (childPath_bind_gitfile hop _)
  | openWrite ino trunc => exact map_error _ ⟨_, (byInode_gitfile hw hop).1 trunc⟩
  | truncate ino size => exact map_error _ ⟨_, (byInode_gitfile hw hop).2.1 size⟩
  | setExecutable ino x => exact map_error _ ⟨_, (byInode_gitfile hw hop).2.2 x⟩
  | rename parent name newparent newname flags =>
    refine map_error _ ?_
    rcases hop with hsrc | hdst
    · exact childPath_bind_gitfile hsrc _
    · rw [rename]
      rcases childPath_cases w parent name with ⟨src, hsrc⟩ | ⟨e, he⟩
      · rw [run_bind_ok hsrc]
        exact childPath_bind_gitfile hdst _
      · exact ⟨e, run_bind_error (by rw [he])⟩

end Projection

/-- Whatever the calls and the reopens, and whatever the baseline holds at its root. -/
theorem gitfile_protected (P : Projection) {tree head : ObjectId} {d : Disk} {order : List MetaName}
    {pid : Nat} {journal : Option (State × JournalDir)} {es : List MountEvent} {s : Mounted}
    (horder : Overlay.ReadDir d order) (hfree : (Overlay.openDisk d order pid).lookup gitfilePath = none)
    (hrun : Trace (Mounted.Step P)
      ⟨tree, head, ⟨Overlay.openDisk d order pid, InodeTable.new, journal⟩⟩ es s) :
    s.world.overlay.lookup gitfilePath = none ∧
    (P.onTree s.baseline).resolve s.world.overlay gitfilePath = .ok (some .gitfile) ∧
    s.visible P gitfilePath = .ok (some (.file false P.gitfile)) ∧
    (∀ ino entries w, s.world.pathOf ino = .ok root →
      ((P.onTree s.baseline).readdir ino).run s.world = (.ok entries, w) →
        ∃ i, entries.filter (·.name = gitfileName) = [⟨gitfileName, .file false, i⟩]) ∧
    ∀ op : Op, op.OnGitfile s.world → ∀ fuel,
      ∃ e, ((op.handler (P.onTree s.baseline) fuel).run s.world).1 = .error e := by
  have hs : s.world.overlay.SparesGitfile :=
    hrun.invariant (I := fun s => s.world.overlay.SparesGitfile)
      (fun _ _ _ hs h => Overlay.sparesGitfile_mounted hs h)
      (Overlay.sparesGitfile_openDisk horder pid hfree)
  have hres := Projection.resolve_gitfile (P := P.onTree s.baseline) s.world.overlay
  refine ⟨hs.lookup, hres, ?_, ?_, ?_⟩
  · rw [Mounted.visible, Projection.visible, hres]
    rfl
  · exact fun ino entries w hino hr => Projection.readdir_root_gitfile hs hino hr
  · exact fun op hop fuel => Projection.onGitfile_error hs hop fuel

theorem readDir_empty : Overlay.ReadDir Disk.empty [] := ⟨List.nodup_nil, by simp [Disk.empty]⟩

/-- A `mkdir` of `.git` is refused, and so is an `unlink` after it. -/
theorem gitfile_protected_mkdir : ∃ s,
    Trace (Mounted.Step smallProjection) (Mounted.start ⟨[1]⟩ 7 none) [.op (.mkdir rootIno gitfileName)] s ∧
      s.world.overlay.lookup gitfilePath = none ∧
      ∃ e, (((Op.unlink rootIno gitfileName).handler (smallProjection.onTree s.baseline) 0).run
        s.world).1 = .error e := by
  have hnames : (Mounted.start ⟨[1]⟩ 7 none).world.Names rootIno gitfileName gitfilePath :=
    ⟨root, rfl, child_gitfilePath.mpr rfl⟩
  have hstep : (smallProjection.onTree ⟨[1]⟩).Step (Mounted.start ⟨[1]⟩ 7 none).world
      (.mkdir rootIno gitfileName) (Mounted.start ⟨[1]⟩ 7 none).world :=
    ⟨0, .error protectedGitfile, Prod.ext (by decide +kernel) rfl, by simp⟩
  have hrun : Trace (Mounted.Step smallProjection) (Mounted.start ⟨[1]⟩ 7 none)
      [.op (.mkdir rootIno gitfileName)] (Mounted.start ⟨[1]⟩ 7 none) := .cons (.op hstep) (.nil _)
  obtain ⟨hnone, -, -, -, herr⟩ := gitfile_protected smallProjection readDir_empty rfl hrun
  exact ⟨_, hrun, hnone, herr (.unlink rootIno gitfileName) hnames 0⟩

end LazyMount
