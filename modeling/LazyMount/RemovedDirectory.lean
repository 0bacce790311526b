import LazyMount.FileRefinement
import LazyMount.ListingLookup
import LazyMount.TableSteps

/-! A directory that `rmdir` has removed is gone, if the baseline has no file in its place and no
entry of the overlay is left beneath it. -/

namespace LazyMount

open Function (update)
open RepoPath Prog Handler Transition

theorem InodeTable.pathOf_unlink {t : InodeTable} {i : Nat} {p q : RepoPath} (h : t.pathOf i = some q)
    (hne : q ≠ p) : (t.unlink p).pathOf i = some q := by
  rw [InodeTable.pathOf] at h ⊢
  rw [InodeTable.unlink]
  split
  · rename_i ino hino
    obtain ⟨e, he, hp⟩ := (t.pathToIno_iff p ino).mp hino
    have hi : i ≠ ino := by
      intro heq
      rw [heq, he] at h
      exact hne (Option.some.inj (h.symm.trans hp))
    simpa only [Function.update_of_ne hi] using h
  · exact h

theorem pathOf_unlinked {w t : World} {ino : Nat} {dir p : RepoPath} (h : w.pathOf ino = .ok dir)
    (hne : dir ≠ p) (ht : t.inodes = w.inodes.unlink p) : t.pathOf ino = .ok dir := by
  rw [World.pathOf] at h ⊢
  split at h
  · rename_i hroot
    rw [if_pos hroot, h]
  · rename_i hroot
    rw [if_neg hroot, ht]
    cases hq : w.inodes.pathOf ino with
    | none =>
      rw [hq] at h
      cases h
    | some q =>
      rw [hq] at h
      obtain rfl := Except.ok.inj h
      rw [InodeTable.pathOf_unlink hq hne]

namespace Projection

variable {P : Projection} {w t : World} {ov : Overlay} {dir p q : RepoPath} {parent : Nat}
  {name : Bytes} {bt : Option ObjectId} {entries : List TreeEntry}

theorem run_rmdir (h : (P.rmdir parent name).run w = (.ok (), t)) (hn : w.Names parent name p) :
    p.Ordinary ∧ P.dirIsEmpty w.overlay p = .ok true ∧ ∃ bt, P.baselineTreeAt p = .ok bt ∧
      t.overlay = w.overlay.step (if bt.isSome then .tombstone p else .clear p) ∧
      t.inodes = w.inodes.unlink p := by
  obtain ⟨p', v, hp, h₁⟩ := run_bind_eq_ok h
  obtain ⟨hn', hord, rfl⟩ := run_childPath hp
  obtain rfl : p = p' := hn.unique hn'
  obtain ⟨empty, v', he, h₂⟩ := run_bind_eq_ok h₁
  obtain ⟨hempty, rfl⟩ := run_read_eq_ok he
  split at h₂
  · rename_i htrue
    rw [htrue] at hempty
    obtain ⟨bt, u, hb, h₃⟩ := run_bind_eq_ok h₂
    obtain ⟨hbase, rfl⟩ := run_read_eq_ok hb
    refine ⟨hord, hempty, bt, hbase, ?_⟩
    split at h₃
    · rename_i hsome
      rw [if_pos hsome]
      exact run_removeName h₃
    · rename_i hnone
      rw [if_neg hnone]
      obtain ⟨o, u, ho, h₄⟩ := run_bind_eq_ok h₃
      obtain ⟨-, rfl⟩ := run_read_eq_ok ho
      cases o with
      | none => cases h₄
      | some e => exact run_removeName h₄
  · cases h₂

/-! What is left of the path. -/

/-- Where the baseline has no tree it has nothing, a file or a symlink. -/
theorem baseline_leaf (hb : P.baselineTreeAt p = .ok none) :
    ∃ r, P.baselineResolve p = .ok r ∧ ∀ x, r = some x → x.isDir = false := by
  cases hr : P.baselineResolve p with
  | error e =>
    rw [baselineTreeAt_error hr] at hb
    cases hb
  | ok r =>
    refine ⟨r, rfl, ?_⟩
    rintro x rfl
    cases x with
    | dir bt =>
      obtain ⟨t, rfl, -⟩ := GitStore.walk_dir hr
      obtain ⟨bt, hbt, hiff⟩ := baselineTreeAt_of hr
      obtain rfl : bt = none := Except.ok.inj (hbt.symm.trans hb)
      exact nomatch (hiff t).mpr rfl
    | file | symlink | gitfile => rfl

/-- No entry beneath `p` but tombstones. -/
def Cleared (ns : Namespace) (p : RepoPath) : Prop :=
  ∀ q e, Under p q → q ≠ p → ns q = some e → e = .tombstone

/-- What `rmdir` leaves: a tombstone over a baseline directory, else no entry. -/
theorem resolve_removed {ov' : Overlay} (hp : p.Ordinary) (hb : P.baselineTreeAt p = .ok bt)
    (hns : ov'.lookup = update ov.lookup p (if bt.isSome then some .tombstone else none)) :
    (∀ q, Under p q → P.resolve ov' q = .ok none) ↔ Cleared ov.lookup p ∧
      (bt = none → P.baselineResolve p = .ok none ∨ ov.ancestorTombstoned p = true) := by
  have hother : ∀ q, q ≠ p → ov'.lookup q = ov.lookup q := fun q hq => by
    rw [hns, Function.update_of_ne hq]
  have hself : ov'.lookup p = if bt.isSome then some .tombstone else none := by
    rw [hns, Function.update_self]
  have hord : ∀ q, Under p q → q.Ordinary := by
    intro q hu
    by_cases hq : q = p
    · exact hq ▸ hp
    · obtain ⟨n, c, hc, hcq⟩ := exists_child_under hu hq
      exact below_induction (motive := fun q => q.Ordinary) (fun n q hq => hq.ordinary hp.1)
        (fun q n r _ _ hq hr => hr.ordinary hq.1) hu hq
  -- the path itself
  have hat : P.resolve ov' p = .ok none ↔
      (bt = none → P.baselineResolve p = .ok none ∨ ov.ancestorTombstoned p = true) := by
    cases bt with
    | some t =>
      rw [resolve_entry hp (e := .tombstone) (by rw [hself]; rfl)]
      exact ⟨fun _ h => (nomatch h), fun _ => rfl⟩
    | none =>
      rw [resolve_unset hp (by rw [hself]; rfl), ancestorTombstoned_congr fun q _ hq => hother q hq]
      cases ov.ancestorTombstoned p <;> simp
  -- what lies beneath
  have hbelow : ∀ q, Under p q → q ≠ p →
      (P.resolve ov' q = .ok none ↔ ∀ e, ov.lookup q = some e → e = .tombstone) := by
    intro q hu hne
    cases hl : ov.lookup q with
    | some e =>
      rw [resolve_entry (hord q hu) ((hother q hne).trans hl), entryResolved_none_iff]
      exact ⟨fun h e' he => Option.some.inj he ▸ h, fun h => h e rfl⟩
    | none =>
      refine ⟨fun _ e he => (nomatch he), fun _ => ?_⟩
      rw [resolve_unset (hord q hu) ((hother q hne).trans hl)]
      cases bt with
      | some t =>
        rw [if_pos (Overlay.ancestorTombstoned_iff.mpr ⟨p, hp.1, hu, Ne.symm hne, by rw [hself]; rfl⟩)]
      | none =>
        obtain ⟨r, hr, hleaf⟩ := baseline_leaf hb
        rw [baselineResolve_below hp.1 hr hleaf hu hne]
        split <;> rfl
  constructor
  · intro h
    exact ⟨fun q e hu hne he => (hbelow q hu hne).mp (h q hu) e he, hat.mp (h p (Under.refl p))⟩
  · rintro ⟨hclear, hbase⟩ q hu
    by_cases hq : q = p
    · exact hq ▸ hat.mpr hbase
    · exact (hbelow q hu hq).mpr fun e he => hclear q e hu hq he

/-! What a lookup and a listing of the parent find. -/

/-- A listing of `dir` reads a baseline tree with this name. -/
def Reads (P : Projection) (ov : Overlay) (dir : RepoPath) (name : Bytes) : Prop :=
  ∃ bt entries, P.resolve ov dir = .ok (some (.dir bt)) ∧ P.treeEntries bt = .ok entries ∧
    (∀ e ∈ entries, (dir.isRoot ∧ e.name = gitfileName) ∨ ValidComponent e.name) ∧
    ∃ e ∈ entries, e.name = name

theorem exists_child (h : ValidComponent name) (dir : RepoPath) : ∃ q, Child dir name q :=
  ⟨ofComponents _ (forall_components_concat h), components_ofComponents _ _⟩

theorem run_push_ok (h : ValidComponent name) (dir : RepoPath) (kind : Kind) (w : World) :
    ∃ d v, (push dir name kind).run w = (.ok d, v) := by
  obtain ⟨q, hq⟩ := exists_child h dir
  have hj : join dir name = .ok q := join_eq_ok.mpr ⟨h, hq⟩
  rw [push, hj]
  exact ⟨_, _, rfl⟩

theorem run_listBaseline_ok {e : TreeEntry} (he : (dir.isRoot ∧ e.name = gitfileName) ∨ ValidComponent e.name)
    (w : World) : ∃ d v, (listBaseline dir e).run w = (.ok d, v) := by
  by_cases hgit : dir.isRoot = true ∧ e.name = gitfileName
  · exact ⟨none, w, by rw [listBaseline, if_pos hgit]; rfl⟩
  · have hvalid : ValidComponent e.name := he.resolve_left hgit
    obtain ⟨child, hchild⟩ := exists_child hvalid dir
    have hj : join dir e.name = .ok child := join_eq_ok.mpr ⟨hvalid, hchild⟩
    rw [listBaseline, if_neg hgit, hj]
    have hlook : (lookupEntry child).run w = (.ok (w.overlay.lookup child), w) := run_read rfl
    cases hl : w.overlay.lookup child with
    | some e' =>
      rw [hl] at hlook
      exact ⟨none, w, (run_bind_ok hlook).trans rfl⟩
    | none =>
      rw [hl] at hlook
      obtain ⟨d, v, hpush⟩ := run_push_ok hvalid dir e.mode.kind w
      exact ⟨d, v, (run_bind_ok hlook).trans hpush⟩

theorem run_listOverlay_ok {child : Bytes × OverlayEntry} (h : child ∈ P.children ov dir) (w : World) :
    ∃ d v, (listOverlay dir child).run w = (.ok d, v) := by
  obtain ⟨n, e⟩ := child
  obtain ⟨q, hq, -⟩ := mem_children.mp h
  cases e with
  | tombstone => exact ⟨none, w, rfl⟩
  | file | symlink | dir | baseRef => exact run_push_ok (valid_of_child hq) dir _ w

theorem run_readdir_ok (hdir : w.pathOf parent = .ok dir) (hr : P.resolve w.overlay dir = .ok (some (.dir bt)))
    (hes : P.treeEntries bt = .ok entries)
    (hvalid : ∀ e ∈ entries, (dir.isRoot ∧ e.name = gitfileName) ∨ ValidComponent e.name) :
    ∃ out v, (P.readdir parent).run w = (.ok out, v) := by
  obtain ⟨baseline, w₁, hbase⟩ := run_collect_ok (s := w) fun e he s => run_listBaseline_ok (hvalid e he) s
  obtain ⟨overlay, w₂, hover⟩ := run_collect_ok (s := w₁) fun (child : Bytes × OverlayEntry)
    (hc : child ∈ P.children w₁.overlay dir) s => run_listOverlay_ok hc s
  have hgit : ∃ d v, (if dir.isRoot then push dir gitfileName (.file false) else pure none :
      Handler (Option DirEntry)).run w₂ = (.ok d, v) := by
    split
    · exact run_push_ok (by decide) dir _ w₂
    · exact ⟨none, w₂, rfl⟩
  obtain ⟨git, w₃, hgit⟩ := hgit
  refine ⟨baseline ++ overlay ++ git.toList, w₃, ?_⟩
  refine (run_bind_ok (run_read (f := fun w : World => w.pathOf parent) hdir)).trans ?_
  refine (run_bind_ok (run_read (f := fun w : World => P.resolve w.overlay dir) hr)).trans ?_
  refine (run_bind_ok (run_read (f := fun _ : World => P.treeEntries bt) hes)).trans ?_
  refine (run_bind_ok hbase).trans ?_
  refine (run_bind_ok (run_read (f := fun w : World => .ok (P.children w.overlay dir)) rfl)).trans ?_
  refine (run_bind_ok hover).trans ?_
  exact (run_bind_ok hgit).trans rfl

theorem valid_of_readdir {out : List DirEntry} (h : (P.readdir parent).run w = (.ok out, t))
    (hdir : w.pathOf parent = .ok dir) (hr : P.resolve w.overlay dir = .ok (some (.dir bt)))
    (hes : P.treeEntries bt = .ok entries) :
    ∀ e ∈ entries, (dir.isRoot ∧ e.name = gitfileName) ∨ ValidComponent e.name := by
  intro e he
  have hread := (run_bind_ok (run_read (f := fun w : World => w.pathOf parent) hdir)).symm.trans h
  have hread₁ := (run_bind_ok (run_read (f := fun w : World => P.resolve w.overlay dir) hr)).symm.trans hread
  have hread₂ := (run_bind_ok (run_read (f := fun _ : World => P.treeEntries bt) hes)).symm.trans hread₁
  obtain ⟨baseline, w₁, hbase, -⟩ := run_bind_eq_ok hread₂
  obtain ⟨s, y, u, hbody⟩ := run_collect_each hbase e he
  rw [listBaseline] at hbody
  split at hbody
  · rename_i hgit
    exact .inl hgit
  · obtain ⟨child, v, hj, -⟩ := run_bind_eq_ok hbody
    exact .inr (join_eq_ok.mp (run_liftExcept_eq_ok hj).1).1

/-- Neither a listing of the parent nor a lookup finds the path, and it resolves to absent with all
that is beneath it. -/
structure Gone (P : Projection) (w : World) (parent : Nat) (name : Bytes) (p : RepoPath) : Prop where
  resolve : ∀ q, Under p q → P.resolve w.overlay q = .ok none
  lookup : ((P.lookup parent name).run w).1 = .ok none
  listing : ∀ out v, (P.readdir parent).run w = (.ok out, v) → ∀ e ∈ out, e.name ≠ name

/-- The directory that `rmdir` is to remove has no live entry of the overlay beneath it, and the baseline
has a directory in its place or nothing that shows. -/
structure Removable (P : Projection) (ov : Overlay) (dir p : RepoPath) (name : Bytes) : Prop where
  cleared : Cleared ov.lookup p
  baseline : P.baselineTreeAt p = .ok none →
    (P.baselineResolve p = .ok none ∨ ov.ancestorTombstoned p = true) ∧ ¬ P.Reads ov dir name

theorem run_lookup_absent (hdir : w.pathOf parent = .ok dir) (hp : Child dir name p)
    (hr : P.resolve w.overlay p = .ok none) : ((P.lookup parent name).run w).1 = .ok none := by
  have hj : join dir name = .ok p := join_eq_ok.mpr ⟨valid_of_child hp, hp⟩
  have hrun : (P.lookup parent name).run w = (.ok none, w) := by
    refine (run_bind_ok (run_read (f := fun w : World => w.pathOf parent) hdir)).trans ?_
    rw [hj]
    refine (run_bind_ok (run_liftExcept_ok p w)).trans ?_
    exact (run_bind_ok (run_read (f := fun w : World => P.resolve w.overlay p) hr)).trans rfl
  rw [hrun]

/-- After `rmdir` a listing of the parent has the name if and only if there is no entry left to
mask the name that it reads from the baseline. -/
theorem listed_removed (hdir : w.pathOf parent = .ok dir) (hp : Child dir name p) (hord : p.Ordinary)
    (hlive : ∀ e, w.overlay.lookup p = some e → e = .tombstone) :
    (∀ out v, (P.readdir parent).run w = (.ok out, v) → ∀ e ∈ out, e.name ≠ name) ↔
      (w.overlay.lookup p = none → ¬ P.Reads w.overlay dir name) := by
  have hgit : ¬ (dir.isRoot = true ∧ name = gitfileName) := by
    rintro ⟨hroot, rfl⟩
    refine hord.2 ?_
    rw [hp, isRoot_iff.mp hroot, components_root]
    rfl
  have hjoin : join dir name = .ok p := join_eq_ok.mpr ⟨valid_of_child hp, hp⟩
  constructor
  · rintro h hnone ⟨bt, entries, hr, hes, hvalid, e, he, hname⟩
    obtain ⟨out, v, hrun⟩ := run_readdir_ok hdir hr hes hvalid
    obtain ⟨dir', bt', entries', hdir', hr', hes', hshown⟩ := run_readdir hrun
    obtain rfl : dir = dir' := Except.ok.inj (hdir.symm.trans hdir')
    cases Except.ok.inj (hr.symm.trans hr')
    obtain rfl : entries = entries' := Except.ok.inj (hes.symm.trans hes')
    have hmem : (name, e.mode.kind) ∈ out.map DirEntry.shown := by
      rw [hshown, shown, List.mem_append, List.mem_append, List.mem_filterMap]
      refine .inl (.inl ⟨e, he, ?_⟩)
      subst hname
      rw [baselineShown, if_neg hgit, hjoin]
      simp [hnone]
    obtain ⟨d, hd, heq⟩ := List.mem_map.mp hmem
    exact h out v hrun d hd (congrArg Prod.fst heq)
  · intro h out v hrun d hd hname
    obtain ⟨dir', bt, entries, hdir', hr, hes, hshown⟩ := run_readdir hrun
    obtain rfl : dir = dir' := Except.ok.inj (hdir.symm.trans hdir')
    have hmem : (name, d.kind) ∈ out.map DirEntry.shown := List.mem_map.mpr ⟨d, hd, by rw [← hname]; rfl⟩
    rw [hshown, shown, List.mem_append, List.mem_append] at hmem
    rcases hmem with (hmem | hmem) | hmem
    · obtain ⟨e, he, hsh⟩ := List.mem_filterMap.mp hmem
      obtain ⟨hen, -, q, hq, hnone⟩ := baselineShown_name hsh
      replace hen : name = e.name := hen
      obtain rfl : q = p := (hq.unique hp).mpr hen.symm
      exact h hnone ⟨bt, entries, hr, hes, valid_of_readdir hrun hdir hr hes, e, he, hen.symm⟩
    · obtain ⟨e, he, hk⟩ := (mem_overlayShown hp).mp hmem
      rw [hlive e he] at hk
      cases hk
    · split at hmem
      · rename_i hroot
        have heq := List.mem_singleton.mp hmem
        exact hgit ⟨hroot, congrArg Prod.fst heq⟩
      · cases hmem

end Projection

/-- A directory that `rmdir` has removed is gone if and only if nothing was left beneath it and the
baseline has no file or symlink in its place. -/
theorem rmdir_removes_iff (P : Projection) {w t : World} {parent : Nat} {name : Bytes} {dir p : RepoPath}
    (hdir : w.pathOf parent = .ok dir) (hp : Child dir name p)
    (h : (P.rmdir parent name).run w = (.ok (), t)) :
    P.Gone t parent name p ↔ P.Removable w.overlay dir p name := by
  obtain ⟨hord, -, bt, hb, hov, hino⟩ := Projection.run_rmdir h ⟨dir, hdir, hp⟩
  have hns : t.overlay.lookup =
      Function.update w.overlay.lookup p (if bt.isSome then some .tombstone else none) := by
    show t.overlay.index.entries = _
    rw [hov, Overlay.step_entries]
    cases bt <;> rfl
  have hdir' := pathOf_unlinked hdir hp.ne.symm hino
  have hother : ∀ q, q ≠ p → t.overlay.lookup q = w.overlay.lookup q := fun q hq => by
    rw [hns, Function.update_of_ne hq]
  have hself : t.overlay.lookup p = if bt.isSome then some .tombstone else none := by
    rw [hns, Function.update_self]
  have habove : P.resolve t.overlay dir = P.resolve w.overlay dir :=
    Projection.resolve_congr fun q hu => hother q fun heq => not_under_parent hp (heq ▸ hu)
  have hreads : P.Reads t.overlay dir name ↔ P.Reads w.overlay dir name := by
    rw [Projection.Reads, habove, Projection.Reads]
  have hresolve := Projection.resolve_removed hord hb hns
  have hlisting := Projection.listed_removed (P := P) hdir' hp hord fun e he => by
    rw [hself] at he
    split at he <;> cases he
    rfl
  have hmasked : t.overlay.lookup p = none ↔ bt = none := by
    rw [hself]
    cases bt <;> simp
  rw [hmasked, hreads] at hlisting
  have hbt : P.baselineTreeAt p = .ok none ↔ bt = none := by
    rw [hb]
    exact ⟨Except.ok.inj, congrArg _⟩
  constructor
  · intro hg
    obtain ⟨hclear, hbase⟩ := hresolve.mp hg.resolve
    exact ⟨hclear, fun hn => ⟨hbase (hbt.mp hn), hlisting.mp hg.listing (hbt.mp hn)⟩⟩
  · intro hr
    have hgone := hresolve.mpr ⟨hr.cleared, fun hn => (hr.baseline (hbt.mpr hn)).1⟩
    exact ⟨hgone, Projection.run_lookup_absent hdir' hp (hgone p (Under.refl p)),
      hlisting.mpr fun hn => (hr.baseline (hbt.mpr hn)).2⟩

/-- The new directory `e` is removed. -/
theorem rmdir_removes_iff_new :
    let w := ((smallProjection.mkdir rootIno [101]).run (World.fresh 7 none)).2
    let t := ((smallProjection.rmdir rootIno [101]).run w).2
    smallProjection.Gone t rootIno [101] (letter 101) ↔
      smallProjection.Removable w.overlay root (letter 101) [101] :=
  rmdir_removes_iff smallProjection rfl rfl (Prod.ext (show _ = Outcome.ok () by decide +kernel) rfl)

/-- `unlink a`, `mkdir a`: the file `a` of the baseline has become a directory. -/
noncomputable def replaced (n : Nat) : World :=
  ([Op.unlink 1 [97], .mkdir 1 [97]].take n).foldl
    (fun w op => ((op.handler smallProjection 1).run w).2) (World.fresh 7 none)

theorem replaced_run : Trace (LegalStep smallProjection) (World.fresh 7 none)
    [.unlink 1 [97], .mkdir 1 [97]] (replaced 2) := by
  have hpath : ∀ n, (replaced n).pathOf rootIno = .ok root := fun _ => rfl
  have hroot : ∀ n, (replaced n).Walked smallProjection rootIno ∧ (replaced n).HasDir smallProjection rootIno :=
    fun n => ⟨⟨root, rfl, open_root _ _⟩, root, _, rfl, rfl⟩
  have hunlink : smallProjection.Step (replaced 0) (.unlink 1 [97]) (replaced 1) :=
    ⟨1, .ok .unit, Prod.ext (by decide +kernel) rfl, by simp⟩
  have hmkdir : smallProjection.Step (replaced 1) (.mkdir 1 [97]) (replaced 2) :=
    ⟨1, _, Prod.ext rfl rfl, by decide +kernel⟩
  refine .cons ⟨⟨(hroot 0).2, fun path hn => ?_⟩, (hroot 0).1, hunlink⟩
    (.cons ⟨(hroot 1).2, (hroot 1).1, hmkdir⟩ (.nil _))
  obtain rfl := names_eq (p := letter 97) (hpath 0) rfl hn
  exact ⟨_, rfl, rfl⟩

/-- Then `rmdir a` returns, and the file of the baseline is back. -/
theorem rmdir_uncovers_file :
    let t := ((smallProjection.rmdir rootIno [97]).run (replaced 2)).2
    Trace (LegalStep smallProjection) (World.fresh 7 none) [.unlink 1 [97], .mkdir 1 [97]] (replaced 2) ∧
      (Op.rmdir rootIno [97]).Legal smallProjection (replaced 2) ∧
      ((smallProjection.rmdir rootIno [97]).run (replaced 2)).1 = .ok () ∧
      smallProjection.resolve t.overlay (letter 97) = .ok (some (.file (.baseline ⟨[3]⟩) false)) ∧
      ¬ smallProjection.Gone t rootIno [97] (letter 97) := by
  have hback : smallProjection.resolve ((smallProjection.rmdir rootIno [97]).run (replaced 2)).2.overlay
      (letter 97) = .ok (some (.file (.baseline ⟨[3]⟩) false)) := by decide +kernel
  have hpath : (replaced 2).pathOf rootIno = .ok root := rfl
  refine ⟨replaced_run, ⟨⟨root, _, rfl, rfl⟩, fun path hn => ?_⟩, by decide +kernel, hback, fun hg => ?_⟩
  · obtain rfl := names_eq (p := letter 97) hpath rfl hn
    exact ⟨none, by decide +kernel⟩
  · have habsent := hg.resolve (letter 97) (Under.refl _)
    rw [hback] at habsent
    cases habsent

end LazyMount
