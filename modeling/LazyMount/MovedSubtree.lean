import LazyMount.MovedDirectory

/-! A directory rename moves its subtree, if nothing of the source is left for the baseline or the
overlay to show, and nothing of the destination shows in its place. -/

namespace LazyMount

open Function (update)
open RepoPath Prog Handler Transition

namespace Projection

variable {P : Projection} {ov ov' ov₁ : Overlay} {p q q' src dst : RepoPath} {r r' : Resolved}
  {e : OverlayEntry} {parent newparent fuel : Nat} {name newname : Bytes} {flags : UInt32}

/-- The same kind, mode and content source. -/
inductive Alike (ov ov' : Overlay) : Resolved → Resolved → Prop
  | dir (bt bt' : Option ObjectId) : Alike ov ov' (.dir bt) (.dir bt')
  | gitfile : Alike ov ov' .gitfile .gitfile
  | content {p p' : RepoPath} {c : ContentId} {y y' : Bool} (h : ov.lookup p = some (.file c y))
    (h' : ov'.lookup p' = some (.file c y')) (x : Bool) :
    Alike ov ov' (.file (.overlay p) x) (.file (.overlay p') x)
  | blob (oid : ObjectId) (x : Bool) : Alike ov ov' (.file (.baseline oid) x) (.file (.baseline oid) x)
  | symlink (source : SymSource) : Alike ov ov' (.symlink source) (.symlink source)

/-- The subtree of `src` is at `dst`, nothing is left of it, and all else is as it was. -/
structure MovesExactly (P : Projection) (ov ov' : Overlay) (src dst : RepoPath) : Prop where
  arrives : ∀ q q' r, Twin src dst q q' → P.resolve ov q = .ok r →
    ∃ r', P.resolve ov' q' = .ok r' ∧ Option.Rel (Alike ov ov') r r'
  departs : ∀ q, Under src q → P.resolve ov' q = .ok none
  elsewhere : ∀ q, ¬ Under src q → ¬ Under dst q → P.resolve ov' q = P.resolve ov q

/-- A tombstone above `q'` that the rename leaves where it is. -/
def StaysMasked (P : Projection) (ov : Overlay) (src dst q' : RepoPath) : Prop :=
  ov.ancestorTombstoned dst = true ∨ ∃ m m', Twin src dst m m' ∧ ¬ Taken (P.resolve ov) src m ∧
    Under m' q' ∧ m' ≠ q' ∧ ov.lookup m' = some .tombstone

/-- What the destination has of its own at `q'`, with nothing moved there. -/
inductive Rests (P : Projection) (ov : Overlay) (src dst q' : RepoPath) :
    Except Error (Option Resolved) → Prop
  | entry {e : OverlayEntry} (h : ov.lookup q' = some e) : Rests P ov src dst q' (P.entryResolved q' e)
  | masked (h : ov.lookup q' = none) (hm : P.StaysMasked ov src dst q') : Rests P ov src dst q' (.ok none)
  | baseline (h : ov.lookup q' = none) (hm : ¬ P.StaysMasked ov src dst q') :
    Rests P ov src dst q' (P.baselineResolve q')

/-- Every live entry beneath the source stands under visible directories and is no reference into the
baseline; the baseline can be read where the directories go; and where nothing goes, the destination
has what the source has, which is nothing unless a file of the overlay covers a baseline directory. -/
structure Relocatable (P : Projection) (ov : Overlay) (src dst : RepoPath) : Prop where
  emptied : ∀ q e, Under src q → q ≠ src → ov.lookup q = some e → e ≠ .tombstone →
    Reached (P.resolve ov) src q ∧ ∀ oid mode, e ≠ .baseRef oid mode
  readable : ∀ q q' bt, Twin src dst q q' → Reached (P.resolve ov) src q →
    P.resolve ov q = .ok (some (.dir bt)) → ∃ bt', P.baselineTreeAt q' = .ok bt'
  vacant : ∀ q q' r, Twin src dst q q' → ¬ Taken (P.resolve ov) src q → P.resolve ov q = .ok r →
    ∃ r', P.Rests ov src dst q' (.ok r') ∧ Option.Rel (Alike ov ov) r r'

/-! What a path resolves to afterwards. -/

theorem ordinary_under (hp : p.Ordinary) (hu : Under p q) : q.Ordinary := by
  by_cases hq : q = p
  · exact hq ▸ hp
  · exact below_induction (motive := fun q => q.Ordinary) (fun n q hq => hq.ordinary hp.1)
      (fun q n r _ _ hq hr => hr.ordinary hq.1) hu hq

/-- Beneath a tombstone only live entries show. -/
theorem resolve_beneath (hp : p.Ordinary) (ht : ov.lookup p = some .tombstone) (hu : Under p q) :
    P.resolve ov q = .ok none ↔ ∀ e, ov.lookup q = some e → e = .tombstone := by
  have hord := ordinary_under hp hu
  cases hl : ov.lookup q with
  | some e =>
    rw [resolve_entry hord hl, entryResolved_none_iff]
    exact ⟨fun h e' he => Option.some.inj he ▸ h, fun h => h e rfl⟩
  | none =>
    have hne : p ≠ q := by
      intro heq
      rw [heq, hl] at ht
      cases ht
    refine ⟨fun _ e he => (nomatch he), fun _ => ?_⟩
    rw [resolve_unset hord hl, if_pos (Overlay.ancestorTombstoned_iff.mpr ⟨p, hp.1, hu, hne, ht⟩)]

theorem Alike.of_tree (h : Alike ov ov' r r') (hr : GitStore.OfTree r) : Alike ov ov₁ r r' := by
  cases h with
  | dir bt bt' => exact .dir bt bt'
  | gitfile => exact .gitfile
  | content => exact hr.elim
  | blob oid x => exact .blob oid x
  | symlink source => exact .symlink source

theorem ofTree_of_unset (hp : p.Ordinary) (h : P.resolve ov p = .ok (some r))
    (he : ∀ e, ov.lookup p = some e → e = .tombstone) : GitStore.OfTree r := by
  by_contra hr
  obtain ⟨e, hl, -⟩ := exists_entry hp h hr
  rw [he e hl] at hl
  rw [resolve_entry hp hl] at h
  cases h

section Afterwards

variable (h : Shipped P (P.resolve ov) ov.index.entries src dst ov'.index.entries)
  (ho : Elsewhere ov.index.entries src dst ov'.index.entries)
  (hs : Ships ov ov.index.entries src dst)

include h

/-- Where a path is taken its twin resolves to the same, once the baseline can be read there. -/
theorem arrives_taken (hdst : dst.Ordinary) (hq : Twin src dst q q') (hr : Reached (P.resolve ov) src q)
    (hv : P.resolve ov q = .ok (some r)) :
    (∃ r', P.resolve ov' q' = .ok r' ∧ Option.Rel (Alike ov ov') (some r) r') ↔
      (r.isDir = true → ∃ bt', P.baselineTreeAt q' = .ok bt') := by
  have hord := ordinary_under hdst hq.under.2
  cases h.taken q q' r hq hr hv with
  | dir bt hsrc hland =>
    rw [resolve_entry hord hland, entryResolved]
    cases hb : P.baselineTreeAt q' with
    | ok bt' => exact ⟨fun _ _ => ⟨bt', rfl⟩, fun _ => ⟨_, rfl, .some (.dir bt bt')⟩⟩
    | error err =>
      refine ⟨fun hh => ?_, fun hh => ?_⟩
      · obtain ⟨r', hr', -⟩ := hh
        cases hr'
      · obtain ⟨bt', hbt'⟩ := hh rfl
        cases hbt'
  | entry he hres hl hsrc hland =>
    rename_i e
    rw [resolve_entry hord hland]
    have hnodir : r.isDir = true → ∃ bt', P.baselineTreeAt q' = .ok bt' := by
      intro hdir
      rcases entryResolved_dir hres with ⟨heq, -⟩ | ⟨-, hleaf⟩
      · exact (he.1 heq).elim
      · obtain ⟨bt, rfl⟩ := Resolved.eq_dir hdir
        exact hleaf.elim
    refine ⟨fun _ => hnodir, fun _ => ?_⟩
    cases e with
    | file c y =>
      cases hres
      exact ⟨_, rfl, .some (.content hl hland y)⟩
    | symlink target =>
      cases hres
      exact ⟨_, rfl, .some (.symlink _)⟩
    | dir => exact (he.1 rfl).elim
    | tombstone => cases hres
    | baseRef oid mode => exact (he.2 oid mode rfl).elim
  | ref hmode hsrc hland =>
    rename_i oid mode
    subst hmode
    rw [resolve_entry hord hland]
    refine ⟨fun _ hdir => ?_, fun _ => ⟨_, rfl, .some ?_⟩⟩
    · cases mode <;> cases hdir
    · cases mode <;> first | exact .blob _ _ | exact .symlink _

theorem taken_of_live (hsrc : src.Ordinary) (hu : Under src q) (hr : Reached (P.resolve ov) src q)
    (hl : ov.lookup q = some e) (he : e ≠ .tombstone) : Taken (P.resolve ov) src q := by
  obtain ⟨r, hv⟩ := h.answers q hu hr
  refine ⟨hr, ?_⟩
  cases r with
  | some r => exact ⟨r, hv⟩
  | none =>
    rw [resolve_entry (ordinary_under hsrc hu) hl] at hv
    exact (he (entryResolved_none_iff.mp hv)).elim

theorem departed_iff (hsrc : src.Ordinary) (hu : Under src q) :
    (∀ e, ov'.lookup q = some e → e = .tombstone) ↔ ∀ e, ov.lookup q = some e → e ≠ .tombstone →
      Reached (P.resolve ov) src q ∧ ∀ oid mode, e ≠ .baseRef oid mode := by
  obtain ⟨q', hq⟩ := exists_twin hu dst
  by_cases ht : Taken (P.resolve ov) src q
  · obtain ⟨hr, r, hv⟩ := ht
    cases h.taken q q' r hq hr hv with
    | dir bt hgone hland =>
      refine ⟨fun _ e hl he => ⟨hr, fun oid mode heq => ?_⟩, fun _ e hl => ?_⟩
      · subst heq
        rw [resolve_entry (ordinary_under hsrc hu) hl] at hv
        cases mode <;> cases hv
      · exact (Option.some.inj (hgone.symm.trans hl)).symm
    | entry he hres hl hgone hland =>
      refine ⟨fun _ e' hl' _ => ⟨hr, ?_⟩, fun _ e' hl' => ?_⟩
      · obtain rfl := Option.some.inj (hl.symm.trans hl')
        exact he.2
      · cases hgone.symm.trans hl'
    | ref hmode hgone hland =>
      rename_i oid mode
      subst hmode
      have hsame : ov'.lookup q = ov.lookup q := hgone
      rw [hsame]
      refine ⟨fun hh e hl he => (he (hh e hl)).elim, fun hh e hl => ?_⟩
      by_contra he
      obtain ⟨-, hkept⟩ := hh e hl he
      rw [resolve_entry (ordinary_under hsrc hu) hl] at hv
      cases e with
      | tombstone => exact he rfl
      | baseRef oid' mode' => exact hkept oid' mode' rfl
      | file | symlink => cases mode <;> cases hv
      | dir =>
        obtain ⟨bt, hbt, -⟩ := dir_of_entryResolved hv
        cases mode <;> cases hbt
  · have hsame : ov'.lookup q = ov.lookup q := (h.left q q' hq ht).1
    rw [hsame]
    refine ⟨fun hh e hl he => (he (hh e hl)).elim, fun hh e hl => ?_⟩
    by_contra he
    exact ht (taken_of_live h hsrc hu (hh e hl he).1 hl he)

include ho hs

theorem masked_iff (hsrc : ∃ r, P.resolve ov src = .ok (some r)) (hdst : ov'.lookup dst = some .dir)
    (hu : Under dst q') : ov'.ancestorTombstoned q' = true ↔ P.StaysMasked ov src dst q' := by
  rw [Overlay.ancestorTombstoned_iff, StaysMasked, Overlay.ancestorTombstoned_iff]
  constructor
  · rintro ⟨m, hroot, hm, hne, ht⟩
    rcases under_or_under hm hu with habove | hbelow
    · have hmd : m ≠ dst := by
        intro heq
        rw [heq, hdst] at ht
        cases ht
      have hsame : ov'.lookup m = ov.lookup m := by
        exact ho m (fun hsm => hs.src_dst (hsm.trans habove)) fun hdm => hmd (habove.antisymm hdm)
      exact .inl ⟨m, hroot, habove, hmd, hsame ▸ ht⟩
    · obtain ⟨n, hn⟩ := exists_twin hbelow src
      have hn := hn.symm
      have hfree : ¬ Taken (P.resolve ov) src n := by
        rintro ⟨hr, r, hv⟩
        cases h.taken n m r hn hr hv with
        | dir bt hgone hland => cases hland.symm.trans ht
        | entry he hres hl hgone hland =>
          obtain rfl := Option.some.inj (hland.symm.trans ht)
          cases hres
        | ref hmode hgone hland => cases hland.symm.trans ht
      have hsame : ov'.lookup m = ov.lookup m := (h.left n m hn hfree).2
      exact .inr ⟨n, m, hn, hfree, hm, hne, hsame ▸ ht⟩
  · rintro (⟨m, hroot, hm, hne, ht⟩ | ⟨n, m, hn, hfree, hm, hne, ht⟩)
    · have hsame : ov'.lookup m = ov.lookup m := by
        exact ho m (fun hsm => hs.src_dst (hsm.trans hm)) fun hdm => hne (hm.antisymm hdm)
      have hmq : m ≠ q' := by
        intro heq
        subst heq
        exact hne (hm.antisymm hu)
      exact ⟨m, hroot, hm.trans hu, hmq, hsame.trans ht⟩
    · have hsame : ov'.lookup m = ov.lookup m := (h.left n m hn hfree).2
      have hmd : m ≠ dst := by
        intro heq
        obtain rfl := hn.eq_src heq
        exact hfree ⟨reached_self, hsrc⟩
      exact ⟨m, (ordinary_under hs.dst_ordinary hn.under.2).1, hm, hne, hsame.trans ht⟩

theorem rests_after (hsrc : ∃ r, P.resolve ov src = .ok (some r)) (hdst : ov'.lookup dst = some .dir)
    (hq : Twin src dst q q') (hfree : ¬ Taken (P.resolve ov) src q) :
    P.Rests ov src dst q' (P.resolve ov' q') := by
  have hord := ordinary_under hs.dst_ordinary hq.under.2
  have hsame : ov'.lookup q' = ov.lookup q' := (h.left q q' hq hfree).2
  have hmask := masked_iff h ho hs hsrc hdst hq.under.2
  cases hl : ov.lookup q' with
  | some e =>
    rw [resolve_entry hord (hsame.trans hl)]
    exact .entry hl
  | none =>
    rw [resolve_unset hord (hsame.trans hl)]
    split
    · rename_i hm
      exact .masked hl (hmask.mp hm)
    · rename_i hm
      exact .baseline hl (mt hmask.mpr hm)

end Afterwards

theorem Rests.unique {a b : Except Error (Option Resolved)} (h : P.Rests ov src dst q' a)
    (h' : P.Rests ov src dst q' b) : a = b := by
  cases h with
  | entry hl =>
    cases h' with
    | entry hl' => rw [Option.some.inj (hl.symm.trans hl')]
    | masked hl' | baseline hl' => cases hl.symm.trans hl'
  | masked hl hm =>
    cases h' with
    | entry hl' => cases hl.symm.trans hl'
    | masked => rfl
    | baseline _ hm' => exact (hm' hm).elim
  | baseline hl hm =>
    cases h' with
    | entry hl' => cases hl.symm.trans hl'
    | masked _ hm' => exact (hm hm').elim
    | baseline => rfl

theorem Lands.of_dir {ns ns' : Namespace} {bt : Option ObjectId} (h : Lands P ns ns' q q' (.dir bt)) :
    ns' q = some .tombstone ∧ ns' q' = some .dir := by
  generalize hr : Resolved.dir bt = r at h
  cases h with
  | dir bt' hgone hland => exact ⟨hgone, hland⟩
  | entry he hres hl hgone hland =>
    subst hr
    rcases entryResolved_dir hres with ⟨heq, -⟩ | ⟨-, hleaf⟩
    · exact (he.1 heq).elim
    · exact hleaf.elim
  | ref hmode hgone hland =>
    rename_i oid mode
    cases mode <;> cases hmode.trans hr.symm

theorem run_renameDir_shipped {v t : World} {bt : Option ObjectId}
    (h : (P.renameDir fuel src dst).run v = (.ok (), t)) (hs : Ships v.overlay v.ns src dst)
    (hsrc : P.resolve v.overlay src = .ok (some (.dir bt))) :
    Shipped P (P.resolve v.overlay) v.ns src dst t.ns ∧ Elsewhere v.ns src dst t.ns := by
  have hh := moves fuel src dst v.ns bt hs hsrc v rfl
  rw [h] at hh
  exact hh

section Whole

variable {bt : Option ObjectId} (h : Shipped P (P.resolve ov) ov.index.entries src dst ov'.index.entries)
  (ho : Elsewhere ov.index.entries src dst ov'.index.entries)
  (hs : Ships ov ov.index.entries src dst) (hsrc : P.resolve ov src = .ok (some (.dir bt)))

include h hs hsrc

theorem departs_iff (hu : Under src q) : P.resolve ov' q = .ok none ↔
    ∀ e, ov.lookup q = some e → e ≠ .tombstone →
      Reached (P.resolve ov) src q ∧ ∀ oid mode, e ≠ .baseRef oid mode := by
  have htomb := (h.taken src dst _ Twin.self reached_self hsrc).of_dir.1
  exact (resolve_beneath hs.src_ordinary htomb hu).trans (departed_iff h hs.src_ordinary hu)

/-- What is not taken and leaves nothing behind is the baseline's, if it resolves at all. -/
theorem ofTree_of_free (hu : Under src q) (hgone : P.resolve ov' q = .ok none)
    (hfree : ¬ Taken (P.resolve ov) src q) (hv : P.resolve ov q = .ok (some r)) : GitStore.OfTree r := by
  refine ofTree_of_unset (ordinary_under hs.src_ordinary hu) hv fun e hl => ?_
  by_contra he
  obtain ⟨hr, -⟩ := (departs_iff h hs hsrc hu).mp hgone e hl he
  exact hfree (taken_of_live h hs.src_ordinary hu hr hl he)

include ho

theorem relocatable_of_moves (hm : P.MovesExactly ov ov' src dst) : P.Relocatable ov src dst := by
  refine ⟨fun q e hu _ => (departs_iff h hs hsrc hu).mp (hm.departs q hu) e, fun q q' qt hq hr hv => ?_,
    fun q q' r hq hfree hv => ?_⟩
  · exact (arrives_taken h hs.dst_ordinary hq hr hv).mp (hm.arrives q q' _ hq hv) rfl
  · obtain ⟨r', hr', hrel⟩ := hm.arrives q q' r hq hv
    have hmade := (h.taken src dst _ Twin.self reached_self hsrc).of_dir.2
    have hrest := rests_after h ho hs ⟨_, hsrc⟩ hmade hq hfree
    rw [hr'] at hrest
    refine ⟨r', hrest, ?_⟩
    cases hrel with
    | none => exact .none
    | some halike =>
      have htree := ofTree_of_free h hs hsrc hq.under.1 (hm.departs q hq.under.1) hfree hv
      exact .some (halike.of_tree htree)

theorem moves_of_relocatable (hc : P.Relocatable ov src dst) : P.MovesExactly ov ov' src dst := by
  have hgone : ∀ q, Under src q → P.resolve ov' q = .ok none := by
    intro q hu
    refine (departs_iff h hs hsrc hu).mpr fun e hl he => ?_
    by_cases heq : q = src
    · subst heq
      refine ⟨reached_self, fun oid mode hbase => ?_⟩
      subst hbase
      rw [resolve_entry hs.src_ordinary hl] at hsrc
      cases mode <;> cases hsrc
    · exact hc.emptied q e hu heq hl he
  refine ⟨fun q q' r hq hv => ?_, hgone, fun q hqs hqd => ?_⟩
  · by_cases ht : Taken (P.resolve ov) src q
    · obtain ⟨hr, x, hx⟩ := ht
      obtain rfl : some x = r := Except.ok.inj (hx.symm.trans hv)
      refine (arrives_taken h hs.dst_ordinary hq hr hv).mpr fun hdir => ?_
      obtain ⟨xt, rfl⟩ := Resolved.eq_dir hdir
      exact hc.readable q q' xt hq hr hv
    · obtain ⟨r', hrest', hrel⟩ := hc.vacant q q' r hq ht hv
      have hmade := (h.taken src dst _ Twin.self reached_self hsrc).of_dir.2
      have hrest := rests_after h ho hs ⟨_, hsrc⟩ hmade hq ht
      refine ⟨r', hrest.unique hrest', ?_⟩
      cases hrel with
      | none => exact .none
      | some halike =>
        have htree := ofTree_of_free h hs hsrc hq.under.1 (hgone q hq.under.1) ht hv
        exact .some (halike.of_tree htree)
  · refine resolve_congr fun m hm => ho m (fun hu => ?_) fun hu => ?_
    · exact hqs (hu.trans hm)
    · exact hqd (hu.trans hm)

end Whole

end Projection

/-- A directory rename that returns has moved exactly its subtree if and only if nothing of the source
is left to show, the baseline can be read at the destination, and nothing there shows in between. -/
theorem directory_rename_moves_iff (P : Projection) {w t : World} {parent newparent fuel : Nat}
    {name newname : Bytes} {flags : UInt32} {src dst : RepoPath} {bt : Option ObjectId}
    (hl : (Op.rename parent name newparent newname flags).Legal P w) (hn : w.Names parent name src)
    (hn' : w.Names newparent newname dst) (hsrc : P.resolve w.overlay src = .ok (some (.dir bt)))
    (h : (P.rename fuel parent name newparent newname flags).run w = (.ok (), t)) :
    P.MovesExactly w.overlay t.overlay src dst ↔ P.Relocatable w.overlay src dst := by
  obtain ⟨hsd, hds, -⟩ := hl.2.2 src dst hn hn'
  obtain ⟨hords, hordd, v, ⟨hov, -⟩, ⟨-, hrun⟩ | ⟨hdir, -⟩⟩ := Projection.run_rename_begun h hn hn'
  · rw [← hov] at hsrc ⊢
    have hs : Projection.Ships v.overlay v.ns src dst := ⟨hords, hordd, hsd, hds, fun _ _ _ _ => rfl⟩
    obtain ⟨hshipped, helse⟩ := Projection.run_renameDir_shipped hrun hs hsrc
    exact ⟨Projection.relocatable_of_moves hshipped helse hs hsrc,
      Projection.moves_of_relocatable hshipped helse hs hsrc⟩
  · exact (hdir bt hsrc).elim

/-- The directory `d` is renamed to `e`. -/
theorem directory_rename_moves_iff_fresh :
    let w := World.fresh 7 none
    let t := ((smallProjection.rename 3 rootIno [100] rootIno [101] 0).run w).2
    smallProjection.MovesExactly w.overlay t.overlay (letter 100) (letter 101) ↔
      smallProjection.Relocatable w.overlay (letter 100) (letter 101) := by
  have hpath : (World.fresh 7 none).pathOf rootIno = .ok root := rfl
  have hroot : (World.fresh 7 none).HasDir smallProjection rootIno := ⟨root, _, rfl, rfl⟩
  have hsrc : smallProjection.resolve (World.fresh 7 none).overlay (letter 100) =
      .ok (some (.dir (some ⟨[2]⟩))) := by decide +kernel
  have hok : ((smallProjection.rename 3 rootIno [100] rootIno [101] 0).run (World.fresh 7 none)).1 = .ok () := by
    decide +kernel
  refine directory_rename_moves_iff smallProjection ⟨hroot, hroot, fun src dst hn hn' => ?_⟩
    ⟨root, rfl, rfl⟩ ⟨root, rfl, rfl⟩ hsrc (Prod.ext hok rfl)
  obtain rfl := names_eq (p := letter 100) hpath rfl hn
  obtain rfl := names_eq (p := letter 101) hpath rfl hn'
  exact ⟨by decide, by decide, .dir (some ⟨[2]⟩), none, by decide +kernel, by decide +kernel, by simp⟩

/-- `rename d e`, `mkdir x`: the name `d` is free, and a tombstone masks what the baseline has there. -/
noncomputable def vacated (n : Nat) : World :=
  ([Op.rename 1 [100] 1 [101] 0, .mkdir 1 [120]].take n).foldl
    (fun w op => ((op.handler smallProjection 3).run w).2) (World.fresh 7 none)

theorem vacated_run : Trace (LegalStep smallProjection) (World.fresh 7 none)
    [.rename 1 [100] 1 [101] 0, .mkdir 1 [120]] (vacated 2) := by
  have hpath : ∀ n, (vacated n).pathOf rootIno = .ok root := fun _ => rfl
  have hroot : ∀ n, (vacated n).Walked smallProjection rootIno ∧ (vacated n).HasDir smallProjection rootIno :=
    fun n => ⟨⟨root, rfl, open_root _ _⟩, root, _, rfl, rfl⟩
  have hrename : smallProjection.Step (vacated 0) (.rename 1 [100] 1 [101] 0) (vacated 1) :=
    ⟨3, .ok .unit, Prod.ext (by decide +kernel) rfl, by simp⟩
  have hmkdir : smallProjection.Step (vacated 1) (.mkdir 1 [120]) (vacated 2) :=
    ⟨3, _, Prod.ext rfl rfl, by decide +kernel⟩
  refine .cons ⟨⟨(hroot 0).2, (hroot 0).2, fun src dst hn hn' => ?_⟩, ⟨(hroot 0).1, (hroot 0).1⟩, hrename⟩
    (.cons ⟨(hroot 1).2, (hroot 1).1, hmkdir⟩ (.nil _))
  obtain rfl := names_eq (p := letter 100) (hpath 0) rfl hn
  obtain rfl := names_eq (p := letter 101) (hpath 0) rfl hn'
  exact ⟨by decide, by decide, .dir (some ⟨[2]⟩), none, by decide +kernel, by decide +kernel, by simp⟩

/-- Then `rename x d` returns, and the empty directory that was `x` has the file `f` of the baseline. -/
theorem renamed_directory_gains_file :
    let op : Op := .rename rootIno [120] rootIno [100] 0
    let w := vacated 2
    let t := ((smallProjection.rename 3 rootIno [120] rootIno [100] 0).run w).2
    Trace (LegalStep smallProjection) (World.fresh 7 none)
        [.rename 1 [100] 1 [101] 0, .mkdir 1 [120]] w ∧
      op.Legal smallProjection w ∧ smallProjection.resolve w.overlay (letter 100) = .ok none ∧
      ((smallProjection.rename 3 rootIno [120] rootIno [100] 0).run w).1 = .ok () ∧
      ¬ smallProjection.MovesExactly w.overlay t.overlay (letter 120) (letter 100) := by
  have hroot : (vacated 2).HasDir smallProjection rootIno := ⟨root, _, rfl, rfl⟩
  have hpath : (vacated 2).pathOf rootIno = .ok root := rfl
  have hbefore : smallProjection.resolve (vacated 2).overlay (ofComponents [[120], [102]] (by decide)) =
      .ok none := by decide +kernel
  have hafter : smallProjection.resolve
      ((smallProjection.rename 3 rootIno [120] rootIno [100] 0).run (vacated 2)).2.overlay
      (ofComponents [[100], [102]] (by decide)) = .ok (some (.file (.baseline ⟨[3]⟩) false)) := by
    decide +kernel
  refine ⟨vacated_run, ⟨hroot, hroot, fun src dst hn hn' => ?_⟩, by decide +kernel, by decide +kernel,
    fun hm => ?_⟩
  · obtain rfl := names_eq (p := letter 120) hpath rfl hn
    obtain rfl := names_eq (p := letter 100) hpath rfl hn'
    exact ⟨by decide, by decide, .dir none, none, by decide +kernel, by decide +kernel, by simp⟩
  · obtain ⟨r', hr', hrel⟩ := hm.arrives (ofComponents [[120], [102]] (by decide))
      (ofComponents [[100], [102]] (by decide)) none
      ⟨[[102]], by decide +kernel, by decide +kernel⟩ hbefore
    rw [hafter] at hr'
    cases hr'
    cases hrel

end LazyMount
