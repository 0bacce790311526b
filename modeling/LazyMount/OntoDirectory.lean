import LazyMount.MovedSubtree

/-! A directory that is renamed onto a directory. Nothing looks whether the destination is empty: the
call fails and changes nothing only where it is refused by its flags, or where a read fails before
anything has moved. -/

namespace LazyMount

open Function (update)
open RepoPath Prog Handler Transition

namespace Projection

variable {P : Projection} {ov ov' : Overlay} {w t u : World} {p q src dst cs cd : RepoPath}
  {e : OverlayEntry} {kids : List (Bytes × Resolved)} {fuel : Nat}

/-- An entry that shows what is there already. -/
def Idle (P : Projection) (ov : Overlay) (p : RepoPath) (e : OverlayEntry) : Prop :=
  P.resolve ov p = P.entryResolved p e

/-- The children that are only referred to, each by a base-ref to the blob that is there already. -/
inductive Copies (P : Projection) (src dst : RepoPath) :
    List (Bytes × Resolved) → Overlay → Overlay → Prop
  | nil (ov : Overlay) : Copies P src dst [] ov ov
  | cons {kid : Bytes × Resolved} {kids : List (Bytes × Resolved)} {cs cd : RepoPath} {oid : ObjectId}
    {mode : GitMode} {ov ov' : Overlay} (hcs : Child src kid.1 cs) (hcd : Child dst kid.1 cd)
    (hop : moveChild cs cd kid.2 = some (.putBaseRef cd oid mode)) (hi : P.Idle ov cd (.baseRef oid mode))
    (h : Copies P src dst kids (ov.step (.putBaseRef cd oid mode)) ov') :
    Copies P src dst (kid :: kids) ov ov'

/-- A read fails, at some depth, behind nothing but entries that show what is there already. -/
inductive Refuses (P : Projection) : Overlay → RepoPath → RepoPath → Prop
  | unreadable {ov : Overlay} {src dst : RepoPath} {err : Error} (hi : P.Idle ov dst .dir)
    (h : P.effectiveChildren (ov.step (.putDir dst)) src = .error err) : Refuses P ov src dst
  | beneath {ov ov' : Overlay} {src dst cs cd : RepoPath} {pre post : List (Bytes × Resolved)}
    {kid : Bytes × Resolved} (hi : P.Idle ov dst .dir)
    (hk : P.effectiveChildren (ov.step (.putDir dst)) src = .ok (pre ++ kid :: post))
    (hpre : P.Copies src dst pre (ov.step (.putDir dst)) ov') (hcs : Child src kid.1 cs)
    (hcd : Child dst kid.1 cd) (hdir : kid.2.isDir = true) (h : Refuses P ov' cs cd) :
    Refuses P ov src dst

/-- Every path resolves and is seen as before. -/
structure Unmoved (P : Projection) (ov ov' : Overlay) : Prop where
  resolve : ∀ q, P.resolve ov' q = P.resolve ov q
  visible : ∀ q, P.visible ov' q = P.visible ov q

theorem Unmoved.refl (ov : Overlay) : P.Unmoved ov ov := ⟨fun _ => rfl, fun _ => rfl⟩

theorem Unmoved.trans {ov₁ : Overlay} (h : P.Unmoved ov ov₁) (h' : P.Unmoved ov₁ ov') :
    P.Unmoved ov ov' :=
  ⟨fun q => (h'.resolve q).trans (h.resolve q), fun q => (h'.visible q).trans (h.visible q)⟩

/-- A put that shows what is there leaves every path as it was. -/
theorem unmoved_put (hp : p.Ordinary) (hi : P.Idle ov p e) (he : e ≠ .tombstone)
    (hfile : ∀ c x, e ≠ .file c x) (hns : ov'.lookup = update ov.lookup p (some e))
    (hdisk : ov'.disk.content = ov.disk.content) : P.Unmoved ov ov' := by
  have hother : ∀ q, q ≠ p → ov'.lookup q = ov.lookup q := fun q hq => by
    rw [hns, Function.update_of_ne hq]
  have hself : ov'.lookup p = some e := by rw [hns, Function.update_self]
  have hlive : ov.lookup p ≠ some .tombstone := by
    intro ht
    rw [Idle, resolve_entry hp ht] at hi
    exact he (entryResolved_none_iff.mp hi.symm)
  -- the tombstones are where they were
  have hmask : ∀ q, ov'.ancestorTombstoned q = ov.ancestorTombstoned q := by
    intro q
    rw [Bool.eq_iff_iff, Overlay.ancestorTombstoned_iff, Overlay.ancestorTombstoned_iff]
    refine exists_congr fun m => and_congr_right fun _ => and_congr_right fun _ => and_congr_right fun _ => ?_
    by_cases hm : m = p
    · subst hm
      rw [hself]
      exact ⟨fun h => (he (Option.some.inj h)).elim, fun h => (hlive h).elim⟩
    · rw [hother m hm]
  have hresolve : ∀ q, P.resolve ov' q = P.resolve ov q := by
    intro q
    by_cases hq : q = p
    · subst hq
      rw [resolve_entry hp hself]
      exact hi.symm
    · simp only [Projection.resolve, hother q hq, hmask]
  refine ⟨hresolve, fun q => ?_⟩
  rw [visible, visible, hresolve]
  cases hr : P.resolve ov q with
  | error err => rfl
  | ok o =>
    cases o with
    | none => rfl
    | some r =>
      cases r with
      | dir | gitfile => rfl
      | symlink source => cases source <;> rfl
      | file source x =>
        cases source with
        | baseline oid => rfl
        | overlay m =>
          obtain rfl := resolve_overlay hr
          have hne : m ≠ p := by
            intro heq
            subst heq
            rw [hi] at hr
            cases e with
            | file c y => exact hfile c y rfl
            | symlink | tombstone => cases hr
            | dir =>
              obtain ⟨bt, hbt, -⟩ := dir_of_entryResolved hr
              cases hbt
            | baseRef oid mode => cases mode <;> cases hr
          have hread : ov'.readContent m = ov.readContent m :=
            readContent_congr (hother m hne) fun c y _ => congrFun hdisk c
          simp only [seen, nodeOf, hread]

theorem unmoved_putDir (hp : p.Ordinary) (hi : P.Idle ov p .dir) : P.Unmoved ov (ov.step (.putDir p)) :=
  unmoved_put hp hi (by simp) (by simp) rfl (Disk.content_persist p .dir)

theorem unmoved_putBaseRef {oid : ObjectId} {mode : GitMode} (hp : p.Ordinary)
    (hi : P.Idle ov p (.baseRef oid mode)) : P.Unmoved ov (ov.step (.putBaseRef p oid mode)) :=
  unmoved_put hp hi (by simp) (by simp) rfl (Disk.content_persist p (.baseRef oid mode))

theorem Copies.unmoved (hdst : dst ≠ root) (h : P.Copies src dst kids ov ov') : P.Unmoved ov ov' := by
  induction h with
  | nil ov => exact .refl ov
  | cons hcs hcd hop hi _ ih => exact (unmoved_putBaseRef (hcd.ordinary hdst) hi).trans ih

/-! What refuses a rename, refuses it at any fuel. -/

theorem run_moveKid_leaf {kid : Bytes × Resolved} {op : OverlayOp} (hcs : Child src kid.1 cs)
    (hcd : Child dst kid.1 cd) (hop : moveChild cs cd kid.2 = some op) (fuel : Nat) (w : World) :
    ∃ v, (P.moveKid fuel src dst kid).run w = (.ok (), v) ∧ v.overlay = w.overlay.step op := by
  have hs : join src kid.1 = .ok cs := join_eq_ok.mpr ⟨valid_of_child hcs, hcs⟩
  have hd : join dst kid.1 = .ok cd := join_eq_ok.mpr ⟨valid_of_child hcd, hcd⟩
  have hdir : kid.2.isDir = false := by
    refine Resolved.isDir_eq_false fun bt hbt => ?_
    simp [hbt, moveChild] at hop
  rw [moveKid, hs, hd]
  refine ⟨{ w with overlay := w.overlay.step op, inodes := w.inodes.rename cs cd },
    (run_bind_ok (run_liftExcept_ok cs w)).trans ((run_bind_ok (run_liftExcept_ok cd w)).trans ?_), rfl⟩
  rw [hdir, if_neg (by simp), hop]
  rfl

theorem run_moveKid_dir {kid : Bytes × Resolved} (hcs : Child src kid.1 cs) (hcd : Child dst kid.1 cd)
    (hdir : kid.2.isDir = true) (fuel : Nat) (w : World) :
    (P.moveKid fuel src dst kid).run w = (P.renameDir fuel cs cd).run w := by
  have hs : join src kid.1 = .ok cs := join_eq_ok.mpr ⟨valid_of_child hcs, hcs⟩
  have hd : join dst kid.1 = .ok cd := join_eq_ok.mpr ⟨valid_of_child hcd, hcd⟩
  rw [moveKid, hs, hd]
  refine (run_bind_ok (run_liftExcept_ok cs w)).trans ((run_bind_ok (run_liftExcept_ok cd w)).trans ?_)
  rw [hdir, if_pos rfl]

theorem Copies.run (h : P.Copies src dst kids ov ov') (fuel : Nat) (w : World) (hw : w.overlay = ov) :
    ∃ u, (Prog.each kids (P.moveKid fuel src dst)).run w = (.ok (), u) ∧ u.overlay = ov' := by
  induction h generalizing w with
  | nil ov => exact ⟨w, rfl, hw⟩
  | cons hcs hcd hop hi _ ih =>
    obtain ⟨v, hrun, hv⟩ := run_moveKid_leaf (P := P) hcs hcd hop fuel w
    obtain ⟨u, hrest, hu⟩ := ih v (hw ▸ hv)
    exact ⟨u, (run_bind_ok hrun).trans hrest, hu⟩

theorem run_renameDir_begun (fuel : Nat) (src dst : RepoPath) (w : World) :
    ∃ v : World, v = { w with overlay := w.overlay.step (.putDir dst) } ∧
      (∀ err, P.effectiveChildren v.overlay src = .error err →
        (P.renameDir (fuel + 1) src dst).run w = (.error err, v)) ∧
      ∀ kids, P.effectiveChildren v.overlay src = .ok kids →
        (P.renameDir (fuel + 1) src dst).run w = (do
          Prog.each kids (P.moveKid fuel src dst)
          mutate (.tombstone src)
          inodeRename src dst : Handler Unit).run v := by
  refine ⟨_, rfl, fun err h => ?_, fun kids h => ?_⟩
  · exact run_bind_read_error (l := Action.read) (f := fun w : World => P.effectiveChildren w.overlay src) h
  · exact run_bind_ok (run_read (l := Action.read) (f := fun w : World => P.effectiveChildren w.overlay src) h)

theorem Refuses.run (h : P.Refuses ov src dst) (hdst : dst.Ordinary) (hw : w.overlay = ov)
    {r : Outcome Error Unit} (hrun : (P.renameDir fuel src dst).run w = (r, t)) (hr : r ≠ .diverge) :
    (∃ err, r = .error err) ∧ P.Unmoved ov t.overlay := by
  induction h generalizing fuel w r t with
  | unreadable hi hread =>
    subst hw
    cases fuel with
    | zero =>
      cases hrun
      exact (hr rfl).elim
    | succ fuel =>
      rename_i src dst err
      obtain ⟨v, hv, hfail, -⟩ := run_renameDir_begun (P := P) fuel src dst w
      subst hv
      rw [hfail err hread] at hrun
      cases hrun
      exact ⟨⟨err, rfl⟩, unmoved_putDir hdst hi⟩
  | beneath hi hk hpre hcs hcd hdir h ih =>
    subst hw
    cases fuel with
    | zero =>
      cases hrun
      exact (hr rfl).elim
    | succ fuel =>
      rename_i ov' src dst cs cd pre post kid
      obtain ⟨v, hv, -, hloop⟩ := run_renameDir_begun (P := P) fuel src dst w
      subst hv
      obtain ⟨u, hfirst, hu⟩ := hpre.run fuel { w with overlay := w.overlay.step (.putDir dst) } rfl
      have hunmoved := (unmoved_putDir hdst hi).trans (hpre.unmoved hdst.1)
      -- the directory at which the loop stops
      rcases hnested : (P.renameDir fuel cs cd).run u with ⟨r', t'⟩
      have hkid : (P.moveKid fuel src dst kid).run u = (r', t') :=
        (run_moveKid_dir hcs hcd hdir fuel u).trans hnested
      have hall : (Prog.each (pre ++ kid :: post) (P.moveKid fuel src dst)).run
          { w with overlay := w.overlay.step (.putDir dst) } = _ := run_each_append_ok hfirst
      rw [hloop _ hk, run_bind, hall] at hrun
      have hne : r' ≠ .diverge := by
        intro heq
        subst heq
        rw [Prog.each, run_bind, hkid] at hrun
        cases hrun
        exact hr rfl
      obtain ⟨⟨err, rfl⟩, hrest⟩ := ih (hcd.ordinary hdst.1) hu hnested hne
      rw [Prog.each, run_bind, hkid] at hrun
      cases hrun
      exact ⟨⟨err, rfl⟩, hunmoved.trans hrest⟩

/-! What fails without a change has been refused. -/

theorem copies_of_run {v : World} (hdst : dst ≠ root)
    (hrun : (Prog.each kids (P.moveKid fuel src dst)).run v = (.ok (), u))
    (hkids : ∀ kid ∈ kids, ∃ cs cd oid mode, Child src kid.1 cs ∧ Child dst kid.1 cd ∧
      moveChild cs cd kid.2 = some (.putBaseRef cd oid mode) ∧ P.Idle v.overlay cd (.baseRef oid mode)) :
    P.Copies src dst kids v.overlay u.overlay := by
  induction kids generalizing v with
  | nil =>
    cases hrun
    exact .nil _
  | cons kid kids ih =>
    obtain ⟨cs, cd, oid, mode, hcs, hcd, hop, hi⟩ := hkids kid List.mem_cons_self
    obtain ⟨v', hbody, hv'⟩ := run_moveKid_leaf (P := P) hcs hcd hop fuel v
    have hrest := (run_bind_ok hbody).symm.trans hrun
    have hsame := unmoved_putBaseRef (hcd.ordinary hdst) hi
    rw [← hv'] at hsame
    have htail := ih hrest fun k hk => by
      obtain ⟨ks, kd, oid', mode', hks, hkd, hop', hi'⟩ := hkids k (List.mem_cons_of_mem _ hk)
      exact ⟨ks, kd, oid', mode', hks, hkd, hop', (hsame.resolve kd).trans hi'⟩
    rw [hv'] at htail
    exact .cons hcs hcd hop hi htail

/-- A child that moves shows at one of its two paths, unless it only refers to the blob that is there. -/
theorem ref_of_unmoved {kid : Bytes × Resolved} {ns : Namespace} (hcs : Child src kid.1 cs)
    (hcd : Child dst kid.1 cd) (hsrc : src ≠ root) (hdst : dst ≠ root)
    (hv : P.resolve ov cs = .ok (some kid.2)) (hl : Lands P ns ov'.lookup cs cd kid.2)
    (hun : ∀ q, P.resolve ov' q = P.resolve ov q) : ∃ oid mode,
      moveChild cs cd kid.2 = some (.putBaseRef cd oid mode) ∧ P.Idle ov cd (.baseRef oid mode) := by
  have hords := hcs.ordinary hsrc
  generalize kid.2 = x at hv hl
  cases hl with
  | dir bt hgone hland =>
    have hnone : P.resolve ov' cs = .ok none := resolve_entry hords hgone
    rw [hun, hv] at hnone
    cases hnone
  | entry he hres hl hgone hland =>
    have hshown : P.resolve ov' cs = .ok (some x) := (hun cs).trans hv
    have htree := ofTree_of_unset hords hshown fun e h => nomatch hgone.symm.trans h
    rename_i e
    cases e with
    | file c y =>
      cases hres
      exact htree.elim
    | symlink target =>
      cases hres
      exact htree.elim
    | dir => exact (he.1 rfl).elim
    | tombstone => cases hres
    | baseRef oid mode => exact (he.2 oid mode rfl).elim
  | ref hmode hgone hland =>
    rename_i oid mode
    have hshown : P.resolve ov cd = .ok (some (baserefResolved oid mode)) :=
      (hun cd).symm.trans (resolve_entry (hcd.ordinary hdst) hland)
    subst hmode
    cases mode with
    | symlink => exact ⟨oid, .symlink, rfl, hshown⟩
    | executable => exact ⟨oid, .executable, rfl, hshown⟩
    | tree | gitlink | regular => exact ⟨oid, .regular, rfl, hshown⟩

/-- By induction on the fuel: what has gone on to fail at some depth has shown nothing new before. -/
theorem refuses_of_unmoved (fuel : Nat) {err : Error} {bt : Option ObjectId}
    (hs : Ships w.overlay w.ns src dst) (hsrc : P.resolve w.overlay src = .ok (some (.dir bt)))
    (hrun : (P.renameDir fuel src dst).run w = (.error err, t))
    (hun : ∀ q, P.resolve t.overlay q = P.resolve w.overlay q) : P.Refuses w.overlay src dst := by
  induction fuel generalizing src dst w bt with
  | zero => cases hrun
  | succ fuel ih =>
    obtain ⟨v, hv, hfail, hloop⟩ := run_renameDir_begun (P := P) fuel src dst w
    have hvo : v.overlay = w.overlay.step (.putDir dst) := by rw [hv]
    have hs₁ : Ships w.overlay v.overlay.index.entries src dst := by
      rw [hvo]
      exact hs.put_dir
    have hvdst : v.overlay.index.entries dst = some .dir := by
      rw [hvo]
      exact Function.update_self _ _ _
    have hidle : t.overlay.lookup dst = some .dir → P.Idle w.overlay dst .dir := fun h =>
      (hun dst).symm.trans (resolve_entry hs.dst_ordinary h)
    cases hkids : P.effectiveChildren v.overlay src with
    | error err' =>
      rw [hfail err' hkids] at hrun
      cases hrun
      rw [hvo] at hkids
      exact .unreadable (hidle hvdst) hkids
    | ok kids =>
      obtain ⟨entries, hk⟩ := effective hkids
      rw [hloop kids hkids] at hrun
      have hrun : (Prog.each kids (P.moveKid fuel src dst)).run v = (.error err, t) := by
        rcases run_bind_eq_error hrun with h | ⟨_, u, -, h⟩
        · exact h
        · cases h
      obtain ⟨pre, ⟨name, x⟩, post, u, rfl, hpre, hkid⟩ := run_each_eq_error hrun
      obtain ⟨cs, hcs, hvx⟩ := hk.resolved (name, x) (by simp)
      rw [hs₁.resolve_eq rfl (under_child hcs)] at hvx
      obtain ⟨cd, hcd⟩ := exists_child (valid_of_child hcs) dst
      -- the children before this one have moved
      have hship : Shipping P (P.resolve w.overlay) v.overlay.index.entries src dst pre u.ns := by
        have hh := ensures_moveKids (moves fuel) hs₁ hk rfl v rfl
        rw [hpre] at hh
        exact hh
      have hdirx : x.isDir = true := by
        by_contra hleaf
        have hx : x.isDir = false := by simpa using hleaf
        obtain ⟨op, hop⟩ := moveChild_of_leaf (leaf_of_resolve (hcs.ordinary hs.src_ordinary.1) hvx hx) cs cd
        obtain ⟨u', hbody, -⟩ := run_moveKid_leaf (P := P) hcs hcd hop fuel u
        rw [hbody] at hkid
        cases hkid
      have hnested := (run_moveKid_dir (P := P) hcs hcd hdirx fuel u).symm.trans hkid
      obtain ⟨xt, rfl⟩ := Resolved.eq_dir hdirx
      have hsc : Ships w.overlay u.ns cs cd := hs₁.child hship.frame hk.nodup hcs hcd
      have helse : Elsewhere u.ns cs cd t.ns := by
        have hh := moves fuel cs cd u.ns xt hsc hvx u rfl
        rw [hnested] at hh
        exact hh
      have htdst : t.overlay.lookup dst = some .dir := by
        refine (helse dst (fun hu => hs.src_dst ((under_child hcs).trans hu)) (not_under_parent hcd)).trans ?_
        rw [hship.frame.at_dst hs.src_dst]
        exact hvdst
      have hidle := hidle htdst
      have hunput := unmoved_putDir hs.dst_ordinary hidle
      rw [← hvo] at hunput
      have hcopies : P.Copies src dst pre v.overlay u.overlay := by
        refine copies_of_run hs.dst_ordinary.1 hpre fun kid hkid => ?_
        obtain ⟨ks, hks, hvk⟩ := hk.resolved kid (by simp [hkid])
        rw [hs₁.resolve_eq rfl (under_child hks)] at hvk
        obtain ⟨kd, hkd⟩ := exists_child (valid_of_child hks) dst
        have hne : kid.1 ≠ name := by
          have hnd := hk.nodup
          rw [List.map_append, List.map_cons, List.nodup_append] at hnd
          exact fun heq => hnd.2.2 kid.1 (List.mem_map_of_mem hkid) name List.mem_cons_self heq
        have hmoved := (hship.shipped kid hkid ks kd hks hkd).taken ks kd kid.2 Twin.self reached_self hvk
        have hts : t.ns ks = u.ns ks := by
          refine helse ks (fun hu => hne (under_sibling hks hcs (Under.refl ks) hu)) fun hu => ?_
          exact hs.apart (under_child hks) ((under_child hcd).trans hu)
        have htd : t.ns kd = u.ns kd := by
          refine helse kd (fun hu => hs.apart ((under_child hcs).trans hu) (under_child hkd)) fun hu => ?_
          exact hne (under_sibling hkd hcd (Under.refl kd) hu)
        have hlands : Lands P v.overlay.lookup t.overlay.lookup ks kd kid.2 := hmoved.congr rfl hts htd
        obtain ⟨oid, mode, hop, hi⟩ :=
          ref_of_unmoved hks hkd hs.src_ordinary.1 hs.dst_ordinary.1 hvk hlands hun
        exact ⟨ks, kd, oid, mode, hks, hkd, hop, (hunput.resolve kd).trans hi⟩
      have hunpre := hunput.trans (hcopies.unmoved hs.dst_ordinary.1)
      rw [hvo] at hkids hcopies
      refine .beneath hidle hkids hcopies hcs hcd rfl (ih ⟨hsc.src_ordinary, hsc.dst_ordinary, hsc.src_dst,
        hsc.dst_src, fun _ _ _ _ => rfl⟩ ((hunpre.resolve cs).trans hvx) hnested fun q => ?_)
      rw [hun, hunpre.resolve]

theorem ordinary_of_visible_dir {dir : RepoPath} {name : Bytes} {bt : Option ObjectId} (hp : Child dir name p)
    (h : P.resolve ov p = .ok (some (.dir bt))) : p.Ordinary := ordinary_of_dir h hp.ne_root

theorem run_rename_onto {parent newparent : Nat} {name newname : Bytes} (fuel : Nat) (flags : UInt32)
    {bt bt' : Option ObjectId} (hn : w.Names parent name src) (hn' : w.Names newparent newname dst)
    (hsrc : P.resolve w.overlay src = .ok (some (.dir bt)))
    (hdst : P.resolve w.overlay dst = .ok (some (.dir bt'))) :
    if flags &&& renameExchange ≠ 0 ∨ flags &&& renameNoreplace ≠ 0 then
      ∃ err, (P.rename fuel parent name newparent newname flags).run w = (.error err, w)
    else ∃ v : World, v.overlay = w.overlay ∧
      (P.rename fuel parent name newparent newname flags).run w = (P.renameDir fuel src dst).run v := by
  have hords : src.Ordinary := by
    obtain ⟨dir, -, hp⟩ := hn
    exact ordinary_of_visible_dir hp hsrc
  have hordd : dst.Ordinary := by
    obtain ⟨dir, -, hp⟩ := hn'
    exact ordinary_of_visible_dir hp hdst
  have hrun : (P.rename fuel parent name newparent newname flags).run w = _ :=
    (run_bind_ok (run_childPath_ok hn hords.2)).trans (run_bind_ok (run_childPath_ok hn' hordd.2))
  by_cases hex : flags &&& renameExchange = 0
  swap
  · rw [if_pos hex] at hrun
    rw [if_pos (.inl hex)]
    exact ⟨_, hrun⟩
  rw [if_neg (by simpa using hex)] at hrun
  by_cases hno : flags &&& renameNoreplace = 0
  swap
  · rw [if_pos (.inr hno)]
    have hread : (P.resolveStep dst).run w = (.ok (some (.dir bt')), w) := run_read hdst
    have hocc : (if flags &&& renameNoreplace ≠ 0 then Option.isSome <$> P.resolveStep dst else pure false :
        Handler Bool).run w = (.ok true, w) := by
      rw [if_pos hno]
      exact (run_bind_ok hread).trans rfl
    exact ⟨_, hrun.trans ((run_bind_ok hocc).trans rfl)⟩
  · rw [if_neg (by simp [hex, hno])]
    obtain ⟨v, hrec, hov⟩ := run_recordChange_ok (P := P) src w
    obtain ⟨u, hrec', hov'⟩ := run_recordChange_ok (P := P) dst v
    have hu : u.overlay = w.overlay := hov'.trans hov
    have hres : (P.resolveStep src).run u = (.ok (some (.dir bt)), u) := run_read (by rw [hu, hsrc])
    have hocc : (if flags &&& renameNoreplace ≠ 0 then Option.isSome <$> P.resolveStep dst else pure false :
        Handler Bool).run w = (.ok false, w) := by
      rw [if_neg (by simpa using hno)]
      rfl
    refine ⟨u, hu, hrun.trans ((run_bind_ok hocc).trans ?_)⟩
    exact (run_bind_ok hrec).trans ((run_bind_ok hrec').trans (run_bind_ok hres))

end Projection

/-- A directory rename onto a visible directory fails and changes nothing if and only if its flags
refuse it, or a read fails behind nothing but entries that show what is there already. -/
theorem onto_directory_refused_iff (P : Projection) {w t : World} {parent newparent fuel : Nat}
    {name newname : Bytes} {flags : UInt32} {src dst : RepoPath} {bt bt' : Option ObjectId}
    {r : Outcome Error Unit} (hn : w.Names parent name src) (hn' : w.Names newparent newname dst)
    (hsd : ¬ Under src dst) (hds : ¬ Under dst src)
    (hsrc : P.resolve w.overlay src = .ok (some (.dir bt)))
    (hdst : P.resolve w.overlay dst = .ok (some (.dir bt')))
    (h : (P.rename fuel parent name newparent newname flags).run w = (r, t)) (hr : r ≠ .diverge) :
    ((∃ err, r = .error err) ∧ P.Unmoved w.overlay t.overlay) ↔
      flags &&& renameExchange ≠ 0 ∨ flags &&& renameNoreplace ≠ 0 ∨ P.Refuses w.overlay src dst := by
  have hords : src.Ordinary := by
    obtain ⟨dir, -, hp⟩ := hn
    exact Projection.ordinary_of_visible_dir hp hsrc
  have hordd : dst.Ordinary := by
    obtain ⟨dir, -, hp⟩ := hn'
    exact Projection.ordinary_of_visible_dir hp hdst
  have hbegun := Projection.run_rename_onto (P := P) fuel flags hn hn' hsrc hdst
  rw [← or_assoc]
  split at hbegun
  · rename_i hflags
    obtain ⟨err, hfail⟩ := hbegun
    rw [hfail] at h
    cases h
    exact ⟨fun _ => .inl hflags, fun _ => ⟨⟨err, rfl⟩, Projection.Unmoved.refl _⟩⟩
  · rename_i hflags
    obtain ⟨v, hov, hrun⟩ := hbegun
    rw [hrun] at h
    rw [← hov] at hsrc ⊢
    have hs : Projection.Ships v.overlay v.ns src dst := ⟨hords, hordd, hsd, hds, fun _ _ _ _ => rfl⟩
    constructor
    · rintro ⟨⟨err, rfl⟩, hun⟩
      exact .inr (Projection.refuses_of_unmoved fuel hs hsrc h hun.resolve)
    · intro hc
      exact (hc.resolve_left hflags).run hordd rfl h hr

/-- Directories `d` and `e` with a file `f` and a directory `m` each; the tree of `d/m` cannot be read. -/
noncomputable def unreadProjection : Projection := { smallProjection with
  store := { smallStore with
    readTree := fun oid =>
      if oid.raw = [1] then .ok [⟨[100], .tree, ⟨[2]⟩⟩, ⟨[101], .tree, ⟨[4]⟩⟩]
      else if oid.raw = [2] then .ok [⟨[102], .regular, ⟨[3]⟩⟩, ⟨[109], .tree, ⟨[9]⟩⟩]
      else if oid.raw = [4] then .ok [⟨[102], .regular, ⟨[3]⟩⟩, ⟨[109], .tree, ⟨[6]⟩⟩]
      else if oid.raw = [6] then .ok [⟨[103], .regular, ⟨[3]⟩⟩]
      else .error ⟨.offlineMissingObject, "object not found"⟩ } }

/-- `rename d e` has put `e`, `e/f` and `e/m`, all as they are, when the read of `d/m` fails. -/
theorem onto_directory_refused_iff_unread :
    let run := (unreadProjection.rename 3 rootIno [100] rootIno [101] 0).run (World.fresh 7 none)
    (∃ err, run.1 = .error err) ∧ unreadProjection.Unmoved (Overlay.fresh 7) run.2.overlay := by
  let df := ofComponents [[100], [102]] (by decide)
  let dm := ofComponents [[100], [109]] (by decide)
  let ef := ofComponents [[101], [102]] (by decide)
  let em := ofComponents [[101], [109]] (by decide)
  let begun := (Overlay.fresh 7).step (.putDir (letter 101))
  have hsrc : unreadProjection.resolve (Overlay.fresh 7) (letter 100) = .ok (some (.dir (some ⟨[2]⟩))) := by
    decide +kernel
  have hdst : unreadProjection.resolve (Overlay.fresh 7) (letter 101) = .ok (some (.dir (some ⟨[4]⟩))) := by
    decide +kernel
  have hputDir : unreadProjection.Idle (Overlay.fresh 7) (letter 101) .dir := by
    unfold Projection.Idle
    decide +kernel
  have hkids : unreadProjection.effectiveChildren begun (letter 100) =
      .ok ([([102], .file (.baseline ⟨[3]⟩) false)] ++ [([109], .dir (some ⟨[9]⟩))]) := by
    decide +kernel
  have hfile : unreadProjection.Copies (letter 100) (letter 101) [([102], .file (.baseline ⟨[3]⟩) false)] begun
      (begun.step (.putBaseRef ef ⟨[3]⟩ .regular)) := by
    have hcs : Child (letter 100) [102] df := rfl
    have hcd : Child (letter 101) [102] ef := rfl
    have hputBaseRef : unreadProjection.Idle begun ef (.baseRef ⟨[3]⟩ .regular) := by
      unfold Projection.Idle
      decide +kernel
    exact .cons hcs hcd rfl hputBaseRef (.nil _)
  have hunread : unreadProjection.Refuses (begun.step (.putBaseRef ef ⟨[3]⟩ .regular)) dm em := by
    have hnested : unreadProjection.Idle (begun.step (.putBaseRef ef ⟨[3]⟩ .regular)) em .dir := by
      unfold Projection.Idle
      decide +kernel
    have hread : unreadProjection.effectiveChildren
        ((begun.step (.putBaseRef ef ⟨[3]⟩ .regular)).step (.putDir em)) dm =
        .error ⟨.offlineMissingObject, "object not found"⟩ := by
      decide +kernel
    exact .unreadable hnested hread
  have hrefuses : unreadProjection.Refuses (Overlay.fresh 7) (letter 100) (letter 101) := by
    have hcs : Child (letter 100) [109] dm := rfl
    have hcd : Child (letter 101) [109] em := rfl
    exact .beneath hputDir hkids hfile hcs hcd rfl hunread
  have hn : (World.fresh 7 none).Names rootIno [100] (letter 100) := ⟨root, rfl, rfl⟩
  have hn' : (World.fresh 7 none).Names rootIno [101] (letter 101) := ⟨root, rfl, rfl⟩
  exact (onto_directory_refused_iff unreadProjection hn hn' (by decide) (by decide) hsrc hdst rfl
    (by decide +kernel)).2 (.inr (.inr hrefuses))

/-- `mkdir e`, `create e/f`: two directories, each with a file `f`. -/
noncomputable def occupied (n : Nat) : World :=
  ([Op.mkdir 1 [101], .create 2 [102] false].take n).foldl
    (fun w op => ((op.handler smallProjection 3).run w).2) (World.fresh 7 none)

theorem occupied_run : Trace (LegalStep smallProjection) (World.fresh 7 none)
    [.mkdir 1 [101], .create 2 [102] false] (occupied 2) := by
  have hroot : (occupied 0).Walked smallProjection rootIno ∧ (occupied 0).HasDir smallProjection rootIno :=
    ⟨⟨root, rfl, open_root _ _⟩, root, _, rfl, rfl⟩
  have hmade : smallProjection.resolve (occupied 1).overlay (letter 101) = .ok (some (.dir none)) := by
    decide +kernel
  have hpath : (occupied 1).pathOf 2 = .ok (letter 101) := by decide +kernel
  have hdir : (occupied 1).HasDir smallProjection 2 := ⟨letter 101, none, hpath, hmade⟩
  have hwalked : (occupied 1).Walked smallProjection 2 := by
    refine ⟨letter 101, hpath, fun q hu => ?_⟩
    have hchild : Child root [101] (letter 101) := rfl
    rcases (under_child_iff hchild).mp hu with rfl | hu
    · exact ⟨none, hmade⟩
    · exact open_root _ _ q hu
  have hmkdir : smallProjection.Step (occupied 0) (.mkdir 1 [101]) (occupied 1) :=
    ⟨3, _, Prod.ext rfl rfl, by decide +kernel⟩
  have hcreate : smallProjection.Step (occupied 1) (.create 2 [102] false) (occupied 2) :=
    ⟨3, _, Prod.ext rfl rfl, by decide +kernel⟩
  refine .cons ⟨hroot.2, hroot.1, hmkdir⟩ (.cons ⟨⟨hdir, fun path hn => ?_⟩, hwalked, hcreate⟩ (.nil _))
  obtain ⟨dir, hdir', hch⟩ := hn
  obtain rfl : letter 101 = dir := Except.ok.inj (hpath.symm.trans hdir')
  obtain rfl : path = ofComponents [[101], [102]] (by decide) := ext_components hch
  decide +kernel

/-- Then `rename d e` returns, and the file `e/f` is the one of the baseline that was `d/f`. -/
theorem onto_directory_overwrites :
    let op : Op := .rename rootIno [100] rootIno [101] 0
    let w := occupied 2
    let run := (smallProjection.rename 3 rootIno [100] rootIno [101] 0).run w
    let f := ofComponents [[101], [102]] (by decide)
    Trace (LegalStep smallProjection) (World.fresh 7 none) [.mkdir 1 [101], .create 2 [102] false] w ∧
      op.Legal smallProjection w ∧ run.1 = .ok () ∧
      smallProjection.visible w.overlay f = .ok (some (.file false [])) ∧
      smallProjection.visible run.2.overlay f = .ok (some (.file false [120])) ∧
      ¬ ((∃ err, run.1 = .error err) ∧ smallProjection.Unmoved w.overlay run.2.overlay) := by
  have hroot : (occupied 2).HasDir smallProjection rootIno := ⟨root, _, rfl, rfl⟩
  have hpath : (occupied 2).pathOf rootIno = .ok root := rfl
  have hok : ((smallProjection.rename 3 rootIno [100] rootIno [101] 0).run (occupied 2)).1 = .ok () := by
    decide +kernel
  refine ⟨occupied_run, ⟨hroot, hroot, fun src dst hn hn' => ?_⟩, hok, by decide +kernel, by decide +kernel,
    fun hh => ?_⟩
  · obtain rfl := names_eq (p := letter 100) hpath rfl hn
    obtain rfl := names_eq (p := letter 101) hpath rfl hn'
    exact ⟨by decide, by decide, .dir (some ⟨[2]⟩), some (.dir none), by decide +kernel, by decide +kernel,
      fun x hx => by cases hx; rfl⟩
  · obtain ⟨err, herr⟩ := hh.1
    rw [hok] at herr
    cases herr

end LazyMount
