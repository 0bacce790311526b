import LazyMount.Lib.Rekey
import LazyMount.MovedSubtree

/-! What a directory rename takes along besides the entries: the inodes of what it moves. No content file
changes, and where it stops half-way every file is at one of its two paths. -/

namespace LazyMount

open Function (update)
open RepoPath Prog Handler

theorem InodeTable.pathToIno_rename (t : InodeTable) (old new : RepoPath) :
    (t.rename old new).pathToIno = Rekey.shift t.pathToIno old new := by
  unfold rename
  split
  · rename_i ino h
    exact (Rekey.shift_of_some h).symm
  · rename_i h
    exact (Rekey.shift_of_none h).symm

namespace Projection

variable {P : Projection} {ov : Overlay} {see : RepoPath → Except Error (Option Resolved)}
  {ns ns₁ ns' : Namespace} {q q' src dst cs cd : RepoPath} {name : Bytes} {r x : Resolved}
  {bt : Option ObjectId} {done todo kids : List (Bytes × Resolved)} {m m' m'' : RepoPath → Option Nat}
  {d : ContentId → Option Bytes} {fuel : Nat}

/-- The inodes of all that is taken have gone to the twins of their paths, in some order. -/
def Rekeyed (see : RepoPath → Except Error (Option Resolved)) (src dst : RepoPath)
    (m m' : RepoPath → Option Nat) : Prop :=
  ∃ pairs, m' = Rekey.shiftAll m pairs ∧ ∀ q q', (q, q') ∈ pairs ↔ Twin src dst q q' ∧ Taken see src q

def RekeyedKids (see : RepoPath → Except Error (Option Resolved)) (src dst : RepoPath)
    (done : List (Bytes × Resolved)) (m m' : RepoPath → Option Nat) : Prop :=
  ∃ pairs, m' = Rekey.shiftAll m pairs ∧ ∀ q q', (q, q') ∈ pairs ↔
    ∃ kid ∈ done, ∃ cs cd, Child src kid.1 cs ∧ Child dst kid.1 cd ∧ Twin cs cd q q' ∧ Taken see cs q

/-- Each file of the subtree is at its new path, or all is as it was from `src` down to it. -/
def Halfway (P : Projection) (see : RepoPath → Except Error (Option Resolved)) (ns : Namespace)
    (src dst : RepoPath) (ns' : Namespace) : Prop :=
  ∀ q q' r, Twin src dst q q' → Reached see src q → see q = .ok (some r) → r.isDir = false →
    Lands P ns ns' q q' r ∨ ∀ m, Under src m → Under m q → ns' m = ns m

/-! Inodes. -/

theorem rekeyed_leaf (hv : see cs = .ok (some x)) (hx : x.isDir = false) (cd : RepoPath) :
    Rekeyed see cs cd m (Rekey.shift m cs cd) := by
  have hdir : ∀ bt, see cs ≠ .ok (some (.dir bt)) := by
    intro bt hbt
    rw [hv] at hbt
    cases hbt
    cases hx
  refine ⟨[(cs, cd)], rfl, fun q q' => ?_⟩
  rw [List.mem_singleton, Prod.mk.injEq]
  constructor
  · intro hq
    rw [hq.1, hq.2]
    exact ⟨Twin.self, reached_self, x, hv⟩
  · intro hq
    obtain ⟨htwin, hreached, -⟩ := hq
    have heq : q = cs := by
      by_contra hne
      exact not_reached_below htwin.under.1 hne hdir hreached
    exact ⟨heq, htwin.eq_dst heq⟩

theorem RekeyedKids.next (h : RekeyedKids see src dst done m m') (hcs : Child src name cs)
    (hcd : Child dst name cd) (hkid : Rekeyed see cs cd m' m'') :
    RekeyedKids see src dst (done ++ [(name, x)]) m m'' := by
  obtain ⟨pairs, rfl, hpairs⟩ := h
  obtain ⟨more, rfl, hmore⟩ := hkid
  refine ⟨pairs ++ more, (Rekey.shiftAll_append m pairs more).symm, fun q q' => ?_⟩
  rw [List.mem_append, hpairs, hmore]
  constructor
  · intro hq
    rcases hq with ⟨kid, hkid, hrest⟩ | hq
    · exact ⟨kid, List.mem_append_left _ hkid, hrest⟩
    · exact ⟨(name, x), by simp, cs, cd, hcs, hcd, hq⟩
  · intro hq
    obtain ⟨kid, hkid, c, c', hc, hc', hrest⟩ := hq
    rcases List.mem_append.mp hkid with hkid | hkid
    · exact .inl ⟨kid, hkid, c, c', hc, hc', hrest⟩
    · rw [List.mem_singleton] at hkid
      subst hkid
      obtain rfl : c = cs := (hc.unique hcs).mpr rfl
      obtain rfl : c' = cd := (hc'.unique hcd).mpr rfl
      exact .inr hrest

theorem RekeyedKids.finish (h : RekeyedKids see src dst kids m m') (hsrc : see src = .ok (some (.dir bt)))
    (hkids : ∀ name cs, Child src name cs → (∃ kid ∈ kids, kid.1 = name) ∨ see cs = .ok none) :
    Rekeyed see src dst m (Rekey.shift m' src dst) := by
  obtain ⟨pairs, rfl, hpairs⟩ := h
  refine ⟨pairs ++ [(src, dst)], (Rekey.shiftAll_append m pairs [(src, dst)]).symm, fun q q' => ?_⟩
  rw [List.mem_append, hpairs, List.mem_singleton, Prod.mk.injEq]
  constructor
  · intro hq
    rcases hq with ⟨kid, hkid, cs, cd, hcs, hcd, htwin, htaken⟩ | ⟨hq, hq'⟩
    · exact ⟨htwin.up hcs hcd, (taken_child hsrc hcs htwin.under.1).mpr htaken⟩
    · rw [hq, hq']
      exact ⟨Twin.self, reached_self, _, hsrc⟩
  · intro hq
    obtain ⟨htwin, htaken⟩ := hq
    by_cases heq : q = src
    · exact .inr ⟨heq, htwin.eq_dst heq⟩
    · obtain ⟨name, cs, cd, hcs, hcd, hdown⟩ := htwin.down heq
      have hbelow := (taken_child hsrc hcs hdown.under.1).mp htaken
      rcases hkids name cs hcs with ⟨kid, hkid, rfl⟩ | hnone
      · exact .inl ⟨kid, hkid, cs, cd, hcs, hcd, hdown, hbelow⟩
      · obtain ⟨hreached, r, hr⟩ := hbelow
        by_cases hq : q = cs
        · rw [hq, hnone] at hr
          cases hr
        · exact (not_reached_below hdown.under.1 hq (by simp [hnone]) hreached).elim

/-! Content files. -/

theorem content_moveChild {op : OverlayOp} (hop : moveChild cs cd x = some op) (ov : Overlay) :
    (ov.step op).disk.content = ov.disk.content := by
  have hbase : ∀ oid mode, (ov.step (.putBaseRef cd oid mode)).disk.content = ov.disk.content :=
    fun oid mode => Disk.content_persist cd (.baseRef oid mode)
  cases x with
  | file source y =>
    cases source with
    | overlay p =>
      cases hop
      exact Overlay.content_rename ov cs cd
    | baseline oid =>
      cases hop
      exact hbase _ _
  | symlink source =>
    cases source with
    | overlay target =>
      cases hop
      exact Overlay.content_rename ov cs cd
    | baseline oid =>
      cases hop
      exact hbase _ _
  | dir | gitfile => cases hop

theorem content_tombstone {ov : Overlay} {p : RepoPath} (h : ∀ c y, ov.lookup p ≠ some (.file c y)) :
    (ov.step (.tombstone p)).disk.content = ov.disk.content := by
  have hdrop : ov.dropContent p = [] := by
    rw [Overlay.dropContent]
    split
    · rename_i c y hl
      exact (h c y hl).elim
    · rfl
  show (ov.disk.execAll (ov.dropContent p ++ Overlay.persist p .tombstone)).content = _
  rw [hdrop]
  exact Disk.content_persist p .tombstone

theorem not_file_of_dir {p : RepoPath} (hp : p.Ordinary) (h : P.resolve ov p = .ok (some (.dir bt)))
    (c : ContentId) (y : Bool) : ov.lookup p ≠ some (.file c y) := by
  intro hl
  rw [resolve_entry hp hl] at h
  cases h

/-! Half-way. -/

theorem halfway_refl (P : Projection) (see : RepoPath → Except Error (Option Resolved)) (ns : Namespace)
    (src dst : RepoPath) : Halfway P see ns src dst ns := fun _ _ _ _ _ _ _ => .inr fun _ _ _ => rfl

theorem Halfway.congr (h : Halfway P see ns₁ src dst ns') (hns : ∀ q, Under src q → ns₁ q = ns q) :
    Halfway P see ns src dst ns' := by
  intro q q' r hq hr hv hx
  rcases h q q' r hq hr hv hx with hl | hsame
  · exact .inl (hl.congr (hns q hq.under.1).symm rfl rfl)
  · exact .inr fun m hm hmq => (hsame m hm hmq).trans (hns m hm)

/-- Some children have moved, one has come half-way, and the others have not begun. -/
theorem Shipping.halfway (hw : Shipping P see ns src dst done ns₁) (hs : Ships ov ns src dst)
    (hsrc : see src = .ok (some (.dir bt))) (hnd : ((done ++ (name, x) :: todo).map Prod.fst).Nodup)
    (hcs : Child src name cs) (hcd : Child dst name cd) (h : Halfway P see ns₁ cs cd ns')
    (ho : Elsewhere ns₁ cs cd ns') : Halfway P see ns src dst ns' := by
  intro q q' r hq hr hv hx
  have hne : q ≠ src := by
    intro heq
    rw [heq, hsrc] at hv
    cases hv
    cases hx
  obtain ⟨n, c, c', hc, hc', hdown⟩ := hq.down hne
  have hreached := (reached_child hsrc hc hdown.under.1).mp hr
  have hapart : ∀ m, Under m q → ¬ Under cd m :=
    fun m hm hu => hs.apart hq.under.1 ((under_child hcd).trans (hu.trans hm))
  by_cases hn : n = name
  · subst hn
    obtain rfl : c = cs := (hc.unique hcs).mpr rfl
    obtain rfl : c' = cd := (hc'.unique hcd).mpr rfl
    have hbefore : ∀ m, Under m q → ns₁ m = ns m :=
      fun m hm => hw.frame.untouched hs.src_dst hs.dst_src hnd (.inl hc) hdown.under.1 hm
    rcases h q q' r hdown hreached hv hx with hl | hsame
    · exact .inl (hl.congr (hbefore q (Under.refl q)).symm rfl rfl)
    · refine .inr fun m _ hmq => ?_
      rw [← hbefore m hmq]
      by_cases hcm : Under c m
      · exact hsame m hcm hmq
      · exact ho m hcm (hapart m hmq)
  · have hother : ∀ m, Under m q → ns' m = ns₁ m :=
      fun m hm => ho m (fun hu => hn (under_sibling hc hcs hdown.under.1 (hu.trans hm))) (hapart m hm)
    by_cases hk : ∃ kid ∈ done, kid.1 = n
    · obtain ⟨kid, hkid, rfl⟩ := hk
      have hl := (hw.shipped kid hkid c c' hc hc').taken q q' r hdown hreached hv
      have hother' : ns' q' = ns₁ q' := by
        refine ho q' (fun hu => ?_) fun hu => hn (under_sibling hc' hcd hdown.under.2 hu)
        exact hs.apart ((under_child hcs).trans hu) hq.under.2
      exact .inl (hl.congr rfl (hother q (Under.refl q)) hother')
    · refine .inr fun m _ hmq => (hother m hmq).trans ?_
      by_contra hch
      obtain ⟨kid, hkid, c₂, hc₂ | hc₂, hu⟩ := hw.frame m hch
      · exact hk ⟨kid, hkid, under_sibling hc₂ hc (hu.trans hmq) hdown.under.1⟩
      · exact hs.apart hq.under.1 ((under_child hc₂).trans (hu.trans hmq))

/-! The recursion. -/

/-- One directory that is moved, at some depth. -/
def Carries (P : Projection) (ov : Overlay) (fuel : Nat) : Prop :=
  ∀ (src dst : RepoPath) (ns : Namespace) (bt : Option ObjectId) (m : RepoPath → Option Nat)
    (d : ContentId → Option Bytes), Ships ov ns src dst → P.resolve ov src = .ok (some (.dir bt)) →
    Ensures (fun w => w.ns = ns ∧ w.inodes.pathToIno = m ∧ w.overlay.disk.content = d)
      (P.renameDir fuel src dst)
      (fun _ w => Rekeyed (P.resolve ov) src dst m w.inodes.pathToIno ∧ w.overlay.disk.content = d)
      fun w => Halfway P (P.resolve ov) ns src dst w.ns ∧ w.overlay.disk.content = d

theorem ensures_carryKid (ih : P.Carries ov fuel) (hs : Ships ov ns src dst)
    (hsrc : P.resolve ov src = .ok (some (.dir bt)))
    (hnd : ((done ++ (name, x) :: todo).map Prod.fst).Nodup) (hcs : Child src name cs)
    (hv : P.resolve ov cs = .ok (some x)) :
    Ensures (fun w => Shipping P (P.resolve ov) ns src dst done w.ns ∧
        RekeyedKids (P.resolve ov) src dst done m w.inodes.pathToIno ∧ w.overlay.disk.content = d)
      (P.moveKid fuel src dst (name, x))
      (fun _ w => RekeyedKids (P.resolve ov) src dst (done ++ [(name, x)]) m w.inodes.pathToIno ∧
        w.overlay.disk.content = d)
      fun w => Halfway P (P.resolve ov) ns src dst w.ns ∧ w.overlay.disk.content = d := by
  obtain ⟨cd, hcd⟩ := exists_child (valid_of_child hcs) dst
  refine ensures_from fun w hw => ?_
  obtain ⟨hshipping, hkids, hcontent⟩ := hw
  have hstill : Halfway P (P.resolve ov) ns src dst w.ns :=
    hshipping.halfway hs hsrc hnd hcs hcd (halfway_refl P _ _ cs cd) fun _ _ _ => rfl
  refine ensures_bind (ensures_liftExcept (fun cs' v hj hv => ?_) fun v hv => hv ▸ ⟨hstill, hcontent⟩)
    (Q := fun cs' v => cs' = cs ∧ v = w) fun cs' => ensures_of fun hcs' => ?_
  · exact ⟨((join_eq_ok.mp hj).2.unique hcs).mpr rfl, hv⟩
  subst hcs'
  refine ensures_bind (ensures_liftExcept (fun cd' v hj hv => ?_) fun v hv => hv ▸ ⟨hstill, hcontent⟩)
    (Q := fun cd' v => cd' = cd ∧ v = w) fun cd' => ensures_of fun hcd' => ?_
  · exact ⟨((join_eq_ok.mp hj).2.unique hcd).mpr rfl, hv⟩
  subst hcd'
  cases hx : x.isDir with
  | true =>
    obtain ⟨bt', rfl⟩ := Resolved.eq_dir hx
    have hkid := hs.child hshipping.frame hnd hcs hcd
    have hcarries := ih cs' cd' w.ns bt' w.inodes.pathToIno d hkid hv
    have hmoves := ensures_mono (moves fuel cs' cd' w.ns bt' hkid hv)
      (P := fun v => v.ns = w.ns ∧ v.inodes.pathToIno = w.inodes.pathToIno ∧ v.overlay.disk.content = d)
      (fun v hv => hv.1) (fun _ _ h => h) fun _ h => h
    refine ensures_mono (ensures_and hmoves hcarries) (fun v hv => ?_) (fun _ v hv => ?_) fun v hv => ?_
    · rw [hv]
      exact ⟨rfl, rfl, hcontent⟩
    · exact ⟨hkids.next hcs hcd hv.2.1, hv.2.2⟩
    · exact ⟨hshipping.halfway hs hsrc hnd hcs hcd hv.2.1 hv.1, hv.2.2⟩
  | false =>
    rw [if_neg (by simp)]
    obtain ⟨op, hop⟩ := moveChild_of_leaf (leaf_of_resolve (hcs.ordinary hs.src_ordinary.1) hv hx) cs' cd'
    rw [hop]
    refine ensures_bind (Q := fun _ v => v.inodes.pathToIno = w.inodes.pathToIno ∧ v.overlay.disk.content = d)
      (ensures_atom (fun v _ hu _ => ?_) fun _ _ _ he => by cases he) fun _ =>
      ensures_atom (fun v _ hu _ => ?_) fun _ _ _ he => by cases he
    · rw [hu]
      exact ⟨rfl, (content_moveChild hop w.overlay).trans hcontent⟩
    · refine ⟨?_, hu.2⟩
      show RekeyedKids _ src dst _ m (v.inodes.rename cs' cd').pathToIno
      rw [InodeTable.pathToIno_rename, hu.1]
      exact hkids.next hcs hcd (rekeyed_leaf hv hx cd')

/-- By induction on the fuel, as `moves`. -/
theorem carries (fuel : Nat) : P.Carries ov fuel := by
  induction fuel with
  | zero => exact fun _ _ _ _ _ _ _ _ => ensures_diverge
  | succ fuel ih =>
    intro src dst ns bt m d hs₀ hsrc
    have hs := hs₀.put_dir
    rw [renameDir_succ]
    have hput : ∀ q, q ≠ dst → update ns dst (some .dir) q = ns q := fun q hq => Function.update_of_ne hq _ _
    have hbefore : ∀ q, Under src q → update ns dst (some .dir) q = ns q :=
      fun q hu => hput q fun heq => hs₀.src_dst (heq ▸ hu)
    refine ensures_bind (Q := fun _ w => w.ns = update ns dst (some .dir) ∧ w.inodes.pathToIno = m ∧
      w.overlay.disk.content = d) (ensures_atom (fun w _ hw _ => ?_) fun _ _ _ he => by cases he) fun _ => ?_
    · obtain ⟨hns, hino, hcontent⟩ := hw
      refine ⟨?_, hino, (Disk.content_persist dst .dir).trans hcontent⟩
      show (w.overlay.step (.putDir dst)).index.entries = _
      rw [Overlay.step_entries, ← hns]
      rfl
    generalize update ns dst (some .dir) = ns₁ at hs hput hbefore
    refine ensures_bind (ensures_read (fun w kids hw hk => ?_) fun w hw => ?_)
      (Q := fun kids w => (∃ ov₁ entries, ov₁.index.entries = ns₁ ∧ Effective P ov₁ src entries kids) ∧
        w.ns = ns₁ ∧ w.inodes.pathToIno = m ∧ w.overlay.disk.content = d) fun kids => ensures_of fun hkids => ?_
    · obtain ⟨entries, he⟩ := effective hk
      exact ⟨⟨w.overlay, entries, hw.1, he⟩, hw⟩
    · rw [hw.1]
      exact ⟨(halfway_refl P _ _ src dst).congr hbefore, hw.2.2⟩
    obtain ⟨ov₁, entries, rfl, hk⟩ := hkids
    refine ensures_bind (ensures_weaken (ensures_each (fun done _ w =>
        Shipping P (P.resolve ov) ov₁.index.entries src dst done w.ns ∧
          RekeyedKids (P.resolve ov) src dst done m w.inodes.pathToIno ∧ w.overlay.disk.content = d)
        fun ys x zs hxs => ?_) (fun w hw => ?_) fun _ _ h => h) fun _ => ?_
    · have hnd : ((ys ++ x :: zs).map Prod.fst).Nodup := hxs ▸ hk.nodup
      obtain ⟨cs, hcs, hv⟩ := hk.resolved x (by simp [hxs])
      rw [hs.resolve_eq rfl (under_child hcs)] at hv
      have hship := ensures_mono (ensures_moveKid (moves fuel) hs hnd hcs hv)
        (P := fun w => Shipping P (P.resolve ov) ov₁.index.entries src dst ys w.ns ∧
          RekeyedKids (P.resolve ov) src dst ys m w.inodes.pathToIno ∧ w.overlay.disk.content = d)
        (fun w hw => hw.1) (fun _ _ h => h) fun _ h => h
      refine ensures_mono (ensures_and hship (ensures_carryKid ih hs hsrc hnd hcs hv)) (fun _ h => h)
        (fun _ _ h => h) fun w hw => ⟨hw.2.1.congr hbefore, hw.2.2⟩
    · obtain ⟨hns, hino, hcontent⟩ := hw
      refine ⟨?_, ⟨[], hino.symm ▸ rfl, by simp⟩, hcontent⟩
      rw [hns]
      exact ⟨fun q hq => (hq rfl).elim, by simp⟩
    · have hkids : ∀ name cs, Child src name cs →
          (∃ kid ∈ kids, kid.1 = name) ∨ P.resolve ov cs = .ok none := by
        intro name cs hcs
        by_cases hin : ∃ kid ∈ kids, kid.1 = name
        · exact .inl hin
        · have hnone := resolve_skipped hk hs.src_ordinary.1 hcs fun kid hkid heq => hin ⟨kid, hkid, heq⟩
          rw [hs.resolve_eq rfl (under_child hcs)] at hnone
          exact .inr hnone
      refine ensures_bind (Q := fun _ w => RekeyedKids (P.resolve ov) src dst kids m w.inodes.pathToIno ∧
        w.overlay.disk.content = d) (ensures_atom (fun w _ hw _ => ?_) fun _ _ _ he => by cases he) fun _ =>
        ensures_atom (fun w _ hw _ => ?_) fun _ _ _ he => by cases he
      · obtain ⟨hshipping, hrekeyed, hcontent⟩ := hw
        have hlook : w.overlay.lookup src = ov.lookup src :=
          (hshipping.frame.at_src hs.dst_src).trans (hs.same src src (Under.refl src) (Under.refl src))
        refine ⟨hrekeyed, (content_tombstone fun c y hl => ?_).trans hcontent⟩
        exact not_file_of_dir hs.src_ordinary hsrc c y (hlook.symm.trans hl)
      · refine ⟨?_, hw.2⟩
        show Rekeyed _ src dst m (w.inodes.rename src dst).pathToIno
        rw [InodeTable.pathToIno_rename]
        exact hw.1.finish hsrc hkids

end Projection

end LazyMount
