import LazyMount.LinkedPaths
import LazyMount.Mount
import LazyMount.Structural

/-! The inodes of a renamed subtree go with it, as long as every path with an inode shows. -/

namespace LazyMount

open RepoPath Prog Handler Transition

/-- The kernel looks names up in directories. -/
def Op.Directed (P : Projection) (w : World) : Op → Prop
  | .lookup parent _ => w.HasDir P parent
  | _ => True

/-- A directory that is renamed over has no visible child, as `rename(2)` asks. -/
def Op.OntoEmpty (P : Projection) (w : World) : Op → Prop
  | .rename _ _ newparent newname _ => ∀ dst bt, w.Names newparent newname dst →
      P.resolve w.overlay dst = .ok (some (.dir bt)) → ∀ name c, Child dst name c → P.resolve w.overlay c = .ok none
  | _ => True

def Op.IsRename : Op → Prop
  | .rename .. => True
  | _ => False

/-- A call of the kernel that returns, and does not fail if it is a rename. -/
def CalledStep (P : Projection) (w : World) (op : Op) (w' : World) : Prop :=
  op.Legal P w ∧ op.Walked P w ∧ op.Directed P w ∧
    ∃ fuel r, (op.handler P fuel).run w = (r, w') ∧ r ≠ .diverge ∧ (op.IsRename → r = .ok .unit)

def OrderlyStep (P : Projection) (w : World) (op : Op) (w' : World) : Prop :=
  CalledStep P w op w' ∧ op.OntoEmpty P w

namespace Projection

variable {P : Projection} {w t : World} {ov ov' : Overlay} {q q' src dst : RepoPath} {r r' : Resolved}
  {bt : Option ObjectId} {e : OverlayEntry} {i : Nat}

/-! What an inode yields. -/

def kindAt (P : Projection) (w : World) (ino : Nat) : Outcome Error Kind :=
  ((Attr.kind <$> P.getattr ino).run w).1

def contentAt (P : Projection) (w : World) (ino : Nat) : Outcome Error (Option Bytes) :=
  ((P.contentOf w.overlay <$> P.openRead ino).run w).1

/-- `rename` from `src` to `dst` keeps the identity of what it moves, and of all else. -/
structure IdentityKept (P : Projection) (w t : World) (src dst : RepoPath) : Prop where
  moved : ∀ i q q', w.inodes.pathOf i = some q → Twin src dst q q' → t.inodes.pathOf i = some q' ∧
    P.kindAt t i = P.kindAt w i ∧ P.contentAt t i = P.contentAt w i
  evicted : ∀ i, w.inodes.pathOf i = some dst → t.inodes.pathOf i = none
  others : ∀ i, (∀ q, w.inodes.pathOf i = some q → ¬ Under src q ∧ q ≠ dst) →
    t.inodes.pathOf i = w.inodes.pathOf i

def bytesOf (P : Projection) (ov : Overlay) : Resolved → Outcome Error (Option Bytes)
  | .gitfile => .ok (some P.gitfile)
  | .file (.overlay p) _ =>
    match ov.openContent p with
    | .ok content => .ok (ov.disk.content content)
    | .error e => .error e
  | .file (.baseline oid) _ =>
    match P.store.readBlobRaw oid with
    | .ok bytes => .ok (some bytes)
    | .error e => .error e
  | .symlink _ => .error (internal "open_content on a symlink; use readlink")
  | .dir _ => .error (internal "is a directory")

theorem kindAt_eq (hp : w.pathOf i = .ok q) (hr : P.resolve w.overlay q = .ok (some r)) :
    P.kindAt w i = match P.sizeOf w.overlay r with
      | .ok _ => .ok r.kind
      | .error e => .error e := by
  have hpath : (pathOf i).run w = (.ok q, w) := run_read hp
  have hres : (P.resolveStep q).run w = (.ok (some r), w) := run_read hr
  have hattr : (P.getattr i).run w =
      (P.attrOf i (w.inodes.lookup q).1.2 r).run { w with inodes := (w.inodes.lookup q).2 } := by
    rw [getattr, run_bind_ok hpath, run_bind_ok hres]
    rfl
  have hmap : (Attr.kind <$> P.getattr i).run w = _ := run_bind (P.getattr i) _ w
  rw [kindAt, hmap, hattr, attrOf_run]
  dsimp only
  cases P.sizeOf w.overlay r <;> rfl

theorem contentAt_eq (hp : w.pathOf i = .ok q) (hr : P.resolve w.overlay q = .ok (some r)) :
    P.contentAt w i = P.bytesOf w.overlay r := by
  have hpath : (pathOf i).run w = (.ok q, w) := run_read hp
  have hres : (P.resolveStep q).run w = (.ok (some r), w) := run_read hr
  have hmap : (P.contentOf w.overlay <$> P.openRead i).run w = _ := run_bind (P.openRead i) _ w
  rw [contentAt, hmap, openRead, run_bind_ok hpath, run_bind_ok hres]
  cases r with
  | dir | gitfile | symlink => rfl
  | file source x =>
    cases source with
    | overlay p =>
      have hopen : run (ContentHandle.overlay <$> Handler.openContent p) w = _ :=
        run_bind_read .read (fun w => w.overlay.openContent p) _ w
      simp only [hopen, bytesOf]
      cases w.overlay.openContent p <;> rfl
    | baseline oid =>
      have hfetch : run (do let _ ← P.materialize oid; pure (ContentHandle.cache oid)) w = _ :=
        run_bind_read .read (fun _ => P.store.readBlobRaw oid) _ w
      simp only [hfetch, bytesOf]
      cases hb : P.store.readBlobRaw oid with
      | error e => rfl
      | ok bytes => exact congrArg _ (congrArg Except.toOption hb)

theorem yields_of_alike (h : Alike ov ov' r r') (hc : ov'.disk.content = ov.disk.content) :
    r'.kind = r.kind ∧ P.sizeOf ov' r' = P.sizeOf ov r ∧ P.bytesOf ov' r' = P.bytesOf ov r := by
  cases h with
  | dir | gitfile | blob => exact ⟨rfl, rfl, rfl⟩
  | symlink source => cases source <;> exact ⟨rfl, rfl, rfl⟩
  | content hl hl' x =>
    refine ⟨rfl, ?_, ?_⟩
    · simp only [sizeOf, Overlay.contentSize, hl, hl', hc]
    · simp only [bytesOf, Overlay.openContent, hl, hl', hc]

/-! What a rename has done. -/

/-- What stands at the twin of a path that a rename has taken. -/
def Arrived (ov ov' : Overlay) (q q' : RepoPath) (r : Resolved) : Prop :=
  r.isDir = true ∧ ov'.lookup q' = some .dir ∨
    r.isDir = false ∧ ∃ e, Bears ov q r e ∧ ov'.lookup q' = some e

structure Relocated (P : Projection) (w t : World) (src dst : RepoPath) : Prop where
  inodes : Rekeyed (P.resolve w.overlay) src dst w.inodes.pathToIno t.inodes.pathToIno
  content : t.overlay.disk.content = w.overlay.disk.content
  arrived : ∀ q q' r, Twin src dst q q' → Reached (P.resolve w.overlay) src q →
    P.resolve w.overlay q = .ok (some r) → Arrived w.overlay t.overlay q q' r
  answers : ∀ q, Under src q → Reached (P.resolve w.overlay) src q → ∃ r, P.resolve w.overlay q = .ok r
  elsewhere : Elsewhere w.ns src dst t.ns

theorem Lands.arrived (h : Lands P ov.index.entries ov'.index.entries q q' r) : Arrived ov ov' q q' r := by
  cases hx : r.isDir with
  | true =>
    obtain ⟨bt, rfl⟩ := Resolved.eq_dir hx
    exact .inl ⟨hx, h.of_dir.2⟩
  | false => exact .inr ⟨hx, h.bears hx⟩

theorem relocated_dir {fuel : Nat} (h : (P.renameDir fuel src dst).run w = (.ok (), t))
    (hs : Ships w.overlay w.ns src dst) (hsrc : P.resolve w.overlay src = .ok (some (.dir bt))) :
    P.Relocated w t src dst := by
  obtain ⟨hshipped, helse⟩ := run_renameDir_shipped h hs hsrc
  have hcarried := carries fuel src dst w.ns bt w.inodes.pathToIno w.overlay.disk.content hs hsrc w ⟨rfl, rfl, rfl⟩
  rw [h] at hcarried
  exact ⟨hcarried.1, hcarried.2, fun q q' r hq hr hv => (hshipped.taken q q' r hq hr hv).arrived,
    hshipped.answers, helse⟩

theorem Renames.bears (h : P.Renames ov src dst ov') (hs : src.Ordinary) (hne : src ≠ dst)
    (hv : P.resolve ov src = .ok (some r)) (hx : r.isDir = false) :
    (∃ e, Bears ov src r e ∧ ov'.lookup dst = some e) ∧ ov'.disk.content = ov.disk.content ∧
      ∀ m, m ≠ src → m ≠ dst → ov'.lookup m = ov.lookup m := by
  have hmask : ∀ ov₁ : Overlay, ov₁.lookup src = none →
      (∀ m, m ≠ src → (ov₁.step (.tombstone src)).lookup m = ov₁.lookup m) ∧
        (ov₁.step (.tombstone src)).disk.content = ov₁.disk.content := by
    intro ov₁ hnone
    exact ⟨fun m hm => Overlay.lookup_step (by simpa [OverlayOp.touched] using hm),
      content_tombstone fun c y hl => by rw [hnone] at hl; cases hl⟩
  have hmoved : ∀ e, ov.lookup src = some e → (ov.step (.rename src dst)).lookup dst = some e ∧
      (ov.step (.rename src dst)).lookup src = none ∧
      ∀ m, m ≠ src → m ≠ dst → (ov.step (.rename src dst)).lookup m = ov.lookup m := by
    intro e he
    rw [Overlay.lookup_rename he]
    refine ⟨?_, Function.update_self _ _ _, fun m hms hmd => ?_⟩
    · rw [Function.update_of_ne hne.symm, Function.update_self]
    · rw [Function.update_of_ne hms, Function.update_of_ne hmd]
  cases h with
  | entry he hb =>
    obtain ⟨hdst, -, hother⟩ := hmoved _ he
    exact ⟨⟨_, .entry he hx, hdst⟩, Overlay.content_rename ov src dst, hother⟩
  | covering he hb =>
    obtain ⟨hdst, hsrc, hother⟩ := hmoved _ he
    obtain ⟨hkept, hcontent⟩ := hmask _ hsrc
    exact ⟨⟨_, .entry he hx, (hkept dst hne.symm).trans hdst⟩,
      hcontent.trans (Overlay.content_rename ov src dst), fun m hms hmd => (hkept m hms).trans (hother m hms hmd)⟩
  | clean he hb hm =>
    rename_i oid mode
    have hput : ∀ m, m ≠ dst → (ov.step (.putBaseRef dst oid mode)).lookup m = ov.lookup m :=
      fun m hmd => Overlay.lookup_step (by simpa [OverlayOp.touched] using hmd)
    obtain ⟨hkept, hcontent⟩ := hmask _ ((hput src hne).trans he)
    have hr : baserefResolved oid mode = r := by
      rw [resolve_unset hs he, hb] at hv
      split at hv
      · cases hv
      · exact Option.some.inj (Except.ok.inj hv)
    subst hr
    refine ⟨⟨_, .ref oid mode, (hkept dst hne.symm).trans ?_⟩,
      hcontent.trans (Disk.content_persist dst (.baseRef oid mode)),
      fun m hms hmd => (hkept m hms).trans (hput m hmd)⟩
    show (ov.step (.putBaseRef dst oid mode)).index.entries dst = _
    rw [Overlay.step_entries]
    exact Function.update_self _ _ _

theorem relocated_file (h : (P.renameFile src dst).run w = (.ok (), t)) (hs : src.Ordinary) (hne : src ≠ dst)
    (hv : P.resolve w.overlay src = .ok (some r)) (hx : r.isDir = false) : P.Relocated w t src dst := by
  obtain ⟨hrenames, hinodes⟩ := run_renameFile h
  obtain ⟨hbears, hcontent, hother⟩ := hrenames.bears hs hne hv hx
  have hself : ∀ q, Under src q → Reached (P.resolve w.overlay) src q → q = src := by
    intro q hu hr
    by_contra hqs
    refine not_reached_below hu hqs (fun bt hbt => ?_) hr
    cases hv.symm.trans hbt
    cases hx
  refine ⟨?_, hcontent, fun q q' r' hq hr hv' => ?_, fun q hu hr => ?_, fun q hqs hqd => ?_⟩
  · rw [hinodes, InodeTable.pathToIno_rename]
    exact rekeyed_leaf hv hx dst
  · obtain rfl := hself q hq.under.1 hr
    obtain rfl := hq.eq_dst rfl
    cases hv.symm.trans hv'
    exact .inr ⟨hx, hbears⟩
  · rw [hself q hu hr]
    exact ⟨_, hv⟩
  · refine hother q (fun heq => hqs ?_) fun heq => hqd ?_
    · exact heq ▸ Under.refl q
    · exact heq ▸ Under.refl q

theorem Reached.next {see : RepoPath → Except Error (Option Resolved)} {m c : RepoPath} {name : Bytes}
    (h : Reached see src m) (hm : see m = .ok (some (.dir bt))) (hc : Child m name c) :
    Reached see src c := by
  intro k hk hkc hne
  by_cases heq : k = m
  · exact ⟨bt, heq ▸ hm⟩
  · exact h k hk (((under_child_iff hc).mp hkc).resolve_left hne) heq

/-- The recursion comes to every path that shows, unless it fails. -/
theorem Shows.taken (h : P.Shows ov q) (hu : Under src q)
    (hall : ∀ m, Under src m → Reached (P.resolve ov) src m → ∃ r, P.resolve ov m = .ok r) :
    Taken (P.resolve ov) src q := by
  have hstep : ∀ m name c, Under src m → Reached (P.resolve ov) src m → Child m name c → Under c q →
      Reached (P.resolve ov) src c := by
    intro m name c hm hr hc hcq
    have hmq : m ≠ q := by
      intro heq
      exact not_under_parent hc (heq ▸ hcq)
    obtain ⟨r, hv⟩ := hall m hm hr
    obtain ⟨bt, rfl⟩ := h.above m r ((under_child hc).trans hcq) hmq hv
    exact hr.next hv hc
  have hreached : Reached (P.resolve ov) src q := by
    by_cases hq : q = src
    · exact hq ▸ reached_self
    · refine below_induction (motive := fun m => Under m q → Reached (P.resolve ov) src m)
        (fun name c hc hcq => hstep src name c (Under.refl src) reached_self hc hcq)
        (fun m name c hm _ ih hc hcq => hstep m name c hm (ih ((under_child hc).trans hcq)) hc hcq)
        hu hq (Under.refl q)
  obtain ⟨r, hr⟩ := hall q hu hreached
  refine ⟨hreached, ?_⟩
  cases r with
  | some r => exact ⟨r, hr⟩
  | none => exact (h.there hr).elim

theorem Rekeyed.matching {see : RepoPath → Except Error (Option Resolved)} {pairs : List (RepoPath × RepoPath)}
    (h : ∀ q q', (q, q') ∈ pairs ↔ Twin src dst q q' ∧ Taken see src q) (hsd : ¬ Under src dst)
    (hds : ¬ Under dst src) : Rekey.Matching pairs := by
  refine ⟨fun a b a' b' hp hp' => ?_, fun a b a' b' hp hp' heq => ?_⟩
  · obtain ⟨htwin, -⟩ := (h a b).mp hp
    obtain ⟨htwin', -⟩ := (h a' b').mp hp'
    constructor
    · intro heq
      subst heq
      exact htwin.unique htwin'
    · intro heq
      subst heq
      exact htwin.symm.unique htwin'.symm
  · obtain ⟨htwin, -⟩ := (h a b).mp hp
    obtain ⟨htwin', -⟩ := (h a' b').mp hp'
    subst heq
    rcases under_or_under htwin.under.1 htwin'.under.2 with hu | hu
    · exact hsd hu
    · exact hds hu

theorem Rekeyed.at {see : RepoPath → Except Error (Option Resolved)} {m m' : RepoPath → Option Nat}
    (h : Rekeyed see src dst m m') (hsd : ¬ Under src dst) (hds : ¬ Under dst src) :
    (∀ q q', Twin src dst q q' → Taken see src q → m' q = none ∧ m' q' = (m q).or (m q')) ∧
      ∀ n, (Under src n → ¬ Taken see src n) → (∀ q, Twin src dst q n → ¬ Taken see src q) → m' n = m n := by
  obtain ⟨pairs, rfl, hpairs⟩ := h
  have hmatching := Rekeyed.matching hpairs hsd hds
  refine ⟨fun q q' hq ht => Rekey.shiftAll_of_mem hmatching ((hpairs q q').mpr ⟨hq, ht⟩), fun n hsrc hdst => ?_⟩
  refine Rekey.shiftAll_of_notMem fun p hp => ?_
  obtain ⟨htwin, ht⟩ := (hpairs p.1 p.2).mp hp
  refine ⟨fun heq => ?_, fun heq => ?_⟩
  · rw [heq] at hsrc
    exact hsrc htwin.under.1 ht
  · rw [heq] at hdst
    exact hdst p.1 htwin ht

/-- The two names of a rename, and what the kernel and `rename(2)` know of them. -/
structure Endpoints (P : Projection) (w : World) (src dst : RepoPath) : Prop where
  src_ordinary : src.Ordinary
  dst_ordinary : dst.Ordinary
  src_dst : ¬ Under src dst
  dst_src : ¬ Under dst src
  present : ∃ r, P.resolve w.overlay src = .ok (some r)
  above : ∀ m r, Under m dst → m ≠ dst → P.resolve w.overlay m = .ok r → ∃ bt, r = some (.dir bt)
  alone : ∀ q, P.Shows w.overlay q → Under dst q → q = dst

theorem Arrived.there (h : Arrived ov ov' q q' r) (hq : q.Ordinary) (hq' : q'.Ordinary)
    (hv : P.resolve ov q = .ok (some r)) : P.resolve ov' q' ≠ .ok none := by
  rcases h with ⟨-, hl⟩ | ⟨-, e, hb, hl⟩
  · exact there_of_entry hl (by simp)
  · obtain ⟨r', hr', -⟩ := alike_of_bears hq hq' hv hb hl
    rw [hr']
    simp

theorem under_of_twins {m m' : RepoPath} (hm : Twin src dst m m') (hq : Twin src dst q q') (h : Under m' q') :
    Under m q := by
  obtain ⟨l, hl, hl'⟩ := hm
  obtain ⟨k, hk, hk'⟩ := hq
  rw [Under, hl', hk', List.prefix_append_right_inj] at h
  rw [Under, hl, hk, List.prefix_append_right_inj]
  exact h

section Relocated

variable (h : P.Relocated w t src dst) (he : P.Endpoints w src dst)

include h he

theorem shows_twin (hq : Twin src dst q q') (ht : Taken (P.resolve w.overlay) src q) :
    P.Shows t.overlay q' := by
  have hordinary : ∀ m m', Twin src dst m m' → m.Ordinary ∧ m'.Ordinary := fun m m' hm =>
    ⟨ordinary_under he.src_ordinary hm.under.1, ordinary_under he.dst_ordinary hm.under.2⟩
  obtain ⟨hreached, r, hv⟩ := ht
  obtain ⟨hordq, hordq'⟩ := hordinary q q' hq
  refine ⟨(h.arrived q q' r hq hreached hv).there hordq hordq' hv, fun m' o hmq' hne ho => ?_⟩
  by_cases hdm : Under dst m'
  · -- the twin of a directory on the way
    obtain ⟨m, hm⟩ := exists_twin hdm src
    replace hm := hm.symm
    have hmq : Under m q := under_of_twins hm hq hmq'
    have hne' : m ≠ q := by
      intro heq
      subst heq
      exact hne (hm.unique hq)
    obtain ⟨bt, hbt⟩ := hreached m hm.under.1 hmq hne'
    have hreached' : Reached (P.resolve w.overlay) src m := by
      intro k hk hkm hkne
      refine hreached k hk (hkm.trans hmq) fun heq => ?_
      subst heq
      exact hkne (hkm.antisymm hmq)
    rcases h.arrived m m' (.dir bt) hm hreached' hbt with ⟨-, hl⟩ | ⟨hx, -⟩
    · rw [resolve_entry (hordinary m m' hm).2 hl] at ho
      obtain ⟨bt', hbt', -⟩ := dir_of_entryResolved ho
      exact ⟨bt', hbt'⟩
    · cases hx
  · have hmd : Under m' dst := (under_or_under hmq' hq.under.2).resolve_right hdm
    refine he.above m' o hmd (fun heq => hdm (heq ▸ Under.refl m')) ?_
    rw [← ho]
    refine resolve_congr fun k hk => (h.elsewhere k (fun hsk => ?_) fun hdk => ?_).symm
    · exact he.src_dst (hsk.trans (hk.trans hmd))
    · exact hdm (hdk.trans hk)

theorem linked_relocated (hl : P.Linked w) : P.Linked t := by
  obtain ⟨htwins, hothers⟩ := Rekeyed.at h.inodes he.src_dst he.dst_src
  intro n i hn
  by_cases harrived : ∃ q, Twin src dst q n ∧ Taken (P.resolve w.overlay) src q
  · obtain ⟨q, hq, ht⟩ := harrived
    exact shows_twin h he hq ht
  have hgone : ¬ (Under src n ∧ Taken (P.resolve w.overlay) src n) := by
    intro hh
    obtain ⟨n', hn'⟩ := exists_twin hh.1 dst
    rw [(htwins n n' hn' hh.2).1] at hn
    cases hn
  rw [hothers n (fun hu ht => hgone ⟨hu, ht⟩) fun q hq ht => harrived ⟨q, hq, ht⟩] at hn
  have hs := hl n i hn
  have hsrc : ¬ Under src n := fun hu => hgone ⟨hu, hs.taken hu h.answers⟩
  have hdst : ¬ Under dst n := by
    intro hu
    obtain rfl := he.alone n hs hu
    exact harrived ⟨src, Twin.self, reached_self, he.present⟩
  exact hs.congr fun m hm => (h.elsewhere m (fun hu => hsrc (hu.trans hm)) fun hu => hdst (hu.trans hm)).symm

theorem path_before {n : RepoPath} (hn : t.inodes.pathOf i = some n) :
    (∃ q, Twin src dst q n ∧ Taken (P.resolve w.overlay) src q ∧ w.inodes.pathOf i = some q) ∨
      w.inodes.pathOf i = some n ∧ ∀ q, Twin src dst q n → Taken (P.resolve w.overlay) src q →
        ∀ j, w.inodes.pathOf j ≠ some q := by
  obtain ⟨htwins, hothers⟩ := Rekeyed.at h.inodes he.src_dst he.dst_src
  rw [InodeTable.pathOf_iff] at hn
  by_cases harrived : ∃ q, Twin src dst q n ∧ Taken (P.resolve w.overlay) src q
  · obtain ⟨q, hq, ht⟩ := harrived
    rw [(htwins q n hq ht).2] at hn
    cases hm : w.inodes.pathToIno q with
    | some j =>
      rw [hm, Option.some_or] at hn
      exact .inl ⟨q, hq, ht, by rw [InodeTable.pathOf_iff, hm, hn]⟩
    | none =>
      rw [hm, Option.none_or] at hn
      refine .inr ⟨InodeTable.pathOf_iff.mpr hn, fun q₁ hq₁ _ j hj => ?_⟩
      obtain rfl := hq.symm.unique hq₁.symm
      rw [InodeTable.pathOf_iff, hm] at hj
      cases hj
  · rw [hothers n (fun hu ht => ?_) fun q hq ht => harrived ⟨q, hq, ht⟩] at hn
    · exact .inr ⟨InodeTable.pathOf_iff.mpr hn, fun q hq ht => (harrived ⟨q, hq, ht⟩).elim⟩
    · obtain ⟨n', hn'⟩ := exists_twin hu dst
      rw [(htwins n n' hn' ht).1] at hn
      cases hn

end Relocated

/-- The kernel has looked up `src` if it has looked up `dst`, and the baseline can be read where the
directories with inodes go. -/
structure Follows (P : Projection) (w : World) (src dst : RepoPath) : Prop where
  displaced : ∀ j, w.inodes.pathOf j = some dst → ∃ i, w.inodes.pathOf i = some src
  readable : ∀ i q q' bt, w.inodes.pathOf i = some q → Twin src dst q q' →
    P.resolve w.overlay q = .ok (some (.dir bt)) → ∃ bt', P.baselineTreeAt q' = .ok bt'

theorem resolve_of_kindAt {kind : Kind} (hp : w.pathOf i = .ok q) (h : P.kindAt w i = .ok kind) :
    ∃ r, P.resolve w.overlay q = .ok (some r) := by
  obtain ⟨attr, hget, -⟩ := run_map_eq_ok (Prod.ext h rfl)
  obtain ⟨q₁, w₁, hpath, hget⟩ := run_bind_eq_ok hget
  obtain ⟨hp', rfl⟩ := run_read_eq_ok hpath
  obtain rfl : q = q₁ := Except.ok.inj (hp.symm.trans hp')
  obtain ⟨o, w₂, hres, hget⟩ := run_bind_eq_ok hget
  obtain ⟨hr, rfl⟩ := run_read_eq_ok hres
  cases o with
  | none => cases hget
  | some r => exact ⟨r, hr⟩

theorem pathOf_ok (hi : i ≠ rootIno) (h : w.inodes.pathOf i = some q) : w.pathOf i = .ok q := by
  rw [World.pathOf, if_neg hi, h]

theorem ne_rootIno (hroot : w.inodes.RootSafe) (hsrc : src ≠ root) (h : w.inodes.pathOf i = some q)
    (hu : Under src q) : i ≠ rootIno := by
  intro heq
  subst heq
  rw [hroot q h] at hu
  exact hsrc (eq_root_of_under hu)

section Identity

variable (h : P.Relocated w t src dst) (he : P.Endpoints w src dst) (hl : P.Linked w)
  (hroot : w.inodes.RootSafe)

include h hl in
theorem taken_of_linked (hi : w.inodes.pathOf i = some q) (hu : Under src q) :
    Taken (P.resolve w.overlay) src q :=
  (hl q i (InodeTable.pathOf_iff.mp hi)).taken hu h.answers

include h he hl hroot in
theorem follows_of_kept (hk : P.IdentityKept w t src dst) : P.Follows w src dst := by
  refine ⟨fun j hj => ?_, fun i q q' bt hi hq hbt => ?_⟩
  · by_contra hnone
    have hgone : w.inodes.pathToIno src = none := by
      rw [Option.eq_none_iff_forall_ne_some]
      exact fun i hi => hnone ⟨i, InodeTable.pathOf_iff.mpr hi⟩
    obtain ⟨htwins, -⟩ := Rekeyed.at h.inodes he.src_dst he.dst_src
    have hstays : t.inodes.pathOf j = some dst := by
      rw [InodeTable.pathOf_iff, (htwins src dst Twin.self ⟨reached_self, he.present⟩).2, hgone, Option.none_or]
      exact InodeTable.pathOf_iff.mp hj
    cases hstays.symm.trans (hk.evicted j hj)
  · obtain ⟨hi', hkind, -⟩ := hk.moved i q q' hi hq
    have hne := ne_rootIno hroot he.src_ordinary.1 hi hq.under.1
    rw [kindAt_eq (pathOf_ok hne hi) hbt] at hkind
    obtain ⟨r, hr⟩ := resolve_of_kindAt (pathOf_ok hne hi') hkind
    obtain ⟨hreached, -⟩ := taken_of_linked h hl hi hq.under.1
    rcases h.arrived q q' (.dir bt) hq hreached hbt with ⟨-, hdir⟩ | ⟨hx, -⟩
    · rw [resolve_entry (ordinary_under he.dst_ordinary hq.under.2) hdir] at hr
      obtain ⟨bt', -, hbt'⟩ := dir_of_entryResolved hr
      exact ⟨bt', hbt'⟩
    · cases hx

include h he in
/-- A directory shows at its new path as far as the baseline can be read there. -/
theorem alike_twin (hq : Twin src dst q q') (hreached : Reached (P.resolve w.overlay) src q)
    (hv : P.resolve w.overlay q = .ok (some r))
    (hread : ∀ bt, r = .dir bt → ∃ bt', P.baselineTreeAt q' = .ok bt') :
    ∃ r', P.resolve t.overlay q' = .ok (some r') ∧ Alike w.overlay t.overlay r r' := by
  have hord := ordinary_under he.src_ordinary hq.under.1
  have hord' := ordinary_under he.dst_ordinary hq.under.2
  rcases h.arrived q q' r hq hreached hv with ⟨hx, hdir⟩ | ⟨-, e, hb, hleaf⟩
  · obtain ⟨bt, rfl⟩ := Resolved.eq_dir hx
    obtain ⟨bt', hbt'⟩ := hread bt rfl
    refine ⟨.dir bt', ?_, .dir bt bt'⟩
    rw [resolve_entry hord' hdir, entryResolved, hbt']
    rfl
  · exact alike_of_bears hord hord' hv hb hleaf

include h he hl hroot in
theorem moved_of_follows (hf : P.Follows w src dst) (hi : w.inodes.pathOf i = some q) (hq : Twin src dst q q') :
    t.inodes.pathOf i = some q' ∧ P.kindAt t i = P.kindAt w i ∧ P.contentAt t i = P.contentAt w i := by
  obtain ⟨htwins, -⟩ := Rekeyed.at h.inodes he.src_dst he.dst_src
  have ht := taken_of_linked h hl hi hq.under.1
  have hi' : t.inodes.pathOf i = some q' := by
    rw [InodeTable.pathOf_iff, (htwins q q' hq ht).2, InodeTable.pathOf_iff.mp hi, Option.some_or]
  have hne := ne_rootIno hroot he.src_ordinary.1 hi hq.under.1
  obtain ⟨hreached, r, hv⟩ := ht
  obtain ⟨r', hv', halike⟩ := alike_twin h he hq hreached hv fun bt hbt =>
    hf.readable i q q' bt hi hq (hbt ▸ hv)
  obtain ⟨hkind, hsize, hbytes⟩ := yields_of_alike (P := P) halike h.content
  refine ⟨hi', ?_, ?_⟩
  · rw [kindAt_eq (pathOf_ok hne hi') hv', kindAt_eq (pathOf_ok hne hi) hv, hsize, hkind]
  · rw [contentAt_eq (pathOf_ok hne hi') hv', contentAt_eq (pathOf_ok hne hi) hv, hbytes]

include h he in
theorem evicted_of_follows (hf : P.Follows w src dst) (hi : w.inodes.pathOf i = some dst) :
    t.inodes.pathOf i = none := by
  rw [Option.eq_none_iff_forall_ne_some]
  intro n hn
  rcases path_before h he hn with ⟨q, hq, -, hqi⟩ | ⟨hni, hfree⟩
  · obtain rfl := Option.some.inj (hqi.symm.trans hi)
    exact he.src_dst hq.under.1
  · obtain rfl := Option.some.inj (hni.symm.trans hi)
    obtain ⟨k, hk⟩ := hf.displaced i hi
    exact hfree src Twin.self ⟨reached_self, he.present⟩ k hk

include h he hl in
theorem path_elsewhere (hi : ∀ q, w.inodes.pathOf i = some q → ¬ Under src q ∧ q ≠ dst) :
    t.inodes.pathOf i = w.inodes.pathOf i := by
  cases hpath : w.inodes.pathOf i with
  | none =>
    rw [Option.eq_none_iff_forall_ne_some]
    intro n hn
    rcases path_before h he hn with ⟨q, -, -, hqi⟩ | ⟨hni, -⟩
    · rw [hpath] at hqi
      cases hqi
    · rw [hpath] at hni
      cases hni
  | some q =>
    obtain ⟨hnot, hne⟩ := hi q hpath
    obtain ⟨-, hothers⟩ := Rekeyed.at h.inodes he.src_dst he.dst_src
    have hlinked := InodeTable.pathOf_iff.mp hpath
    rw [InodeTable.pathOf_iff, hothers q (fun hu => (hnot hu).elim) fun n hn _ => ?_]
    · exact hlinked
    · exact hne (he.alone q (hl q i hlinked) hn.under.2)

include h he hl hroot in
theorem identity_iff : P.IdentityKept w t src dst ↔ P.Follows w src dst := by
  constructor
  · exact follows_of_kept h he hl hroot
  · intro hf
    exact ⟨fun i q q' hi hq => moved_of_follows h he hl hroot hf hi hq,
      fun i hi => evicted_of_follows h he hf hi, fun i hi => path_elsewhere h he hl hi⟩

end Identity

/-! Runs. -/

section Rename

variable {fuel parent newparent : Nat} {name newname : Bytes} {flags : UInt32}

theorem run_rename_names (h : (P.rename fuel parent name newparent newname flags).run w = (.ok (), t)) :
    ∃ src dst, w.Names parent name src ∧ w.Names newparent newname dst := by
  obtain ⟨src, v, hsrc, h₁⟩ := run_bind_eq_ok h
  obtain ⟨hn, -, rfl⟩ := run_childPath hsrc
  obtain ⟨dst, v, hdst, -⟩ := run_bind_eq_ok h₁
  obtain ⟨hn', -, rfl⟩ := run_childPath hdst
  exact ⟨src, dst, hn, hn'⟩

variable (hlegal : (Op.rename parent name newparent newname flags).Legal P w)
  (hempty : (Op.rename parent name newparent newname flags).OntoEmpty P w)
  (hn : w.Names parent name src) (hn' : w.Names newparent newname dst)

include hlegal hempty hn hn'

theorem endpoints (hl : P.Linked w) (hords : src.Ordinary) (hordd : dst.Ordinary) :
    P.Endpoints w src dst := by
  obtain ⟨-, hd', hall⟩ := hlegal
  obtain ⟨hsd, hds, r, r', hr, hr', -⟩ := hall src dst hn hn'
  refine ⟨hords, hordd, hsd, hds, ⟨r, hr⟩, hl.above_child hd' hn', fun q hs hu => ?_⟩
  by_cases hdir : ∃ bt, r' = some (.dir bt)
  · obtain ⟨bt, rfl⟩ := hdir
    exact hs.eq_of_empty (hempty dst bt hn' hr') hu
  · exact hs.eq_of_under hr' (fun bt heq => hdir ⟨bt, heq⟩) hu

theorem bare_dst (ha : P.Anchored w.ns) (hordd : dst.Ordinary) : w.ns.Bare dst := by
  obtain ⟨-, hd', hall⟩ := hlegal
  obtain ⟨-, -, -, r', -, hr', -⟩ := hall src dst hn hn'
  have hunmasked : w.overlay.ancestorTombstoned dst = false := by
    obtain ⟨dir, bt, hdir, hres⟩ := hd'
    obtain ⟨dir', hdir', hch⟩ := hn'
    obtain rfl : dir = dir' := Except.ok.inj (hdir.symm.trans hdir')
    exact unmasked_child ha hres hch
  by_cases hdir : ∃ bt, r' = some (.dir bt)
  · obtain ⟨bt, rfl⟩ := hdir
    intro m hu hne hm
    obtain ⟨n, c, hc, hcm⟩ := exists_child_under hu hne
    have hnone := hempty dst bt hn' hr' n c hc
    have hordc := hc.ordinary hordd.1
    have hnot : w.overlay.lookup c ≠ some .dir := fun hl => there_of_entry hl (by simp) hnone
    have hcne : c ≠ m := by
      intro heq
      subst heq
      exact hnot hm
    rcases ha.above m hm c hc.ne_root hcm hcne with hl | ⟨hl, b, hb⟩
    · exact hnot hl
    · rw [resolve_unset hordc hl, unmasked_child ha hr' hc, if_neg (by simp), hb] at hnone
      cases hnone
  · refine ha.bare hordd.1 (not_passable hordd (fun _ => hunmasked) hr' ?_)
    cases r' with
    | none => trivial
    | some r' =>
      exact leaf_of_resolve hordd hr' (Resolved.isDir_eq_false fun bt heq => hdir ⟨bt, congrArg some heq⟩)

omit hempty in
theorem relocated_rename (h : (P.rename fuel parent name newparent newname flags).run w = (.ok (), t)) :
    src.Ordinary ∧ dst.Ordinary ∧ P.Relocated w t src dst := by
  obtain ⟨-, -, hall⟩ := hlegal
  obtain ⟨hsd, hds, r, -, hr, -⟩ := hall src dst hn hn'
  obtain ⟨hords, hordd, v, ⟨hov, hino⟩, hrun⟩ := run_rename_begun h hn hn'
  refine ⟨hords, hordd, ?_⟩
  have hrelocated : P.Relocated v t src dst := by
    rcases hrun with ⟨⟨bt, hbt⟩, hrun⟩ | ⟨hdir, hrun⟩
    · rw [← hov] at hbt
      exact relocated_dir hrun ⟨hords, hordd, hsd, hds, fun _ _ _ _ => rfl⟩ hbt
    · refine relocated_file hrun hords (fun heq => hsd (heq ▸ Under.refl src)) (hov ▸ hr) ?_
      exact Resolved.isDir_eq_false fun bt heq => hdir bt (heq ▸ hr)
  have hns : v.ns = w.ns := congrArg (fun ov => ov.index.entries) hov
  refine ⟨?_, ?_, ?_, ?_, ?_⟩
  · rw [← hov, ← hino]
    exact hrelocated.inodes
  · rw [← hov]
    exact hrelocated.content
  · rw [← hov]
    exact hrelocated.arrived
  · rw [← hov]
    exact hrelocated.answers
  · rw [← hns]
    exact hrelocated.elsewhere

end Rename

/-- What every state has that an orderly run reaches. -/
structure Kept (P : Projection) (w : World) : Prop where
  anchored : P.Anchored w.ns
  linked : P.Linked w
  root : w.inodes.RootSafe

theorem linked_step {op : Op} (hlinks : P.store.OpaqueLinks P.baselineTree) (hk : P.Kept w)
    (h : OrderlyStep P w op t) : P.Linked t := by
  obtain ⟨⟨hlegal, -, hdirected, fuel, r, hrun, hne, hok⟩, hempty⟩ := h
  have hend : ∀ {α : Type} {m : Handler α} {f : α → Reply} {Φ : World → Prop},
      Ensures Φ m (fun _ => P.Linked) P.Linked → Φ w → (f <$> m).run w = (r, t) → P.Linked t := by
    intro α m f Φ hm hw hrun
    have hh := ensures_map (g := f) hm w hw
    rw [hrun] at hh
    cases r with
    | ok | error => exact hh
    | diverge => exact (hne rfl).elim
  have hl := hk.linked
  cases op with
  | lookup parent name => exact hend linked_lookup ⟨hl, hdirected⟩ hrun
  | getattr ino => exact hend (linked_getattr ino) hl hrun
  | readdir ino => exact hend (linked_readdir hlinks ino) ⟨hl, hk.anchored⟩ hrun
  | forget ino n => exact hend (linked_forget ino n) hl hrun
  | create parent name x => exact hend linked_create ⟨hl, hlegal⟩ hrun
  | openWrite ino trunc => exact hend (linked_openWrite ino trunc) hl hrun
  | truncate ino size => exact hend (linked_truncate ino size) hl hrun
  | unlink parent name => exact hend linked_unlink ⟨hl, hlegal⟩ hrun
  | mkdir parent name => exact hend linked_mkdir ⟨hl, hlegal⟩ hrun
  | rmdir parent name => exact hend linked_rmdir ⟨hl, hlegal⟩ hrun
  | symlink parent name target => exact hend linked_symlink ⟨hl, hlegal⟩ hrun
  | setExecutable ino x => exact hend (linked_setExecutable ino) hl hrun
  | rename parent name newparent newname flags =>
    rw [hok trivial] at hrun
    obtain ⟨_, hrename, -⟩ := run_map_eq_ok hrun
    obtain ⟨src, dst, hn, hn'⟩ := run_rename_names hrename
    obtain ⟨hords, hordd, hrelocated⟩ := relocated_rename hlegal hn hn' hrename
    exact linked_relocated hrelocated (endpoints hlegal hempty hn hn' hl hords hordd) hl

theorem kept_step {op : Op} (hlinks : P.store.OpaqueLinks P.baselineTree) (hk : P.Kept w)
    (h : OrderlyStep P w op t) : P.Kept t := by
  have hlinked := linked_step hlinks hk h
  obtain ⟨⟨hlegal, hwalked, -, fuel, r, hrun, hne, hok⟩, hempty⟩ := h
  have hstep : P.Step w op t := ⟨fuel, r, hrun, hne⟩
  refine ⟨(keeps_anchored P).step hk.anchored ⟨hlegal, hwalked, ?_⟩ hstep, hlinked, rootSafe_step hk.root hstep⟩
  cases op with
  | rename parent name newparent newname flags =>
    rw [hok trivial] at hrun
    obtain ⟨_, hrename, -⟩ := run_map_eq_ok hrun
    intro src dst hn hn' q q' r hm _ _ m hu hne'
    obtain ⟨-, hordd, -⟩ := relocated_rename hlegal hn hn' hrename
    obtain ⟨cs, hcs, -, hq'⟩ := hm
    have hdq : Under dst q' := ⟨cs, hq'.symm⟩
    refine bare_dst hlegal hempty hn hn' hk.anchored hordd m (hdq.trans hu) fun heq => ?_
    subst heq
    rw [hu.antisymm hdq] at hq'
    exact hcs (List.self_eq_append_right.mp hq')
  | lookup | getattr | readdir | forget | create | openWrite | truncate | unlink | mkdir | rmdir | symlink
  | setExecutable => trivial

theorem kept_run {pid : Nat} {journal : Option (State × JournalDir)} {ops : List Op}
    (hlinks : P.store.OpaqueLinks P.baselineTree)
    (hrun : Trace (OrderlyStep P) (World.fresh pid journal) ops w) : P.Kept w := by
  refine hrun.invariant (fun _ _ _ hk h => kept_step hlinks hk h) ⟨anchored_empty, fun q i hq => ?_,
    InodeTable.rootSafe_new⟩
  have hroot : q = root := by
    by_contra hne
    have hupdate : Function.update (fun _ => none) root (some rootIno) q = some i := hq
    rw [Function.update_of_ne hne] at hupdate
    cases hupdate
  exact hroot ▸ shows_root P _

end Projection

/-- In every run in which no directory is renamed onto one with children. -/
theorem rename_keeps_identity (P : Projection) (pid : Nat) (journal : Option (State × JournalDir))
    (hlinks : P.store.OpaqueLinks P.baselineTree) {ops : List Op} {w t : World}
    (hrun : Trace (OrderlyStep P) (World.fresh pid journal) ops w) {fuel parent newparent : Nat}
    {name newname : Bytes} {flags : UInt32} {src dst : RepoPath}
    (hl : (Op.rename parent name newparent newname flags).Legal P w)
    (he : (Op.rename parent name newparent newname flags).OntoEmpty P w)
    (hn : w.Names parent name src) (hn' : w.Names newparent newname dst)
    (h : (P.rename fuel parent name newparent newname flags).run w = (.ok (), t)) :
    P.IdentityKept w t src dst ↔ P.Follows w src dst := by
  have hk := Projection.kept_run hlinks hrun
  obtain ⟨hords, hordd, hrelocated⟩ := Projection.relocated_rename hl hn hn' h
  exact Projection.identity_iff hrelocated (Projection.endpoints hl he hn hn' hk.linked hords hordd)
    hk.linked hk.root

/-- Lookups of `d` and of `d/f`. -/
noncomputable def walked (n : Nat) : World :=
  ([Op.lookup 1 [100], .lookup 2 [102]].take n).foldl
    (fun w op => ((op.handler smallProjection 3).run w).2) (World.fresh 7 none)

theorem walked_run : Trace (OrderlyStep smallProjection) (World.fresh 7 none)
    [.lookup 1 [100], .lookup 2 [102]] (walked 2) := by
  have hd : (walked 1).pathOf 2 = .ok (letter 100) := by decide +kernel
  have hdir : smallProjection.resolve (walked 1).overlay (letter 100) = .ok (some (.dir (some ⟨[2]⟩))) := by
    decide +kernel
  have hstep : ∀ n op, [Op.lookup 1 [100], .lookup 2 [102]][n]? = some op → ¬ op.IsRename →
      ((op.handler smallProjection 3).run (walked n)).1 ≠ .diverge →
      ∃ fuel r, (op.handler smallProjection fuel).run (walked n) = (r, walked (n + 1)) ∧ r ≠ .diverge ∧
        (op.IsRename → r = .ok .unit) := by
    intro n op hop hrename hne
    refine ⟨3, _, Prod.ext rfl ?_, hne, fun h => (hrename h).elim⟩
    rw [walked, walked, List.take_add_one, hop]
    simp
  refine .cons ⟨⟨trivial, trivial, ⟨root, _, rfl, rfl⟩, hstep 0 _ rfl id (by decide +kernel)⟩, trivial⟩ ?_
  exact .cons ⟨⟨trivial, trivial, ⟨_, _, hd, hdir⟩, hstep 1 _ rfl id (by decide +kernel)⟩, trivial⟩ (.nil _)

/-- The directory `d` is renamed to `e`, and the inodes of `d` and of `d/f` go with it. -/
theorem rename_keeps_identity_subtree :
    let w := walked 2
    let t := ((smallProjection.rename 3 rootIno [100] rootIno [101] 0).run w).2
    w.inodes.pathOf 3 = some (ofComponents [[100], [102]] (by decide)) ∧
      smallProjection.IdentityKept w t (letter 100) (letter 101) := by
  have hpath : (walked 2).pathOf rootIno = .ok root := rfl
  have hroot : (walked 2).HasDir smallProjection rootIno := ⟨root, _, rfl, rfl⟩
  have hd : (walked 2).Names rootIno [100] (letter 100) := ⟨root, rfl, rfl⟩
  have he : (walked 2).Names rootIno [101] (letter 101) := ⟨root, rfl, rfl⟩
  have hok : ((smallProjection.rename 3 rootIno [100] rootIno [101] 0).run (walked 2)).1 = .ok () := by
    decide +kernel
  have hnone : smallProjection.resolve (walked 2).overlay (letter 101) = .ok none := by decide +kernel
  have hunlinked : (walked 2).inodes.pathToIno (letter 101) = none := by decide +kernel
  have hlinks : smallStore.OpaqueLinks ⟨[1]⟩ := by
    intro t es e _ hes he hm
    simp only [smallStore] at hes
    grind
  refine ⟨by decide +kernel, (rename_keeps_identity smallProjection 7 none hlinks walked_run
    ⟨hroot, hroot, fun src dst hn hn' => ?_⟩ (fun dst bt hn' hdir => ?_) hd he
    (Prod.ext hok rfl)).mpr ⟨fun j hj => ?_, fun i q q' bt _ hq _ => ⟨none, ?_⟩⟩⟩
  · obtain rfl := names_eq (p := letter 100) hpath rfl hn
    obtain rfl := names_eq (p := letter 101) hpath rfl hn'
    exact ⟨by decide, by decide, .dir (some ⟨[2]⟩), none, by decide +kernel, hnone, by simp⟩
  · obtain rfl := names_eq (p := letter 101) hpath rfl hn'
    cases hnone.symm.trans hdir
  · rw [InodeTable.pathOf_iff, hunlinked] at hj
    cases hj
  · obtain ⟨l, -, hq'⟩ := hq
    have hwalk : smallProjection.baselineResolve q' = .ok none := by
      rw [Projection.baselineResolve, hq']
      rfl
    rw [Projection.baselineTreeAt, hwalk]
    rfl

/-- `mkdir s`, `create s/x`, lookups down to `d/x/y`, `rename s d`. -/
def merging : List Op :=
  [.mkdir 1 [115], .create 2 [120] false, .lookup 1 [100], .lookup 4 [120], .lookup 5 [121],
    .rename 1 [115] 1 [100] 0]

noncomputable def merged (n : Nat) : World :=
  (merging.take n).foldl (fun w op => ((op.handler deepProjection 9).run w).2) (World.fresh 7 none)

theorem merged_step {n : Nat} {op : Op} (hop : merging[n]? = some op)
    (h : ((op.handler deepProjection 9).run (merged n)).1 ≠ .diverge)
    (hok : op.IsRename → ((op.handler deepProjection 9).run (merged n)).1 = .ok .unit) :
    ∃ fuel r, (op.handler deepProjection fuel).run (merged n) = (r, merged (n + 1)) ∧ r ≠ .diverge ∧
      (op.IsRename → r = .ok .unit) := by
  refine ⟨9, _, Prod.ext rfl ?_, h, hok⟩
  rw [merged, merged, List.take_add_one, hop]
  simp

theorem merged_run : Trace (CalledStep deepProjection) (World.fresh 7 none) merging (merged 6) := by
  have hroot : ∀ n, (merged n).pathOf rootIno = .ok root ∧ (merged n).Walked deepProjection rootIno ∧
      (merged n).HasDir deepProjection rootIno :=
    fun n => ⟨rfl, ⟨root, rfl, open_root _ _⟩, root, _, rfl, rfl⟩
  have hs : (merged 1).pathOf 2 = .ok (letter 115) := by decide +kernel
  have hs' : deepProjection.resolve (merged 1).overlay (letter 115) = .ok (some (.dir none)) := by
    decide +kernel
  have hd : (merged 3).pathOf 4 = .ok (letter 100) := by decide +kernel
  have hd' : deepProjection.resolve (merged 3).overlay (letter 100) = .ok (some (.dir (some ⟨[2]⟩))) := by
    decide +kernel
  have hdx : (merged 4).pathOf 5 = .ok dx := by decide +kernel
  have hdx' : deepProjection.resolve (merged 4).overlay dx = .ok (some (.dir (some ⟨[3]⟩))) := by
    decide +kernel
  refine .cons ⟨(hroot 0).2.2, (hroot 0).2.1, trivial, merged_step (n := 0) rfl (by decide +kernel) False.elim⟩ ?_
  refine .cons ⟨⟨⟨letter 115, _, hs, hs'⟩, fun path hpath => ?_⟩, ⟨letter 115, hs, (open_root _ _).child rfl hs'⟩,
    trivial, merged_step (n := 1) rfl (by decide +kernel) False.elim⟩ ?_
  · obtain rfl := names_eq (p := sx) hs rfl hpath
    decide +kernel
  refine .cons ⟨trivial, trivial, (hroot 2).2.2, merged_step (n := 2) rfl (by decide +kernel) False.elim⟩ ?_
  refine .cons ⟨trivial, trivial, ⟨_, _, hd, hd'⟩, merged_step (n := 3) rfl (by decide +kernel) False.elim⟩ ?_
  refine .cons ⟨trivial, trivial, ⟨_, _, hdx, hdx'⟩, merged_step (n := 4) rfl (by decide +kernel) False.elim⟩ ?_
  refine .cons ⟨⟨(hroot 5).2.2, (hroot 5).2.2, fun src dst hn hn' => ?_⟩, ⟨(hroot 5).2.1, (hroot 5).2.1⟩, trivial,
    @merged_step 5 (.rename 1 [115] 1 [100] 0) rfl (by decide +kernel) fun _ => by decide +kernel⟩ (.nil _)
  obtain rfl := names_eq (p := letter 115) (hroot 5).1 rfl hn
  obtain rfl := names_eq (p := letter 100) (hroot 5).1 rfl hn'
  exact ⟨by decide, by decide, .dir none, some (.dir (some ⟨[2]⟩)), by decide +kernel, by decide +kernel,
    by simp [Resolved.isDir]⟩

/-- Every call is one that the kernel makes, and no rename has failed. `rename d g` leaves the inode of
`d/x/y` where it was, for `d/x` is a file since the merge. -/
theorem merged_directory_loses_inode :
    let op : Op := .rename rootIno [100] rootIno [103] 0
    let w := merged 6
    let run := (deepProjection.rename 9 rootIno [100] rootIno [103] 0).run w
    Trace (CalledStep deepProjection) (World.fresh 7 none) merging w ∧ op.Legal deepProjection w ∧
      w.Names rootIno [100] (letter 100) ∧ w.Names rootIno [103] (letter 103) ∧
      deepProjection.resolve w.overlay (letter 103) = .ok none ∧ run.1 = .ok () ∧
      w.inodes.pathOf 6 = some dxy ∧ run.2.inodes.pathOf 6 = some dxy ∧
      ¬ deepProjection.IdentityKept w run.2 (letter 100) (letter 103) := by
  have hpath : (merged 6).pathOf rootIno = .ok root := rfl
  have hroot : (merged 6).HasDir deepProjection rootIno := ⟨root, _, rfl, rfl⟩
  have hbefore : (merged 6).inodes.pathOf 6 = some dxy := by decide +kernel
  have hafter : ((deepProjection.rename 9 rootIno [100] rootIno [103] 0).run (merged 6)).2.inodes.pathOf 6 =
      some dxy := by decide +kernel
  refine ⟨merged_run, ⟨hroot, hroot, fun src dst hn hn' => ?_⟩, ⟨root, rfl, rfl⟩, ⟨root, rfl, rfl⟩,
    by decide +kernel, by decide +kernel, hbefore, hafter, fun hk => ?_⟩
  · obtain rfl := names_eq (p := letter 100) hpath rfl hn
    obtain rfl := names_eq (p := letter 103) hpath rfl hn'
    exact ⟨by decide, by decide, .dir (some ⟨[2]⟩), none, by decide +kernel, by decide +kernel, by simp⟩
  · have hmoved := (hk.moved 6 dxy (ofComponents [[103], [120], [121]] (by decide)) hbefore
      ⟨[[120], [121]], by decide +kernel, by decide +kernel⟩).1
    cases hafter.symm.trans hmoved

end LazyMount
