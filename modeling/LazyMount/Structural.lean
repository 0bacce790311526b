import LazyMount.Carried
import LazyMount.FetchLog

/-! The calls on names ask for no blob, and a rename leaves the content of what it moves as it was. -/

namespace LazyMount

open Function (update)
open RepoPath Prog Handler

namespace Projection

variable {P : Projection} {α : Type}

/-- A step that asks for no blob. -/
def Blobless (l : Action) (_ : World → World) : Prop := l.blob = none

theorem blobless_atom {l : Action} {upd : World → World} {f : World → Except Error α} (h : l.blob = none) :
    Within Blobless Eq (.atom l upd f : Handler α) :=
  within_atom h fun s t hst => by rw [hst]

theorem blobless_read (f : World → Except Error α) : Within Blobless Eq (.read .read f : Handler α) :=
  blobless_atom rfl

theorem blobless_recordChange (path : RepoPath) : Within Blobless Eq (P.recordChange path) := by
  refine within_bind (blobless_atom rfl) fun _ => ?_
  split
  · split
    · exact within_pure ()
    · exact blobless_atom rfl
  · exact within_pure ()

theorem blobless_childPath (parent : Nat) (name : Bytes) : Within Blobless Eq (childPath parent name) := by
  refine within_bind (blobless_read _) fun dir => within_bind (within_liftExcept _) fun path => ?_
  split
  · exact within_fail _
  · exact within_pure path

theorem blobless_push (path : RepoPath) (name : Bytes) (kind : Kind) :
    Within Blobless Eq (push path name kind) :=
  within_bind (within_liftExcept _) fun _ => within_bind (blobless_atom rfl) fun _ => within_pure _

theorem blobless_listBaseline (path : RepoPath) (e : TreeEntry) : Within Blobless Eq (listBaseline path e) := by
  rw [listBaseline]
  split
  · exact within_pure none
  · refine within_bind (within_liftExcept _) fun child => within_bind (blobless_read _) fun o => ?_
    cases o with
    | none => exact blobless_push path e.name e.mode.kind
    | some => exact within_pure none

theorem blobless_listOverlay (path : RepoPath) (child : Bytes × OverlayEntry) :
    Within Blobless Eq (listOverlay path child) := by
  rw [listOverlay]
  split
  · exact within_pure none
  all_goals exact blobless_push path child.1 _

theorem blobless_readdir (ino : Nat) : Within Blobless Eq (P.readdir ino) := by
  refine within_bind (blobless_read _) fun path => within_bind (blobless_read _) fun r => ?_
  split
  · refine within_bind (blobless_read _) fun entries =>
      within_bind (within_collect (blobless_listBaseline path)) fun baseline =>
      within_bind (blobless_read _) fun children =>
      within_bind (within_collect (blobless_listOverlay path)) fun overlay =>
        within_bind ?_ fun gitfile => within_pure _
    split
    · exact blobless_push path gitfileName _
    · exact within_pure none
  · exact within_fail _

theorem blobless_removeName (path : RepoPath) (onBaseline : Bool) :
    Within Blobless Eq (P.removeName path onBaseline) :=
  within_bind (blobless_recordChange path) fun _ => within_bind (blobless_atom rfl) fun _ => blobless_atom rfl

theorem blobless_unlink (parent : Nat) (name : Bytes) : Within Blobless Eq (P.unlink parent name) := by
  refine within_bind (blobless_childPath parent name) fun path => within_bind (blobless_read _) fun b => ?_
  split
  · exact blobless_removeName path true
  · refine within_bind (blobless_read _) fun o => ?_
    cases o with
    | none => exact within_fail _
    | some => exact blobless_removeName path false

theorem blobless_rmdir (parent : Nat) (name : Bytes) : Within Blobless Eq (P.rmdir parent name) := by
  refine within_bind (blobless_childPath parent name) fun path => within_bind (blobless_read _) fun empty => ?_
  split
  · refine within_bind (blobless_read _) fun b => ?_
    split
    · exact blobless_removeName path true
    · refine within_bind (blobless_read _) fun o => ?_
      cases o with
      | none => exact within_fail _
      | some => exact blobless_removeName path false
  · exact within_fail _

theorem blobless_mkdir (parent : Nat) (name : Bytes) : Within Blobless Eq (P.mkdir parent name) := by
  refine within_bind (blobless_childPath parent name) fun path => within_bind (blobless_read _) fun r => ?_
  cases r with
  | some => exact within_fail _
  | none =>
    exact within_bind (blobless_recordChange path) fun _ => within_bind (blobless_atom rfl) fun _ =>
      within_bind (blobless_atom rfl) fun _ => within_pure _

theorem blobless_symlink (parent : Nat) (name target : Bytes) :
    Within Blobless Eq (P.symlink parent name target) :=
  within_bind (blobless_childPath parent name) fun path => within_bind (blobless_recordChange path) fun _ =>
    within_bind (blobless_atom rfl) fun _ => within_bind (blobless_atom rfl) fun _ => within_pure _

theorem blobless_create (parent : Nat) (name : Bytes) (executable : Bool) :
    Within Blobless Eq (P.create parent name executable) :=
  within_bind (blobless_childPath parent name) fun path => within_bind (blobless_recordChange path) fun _ =>
    within_bind (blobless_atom rfl) fun _ => within_bind (blobless_atom rfl) fun _ => within_pure _

/-- However deep: by induction on the fuel. -/
theorem blobless_renameDir (fuel : Nat) (src dst : RepoPath) :
    Within Blobless Eq (P.renameDir fuel src dst) := by
  induction fuel generalizing src dst with
  | zero => exact within_diverge
  | succ fuel ih =>
    refine within_bind (blobless_atom rfl) fun _ => within_bind (blobless_read _) fun kids =>
      within_bind (within_each fun kid => ?_) fun _ => within_bind (blobless_atom rfl) fun _ => blobless_atom rfl
    refine within_bind (within_liftExcept _) fun cs => within_bind (within_liftExcept _) fun cd => ?_
    split
    · exact ih cs cd
    · split
      · exact within_bind (blobless_atom rfl) fun _ => blobless_atom rfl
      · exact within_pure ()

theorem blobless_renameFile (src dst : RepoPath) : Within Blobless Eq (P.renameFile src dst) := by
  have hend : ∀ op, Within Blobless Eq
      (do mutate op; mutate (.tombstone src); inodeRename src dst : Handler Unit) := fun op =>
    within_bind (blobless_atom rfl) fun _ => within_bind (blobless_atom rfl) fun _ => blobless_atom rfl
  refine within_bind (blobless_read _) fun o => ?_
  cases o with
  | some e =>
    exact within_bind (blobless_atom rfl) fun _ => within_bind (blobless_read _) fun b =>
      within_bind (within_whenever (blobless_atom rfl)) fun _ => blobless_atom rfl
  | none =>
    refine within_bind (blobless_read _) fun b => ?_
    split
    · exact hend _
    · exact hend _
    · exact within_fail _

theorem blobless_rename (fuel parent : Nat) (name : Bytes) (newparent : Nat) (newname : Bytes) (flags : UInt32) :
    Within Blobless Eq (P.rename fuel parent name newparent newname flags) := by
  refine within_bind (blobless_childPath parent name) fun src =>
    within_bind (blobless_childPath newparent newname) fun dst => ?_
  split
  · exact within_fail _
  · refine within_bind ?_ fun occupied => ?_
    · split
      · exact within_map _ (blobless_read _)
      · exact within_pure false
    split
    · exact within_fail _
    · refine within_bind (blobless_recordChange src) fun _ => within_bind (blobless_recordChange dst) fun _ =>
        within_bind (blobless_read _) fun r => ?_
      split
      · exact blobless_renameDir fuel src dst
      · exact blobless_renameFile src dst

theorem blobless_openWrite (ino : Nat) : Within Blobless Eq (P.openWrite ino true) := by
  refine within_bind (blobless_read _) fun path => within_bind (blobless_atom rfl) fun _ =>
    within_bind (blobless_read _) fun o => ?_
  split
  · exact within_bind (blobless_read _) fun _ => within_bind (within_whenever (blobless_atom rfl)) fun _ =>
      within_pure _
  · refine within_bind (blobless_read _) fun r => ?_
    split
    · exact within_bind (within_pure none) fun _ => blobless_atom rfl
    · exact within_fail _

theorem blobless_truncate (ino : Nat) : Within Blobless Eq (P.truncate ino 0) := by
  refine within_bind (blobless_read _) fun path => within_bind (blobless_read _) fun o => ?_
  split
  · exact within_bind (blobless_atom rfl) fun _ => within_bind (blobless_read _) fun _ => blobless_atom rfl
  · refine within_bind (blobless_read _) fun r => ?_
    split
    · exact within_bind (blobless_atom rfl) fun _ => within_bind (within_pure none) fun _ =>
        within_bind (blobless_atom rfl) fun _ => blobless_atom rfl
    · exact within_fail _

end Projection

theorem Op.Structural.blobless {op : Op} (h : op.Structural) (P : Projection) (fuel : Nat) :
    Within Projection.Blobless Eq (op.handler P fuel) := by
  cases op with
  | readdir ino => exact within_map _ (Projection.blobless_readdir ino)
  | mkdir parent name => exact within_map _ (Projection.blobless_mkdir parent name)
  | unlink parent name => exact within_map _ (Projection.blobless_unlink parent name)
  | rmdir parent name => exact within_map _ (Projection.blobless_rmdir parent name)
  | symlink parent name target => exact within_map _ (Projection.blobless_symlink parent name target)
  | create parent name executable => exact within_map _ (Projection.blobless_create parent name executable)
  | rename parent name newparent newname flags =>
    exact within_map _ (Projection.blobless_rename fuel parent name newparent newname flags)
  | openWrite ino trunc =>
    obtain rfl : trunc = true := h
    exact within_map _ (Projection.blobless_openWrite ino)
  | truncate ino size =>
    obtain rfl : size = 0 := h
    exact within_map _ (Projection.blobless_truncate ino)
  | lookup | getattr | forget | setExecutable => exact h.elim

theorem Op.Structural.fetched {op : Op} (h : op.Structural) (P : Projection) (fuel : Nat) (w : World) :
    (op.handler P fuel).fetched w = [] := by
  refine List.filterMap_eq_nil_iff.mpr fun l hl => ?_
  obtain ⟨upd, hblob⟩ := (h.blobless P fuel).labels hl
  exact hblob

namespace Projection

variable {P : Projection} {ov ov' : Overlay} {w₀ : World} {q q' src dst : RepoPath} {r r' : Resolved}
  {e : OverlayEntry} {bt : Option ObjectId} {fuel parent newparent : Nat} {name newname : Bytes}
  {flags : UInt32}

/-- The entry has, anywhere, what resolves at `q` to `r`. -/
inductive Bears (ov : Overlay) (q : RepoPath) : Resolved → OverlayEntry → Prop
  | entry {r : Resolved} {e : OverlayEntry} (h : ov.lookup q = some e) (hr : r.isDir = false) : Bears ov q r e
  | ref (oid : ObjectId) (mode : GitMode) : Bears ov q (baserefResolved oid mode) (.baseRef oid mode)

theorem alike_baserefResolved (oid : ObjectId) (mode : GitMode) :
    Alike ov ov' (baserefResolved oid mode) (baserefResolved oid mode) := by
  cases mode with
  | regular | executable => exact .blob oid _
  | symlink => exact .symlink _
  | tree | gitlink => exact .blob oid false

theorem alike_of_bears (hq : q.Ordinary) (hq' : q'.Ordinary) (hv : P.resolve ov q = .ok (some r))
    (hb : Bears ov q r e) (hl : ov'.lookup q' = some e) :
    ∃ r', P.resolve ov' q' = .ok (some r') ∧ Alike ov ov' r r' := by
  rw [resolve_entry hq' hl]
  cases hb with
  | entry h hr =>
    rw [resolve_entry hq h] at hv
    cases e with
    | file c x =>
      cases hv
      exact ⟨_, rfl, .content h hl x⟩
    | symlink target =>
      cases hv
      exact ⟨_, rfl, .symlink _⟩
    | dir =>
      obtain ⟨bt, heq, -⟩ := dir_of_entryResolved hv
      cases heq
      cases hr
    | tombstone => cases hv
    | baseRef oid mode =>
      cases hv
      exact ⟨_, rfl, alike_baserefResolved oid mode⟩
  | ref oid mode => exact ⟨_, rfl, alike_baserefResolved oid mode⟩

theorem nodeOf_alike (h : Alike ov ov' r r') (hc : ov'.disk.content = ov.disk.content) :
    P.nodeOf ov' r' = P.nodeOf ov r := by
  cases h with
  | dir | gitfile | blob => rfl
  | content hl hl' x => simp only [nodeOf, Overlay.readContent, Overlay.openContent, hl, hl', hc]
  | symlink source => cases source <;> rfl

theorem visible_of_bears (hq : q.Ordinary) (hq' : q'.Ordinary) (hv : P.resolve ov q = .ok (some r))
    (hb : Bears ov q r e) (hl : ov'.lookup q' = some e) (hc : ov'.disk.content = ov.disk.content) :
    P.visible ov' q' = P.visible ov q := by
  obtain ⟨r', hv', halike⟩ := alike_of_bears hq hq' hv hb hl
  rw [visible, visible, hv, hv']
  simp only [seen, nodeOf_alike halike hc]

theorem Lands.bears (h : Lands P ov.index.entries ov'.index.entries q q' r) (hx : r.isDir = false) :
    ∃ e, Bears ov q r e ∧ ov'.lookup q' = some e := by
  cases h with
  | dir => cases hx
  | entry he hr hl hs hd => exact ⟨_, .entry hl hx, hd⟩
  | ref hr hs hd =>
    subst hr
    exact ⟨_, .ref _ _, hd⟩

/-- A file or symlink at or beneath `src`, with nothing but visible directories in between. -/
def FileOf (P : Projection) (ov : Overlay) (src q : RepoPath) : Prop :=
  Reached (P.resolve ov) src q ∧ ∃ r, P.resolve ov q = .ok (some r) ∧ r.isDir = false

/-- All files are at their new paths with what they had. -/
def Arrive (P : Projection) (ov : Overlay) (src dst : RepoPath) (ov' : Overlay) : Prop :=
  ∀ q q', Twin src dst q q' → P.FileOf ov src q → P.visible ov' q' = P.visible ov q

/-- Each file is at one of its two paths with what it had. -/
def Remain (P : Projection) (ov : Overlay) (src dst : RepoPath) (ov' : Overlay) : Prop :=
  ∀ q q', Twin src dst q q' → P.FileOf ov src q →
    P.visible ov' q' = P.visible ov q ∨ P.visible ov' q = P.visible ov q

theorem remain_refl (P : Projection) (ov : Overlay) (src dst : RepoPath) : P.Remain ov src dst ov :=
  fun _ _ _ _ => .inr rfl

/-! A directory. -/

theorem arrive_of_shipped (hs : Ships ov ov.index.entries src dst)
    (h : Shipped P (P.resolve ov) ov.index.entries src dst ov'.index.entries)
    (hc : ov'.disk.content = ov.disk.content) : P.Arrive ov src dst ov' := by
  intro q q' hq hf
  obtain ⟨hr, r, hv, hx⟩ := hf
  obtain ⟨e, hb, hl⟩ := (h.taken q q' r hq hr hv).bears hx
  exact visible_of_bears (ordinary_under hs.src_ordinary hq.under.1)
    (ordinary_under hs.dst_ordinary hq.under.2) hv hb hl hc

theorem remain_of_halfway (hs : Ships ov ov.index.entries src dst)
    (h : Halfway P (P.resolve ov) ov.index.entries src dst ov'.index.entries)
    (ho : Elsewhere ov.index.entries src dst ov'.index.entries)
    (hc : ov'.disk.content = ov.disk.content) : P.Remain ov src dst ov' := by
  intro q q' hq hf
  obtain ⟨hr, r, hv, hx⟩ := hf
  rcases h q q' r hq hr hv hx with hlands | hsame
  · obtain ⟨e, hb, hl⟩ := hlands.bears hx
    exact .inl (visible_of_bears (ordinary_under hs.src_ordinary hq.under.1)
      (ordinary_under hs.dst_ordinary hq.under.2) hv hb hl hc)
  · refine .inr (visible_congr (fun m hm => ?_) fun c x _ => congrFun hc c)
    by_cases hu : Under src m
    · exact hsame m hu hm
    · refine ho m hu fun hd => ?_
      rcases under_or_under hm hq.under.1 with hms | hsm
      · exact hs.dst_src (hd.trans hms)
      · exact hu hsm

theorem ensures_renameDir_files (hs : Ships ov ov.index.entries src dst)
    (hsrc : P.resolve ov src = .ok (some (.dir bt))) (fuel : Nat) :
    Ensures (fun w => w.overlay = ov) (P.renameDir fuel src dst) (fun _ w => P.Arrive ov src dst w.overlay)
      fun w => P.Remain ov src dst w.overlay := by
  refine ensures_from fun w hw => ?_
  subst hw
  have hmoves := ensures_mono (moves fuel src dst w.ns bt hs hsrc)
    (P := fun v => v.ns = w.ns ∧ v.inodes.pathToIno = w.inodes.pathToIno ∧
      v.overlay.disk.content = w.overlay.disk.content) (fun v hv => hv.1) (fun _ _ h => h) fun _ h => h
  refine ensures_mono (ensures_and hmoves (carries fuel src dst w.ns bt _ _ hs hsrc)) (fun v hv => ?_)
    (fun _ v hv => arrive_of_shipped hs hv.1.1 hv.2.2) fun v hv => remain_of_halfway hs hv.2.1 hv.1 hv.2.2
  rw [hv]
  exact ⟨rfl, rfl, rfl⟩

/-! A file or a symlink. -/

theorem ensures_renameFile_visible (hs : src.Ordinary) (hd : dst.Ordinary) (hne : src ≠ dst)
    (hv : P.resolve ov src = .ok (some r)) (hx : r.isDir = false) :
    Ensures (fun w => w.overlay = ov) (P.renameFile src dst)
      (fun _ w => P.visible w.overlay dst = P.visible ov src)
      fun w => P.visible w.overlay dst = P.visible ov src ∨ P.visible w.overlay src = P.visible ov src := by
  have hstays : ∀ w : World, w.overlay = ov →
      P.visible w.overlay dst = P.visible ov src ∨ P.visible w.overlay src = P.visible ov src :=
    fun w hw => .inr (by rw [hw])
  -- once the destination has the entry, the rest leaves it there
  let There (e : OverlayEntry) (w : World) : Prop :=
    w.overlay.lookup dst = some e ∧ w.overlay.disk.content = ov.disk.content
  have hthere : ∀ e, Bears ov src r e → ∀ w, There e w → P.visible w.overlay dst = P.visible ov src :=
    fun e hb w hw => visible_of_bears hs hd hv hb hw.1 hw.2
  have hmask : ∀ e, Ensures (fun w => There e w ∧ ∀ c x, w.overlay.lookup src ≠ some (.file c x))
      (mutate (.tombstone src)) (fun _ => There e)
      fun w => P.visible w.overlay dst = P.visible ov src ∨ P.visible w.overlay src = P.visible ov src := by
    intro e
    refine ensures_atom (fun w _ hw _ => ?_) fun _ _ _ he => by cases he
    refine ⟨?_, (content_tombstone hw.2).trans hw.1.2⟩
    rw [Overlay.lookup_step (by simpa [OverlayOp.touched] using hne.symm)]
    exact hw.1.1
  have hinode : ∀ e, Bears ov src r e → Ensures (There e) (inodeRename src dst)
      (fun _ w => P.visible w.overlay dst = P.visible ov src)
      fun w => P.visible w.overlay dst = P.visible ov src ∨ P.visible w.overlay src = P.visible ov src :=
    fun e hb => ensures_atom (fun w _ hw _ => hthere e hb w hw) fun _ _ _ he => by cases he
  refine ensures_bind (ensures_read (fun w o hw ho => ?_) hstays)
    (Q := fun o w => ov.lookup src = o ∧ w.overlay = ov) fun o => ensures_of fun ho => ?_
  · rw [← hw]
    exact ⟨Except.ok.inj ho, rfl⟩
  cases o with
  | some e =>
    have hb : Bears ov src r e := .entry ho hx
    refine ensures_bind (Q := fun _ w => There e w ∧ ∀ c x, w.overlay.lookup src ≠ some (.file c x))
      (ensures_atom (fun w _ hw _ => ?_) fun _ _ _ he => by cases he) fun _ => ?_
    · subst hw
      have hlook := Overlay.lookup_rename ho dst
      refine ⟨⟨?_, Overlay.content_rename w.overlay src dst⟩, fun c x => ?_⟩
      · show (w.overlay.step (.rename src dst)).lookup dst = some e
        rw [hlook, Function.update_of_ne hne.symm, Function.update_self]
      · show (w.overlay.step (.rename src dst)).lookup src ≠ _
        rw [hlook, Function.update_self]
        exact Option.some_ne_none _ ∘ Eq.symm
    refine ensures_bind (ensures_read (fun w _ hw _ => hw) fun w hw => .inl (hthere e hb w hw.1))
      (Q := fun _ w => There e w ∧ ∀ c x, w.overlay.lookup src ≠ some (.file c x)) fun b => ?_
    refine ensures_bind (Q := fun _ => There e) ?_ fun _ => hinode e hb
    cases b with
    | none => exact ensures_pure fun w hw => hw.1
    | some => exact hmask e
  | none =>
    refine ensures_bind (ensures_read (fun w b hw hb => ?_) hstays)
      (Q := fun b w => b = some r ∧ w.overlay = ov) fun b => ensures_of fun hb => ?_
    · rw [resolve_unset hs ho] at hv
      split at hv
      · cases hv
      · exact ⟨Except.ok.inj (hb.symm.trans hv), hw⟩
    subst hb
    have hput : ∀ oid mode, r = baserefResolved oid mode → Ensures (fun w => w.overlay = ov)
        (do mutate (.putBaseRef dst oid mode); mutate (.tombstone src); inodeRename src dst)
        (fun _ w => P.visible w.overlay dst = P.visible ov src)
        fun w => P.visible w.overlay dst = P.visible ov src ∨ P.visible w.overlay src = P.visible ov src := by
      intro oid mode hr
      subst hr
      refine ensures_bind (Q := fun _ w => There (.baseRef oid mode) w ∧
        ∀ c x, w.overlay.lookup src ≠ some (.file c x))
        (ensures_atom (fun w _ hw _ => ?_) fun _ _ _ he => by cases he) fun _ =>
        ensures_bind (hmask _) fun _ => hinode _ (.ref oid mode)
      subst hw
      have hsrc : (w.overlay.step (.putBaseRef dst oid mode)).lookup src = none := by
        rw [Overlay.lookup_step (by simpa [OverlayOp.touched] using hne)]
        exact ho
      refine ⟨⟨?_, Disk.content_persist dst (.baseRef oid mode)⟩, fun c x => ?_⟩
      · show (w.overlay.step (.putBaseRef dst oid mode)).index.entries dst = _
        rw [Overlay.step_entries]
        exact Function.update_self _ _ _
      · show (w.overlay.step (.putBaseRef dst oid mode)).lookup src ≠ _
        rw [hsrc]
        exact Option.some_ne_none _ ∘ Eq.symm
    split
    · rename_i oid x heq
      cases heq
      exact hput oid _ (by cases x <;> rfl)
    · rename_i oid heq
      cases heq
      exact hput oid .symlink rfl
    · exact ensures_fail hstays

theorem fileOf_leaf (hleaf : ∀ bt, P.resolve ov src ≠ .ok (some (.dir bt))) (hu : Under src q)
    (h : P.FileOf ov src q) : q = src := by
  by_contra hne
  exact not_reached_below hu hne hleaf h.1

theorem ensures_renameFile_files (hs : src.Ordinary) (hd : dst.Ordinary) (hne : src ≠ dst)
    {o : Option Resolved} (hv : P.resolve ov src = .ok o) (ho : ∀ bt, o ≠ some (.dir bt)) :
    Ensures (fun w => w.overlay = ov) (P.renameFile src dst) (fun _ w => P.Arrive ov src dst w.overlay)
      fun w => P.Remain ov src dst w.overlay := by
  have hleaf : ∀ bt, P.resolve ov src ≠ .ok (some (.dir bt)) := by
    intro bt h
    rw [hv] at h
    exact ho bt (Except.ok.inj h)
  by_cases hr : ∃ r, o = some r ∧ r.isDir = false
  · obtain ⟨r, rfl, hx⟩ := hr
    refine ensures_mono (ensures_renameFile_visible hs hd hne hv hx) (fun _ h => h) (fun _ w hw => ?_) fun w hw => ?_
    · intro q q' hq hf
      obtain rfl := fileOf_leaf hleaf hq.under.1 hf
      rwa [hq.eq_dst rfl]
    · intro q q' hq hf
      obtain rfl := fileOf_leaf hleaf hq.under.1 hf
      rwa [hq.eq_dst rfl]
  · -- there is no file to move
    have hnone : ∀ q, Under src q → ¬ P.FileOf ov src q := by
      intro q hu hf
      obtain rfl := fileOf_leaf hleaf hu hf
      obtain ⟨-, r, hr', hx⟩ := hf
      exact hr ⟨r, Except.ok.inj (hv.symm.trans hr'), hx⟩
    intro w _
    split
    · exact fun q q' hq hf => (hnone q hq.under.1 hf).elim
    · exact fun q q' hq hf => (hnone q hq.under.1 hf).elim
    · trivial

theorem ensures_rename_files (hn : w₀.Names parent name src) (hn' : w₀.Names newparent newname dst)
    (hne : src ≠ dst) (hapart : ∀ bt, P.resolve w₀.overlay src = .ok (some (.dir bt)) →
      ¬ Under src dst ∧ ¬ Under dst src) (fuel : Nat) (flags : UInt32) :
    Ensures (· = w₀) (P.rename fuel parent name newparent newname flags)
      (fun _ w => P.Arrive w₀.overlay src dst w.overlay) fun w => P.Remain w₀.overlay src dst w.overlay := by
  refine ensures_rename (fun w hw => ?_) (fun src' dst' bt hs hd hords hordd hr => ?_)
    fun src' dst' r hs hd hords hordd hr hdir => ?_
  · rw [hw.1]
    exact P.remain_refl _ src dst
  · obtain rfl := hn.unique hs
    obtain rfl := hn'.unique hd
    obtain ⟨hsd, hds⟩ := hapart bt hr
    exact ensures_weaken (ensures_renameDir_files ⟨hords, hordd, hsd, hds, fun _ _ _ _ => rfl⟩ hr fuel)
      (fun _ hw => hw.1) fun _ _ h => h
  · obtain rfl := hn.unique hs
    obtain rfl := hn'.unique hd
    exact ensures_weaken (ensures_renameFile_files hords hordd hne hr hdir) (fun _ hw => hw.1) fun _ _ h => h

end Projection

/-- No call that lists, makes, removes or moves names, or empties a file, asks for a blob, and it runs alike
whatever the blobs are. A rename that succeeds leaves each file that it moves with its content at the new
path, and one that fails leaves each at one of its two paths. -/
theorem structural_calls_fetch_nothing (P : Projection) (w : World) :
    (∀ (op : Op) (fuel : Nat), op.Structural → (op.handler P fuel).fetched w = [] ∧
      ∀ raw size, (op.handler (P.withBlobs raw size) fuel).run w = (op.handler P fuel).run w) ∧
    ∀ (fuel parent : Nat) (name : Bytes) (newparent : Nat) (newname : Bytes) (flags : UInt32)
      (src dst : RepoPath), w.Names parent name src → w.Names newparent newname dst → src ≠ dst →
      (∀ bt, P.resolve w.overlay src = .ok (some (.dir bt)) → ¬ Under src dst ∧ ¬ Under dst src) →
      ∀ t, ((P.rename fuel parent name newparent newname flags).run w = (.ok (), t) →
          P.Arrive w.overlay src dst t.overlay) ∧
        ∀ e, (P.rename fuel parent name newparent newname flags).run w = (.error e, t) →
          P.Remain w.overlay src dst t.overlay := by
  constructor
  · intro op fuel hop
    refine ⟨hop.fetched P fuel w, fun raw size => ?_⟩
    have hsame : ∀ l ∈ (op.handler P fuel).labels w, l.Same P raw size := by
      rintro l hl blob rfl
      have hnone := List.filterMap_eq_nil_iff.mp (hop.fetched P fuel w) _ hl
      cases hnone
    exact (op.alone P raw size fuel w hsame).1
  · intro fuel parent name newparent newname flags src dst hn hn' hne hapart t
    have hfiles := Projection.ensures_rename_files hn hn' hne hapart fuel flags w rfl
    constructor
    · intro h
      rw [h] at hfiles
      exact hfiles
    · intro e h
      rw [h] at hfiles
      exact hfiles

/-- The directory `d` is renamed to `e`. -/
theorem structural_calls_fetch_nothing_moved :
    let w := World.fresh 7 none
    let op := Op.rename rootIno [100] rootIno [101] 0
    (op.handler smallProjection 3).fetched w = [] ∧
      (∀ raw size, (op.handler (smallProjection.withBlobs raw size) 3).run w =
        (op.handler smallProjection 3).run w) ∧
    smallProjection.Arrive w.overlay (letter 100) (letter 101)
      ((smallProjection.rename 3 rootIno [100] rootIno [101] 0).run w).2.overlay := by
  have hok : ((smallProjection.rename 3 rootIno [100] rootIno [101] 0).run (World.fresh 7 none)).1 = .ok () := by
    decide +kernel
  obtain ⟨hfetch, hfiles⟩ := structural_calls_fetch_nothing smallProjection (World.fresh 7 none)
  obtain ⟨hnone, halike⟩ := hfetch (.rename rootIno [100] rootIno [101] 0) 3 trivial
  exact ⟨hnone, halike, (hfiles 3 rootIno [100] rootIno [101] 0 (letter 100) (letter 101)
    ⟨root, rfl, rfl⟩ ⟨root, rfl, rfl⟩ (by decide) (fun _ _ => ⟨by decide, by decide⟩) _).1 (Prod.ext hok rfl)⟩

/-- One file, `d/d/d`. -/
def nestedStore : GitStore where
  readTree oid :=
    if oid.raw = [1] then .ok [⟨[100], .tree, ⟨[2]⟩⟩]
    else if oid.raw = [2] then .ok [⟨[100], .tree, ⟨[4]⟩⟩]
    else if oid.raw = [4] then .ok [⟨[100], .regular, ⟨[3]⟩⟩]
    else .error ⟨.offlineMissingObject, "object not found"⟩
  readBlobRaw _ := .ok [120]
  objectSize _ := .ok 1

noncomputable def nestedProjection : Projection := { smallProjection with store := nestedStore }

/-- What is renamed to itself is gone, and so is `d/d/d` if `d/d` is renamed to `d`. -/
theorem overlapping_rename_loses_file :
    (let w := World.fresh 7 none
    let t := (smallProjection.rename 3 rootIno [97] rootIno [97] 0).run w
    t.1 = .ok () ∧ smallProjection.visible w.overlay (letter 97) = .ok (some (.file false [120])) ∧
      smallProjection.visible t.2.overlay (letter 97) = .ok none ∧
      ¬ smallProjection.Arrive w.overlay (letter 97) (letter 97) t.2.overlay) ∧
    let w := (((Op.lookup rootIno [100]).handler nestedProjection 3).run (World.fresh 7 none)).2
    let t := (nestedProjection.rename 3 2 [100] rootIno [100] 0).run w
    let dd := ofComponents [[100], [100]] (by decide)
    let ddd := ofComponents [[100], [100], [100]] (by decide)
    t.1 = .ok () ∧ nestedProjection.visible w.overlay ddd = .ok (some (.file false [120])) ∧
      nestedProjection.visible t.2.overlay dd = .ok none ∧
      ¬ nestedProjection.Arrive w.overlay dd (letter 100) t.2.overlay := by
  constructor
  · intro w t
    have hbefore : smallProjection.visible w.overlay (letter 97) = .ok (some (.file false [120])) := by
      decide +kernel
    have hafter : smallProjection.visible t.2.overlay (letter 97) = .ok none := by decide +kernel
    have hfile : smallProjection.resolve w.overlay (letter 97) = .ok (some (.file (.baseline ⟨[3]⟩) false)) := by
      decide +kernel
    refine ⟨by decide +kernel, hbefore, hafter, fun h => ?_⟩
    have hkept := h (letter 97) (letter 97) Twin.self ⟨Projection.reached_self, _, hfile, rfl⟩
    rw [hbefore, hafter] at hkept
    cases hkept
  · intro w t dd ddd
    have hbefore : nestedProjection.visible w.overlay ddd = .ok (some (.file false [120])) := by decide +kernel
    have hafter : nestedProjection.visible t.2.overlay dd = .ok none := by decide +kernel
    have hfile : nestedProjection.resolve w.overlay ddd = .ok (some (.file (.baseline ⟨[3]⟩) false)) := by
      decide +kernel
    have hdir : nestedProjection.resolve w.overlay dd = .ok (some (.dir (some ⟨[4]⟩))) := by decide +kernel
    have hchild : Child dd [100] ddd := rfl
    have hreached : Projection.Reached (nestedProjection.resolve w.overlay) dd ddd :=
      (Projection.reached_child hdir hchild (Under.refl ddd)).mpr Projection.reached_self
    refine ⟨by decide +kernel, hbefore, hafter, fun h => ?_⟩
    have hkept := h ddd dd ⟨[[100]], rfl, rfl⟩ ⟨hreached, _, hfile, rfl⟩
    rw [hbefore, hafter] at hkept
    cases hkept

end LazyMount
