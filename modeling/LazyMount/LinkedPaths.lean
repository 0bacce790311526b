import LazyMount.HandlerSpecs
import LazyMount.ListingLookup
import LazyMount.TableSteps

/-! Every path with an inode shows: there is something, and nothing but directories above it. -/

namespace LazyMount

open RepoPath Prog Handler

namespace InodeTable

variable {t : InodeTable} {p q : RepoPath} {i : Nat}

theorem pathOf_iff : t.pathOf i = some p ↔ t.pathToIno p = some i := by
  rw [t.pathToIno_iff, pathOf, Option.bind_eq_some_iff]

theorem linked_of_lookup (h : (t.lookup p).2.pathToIno q = some i) : q = p ∨ t.pathToIno q = some i := by
  unfold lookup at h
  split at h
  · split at h
    · exact .inr h
    · exact .inr h
  · by_cases hq : q = p
    · exact .inl hq
    · exact .inr ((Function.update_of_ne hq _ _).symm.trans h)

theorem linked_of_unlink (h : (t.unlink p).pathToIno q = some i) : q ≠ p ∧ t.pathToIno q = some i := by
  unfold unlink at h
  split at h
  · have hq : q ≠ p := by
      intro heq
      subst heq
      cases (Function.update_self _ _ _).symm.trans h
    exact ⟨hq, (Function.update_of_ne hq _ _).symm.trans h⟩
  · rename_i hnone
    refine ⟨fun heq => ?_, h⟩
    rw [heq, hnone] at h
    cases h

theorem pathToIno_forget (t : InodeTable) (ino n : Nat) : (t.forget ino n).pathToIno = t.pathToIno := by
  unfold forget
  split
  · rfl
  · split
    · split <;> rfl
    · rfl

end InodeTable

namespace Projection

variable {P : Projection} {ov ov' : Overlay} {w v : World} {p q dir : RepoPath} {r : Option Resolved}
  {bt : Option ObjectId} {parent ino : Nat} {name : Bytes} {x : Bool} {α : Type}

/-- Something is there and only directories are above, as far as they can be read. -/
structure Shows (P : Projection) (ov : Overlay) (q : RepoPath) : Prop where
  there : P.resolve ov q ≠ .ok none
  above : ∀ m r, Under m q → m ≠ q → P.resolve ov m = .ok r → ∃ bt, r = some (.dir bt)

def Linked (P : Projection) (w : World) : Prop := ∀ q i, w.inodes.pathToIno q = some i → P.Shows w.overlay q

/-- A path whose entry may come and go: the others with inodes show, and none of them is beneath it. -/
structure Site (P : Projection) (p : RepoPath) (w : World) : Prop where
  shows : ∀ q i, w.inodes.pathToIno q = some i → q ≠ p → P.Shows w.overlay q
  alone : ∀ q i, w.inodes.pathToIno q = some i → Under p q → q = p
  above : ∀ m r, Under m p → m ≠ p → P.resolve w.overlay m = .ok r → ∃ bt, r = some (.dir bt)

/-- Before the first step that touches the tree. -/
def Poised (P : Projection) (p : RepoPath) (w : World) : Prop := P.Linked w ∧ P.Site p w

/-- The path shows, whether or not it has an inode. -/
def Known (P : Projection) (p : RepoPath) (w : World) : Prop := P.Linked w ∧ P.Shows w.overlay p

/-! What shows. -/

theorem shows_root (P : Projection) (ov : Overlay) : P.Shows ov root := by
  refine ⟨fun h => ?_, fun _ _ hm hne _ => (hne (eq_root_of_under hm)).elim⟩
  cases h

theorem Shows.of_resolve (h : P.Shows ov q) (hres : ∀ m, Under m q → P.resolve ov m = P.resolve ov' m) :
    P.Shows ov' q := by
  refine ⟨hres q (Under.refl q) ▸ h.there, fun m r hm hne hr => h.above m r hm hne ?_⟩
  rw [hres m hm, hr]

theorem Shows.congr (h : P.Shows ov q) (hov : ∀ m, Under m q → ov.lookup m = ov'.lookup m) :
    P.Shows ov' q := h.of_resolve fun _ hm => resolve_congr fun n hn => hov n (hn.trans hm)

theorem resolve_off_root (hov : ∀ m, m ≠ root → ov.lookup m = ov'.lookup m) (q : RepoPath) :
    P.resolve ov q = P.resolve ov' q := by
  by_cases hq : q = root
  · subst hq
    rfl
  · have hmask : ov.ancestorTombstoned q = ov'.ancestorTombstoned q := by
      rw [Bool.eq_iff_iff, Overlay.ancestorTombstoned_iff, Overlay.ancestorTombstoned_iff]
      exact exists_congr fun m => and_congr_right fun hm => by rw [hov m hm]
    simp only [resolve, hov q hq, hmask]

theorem Shows.child (h : P.Shows ov dir) (hdir : P.resolve ov dir = .ok (some (.dir bt)))
    (hq : Child dir name q) (m : RepoPath) (r : Option Resolved) (hm : Under m q) (hne : m ≠ q)
    (hr : P.resolve ov m = .ok r) : ∃ bt, r = some (.dir bt) := by
  have hmd := ((under_child_iff hq).mp hm).resolve_left hne
  by_cases heq : m = dir
  · subst heq
    exact ⟨bt, Except.ok.inj (hr.symm.trans hdir)⟩
  · exact h.above m r hmd heq hr

/-- Nothing shows beneath what is no directory. -/
theorem Shows.eq_of_under (h : P.Shows ov q) (hr : P.resolve ov p = .ok r) (hleaf : ∀ bt, r ≠ some (.dir bt))
    (hu : Under p q) : q = p := by
  by_contra hne
  obtain ⟨bt, hbt⟩ := h.above p r hu (Ne.symm hne) hr
  exact hleaf bt hbt

/-- Nothing shows beneath a directory without visible children. -/
theorem Shows.eq_of_empty (h : P.Shows ov q) (hkids : ∀ name c, Child p name c → P.resolve ov c = .ok none)
    (hu : Under p q) : q = p := by
  by_contra hne
  obtain ⟨name, c, hc, hcq⟩ := exists_child_under hu hne
  have hnone := hkids name c hc
  by_cases heq : c = q
  · exact h.there (heq ▸ hnone)
  · obtain ⟨bt, hbt⟩ := h.above c none hcq heq hnone
    cases hbt

theorem there_of_entry {e : OverlayEntry} (hl : ov.lookup p = some e) (he : e ≠ .tombstone) :
    P.resolve ov p ≠ .ok none := by
  intro h
  rw [resolve] at h
  split at h
  · cases h
  · split at h
    · cases h
    · rw [hl] at h
      exact he (entryResolved_none_iff.mp h)

theorem linked_of_sameTree (hs : SameTree v w) (h : P.Linked w) : P.Linked v := by
  intro q i hq
  rw [hs.2] at hq
  rw [hs.1]
  exact h q i hq

theorem Linked.shows (h : P.Linked w) (hp : w.pathOf ino = .ok p) : P.Shows w.overlay p := by
  rw [World.pathOf] at hp
  split at hp
  · cases hp
    exact shows_root P w.overlay
  · split at hp
    · rename_i hpath
      cases hp
      exact h _ _ (InodeTable.pathOf_iff.mp hpath)
    · cases hp

theorem Linked.lookup (h : P.Linked w) (hp : P.Shows w.overlay p) :
    P.Linked { w with inodes := (w.inodes.lookup p).2 } := by
  intro q i hq
  rcases InodeTable.linked_of_lookup hq with rfl | hq
  · exact hp
  · exact h q i hq

/-! Sites. -/

theorem Linked.site (h : P.Linked w) (habove : ∀ m r, Under m p → m ≠ p →
    P.resolve w.overlay m = .ok r → ∃ bt, r = some (.dir bt))
    (halone : ∀ q, P.Shows w.overlay q → Under p q → q = p) : P.Site p w :=
  ⟨fun q i hq _ => h q i hq, fun q i hq => halone q (h q i hq), habove⟩

theorem Linked.above_child (h : P.Linked w) (hd : w.HasDir P parent) (hn : w.Names parent name p)
    (m : RepoPath) (r : Option Resolved) (hm : Under m p) (hne : m ≠ p) (hr : P.resolve w.overlay m = .ok r) :
    ∃ bt, r = some (.dir bt) := by
  obtain ⟨dir, bt, hdir, hres⟩ := hd
  obtain ⟨dir', hdir', hch⟩ := hn
  obtain rfl : dir = dir' := Except.ok.inj (hdir.symm.trans hdir')
  exact (h.shows hdir).child hres hch m r hm hne hr

theorem Linked.site_leaf (h : P.Linked w) (hd : w.HasDir P parent) (hn : w.Names parent name p)
    (hr : P.resolve w.overlay p = .ok r) (hleaf : ∀ bt, r ≠ some (.dir bt)) : P.Site p w :=
  h.site (h.above_child hd hn) fun _ hq => hq.eq_of_under hr hleaf

theorem Site.linked (h : P.Site p w) (hp : P.resolve w.overlay p ≠ .ok none) : P.Linked w := by
  intro q i hq
  by_cases heq : q = p
  · exact heq ▸ ⟨hp, h.above⟩
  · exact h.shows q i hq heq

theorem Site.unlink (h : P.Site p w) : P.Linked { w with inodes := w.inodes.unlink p } := by
  intro q i hq
  obtain ⟨hne, hq⟩ := InodeTable.linked_of_unlink hq
  exact h.shows q i hq hne

theorem Site.op {op : OverlayOp} (h : P.Site p w) (hop : ∀ n ∈ op.touched, n = p) :
    P.Site p { w with overlay := w.overlay.step op } := by
  have hframe : ∀ q, ¬ Under p q → ∀ m, Under m q → w.overlay.lookup m = (w.overlay.step op).lookup m := by
    intro q hq m hm
    refine (Overlay.lookup_step fun hmem => hq ?_).symm
    rw [← hop m hmem]
    exact hm
  refine ⟨fun q i hq hne => (h.shows q i hq hne).congr (hframe q fun hu => hne (h.alone q i hq hu)),
    h.alone, fun m r hm hne hr => h.above m r hm hne ?_⟩
  have hnot : ¬ Under p m := fun hu => hne (hm.antisymm hu)
  rw [resolve_congr (hframe m hnot)]
  exact hr

theorem Site.put {op : OverlayOp} {e : OverlayEntry} (h : P.Site p w) (hop : ∀ n ∈ op.touched, n = p)
    (hl : (w.overlay.step op).lookup p = some e) (he : e ≠ .tombstone) :
    P.Known p { w with overlay := w.overlay.step op } := by
  have hs := h.op hop
  have hthere := there_of_entry (P := P) hl he
  exact ⟨hs.linked hthere, hthere, hs.above⟩

theorem Site.sameTree (hs : SameTree v w) (h : P.Site p w) : P.Site p v := by
  obtain ⟨hov, hino⟩ := hs
  refine ⟨?_, ?_, ?_⟩
  · rw [hov, hino]
    exact h.shows
  · rw [hino]
    exact h.alone
  · rw [hov]
    exact h.above

theorem Poised.sameTree (u v : World) (hs : SameTree u v) (h : P.Poised p v) : P.Poised p u :=
  ⟨linked_of_sameTree hs h.1, h.2.sameTree hs⟩

/-! The handlers that touch at most one entry. -/

theorem ensures_still {Φ E : World → Prop} {m : Handler α} (hq : Within P.Quiet SameTree m)
    (ht : Within (TableStep fun _ => False) Eq m) (hΦ : ∀ u v, SameTree u v → Φ v → Φ u)
    (hE : ∀ w, Φ w → E w) : Ensures Φ m (fun _ => Φ) E := by
  intro w hw
  have hov : (m.run w).2.overlay = w.overlay :=
    hq.run (I := fun v => v.overlay = w.overlay) (fun l upd hu v hv => by cases hu <;> exact hv) rfl
  have hino : (m.run w).2.inodes = w.inodes := by
    refine ht.run (I := fun v => v.inodes = w.inodes) (fun l upd hu v hv => ?_) rfl
    cases hu with
    | other h => exact (h v).trans hv
    | inode h => exact h.elim
  have hfinal := hΦ _ w ⟨hov, hino⟩ hw
  rcases hr : m.run w with ⟨r, t⟩
  rw [hr] at hfinal
  cases r with
  | ok a => exact hfinal
  | error e => exact hE t hfinal
  | diverge => trivial

theorem linked_still {m : Handler α} (hq : Within P.Quiet SameTree m)
    (ht : Within (TableStep fun _ => False) Eq m) : Ensures P.Linked m (fun _ => P.Linked) P.Linked :=
  ensures_still hq ht (fun _ _ hs h => linked_of_sameTree hs h) fun _ h => h

theorem poised_recordChange : Ensures (P.Poised p) (P.recordChange p) (fun _ => P.Poised p) P.Linked :=
  ensures_still (quiet_recordChange p) (tableStep_recordChange p) Poised.sameTree fun _ h => h.1

theorem known_createFile (x : Bool) (seed : Option Bytes) :
    Ensures (P.Poised p) (createFile p x seed) (fun _ => P.Known p) P.Linked := by
  refine ensures_atom (fun w c hw _ => ?_) fun _ _ _ he => by cases he
  refine hw.2.put (e := .file w.overlay.newContentId x) (by simp [OverlayOp.touched]) ?_ (by simp)
  show (w.overlay.step (.createFile p x seed)).index.entries p = _
  rw [Overlay.step_entries]
  exact Function.update_self _ _ _

theorem known_mutate {op : OverlayOp} {e : OverlayEntry} (hop : ∀ n ∈ op.touched, n = p)
    (heff : ∀ next ns, op.effect next ns p = some e) (he : e ≠ .tombstone) :
    Ensures (P.Poised p) (mutate op) (fun _ => P.Known p) P.Linked := by
  refine ensures_atom (fun w _ hw _ => hw.2.put hop ?_ he) fun _ _ _ he => by cases he
  show (w.overlay.step op).index.entries p = _
  rw [Overlay.step_entries]
  exact heff _ _

theorem linked_inodeLookup : Ensures (P.Known p) (inodeLookup p) (fun _ => P.Linked) P.Linked :=
  ensures_atom (fun _ _ hw _ => hw.1.lookup hw.2) fun _ _ _ he => by cases he

/-- The path that a call makes or takes away. -/
theorem ensures_begin {L : World → Prop} (hL : ∀ w p, P.Linked w → L w → w.Names parent name p →
    P.Site p w) : Ensures (fun w => P.Linked w ∧ L w) (childPath parent name) P.Poised P.Linked :=
  ensures_weaken (ensures_childPath fun _ hw => hw.1) (fun _ hw => hw) fun p w hw =>
    ⟨hw.1.1, hL w p hw.1.1 hw.1.2 hw.2.1⟩

theorem linked_create : Ensures (fun w => P.Linked w ∧ (Op.create parent name x).Legal P w)
    (P.create parent name x) (fun _ => P.Linked) P.Linked := by
  refine ensures_bind (ensures_begin fun w p hw hl hn => ?_) fun p => ?_
  · exact hw.site_leaf hl.1 hn (hl.2 p hn) (by simp)
  · exact ensures_bind poised_recordChange fun _ => ensures_bind (known_createFile x none) fun _ =>
      ensures_bind linked_inodeLookup fun _ => ensures_pure fun _ h => h

theorem linked_symlink {target : Bytes} :
    Ensures (fun w => P.Linked w ∧ (Op.symlink parent name target).Legal P w)
      (P.symlink parent name target) (fun _ => P.Linked) P.Linked := by
  refine ensures_bind (ensures_begin fun w p hw hl hn => ?_) fun p => ?_
  · exact hw.site_leaf hl.1 hn (hl.2 p hn) (by simp)
  · exact ensures_bind poised_recordChange fun _ =>
      ensures_bind (known_mutate (e := .symlink target) (by simp [OverlayOp.touched])
        (fun _ _ => Function.update_self _ _ _) (by simp)) fun _ =>
      ensures_bind linked_inodeLookup fun _ => ensures_pure fun _ h => h

theorem linked_mkdir : Ensures (fun w => P.Linked w ∧ (Op.mkdir parent name).Legal P w)
    (P.mkdir parent name) (fun _ => P.Linked) P.Linked := by
  refine ensures_bind (ensures_childPath fun _ hw => hw.1) fun p => ?_
  refine ensures_bind (ensures_read (fun w r hw hr => ?_) fun w hw => hw.1.1)
    (Q := fun r w => P.Linked w ∧ (r = none → P.Site p w)) fun r => ?_
  · obtain ⟨⟨hlinked, hd⟩, hn, -⟩ := hw
    refine ⟨hlinked, fun hnone => ?_⟩
    subst hnone
    exact hlinked.site_leaf hd hn hr (by simp)
  cases r with
  | some r => exact ensures_fail fun _ hw => hw.1
  | none =>
    refine ensures_bind (ensures_weaken poised_recordChange (fun w hw => ⟨hw.1, hw.2 rfl⟩) fun _ _ h => h) fun _ =>
      ensures_bind (known_mutate (e := .dir) (by simp [OverlayOp.touched])
        (fun _ _ => Function.update_self _ _ _) (by simp)) fun _ =>
      ensures_bind linked_inodeLookup fun _ => ensures_pure fun _ h => h

theorem linked_removeName (onBaseline : Bool) :
    Ensures (P.Poised p) (P.removeName p onBaseline) (fun _ => P.Linked) P.Linked := by
  refine ensures_bind poised_recordChange fun _ => ensures_bind (Q := fun _ => P.Site p)
    (ensures_atom (fun w _ hw _ => hw.2.op ?_) fun _ _ _ he => by cases he) fun _ =>
    ensures_atom (fun w _ hw _ => hw.unlink) fun _ _ _ he => by cases he
  cases onBaseline <;> simp [OverlayOp.touched]

/-- The end of `unlink` and of `rmdir`. -/
theorem linked_removal (onBaseline : Bool) (e : Error) :
    Ensures (P.Poised p) (if onBaseline then P.removeName p true else do
      match ← lookupEntry p with
      | none => .fail e
      | some _ => P.removeName p false) (fun _ => P.Linked) P.Linked := by
  split
  · exact linked_removeName true
  · refine ensures_bind (ensures_still (quiet_lookupEntry (P := P) p) tableStep_read Poised.sameTree
      fun _ h => h.1) fun o => ?_
    cases o with
    | none => exact ensures_fail fun _ h => h.1
    | some => exact linked_removeName false

theorem linked_unlink : Ensures (fun w => P.Linked w ∧ (Op.unlink parent name).Legal P w)
    (P.unlink parent name) (fun _ => P.Linked) P.Linked := by
  refine ensures_bind (ensures_begin fun w p hw hl hn => ?_) fun p => ?_
  · obtain ⟨r, hr, hdir⟩ := hl.2 p hn
    refine hw.site_leaf hl.1 hn hr fun bt heq => ?_
    cases heq
    cases hdir
  · exact ensures_bind (ensures_still (quiet_baselineResolveStep p) tableStep_read Poised.sameTree
      fun _ h => h.1) fun b => linked_removal b.isSome _

theorem linked_rmdir : Ensures (fun w => P.Linked w ∧ (Op.rmdir parent name).Legal P w)
    (P.rmdir parent name) (fun _ => P.Linked) P.Linked := by
  refine ensures_bind (ensures_childPath fun _ hw => hw.1) fun p => ?_
  refine ensures_bind (ensures_read (fun w b hw hb => ?_) fun _ hw => hw.1.1)
    (Q := fun b w => P.Linked w ∧ (b = true → P.Site p w)) fun b => ?_
  · obtain ⟨⟨hlinked, hl⟩, hn, hp⟩ := hw
    refine ⟨hlinked, fun hempty => ?_⟩
    subst hempty
    refine hlinked.site (hlinked.above_child hl.1 hn) fun q hq hu => hq.eq_of_empty (fun n c hc => ?_) hu
    have hord := hc.ordinary hp.1
    rcases child_of_empty hp.1 hb hc with ht | ⟨hnone, hbase⟩
    · rw [resolve_entry hord ht]
      rfl
    · rw [resolve_unset hord hnone, hbase]
      split <;> rfl
  cases b with
  | false => exact ensures_fail fun _ hw => hw.1
  | true =>
    exact ensures_bind (ensures_read (fun w bt hw _ => (⟨hw.1, hw.2 rfl⟩ : P.Poised p w)) fun _ hw => hw.1)
      fun bt => linked_removal bt.isSome _

/-! The handlers that change a file. -/

theorem Known.sameTree (u v : World) (hs : SameTree u v) (h : P.Known p v) : P.Known p u :=
  ⟨linked_of_sameTree hs h.1, hs.1 ▸ h.2⟩

theorem Known.poised (h : P.Known p w) (hr : P.resolve w.overlay p = .ok r)
    (hleaf : ∀ bt, r ≠ some (.dir bt)) : P.Poised p w :=
  ⟨h.1, h.1.site h.2.above fun _ hq => hq.eq_of_under hr hleaf⟩

theorem known_pathOf (ino : Nat) : Ensures P.Linked (pathOf ino) P.Known P.Linked :=
  ensures_read (fun _ _ hw hp => ⟨hw, hw.shows hp⟩) fun _ h => h

theorem known_recordChangeFile :
    Ensures (P.Known p) (P.recordChangeFile p) (fun _ => P.Known p) P.Linked :=
  ensures_still (quiet_recordChangeFile p) (tableStep_recordChangeFile p) Known.sameTree fun _ h => h.1

theorem known_lookupEntry :
    Ensures (P.Known p) (lookupEntry p) (fun o w => P.Known p w ∧ w.overlay.lookup p = o) P.Linked :=
  ensures_read (fun _ _ hw ho => ⟨hw, Except.ok.inj ho⟩) fun _ h => h.1

theorem linked_editContent (c : ContentId) (f : Bytes → Bytes) :
    Ensures P.Linked (editContent c f) (fun _ => P.Linked) P.Linked := by
  refine ensures_atom (fun w _ hw _ => ?_) fun _ _ _ he => by cases he
  intro q i hq
  refine (hw q i hq).congr fun m _ => ?_
  show _ = (w.overlay.editContent c f).index.entries m
  rw [editContent_index]
  rfl

theorem site_resolveFile : Ensures (P.Known p) (P.resolveStep p)
    (fun r w => P.Linked w ∧ ∀ oid y, r = some (.file (.baseline oid) y) → P.Site p w) P.Linked := by
  refine ensures_read (fun w r hw hr => ⟨hw.1, fun oid y heq => ?_⟩) fun _ h => h.1
  subst heq
  exact (hw.poised hr (by simp)).2

theorem linked_copyUp {m : Handler (Option Bytes)} (hq : Within P.Quiet SameTree m)
    (ht : Within (TableStep fun _ => False) Eq m) (x : Bool) :
    Ensures (P.Poised p) (m >>= fun seed => createFile p x seed) (fun _ => P.Linked) P.Linked :=
  ensures_bind (ensures_still hq ht Poised.sameTree fun _ h => h.1) fun seed =>
    ensures_weaken (known_createFile x seed) (fun _ h => h) fun _ _ h => h.1

theorem linked_openWrite (ino : Nat) (trunc : Bool) :
    Ensures P.Linked (P.openWrite ino trunc) (fun _ => P.Linked) P.Linked := by
  refine ensures_bind (known_pathOf ino) fun p => ensures_bind known_recordChangeFile fun _ =>
    ensures_bind known_lookupEntry fun o => ?_
  split
  · refine ensures_bind (Q := fun _ => P.Linked) (ensures_read (fun _ _ hw _ => hw.1.1) fun _ h => h.1.1) fun c =>
      ensures_bind ?_ fun _ => ensures_pure fun _ h => h
    cases trunc with
    | true => exact linked_editContent c _
    | false => exact ensures_pure fun _ h => h
  · refine ensures_bind (ensures_weaken site_resolveFile (fun _ h => h.1) fun _ _ h => h) fun r => ?_
    split
    · refine ensures_weaken (linked_copyUp ?_ ?_ _) (fun w hw => ⟨hw.1, hw.2 _ _ rfl⟩) fun _ _ h => h
      · split
        · exact within_pure _
        · exact within_map _ (quiet_materialize _)
      · split
        · exact within_pure _
        · exact within_map _ tableStep_read
    · exact ensures_fail fun _ h => h.1

theorem linked_truncate (ino size : Nat) :
    Ensures P.Linked (P.truncate ino size) (fun _ => P.Linked) P.Linked := by
  refine ensures_bind (known_pathOf ino) fun p => ensures_bind known_lookupEntry fun o => ?_
  split
  · refine ensures_bind (ensures_weaken known_recordChangeFile (fun _ h => h.1) fun _ _ h => h) fun _ =>
      ensures_bind (Q := fun _ => P.Linked) (ensures_read (fun _ _ hw _ => hw.1) fun _ h => h.1) fun c =>
        linked_editContent c _
  · refine ensures_bind (ensures_weaken site_resolveFile (fun _ h => h.1) fun _ _ h => h) fun r => ?_
    split
    · refine ensures_bind (Q := fun _ => P.Poised p) (ensures_weaken (ensures_still (quiet_recordChangeFile p)
        (tableStep_recordChangeFile p) Poised.sameTree fun _ h => h.1) (fun w hw => ⟨hw.1, hw.2 _ _ rfl⟩)
        fun _ _ h => h) fun _ => ?_
      refine ensures_bind (Q := fun _ => P.Poised p)
        (ensures_still (P := P) ?_ ?_ Poised.sameTree fun _ h => h.1) fun seed =>
        ensures_bind (known_createFile _ seed) fun c =>
          ensures_weaken (linked_editContent c _) (fun _ h => h.1) fun _ _ h => h
      · split
        · exact within_pure _
        · exact within_map _ (quiet_materialize _)
      · split
        · exact within_pure _
        · exact within_map _ tableStep_read
    · exact ensures_fail fun _ h => h.1

theorem linked_setExecutableBit {c : ContentId} {y : Bool} :
    Ensures (fun w => P.Known p w ∧ w.overlay.lookup p = some (.file c y)) (setExecutableBit p x)
      (fun _ => P.Linked) P.Linked := by
  have hset : ∀ w : World, P.Known p w ∧ w.overlay.lookup p = some (.file c y) →
      P.Linked { w with overlay := w.overlay.step (.setExecutable p x) } := by
    intro w hw
    obtain ⟨hknown, hl⟩ := hw
    by_cases hp : p = root
    · subst hp
      refine fun q i hq => (hknown.1 q i hq).of_resolve fun m _ => resolve_off_root (fun n hn => ?_) m
      exact (Overlay.lookup_step (by simpa [OverlayOp.touched] using hn)).symm
    · obtain ⟨r, hr, hleaf⟩ : ∃ r, P.resolve w.overlay p = .ok r ∧ ∀ bt, r ≠ some (.dir bt) := by
        by_cases hg : p.components = [gitfileName]
        · exact ⟨_, by rw [resolve, if_neg (by rwa [isRoot_iff]), if_pos hg], by simp⟩
        · exact ⟨_, resolve_entry ⟨hp, hg⟩ hl, by simp⟩
      refine ((hknown.poised hr hleaf).2.put (e := .file c x) (by simp [OverlayOp.touched]) ?_ (by simp)).1
      show (w.overlay.step (.setExecutable p x)).index.entries p = _
      rw [Overlay.step_entries]
      simp only [OverlayOp.effect, show w.overlay.index.entries p = _ from hl, Function.update_self]
  exact ensures_atom (fun w _ hw _ => hset w hw) fun w _ hw _ => hset w hw

theorem linked_setExecutable (ino : Nat) :
    Ensures P.Linked (P.setExecutable ino x) (fun _ => P.Linked) P.Linked := by
  refine ensures_bind (known_pathOf ino) fun p => ensures_bind known_recordChangeFile fun _ =>
    ensures_bind known_lookupEntry fun o => ?_
  split
  · exact linked_setExecutableBit
  · refine ensures_bind (ensures_weaken site_resolveFile (fun _ h => h.1) fun _ _ h => h) fun r => ?_
    split
    · rename_i oid y
      have hmaterialize : Ensures (P.Poised p) (P.materialize oid) (fun _ => P.Poised p) P.Linked :=
        ensures_still (quiet_materialize oid) tableStep_read Poised.sameTree fun _ h => h.1
      refine ensures_bind (ensures_weaken hmaterialize (fun w hw => ⟨hw.1, hw.2 _ _ rfl⟩) fun _ _ h => h) fun seed =>
        ensures_bind (known_createFile x (some seed)) fun _ => ensures_pure fun _ h => h.1
    · exact ensures_fail fun _ h => h.1

/-! The handlers that give inodes to paths. -/

theorem linked_attrOf (ino generation : Nat) (r : Resolved) :
    Ensures P.Linked (P.attrOf ino generation r) (fun _ => P.Linked) P.Linked :=
  linked_still (quiet_attrOf ino generation r) (tableStep_attrOf ino generation r)

theorem linked_lookup : Ensures (fun w => P.Linked w ∧ w.HasDir P parent) (P.lookup parent name)
    (fun _ => P.Linked) P.Linked := by
  refine ensures_bind (Q := fun dir w => (P.Linked w ∧ w.HasDir P parent) ∧ w.pathOf parent = .ok dir)
    (ensures_read (fun w dir hw hdir => ⟨hw, hdir⟩) fun _ h => h.1) fun dir => ?_
  refine ensures_bind (Q := fun p w => P.Linked w ∧ w.HasDir P parent ∧ w.Names parent name p)
    (ensures_liftExcept (fun p w hj hw => ?_) fun _ h => h.1.1) fun p => ?_
  · exact ⟨hw.1.1, hw.1.2, dir, hw.2, (join_eq_ok.mp hj).2⟩
  refine ensures_bind (Q := fun r w => P.Linked w ∧ ∀ x, r = some x → P.Known p w)
    (ensures_read (fun w r hw hr => ⟨hw.1, fun y hy => ⟨hw.1, ?_, hw.1.above_child hw.2.1 hw.2.2⟩⟩)
      fun _ h => h.1) fun r => ?_
  · rw [hr, hy]
    simp
  cases r with
  | none => exact ensures_pure fun _ h => h.1
  | some r =>
    exact ensures_bind (ensures_weaken linked_inodeLookup (fun w hw => hw.2 r rfl) fun _ _ h => h) fun i =>
      ensures_bind (linked_attrOf _ _ r) fun _ => ensures_pure fun _ h => h

theorem linked_getattr (ino : Nat) : Ensures P.Linked (P.getattr ino) (fun _ => P.Linked) P.Linked := by
  refine ensures_bind (known_pathOf ino) fun p => ensures_bind (Q := fun _ => P.Known p)
    (ensures_read (fun _ _ hw _ => hw) fun _ h => h.1) fun r => ?_
  cases r with
  | none => exact ensures_fail fun _ h => h.1
  | some r => exact ensures_bind linked_inodeLookup fun _ => linked_attrOf _ _ r

theorem linked_forget (ino n : Nat) : Ensures P.Linked (inodeForget ino n) (fun _ => P.Linked) P.Linked := by
  refine ensures_atom (fun w _ hw _ q i hq => hw q i ?_) fun _ _ _ he => by cases he
  rwa [← InodeTable.pathToIno_forget w.inodes ino n]

/-! Listing. -/

def LinkedIn (P : Projection) (ov : Overlay) (w : World) : Prop := P.Linked w ∧ w.overlay = ov

theorem linked_push (hs : ∀ q, Child dir name q → P.Shows ov q) (kind : Kind) :
    Ensures (P.LinkedIn ov) (push dir name kind) (fun _ => P.LinkedIn ov) P.Linked := by
  refine ensures_bind (Q := fun q w => P.LinkedIn ov w ∧ P.Known q w)
    (ensures_liftExcept (fun q w hj hw => ⟨hw, hw.1, ?_⟩) fun _ h => h.1) fun q => ?_
  · rw [hw.2]
    exact hs q (join_eq_ok.mp hj).2
  refine ensures_bind (Q := fun _ => P.LinkedIn ov)
    (ensures_atom (fun w _ hw _ => ⟨hw.2.1.lookup hw.2.2, hw.1.2⟩) fun _ _ _ he => by cases he) fun _ =>
    ensures_pure fun _ h => h

section Readdir

variable {entries : List TreeEntry} (ha : P.Anchored ov.index.entries)
  (hlinks : P.store.OpaqueLinks P.baselineTree) (hs : P.Shows ov dir)
  (hdir : P.resolve ov dir = .ok (some (.dir bt))) (hes : P.treeEntries bt = .ok entries)

include ha hlinks hs hdir hes

theorem shows_listed {e : TreeEntry} (he : e ∈ entries) (hq : Child dir e.name q)
    (hl : ov.lookup q = none) : P.Shows ov q := by
  refine ⟨fun hnone => ?_, hs.child hdir hq⟩
  by_cases hg : q = gitfilePath
  · rw [hg, resolve_gitfile] at hnone
    cases hnone
  · have hbase := (baseline_listed hlinks hdir hes).2 e.name q hq
    rw [resolve_unset ⟨hq.ne_root, fun h => hg (eq_gitfilePath h)⟩ hl, unmasked_child ha hdir hq,
      if_neg (by simp), hbase] at hnone
    cases hf : entries.find? (·.name = e.name) with
    | none => exact List.find?_eq_none.mp hf e he (by simp)
    | some e' => simp [hf] at hnone

theorem linked_listBaseline {e : TreeEntry} (he : e ∈ entries) :
    Ensures (P.LinkedIn ov) (listBaseline dir e) (fun _ => P.LinkedIn ov) P.Linked := by
  rw [listBaseline]
  split
  · exact ensures_pure fun _ h => h
  refine ensures_bind (Q := fun q w => P.LinkedIn ov w ∧ Child dir e.name q)
    (ensures_liftExcept (fun q w hj hw => ⟨hw, (join_eq_ok.mp hj).2⟩) fun _ h => h.1) fun q => ?_
  refine ensures_bind (Q := fun o w => (Child dir e.name q ∧ ov.lookup q = o) ∧ P.LinkedIn ov w)
    (ensures_read (fun w o hw ho => ?_) fun _ h => h.1.1) fun o => ensures_of fun ho => ?_
  · obtain rfl := hw.1.2
    exact ⟨⟨hw.2, Except.ok.inj ho⟩, hw.1⟩
  cases o with
  | some => exact ensures_pure fun _ h => h
  | none =>
    refine linked_push (fun q' hq' => ?_) _
    obtain rfl : q' = q := (hq'.unique ho.1).mpr rfl
    exact shows_listed ha hlinks hs hdir hes he ho.1 ho.2

omit ha hlinks hes in
theorem linked_listOverlay {child : Bytes × OverlayEntry} (hc : child ∈ P.children ov dir) :
    Ensures (P.LinkedIn ov) (listOverlay dir child) (fun _ => P.LinkedIn ov) P.Linked := by
  have hpush : child.2 ≠ .tombstone → ∀ kind,
      Ensures (P.LinkedIn ov) (push dir child.1 kind) (fun _ => P.LinkedIn ov) P.Linked := by
    intro hlive kind
    refine linked_push (fun q hq => ⟨?_, hs.child hdir hq⟩) kind
    obtain ⟨q', hq', hl⟩ := mem_children.mp hc
    obtain rfl : q' = q := (hq'.unique hq).mpr rfl
    exact there_of_entry hl hlive
  rw [listOverlay]
  split
  · exact ensures_pure fun _ h => h
  all_goals
    rename_i heq
    exact hpush (by simp [heq]) _

end Readdir

theorem linked_readdir (hlinks : P.store.OpaqueLinks P.baselineTree) (ino : Nat) :
    Ensures (fun w => P.Linked w ∧ P.Anchored w.ns) (P.readdir ino) (fun _ => P.Linked) P.Linked := by
  refine ensures_from fun w₀ hw₀ => ?_
  obtain ⟨hlinked, ha⟩ := hw₀
  refine ensures_bind (Q := fun dir w => w₀.pathOf ino = .ok dir ∧ w = w₀)
    (ensures_read (fun w dir hw hdir => by subst hw; exact ⟨hdir, rfl⟩) fun w hw => hw ▸ hlinked) fun dir =>
      ensures_of fun hpath => ?_
  refine ensures_bind (Q := fun r w => P.resolve w₀.overlay dir = .ok r ∧ w = w₀)
    (ensures_read (fun w r hw hr => by subst hw; exact ⟨hr, rfl⟩) fun w hw => hw ▸ hlinked) fun r =>
      ensures_of fun hdir => ?_
  have hs := hlinked.shows hpath
  split
  · rename_i bt
    refine ensures_bind (Q := fun entries w => P.treeEntries bt = .ok entries ∧ P.LinkedIn w₀.overlay w)
      (ensures_read (fun w entries hw hes => by subst hw; exact ⟨hes, hlinked, rfl⟩) fun w hw => hw ▸ hlinked)
      fun entries => ensures_of fun hes => ?_
    refine ensures_bind (ensures_collect (I := P.LinkedIn w₀.overlay) fun e he => ?_) fun _ => ?_
    · exact linked_listBaseline ha hlinks hs hdir hes he
    refine ensures_bind (Q := fun children w => P.children w₀.overlay dir = children ∧ P.LinkedIn w₀.overlay w)
      (ensures_read (fun w children hw hc => ⟨hw.2 ▸ Except.ok.inj hc, hw⟩) fun _ h => h.1)
      fun children => ensures_of fun hc => ?_
    subst hc
    refine ensures_bind (ensures_collect (I := P.LinkedIn w₀.overlay) fun child hc => ?_) fun _ => ?_
    · exact linked_listOverlay hs hdir hc
    refine ensures_bind (Q := fun _ => P.LinkedIn w₀.overlay) ?_ fun _ => ensures_pure fun _ h => h.1
    split
    · rename_i hroot
      obtain rfl := isRoot_iff.mp hroot
      refine linked_push (fun q hq => ⟨?_, hs.child hdir hq⟩) _
      obtain rfl : q = gitfilePath := (hq.unique (child_gitfilePath.mpr rfl)).mpr rfl
      rw [resolve_gitfile]
      simp
    · exact ensures_pure fun _ h => h
  · exact ensures_fail fun w hw => hw ▸ hlinked

end Projection

end LazyMount
