import LazyMount.FileRefinement

/-! Every call on files and symlinks does to the projection what it does to the map. -/

namespace LazyMount

open Function (update)
open RepoPath Prog Handler Transition Projection

namespace Projection

variable {P : Projection} {blob : ObjectId → Bytes} {ov ov' : Overlay}
  {items : RepoPath → Option Item} {p q src dst : RepoPath} {op : OverlayOp}

theorem represents_fresh (P : Projection) (blob : ObjectId → Bytes) (pid : Nat) :
    P.Represents blob (Overlay.fresh pid) (P.baseItem blob) := by
  have hnone : ∀ p e, (Overlay.fresh pid).lookup p ≠ some e := fun _ _ h => by cases h
  exact ⟨Overlay.tidy_fresh pid, fun p e h => (hnone p e h).elim,
    fun p c x h => (hnone p _ h).elim, rfl⟩

theorem itemAt_step (h : ov.Tidy) (hp : p ∉ op.touched) :
    P.itemAt blob (ov.step op) p = P.itemAt blob ov p := by
  rw [itemAt, itemAt, Overlay.lookup_step hp]
  cases he : ov.lookup p with
  | none => rfl
  | some e =>
    cases e with
    | file c x =>
      have hc : (ov.step op).disk.content c = ov.disk.content c :=
        Overlay.content_step (h.ne_newContentId he) fun q hq y hlq =>
          hp (h.unshared p q c x y he hlq ▸ hq)
      simp only [entryItem, hc]
    | symlink | dir | tombstone | baseRef => rfl

namespace Represents

variable (h : P.Represents blob ov items)

include h

theorem set {e : Option OverlayEntry} (hop : op.touched = [p]) (hp : p.Ordinary)
    (hu : P.Undirected p) (hl : (ov.step op).lookup p = e) (hkind : ∀ x, e = some x → x.kind ≠ some .dir)
    (hstored : ∀ c x, e = some (.file c x) → ((ov.step op).disk.content c).isSome) :
    P.Represents blob (ov.step op)
      (update items p (e.elim (P.baseItem blob p) (P.entryItem blob (ov.step op)))) := by
  have hother : ∀ {q}, q ≠ p → q ∉ op.touched := fun hq => by simpa [hop] using hq
  refine ⟨Overlay.tidy_step h.tidy op, fun q x hx => ?_, fun q c x hx => ?_, funext fun q => ?_⟩
  · by_cases hq : q = p
    · subst hq
      exact ⟨hp, hu, hkind x (hl.symm.trans hx)⟩
    · rw [Overlay.lookup_step (hother hq)] at hx
      exact h.placed q x hx
  · by_cases hq : q = p
    · subst hq
      exact hstored c x (hl.symm.trans hx)
    · rw [Overlay.lookup_step (hother hq)] at hx
      have hc : (ov.step op).disk.content c = ov.disk.content c :=
        Overlay.content_step (h.tidy.ne_newContentId hx) fun r hr y hlr =>
          hother hq (h.tidy.unshared q r c x y hx hlr ▸ hr)
      rw [hc]
      exact h.stored q c x hx
  · by_cases hq : q = p
    · subst hq
      rw [Function.update_self, itemAt, hl]
      cases e <;> rfl
    · rw [Function.update_of_ne hq, itemAt_step h.tidy (hother hq), h.items]

theorem putSymlink (hp : p.Ordinary) (hu : P.Undirected p) (target : Bytes) :
    P.Represents blob (ov.step (.putSymlink p target)) (update items p (some (.symlink target))) := by
  have hl : (ov.step (.putSymlink p target)).lookup p = some (.symlink target) :=
    Function.update_self ..
  exact h.set rfl hp hu hl (by simp [OverlayEntry.kind]) (by simp)

theorem putBaseRef (oid : ObjectId) {mode : GitMode} (hp : p.Ordinary) (hu : P.Undirected p)
    (hm : mode.kind ≠ .dir) : P.Represents blob (ov.step (.putBaseRef p oid mode))
      (update items p (P.itemOf blob (baserefResolved oid mode))) := by
  have hl : (ov.step (.putBaseRef p oid mode)).lookup p = some (.baseRef oid mode) :=
    Function.update_self ..
  exact h.set rfl hp hu hl (by simpa [OverlayEntry.kind] using hm) (by simp)

theorem tombstone (hp : p.Ordinary) (hu : P.Undirected p) :
    P.Represents blob (ov.step (.tombstone p)) (update items p none) := by
  have hl : (ov.step (.tombstone p)).lookup p = some .tombstone := Function.update_self ..
  exact h.set rfl hp hu hl (by simp [OverlayEntry.kind]) (by simp)

theorem clear (hp : p.Ordinary) (hu : P.Undirected p) :
    P.Represents blob (ov.step (.clear p)) (update items p (P.baseItem blob p)) := by
  have hl : (ov.step (.clear p)).lookup p = none := Function.update_self ..
  exact h.set rfl hp hu hl (by simp) (by simp)

theorem createFile (hp : p.Ordinary) (hu : P.Undirected p) (x : Bool) (seed : Option Bytes) :
    P.Represents blob (ov.step (.createFile p x seed))
      (update items p (some (.file x (seed.getD [])))) := by
  have hc := Overlay.content_createFile ov p x seed
  have hl : (ov.step (.createFile p x seed)).lookup p = some (.file ov.newContentId x) :=
    Function.update_self ..
  have hset := h.set rfl hp hu hl (by simp [OverlayEntry.kind]) (by simp [hc])
  simpa [entryItem, hc] using hset

theorem setExecutable {c : ContentId} {y : Bool} (hl : ov.lookup p = some (.file c y)) (x : Bool) :
    P.Represents blob (ov.step (.setExecutable p x)) (update items p ((items p).map (.chmod x))) := by
  obtain ⟨hp, hu, -⟩ := h.placed p _ hl
  obtain ⟨bytes, hb⟩ := Option.isSome_iff_exists.mp (h.stored p c y hl)
  have hc : (ov.step (.setExecutable p x)).disk.content c = some bytes := by
    rw [Overlay.content_setExecutable, hb]
  have hl' := Overlay.lookup_setExecutable hl x
  have hset := h.set rfl hp hu hl' (by simp [OverlayEntry.kind]) (by simp [hc])
  have hi : items p = some (.file y bytes) := by simp only [h.items, itemAt, hl, entryItem, hb, Option.map_some]
  simpa [entryItem, hc, hi, Item.chmod] using hset

theorem rename {e : OverlayEntry} (he : ov.lookup src = some e) (hne : src ≠ dst)
    (hp : dst.Ordinary) (hu : P.Undirected dst) : P.Represents blob (ov.step (.rename src dst))
      (update (update items dst (items src)) src (P.baseItem blob src)) := by
  have hl := Overlay.lookup_rename he dst
  have hc : (ov.step (.rename src dst)).disk.content = ov.disk.content :=
    Overlay.content_rename ov src dst
  have hentry : P.entryItem blob (ov.step (.rename src dst)) = P.entryItem blob ov := by
    funext e
    cases e with
    | file c x => simp only [entryItem, hc]
    | symlink | dir | tombstone | baseRef => rfl
  -- an entry there now was at the source, or at its own path
  have horigin : ∀ q x, (ov.step (.rename src dst)).lookup q = some x →
      q = dst ∧ x = e ∨ ov.lookup q = some x := by
    intro q x hx
    rw [hl] at hx
    by_cases hs : q = src
    · rw [hs, Function.update_self] at hx
      cases hx
    · rw [Function.update_of_ne hs] at hx
      by_cases hd : q = dst
      · rw [hd, Function.update_self] at hx
        exact .inl ⟨hd, (Option.some.inj hx).symm⟩
      · exact .inr (by rwa [Function.update_of_ne hd] at hx)
  refine ⟨Overlay.tidy_step h.tidy _, fun q x hx => ?_, fun q c x hx => ?_, funext fun q => ?_⟩
  · rcases horigin q x hx with ⟨rfl, rfl⟩ | hx
    · exact ⟨hp, hu, (h.placed src x he).2.2⟩
    · exact h.placed q x hx
  · rw [hc]
    rcases horigin q _ hx with ⟨rfl, rfl⟩ | hx
    · exact h.stored src c x he
    · exact h.stored q c x hx
  · rw [itemAt, hl, hentry]
    by_cases hs : q = src
    · subst hs
      simp only [Function.update_self]
    · by_cases hd : q = dst
      · subst hd
        simp only [Function.update_of_ne hs, Function.update_self, h.items, itemAt, he]
      · simp only [Function.update_of_ne hs, Function.update_of_ne hd, h.items, itemAt]

theorem edit {c : ContentId} {o : Option RepoPath}
    (ho : ∀ q, (∃ x, ov.lookup q = some (.file c x)) ↔ o = some q) (f : Bytes → Bytes) :
    P.Represents blob (ov.editContent c f)
      (o.elim items fun p => update items p ((items p).map (.edit f))) := by
  have hl := Overlay.lookup_editContent ov c f
  have hstored : ∀ b, (ov.disk.content b).isSome → ((ov.editContent c f).disk.content b).isSome := by
    intro b hb
    by_cases hbc : b = c
    · subst hbc
      obtain ⟨bytes, hb⟩ := Option.isSome_iff_exists.mp hb
      rw [Overlay.content_editContent_self hb]
      rfl
    · rwa [Overlay.content_editContent hbc]
  have hsame : ∀ q, o ≠ some q → P.itemAt blob (ov.editContent c f) q = P.itemAt blob ov q := by
    intro q hq
    rw [itemAt, itemAt, hl]
    cases he : ov.lookup q with
    | none => rfl
    | some e =>
      cases e with
      | file b x =>
        have hb : b ≠ c := fun hbc => hq ((ho q).mp ⟨x, hbc ▸ he⟩)
        simp only [entryItem, Overlay.content_editContent hb]
      | symlink | dir | tombstone | baseRef => rfl
  refine ⟨Overlay.tidy_editContent h.tidy c f, fun q e he => ?_, fun q b x he => ?_, ?_⟩
  · exact h.placed q e (by rwa [hl] at he)
  · exact hstored b (h.stored q b x (by rwa [hl] at he))
  · funext q
    cases o with
    | none => rw [hsame q (by simp), h.items, Option.elim_none]
    | some p =>
      rw [Option.elim_some]
      by_cases hq : q = p
      · subst hq
        obtain ⟨x, he⟩ := (ho q).mpr rfl
        obtain ⟨bytes, hb⟩ := Option.isSome_iff_exists.mp (h.stored q c x he)
        rw [Function.update_self, h.items, itemAt, itemAt, hl, he]
        simp only [entryItem, hb, Overlay.content_editContent_self hb, Option.map_some, Item.edit]
      · rw [Function.update_of_ne hq, hsame q (by simpa using Ne.symm hq), h.items]

theorem place {c : ContentId} {x : Bool} (hl : ov.lookup p = some (.file c x)) (q : RepoPath) :
    (∃ y, ov.lookup q = some (.file c y)) ↔ some p = some q := by
  constructor
  · intro hh
    obtain ⟨y, hy⟩ := hh
    exact congrArg some (h.tidy.unshared p q c x y hl hy)
  · intro hq
    exact ⟨x, Option.some.inj hq ▸ hl⟩

theorem clean {oid : ObjectId} {x : Bool}
    (hr : P.resolve ov p = .ok (some (.file (.baseline oid) x))) :
    p.Ordinary ∧ P.Undirected p ∧ items p = some (.file x (blob oid)) := by
  have hu : P.Undirected p := h.undirected hr (by simp [Resolved.isDir])
  obtain ⟨r, hr', hm⟩ := h.shows hu
  obtain rfl := Except.ok.inj (hr'.symm.trans hr)
  refine ⟨ordinary_of_file hr, hu, ?_⟩
  generalize items p = i at hm ⊢
  cases hm
  rfl

/-- Opened for writing and edited, by a function that a copy-up need not copy for if the blob is
dropped. -/
theorem opens {trunc : Prop} {x : Bool} {c : ContentId} {f : Bytes → Bytes}
    (ho : P.Opens ov p trunc x c ov') (hblob : ∀ oid, P.store.readBlobRaw oid = .ok (blob oid))
    (hf : trunc → ∀ bytes, f [] = f bytes) :
    P.Represents blob (ov'.editContent c f) (update items p ((items p).map (.edit f))) := by
  cases ho with
  | overlay hl _ => exact h.edit (h.place hl) f
  | @baseline oid x seed hr hs =>
    obtain ⟨hord, hu, hi⟩ := h.clean hr
    have hseed : f (seed.getD []) = f (blob oid) := by
      rcases hs with ⟨ht, rfl⟩ | ⟨-, bytes, rfl, hb⟩
      · exact hf ht _
      · rw [hblob] at hb
        rw [Except.ok.inj hb]
        rfl
    have hcreate := h.createFile hord hu x seed
    have hl : (ov.step (.createFile p x seed)).lookup p = some (.file ov.newContentId x) :=
      Function.update_self ..
    have hedit := hcreate.edit (hcreate.place hl) f
    simpa [Function.update_idem, Item.edit, hi, hseed] using hedit

theorem moves (hm : P.Renames ov src dst ov') (hne : src ≠ dst) (hsrc : src.Ordinary)
    (hdst : dst.Ordinary) (hu : P.Undirected src) (hu' : P.Undirected dst) :
    P.Represents blob ov' (update (update items dst (items src)) src none) := by
  cases hm with
  | entry he hb =>
    have hbase : P.baseItem blob src = none := by rw [baseItem, atStart_ordinary hsrc, hb]
    have hmove := h.rename he hne hdst hu'
    rwa [hbase] at hmove
  | covering he hb =>
    have hmove := (h.rename he hne hdst hu').tombstone hsrc hu
    rwa [Function.update_idem] at hmove
  | @clean oid mode he hb hmode =>
    have hi : items src = P.itemOf blob (baserefResolved oid mode) := by
      simp only [h.items, itemAt, he, baseItem, atStart_ordinary hsrc, hb]
    have hmove := (h.putBaseRef oid hdst hu' hmode).tombstone hsrc hu
    rwa [← hi] at hmove

end Represents

/-- The content file is no later one of this process, and belongs to the path `o` if to any. -/
structure Held (ov : Overlay) (c : ContentId) (o : Option RepoPath) : Prop where
  minted : c.pid = ov.pid → c.seq < ov.contentSeq
  place : ∀ q, (∃ x, ov.lookup q = some (.file c x)) ↔ o = some q

namespace Held

variable {c : ContentId} {o : Option RepoPath} (h : Held ov c o)

include h

theorem minted_step (op : OverlayOp) :
    c.pid = (ov.step op).pid → c.seq < (ov.step op).contentSeq := by
  intro hpid
  have hlt := h.minted hpid
  rw [Overlay.contentSeq_step]
  omega

theorem ne_newContentId : c ≠ ov.newContentId := by
  intro heq
  subst heq
  exact (h.minted rfl).ne rfl

theorem keep (hop : op.touched = [p]) (hp : (∃ x, (ov.step op).lookup p = some (.file c x)) ↔
    ∃ x, ov.lookup p = some (.file c x)) : Held (ov.step op) c o := by
  refine ⟨h.minted_step op, fun q => ?_⟩
  by_cases hq : q = p
  · subst hq
    rw [hp, h.place]
  · rw [Overlay.lookup_step (by simpa [hop] using hq), h.place]

theorem drop (hop : op.touched = [p]) (hp : ∀ x, (ov.step op).lookup p ≠ some (.file c x)) :
    Held (ov.step op) c (FileModel.unlinked p o) := by
  refine ⟨h.minted_step op, fun q => ?_⟩
  by_cases hq : q = p
  · subst hq
    have hne : FileModel.unlinked q o ≠ some q := by
      rw [FileModel.unlinked]
      split <;> simp_all
    simp only [hp, exists_false, hne]
  · rw [Overlay.lookup_step (by simpa [hop] using hq), h.place, FileModel.unlinked]
    split
    · rename_i ho
      simp [ho, Ne.symm hq]
    · rfl

theorem edit (b : ContentId) (f : Bytes → Bytes) : Held (ov.editContent b f) c o := by
  have hsame : (ov.editContent b f).pid = ov.pid ∧ (ov.editContent b f).contentSeq = ov.contentSeq := by
    rw [Overlay.editContent]
    split <;> exact ⟨rfl, rfl⟩
  refine ⟨by rw [hsame.1, hsame.2]; exact h.minted, fun q => ?_⟩
  rw [Overlay.lookup_editContent, h.place]

/-- After a rename the destination has the content file of the source, and the source none. -/
theorem renames (hm : P.Renames ov src dst ov') : ∃ v v',
    ov'.lookup = update (update ov.lookup dst v) src v' ∧
      ((∃ x, v = some (.file c x)) ↔ ∃ x, ov.lookup src = some (.file c x)) ∧
      (∀ x, v' ≠ some (.file c x)) ∧ (c.pid = ov'.pid → c.seq < ov'.contentSeq) := by
  have htomb : ∀ ov'' : Overlay, (ov''.step (.tombstone src)).lookup =
      update ov''.lookup src (some .tombstone) := fun _ => rfl
  cases hm with
  | entry he hb =>
    refine ⟨_, _, Overlay.lookup_rename he dst, ?_, by simp, h.minted_step _⟩
    rw [he]
  | @covering e r he hb =>
    refine ⟨some e, some .tombstone, ?_, ?_, by simp, fun hpid => ?_⟩
    · rw [htomb, Overlay.lookup_rename he dst, Function.update_idem]
    · rw [he]
    · exact h.minted_step (.rename src dst) hpid
  | @clean oid mode he hb hmode =>
    refine ⟨some (.baseRef oid mode), some .tombstone, rfl, ?_, by simp, h.minted⟩
    simp [he]

theorem opens {trunc : Prop} {x : Bool} {b : ContentId} (ho : P.Opens ov p trunc x b ov')
    (f : Bytes → Bytes) : Held (ov'.editContent b f) c o := by
  cases ho with
  | overlay hl hc => exact h.edit b f
  | @baseline oid x seed hr hs =>
    have hnew := h.ne_newContentId
    have hl : (ov.step (.createFile p x seed)).lookup p = some (.file ov.newContentId x) :=
      Function.update_self ..
    exact (h.keep rfl (by simp [hl, ne_file_of_baseline hr, Ne.symm hnew])).edit _ f

theorem moves (hm : P.Renames ov src dst ov') (hne : src ≠ dst) :
    Held ov' c (FileModel.moved src dst o) := by
  obtain ⟨v, v', hl, hv, hv', hminted⟩ := h.renames hm
  refine ⟨hminted, fun q => ?_⟩
  rw [hl, FileModel.moved]
  by_cases hs : q = src
  · subst hs
    rw [Function.update_self, FileModel.unlinked]
    simp only [hv', exists_false, false_iff]
    split
    · simpa using Ne.symm hne
    · split <;> simp_all
  · rw [Function.update_of_ne hs]
    by_cases hd : q = dst
    · subst hd
      rw [Function.update_self, hv, h.place, FileModel.unlinked]
      split
      · simp_all
      · split <;> simp_all
    · rw [Function.update_of_ne hd, h.place, FileModel.unlinked]
      split
      · rename_i ho
        simp [ho, Ne.symm hs, Ne.symm hd]
      · split
        · rename_i ho
          simp [ho, Ne.symm hd]
        · rfl

end Held

theorem Represents.held {c : ContentId} {x : Bool} (h : P.Represents blob ov items)
    (hl : ov.lookup p = some (.file c x)) : Held ov c (some p) :=
  ⟨h.tidy.minted p c x hl, h.place hl⟩

theorem Opens.lookup {trunc : Prop} {x : Bool} {c : ContentId} (h : P.Opens ov p trunc x c ov') :
    ov'.lookup p = some (.file c x) := by
  cases h with
  | overlay hl => exact hl
  | baseline => exact Function.update_self ..

end Projection

/-- The client's mount shows the items, and its handles write where the reference's do. -/
structure Client.Simulates (P : Projection) (blob : ObjectId → Bytes) (s : Client) (m : FileModel) :
    Prop where
  represents : P.Represents blob s.world.overlay m.items
  handles : List.Forall₂ (Projection.Held s.world.overlay) s.handles m.handles

namespace Client.Simulates

variable {P : Projection} {blob : ObjectId → Bytes} {s t : Client} {m : FileModel}
  {op : OverlayOp} {p : RepoPath}

theorem fresh (P : Projection) (blob : ObjectId → Bytes) (pid : Nat)
    (journal : Option (State × JournalDir)) :
    Simulates P blob (Client.fresh pid journal) (P.fileModel blob) :=
  ⟨represents_fresh P blob pid, .nil⟩

theorem absent (h : Simulates P blob s m) (ha : P.resolve s.world.overlay p = .ok none) :
    P.Undirected p ∧ ∀ c x, s.world.overlay.lookup p ≠ some (.file c x) := by
  refine ⟨h.represents.undirected ha (by simp), fun c x hl => ?_⟩
  rw [h.represents.resolve_eq, hl] at ha
  cases ha

theorem create {x : Bool} {w : World} (h : Simulates P blob s m) (hp : p.Ordinary)
    (ha : P.resolve s.world.overlay p = .ok none)
    (hw : w.overlay = s.world.overlay.step (.createFile p x none)) :
    Simulates P blob ⟨w, s.handles ++ [s.world.overlay.newContentId]⟩ (m.step (.create p x)) := by
  obtain ⟨hu, hfile⟩ := h.absent ha
  have hl : w.overlay.lookup p = some (.file s.world.overlay.newContentId x) := by
    rw [hw]
    exact Function.update_self ..
  have hrep : P.Represents blob w.overlay (update m.items p (some (.file x []))) := by
    rw [hw]
    exact h.represents.createFile hp hu x none
  refine ⟨hrep, List.rel_append (h.handles.imp fun c o hc => ?_) (.cons (hrep.held hl) .nil)⟩
  have hnew := hc.ne_newContentId
  show Held w.overlay c o
  rw [hw] at hl ⊢
  exact hc.keep rfl (by simp [hl, hfile, Ne.symm hnew])

theorem opens {trunc : Prop} {x : Bool} {c : ContentId} {ov : Overlay} {f : Bytes → Bytes} {w : World}
    (h : Simulates P blob s m) (hblob : ∀ oid, P.store.readBlobRaw oid = .ok (blob oid))
    (ho : P.Opens s.world.overlay p trunc x c ov) (hf : trunc → ∀ bytes, f [] = f bytes)
    (hw : w.overlay = ov.editContent c f) :
    Simulates P blob ⟨w, s.handles⟩ (m.modify p (.edit f)) ∧ Held w.overlay c (some p) := by
  have hrep : P.Represents blob w.overlay (m.modify p (.edit f)).items := by
    rw [hw]
    exact h.represents.opens ho hblob hf
  have hl : w.overlay.lookup p = some (.file c x) := by rw [hw, Overlay.lookup_editContent, ho.lookup]
  refine ⟨⟨hrep, h.handles.imp fun b o hb => ?_⟩, hrep.held hl⟩
  show Held w.overlay b o
  rw [hw]
  exact hb.opens ho f

theorem write {i offset : Nat} {c : ContentId} (h : Simulates P blob s m) (data : Bytes)
    (hi : s.handles[i]? = some c) :
    Simulates P blob ⟨s.world.write c offset data, s.handles⟩ (m.step (.write i offset data)) := by
  obtain ⟨hlt, hc⟩ := List.getElem?_eq_some_iff.mp hi
  obtain ⟨o, ho, hheld⟩ : ∃ o, m.handles[i]? = some o ∧ Held s.world.overlay c o := by
    have hlt' : i < m.handles.length := h.handles.length_eq ▸ hlt
    have hget := h.handles.get hlt hlt'
    exact ⟨_, List.getElem?_eq_getElem hlt', by simpa [hc] using hget⟩
  have hrep := h.represents.edit hheld.place (writeAt offset data)
  have hrest : List.Forall₂ (Held (s.world.overlay.editContent c (writeAt offset data)))
      s.handles m.handles := h.handles.imp fun b o hb => hb.edit c _
  cases o with
  | none =>
    simp only [FileModel.step, ho]
    exact ⟨hrep, hrest⟩
  | some p =>
    simp only [FileModel.step, ho]
    exact ⟨hrep, hrest⟩

theorem setExecutable {ino : Nat} {x : Bool} {w : World} (h : Simulates P blob s m)
    (hblob : ∀ oid, P.store.readBlobRaw oid = .ok (blob oid)) (hp : s.world.pathOf ino = .ok p)
    (hrun : (P.setExecutable ino x).run s.world = (.ok (), w)) :
    Simulates P blob ⟨w, s.handles⟩ (m.step (.setExecutable p x)) := by
  obtain ⟨-, hov⟩ := run_setExecutable hrun hp
  rcases hov with ⟨c, y, hl, hov⟩ | ⟨oid, y, bytes, hr, hb, hov⟩
  · have hl' : (s.world.overlay.step (.setExecutable p x)).lookup p = some (.file c x) :=
      Overlay.lookup_setExecutable hl x
    refine ⟨?_, h.handles.imp fun b o hc => ?_⟩
    · show P.Represents blob w.overlay _
      rw [hov]
      exact h.represents.setExecutable hl x
    · show Held w.overlay b o
      rw [hov]
      exact hc.keep rfl (by simp [hl', hl])
  · obtain ⟨hord, hu, hi⟩ := h.represents.clean hr
    have hbytes : bytes = blob oid := Except.ok.inj (hb.symm.trans (hblob oid))
    have hl' : (s.world.overlay.step (.createFile p x (some bytes))).lookup p =
        some (.file s.world.overlay.newContentId x) := Function.update_self ..
    have hcreate := h.represents.createFile hord hu x (some bytes)
    refine ⟨?_, h.handles.imp fun b o hc => ?_⟩
    · show P.Represents blob w.overlay _
      rw [hov]
      simpa [FileModel.step, FileModel.modify, hi, hbytes, Item.chmod] using hcreate
    · have hnew := hc.ne_newContentId
      show Held w.overlay b o
      rw [hov]
      exact hc.keep rfl (by simp [hl', ne_file_of_baseline hr, Ne.symm hnew])

theorem symlink {target : Bytes} {w : World} (h : Simulates P blob s m) (hp : p.Ordinary)
    (ha : P.resolve s.world.overlay p = .ok none)
    (hw : w.overlay = s.world.overlay.step (.putSymlink p target)) :
    Simulates P blob ⟨w, s.handles⟩ (m.step (.symlink p target)) := by
  obtain ⟨hu, hfile⟩ := h.absent ha
  have hl : (s.world.overlay.step (.putSymlink p target)).lookup p = some (.symlink target) :=
    Function.update_self ..
  refine ⟨?_, h.handles.imp fun c o hc => ?_⟩
  · show P.Represents blob w.overlay _
    rw [hw]
    exact h.represents.putSymlink hp hu target
  · show Held w.overlay c o
    rw [hw]
    exact hc.keep rfl (by simp [hl, hfile])

theorem unlink {b : Option Resolved} {w : World} (h : Simulates P blob s m) (hp : p.Ordinary)
    (hu : P.Undirected p) (hb : P.baselineResolve p = .ok b)
    (hw : w.overlay = s.world.overlay.step (if b.isSome then .tombstone p else .clear p)) :
    Simulates P blob ⟨w, s.handles⟩ (m.step (.unlink p)) := by
  cases b with
  | none =>
    have hbase : P.baseItem blob p = none := by rw [baseItem, atStart_ordinary hp, hb]
    have hl : (s.world.overlay.step (.clear p)).lookup p = none := Function.update_self ..
    have hclear := h.represents.clear hp hu
    rw [hbase] at hclear
    refine ⟨?_, List.forall₂_map_right_iff.mpr (h.handles.imp fun c o hc => ?_)⟩
    · show P.Represents blob w.overlay _
      rw [hw]
      exact hclear
    · show Held w.overlay c _
      rw [hw]
      exact hc.drop rfl (by simp [hl])
  | some r =>
    have hl : (s.world.overlay.step (.tombstone p)).lookup p = some .tombstone :=
      Function.update_self ..
    refine ⟨?_, List.forall₂_map_right_iff.mpr (h.handles.imp fun c o hc => ?_)⟩
    · show P.Represents blob w.overlay _
      rw [hw]
      exact h.represents.tombstone hp hu
    · show Held w.overlay c _
      rw [hw]
      exact hc.drop rfl (by simp [hl])

theorem rename {src dst : RepoPath} {ov : Overlay} {w : World} (h : Simulates P blob s m)
    (hm : P.Renames s.world.overlay src dst ov) (hne : src ≠ dst) (hsrc : src.Ordinary)
    (hdst : dst.Ordinary) (hu : P.Undirected src) (hu' : P.Undirected dst) (hw : w.overlay = ov) :
    Simulates P blob ⟨w, s.handles⟩ (m.step (.rename src dst)) := by
  refine ⟨?_, List.forall₂_map_right_iff.mpr (h.handles.imp fun c o hc => ?_)⟩
  · show P.Represents blob w.overlay _
    rw [hw]
    exact h.represents.moves hm hne hsrc hdst hu hu'
  · show Held w.overlay c _
    rw [hw]
    exact hc.moves hm hne

theorem look {op : Op} {fuel : Nat} {reply : Reply} {w : World} (h : Simulates P blob s m)
    (hop : op.Looks) (hrun : (op.handler P fuel).run s.world = (.ok reply, w)) :
    Simulates P blob ⟨w, s.handles⟩ m := by
  have hov := hop.overlay hrun
  refine ⟨?_, ?_⟩
  · show P.Represents blob w.overlay _
    rw [hov]
    exact h.represents
  · show List.Forall₂ (Held w.overlay) _ _
    rw [hov]
    exact h.handles

theorem step {call : FileCall} (hblob : ∀ oid, P.store.readBlobRaw oid = .ok (blob oid))
    (h : Simulates P blob s m) (hstep : Client.Step P s call t) : Simulates P blob t (m.step call) := by
  cases hstep with
  | create hn ha hrun =>
    obtain ⟨hp, hc, -, hov, -⟩ := run_create hrun hn
    rw [hc]
    exact h.create hp ha hov
  | @openWrite ino p trunc c w hp hrun =>
    obtain ⟨x, ov, ho, hov, -⟩ := run_openWrite hrun hp
    have hf : trunc = true → ∀ bytes, (if trunc then setLen 0 else id) [] =
        (if trunc then setLen 0 else id) bytes := by
      intro ht bytes
      simp [ht, setLen]
    obtain ⟨hsim, hheld⟩ := h.opens hblob ho hf hov
    exact ⟨hsim.represents, List.rel_append hsim.handles (.cons hheld .nil)⟩
  | write hi => exact h.write _ hi
  | truncate hp hrun =>
    obtain ⟨x, c, ov, ho, hov, -⟩ := run_truncate hrun hp
    refine (h.opens hblob ho (fun hsize bytes => ?_) hov).1
    simp [hsize, setLen]
  | setExecutable hp hrun => exact h.setExecutable hblob hp hrun
  | symlink hn ha hrun =>
    obtain ⟨hp, hov, -⟩ := run_symlink hrun hn
    exact h.symlink hp ha hov
  | unlink hn hr hdir hrun =>
    obtain ⟨hp, b, hb, hov, -⟩ := run_unlink hrun hn
    refine h.unlink hp (h.represents.undirected hr fun x hx => ?_) hb hov
    exact Option.some.inj hx ▸ hdir
  | rename hn hn' hne hr hdir hr' hdir' hrun =>
    obtain ⟨hords, hordd, hm, -⟩ := run_rename hrun hn hn' fun bt hbt => by
      cases hr.symm.trans hbt
      cases hdir
    refine h.rename hm hne hords hordd (h.represents.undirected hr fun x hx => ?_)
      (h.represents.undirected hr' hdir') rfl
    exact Option.some.inj hx ▸ hdir
  | look hop hrun => exact h.look hop hrun

end Client.Simulates

/-- A mount whose directories stay as they are is a map: from a fresh overlay over any baseline,
whatever calls on files and symlinks succeed, what it shows afterwards is what the map has. -/
theorem projection_refines_file_model (P : Projection) (blob : ObjectId → Bytes)
    (hblob : ∀ oid, P.store.readBlobRaw oid = .ok (blob oid)) (pid : Nat)
    (journal : Option (State × JournalDir)) (calls : List FileCall) (s : Client)
    (hrun : Trace (Client.Step P) (Client.fresh pid journal) calls s) :
    P.Agrees s.world ((P.fileModel blob).run calls).items := by
  obtain ⟨m, hm, hsim⟩ : ∃ m, Trace (fun m call m' => FileModel.step m call = m')
      (P.fileModel blob) calls m ∧ Client.Simulates P blob s m :=
    hrun.simulate (fun s m call t h hstep => ⟨_, rfl, h.step hblob hstep⟩)
      (Client.Simulates.fresh P blob pid journal)
  rw [FileModel.run, ← hm.eq_foldl]
  exact hsim.represents.agrees hblob

noncomputable def heldA : World := ((smallProjection.openWrite 2 false).run lookedUp).2

noncomputable def movedA : World :=
  ((smallProjection.rename 0 rootIno [97] rootIno [98] 0).run (heldA.write ⟨7, 0⟩ 1 [121])).2

def movingOf (src dst : RepoPath) : List FileCall :=
  [.look, .openWrite src false, .write 0 1 [121], .rename src dst]

theorem moving_run :
    Trace (Client.Step smallProjection) (Client.fresh 7 none)
      (movingOf (letter 97) (letter 98)) ⟨movedA, [⟨7, 0⟩]⟩ := by
  have hlook : ((Op.lookup rootIno [97]).handler smallProjection 0).run (World.fresh 7 none) =
      (.ok (.attr (some ⟨2, 1, 1, .file false⟩)), lookedUp) := rfl
  have hopen : (smallProjection.openWrite 2 false).run lookedUp = (.ok ⟨7, 0⟩, heldA) := rfl
  have hmove : (smallProjection.rename 0 rootIno [97] rootIno [98] 0).run
      (heldA.write ⟨7, 0⟩ 1 [121]) = (.ok (), movedA) := rfl
  have hsrc : smallProjection.resolve (heldA.write ⟨7, 0⟩ 1 [121]).overlay (letter 97) =
      .ok (some (.file (.overlay (letter 97)) false)) := rfl
  have hdst : smallProjection.resolve (heldA.write ⟨7, 0⟩ 1 [121]).overlay (letter 98) = .ok none := rfl
  have hchild : ∀ b (hb : ValidComponent [b]), Child root [b] (letter b hb) := fun b hb =>
    components_ofComponents _ _
  have hstep₁ : Client.Step smallProjection (Client.fresh 7 none) .look ⟨lookedUp, []⟩ :=
    .look (show (Op.lookup rootIno [97]).Looks from trivial) hlook
  have hstep₂ : Client.Step smallProjection ⟨lookedUp, []⟩ (.openWrite (letter 97) false)
      ⟨heldA, [⟨7, 0⟩]⟩ := .openWrite rfl hopen
  have hstep₄ : Client.Step smallProjection ⟨heldA.write ⟨7, 0⟩ 1 [121], [⟨7, 0⟩]⟩
      (.rename (letter 97) (letter 98)) ⟨movedA, [⟨7, 0⟩]⟩ :=
    .rename ⟨root, rfl, hchild 97 _⟩ ⟨root, rfl, hchild 98 _⟩ (by decide) hsrc rfl hdst (by simp) hmove
  exact .cons hstep₁ (.cons hstep₂ (.cons (.write rfl) (.cons hstep₄ (.nil _))))

theorem projection_refines_file_model_moved_file :
    smallProjection.Agrees movedA
      ((smallProjection.fileModel fun _ => [120]).run (movingOf (letter 97) (letter 98))).items ∧
    ((smallProjection.fileModel fun _ => [120]).run (movingOf (letter 97) (letter 98))).items
      (letter 98) = some (.file false [120, 121]) :=
  ⟨projection_refines_file_model smallProjection (fun _ => [120]) (fun _ => rfl) 7 none _
    ⟨movedA, [⟨7, 0⟩]⟩ moving_run, by decide +kernel⟩

end LazyMount
