import LazyMount.FileModel

/-! The projection refines the map: whatever stands for a file, an entry of the overlay or the
baseline below it, the items and the handles follow every call. -/

namespace LazyMount

open Function (update)
open RepoPath Prog Handler Transition

namespace Projection

variable (P : Projection) (blob : ObjectId → Bytes)

def entryItem (ov : Overlay) : OverlayEntry → Option Item
  | .file c x => (ov.disk.content c).map (.file x)
  | .symlink target => some (.symlink target)
  | .baseRef oid mode => P.itemOf blob (baserefResolved oid mode)
  | .dir | .tombstone => none

def itemAt (ov : Overlay) (p : RepoPath) : Option Item :=
  match ov.lookup p with
  | some e => P.entryItem blob ov e
  | none => P.baseItem blob p

/-- The items are those of the overlay over the baseline, and no entry of it is or hides a
directory. -/
structure Represents (ov : Overlay) (items : RepoPath → Option Item) : Prop where
  tidy : ov.Tidy
  placed : ∀ p e, ov.lookup p = some e → p.Ordinary ∧ P.Undirected p ∧ e.kind ≠ some .dir
  stored : ∀ p c x, ov.lookup p = some (.file c x) → (ov.disk.content c).isSome
  items : items = P.itemAt blob ov

variable {P blob} {ov ov' : Overlay} {items : RepoPath → Option Item} {p q src dst : RepoPath}

theorem atStart_eq_view (p : RepoPath) : P.atStart p = P.view (fun _ => none) p :=
  closed_empty.resolve_eq rfl p

theorem ordinary_of_file {source : FileSource} {x : Bool}
    (h : P.resolve ov p = .ok (some (.file source x))) : p.Ordinary := by
  constructor
  · intro hroot
    rw [resolve, if_pos (isRoot_iff.mpr hroot)] at h
    cases h
  · intro hgit
    simp only [resolve, hgit, if_true] at h
    split at h <;> cases h

theorem atStart_ordinary (hp : p.Ordinary) : P.atStart p = P.baselineResolve p := by
  rw [atStart_eq_view, view_ordinary hp]
  rfl

theorem atStart_eq (ov : Overlay) (hp : ¬ p.Ordinary) : P.resolve ov p = P.atStart p := by
  rw [atStart, resolve, resolve]
  split
  · rfl
  split
  · rfl
  · rename_i hroot hgit
    exact (hp ⟨fun h => hroot (isRoot_iff.mpr h), hgit⟩).elim

theorem baselineResolve_below {r : Option Resolved} (hp : p ≠ root) (h : P.baselineResolve p = .ok r)
    (hr : ∀ x, r = some x → x.isDir = false) (hu : Under p q) (hne : q ≠ p) :
    P.baselineResolve q = .ok none := by
  refine below_induction (motive := fun q => P.baselineResolve q = .ok none) (fun name q hq => ?_)
    (fun q name m hu _ hq hm => ?_) hu hne
  · rcases baselineResolve_child hp h hq with hn | ⟨sub, rfl, -⟩
    · exact hn
    · cases hr _ rfl
  · have hq0 : q ≠ root := by
      intro heq
      subst heq
      exact hp (eq_root_of_under hu)
    rcases baselineResolve_child hq0 hq hm with hn | ⟨sub, hsub, -⟩
    · exact hn
    · cases hsub

namespace Represents

/-- Where no entry hides a directory, ancestors hide nothing. -/
theorem resolve_eq (h : P.Represents blob ov items) (p : RepoPath) :
    P.resolve ov p = match ov.lookup p with
      | some e => P.entryResolved p e
      | none => P.atStart p := by
  split
  · rename_i e he
    exact resolve_entry (h.placed p e he).1 he
  · rename_i he
    by_cases hp : p.Ordinary
    · rw [resolve_unset hp he, atStart_ordinary hp]
      split
      · rename_i ht
        obtain ⟨q, hq, hu, hne, hl⟩ := Overlay.ancestorTombstoned_iff.mp ht
        obtain ⟨hord, ⟨r, hr, hdir⟩, -⟩ := h.placed q _ hl
        rw [atStart_ordinary hord] at hr
        exact (baselineResolve_below hq hr hdir hu (Ne.symm hne)).symm
      · rfl
    · exact atStart_eq ov hp

theorem undirected {r : Option Resolved} (h : P.Represents blob ov items)
    (hr : P.resolve ov p = .ok r) (hdir : ∀ x, r = some x → x.isDir = false) : P.Undirected p := by
  rw [h.resolve_eq] at hr
  cases he : ov.lookup p with
  | some e => exact (h.placed p e he).2.1
  | none =>
    rw [he] at hr
    exact ⟨r, hr, hdir⟩

end Represents

/-- What a path resolves to, and the item there. -/
inductive Matches (P : Projection) (blob : ObjectId → Bytes) (ov : Overlay) (p : RepoPath) :
    Option Resolved → Option Item → Prop
  | absent : Matches P blob ov p none none
  | gitfile : Matches P blob ov p (some .gitfile) (some (.file false P.gitfile))
  | file {c : ContentId} {x : Bool} {bytes : Bytes} (hl : ov.lookup p = some (.file c x))
    (hc : ov.disk.content c = some bytes) :
    Matches P blob ov p (some (.file (.overlay p) x)) (some (.file x bytes))
  | symlink (target : Bytes) :
    Matches P blob ov p (some (.symlink (.overlay target))) (some (.symlink target))
  | fileBlob (oid : ObjectId) (x : Bool) :
    Matches P blob ov p (some (.file (.baseline oid) x)) (some (.file x (blob oid)))
  | symlinkBlob (oid : ObjectId) :
    Matches P blob ov p (some (.symlink (.baseline oid))) (some (.symlink (blob oid)))

theorem atStart_source {r : Resolved} (h : P.atStart p = .ok (some r)) :
    r = .gitfile ∨ GitStore.OfTree r := by
  by_cases hp : p.Ordinary
  · rw [atStart_ordinary hp] at h
    exact .inr (GitStore.walk_ofTree h)
  · rw [atStart, resolve] at h
    split at h
    · cases h
      exact .inr trivial
    split at h
    · cases h
      exact .inl rfl
    · rename_i hroot hgit
      exact (hp ⟨fun h => hroot (isRoot_iff.mpr h), hgit⟩).elim

theorem Represents.shows (h : P.Represents blob ov items) (hp : P.Undirected p) :
    ∃ r, P.resolve ov p = .ok r ∧ P.Matches blob ov p r (items p) := by
  rw [h.resolve_eq, h.items, itemAt]
  cases he : ov.lookup p with
  | none =>
    obtain ⟨r, hr, hdir⟩ := hp
    refine ⟨r, hr, ?_⟩
    simp only [baseItem, hr]
    cases r with
    | none => exact .absent
    | some r =>
      have hsource := atStart_source hr
      cases r with
      | dir => cases hdir _ rfl
      | gitfile => exact .gitfile
      | file source x =>
        cases source with
        | overlay => exact (hsource.resolve_left (by simp)).elim
        | baseline oid => exact .fileBlob oid x
      | symlink source =>
        cases source with
        | overlay => exact (hsource.resolve_left (by simp)).elim
        | baseline oid => exact .symlinkBlob oid
  | some e =>
    have hkind := (h.placed p e he).2.2
    cases e with
    | file c x =>
      obtain ⟨bytes, hc⟩ := Option.isSome_iff_exists.mp (h.stored p c x he)
      refine ⟨_, rfl, ?_⟩
      simp only [entryItem, hc, Option.map_some]
      exact .file he hc
    | symlink target => exact ⟨_, rfl, .symlink target⟩
    | dir => exact (hkind rfl).elim
    | tombstone => exact ⟨_, rfl, .absent⟩
    | baseRef oid mode =>
      refine ⟨_, rfl, ?_⟩
      cases mode with
      | regular => exact .fileBlob oid false
      | executable => exact .fileBlob oid true
      | symlink => exact .symlinkBlob oid
      | tree | gitlink => exact (hkind rfl).elim

theorem returns_attrOf (ino generation : Nat) (r : Resolved) :
    Returns (fun a => a.kind = r.kind) (P.attrOf ino generation r) := by
  cases r with
  | dir | gitfile => rfl
  | file source x => cases source <;> exact returns_bind fun _ => rfl
  | symlink source =>
    cases source with
    | overlay target => rfl
    | baseline oid => exact returns_bind fun _ => rfl

theorem run_lookup {w t : World} {parent : Nat} {name : Bytes} {reply : Option Attr}
    (h : (P.lookup parent name).run w = (.ok reply, t)) (hn : w.Names parent name p) :
    ∃ r, P.resolve w.overlay p = .ok r ∧ reply.map Attr.kind = r.map Resolved.kind := by
  obtain ⟨dir, v, hdir, h₁⟩ := run_bind_eq_ok h
  obtain ⟨hdir', rfl⟩ := run_read_eq_ok hdir
  obtain ⟨p', u, hjoin, h₂⟩ := run_bind_eq_ok h₁
  obtain ⟨hj, rfl⟩ := run_liftExcept_eq_ok hjoin
  obtain rfl : p = p' := hn.unique ⟨dir, hdir', (join_eq_ok.mp hj).2⟩
  obtain ⟨r, u', hres, h₃⟩ := run_bind_eq_ok h₂
  obtain ⟨hr, rfl⟩ := run_read_eq_ok hres
  refine ⟨r, hr, ?_⟩
  cases r with
  | none =>
    cases h₃
    rfl
  | some r =>
    obtain ⟨i, v', hi, h₄⟩ := run_bind_eq_ok h₃
    obtain ⟨a, v'', ha, h₅⟩ := run_bind_eq_ok h₄
    cases h₅
    exact congrArg some ((returns_attrOf i.1 i.2 r).run ha)

theorem Matches.kind {r : Option Resolved} {i : Option Item} (h : P.Matches blob ov p r i) :
    r.map Resolved.kind = i.map Item.kind := by
  cases h <;> rfl

theorem Matches.seen (hblob : ∀ oid, P.store.readBlobRaw oid = .ok (blob oid))
    {r : Option Resolved} {i : Option Item} (h : P.Matches blob ov p r i) :
    P.seen ov (.ok r) = .ok (i.map Item.node) := by
  cases h with
  | absent | gitfile | symlink => rfl
  | file hl hc => simp [Projection.seen, nodeOf, Overlay.readContent, Overlay.openContent, hl, hc, Item.node]
  | fileBlob oid | symlinkBlob oid => simp [Projection.seen, nodeOf, hblob, Item.node]

theorem Represents.baseItem_none (h : P.Represents blob ov items) (hp : ¬ P.Undirected p) :
    ov.lookup p = none ∧ items p = none := by
  have hl : ov.lookup p = none := by
    by_contra hne
    obtain ⟨e, he⟩ := Option.ne_none_iff_exists'.mp hne
    exact hp (h.placed p e he).2.1
  refine ⟨hl, ?_⟩
  rw [h.items, itemAt, hl]
  show P.baseItem blob p = none
  rw [baseItem]
  split
  · rename_i r hr
    cases r with
    | dir => rfl
    | file | symlink | gitfile => exact (hp ⟨_, hr, by simp [Resolved.isDir]⟩).elim
  · rfl

theorem Represents.shows_some {i : Item} (h : P.Represents blob ov items) (hi : items p = some i) :
    ∃ r, P.resolve ov p = .ok r ∧ P.Matches blob ov p r (some i) := by
  have hp : P.Undirected p := by
    by_contra hp
    rw [(h.baseItem_none hp).2] at hi
    cases hi
  obtain ⟨r, hr, hm⟩ := h.shows hp
  exact ⟨r, hr, hi ▸ hm⟩

theorem Represents.agrees {w : World} (h : P.Represents blob w.overlay items)
    (hblob : ∀ oid, P.store.readBlobRaw oid = .ok (blob oid)) : P.Agrees w items where
  directory p hp := by
    obtain ⟨hl, hi⟩ := h.baseItem_none hp
    have hres := h.resolve_eq p
    rw [hl] at hres
    exact ⟨hi, hres⟩
  resolve p hp := by
    obtain ⟨r, hr, hm⟩ := h.shows hp
    rw [hr]
    exact congrArg Except.ok hm.kind
  visible p hp := by
    obtain ⟨r, hr, hm⟩ := h.shows hp
    rw [Projection.visible, hr]
    exact hm.seen hblob
  lookup parent name p reply t hp hn hrun := by
    obtain ⟨r, hr, hm⟩ := h.shows hp
    obtain ⟨r', hr', hkind⟩ := run_lookup hrun hn
    obtain rfl : r = r' := Except.ok.inj (hr.symm.trans hr')
    exact hkind.trans hm.kind
  openRead ino p x bytes hino hi := by
    obtain ⟨r, hr, hm⟩ := h.shows_some hi
    have hpath : (pathOf ino).run w = (.ok p, w) := run_read hino
    have hres : (P.resolveStep p).run w = (.ok r, w) := run_read hr
    rw [Projection.openRead, run_bind_ok hpath, run_bind_ok hres]
    cases hm with
    | gitfile => exact ⟨_, rfl, fun offset len => rfl⟩
    | @file c _ _ hl hc =>
      have hopen : (openContent p).run w = (.ok c, w) :=
        run_read (by simp [Overlay.openContent, hl, hc])
      exact ⟨_, run_bind_ok hopen, fun offset len => by simp [readAt, contentOf, hc]⟩
    | fileBlob oid =>
      have hfetch : (P.materialize oid).run w = (.ok (blob oid), w) := run_read (hblob oid)
      refine ⟨_, run_bind_ok hfetch, fun offset len => ?_⟩
      simp [readAt, contentOf, hblob, Except.toOption]
  readlink ino p target hino hi := by
    obtain ⟨r, hr, hm⟩ := h.shows_some hi
    have hpath : (pathOf ino).run w = (.ok p, w) := run_read hino
    have hres : (P.resolveStep p).run w = (.ok r, w) := run_read hr
    rw [Projection.readlink, run_bind_ok hpath, run_bind_ok hres]
    cases hm with
    | symlink => rfl
    | symlinkBlob oid => exact run_read (hblob oid)

end Projection

end LazyMount
