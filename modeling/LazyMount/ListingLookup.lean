import LazyMount.Anchored
import LazyMount.Announced
import LazyMount.Gitfile
import LazyMount.Listing

/-! A listing and the lookups of its names: they agree as long as no rename hides a directory of
the overlay under a file, and no gitlink can be read as a tree. -/

namespace LazyMount

open RepoPath Prog Handler Transition

/-- The trees of a baseline. -/
inductive GitStore.Holds (store : GitStore) (tree : ObjectId) : ObjectId → Prop
  | root : Holds store tree tree
  | sub {t : ObjectId} {es : List TreeEntry} {e : TreeEntry} (ht : Holds store tree t)
    (hes : store.readTree t = .ok es) (he : e ∈ es) (hm : e.mode = .tree) : Holds store tree e.oid

/-- The names in each tree of the baseline are unique. -/
def GitStore.UniqueNames (store : GitStore) (tree : ObjectId) : Prop :=
  ∀ t es, store.Holds tree t → store.readTree t = .ok es → (es.map TreeEntry.name).Nodup

/-- No gitlink of the baseline names an object that reads as a tree with entries. -/
def GitStore.OpaqueLinks (store : GitStore) (tree : ObjectId) : Prop :=
  ∀ t es e, store.Holds tree t → store.readTree t = .ok es → e ∈ es → e.mode = .gitlink →
    ∀ sub, store.readTree e.oid = .ok sub → sub = []

theorem find?_of_nodup {es : List TreeEntry} {e : TreeEntry} (h : (es.map TreeEntry.name).Nodup)
    (he : e ∈ es) : es.find? (·.name = e.name) = some e := by
  induction es with
  | nil => cases he
  | cons x xs ih =>
    rw [List.map_cons, List.nodup_cons] at h
    rcases List.mem_cons.mp he with rfl | he'
    · simp
    · have hne : x.name ≠ e.name := fun heq => h.1 (heq ▸ List.mem_map_of_mem he')
      rw [List.find?_cons_of_neg (by simpa using hne)]
      exact ih h.2 he'

/-- What an entry of a baseline tree resolves to. -/
def TreeEntry.resolved (e : TreeEntry) : Resolved :=
  match e.mode with
  | .tree | .gitlink => .dir (some e.oid)
  | .regular => .file (.baseline e.oid) false
  | .executable => .file (.baseline e.oid) true
  | .symlink => .symlink (.baseline e.oid)

theorem TreeEntry.kind_resolved (e : TreeEntry) : e.resolved.kind = e.mode.kind := by
  rw [resolved]
  cases e.mode <;> rfl

namespace GitStore

variable {store : GitStore} {tree t : ObjectId} {es : List TreeEntry}

theorem Holds.trans {u : ObjectId} (h : store.Holds tree t) (h' : store.Holds t u) :
    store.Holds tree u := by
  induction h' with
  | root => exact h
  | sub _ hes he hm ih => exact ih.sub hes he hm

theorem walk_single (h : store.readTree t = .ok es) (c : Bytes) :
    store.walk t [c] = .ok ((es.find? (·.name = c)).map TreeEntry.resolved) := by
  simp only [walk, h, Except.ok_bind]
  cases es.find? (·.name = c) with
  | none => rfl
  | some e =>
    simp only [Option.map_some, TreeEntry.resolved]
    cases e.mode <;> rfl

/-- A path to a directory leads to a tree of the baseline, or ends at a gitlink. -/
theorem walk_dir {cs : List Bytes} {bt : Option ObjectId} (h : store.walk tree cs = .ok (some (.dir bt))) :
    ∃ t, bt = some t ∧ ((store.Holds tree t ∧ ∀ c, store.walk tree (cs ++ [c]) = store.walk t [c]) ∨
      (∃ u es e, store.Holds tree u ∧ store.readTree u = .ok es ∧ e ∈ es ∧ e.mode = .gitlink ∧
        e.oid = t) ∧ ∀ c, store.walk tree (cs ++ [c]) = .ok none) := by
  induction cs generalizing tree with
  | nil => cases h
  | cons comp rest ih =>
    obtain ⟨es, hes, h⟩ := Except.bind_eq_ok.mp h
    have hwalk : ∀ cs', store.walk tree (comp :: cs') = _ := fun cs' => by
      rw [walk, hes, Except.ok_bind]
    cases hf : es.find? (fun e => e.name = comp) with
    | none => simp [hf] at h
    | some e =>
      have he := List.mem_of_find?_eq_some hf
      rw [hf] at h
      cases hm : e.mode with
      | regular | executable | symlink =>
        simp only [hm] at h
        split at h <;> cases h
      | gitlink =>
        simp only [hm] at h
        split at h
        · cases h
          refine ⟨e.oid, rfl, .inr ⟨⟨tree, es, e, .root, hes, he, hm, rfl⟩, fun c => ?_⟩⟩
          rw [List.cons_append, hwalk, hf]
          simp [hm]
        · cases h
      | tree =>
        have hsub : store.Holds tree e.oid := .sub .root hes he hm
        simp only [hm] at h
        split at h
        · rename_i hrest
          cases h
          refine ⟨e.oid, rfl, .inl ⟨hsub, fun c => ?_⟩⟩
          rw [List.cons_append, hwalk, hf, hrest]
          simp [hm]
        · obtain ⟨t, hbt, hcase⟩ := ih h
          have hnext : ∀ c, store.walk tree (comp :: rest ++ [c]) = store.walk e.oid (rest ++ [c]) := by
            intro c
            rw [List.cons_append, hwalk, hf]
            simp [hm]
          refine ⟨t, hbt, ?_⟩
          rcases hcase with ⟨ht, hc⟩ | ⟨⟨u, us, e', hu, hus, he', hm', ho⟩, hc⟩
          · exact .inl ⟨hsub.trans ht, fun c => (hnext c).trans (hc c)⟩
          · exact .inr ⟨⟨u, us, e', hsub.trans hu, hus, he', hm', ho⟩, fun c => (hnext c).trans (hc c)⟩

end GitStore

namespace Projection

variable {P : Projection} {ov : Overlay} {dir q : RepoPath} {name : Bytes} {bt : Option ObjectId}
  {entries : List TreeEntry}

/-- A visible directory lists a tree of the baseline, or nothing, and the baseline has at its children
what is listed. -/
theorem baseline_listed (hlinks : P.store.OpaqueLinks P.baselineTree)
    (hdir : P.resolve ov dir = .ok (some (.dir bt))) (hes : P.treeEntries bt = .ok entries) :
    (entries = [] ∨ ∃ t, P.store.Holds P.baselineTree t ∧ P.store.readTree t = .ok entries) ∧
      ∀ name q, Child dir name q →
        P.baselineResolve q = .ok ((entries.find? (·.name = name)).map TreeEntry.resolved) := by
  by_cases hroot : dir = root
  · subst hroot
    cases hdir
    refine ⟨.inr ⟨_, .root, hes⟩, fun name q hq => ?_⟩
    rw [baselineResolve, hq, components_root, List.nil_append]
    exact GitStore.walk_single hes name
  · obtain ⟨r, hr, hiff⟩ := resolve_baseline hdir hroot
    by_cases hbase : ∃ b, r = some (.dir b)
    · obtain ⟨b, rfl⟩ := hbase
      obtain ⟨t, rfl, hcase⟩ := GitStore.walk_dir hr
      obtain rfl := (hiff t).mpr rfl
      rcases hcase with ⟨ht, hc⟩ | ⟨⟨u, us, e, hu, hus, he, hm, rfl⟩, hc⟩
      · refine ⟨.inr ⟨t, ht, hes⟩, fun name q hq => ?_⟩
        rw [baselineResolve, hq, hc name]
        exact GitStore.walk_single hes name
      · obtain rfl := hlinks u us e hu hus he hm entries hes
        refine ⟨.inl rfl, fun name q hq => ?_⟩
        rw [baselineResolve, hq, hc name]
        rfl
    · obtain rfl : bt = none := by
        cases bt with
        | none => rfl
        | some t => exact (hbase ⟨_, (hiff t).mp rfl⟩).elim
      cases hes
      refine ⟨.inl rfl, fun name q hq => ?_⟩
      rcases baselineResolve_child hroot hr hq with h | ⟨sub, h, -⟩
      · exact h
      · exact (hbase ⟨_, h⟩).elim

theorem nodup_listed (hlinks : P.store.OpaqueLinks P.baselineTree)
    (hnames : P.store.UniqueNames P.baselineTree) (hdir : P.resolve ov dir = .ok (some (.dir bt)))
    (hes : P.treeEntries bt = .ok entries) : (entries.map TreeEntry.name).Nodup := by
  rcases (baseline_listed hlinks hdir hes).1 with rfl | ⟨t, ht, hread⟩
  · exact List.nodup_nil
  · exact hnames t entries ht hread

end Projection

/-- The base-refs of the overlay are files and symlinks. -/
def Overlay.PlainRefs (ov : Overlay) : Prop :=
  ∀ p oid mode, ov.lookup p = some (.baseRef oid mode) → mode.kind ≠ .dir

theorem OverlayOp.effect_baseRef {op : OverlayOp} {next : ContentId} {ns : Namespace} {p : RepoPath}
    {oid : ObjectId} {mode : GitMode} (h : op.effect next ns p = some (.baseRef oid mode)) :
    op = .putBaseRef p oid mode ∨ ∃ q, ns q = some (.baseRef oid mode) := by
  by_cases hp : op.effect next ns p = ns p
  · exact .inr ⟨p, hp ▸ h⟩
  have hmem : p ∈ op.touched := by
    by_contra hmem
    exact hp (effect_of_notMem hmem next ns)
  cases op with
  | createFile q | putSymlink q | putDir q | tombstone q | clear q =>
    obtain rfl := List.mem_singleton.mp hmem
    simp [effect] at h
  | putBaseRef q oid' mode' =>
    obtain rfl := List.mem_singleton.mp hmem
    simp only [effect, Function.update_self, Option.some.injEq, OverlayEntry.baseRef.injEq] at h
    exact .inl (by rw [h.1, h.2])
  | setExecutable q x =>
    obtain rfl := List.mem_singleton.mp hmem
    right
    refine ⟨p, ?_⟩
    cases he : ns p with
    | none => simp [effect, he] at h
    | some e =>
      cases e <;> simp only [effect, he, Function.update_self, reduceCtorEq, Option.some.injEq] at h
      all_goals exact congrArg some h
  | rename src dst =>
    right
    cases he : ns src with
    | none => exact ⟨p, by simpa [effect, he] using h⟩
    | some e =>
      simp only [effect, he] at h
      by_cases hs : p = src
      · rw [hs, Function.update_self] at h
        cases h
      · rw [Function.update_of_ne hs] at h
        by_cases hd : p = dst
        · rw [hd, Function.update_self] at h
          exact ⟨src, he.trans h⟩
        · rw [Function.update_of_ne hd] at h
          exact ⟨p, h⟩

namespace Projection

variable {P : Projection} {ov : Overlay} {dir q : RepoPath} {name : Bytes} {bt : Option ObjectId}
  {entries : List TreeEntry}

theorem plainRefs_step {l : Action} {upd : World → World} (h : P.OrdinaryStep l upd) (w : World)
    (hw : w.overlay.PlainRefs) : (upd w).overlay.PlainRefs := by
  cases h with
  | quiet h => cases h <;> exact hw
  | mutate op hop =>
    intro p oid mode hp
    replace hp : (w.overlay.step op).index.entries p = some (.baseRef oid mode) := hp
    rw [Overlay.step_entries] at hp
    rcases OverlayOp.effect_baseRef hp with heq | ⟨q, hq⟩
    · exact hop.mode p oid mode heq
    · exact hw q oid mode hq
  | edit content f =>
    intro p oid mode hp
    rw [Overlay.lookup, editContent_index] at hp
    exact hw p oid mode hp

/-- What every overlay that the handlers leave has. -/
structure Regular (P : Projection) (ov : Overlay) : Prop where
  anchored : P.Anchored ov.index.entries
  refs : ov.PlainRefs
  gitfile : ov.SparesGitfile

theorem regular_run {pid : Nat} {journal : Option (State × JournalDir)} {ops : List Op} {w : World}
    (hrun : Trace (AdmittedStep P) (World.fresh pid journal) ops w) : P.Regular w.overlay := by
  refine ⟨anchored_run hrun, ?_, ?_⟩
  · refine hrun.invariant (I := fun w => w.overlay.PlainRefs) (fun v op v' hv h => ?_) ?_
    · obtain ⟨-, fuel, r, hr, -⟩ := h
      have hh := (Op.within_ordinary P fuel op).run (I := fun w => w.overlay.PlainRefs)
        (fun _ _ hu u hu' => plainRefs_step hu u hu') hv
      rwa [hr] at hh
    · intro p oid mode hp
      cases hp
  · refine hrun.invariant (I := fun w => w.overlay.SparesGitfile) (fun v op v' hv h => ?_)
      ⟨rfl, rfl, rfl⟩
    obtain ⟨-, fuel, r, hr, -⟩ := h
    have hh := (Op.within_ordinary P fuel op).run (I := fun w => w.overlay.SparesGitfile)
      (fun _ _ hu u hu' => hu'.ordinaryStep hu u) hv
    rwa [hr] at hh

variable {kind : Kind}

theorem baselineShown_name {e : TreeEntry} {x : Bytes × Kind} (h : baselineShown ov dir e = some x) :
    x.1 = e.name ∧ ¬ (dir.isRoot ∧ e.name = gitfileName) ∧ ∃ q, Child dir e.name q ∧ ov.lookup q = none := by
  rw [baselineShown] at h
  split at h
  · cases h
  · rename_i hgit
    split at h
    · rename_i q hj
      split at h
      · cases h
      · rename_i hnone
        cases h
        exact ⟨rfl, hgit, q, (join_eq_ok.mp hj).2, by simpa using hnone⟩
    · cases h

theorem mem_baselineShown (hnd : (entries.map TreeEntry.name).Nodup) (hq : Child dir name q) :
    (name, kind) ∈ entries.filterMap (baselineShown ov dir) ↔ ¬ (dir.isRoot ∧ name = gitfileName) ∧
      ov.lookup q = none ∧ ∃ e, entries.find? (·.name = name) = some e ∧ e.mode.kind = kind := by
  have hjoin : join dir name = .ok q := join_eq_ok.mpr ⟨valid_of_child hq, hq⟩
  have hshown : ∀ e, e.name = name → (baselineShown ov dir e = some (name, kind) ↔
      ¬ (dir.isRoot ∧ name = gitfileName) ∧ ov.lookup q = none ∧ e.mode.kind = kind) := by
    rintro e rfl
    rw [baselineShown, hjoin]
    by_cases hgit : dir.isRoot = true ∧ e.name = gitfileName
    · simp [hgit]
    · cases hl : ov.lookup q <;> simp [hgit, hl]
  rw [List.mem_filterMap]
  constructor
  · rintro ⟨e, he, hsh⟩
    have hen : e.name = name := (baselineShown_name hsh).1.symm
    obtain ⟨hgit, hnone, hk⟩ := (hshown e hen).mp hsh
    exact ⟨hgit, hnone, e, hen ▸ find?_of_nodup hnd he, hk⟩
  · rintro ⟨hgit, hnone, e, hf, hk⟩
    have hen : e.name = name := by simpa using List.find?_some hf
    exact ⟨e, List.mem_of_find?_eq_some hf, (hshown e hen).mpr ⟨hgit, hnone, hk⟩⟩

theorem mem_overlayShown (hq : Child dir name q) :
    (name, kind) ∈ (P.children ov dir).filterMap overlayShown ↔
      ∃ e, ov.lookup q = some e ∧ e.kind = some kind := by
  rw [List.mem_filterMap]
  constructor
  · rintro ⟨⟨n, e⟩, hmem, hsh⟩
    obtain ⟨k, hk, heq⟩ := Option.map_eq_some_iff.mp hsh
    cases heq
    obtain ⟨q', hq', he⟩ := mem_children.mp hmem
    obtain rfl : q' = q := (hq'.unique hq).mpr rfl
    exact ⟨e, he, hk⟩
  · rintro ⟨e, he, hk⟩
    exact ⟨(name, e), mem_children.mpr ⟨q, hq, he⟩, by rw [overlayShown, hk]; rfl⟩

theorem exists_child_of_shown (h : (name, kind) ∈ P.shown ov dir entries) :
    ∃ q, Child dir name q := by
  simp only [shown, List.mem_append, List.mem_filterMap] at h
  rcases h with (⟨e, -, he⟩ | ⟨⟨n, e⟩, hmem, hsh⟩) | h
  · obtain ⟨rfl, -, q, hq, -⟩ := baselineShown_name he
    exact ⟨q, hq⟩
  · obtain ⟨k, -, heq⟩ := Option.map_eq_some_iff.mp hsh
    cases heq
    obtain ⟨q, hq, -⟩ := mem_children.mp hmem
    exact ⟨q, hq⟩
  · split at h
    · rename_i hroot
      obtain rfl := isRoot_iff.mp hroot
      cases List.mem_singleton.mp h
      exact ⟨gitfilePath, child_gitfilePath.mpr rfl⟩
    · cases h

theorem sublist_filterMap {α β γ : Type} {g : α → Option β} {f : α → γ} {proj : β → γ} (l : List α)
    (h : ∀ x ∈ l, ∀ y, g x = some y → proj y = f x) :
    ((l.filterMap g).map proj).Sublist (l.map f) := by
  induction l with
  | nil => exact List.Sublist.slnil
  | cons x xs ih =>
    have hrest := ih fun z hz => h z (List.mem_cons_of_mem x hz)
    cases hg : g x with
    | none =>
      rw [List.filterMap_cons_none hg, List.map_cons]
      exact hrest.cons (f x)
    | some y =>
      rw [List.filterMap_cons_some hg, List.map_cons, List.map_cons, h x List.mem_cons_self y hg]
      exact hrest.cons_cons (f x)

theorem nodup_children : ((P.children ov dir).map Prod.fst).Nodup := by
  have hsub : ((P.children ov dir).map Prod.fst).Sublist ((P.hashOrder ov.index dir).map id) := by
    refine sublist_filterMap _ fun name _ y hy => ?_
    split at hy
    · obtain ⟨e, -, rfl⟩ := Option.map_eq_some_iff.mp hy
      rfl
    · cases hy
  rw [List.map_id] at hsub
  exact hsub.nodup (P.nodup_hashOrder ov.index dir)

theorem overlayShown_name {child : Bytes × OverlayEntry} {x : Bytes × Kind}
    (h : overlayShown child = some x) : x.1 = child.1 := by
  obtain ⟨k, -, rfl⟩ := Option.map_eq_some_iff.mp h
  rfl

theorem nodup_shown (hov : ov.SparesGitfile) (hnd : (entries.map TreeEntry.name).Nodup) :
    ((P.shown ov dir entries).map Prod.fst).Nodup := by
  have hbase : ((entries.filterMap (baselineShown ov dir)).map Prod.fst).Nodup :=
    (sublist_filterMap entries fun e _ x hx => (baselineShown_name hx).1).nodup hnd
  have hover : (((P.children ov dir).filterMap overlayShown).map Prod.fst).Nodup :=
    (sublist_filterMap (f := Prod.fst) (P.children ov dir) fun _ _ x hx => overlayShown_name hx).nodup
      nodup_children
  have hdisjoint : ∀ a ∈ (entries.filterMap (baselineShown ov dir)).map Prod.fst,
      ∀ b ∈ ((P.children ov dir).filterMap overlayShown).map Prod.fst, a ≠ b := by
    intro a ha b hb heq
    obtain ⟨x, hx, rfl⟩ := List.mem_map.mp ha
    obtain ⟨y, hy, rfl⟩ := List.mem_map.mp hb
    obtain ⟨e, -, he⟩ := List.mem_filterMap.mp hx
    obtain ⟨child, hchild, hc⟩ := List.mem_filterMap.mp hy
    obtain ⟨hname, -, q, hq, hnone⟩ := baselineShown_name he
    obtain ⟨q', hq', hsome⟩ := mem_children.mp hchild
    rw [hname, overlayShown_name hc] at heq
    obtain rfl := (hq.unique hq').mpr heq
    rw [hnone] at hsome
    cases hsome
  rw [shown, List.map_append, List.map_append, List.nodup_append, List.nodup_append]
  refine ⟨⟨hbase, hover, hdisjoint⟩, by split <;> simp, fun a ha b hb heq => ?_⟩
  split at hb
  · rename_i hroot
    obtain rfl := List.mem_singleton.mp hb
    rcases List.mem_append.mp ha with h | h
    · obtain ⟨x, hx, rfl⟩ := List.mem_map.mp h
      obtain ⟨e, -, he⟩ := List.mem_filterMap.mp hx
      obtain ⟨hname, hgit, -⟩ := baselineShown_name he
      exact hgit ⟨hroot, hname.symm.trans heq⟩
    · obtain ⟨x, hx, rfl⟩ := List.mem_map.mp h
      obtain ⟨child, hchild, hc⟩ := List.mem_filterMap.mp hx
      obtain rfl := isRoot_iff.mp hroot
      exact children_root hov hchild ((overlayShown_name hc).symm.trans heq)
  · cases hb

theorem kind_entryResolved {e : OverlayEntry} (hb : ∃ r, P.baselineResolve q = .ok r)
    (href : ∀ oid mode, e = .baseRef oid mode → mode.kind ≠ .dir) :
    e.kind = some kind ↔ ∃ r, P.entryResolved q e = .ok (some r) ∧ r.kind = kind := by
  cases e with
  | file c x => simp [OverlayEntry.kind, entryResolved, Resolved.kind]
  | symlink t => simp [OverlayEntry.kind, entryResolved, Resolved.kind]
  | tombstone => simp [OverlayEntry.kind, entryResolved]
  | dir =>
    obtain ⟨r, hr⟩ := hb
    obtain ⟨bt, hbt, -⟩ := baselineTreeAt_of hr
    simp [OverlayEntry.kind, entryResolved, Resolved.kind, hbt]
  | baseRef oid mode =>
    have hm := href oid mode rfl
    cases mode <;> simp_all [OverlayEntry.kind, entryResolved, baserefResolved, Resolved.kind, GitMode.kind]

/-- In a regular overlay a listing and the lookups of its names agree. -/
theorem mem_shown (hov : P.Regular ov) (hlinks : P.store.OpaqueLinks P.baselineTree)
    (hnames : P.store.UniqueNames P.baselineTree) (hdir : P.resolve ov dir = .ok (some (.dir bt)))
    (hes : P.treeEntries bt = .ok entries) (hq : Child dir name q) :
    (name, kind) ∈ P.shown ov dir entries ↔
      ∃ r, P.resolve ov q = .ok (some r) ∧ r.kind = kind := by
  have hnd := nodup_listed hlinks hnames hdir hes
  have hbase := (baseline_listed hlinks hdir hes).2
  have hiff : dir.isRoot ∧ name = gitfileName ↔ q = gitfilePath := by
    constructor
    · rintro ⟨hroot, rfl⟩
      obtain rfl := isRoot_iff.mp hroot
      exact (hq.unique (child_gitfilePath.mpr rfl)).mpr rfl
    · rintro rfl
      obtain rfl := hq.parent_unique (child_gitfilePath.mpr rfl)
      exact ⟨rfl, child_gitfilePath.mp hq⟩
  rw [shown, List.mem_append, List.mem_append, mem_baselineShown hnd hq, mem_overlayShown hq]
  by_cases hgit : q = gitfilePath
  · -- the synthetic `.git` of the root
    obtain ⟨hroot, hname⟩ := hiff.mpr hgit
    rw [hgit, hov.gitfile.lookup, resolve_gitfile, if_pos hroot]
    simp [hroot, hname, Resolved.kind, eq_comm]
  · have hnot : ¬ (dir.isRoot ∧ name = gitfileName) := fun h => hgit (hiff.mp h)
    have hthird : (name, kind) ∉ if dir.isRoot then [(gitfileName, Kind.file false)] else [] := by
      intro h
      split at h
      · rename_i hroot
        cases List.mem_singleton.mp h
        exact hnot ⟨hroot, rfl⟩
      · cases h
    have hord : q.Ordinary := ⟨hq.ne_root, fun h => hgit (eq_gitfilePath h)⟩
    simp only [hnot, hthird, not_false_eq_true, true_and, or_false]
    cases he : ov.lookup q with
    | some e =>
      have href : ∀ oid mode, e = .baseRef oid mode → mode.kind ≠ .dir := by
        rintro oid mode rfl
        exact hov.refs q oid mode he
      rw [resolve_entry hord he, ← kind_entryResolved ⟨_, hbase name q hq⟩ href]
      simp
    | none =>
      rw [resolve_unset hord he, unmasked_child hov.anchored hdir hq, if_neg (by simp), hbase name q hq]
      cases hf : entries.find? (·.name = name) with
      | none => simp
      | some e => simp [TreeEntry.kind_resolved]

end Projection

open Projection

/-- In every state that the kernel's calls reach, as long as no rename lands a file on a path with
overlay directories beneath it. -/
theorem listing_agrees (P : Projection) (pid : Nat) (journal : Option (State × JournalDir))
    (hnames : P.store.UniqueNames P.baselineTree) (hlinks : P.store.OpaqueLinks P.baselineTree)
    {ops : List Op} {w w' : World} (hrun : Trace (AdmittedStep P) (World.fresh pid journal) ops w)
    {ino : Nat} {dir : RepoPath} {out : List DirEntry} (hdir : w.pathOf ino = .ok dir)
    (h : (P.readdir ino).run w = (.ok out, w')) :
    (out.map DirEntry.name).Nodup ∧
      (∀ name kind, (∃ e ∈ out, e.name = name ∧ e.kind = kind) ↔
        ∃ q r, Child dir name q ∧ P.resolve w.overlay q = .ok (some r) ∧ r.kind = kind) ∧
      (dir = root → ∃ i, out.filter (·.name = gitfileName) = [⟨gitfileName, .file false, i⟩]) := by
  have hov := regular_run hrun
  obtain ⟨dir', bt, entries, hdir', hres, hes, hshown⟩ := run_readdir h
  obtain rfl : dir = dir' := Except.ok.inj (hdir.symm.trans hdir')
  refine ⟨?_, fun name kind => ?_, fun hroot => ?_⟩
  · have hnd : ((P.shown w.overlay dir entries).map Prod.fst).Nodup :=
      nodup_shown hov.gitfile (nodup_listed hlinks hnames hres hes)
    rw [← hshown, List.map_map] at hnd
    exact hnd
  · have hmem : (∃ e ∈ out, e.name = name ∧ e.kind = kind) ↔ (name, kind) ∈ P.shown w.overlay dir entries := by
      rw [← hshown, List.mem_map]
      simp [DirEntry.shown]
    rw [hmem]
    constructor
    · intro hs
      obtain ⟨q, hq⟩ := exists_child_of_shown hs
      obtain ⟨r, hr⟩ := (mem_shown hov hlinks hnames hres hes hq).mp hs
      exact ⟨q, r, hq, hr⟩
    · rintro ⟨q, r, hq, hr⟩
      exact (mem_shown hov hlinks hnames hres hes hq).mpr ⟨r, hr⟩
  · subst hroot
    exact readdir_root_gitfile hov.gitfile hdir h

/-! A baseline of nested directories `d/x/y` with the file `z`. -/

def deepStore : GitStore where
  readTree oid :=
    if oid.raw = [1] then .ok [⟨[100], .tree, ⟨[2]⟩⟩]
    else if oid.raw = [2] then .ok [⟨[120], .tree, ⟨[3]⟩⟩]
    else if oid.raw = [3] then .ok [⟨[121], .tree, ⟨[4]⟩⟩]
    else if oid.raw = [4] then .ok [⟨[122], .regular, ⟨[5]⟩⟩]
    else .error ⟨.offlineMissingObject, "object not found"⟩
  readBlobRaw _ := .ok [120]
  objectSize _ := .ok 1

noncomputable def deepProjection : Projection := xFirstProjection deepStore

/-- `mkdir e`, lookups down to `d/x`, `rename e d/x/y`, `mkdir s`, `create s/x`, `rename s d`,
`unlink d/x`. -/
def surfacing : List Op :=
  [.mkdir 1 [101], .lookup 1 [100], .lookup 3 [120], .rename 1 [101] 4 [121] 0, .mkdir 1 [115],
    .create 5 [120] false, .rename 1 [115] 1 [100] 0, .unlink 5 [120]]

noncomputable def surfaced (n : Nat) : World :=
  (surfacing.take n).foldl (fun w op => ((op.handler deepProjection 9).run w).2) (World.fresh 7 none)

/-- Every path down to `dir` is a visible directory. -/
def Projection.Open (P : Projection) (ov : Overlay) (dir : RepoPath) : Prop :=
  ∀ q, Under q dir → ∃ bt, P.resolve ov q = .ok (some (.dir bt))

theorem open_root (P : Projection) (ov : Overlay) : P.Open ov root := by
  intro q hq
  rw [eq_root_of_under hq]
  exact ⟨_, rfl⟩

theorem Projection.Open.child {P : Projection} {ov : Overlay} {dir q : RepoPath} {name : Bytes}
    {bt : Option ObjectId} (h : P.Open ov dir) (hq : Child dir name q)
    (hr : P.resolve ov q = .ok (some (.dir bt))) : P.Open ov q := by
  intro m hm
  rcases (under_child_iff hq).mp hm with rfl | hm
  · exact ⟨bt, hr⟩
  · exact h m hm

def LegalStep (P : Projection) (w : World) (op : Op) (w' : World) : Prop :=
  op.Legal P w ∧ op.Walked P w ∧ P.Step w op w'

theorem surfaced_step {n : Nat} {op : Op} (hop : surfacing[n]? = some op)
    (h : ((op.handler deepProjection 9).run (surfaced n)).1 ≠ .diverge) :
    deepProjection.Step (surfaced n) op (surfaced (n + 1)) := by
  refine ⟨9, _, Prod.ext rfl ?_, h⟩
  rw [surfaced, surfaced, List.take_add_one, hop]
  simp

def dxy : RepoPath := ofComponents [[100], [120], [121]] (by decide)

def dxyz : RepoPath := ofComponents [[100], [120], [121], [122]] (by decide)

def sx : RepoPath := ofComponents [[115], [120]] (by decide)

theorem surfaced_root (n : Nat) : (surfaced n).pathOf rootIno = .ok root ∧
    (surfaced n).Walked deepProjection rootIno ∧ (surfaced n).HasDir deepProjection rootIno :=
  ⟨rfl, ⟨root, rfl, open_root _ _⟩, root, _, rfl, rfl⟩

/-- Up to the first rename, which moves an empty directory. -/
theorem surfaced_start :
    Trace (AdmittedStep deepProjection) (World.fresh 7 none) (surfacing.take 4) (surfaced 4) := by
  have hino : (surfaced 3).pathOf 4 = .ok dx := by decide +kernel
  have hdx : deepProjection.resolve (surfaced 3).overlay dx = .ok (some (.dir (some ⟨[3]⟩))) := by
    decide +kernel
  have hd : deepProjection.resolve (surfaced 3).overlay (letter 100) = .ok (some (.dir (some ⟨[2]⟩))) := by
    decide +kernel
  have hd' : Child root [100] (letter 100) := rfl
  have hopen := (open_root deepProjection (surfaced 3).overlay).child hd' hd
  have hstep : deepProjection.Step (surfaced 3) (.rename 1 [101] 4 [121] 0) (surfaced 4) :=
    surfaced_step rfl (by decide +kernel)
  have hnames : ∀ src dst, (surfaced 3).Names 1 [101] src → (surfaced 3).Names 4 [121] dst →
      src = letter 101 ∧ dst = dxy := fun src dst hsrc hdst =>
    ⟨names_eq (surfaced_root 3).1 rfl hsrc, names_eq hino rfl hdst⟩
  refine .cons ⟨⟨(surfaced_root 0).2.2, (surfaced_root 0).2.1, trivial⟩,
    surfaced_step (n := 0) rfl (by decide +kernel)⟩ ?_
  refine .cons ⟨⟨trivial, trivial, trivial⟩, surfaced_step (n := 1) rfl (by decide +kernel)⟩ ?_
  refine .cons ⟨⟨trivial, trivial, trivial⟩, surfaced_step (n := 2) rfl (by decide +kernel)⟩ ?_
  refine .cons ⟨⟨⟨(surfaced_root 3).2.2, ⟨dx, _, hino, hdx⟩, fun src dst hsrc hdst => ?_⟩,
    ⟨(surfaced_root 3).2.1, dx, hino, hopen.child rfl hdx⟩,
    fun src dst hsrc hdst q q' r hm _ _ m hu _ he => ?_⟩, hstep⟩ (.nil _)
  · obtain ⟨rfl, rfl⟩ := hnames src dst hsrc hdst
    exact ⟨by decide, by decide, .dir none, some (.dir (some ⟨[4]⟩)), by decide +kernel, by decide +kernel,
      by simp [Resolved.isDir]⟩
  · obtain ⟨rfl, rfl⟩ := hnames src dst hsrc hdst
    have hns : (surfaced 3).ns = Function.update (fun _ => none) (letter 101) (some .dir) := rfl
    rw [hns] at he
    obtain ⟨cs, -, -, hq'⟩ := hm
    by_cases hme : m = letter 101
    · rw [hme, Under, hq'] at hu
      exact absurd (List.IsPrefix.trans ⟨cs, rfl⟩ hu) (by decide)
    · rw [Function.update_of_ne hme] at he
      cases he

theorem surfaced_run : Trace (LegalStep deepProjection) (World.fresh 7 none) surfacing (surfaced 8) := by
  have hs : (surfaced 5).pathOf 5 = .ok (letter 115) := by decide +kernel
  have hd : (surfaced 7).pathOf 5 = .ok (letter 100) := by decide +kernel
  have hs' : deepProjection.resolve (surfaced 5).overlay (letter 115) = .ok (some (.dir none)) := by
    decide +kernel
  have hd' : deepProjection.resolve (surfaced 7).overlay (letter 100) = .ok (some (.dir (some ⟨[2]⟩))) := by
    decide +kernel
  have hstart : Trace (LegalStep deepProjection) _ _ (surfaced 4) :=
    surfaced_start.mono fun _ _ _ h => ⟨h.1.1, h.1.2.1, h.2⟩
  refine hstart.append ?_
  refine .cons ⟨(surfaced_root 4).2.2, (surfaced_root 4).2.1, surfaced_step (n := 4) rfl (by decide +kernel)⟩ ?_
  refine .cons ⟨⟨⟨letter 115, _, hs, hs'⟩, fun path hpath => ?_⟩,
    ⟨letter 115, hs, (open_root _ _).child rfl hs'⟩, surfaced_step (n := 5) rfl (by decide +kernel)⟩ ?_
  · obtain rfl := names_eq (p := sx) hs rfl hpath
    decide +kernel
  refine .cons ⟨⟨(surfaced_root 6).2.2, (surfaced_root 6).2.2, fun src dst hsrc hdst => ?_⟩,
    ⟨(surfaced_root 6).2.1, (surfaced_root 6).2.1⟩, surfaced_step (n := 6) rfl (by decide +kernel)⟩ ?_
  · obtain rfl := names_eq (p := letter 115) (surfaced_root 6).1 rfl hsrc
    obtain rfl := names_eq (p := letter 100) (surfaced_root 6).1 rfl hdst
    exact ⟨by decide, by decide, .dir none, some (.dir (some ⟨[2]⟩)), by decide +kernel, by decide +kernel,
      by simp [Resolved.isDir]⟩
  refine .cons ⟨⟨⟨letter 100, _, hd, hd'⟩, fun path hpath => ?_⟩,
    ⟨letter 100, hd, (open_root _ _).child rfl hd'⟩, surfaced_step (n := 7) rfl (by decide +kernel)⟩ (.nil _)
  obtain rfl := names_eq (p := dx) hd rfl hpath
  exact ⟨.file (.overlay dx) false, by decide +kernel, rfl⟩

theorem deepStore_holds {t : ObjectId} (h : deepStore.Holds ⟨[1]⟩ t) :
    t = ⟨[1]⟩ ∨ t = ⟨[2]⟩ ∨ t = ⟨[3]⟩ ∨ t = ⟨[4]⟩ := by
  induction h with
  | root => exact .inl rfl
  | sub _ hes he hm ih =>
    rcases ih with rfl | rfl | rfl | rfl <;>
      · cases hes
        obtain rfl := List.mem_singleton.mp he
        simp_all

theorem deepStore_names : deepStore.UniqueNames ⟨[1]⟩ ∧ deepStore.OpaqueLinks ⟨[1]⟩ := by
  refine ⟨fun t es ht hes => ?_, fun t es e ht hes he hm => ?_⟩
  · rcases deepStore_holds ht with rfl | rfl | rfl | rfl <;>
      · cases hes
        simp
  · rcases deepStore_holds ht with rfl | rfl | rfl | rfl <;>
      · cases hes
        obtain rfl := List.mem_singleton.mp he
        cases hm

theorem listing_agrees_moved_directory :
    let out := [⟨[122], .file false, 5⟩]
    (out.map DirEntry.name).Nodup ∧
      (∀ name kind, (∃ e ∈ out, e.name = name ∧ e.kind = kind) ↔
        ∃ q r, Child dxy name q ∧ deepProjection.resolve (surfaced 4).overlay q = .ok (some r) ∧
          r.kind = kind) ∧
      (dxy = root → ∃ i, out.filter (·.name = gitfileName) = [⟨gitfileName, .file false, i⟩]) := by
  have hino : (surfaced 4).pathOf 2 = .ok dxy := by decide +kernel
  have hout : ((deepProjection.readdir 2).run (surfaced 4)).1 = .ok [⟨[122], .file false, 5⟩] := by
    decide +kernel
  exact listing_agrees deepProjection 7 none deepStore_names.1 deepStore_names.2 surfaced_start hino
    (Prod.ext hout rfl)

/-- Every call is one that the kernel makes. The listing of `d/x/y` has `z`, and `d/x/y/z` is absent. -/
theorem listing_shows_masked_name :
    deepStore.UniqueNames ⟨[1]⟩ ∧ deepStore.OpaqueLinks ⟨[1]⟩ ∧
      Trace (LegalStep deepProjection) (World.fresh 7 none) surfacing (surfaced 8) ∧
      (surfaced 8).pathOf 2 = .ok dxy ∧ Child dxy [122] dxyz ∧
      ((deepProjection.readdir 2).run (surfaced 8)).1 = .ok [⟨[122], .file false, 7⟩] ∧
      deepProjection.resolve (surfaced 8).overlay dxyz = .ok none :=
  ⟨deepStore_names.1, deepStore_names.2, surfaced_run, by decide +kernel, rfl, by decide +kernel,
    by decide +kernel⟩

end LazyMount
