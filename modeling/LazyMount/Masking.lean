import LazyMount.HandlerSteps
import LazyMount.Layering

/-! What each handler does to a closed namespace, and what a directory rename needs to leave it
closed. -/

namespace LazyMount

open Function (update)
open RepoPath

namespace RepoPath

variable {p q a b c d : RepoPath} {m n : Bytes}

theorem under_sibling (hc : Child p m c) (hd : Child p n d) (h : Under c q) (h' : Under d q) :
    m = n := by
  have hlen : c.components.length = d.components.length := by rw [hc, hd]; simp
  have heq := (List.prefix_of_prefix_length_le h h' hlen.le).eq_of_length hlen
  exact (hc.unique hd).mp (ext_components heq)

theorem under_or_under (h : Under a q) (h' : Under b q) : Under a b ∨ Under b a :=
  List.prefix_or_prefix_of_prefix h h'

end RepoPath

namespace Projection

variable {P : Projection} {ns : Namespace} {ov : Overlay} {p q dir : RepoPath}

theorem valid_of_child {name : Bytes} (h : Child p name q) : ValidComponent name :=
  validComponent_of_mem (p := q) (by rw [h]; simp)

/-! What the loops over a directory read. -/

theorem mem_children {name : Bytes} {e : OverlayEntry} :
    (name, e) ∈ P.children ov p ↔ ∃ q, Child p name q ∧ ov.lookup q = some e := by
  simp only [children, List.mem_filterMap, P.mem_hashOrder, ov.index.mem_children]
  constructor
  · intro hh
    obtain ⟨m, -, hm⟩ := hh
    split at hm
    · rename_i q hq
      obtain ⟨e', he, heq⟩ := Option.map_eq_some_iff.mp hm
      cases heq
      exact ⟨q, (join_ok_iff.mp hq).2, he⟩
    · cases hm
  · intro hh
    obtain ⟨q, hq, he⟩ := hh
    have hj : p.join name = .ok q := join_ok_iff.mpr ⟨valid_of_child hq, hq⟩
    exact ⟨name, ⟨q, hq, by rw [show ov.index.entries q = some e from he]; rfl⟩, by simp [hj, he]⟩

theorem undecidedNames_ok {entries : List TreeEntry} {names : List Bytes}
    (h : undecidedNames ov dir entries = .ok names) :
    (∀ e ∈ entries, ∃ q, Child dir e.name q) ∧
      ∀ e ∈ entries, ∀ q, Child dir e.name q → e.name ∈ names ∨ (ov.lookup q).isSome := by
  induction entries generalizing names with
  | nil => simp
  | cons e entries ih =>
    obtain ⟨child, hj, h⟩ := Except.bind_eq_ok.mp h
    obtain ⟨rest, hrest, h⟩ := Except.bind_eq_ok.mp h
    obtain ⟨hv, hch⟩ := join_eq_ok.mp hj
    obtain ⟨ih1, ih2⟩ := ih hrest
    have hsub : ∀ n ∈ rest, n ∈ names := by
      intro n hn
      cases h
      split
      · exact hn
      · exact List.mem_cons_of_mem _ hn
    refine ⟨fun e' he' => ?_, fun e' he' q hq => ?_⟩
    · rcases List.mem_cons.mp he' with rfl | he'
      · exact ⟨child, hch⟩
      · exact ih1 e' he'
    · rcases List.mem_cons.mp he' with rfl | he'
      · obtain rfl : q = child := (hq.unique hch).mpr rfl
        cases h
        split
        · rename_i hs
          exact .inr hs
        · simp
      · exact (ih2 e' he' q hq).imp_left (hsub _)

theorem resolveAll_ok {names : List Bytes} {out : List (Bytes × Resolved)}
    (h : P.resolveAll ov dir names = .ok out) :
    (out.map Prod.fst).Sublist names ∧
      (∀ kid ∈ out, ∃ q, Child dir kid.1 q ∧ P.resolve ov q = .ok (some kid.2)) ∧
      ∀ name ∈ names, (∃ kid ∈ out, kid.1 = name) ∨
        ∀ q, Child dir name q → P.resolve ov q = .ok none := by
  induction names generalizing out with
  | nil =>
    cases h
    simp
  | cons name names ih =>
    obtain ⟨child, hj, h⟩ := Except.bind_eq_ok.mp h
    obtain ⟨r, hr, h⟩ := Except.bind_eq_ok.mp h
    obtain ⟨rest, hrest, h⟩ := Except.bind_eq_ok.mp h
    obtain ⟨hv, hch⟩ := join_eq_ok.mp hj
    obtain ⟨ih1, ih2, ih3⟩ := ih hrest
    cases h
    cases r with
    | none =>
      refine ⟨ih1.cons _, ih2, fun n hn => ?_⟩
      rcases List.mem_cons.mp hn with rfl | hn
      · exact .inr fun q hq => (hq.unique hch).mpr rfl ▸ hr
      · exact ih3 n hn
    | some x =>
      refine ⟨ih1.cons_cons _, fun kid hkid => ?_, fun n hn => ?_⟩
      · rcases List.mem_cons.mp hkid with rfl | hkid
        · exact ⟨child, hch, hr⟩
        · exact ih2 kid hkid
      · rcases List.mem_cons.mp hn with rfl | hn
        · exact .inl ⟨(n, x), by simp⟩
        · rcases ih3 n hn with ⟨kid, hkid, hn⟩ | hno
          · exact .inl ⟨kid, List.mem_cons_of_mem _ hkid, hn⟩
          · exact .inr hno

theorem nodup_eraseDups {α : Type*} [BEq α] [LawfulBEq α] (l : List α) : l.eraseDups.Nodup := by
  induction hn : l.length using Nat.strong_induction_on generalizing l with
  | _ n ih =>
    cases l with
    | nil => simp
    | cons a l =>
      rw [List.eraseDups_cons, List.nodup_cons]
      refine ⟨by simp, ih _ ?_ _ rfl⟩
      have hl := List.length_filter_le (fun b => !b == a) l
      simp only [List.length_cons] at hn
      omega

/-- What `effective_children` returns: the visible children, each once. -/
structure Effective (P : Projection) (ov : Overlay) (dir : RepoPath) (entries : List TreeEntry)
    (kids : List (Bytes × Resolved)) : Prop where
  tree : ∃ bt, P.resolve ov dir = .ok (some (.dir bt)) ∧ P.treeEntries bt = .ok entries
  valid : ∀ e ∈ entries, ∃ q, Child dir e.name q
  nodup : (kids.map Prod.fst).Nodup
  resolved : ∀ kid ∈ kids, ∃ q, Child dir kid.1 q ∧ P.resolve ov q = .ok (some kid.2)
  skipped : ∀ name q, Child dir name q → (∀ kid ∈ kids, kid.1 ≠ name) →
    P.resolve ov q = .ok none ∨ ov.lookup q = some .tombstone ∨
      ov.lookup q = none ∧ ∀ e ∈ entries, e.name ≠ name

theorem effective {kids : List (Bytes × Resolved)} (h : P.effectiveChildren ov dir = .ok kids) :
    ∃ entries, Effective P ov dir entries kids := by
  obtain ⟨r, hr, h⟩ := Except.bind_eq_ok.mp h
  split at h
  · rename_i bt
    obtain ⟨entries, hes, h⟩ := Except.bind_eq_ok.mp h
    obtain ⟨names, hnames, h⟩ := Except.bind_eq_ok.mp h
    obtain ⟨und, hund, hnames⟩ := Except.bind_eq_ok.mp hnames
    cases hnames
    obtain ⟨hvalid, hdec⟩ := undecidedNames_ok hund
    obtain ⟨hsub, hres, hall⟩ := resolveAll_ok h
    refine ⟨entries, ⟨bt, hr, hes⟩, hvalid, hsub.nodup (nodup_eraseDups _), hres, fun name q hq hno => ?_⟩
    have hskip : name ∈ (und ++ ((P.children ov dir).filter (·.2 ≠ .tombstone)).map (·.1)).eraseDups →
        P.resolve ov q = .ok none := by
      intro hn
      rcases hall name hn with ⟨kid, hkid, hk⟩ | hnone
      · exact (hno kid hkid hk).elim
      · exact hnone q hq
    simp only [List.mem_eraseDups, List.mem_append, List.mem_map, List.mem_filter] at hskip
    cases he : ov.lookup q with
    | none =>
      by_cases hin : ∃ e ∈ entries, e.name = name
      · obtain ⟨e, hee, rfl⟩ := hin
        rcases hdec e hee q hq with hn | hs
        · exact .inl (hskip (.inl hn))
        · rw [he] at hs
          cases hs
      · exact .inr (.inr ⟨rfl, fun e hee hen => hin ⟨e, hee, hen⟩⟩)
    | some e =>
      by_cases ht : e = .tombstone
      · exact .inr (.inl (by rw [ht]))
      · have hmem : (name, e) ∈ P.children ov dir := mem_children.mpr ⟨q, hq, he⟩
        exact .inl (hskip (.inr ⟨(name, e), ⟨hmem, by simpa using ht⟩, rfl⟩))
  · cases h

/-- The same of a closed namespace. -/
structure Kids (P : Projection) (ns : Namespace) (dir : RepoPath) (entries : List TreeEntry)
    (kids : List (Bytes × Resolved)) : Prop where
  tree : ∃ bt, P.view ns dir = .ok (some (.dir bt)) ∧ P.treeEntries bt = .ok entries
  valid : ∀ e ∈ entries, ∃ q, Child dir e.name q
  nodup : (kids.map Prod.fst).Nodup
  resolved : ∀ kid ∈ kids, ∃ q, Child dir kid.1 q ∧ P.view ns q = .ok (some kid.2)
  skipped : ∀ name q, Child dir name q → (∀ kid ∈ kids, kid.1 ≠ name) →
    P.view ns q = .ok none ∨ ns q = none ∧ ∀ e ∈ entries, e.name ≠ name

theorem effectiveChildren_ok {kids : List (Bytes × Resolved)} (hc : P.Closed ns)
    (hov : ov.index.entries = ns) (h : P.effectiveChildren ov dir = .ok kids) :
    ∃ entries, Kids P ns dir entries kids := by
  obtain ⟨entries, he⟩ := effective h
  have hres : P.resolve ov = P.view ns := funext (hc.resolve_eq hov)
  refine ⟨entries, hres ▸ he.tree, he.valid, he.nodup, hres ▸ he.resolved, fun name q hq hno => ?_⟩
  rcases he.skipped name q hq hno with h | h | h
  · exact .inl (hres ▸ h)
  · left
    have ht : ns q = some .tombstone := by rw [← hov]; exact h
    rw [view_ordinary (hc.unset q (by simp [ht])), ht]
    rfl
  · right
    rw [← hov]
    exact h

theorem view_dir_tree {bt : Option ObjectId} (hp : p.Ordinary) (h : P.view ns p = .ok (some (.dir bt))) :
    ∃ r, P.baselineResolve p = .ok r ∧ ∀ t, bt = some t ↔ r = some (.dir (some t)) := by
  rw [view_ordinary hp] at h
  cases he : ns p with
  | none =>
    rw [he] at h
    exact ⟨_, h, fun t => by simp⟩
  | some e =>
    rw [he, layered] at h
    rcases entryResolved_dir h with ⟨-, bt', hbt, hb⟩ | ⟨-, hl⟩
    · cases hbt
      cases hr : P.baselineResolve p with
      | error err => simp [baselineTreeAt_error hr] at hb
      | ok r =>
        obtain ⟨bt', hb', hiff⟩ := baselineTreeAt_of hr
        rw [hb] at hb'
        cases hb'
        exact ⟨r, rfl, hiff⟩
    · exact hl.elim

theorem baselineResolve_unlisted {r : Option Resolved} {entries : List TreeEntry} {name : Bytes}
    (hp : p ≠ root) (hr : P.baselineResolve p = .ok r)
    (hes : ∀ t, r = some (.dir (some t)) → P.store.readTree t = .ok entries) (hq : Child p name q)
    (hno : ∀ e ∈ entries, e.name ≠ name) : P.baselineResolve q = .ok none := by
  rcases baselineResolve_child hp hr hq with h | ⟨sub, rfl, h⟩
  · exact h
  · rw [h]
    exact GitStore.walk_notMem (hes sub rfl) hno

theorem Kids.baseline {entries : List TreeEntry} {kids : List (Bytes × Resolved)}
    (hk : Kids P ns dir entries kids) (hp : dir.Ordinary) {name : Bytes} (hq : Child dir name q)
    (hno : ∀ e ∈ entries, e.name ≠ name) : P.baselineResolve q = .ok none := by
  obtain ⟨bt, hv, hes⟩ := hk.tree
  obtain ⟨r, hr, hiff⟩ := view_dir_tree hp hv
  refine baselineResolve_unlisted hp.1 hr (fun t ht => ?_) hq hno
  rwa [(hiff t).mpr ht] at hes

theorem Kids.hidden {entries : List TreeEntry} {kids : List (Bytes × Resolved)}
    (hk : Kids P ns dir entries kids) (hp : dir.Ordinary) {name : Bytes} (hq : Child dir name q)
    (hno : ∀ kid ∈ kids, kid.1 ≠ name) : P.view ns q = .ok none := by
  rcases hk.skipped name q hq hno with h | ⟨he, hnone⟩
  · exact h
  · rw [view_ordinary (hq.ordinary hp.1), he]
    exact hk.baseline hp hq hnone

/-! An empty directory. -/

structure Emptied (P : Projection) (p : RepoPath) (ns : Namespace) : Prop where
  closed : P.Closed ns
  ordinary : p.Ordinary
  exposed : P.Exposed ns p
  hidden : ∀ name q, Child p name q → P.view ns q = .ok none
  covered : P.Covered ns p

theorem allTombstoned_ok {entries : List TreeEntry} (h : allTombstoned ov p entries = .ok true) :
    ∀ e ∈ entries, ∃ q, Child p e.name q ∧ ov.lookup q = some .tombstone := by
  induction entries with
  | nil => simp
  | cons e entries ih =>
    obtain ⟨q, hj, h⟩ := Except.bind_eq_ok.mp h
    split at h
    · rename_i ht
      intro e' he'
      rcases List.mem_cons.mp he' with rfl | he'
      · exact ⟨q, (join_eq_ok.mp hj).2, ht⟩
      · exact ih h e' he'
    · cases h

theorem child_of_empty {name : Bytes} (hp : p ≠ root) (h : P.dirIsEmpty ov p = .ok true) (hq : Child p name q) :
    ov.lookup q = some .tombstone ∨ ov.lookup q = none ∧ P.baselineResolve q = .ok none := by
  obtain ⟨bt, hbt, h⟩ := Except.bind_eq_ok.mp h
  obtain ⟨entries, hes, h⟩ := Except.bind_eq_ok.mp h
  obtain ⟨b, hb, h⟩ := Except.bind_eq_ok.mp h
  obtain ⟨rfl, hkids⟩ := Bool.and_eq_true_iff.mp (Except.ok.inj h)
  cases he : ov.lookup q with
  | some e =>
    have hmem : (name, e) ∈ P.children ov p := mem_children.mpr ⟨q, hq, he⟩
    have ht : e = .tombstone := by simpa using List.all_eq_true.mp hkids _ hmem
    exact .inl (by rw [ht])
  | none =>
    refine .inr ⟨rfl, ?_⟩
    cases hr : P.baselineResolve p with
    | error err => simp [baselineTreeAt_error hr] at hbt
    | ok r =>
      obtain ⟨bt', hbt', hiff⟩ := baselineTreeAt_of hr
      obtain rfl : bt' = bt := Except.ok.inj (hbt'.symm.trans hbt)
      have htree : ∀ t, r = some (.dir (some t)) → P.store.readTree t = .ok entries := by
        intro t ht
        rwa [(hiff t).mpr ht] at hes
      refine baselineResolve_unlisted hp hr htree hq fun e hee hen => ?_
      obtain ⟨q', hq', ht⟩ := allTombstoned_ok hb e hee
      obtain rfl : q' = q := (hq'.unique hq).mpr hen
      rw [he] at ht
      cases ht

theorem emptied (hc : P.Closed ns) (hp : p.Ordinary) (hx : P.Exposed ns p)
    (hov : ov.index.entries = ns) (h : P.dirIsEmpty ov p = .ok true) : Emptied P p ns := by
  have hchild := fun name q (hq : Child p name q) => child_of_empty hp.1 h hq
  obtain ⟨bt, hbt, h⟩ := Except.bind_eq_ok.mp h
  obtain ⟨entries, hes, h⟩ := Except.bind_eq_ok.mp h
  obtain ⟨b, hb, h⟩ := Except.bind_eq_ok.mp h
  obtain ⟨rfl, -⟩ := Bool.and_eq_true_iff.mp (Except.ok.inj h)
  have hlook : ∀ q, ov.lookup q = ns q := fun q => by rw [← hov]; rfl
  cases hr : P.baselineResolve p with
  | error err => simp [baselineTreeAt_error hr] at hbt
  | ok r =>
    obtain ⟨bt', hbt', hiff⟩ := baselineTreeAt_of hr
    obtain rfl : bt' = bt := Except.ok.inj (hbt'.symm.trans hbt)
    refine ⟨hc, hp, hx, fun name q hq => ?_, r, hr, fun t ht => ⟨entries, ?_, fun e he => ?_⟩⟩
    · rw [view_ordinary (hq.ordinary hp.1), ← hlook]
      rcases hchild name q hq with ht | ⟨hnone, hbase⟩
      · rw [ht]
        rfl
      · rw [hnone]
        exact hbase
    · rwa [(hiff t).mpr ht] at hes
    · obtain ⟨q, hq, ht⟩ := allTombstoned_ok hb e he
      exact ⟨q, valid_of_child hq, hq, by rw [← hlook, ht]; rfl⟩

theorem Emptied.remove (he : Emptied P p ns) (v : Option OverlayEntry) :
    P.Closed (update ns p v) :=
  he.closed.update_entry he.ordinary he.exposed v (fun _ _ _ => he.hidden) fun _ _ _ => he.covered

/-! A directory rename. -/

/-- Every name that the baseline has in a directory at or beneath `src` is tombstoned or a
visible directory, and no base-ref stands there. -/
def Masks (P : Projection) (visible : RepoPath → Except Error (Option Resolved)) (ns : Namespace)
    (src : RepoPath) : Prop :=
  ∀ c bt, Under src c → visible c = .ok (some (.dir bt)) →
    (∀ entries, P.treeEntries bt = .ok entries → ∀ e ∈ entries, ∀ q, Child c e.name q →
      ns q = some .tombstone ∨ ∃ bt', visible q = .ok (some (.dir bt'))) ∧
    ∀ name q oid mode, Child c name q → ns q ≠ some (.baseRef oid mode)

/-- Nothing is visible beneath `dst`. -/
def Vacant (visible : RepoPath → Except Error (Option Resolved)) (dst : RepoPath) : Prop :=
  ∀ q, Under dst q → q ≠ dst → visible q = .ok none

/-- What `rename_dir` needs. -/
structure Movable (P : Projection) (ns : Namespace) (src dst : RepoPath) : Prop where
  closed : P.Closed ns
  srcDir : ∃ bt, P.view ns src = .ok (some (.dir bt))
  src_ordinary : src.Ordinary
  dst_ordinary : dst.Ordinary
  exposed : P.Exposed ns dst
  baseline : ∃ r, P.baselineResolve dst = .ok r
  src_dst : ¬ Under src dst
  dst_src : ¬ Under dst src
  masks : Masks P (P.view ns) ns src
  vacant : Vacant (P.view ns) dst

structure Moved (P : Projection) (ns : Namespace) (src dst : RepoPath) (ns' : Namespace) : Prop where
  closed : P.Closed ns'
  tombstone : ns' src = some .tombstone
  frame : ∀ q, ¬ Under src q → ¬ Under dst q → ns' q = ns q

/-- Nothing has changed but what lies at or beneath the children in `done`. -/
def Confined (ns : Namespace) (src dst : RepoPath) (done : List (Bytes × Resolved))
    (ns' : Namespace) : Prop :=
  ∀ q, ns' q ≠ ns q → ∃ kid ∈ done, ∃ c, (Child src kid.1 c ∨ Child dst kid.1 c) ∧ Under c q

/-- The loop over the children, after those in `done`. -/
structure Moving (P : Projection) (ns : Namespace) (src dst : RepoPath)
    (done : List (Bytes × Resolved)) (ns' : Namespace) : Prop where
  closed : P.Closed ns'
  frame : Confined ns src dst done ns'
  gone : ∀ kid ∈ done, ∀ c, Child src kid.1 c →
    P.view ns' c = .ok none ∧ (kid.2.isDir = true → ns' c = some .tombstone)

variable {ns' : Namespace} {src dst cs cd : RepoPath} {name : Bytes} {x : Resolved}
  {done todo : List (Bytes × Resolved)}

theorem movable_put_dir (hm : Movable P ns src dst) :
    Movable P (update ns dst (some .dir)) src dst ∧
      ∃ bt, P.view (update ns dst (some .dir)) dst = .ok (some (.dir bt)) := by
  have hne : ∀ q, Under src q → q ≠ dst := by
    rintro q hq rfl
    exact hm.src_dst hq
  have hview : ∀ q, q ≠ dst → P.view (update ns dst (some .dir)) q = P.view ns q :=
    fun q hq => view_congr (Function.update_of_ne hq _ _)
  have hc := hm.closed.put_dir hm.dst_ordinary hm.exposed
  obtain ⟨r, hr⟩ := hm.baseline
  obtain ⟨bt, hbt, -⟩ := baselineTreeAt_of hr
  have hdst : P.view (update ns dst (some .dir)) dst = .ok (some (.dir bt)) := by
    rw [view_ordinary hm.dst_ordinary, Function.update_self]
    simp [layered, entryResolved, hbt]
  obtain ⟨sbt, hsrc⟩ := hm.srcDir
  refine ⟨⟨hc, ⟨sbt, by rwa [hview src (hne src (Under.refl src))]⟩, hm.src_ordinary, hm.dst_ordinary,
    hc.exposed hdst, hm.baseline, hm.src_dst, hm.dst_src, fun c cbt hu hv => ?_, fun q hq hqd => ?_⟩,
    bt, hdst⟩
  · rw [hview c (hne c hu)] at hv
    obtain ⟨hnames, hrefs⟩ := hm.masks c cbt hu hv
    refine ⟨fun entries hes e he q hq => ?_, fun name q oid mode hq => ?_⟩
    · have hqd := hne q (hu.trans (under_child hq))
      rw [Function.update_of_ne hqd, hview q hqd]
      exact hnames entries hes e he q hq
    · rw [Function.update_of_ne (hne q (hu.trans (under_child hq)))]
      exact hrefs name q oid mode hq
  · rw [hview q hqd]
    exact hm.vacant q hq hqd

namespace Confined

variable (hw : Confined ns src dst done ns')

include hw

theorem untouched (hsd : ¬ Under src dst) (hds : ¬ Under dst src)
    (hnd : ((done ++ (name, x) :: todo).map Prod.fst).Nodup) {c : RepoPath}
    (hchild : Child src name c ∨ Child dst name c) (huq : Under c q) {m : RepoPath}
    (hm : Under m q) : ns' m = ns m := by
  by_contra hne
  obtain ⟨kid, hkid, d, hd, hu⟩ := hw m hne
  replace hu := hu.trans hm
  have hkn : kid.1 = name := by
    rcases hchild with hc | hc <;> rcases hd with hd | hd
    · exact under_sibling hd hc hu huq
    · rcases under_or_under ((under_child hd).trans hu) ((under_child hc).trans huq) with h | h
      · exact (hds h).elim
      · exact (hsd h).elim
    · rcases under_or_under ((under_child hd).trans hu) ((under_child hc).trans huq) with h | h
      · exact (hsd h).elim
      · exact (hds h).elim
    · exact under_sibling hd hc hu huq
  rw [List.map_append, List.map_cons, List.nodup_append] at hnd
  exact hnd.2.2 kid.1 (List.mem_map_of_mem hkid) name List.mem_cons_self hkn

theorem outside (hs : ∀ name c, Child src name c → ¬ Under c q)
    (hd : ∀ name c, Child dst name c → ¬ Under c q) : ns' q = ns q := by
  by_contra hne
  obtain ⟨kid, -, c, hc | hc, hu⟩ := hw q hne
  · exact hs _ c hc hu
  · exact hd _ c hc hu

theorem at_src (hds : ¬ Under dst src) : ns' src = ns src :=
  hw.outside (fun _ _ hc hu => not_under_parent hc hu)
    fun _ _ hc hu => hds ((under_child hc).trans hu)

theorem at_dst (hsd : ¬ Under src dst) : ns' dst = ns dst :=
  hw.outside (fun _ _ hc hu => hsd ((under_child hc).trans hu))
    fun _ _ hc hu => not_under_parent hc hu

theorem next {ns'' : Namespace} (hcs : Child src name cs) (hcd : Child dst name cd)
    (h : ∀ q, ¬ Under cs q → ¬ Under cd q → ns'' q = ns' q) :
    Confined ns src dst (done ++ [(name, x)]) ns'' := by
  intro q hq
  by_cases hus : Under cs q
  · exact ⟨(name, x), by simp, cs, .inl hcs, hus⟩
  by_cases hud : Under cd q
  · exact ⟨(name, x), by simp, cd, .inr hcd, hud⟩
  · rw [h q hus hud] at hq
    obtain ⟨kid, hkid, hh⟩ := hw q hq
    exact ⟨kid, by simp [hkid], hh⟩

end Confined

theorem Moving.untouched (hw : Moving P ns src dst done ns') (hm : Movable P ns src dst)
    (hnd : ((done ++ (name, x) :: todo).map Prod.fst).Nodup)
    {c : RepoPath} (hchild : Child src name c ∨ Child dst name c) (huq : Under c q) :
    ns' q = ns q := hw.frame.untouched hm.src_dst hm.dst_src hnd hchild huq (Under.refl q)

theorem Moving.at_src (hw : Moving P ns src dst done ns') (hm : Movable P ns src dst) :
    ns' src = ns src := hw.frame.at_src hm.dst_src

theorem Moving.at_dst (hw : Moving P ns src dst done ns') (hm : Movable P ns src dst) :
    ns' dst = ns dst := hw.frame.at_dst hm.src_dst

theorem Moving.movable (hw : Moving P ns src dst done ns') (hm : Movable P ns src dst)
    (hdst : ∃ bt, P.view ns dst = .ok (some (.dir bt)))
    (hnd : ((done ++ (name, x) :: todo).map Prod.fst).Nodup) (hcs : Child src name cs)
    (hcd : Child dst name cd) (hdir : ∃ bt, P.view ns cs = .ok (some (.dir bt))) :
    Movable P ns' cs cd := by
  have hs : ∀ q, Under cs q → ns' q = ns q := fun q hq =>
    hw.untouched hm hnd (.inl hcs) hq
  have hd : ∀ q, Under cd q → ns' q = ns q := fun q hq =>
    hw.untouched hm hnd (.inr hcd) hq
  have hvacant : ∀ q, Under cd q → P.view ns' q = .ok none := fun q hq => by
    rw [view_congr (hd q hq)]
    refine hm.vacant q ((under_child hcd).trans hq) ?_
    intro heq
    subst heq
    exact not_under_parent hcd hq
  obtain ⟨bt, hbt⟩ := hdst
  obtain ⟨cbt, hcbt⟩ := hdir
  refine ⟨hw.closed, ⟨cbt, by rwa [view_congr (hs cs (Under.refl cs))]⟩, hcs.ordinary hm.src_ordinary.1,
    hcd.ordinary hm.dst_ordinary.1, fun q n r hq hr hl => ?_, ?_, fun hu => ?_, fun hu => ?_,
    fun c cbt hu hv => ?_, fun q hq _ => hvacant q hq⟩
  · obtain rfl := hq.parent_unique hcd
    rw [view_congr (hw.at_dst hm), hbt] at hr
    cases hr
    exact hl
  · obtain ⟨r, hr, -⟩ := hw.closed.covered_of_leaf (hvacant cd (Under.refl cd)) trivial
    exact ⟨r, hr⟩
  · rcases under_or_under ((under_child hcs).trans hu) (under_child hcd) with h | h
    · exact hm.src_dst h
    · exact hm.dst_src h
  · rcases under_or_under ((under_child hcd).trans hu) (under_child hcs) with h | h
    · exact hm.dst_src h
    · exact hm.src_dst h
  · rw [view_congr (hs c hu)] at hv
    obtain ⟨hnames, hrefs⟩ := hm.masks c cbt ((under_child hcs).trans hu) hv
    refine ⟨fun entries hes e he q hq => ?_, fun n q oid mode hq => ?_⟩
    · have hq' := hs q (hu.trans (under_child hq))
      rw [hq', view_congr hq']
      exact hnames entries hes e he q hq
    · rw [hs q (hu.trans (under_child hq))]
      exact hrefs n q oid mode hq

theorem Moving.next_dir {ns'' : Namespace} (hw : Moving P ns src dst done ns')
    (hm : Movable P ns src dst) (hnd : ((done ++ (name, x) :: todo).map Prod.fst).Nodup)
    (hcs : Child src name cs) (hcd : Child dst name cd) (hmoved : Moved P ns' cs cd ns'') :
    Moving P ns src dst (done ++ [(name, x)]) ns'' := by
  have hview : P.view ns'' cs = .ok none := by
    rw [view_ordinary (hcs.ordinary hm.src_ordinary.1), hmoved.tombstone]
    rfl
  refine ⟨hmoved.closed, hw.frame.next hcs hcd hmoved.frame, fun kid hkid c hc => ?_⟩
  · rcases List.mem_append.mp hkid with hk | hk
    · have hne : kid.1 ≠ name := by
        rw [List.map_append, List.map_cons, List.nodup_append] at hnd
        exact fun h => hnd.2.2 kid.1 (List.mem_map_of_mem hk) name List.mem_cons_self h
      have hframe : ns'' c = ns' c := by
        refine hmoved.frame c (fun hu => hne (under_sibling hc hcs (Under.refl c) hu)) fun hu => ?_
        rcases under_or_under ((under_child hcd).trans hu) (under_child hc) with h | h
        · exact hm.dst_src h
        · exact hm.src_dst h
      rw [view_congr hframe, hframe]
      exact hw.gone kid hk c hc
    · rw [List.mem_singleton] at hk
      subst hk
      obtain rfl : c = cs := (hc.unique hcs).mpr rfl
      exact ⟨hview, fun _ => hmoved.tombstone⟩

variable {entries : List TreeEntry} {kids : List (Bytes × Resolved)}

theorem moveChild_of_masks (hk : Kids P ns src entries kids) (hp : src.Ordinary)
    (hmasks : Masks P (P.view ns) ns src) (hcs : Child src name cs) (hv : P.view ns cs = .ok (some x))
    (hx : x.isDir = false) (cd : RepoPath) :
    (∃ e, ns cs = some e) ∧ moveChild cs cd x = some (.rename cs cd) ∧ ∀ e ∈ entries, e.name ≠ name := by
  obtain ⟨bt, hbt, hes⟩ := hk.tree
  obtain ⟨hnames, hrefs⟩ := hmasks src bt (Under.refl src) hbt
  have hnodir : ∀ bt', P.view ns cs ≠ .ok (some (.dir bt')) := by
    intro bt' h
    rw [hv] at h
    cases h
    cases hx
  have hlisted : (∃ e ∈ entries, e.name = name) → ns cs = some .tombstone := by
    intro hh
    obtain ⟨e, he, rfl⟩ := hh
    exact (hnames entries hes e he cs hcs).resolve_right fun ⟨bt', h⟩ => hnodir bt' h
  have hv' := hv
  rw [view_ordinary (hcs.ordinary hp.1)] at hv'
  have hun : ns cs ≠ some .tombstone := by
    intro ht
    rw [ht] at hv'
    cases hv'
  have hunlisted : ∀ e ∈ entries, e.name ≠ name := fun e he hen => hun (hlisted ⟨e, he, hen⟩)
  cases he : ns cs with
  | none =>
    rw [he, layered, hk.baseline hp hcs hunlisted] at hv'
    cases hv'
  | some e =>
    refine ⟨⟨e, rfl⟩, ?_, hunlisted⟩
    rw [he, layered] at hv'
    cases e with
    | file | symlink =>
      cases hv'
      rfl
    | tombstone => cases hv'
    | baseRef oid mode => exact (hrefs name cs oid mode hcs he).elim
    | dir =>
      obtain ⟨bt', h, -⟩ := dir_of_entryResolved hv'
      cases h
      cases hx

theorem Moving.next_leaf (hw : Moving P ns src dst done ns') (hm : Movable P ns src dst)
    (hdst : ∃ bt, P.view ns dst = .ok (some (.dir bt))) (hk : Kids P ns src entries kids)
    (hnd : ((done ++ (name, x) :: todo).map Prod.fst).Nodup) (hcs : Child src name cs)
    (hcd : Child dst name cd) (hv : P.view ns cs = .ok (some x)) (hx : x.isDir = false)
    (next : ContentId) :
    Moving P ns src dst (done ++ [(name, x)]) (OverlayOp.effect next ns' (.rename cs cd)) := by
  obtain ⟨⟨e, he⟩, -, hunlisted⟩ := moveChild_of_masks hk hm.src_ordinary hm.masks hcs hv hx cd
  have hsame : ns' cs = ns cs := hw.untouched hm hnd (.inl hcs) (Under.refl cs)
  have hvacant : P.view ns' cd = .ok none := by
    rw [view_congr (hw.untouched hm hnd (.inr hcd) (Under.refl cd))]
    exact hm.vacant cd (under_child hcd) hcd.ne
  have hne : cs ≠ cd := by
    intro heq
    subst heq
    rcases under_or_under (under_child hcs) (under_child hcd) with h | h
    · exact hm.src_dst h
    · exact hm.dst_src h
  have hleaf : Leaf (some x) := by
    obtain ⟨-, hmv, -⟩ := moveChild_of_masks hk hm.src_ordinary hm.masks hcs hv hx cd
    cases x with
    | file | symlink => trivial
    | dir => cases hx
    | gitfile => cases hmv
  have hexposed : P.Exposed ns' cd := fun q n r hq hr hl => by
    obtain rfl := hq.parent_unique hcd
    obtain ⟨bt, hbt⟩ := hdst
    rw [view_congr (hw.at_dst hm), hbt] at hr
    cases hr
    exact hl
  have hput := hw.closed.put_leaf hexposed hvacant trivial e
  have hvs : P.view (update ns' cd (some e)) cs = .ok (some x) := by
    rw [view_congr (Function.update_of_ne hne _ _), view_congr hsame, hv]
  have heff : OverlayOp.effect next ns' (.rename cs cd) = update (update ns' cd (some e)) cs none := by
    simp [OverlayOp.effect, hsame, he]
  rw [heff]
  refine ⟨hput.remove_leaf (hput.exposed hvs) hvs hleaf, hw.frame.next hcs hcd fun q hs hd => ?_,
    fun kid hkid c hc => ?_⟩
  · have hqs : q ≠ cs := fun h => hs (h ▸ Under.refl cs)
    have hqd : q ≠ cd := fun h => hd (h ▸ Under.refl cd)
    rw [Function.update_of_ne hqs, Function.update_of_ne hqd]
  · rcases List.mem_append.mp hkid with hkd | hkd
    · have hkn : kid.1 ≠ name := by
        rw [List.map_append, List.map_cons, List.nodup_append] at hnd
        exact fun h => hnd.2.2 kid.1 (List.mem_map_of_mem hkd) name List.mem_cons_self h
      have hcne : c ≠ cs := fun h => hkn ((hc.unique hcs).mp h)
      have hcnd : c ≠ cd := by
        intro heq
        subst heq
        rcases under_or_under (under_child hc) (under_child hcd) with h | h
        · exact hm.src_dst h
        · exact hm.dst_src h
      have hsame' : update (update ns' cd (some e)) cs none c = ns' c := by
        rw [Function.update_of_ne hcne, Function.update_of_ne hcnd]
      rw [view_congr hsame', hsame']
      exact hw.gone kid hkd c hc
    · rw [List.mem_singleton] at hkd
      subst hkd
      obtain rfl : c = cs := (hc.unique hcs).mpr rfl
      refine ⟨?_, fun h => ?_⟩
      · rw [view_ordinary (hcs.ordinary hm.src_ordinary.1), Function.update_self]
        exact hk.baseline hm.src_ordinary hcs hunlisted
      · rw [hx] at h
        cases h

theorem Moving.finish (hw : Moving P ns src dst kids ns') (hm : Movable P ns src dst)
    (hk : Kids P ns src entries kids) : P.Closed (update ns' src (some .tombstone)) := by
  obtain ⟨bt, hbt, hes⟩ := hk.tree
  have hsrc : P.view ns' src = .ok (some (.dir bt)) := by rw [view_congr (hw.at_src hm), hbt]
  have huntouched : ∀ name q, Child src name q → (∀ kid ∈ kids, kid.1 ≠ name) → ns' q = ns q := by
    intro name q hq hno
    by_contra hne
    obtain ⟨kid, hkid, c, hc | hc, hu⟩ := hw.frame q hne
    · exact hno kid hkid (under_sibling hc hq hu (Under.refl q))
    · rcases under_or_under ((under_child hc).trans hu) (under_child hq) with h | h
      · exact hm.dst_src h
      · exact hm.src_dst h
  have hhidden : ∀ name q, Child src name q → P.view ns' q = .ok none := by
    intro name q hq
    by_cases hin : ∃ kid ∈ kids, kid.1 = name
    · obtain ⟨kid, hkid, rfl⟩ := hin
      exact (hw.gone kid hkid q hq).1
    · have hno : ∀ kid ∈ kids, kid.1 ≠ name := fun kid hkid h => hin ⟨kid, hkid, h⟩
      rw [view_congr (huntouched name q hq hno)]
      exact hk.hidden hm.src_ordinary hq hno
  obtain ⟨r, hr, hiff⟩ := view_dir_tree hm.src_ordinary hbt
  refine hw.closed.update_entry hm.src_ordinary (hw.closed.exposed hsrc) _ (fun _ _ _ => hhidden)
    fun _ _ _ => ⟨r, hr, fun t ht => ⟨entries, ?_, fun e he => ?_⟩⟩
  · rwa [(hiff t).mpr ht] at hes
  · obtain ⟨q, hq⟩ := hk.valid e he
    refine ⟨q, valid_of_child hq, hq, ?_⟩
    rcases (hm.masks src bt (Under.refl src) hbt).1 entries hes e he q hq with ht | ⟨bt', hd⟩
    · have hno : ∀ kid ∈ kids, kid.1 ≠ e.name := by
        intro kid hkid hkn
        obtain ⟨q', hq', hv⟩ := hk.resolved kid hkid
        obtain rfl : q' = q := (hq'.unique hq).mpr hkn
        rw [view_ordinary (hq.ordinary hm.src_ordinary.1), ht] at hv
        cases hv
      rw [huntouched e.name q hq hno, ht]
      rfl
    · have hin : ∃ kid ∈ kids, kid.1 = e.name := by
        by_contra hin
        have hv := hk.hidden hm.src_ordinary hq fun kid hkid h => hin ⟨kid, hkid, h⟩
        rw [hd] at hv
        cases hv
      obtain ⟨kid, hkid, hkn⟩ := hin
      obtain ⟨q', hq', hv⟩ := hk.resolved kid hkid
      obtain rfl : q' = q := (hq'.unique hq).mpr hkn
      have hisdir : kid.2.isDir = true := by
        have heq : some (Resolved.dir bt') = some kid.2 := Except.ok.inj (hd.symm.trans hv)
        rw [← Option.some.inj heq]
        rfl
      rw [(hw.gone kid hkid q' hq').2 hisdir]
      rfl

end Projection

end LazyMount
