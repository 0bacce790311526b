import LazyMount.KernelCalls
import LazyMount.Masking
import LazyMount.Visible

/-! Every directory entry of the overlay stands under directories, so that nothing above it
masks what it shows. -/

namespace LazyMount

open Function (update)
open RepoPath Prog Handler Transition

/-- `q'` is to `dst` what `q` is to `src`. -/
def RepoPath.Moves (src dst q q' : RepoPath) : Prop :=
  ∃ cs, cs ≠ [] ∧ q.components = src.components ++ cs ∧ q'.components = dst.components ++ cs

/-- No directory entry strictly beneath `p`. -/
def Namespace.Bare (ns : Namespace) (p : RepoPath) : Prop := ∀ q, Under p q → q ≠ p → ns q ≠ some .dir

/-- The kernel walks to a parent from the root, through visible directories. -/
def World.Walked (P : Projection) (w : World) (ino : Nat) : Prop :=
  ∃ dir, w.pathOf ino = .ok dir ∧ ∀ q, Under q dir → ∃ bt, P.resolve w.overlay q = .ok (some (.dir bt))

def Op.Walked (P : Projection) (w : World) : Op → Prop
  | .create parent _ _ | .unlink parent _ | .mkdir parent _ | .rmdir parent _ | .symlink parent _ _ =>
    w.Walked P parent
  | .rename parent _ newparent _ _ => w.Walked P parent ∧ w.Walked P newparent
  | _ => True

/-- No file or symlink of a renamed directory lands on a path that has directories made by the
overlay beneath it. -/
def Op.Spares (P : Projection) (w : World) : Op → Prop
  | .rename parent name newparent newname _ =>
    ∀ src dst, w.Names parent name src → w.Names newparent newname dst →
      ∀ q q' r, Moves src dst q q' → P.resolve w.overlay q = .ok (some r) → r.isDir = false →
        w.ns.Bare q'
  | _ => True

namespace RepoPath

variable {p q q' src dst cs cd : RepoPath} {name : Bytes}

theorem Moves.of_child (hcs : Child src name cs) (hcd : Child dst name cd) : Moves src dst cs cd :=
  ⟨[name], by simp, hcs, hcd⟩

theorem Moves.up (hcs : Child src name cs) (hcd : Child dst name cd) (h : Moves cs cd q q') :
    Moves src dst q q' := by
  obtain ⟨l, hl, hq, hq'⟩ := h
  refine ⟨name :: l, by simp, ?_, ?_⟩
  · rw [hq, hcs, List.append_assoc, List.singleton_append]
  · rw [hq', hcd, List.append_assoc, List.singleton_append]

theorem exists_child_under (h : Under p q) (hne : q ≠ p) : ∃ name c, Child p name c ∧ Under c q := by
  refine below_induction (motive := fun q => ∃ name c, Child p name c ∧ Under c q)
    (fun name q hq => ⟨name, q, hq, Under.refl q⟩) (fun q name r hu hne hq hr => ?_) h hne
  obtain ⟨n, c, hc, hcq⟩ := hq
  exact ⟨n, c, hc, hcq.trans (under_child hr)⟩

end RepoPath

namespace Projection

variable (P : Projection)

/-- A directory by its own entry, or one of the baseline. -/
def Passable (ns : Namespace) (q : RepoPath) : Prop :=
  ns q = some .dir ∨ ns q = none ∧ ∃ bt, P.baselineResolve q = .ok (some (.dir bt))

structure Anchored (ns : Namespace) : Prop where
  unset : ns root = none
  above : ∀ p, ns p = some .dir → ∀ q, q ≠ root → Under q p → q ≠ p → P.Passable ns q

variable {P} {ns ns' : Namespace} {ov : Overlay} {p q src dst : RepoPath} {name : Bytes}
  {r : Option Resolved} {e : OverlayEntry}

theorem anchored_empty : P.Anchored fun _ => none := ⟨rfl, by simp⟩

theorem passable_update (hne : q ≠ p) (v : Option OverlayEntry) :
    P.Passable (update ns p v) q ↔ P.Passable ns q := by
  rw [Passable, Passable, Function.update_of_ne hne]

namespace Anchored

theorem bare (ha : P.Anchored ns) (hp : p ≠ root) (h : ¬ P.Passable ns p) : ns.Bare p :=
  fun q hu hne hq => h (ha.above q hq p hp hu (Ne.symm hne))

theorem set (ha : P.Anchored ns) (hp : p ≠ root) (hb : ns.Bare p) {v : Option OverlayEntry}
    (hv : v ≠ some .dir) : P.Anchored (update ns p v) := by
  refine ⟨by rw [Function.update_of_ne (Ne.symm hp)]; exact ha.unset, fun m hm q hq hu hne => ?_⟩
  have hmp : m ≠ p := by
    intro heq
    rw [heq, Function.update_self] at hm
    exact hv hm
  rw [Function.update_of_ne hmp] at hm
  have hqp : q ≠ p := by
    intro heq
    subst heq
    exact hb m hu hmp hm
  exact (passable_update hqp v).mpr (ha.above m hm q hq hu hne)

theorem put_dir (ha : P.Anchored ns) (hp : p ≠ root)
    (hx : ∀ q, q ≠ root → Under q p → q ≠ p → P.Passable ns q) :
    P.Anchored (update ns p (some .dir)) := by
  refine ⟨by rw [Function.update_of_ne (Ne.symm hp)]; exact ha.unset, fun m hm q hq hu hne => ?_⟩
  by_cases hqp : q = p
  · subst hqp
    exact .inl (Function.update_self _ _ _)
  · rw [passable_update hqp]
    by_cases hmp : m = p
    · subst hmp
      exact hx q hq hu hne
    · rw [Function.update_of_ne hmp] at hm
      exact ha.above m hm q hq hu hne

end Anchored

theorem bare_update (hb : ns.Bare p) (he : e ≠ .dir) (m : RepoPath) :
    Namespace.Bare (update ns m (some e)) p := by
  intro q hu hne hq
  by_cases hqm : q = m
  · subst hqm
    rw [Function.update_self] at hq
    exact he (Option.some.inj hq)
  · rw [Function.update_of_ne hqm] at hq
    exact hb q hu hne hq

/-! What `resolve` says about the entries. -/

theorem ordinary_of_resolve_leaf (h : P.resolve ov p = .ok r) (hr : Leaf r) : p.Ordinary := by
  constructor
  · intro heq
    subst heq
    cases h
    exact hr
  · intro hg
    have hroot : p ≠ root := by
      intro heq
      rw [heq] at hg
      cases hg
    rw [resolve, if_neg (by rwa [isRoot_iff]), if_pos hg] at h
    cases h
    exact hr

theorem not_masked (h : P.resolve ov p = .ok (some x)) (hp : p.Ordinary) (he : ov.lookup p = none) :
    ov.ancestorTombstoned p = false ∧ P.baselineResolve p = .ok (some x) := by
  rw [resolve_unset hp he] at h
  split at h
  · cases h
  · rename_i hm
    exact ⟨by simpa using hm, h⟩

theorem ordinary_of_dir {bt : Option ObjectId} (h : P.resolve ov p = .ok (some (.dir bt)))
    (hp : p ≠ root) : p.Ordinary := by
  refine ⟨hp, fun hg => ?_⟩
  rw [resolve, if_neg (by rwa [isRoot_iff]), if_pos hg] at h
  cases h

theorem passable_of_dir {bt : Option ObjectId} (h : P.resolve ov p = .ok (some (.dir bt)))
    (hp : p ≠ root) : P.Passable ov.index.entries p := by
  have hord := ordinary_of_dir h hp
  cases he : ov.lookup p with
  | none => exact .inr ⟨he, bt, (not_masked h hord he).2⟩
  | some e =>
    rw [resolve_entry hord he] at h
    rcases entryResolved_dir h with ⟨rfl, -⟩ | ⟨-, hl⟩
    · exact .inl he
    · exact hl.elim

theorem not_passable (hp : p.Ordinary) (hm : ov.lookup p = none → ov.ancestorTombstoned p = false)
    (h : P.resolve ov p = .ok r) (hr : Leaf r) : ¬ P.Passable ov.index.entries p := by
  intro hpass
  rcases hpass with he | ⟨he, bt, hb⟩
  · rw [resolve_entry hp he] at h
    obtain ⟨bt, rfl, -⟩ := dir_of_entryResolved h
    exact hr
  · rw [resolve_unset hp he, hm he, if_neg (by simp), hb] at h
    cases h
    exact hr

/-- Nothing masks the children of a visible directory. -/
theorem unmasked_child {bt : Option ObjectId} (ha : P.Anchored ov.index.entries)
    (h : P.resolve ov p = .ok (some (.dir bt))) (hq : Child p name q) :
    ov.ancestorTombstoned q = false := by
  by_contra hm
  obtain ⟨m, hroot, hu, hne, ht⟩ := Overlay.ancestorTombstoned_iff.mp (by simpa using hm)
  have hmp : Under m p := ((under_child_iff hq).mp hu).resolve_left hne
  have hnot : ¬ P.Passable ov.index.entries m := by
    intro hpass
    rcases hpass with he | ⟨he, -⟩ <;>
      · rw [show ov.index.entries m = some .tombstone from ht] at he
        cases he
  have hp : p ≠ root := by
    intro heq
    exact hroot (eq_root_of_under (heq ▸ hmp))
  have hpass := passable_of_dir h hp
  by_cases heq : m = p
  · exact hnot (heq ▸ hpass)
  · rcases hpass with he | ⟨he, -⟩
    · exact hnot (ha.above p he m hroot hmp heq)
    · have hmask := (not_masked h (ordinary_of_dir h hp) he).1
      rw [Overlay.ancestorTombstoned_iff.mpr ⟨m, hroot, hmp, heq, ht⟩] at hmask
      cases hmask

theorem resolve_baseline {bt : Option ObjectId} (h : P.resolve ov p = .ok (some (.dir bt)))
    (hp : p ≠ root) : ∃ r, P.baselineResolve p = .ok r ∧ ∀ t, bt = some t ↔ r = some (.dir (some t)) := by
  have hord := ordinary_of_dir h hp
  suffices hview : P.view ov.index.entries p = .ok (some (.dir bt)) from view_dir_tree hord hview
  rw [view_ordinary hord]
  cases he : ov.lookup p with
  | none =>
    rw [show ov.index.entries p = none from he]
    exact (not_masked h hord he).2
  | some e =>
    rw [resolve_entry hord he] at h
    rw [show ov.index.entries p = some e from he]
    exact h

/-- An empty directory has no directory entries beneath it. -/
theorem bare_of_empty (ha : P.Anchored ov.index.entries) (hp : p ≠ root)
    (h : P.dirIsEmpty ov p = .ok true) : Namespace.Bare ov.index.entries p := by
  intro q hu hne hq
  obtain ⟨name, c, hc, hcq⟩ := exists_child_under hu hne
  have hchild : ov.index.entries c = some .tombstone ∨
      ov.index.entries c = none ∧ P.baselineResolve c = .ok none := child_of_empty hp h hc
  have hnot : ov.index.entries c ≠ some .dir := by
    intro he
    rcases hchild with ht | ⟨hn, -⟩
    · rw [he] at ht
      cases ht
    · rw [he] at hn
      cases hn
  have hcne : q ≠ c := by
    intro heq
    subst heq
    exact hnot hq
  rcases ha.above q hq c hc.ne_root hcq (Ne.symm hcne) with he | ⟨he, bt', hdir⟩
  · exact hnot he
  · rcases hchild with ht | ⟨-, hnone⟩
    · rw [he] at ht
      cases ht
    · rw [hdir] at hnone
      cases hnone

/-! A directory that is renamed. -/

/-- What `rename_dir` starts from; the overlay was `ov` before the rename. -/
structure Sifts (P : Projection) (ov : Overlay) (ns : Namespace) (src dst : RepoPath) : Prop where
  anchored : P.Anchored ns
  src_ordinary : src.Ordinary
  dst_ordinary : dst.Ordinary
  above : ∀ q, q ≠ root → Under q dst → q ≠ dst → P.Passable ns q
  src_dst : ¬ Under src dst
  dst_src : ¬ Under dst src
  same : ∀ q m, Under src q → Under m q → ns m = ov.lookup m
  spares : ∀ q q' r, Moves src dst q q' → P.resolve ov q = .ok (some r) → r.isDir = false → ns.Bare q'

structure Sifted (P : Projection) (ns : Namespace) (src dst : RepoPath) (ns' : Namespace) : Prop where
  anchored : P.Anchored ns'
  tombstone : ns' src = some .tombstone
  bare : ns'.Bare src
  frame : ∀ q, ¬ Under src q → ¬ Under dst q → ns' q = ns q

/-- The loop over the children, after those in `done`. -/
structure Sifting (P : Projection) (ns : Namespace) (src dst : RepoPath)
    (done : List (Bytes × Resolved)) (ns' : Namespace) : Prop where
  anchored : P.Anchored ns'
  frame : Confined ns src dst done ns'
  gone : ∀ kid ∈ done, ∀ c, Child src kid.1 c → ns' c ≠ some .dir ∧ ns'.Bare c

variable {cs cd : RepoPath} {x : Resolved}
  {done todo : List (Bytes × Resolved)}

theorem Sifts.put_dir (hs : Sifts P ov ns src dst) : Sifts P ov (update ns dst (some .dir)) src dst := by
  have hne : ∀ q m, Under src q → Under m q → m ≠ dst := by
    intro q m hu hm heq
    subst heq
    rcases under_or_under hu hm with h | h
    · exact hs.src_dst h
    · exact hs.dst_src h
  refine ⟨hs.anchored.put_dir hs.dst_ordinary.1 hs.above, hs.src_ordinary, hs.dst_ordinary,
    fun q hq hu hqd => ?_, hs.src_dst, hs.dst_src, fun q m hu hm => ?_, fun q q' r hm hr hdir => ?_⟩
  · rw [passable_update hqd]
    exact hs.above q hq hu hqd
  · rw [Function.update_of_ne (hne q m hu hm)]
    exact hs.same q m hu hm
  · have hb := hs.spares q q' r hm hr hdir
    obtain ⟨l, -, -, hq'⟩ := hm
    intro m hu hmq hm
    have hmd : m ≠ dst := by
      intro heq
      have hlen := hu.length_le
      rw [heq, hq', List.length_append] at hlen
      have hl : l = [] := List.eq_nil_of_length_eq_zero (by omega)
      exact hmq (ext_components (by rw [heq, hq', hl, List.append_nil]))
    rw [Function.update_of_ne hmd] at hm
    exact hb m hu hmq hm

theorem Sifting.sifts (hw : Sifting P ns src dst done ns') (hs : Sifts P ov ns src dst)
    (hdst : ns dst = some .dir) (hnd : ((done ++ (name, x) :: todo).map Prod.fst).Nodup)
    (hcs : Child src name cs) (hcd : Child dst name cd) : Sifts P ov ns' cs cd := by
  have hsame := fun {q m : RepoPath} (h : Under cs q) (hm : Under m q) =>
    hw.frame.untouched hs.src_dst hs.dst_src hnd (.inl hcs) h hm
  have hsame' := fun {q m : RepoPath} (h : Under cd q) (hm : Under m q) =>
    hw.frame.untouched hs.src_dst hs.dst_src hnd (.inr hcd) h hm
  refine ⟨hw.anchored, hcs.ordinary hs.src_ordinary.1, hcd.ordinary hs.dst_ordinary.1,
    fun q hq hu hqd => ?_, fun hu => ?_, fun hu => ?_, fun q m hu hm => ?_,
    fun q q' r hm hr hdir m hu hmq => ?_⟩
  · have hpass : P.Passable ns q := by
      by_cases heq : q = dst
      · exact .inl (heq ▸ hdst)
      · exact hs.above q hq (((under_child_iff hcd).mp hu).resolve_left hqd) heq
    rwa [Passable, hsame' (Under.refl cd) hu]
  · rcases under_or_under ((under_child hcs).trans hu) (under_child hcd) with h | h
    · exact hs.src_dst h
    · exact hs.dst_src h
  · rcases under_or_under ((under_child hcd).trans hu) (under_child hcs) with h | h
    · exact hs.dst_src h
    · exact hs.src_dst h
  · rw [hsame hu hm]
    exact hs.same q m ((under_child hcs).trans hu) hm
  · have hb := hs.spares q q' r (hm.up hcs hcd) hr hdir
    obtain ⟨l, -, -, hq'⟩ := hm
    rw [hsame' (List.IsPrefix.trans ⟨l, hq'.symm⟩ hu) (Under.refl m)]
    exact hb m hu hmq

theorem Sifting.next {ns'' : Namespace} (hw : Sifting P ns src dst done ns') (hsd : ¬ Under src dst)
    (hds : ¬ Under dst src) (hnd : ((done ++ (name, x) :: todo).map Prod.fst).Nodup)
    (hcs : Child src name cs) (hcd : Child dst name cd) (ha : P.Anchored ns'')
    (hframe : ∀ q, ¬ Under cs q → ¬ Under cd q → ns'' q = ns' q)
    (hgone : ns'' cs ≠ some .dir ∧ ns''.Bare cs) :
    Sifting P ns src dst (done ++ [(name, x)]) ns'' := by
  refine ⟨ha, hw.frame.next hcs hcd hframe, fun kid hkid c hc => ?_⟩
  rcases List.mem_append.mp hkid with hk | hk
  · have hne : kid.1 ≠ name := by
      rw [List.map_append, List.map_cons, List.nodup_append] at hnd
      exact fun h => hnd.2.2 kid.1 (List.mem_map_of_mem hk) name List.mem_cons_self h
    have hsame : ∀ q, Under c q → ns'' q = ns' q := by
      refine fun q hq => hframe q (fun hu => hne (under_sibling hc hcs hq hu)) fun hu => ?_
      rcases under_or_under ((under_child hcd).trans hu) ((under_child hc).trans hq) with h | h
      · exact hds h
      · exact hsd h
    obtain ⟨hdir, hbare⟩ := hw.gone kid hk c hc
    refine ⟨by rwa [hsame c (Under.refl c)], fun q hu hqc => ?_⟩
    rw [hsame q hu]
    exact hbare q hu hqc
  · rw [List.mem_singleton] at hk
    subst hk
    obtain rfl : c = cs := (hc.unique hcs).mpr rfl
    exact hgone

theorem not_passable_of_visible (hp : p.Ordinary) (h : P.resolve ov p = .ok (some x))
    (hdir : x.isDir = false) : ¬ P.Passable ov.index.entries p :=
  not_passable hp (fun he => (not_masked h hp he).1) h (leaf_of_resolve hp h hdir)

theorem Sifting.next_leaf (hw : Sifting P ns src dst done ns') (hs : Sifts P ov ns src dst)
    (hnd : ((done ++ (name, x) :: todo).map Prod.fst).Nodup) (hcs : Child src name cs)
    (hcd : Child dst name cd) (hr : P.resolve ov cs = .ok (some x)) (hx : x.isDir = false)
    {op : OverlayOp} (hop : moveChild cs cd x = some op) (next : ContentId) :
    Sifting P ns src dst (done ++ [(name, x)]) (op.effect next ns') := by
  have hord := hcs.ordinary hs.src_ordinary.1
  have hsame : ns' cs = ov.lookup cs := by
    rw [hw.frame.untouched hs.src_dst hs.dst_src hnd (.inl hcs) (Under.refl cs) (Under.refl cs)]
    exact hs.same cs cs (under_child hcs) (Under.refl cs)
  have hpass : ¬ P.Passable ns' cs := by
    rw [Passable, hsame]
    exact not_passable_of_visible hord hr hx
  have hbs : ns'.Bare cs := hw.anchored.bare hcs.ne_root hpass
  have hbd : ns'.Bare cd := by
    intro q hu hne
    rw [hw.frame.untouched hs.src_dst hs.dst_src hnd (.inr hcd) hu (Under.refl q)]
    exact hs.spares cs cd x (.of_child hcs hcd) hr hx q hu hne
  have hne : cs ≠ cd := by
    intro heq
    subst heq
    rcases under_or_under (under_child hcs) (under_child hcd) with h | h
    · exact hs.src_dst h
    · exact hs.dst_src h
  have hput : ∀ e : OverlayEntry, e ≠ .dir → P.Anchored (update ns' cd (some e)) ∧
      (update ns' cd (some e)) cs ≠ some .dir ∧ Namespace.Bare (update ns' cd (some e)) cs := by
    intro e he
    refine ⟨hw.anchored.set hcd.ne_root hbd (by simpa using he), ?_, bare_update hbs he cd⟩
    rw [Function.update_of_ne hne]
    exact fun h => hpass (.inl h)
  have hframe : ∀ e q, ¬ Under cd q → update ns' cd (some e) q = ns' q := by
    intro e q hq
    have hqd : q ≠ cd := fun h => hq (h ▸ Under.refl cd)
    rw [Function.update_of_ne hqd]
  have hbase : ∀ oid mode, Sifting P ns src dst (done ++ [(name, x)])
      (OverlayOp.effect next ns' (.putBaseRef cd oid mode)) := by
    intro oid mode
    obtain ⟨ha, hgone⟩ := hput (.baseRef oid mode) (by simp)
    exact hw.next hs.src_dst hs.dst_src hnd hcs hcd ha (fun q _ => hframe _ q) hgone
  have hmove : Sifting P ns src dst (done ++ [(name, x)])
      (OverlayOp.effect next ns' (.rename cs cd)) := by
    cases he : ns' cs with
    | none =>
      simp only [OverlayOp.effect, he]
      exact hw.next hs.src_dst hs.dst_src hnd hcs hcd hw.anchored (fun _ _ _ => rfl)
        ⟨by simp [he], hbs⟩
    | some e =>
      have hne' : e ≠ .dir := by
        intro h
        exact hpass (.inl (h ▸ he))
      obtain ⟨ha, -, hbare⟩ := hput e hne'
      simp only [OverlayOp.effect, he]
      refine hw.next hs.src_dst hs.dst_src hnd hcs hcd (ha.set hcs.ne_root hbare (by simp))
        (fun q hq hq' => ?_) ⟨by simp, fun q hu hqc => ?_⟩
      · have hqs : q ≠ cs := fun h => hq (h ▸ Under.refl cs)
        rw [Function.update_of_ne hqs, hframe e q hq']
      · rw [Function.update_of_ne hqc]
        exact hbare q hu hqc
  cases x with
  | file source y =>
    cases source with
    | overlay =>
      cases hop
      exact hmove
    | baseline =>
      cases hop
      exact hbase _ _
  | symlink source =>
    cases source with
    | overlay =>
      cases hop
      exact hmove
    | baseline =>
      cases hop
      exact hbase _ _
  | dir | gitfile => cases hop

/-- All children have moved: no directory entry is left beneath the source. -/
theorem Sifting.bare {kids : List (Bytes × Resolved)} {entries : List TreeEntry} {ov₁ : Overlay}
    (hw : Sifting P ov₁.index.entries src dst kids ns') (hs : Sifts P ov ov₁.index.entries src dst)
    (hk : Effective P ov₁ src entries kids) : ns'.Bare src := by
  intro q hu hne hq
  obtain ⟨name, c, hc, hcq⟩ := exists_child_under hu hne
  by_cases hin : ∃ kid ∈ kids, kid.1 = name
  · obtain ⟨kid, hkid, rfl⟩ := hin
    obtain ⟨hdir, hbare⟩ := hw.gone kid hkid c hc
    by_cases hqc : q = c
    · exact hdir (hqc ▸ hq)
    · exact hbare q hcq hqc hq
  have hno : ∀ kid ∈ kids, kid.1 ≠ name := fun kid hkid h => hin ⟨kid, hkid, h⟩
  have hsame : ns' q = ov₁.index.entries q := by
    by_contra hch
    obtain ⟨kid, hkid, d, hd | hd, hdq⟩ := hw.frame q hch
    · exact hno kid hkid (under_sibling hd hc hdq hcq)
    · rcases under_or_under ((under_child hd).trans hdq) hu with h | h
      · exact hs.dst_src h
      · exact hs.src_dst h
  rw [hsame] at hq
  obtain ⟨bt, hsrc, hes⟩ := hk.tree
  have hpass : P.Passable ov₁.index.entries c := by
    by_cases hqc : c = q
    · exact .inl (hqc ▸ hq)
    · exact hs.anchored.above q hq c hc.ne_root hcq hqc
  have hord := hc.ordinary hs.src_ordinary.1
  rcases hpass with he | ⟨he, bt', hb⟩
  · rcases hk.skipped name c hc hno with h | h | ⟨h, -⟩
    · rw [resolve_entry hord he] at h
      exact absurd (entryResolved_none_iff.mp h) (by simp)
    · rw [show ov₁.lookup c = some .dir from he] at h
      cases h
    · rw [show ov₁.lookup c = some .dir from he] at h
      cases h
  · rcases hk.skipped name c hc hno with h | h | ⟨-, h⟩
    · rw [resolve_unset hord he, unmasked_child hs.anchored hsrc hc, if_neg (by simp), hb] at h
      cases h
    · rw [show ov₁.lookup c = none from he] at h
      cases h
    · obtain ⟨r, hr, hiff⟩ := resolve_baseline hsrc hs.src_ordinary.1
      have htree : ∀ t, r = some (.dir (some t)) → P.store.readTree t = .ok entries := by
        intro t ht
        rwa [(hiff t).mpr ht] at hes
      rw [baselineResolve_unlisted hs.src_ordinary.1 hr htree hc h] at hb
      cases hb

/-- One directory that is moved: by induction on the fuel, with the loop invariant `Sifting`. -/
theorem ensures_sifted (fuel : Nat) (src dst : RepoPath) (ns : Namespace) (hs₀ : Sifts P ov ns src dst) :
    Ensures (fun w => w.ns = ns) (P.renameDir fuel src dst) (fun _ w => Sifted P ns src dst w.ns)
      fun w => P.Anchored w.ns := by
  induction fuel generalizing src dst ns with
  | zero => exact ensures_diverge
  | succ fuel ih =>
    have hs := hs₀.put_dir
    refine ensures_bind (ensures_mutate (· = ns) (· = update ns dst (some .dir)) (.putDir dst)
      fun next ns' h => by rw [h]; rfl) fun _ => ?_
    have hdst : update ns dst (some .dir) dst = some .dir := Function.update_self _ _ _
    have hother : ∀ q, q ≠ dst → update ns dst (some .dir) q = ns q :=
      fun q hq => Function.update_of_ne hq _ _
    generalize update ns dst (some .dir) = ns₁ at hs hdst hother
    refine ensures_bind (ensures_read (fun w kids hw hk => ?_) fun w hw => by rw [hw]; exact hs.anchored)
      (Q := fun kids w => (∃ ov₁ entries, ov₁.index.entries = ns₁ ∧ Effective P ov₁ src entries kids) ∧
        w.ns = ns₁) fun kids => ensures_of fun hkids => ?_
    · obtain ⟨entries, he⟩ := effective hk
      exact ⟨⟨w.overlay, entries, hw, he⟩, hw⟩
    obtain ⟨ov₁, entries, rfl, hk⟩ := hkids
    refine ensures_bind (ensures_weaken (ensures_each
      (fun done _ w => Sifting P ov₁.index.entries src dst done w.ns) fun ys x zs hxs => ?_)
      (fun w hw => ?_) fun _ _ h => h) fun _ => ?_
    · -- one child: a directory goes by the induction hypothesis, a leaf is moved or copied
      have hnd : ((ys ++ x :: zs).map Prod.fst).Nodup := hxs ▸ hk.nodup
      obtain ⟨cs, hcs, hv⟩ := hk.resolved x (by simp [hxs])
      refine ensures_bind (ensures_liftExcept (fun cs' w hj hw => ⟨(join_eq_ok.mp hj).2, hw⟩)
        fun w hw => hw.anchored) (Q := fun cs' w => Child src x.1 cs' ∧
          Sifting P ov₁.index.entries src dst ys w.ns) fun cs' => ensures_of fun hcs' => ?_
      obtain rfl : cs' = cs := (hcs'.unique hcs).mpr rfl
      refine ensures_bind (ensures_liftExcept (fun cd w hj hw => ⟨(join_eq_ok.mp hj).2, hw⟩)
        fun w hw => hw.anchored) (Q := fun cd w => Child dst x.1 cd ∧
          Sifting P ov₁.index.entries src dst ys w.ns) fun cd => ensures_of fun hcd => ?_
      cases hx : x.2.isDir with
      | true =>
        refine ensures_from fun w hw => ensures_weaken
          (ih cs' cd w.ns (hw.sifts hs hdst hnd hcs' hcd)) (fun v hv => by rw [hv]) fun _ v hv => ?_
        have hgone : v.ns cs' ≠ some .dir ∧ v.ns.Bare cs' := ⟨by simp [hv.tombstone], hv.bare⟩
        exact hw.next hs.src_dst hs.dst_src hnd hcs' hcd hv.anchored hv.frame hgone
      | false =>
        rw [if_neg (by simp)]
        have hr : P.resolve ov cs' = .ok (some x.2) := by
          rw [← hv]
          exact resolve_congr fun m hm => (hs.same cs' m (under_child hcs') hm).symm
        cases hop : moveChild cs' cd x.2 with
        | some op =>
          exact ensures_bind (ensures_mutate _ (Sifting P ov₁.index.entries src dst (ys ++ [x])) op
            fun next ns' hw => hw.next_leaf hs hnd hcs' hcd hr hx hop next) fun _ =>
            ensures_quiet (Sifting P ov₁.index.entries src dst (ys ++ [x]))
              (quiet_inodeRename (P := P) hcs'.ne_root cd) fun w hw => hw.anchored
        | none =>
          have hleaf := leaf_of_resolve (hcs'.ordinary hs.src_ordinary.1) hr hx
          cases hx2 : x.2 with
          | file source y => cases source <;> simp [hx2, moveChild] at hop
          | symlink source => cases source <;> simp [hx2, moveChild] at hop
          | dir | gitfile =>
            rw [hx2] at hleaf
            exact hleaf.elim
    · rw [hw]
      exact ⟨hs.anchored, fun q hq => (hq rfl).elim, by simp⟩
    · refine ensures_bind (ensures_mutate (Sifting P ov₁.index.entries src dst kids)
        (Sifted P ns src dst) (.tombstone src) fun next ns' hw => ?_) fun _ =>
        ensures_quiet (Sifted P ns src dst) (quiet_inodeRename (P := P) hs.src_ordinary.1 dst)
          fun w hw => hw.anchored
      have hbare := hw.bare hs hk
      refine ⟨hw.anchored.set hs.src_ordinary.1 hbare (by simp), Function.update_self _ _ _,
        bare_update hbare (by simp) src, fun q hqs hqd => ?_⟩
      have hqsrc : q ≠ src := fun h => hqs (h ▸ Under.refl src)
      have hqdst : q ≠ dst := fun h => hqd (h ▸ Under.refl dst)
      show update ns' src (some .tombstone) q = ns q
      rw [Function.update_of_ne hqsrc, hw.frame.outside (fun _ _ hc hu => hqs ((under_child hc).trans hu))
        (fun _ _ hc hu => hqd ((under_child hc).trans hu)), hother q hqdst]

/-! The invariant along runs. -/

/-- What is no directory entry may come and go at `p`. -/
def Spot (P : Projection) (p : RepoPath) (ns : Namespace) : Prop :=
  P.Anchored ns ∧ p ≠ root ∧ ns.Bare p

theorem spot_of_not_passable (ha : P.Anchored ns) (hp : p ≠ root) (h : ¬ P.Passable ns p) :
    Spot P p ns := ⟨ha, hp, ha.bare hp h⟩

variable {w : World} {parent : Nat}

theorem walked_above (hd : w.Walked P parent) (hn : w.Names parent name p) :
    ∀ q, q ≠ root → Under q p → q ≠ p → P.Passable w.ns q := by
  obtain ⟨dir, hdir, hall⟩ := hd
  obtain ⟨dir', hdir', hch⟩ := hn
  obtain rfl : dir = dir' := Except.ok.inj (hdir.symm.trans hdir')
  intro q hq hu hne
  obtain ⟨bt, hr⟩ := hall q (((under_child_iff hch).mp hu).resolve_left hne)
  exact passable_of_dir hr hq

/-- The kernel's calls, with renames that spare the directories of their destination. -/
def Admitted (P : Projection) (w : World) (op : Op) : Prop :=
  op.Legal P w ∧ op.Walked P w ∧ op.Spares P w

theorem keeps_anchored (P : Projection) : P.Keeps P.Anchored (Spot P) (Admitted P) where
  legal _ _ h := h.1
  inv _ _ h := h.1
  set _ _ _ h hv := h.1.set h.2.1 h.2.2 hv
  after src dst ns e hs hd _ _ he := by
    have hv : some e ≠ some OverlayEntry.dir := by simpa using he
    exact ⟨hd.1.set hd.2.1 hd.2.2 hv, hs.2.1, bare_update hs.2.2 he dst⟩
  entry p ns c x ha he := by
    have hp : p ≠ root := by
      intro heq
      rw [heq, ha.unset] at he
      cases he
    exact spot_of_not_passable ha hp fun h => by simp [Passable, he] at h
  file w p source x ha hr := by
    have hp := ordinary_of_resolve_leaf hr trivial
    exact spot_of_not_passable ha hp.1 (not_passable_of_visible hp hr rfl)
  leaf w parent name p r ha hd hn hp hr hl := by
    obtain ⟨dir, bt, hdir, hres⟩ := hd
    obtain ⟨dir', hdir', hch⟩ := hn
    obtain rfl : dir = dir' := Except.ok.inj (hdir.symm.trans hdir')
    exact spot_of_not_passable ha hp.1 (not_passable hp (fun _ => unmasked_child ha hres hch) hr hl)
  empty w parent name p ha _ _ hp h := ⟨ha, hp.1, bare_of_empty ha hp.1 h⟩
  mkdir w parent name p ha hl hn hp _ := ha.put_dir hp.1 (walked_above hl.2.1 hn)
  renameDir w parent name newparent newname flags src dst bt fuel ha hl hn hn' hsrc hdst hr := by
    obtain ⟨hlegal, hwalked, hspares⟩ := hl
    obtain ⟨hsd, hds, -⟩ := hlegal.2.2 src dst hn hn'
    have hs : Sifts P w.overlay w.ns src dst :=
      ⟨ha, hsrc, hdst, walked_above hwalked.2 hn', hsd, hds, fun _ _ _ _ => rfl, hspares src dst hn hn'⟩
    exact ensures_weaken (ensures_sifted fuel src dst w.ns hs) (fun _ hv => hv) fun _ _ h => h.anchored

/-- One call that the kernel makes. -/
def AdmittedStep (P : Projection) (w : World) (op : Op) (w' : World) : Prop :=
  Admitted P w op ∧ P.Step w op w'

theorem anchored_run {pid : Nat} {journal : Option (State × JournalDir)} {ops : List Op}
    (hrun : Trace (AdmittedStep P) (World.fresh pid journal) ops w) : P.Anchored w.ns :=
  hrun.invariant (I := fun w => P.Anchored w.ns) (fun _ _ _ ha h => (keeps_anchored P).step ha h.1 h.2)
    anchored_empty

end Projection

end LazyMount
