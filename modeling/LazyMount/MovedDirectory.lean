import LazyMount.AbsentNames
import LazyMount.Restart

/-! What a directory rename leaves at every path of its source and of its destination, and when
that is the subtree as it was. -/

namespace LazyMount

open Function (update)
open RepoPath Prog Handler Transition

namespace RepoPath

variable {p q q' m src dst cs cd : RepoPath} {name : Bytes}

/-- `q'` is to `dst` what `q` is to `src`, `src` and `dst` themselves included. -/
def Twin (src dst q q' : RepoPath) : Prop :=
  ∃ l, q.components = src.components ++ l ∧ q'.components = dst.components ++ l

theorem Twin.self : Twin src dst src dst := ⟨[], by simp, by simp⟩

theorem Twin.under (h : Twin src dst q q') : Under src q ∧ Under dst q' := by
  obtain ⟨l, hq, hq'⟩ := h
  exact ⟨⟨l, hq.symm⟩, ⟨l, hq'.symm⟩⟩

theorem Twin.up (hcs : Child src name cs) (hcd : Child dst name cd) (h : Twin cs cd q q') :
    Twin src dst q q' := by
  obtain ⟨l, hq, hq'⟩ := h
  refine ⟨name :: l, ?_, ?_⟩
  · rw [hq, hcs, List.append_assoc, List.singleton_append]
  · rw [hq', hcd, List.append_assoc, List.singleton_append]

theorem Twin.unique {q₁ : RepoPath} (h : Twin src dst q q') (h₁ : Twin src dst q q₁) : q' = q₁ := by
  obtain ⟨l, hq, hq'⟩ := h
  obtain ⟨l₁, hq₁, hq₁'⟩ := h₁
  have hl : l = l₁ := List.append_cancel_left (hq.symm.trans hq₁)
  exact ext_components (by rw [hq', hq₁', hl])

theorem Twin.symm (h : Twin src dst q q') : Twin dst src q' q := by
  obtain ⟨l, hq, hq'⟩ := h
  exact ⟨l, hq', hq⟩

theorem Twin.eq_src (h : Twin src dst q q') (hq : q' = dst) : q = src :=
  h.symm.unique (hq ▸ Twin.self)

theorem Twin.eq_dst (h : Twin src dst q q') (hq : q = src) : q' = dst :=
  h.unique (hq ▸ Twin.self)

theorem Twin.down (h : Twin src dst q q') (hne : q ≠ src) :
    ∃ name cs cd, Child src name cs ∧ Child dst name cd ∧ Twin cs cd q q' := by
  obtain ⟨l, hq, hq'⟩ := h
  cases l with
  | nil => exact (hne (ext_components (by rw [hq, List.append_nil]))).elim
  | cons name l =>
    have hall : ∀ {p r : RepoPath}, r.components = p.components ++ name :: l →
        ∃ c, Child p name c ∧ r.components = c.components ++ l := by
      intro p r hr
      have hvalid : ValidComponent name := validComponent_of_mem (p := r) (by rw [hr]; simp)
      obtain ⟨c, hc⟩ := Projection.exists_child hvalid p
      exact ⟨c, hc, by rw [hr, hc, List.append_assoc, List.singleton_append]⟩
    obtain ⟨cs, hcs, hsrc⟩ := hall hq
    obtain ⟨cd, hcd, hdst⟩ := hall hq'
    exact ⟨name, cs, cd, hcs, hcd, l, hsrc, hdst⟩

theorem exists_twin (hu : Under src q) (dst : RepoPath) : ∃ q', Twin src dst q q' := by
  obtain ⟨l, hl⟩ := hu
  have hvalid : ∀ c ∈ dst.components ++ l, ValidComponent c := by
    intro c hc
    rcases List.mem_append.mp hc with hc | hc
    · exact validComponent_of_mem hc
    · exact validComponent_of_mem (p := q) (by rw [← hl]; simp [hc])
  exact ⟨ofComponents _ hvalid, l, hl.symm, components_ofComponents _ _⟩

end RepoPath

namespace Projection

variable {P : Projection} {ov : Overlay} {see : RepoPath → Except Error (Option Resolved)}
  {ns ns₁ ns' ns'' : Namespace} {p q q' src dst cs cd : RepoPath} {name : Bytes} {r x : Resolved}
  {done todo : List (Bytes × Resolved)}

/-- Nothing but visible directories from `src` down to the directory of `q`. -/
def Reached (see : RepoPath → Except Error (Option Resolved)) (src q : RepoPath) : Prop :=
  ∀ m, Under src m → Under m q → m ≠ q → ∃ bt, see m = .ok (some (.dir bt))

/-- The recursion of `rename_dir` comes to `q` and finds it there. -/
def Taken (see : RepoPath → Except Error (Option Resolved)) (src q : RepoPath) : Prop :=
  Reached see src q ∧ ∃ r, see q = .ok (some r)

/-- What becomes of the entries of a path and its twin that resolves to `r`: a directory is made again
and masked, an entry with content or target goes over, and anything else is referred to. -/
inductive Lands (P : Projection) (ns ns' : Namespace) (q q' : RepoPath) : Resolved → Prop
  | dir (bt : Option ObjectId) (hs : ns' q = some .tombstone) (hd : ns' q' = some .dir) :
    Lands P ns ns' q q' (.dir bt)
  | entry {e : OverlayEntry} {r : Resolved} (he : e ≠ .dir ∧ ∀ oid mode, e ≠ .baseRef oid mode)
    (hr : P.entryResolved q e = .ok (some r)) (h : ns q = some e) (hs : ns' q = none)
    (hd : ns' q' = some e) : Lands P ns ns' q q' r
  | ref {oid : ObjectId} {mode : GitMode} {r : Resolved} (hr : baserefResolved oid mode = r)
    (hs : ns' q = ns q) (hd : ns' q' = some (.baseRef oid mode)) : Lands P ns ns' q q' r

/-- What `rename_dir` starts from; the overlay was `ov` before the rename. -/
structure Ships (ov : Overlay) (ns : Namespace) (src dst : RepoPath) : Prop where
  src_ordinary : src.Ordinary
  dst_ordinary : dst.Ordinary
  src_dst : ¬ Under src dst
  dst_src : ¬ Under dst src
  same : ∀ q m, Under src q → Under m q → ns m = ov.lookup m

structure Shipped (P : Projection) (see : RepoPath → Except Error (Option Resolved)) (ns : Namespace)
    (src dst : RepoPath) (ns' : Namespace) : Prop where
  taken : ∀ q q' r, Twin src dst q q' → Reached see src q → see q = .ok (some r) → Lands P ns ns' q q' r
  left : ∀ q q', Twin src dst q q' → ¬ Taken see src q → ns' q = ns q ∧ ns' q' = ns q'
  answers : ∀ q, Under src q → Reached see src q → ∃ r, see q = .ok r

def Elsewhere (ns : Namespace) (src dst : RepoPath) (ns' : Namespace) : Prop :=
  ∀ q, ¬ Under src q → ¬ Under dst q → ns' q = ns q

/-- The loop over the children, after those in `done`. -/
structure Shipping (P : Projection) (see : RepoPath → Except Error (Option Resolved)) (ns : Namespace)
    (src dst : RepoPath) (done : List (Bytes × Resolved)) (ns' : Namespace) : Prop where
  frame : Confined ns src dst done ns'
  shipped : ∀ kid ∈ done, ∀ cs cd, Child src kid.1 cs → Child dst kid.1 cd → Shipped P see ns cs cd ns'

theorem Lands.congr (h : Lands P ns ns' q q' r) (hs : ns₁ q = ns q) (h' : ns'' q = ns' q)
    (hd' : ns'' q' = ns' q') : Lands P ns₁ ns'' q q' r := by
  cases h with
  | dir bt hs₀ hd₀ => exact .dir bt (h'.trans hs₀) (hd'.trans hd₀)
  | entry he hr h₀ hs₀ hd₀ => exact .entry he hr (hs.trans h₀) (h'.trans hs₀) (hd'.trans hd₀)
  | ref hr hs₀ hd₀ => exact .ref hr (by rw [h', hs₀, hs]) (hd'.trans hd₀)

theorem reached_self : Reached see src src := by
  intro m hu hu' hne
  exact (hne (hu'.antisymm hu)).elim

theorem reached_child {bt : Option ObjectId} (hsrc : see src = .ok (some (.dir bt))) (hcs : Child src name cs)
    (hu : Under cs q) : Reached see src q ↔ Reached see cs q := by
  constructor
  · exact fun h m hm => h m ((under_child hcs).trans hm)
  · intro h m hm hmq hne
    by_cases heq : m = src
    · exact ⟨bt, heq ▸ hsrc⟩
    · obtain ⟨n, c, hc, hcm⟩ := exists_child_under hm heq
      have hn : n = name := under_sibling hc hcs (hcm.trans hmq) hu
      obtain rfl : c = cs := (hc.unique hcs).mpr hn
      exact h m hcm hmq hne

theorem taken_child {bt : Option ObjectId} (hsrc : see src = .ok (some (.dir bt))) (hcs : Child src name cs)
    (hu : Under cs q) : Taken see src q ↔ Taken see cs q := and_congr_left fun _ => reached_child hsrc hcs hu

/-- The recursion comes no further than to what is no visible directory. -/
theorem not_reached_below (hu : Under p q) (hne : q ≠ p) (hp : ∀ bt, see p ≠ .ok (some (.dir bt))) :
    ¬ Reached see p q := by
  intro h
  obtain ⟨bt, hbt⟩ := h p (Under.refl p) hu (Ne.symm hne)
  exact hp bt hbt

namespace Shipped

theorem congr (h : Shipped P see ns src dst ns')
    (hs : ∀ q, Under src q → ns₁ q = ns q ∧ ns'' q = ns' q)
    (hd : ∀ q, Under dst q → ns₁ q = ns q ∧ ns'' q = ns' q) : Shipped P see ns₁ src dst ns'' := by
  refine ⟨fun q q' r hq hr hv => ?_, fun q q' hq hr => ?_, h.answers⟩
  · obtain ⟨hu, hu'⟩ := hq.under
    exact (h.taken q q' r hq hr hv).congr (hs q hu).1 (hs q hu).2 (hd q' hu').2
  · obtain ⟨hu, hu'⟩ := hq.under
    obtain ⟨hleft, hleft'⟩ := h.left q q' hq hr
    obtain ⟨h₁, h₂⟩ := hs q hu
    obtain ⟨h₃, h₄⟩ := hd q' hu'
    exact ⟨by rw [h₂, hleft, h₁], by rw [h₄, hleft', h₃]⟩

end Shipped

/-! One directory. -/

/-- The walk of `rename_dir` at `src`: what it has before it is as it was in `ov`. -/
structure Ahead (ov : Overlay) (ns : Namespace) (src dst : RepoPath) : Prop where
  src_ne : src ≠ root
  src_dst : ¬ Under src dst
  dst_src : ¬ Under dst src
  same : ∀ q m, Under src q → Under m q → ns m = ov.lookup m

theorem Ships.ahead (hs : Ships ov ns src dst) : Ahead ov ns src dst :=
  ⟨hs.src_ordinary.1, hs.src_dst, hs.dst_src, hs.same⟩

namespace Ahead

variable (hs : Ahead ov ns src dst)

include hs

theorem apart (hq : Under src q) (hq' : Under dst q) : False := by
  rcases under_or_under hq hq' with h | h
  · exact hs.src_dst h
  · exact hs.dst_src h

theorem put_dir : Ahead ov (update ns dst (some .dir)) src dst := by
  refine ⟨hs.src_ne, hs.src_dst, hs.dst_src, fun q m hu hm => ?_⟩
  have hne : m ≠ dst := by
    intro heq
    subst heq
    exact hs.apart hu hm
  rw [Function.update_of_ne hne]
  exact hs.same q m hu hm

theorem resolve_eq {ov₁ : Overlay} (hov : ov₁.index.entries = ns) (hu : Under src q) :
    P.resolve ov₁ q = P.resolve ov q :=
  resolve_congr fun m hm => by
    rw [← hs.same q m hu hm, ← hov]
    rfl

theorem child (hw : Confined ns src dst done ns')
    (hnd : ((done ++ (name, x) :: todo).map Prod.fst).Nodup) (hcs : Child src name cs)
    (hcd : Child dst name cd) : Ahead ov ns' cs cd := by
  refine ⟨hcs.ne_root, fun hu => ?_, fun hu => ?_, fun q m hu hm => ?_⟩
  · exact hs.apart ((under_child hcs).trans hu) (under_child hcd)
  · exact hs.apart (under_child hcs) ((under_child hcd).trans hu)
  · rw [hw.untouched hs.src_dst hs.dst_src hnd (.inl hcs) hu hm]
    exact hs.same q m ((under_child hcs).trans hu) hm

end Ahead

namespace Ships

variable (hs : Ships ov ns src dst)

include hs

theorem apart (hq : Under src q) (hq' : Under dst q) : False := hs.ahead.apart hq hq'

theorem put_dir : Ships ov (update ns dst (some .dir)) src dst :=
  ⟨hs.src_ordinary, hs.dst_ordinary, hs.src_dst, hs.dst_src, hs.ahead.put_dir.same⟩

theorem resolve_eq {ov₁ : Overlay} (hov : ov₁.index.entries = ns) (hu : Under src q) :
    P.resolve ov₁ q = P.resolve ov q := hs.ahead.resolve_eq hov hu

theorem child (hw : Confined ns src dst done ns')
    (hnd : ((done ++ (name, x) :: todo).map Prod.fst).Nodup) (hcs : Child src name cs)
    (hcd : Child dst name cd) : Ships ov ns' cs cd := by
  have hh := hs.ahead.child hw hnd hcs hcd
  exact ⟨hcs.ordinary hs.src_ordinary.1, hcd.ordinary hs.dst_ordinary.1, hh.src_dst, hh.dst_src, hh.same⟩

end Ships

namespace Shipping

theorem next (hw : Shipping P see ns src dst done ns') (hs : Ships ov ns src dst)
    (hnd : ((done ++ (name, x) :: todo).map Prod.fst).Nodup) (hcs : Child src name cs)
    (hcd : Child dst name cd) (h : Shipped P see ns' cs cd ns'') (hrest : Elsewhere ns' cs cd ns'') :
    Shipping P see ns src dst (done ++ [(name, x)]) ns'' := by
  refine ⟨hw.frame.next hcs hcd hrest, fun kid hkid c d hc hd => ?_⟩
  rcases List.mem_append.mp hkid with hk | hk
  · -- one of the earlier children: nothing beneath it has changed
    have hne : kid.1 ≠ name := by
      rw [List.map_append, List.map_cons, List.nodup_append] at hnd
      exact fun heq => hnd.2.2 kid.1 (List.mem_map_of_mem hk) name List.mem_cons_self heq
    refine (hw.shipped kid hk c d hc hd).congr (fun q hu => ⟨rfl, hrest q (fun hu' => ?_) fun hu' => ?_⟩)
      fun q hu => ⟨rfl, hrest q (fun hu' => ?_) fun hu' => ?_⟩
    · exact hne (under_sibling hc hcs hu hu')
    · exact hs.apart ((under_child hc).trans hu) ((under_child hcd).trans hu')
    · exact hs.apart ((under_child hcs).trans hu') ((under_child hd).trans hu)
    · exact hne (under_sibling hd hcd hu hu')
  · -- the one that has moved just now: nothing beneath it had changed before
    rw [List.mem_singleton] at hk
    subst hk
    obtain rfl : c = cs := (hc.unique hcs).mpr rfl
    obtain rfl : d = cd := (hd.unique hcd).mpr rfl
    refine h.congr (fun q hu => ⟨?_, rfl⟩) fun q hu => ⟨?_, rfl⟩
    · exact (hw.frame.untouched hs.src_dst hs.dst_src hnd (.inl hc) hu (Under.refl q)).symm
    · exact (hw.frame.untouched hs.src_dst hs.dst_src hnd (.inr hd) hu (Under.refl q)).symm

end Shipping

/-- What the baseline does not show is an entry of the overlay, with its content or target. -/
theorem exists_entry (hp : p.Ordinary) (h : P.resolve ov p = .ok (some r)) (hr : ¬ GitStore.OfTree r) :
    ∃ e, ov.lookup p = some e ∧ e ≠ .dir ∧ ∀ oid mode, e ≠ .baseRef oid mode := by
  cases hl : ov.lookup p with
  | none =>
    rw [resolve_unset hp hl] at h
    split at h
    · cases h
    · exact (hr (GitStore.walk_ofTree h)).elim
  | some e =>
    rw [resolve_entry hp hl] at h
    refine ⟨e, rfl, ?_, ?_⟩
    · intro heq
      subst heq
      obtain ⟨bt, hbt, -⟩ := dir_of_entryResolved h
      cases hbt
      exact hr trivial
    · intro oid mode heq
      subst heq
      cases h
      exact hr (by cases mode <;> trivial)

theorem shipped_leaf (hs : Ships ov ns cs cd) (hsee : P.resolve ov cs = .ok (some x))
    (hx : x.isDir = false) {op : OverlayOp} (hop : moveChild cs cd x = some op) (next : ContentId) :
    Shipped P (P.resolve ov) ns cs cd (op.effect next ns) ∧ Elsewhere ns cs cd (op.effect next ns) := by
  have hne : cs ≠ cd := fun heq => hs.src_dst (heq ▸ Under.refl cs)
  have hlook : ns cs = ov.lookup cs := hs.same cs cs (Under.refl cs) (Under.refl cs)
  have hnodir : ∀ bt, P.resolve ov cs ≠ .ok (some (.dir bt)) := by
    intro bt hbt
    rw [hsee] at hbt
    cases hbt
    cases hx
  -- what is left to show of any two entries that are put at the two paths
  suffices hh : Lands P ns (op.effect next ns) cs cd x ∧ ∀ q, q ≠ cs → q ≠ cd → op.effect next ns q = ns q by
    obtain ⟨hlands, hother⟩ := hh
    have hoff : ∀ q, ¬ Under cs q → ¬ Under cd q → op.effect next ns q = ns q :=
      fun q hq hq' => hother q (fun heq => hq (heq ▸ Under.refl cs)) fun heq => hq' (heq ▸ Under.refl cd)
    refine ⟨⟨fun q q' r hq hr hv => ?_, fun q q' hq hr => ?_, fun q hu hr => ?_⟩, hoff⟩
    · by_cases heq : q = cs
      · obtain rfl := hq.eq_dst heq
        subst heq
        obtain rfl : x = r := Option.some.inj (Except.ok.inj (hsee.symm.trans hv))
        exact hlands
      · exact (not_reached_below hq.under.1 heq hnodir hr).elim
    · have hq₀ : q ≠ cs := by
        intro heq
        subst heq
        exact hr ⟨reached_self, x, hsee⟩
      have hq₁ : q' ≠ cd := fun heq => hq₀ (hq.eq_src heq)
      have hq₂ : q ≠ cd := fun heq => hs.src_dst (heq ▸ hq.under.1)
      have hq₃ : q' ≠ cs := fun heq => hs.dst_src (heq ▸ hq.under.2)
      exact ⟨hother q hq₀ hq₂, hother q' hq₃ hq₁⟩
    · by_cases heq : q = cs
      · exact ⟨some x, heq ▸ hsee⟩
      · exact (not_reached_below hu heq hnodir hr).elim
  have hbase : ∀ oid mode, baserefResolved oid mode = x → op = .putBaseRef cd oid mode →
      Lands P ns (op.effect next ns) cs cd x ∧ ∀ q, q ≠ cs → q ≠ cd → op.effect next ns q = ns q := by
    intro oid mode hmode heq
    subst heq
    refine ⟨.ref hmode (Function.update_of_ne hne _ _) (Function.update_self _ _ _), fun q _ hq => ?_⟩
    exact Function.update_of_ne hq _ _
  have hmove : ∀ e, e ≠ .dir ∧ (∀ oid mode, e ≠ .baseRef oid mode) → ov.lookup cs = some e →
      op = .rename cs cd →
      Lands P ns (op.effect next ns) cs cd x ∧ ∀ q, q ≠ cs → q ≠ cd → op.effect next ns q = ns q := by
    intro e he hl heq
    subst heq
    have hentry : ns cs = some e := hlook.trans hl
    have heff : (OverlayOp.rename cs cd).effect next ns = update (update ns cd (some e)) cs none := by
      simp [OverlayOp.effect, hentry]
    rw [heff]
    refine ⟨.entry he ?_ hentry (Function.update_self _ _ _) ?_, fun q hq hq' => ?_⟩
    · rw [← resolve_entry hs.src_ordinary hl, hsee]
    · rw [Function.update_of_ne (Ne.symm hne), Function.update_self]
    · rw [Function.update_of_ne hq, Function.update_of_ne hq']
  cases x with
  | file source y =>
    cases source with
    | overlay p =>
      obtain ⟨e, hl, he⟩ := exists_entry hs.src_ordinary hsee id
      exact hmove e he hl (Option.some.inj hop).symm
    | baseline oid =>
      cases hop
      exact hbase _ _ (by cases y <;> rfl) rfl
  | symlink source =>
    cases source with
    | overlay target =>
      obtain ⟨e, hl, he⟩ := exists_entry hs.src_ordinary hsee id
      exact hmove e he hl (Option.some.inj hop).symm
    | baseline oid =>
      cases hop
      exact hbase _ _ rfl rfl
  | dir | gitfile => cases hop

theorem resolve_skipped {entries : List TreeEntry} {kids : List (Bytes × Resolved)}
    (hk : Effective P ov src entries kids) (hsrc : src ≠ root) (hc : Child src name p)
    (hno : ∀ kid ∈ kids, kid.1 ≠ name) : P.resolve ov p = .ok none := by
  have hord := hc.ordinary hsrc
  obtain ⟨bt, hdir, hes⟩ := hk.tree
  rcases hk.skipped name p hc hno with h | h | ⟨h, hunlisted⟩
  · exact h
  · rw [resolve_entry hord h]
    rfl
  · obtain ⟨r, hr, hiff⟩ := resolve_baseline hdir hsrc
    have htree : ∀ t, r = some (.dir (some t)) → P.store.readTree t = .ok entries := by
      intro t ht
      rwa [(hiff t).mpr ht] at hes
    have hnone := baselineResolve_unlisted hsrc hr htree hc hunlisted
    rw [resolve_unset hord h, hnone]
    split <;> rfl

/-- All children have moved, and the source is masked. -/
theorem Shipping.finish {entries : List TreeEntry} {kids : List (Bytes × Resolved)} {ov₁ : Overlay}
    {bt : Option ObjectId} (hw : Shipping P (P.resolve ov) ov₁.index.entries src dst kids ns')
    (hs : Ships ov ov₁.index.entries src dst) (hk : Effective P ov₁ src entries kids)
    (hsrc : P.resolve ov src = .ok (some (.dir bt))) (hdst : ov₁.index.entries dst = some .dir)
    (hns : ∀ q, q ≠ dst → ov₁.index.entries q = ns q) :
    Shipped P (P.resolve ov) ns src dst (update ns' src (some .tombstone)) := by
  have hne : dst ≠ src := fun heq => hs.src_dst (heq ▸ Under.refl dst)
  have hdst' : ns' dst = some .dir := by
    rw [hw.frame.at_dst hs.src_dst]
    exact hdst
  -- strictly beneath the two paths neither `put_dir` nor the tombstone shows
  have hbefore : ∀ q q', Twin src dst q q' → q ≠ src →
      ov₁.index.entries q = ns q ∧ ov₁.index.entries q' = ns q' := by
    intro q q' hq hqs
    refine ⟨hns q fun heq => ?_, hns q' fun heq => hqs (hq.eq_src heq)⟩
    exact hs.src_dst (heq ▸ hq.under.1)
  have hafter : ∀ q q', Twin src dst q q' → q ≠ src →
      update ns' src (some .tombstone) q = ns' q ∧ update ns' src (some .tombstone) q' = ns' q' := by
    intro q q' hq hqs
    refine ⟨Function.update_of_ne hqs _ _, Function.update_of_ne (fun heq => ?_) _ _⟩
    exact hs.dst_src (heq ▸ hq.under.2)
  have hkid : ∀ cs name, Child src name cs → (∃ kid ∈ kids, kid.1 = name) ∨
      P.resolve ov cs = .ok none ∧ ∀ kid ∈ kids, kid.1 ≠ name := by
    intro cs name hcs
    by_cases hin : ∃ kid ∈ kids, kid.1 = name
    · exact .inl hin
    · have hno : ∀ kid ∈ kids, kid.1 ≠ name := fun kid hkid heq => hin ⟨kid, hkid, heq⟩
      have hnone := resolve_skipped hk hs.src_ordinary.1 hcs hno
      rw [hs.resolve_eq rfl (under_child hcs)] at hnone
      exact .inr ⟨hnone, hno⟩
  refine ⟨fun q q' r hq hr hv => ?_, fun q q' hq hr => ?_, fun q hu hr => ?_⟩
  · by_cases heq : q = src
    · obtain rfl := hq.eq_dst heq
      subst heq
      cases hsrc.symm.trans hv
      exact .dir bt (Function.update_self _ _ _) ((Function.update_of_ne hne _ _).trans hdst')
    · obtain ⟨name, cs, cd, hcs, hcd, hdown⟩ := hq.down heq
      have hreach := (reached_child hsrc hcs hdown.under.1).mp hr
      rcases hkid cs name hcs with ⟨kid, hkid, hn⟩ | ⟨hnone, -⟩
      · subst hn
        obtain ⟨hb, -⟩ := hbefore q q' hq heq
        obtain ⟨ha, ha'⟩ := hafter q q' hq heq
        exact ((hw.shipped kid hkid cs cd hcs hcd).taken q q' r hdown hreach hv).congr hb.symm ha ha'
      · by_cases hqc : q = cs
        · subst hqc
          rw [hnone] at hv
          cases hv
        · exact (not_reached_below hdown.under.1 hqc (by simp [hnone]) hreach).elim
  · have heq : q ≠ src := by
      intro heq
      subst heq
      exact hr ⟨reached_self, _, hsrc⟩
    obtain ⟨name, cs, cd, hcs, hcd, hdown⟩ := hq.down heq
    obtain ⟨hb, hb'⟩ := hbefore q q' hq heq
    obtain ⟨ha, ha'⟩ := hafter q q' hq heq
    rw [ha, ha', ← hb, ← hb']
    rw [taken_child hsrc hcs hdown.under.1] at hr
    rcases hkid cs name hcs with ⟨kid, hkid, hn⟩ | ⟨-, hno⟩
    · subst hn
      exact (hw.shipped kid hkid cs cd hcs hcd).left q q' hdown hr
    · have hapart := fun hu hu' => hs.apart (q := q) hu hu'
      have hapart' := fun hu hu' => hs.apart (q := q') hu hu'
      refine ⟨?_, ?_⟩
      · by_contra hch
        obtain ⟨kid, hkid, c, hc | hc, hcq⟩ := hw.frame q hch
        · exact hno kid hkid (under_sibling hc hcs hcq hdown.under.1)
        · exact hapart hq.under.1 ((under_child hc).trans hcq)
      · by_contra hch
        obtain ⟨kid, hkid, c, hc | hc, hcq⟩ := hw.frame q' hch
        · exact hapart' ((under_child hc).trans hcq) hq.under.2
        · exact hno kid hkid (under_sibling hc hcd hcq hdown.under.2)
  · by_cases heq : q = src
    · exact ⟨_, heq ▸ hsrc⟩
    · obtain ⟨name, cs, hcs, hu'⟩ := exists_child_under hu heq
      have hreach := (reached_child hsrc hcs hu').mp hr
      rcases hkid cs name hcs with ⟨kid, hkid, hn⟩ | ⟨hnone, -⟩
      · subst hn
        obtain ⟨cd, hcd⟩ := exists_child (valid_of_child hcs) dst
        exact (hw.shipped kid hkid cs cd hcs hcd).answers q hu' hreach
      · by_cases hqc : q = cs
        · exact ⟨none, hqc ▸ hnone⟩
        · exact (not_reached_below hu' hqc (by simp [hnone]) hreach).elim

theorem Shipping.outside {kids : List (Bytes × Resolved)} (hw : Shipping P see ns₁ src dst kids ns')
    (hns : ∀ q, q ≠ dst → ns₁ q = ns q) :
    Elsewhere ns src dst (update ns' src (some .tombstone)) := by
  intro q hqs hqd
  have hne : q ≠ src := fun heq => hqs (heq ▸ Under.refl src)
  have hne' : q ≠ dst := fun heq => hqd (heq ▸ Under.refl dst)
  rw [Function.update_of_ne hne, ← hns q hne']
  exact hw.frame.outside (fun _ _ hc hu => hqs ((under_child hc).trans hu))
    fun _ _ hc hu => hqd ((under_child hc).trans hu)

/-- One turn of the loop in `rename_dir`. -/
def moveKid (P : Projection) (fuel : Nat) (src dst : RepoPath) (kid : Bytes × Resolved) : Handler Unit := do
  let cs ← .liftExcept (join src kid.1)
  let cd ← .liftExcept (join dst kid.1)
  if kid.2.isDir then P.renameDir fuel cs cd
  else
    match moveChild cs cd kid.2 with
    | some op => do
      mutate op
      inodeRename cs cd
    | none => pure ()

theorem renameDir_succ (fuel : Nat) (src dst : RepoPath) : P.renameDir (fuel + 1) src dst = (do
    mutate (.putDir dst)
    let kids ← .read .read fun w => P.effectiveChildren w.overlay src
    .each kids (P.moveKid fuel src dst)
    mutate (.tombstone src)
    inodeRename src dst) := rfl

/-- What is visible and no directory is moved by one overlay operation. -/
theorem moveChild_of_leaf (hr : Leaf (some x)) (cs cd : RepoPath) : ∃ op, moveChild cs cd x = some op := by
  cases x with
  | file source y => cases source <;> exact ⟨_, rfl⟩
  | symlink source => cases source <;> exact ⟨_, rfl⟩
  | dir | gitfile => exact hr.elim

theorem Shipping.elsewhere {kids : List (Bytes × Resolved)} (hw : Shipping P see ns₁ src dst kids ns')
    (hns : ∀ q, q ≠ dst → ns₁ q = ns q) : Elsewhere ns src dst ns' := by
  intro q hqs hqd
  have hne : q ≠ dst := fun heq => hqd (heq ▸ Under.refl dst)
  rw [← hns q hne]
  exact hw.frame.outside (fun _ _ hc hu => hqs ((under_child hc).trans hu))
    fun _ _ hc hu => hqd ((under_child hc).trans hu)

/-- One directory that is moved, at some depth. -/
def Moves (P : Projection) (ov : Overlay) (fuel : Nat) : Prop :=
  ∀ (src dst : RepoPath) (ns : Namespace) (bt : Option ObjectId), Ships ov ns src dst →
    P.resolve ov src = .ok (some (.dir bt)) →
    Ensures (fun w => w.ns = ns) (P.renameDir fuel src dst)
      (fun _ w => Shipped P (P.resolve ov) ns src dst w.ns ∧ Elsewhere ns src dst w.ns)
      fun w => Elsewhere ns src dst w.ns

/-- One child: a directory goes as the directories one level down do, a leaf is moved or copied. -/
theorem ensures_moveKid {fuel : Nat} (ih : P.Moves ov fuel) (hs : Ships ov ns src dst)
    (hnd : ((done ++ (name, x) :: todo).map Prod.fst).Nodup) (hcs : Child src name cs)
    (hv : P.resolve ov cs = .ok (some x)) :
    Ensures (fun w => Shipping P (P.resolve ov) ns src dst done w.ns) (P.moveKid fuel src dst (name, x))
      (fun _ w => Shipping P (P.resolve ov) ns src dst (done ++ [(name, x)]) w.ns)
      fun w => Elsewhere ns src dst w.ns := by
  have hquiet : ∀ w : World, Shipping P (P.resolve ov) ns src dst done w.ns → Elsewhere ns src dst w.ns :=
    fun w hw => hw.elsewhere fun _ _ => rfl
  refine ensures_bind (ensures_liftExcept (fun cs' w hj hw => ⟨(join_eq_ok.mp hj).2, hw⟩) hquiet)
    (Q := fun cs' w => Child src name cs' ∧ Shipping P (P.resolve ov) ns src dst done w.ns)
    fun cs' => ensures_of fun hcs' => ?_
  obtain rfl : cs' = cs := (hcs'.unique hcs).mpr rfl
  refine ensures_bind (ensures_liftExcept (fun cd w hj hw => ⟨(join_eq_ok.mp hj).2, hw⟩) hquiet)
    (Q := fun cd w => Child dst name cd ∧ Shipping P (P.resolve ov) ns src dst done w.ns)
    fun cd => ensures_of fun hcd => ?_
  cases hx : x.isDir with
  | true =>
    obtain ⟨bt, rfl⟩ := Resolved.eq_dir hx
    refine ensures_from fun w hw => ensures_mono (ih cs' cd w.ns bt (hs.child hw.frame hnd hcs' hcd) hv)
      (fun v hv => by rw [hv]) (fun _ v hm => hw.next hs hnd hcs' hcd hm.1 hm.2) fun v he q hqs hqd => ?_
    rw [he q (fun hu => hqs ((under_child hcs').trans hu)) fun hu => hqd ((under_child hcd).trans hu)]
    exact hw.elsewhere (fun _ _ => rfl) q hqs hqd
  | false =>
    rw [if_neg (by simp)]
    obtain ⟨op, hop⟩ := moveChild_of_leaf (leaf_of_resolve (hcs'.ordinary hs.src_ordinary.1) hv hx) cs' cd
    rw [hop]
    refine ensures_bind (ensures_mutate _
      (Shipping P (P.resolve ov) ns src dst (done ++ [(name, x)])) op fun next ns' hw => ?_) fun _ =>
      ensures_quiet (Shipping P (P.resolve ov) ns src dst (done ++ [(name, x)]))
        (quiet_inodeRename (P := P) hcs'.ne_root cd) fun w hw => hw.elsewhere fun _ _ => rfl
    obtain ⟨hmoved, hrest⟩ := shipped_leaf (hs.child hw.frame hnd hcs' hcd) hv hx hop next
    exact hw.next hs hnd hcs' hcd hmoved hrest

/-- The loop, up to a child. -/
theorem ensures_moveKids {fuel : Nat} {ov₁ : Overlay} {entries : List TreeEntry}
    {kids pre post : List (Bytes × Resolved)} (ih : P.Moves ov fuel)
    (hs : Ships ov ov₁.index.entries src dst) (hk : Effective P ov₁ src entries kids) (hkids : kids = pre ++ post) :
    Ensures (fun w => w.ns = ov₁.index.entries) (.each pre (P.moveKid fuel src dst))
      (fun _ w => Shipping P (P.resolve ov) ov₁.index.entries src dst pre w.ns)
      fun w => Elsewhere ov₁.index.entries src dst w.ns := by
  refine ensures_weaken (ensures_each
    (fun done _ w => Shipping P (P.resolve ov) ov₁.index.entries src dst done w.ns) fun ys x zs hxs => ?_)
    (fun w hw => ?_) fun _ _ h => h
  · have hnd : ((ys ++ x :: (zs ++ post)).map Prod.fst).Nodup := by
      simpa [hkids, hxs] using hk.nodup
    obtain ⟨cs, hcs, hv⟩ := hk.resolved x (by simp [hkids, hxs])
    rw [hs.resolve_eq rfl (under_child hcs)] at hv
    exact ensures_moveKid ih hs hnd hcs hv
  · rw [hw]
    exact ⟨fun q hq => (hq rfl).elim, by simp⟩

/-- By induction on the fuel, with the loop invariant `Shipping`. -/
theorem moves (fuel : Nat) : P.Moves ov fuel := by
  induction fuel with
  | zero => exact fun _ _ _ _ _ _ => ensures_diverge
  | succ fuel ih =>
    intro src dst ns bt hs₀ hsrc
    have hs := hs₀.put_dir
    rw [renameDir_succ]
    refine ensures_bind (ensures_mutate (· = ns) (· = update ns dst (some .dir)) (.putDir dst)
      fun next ns' h => by rw [h]; rfl) fun _ => ?_
    have hdst : update ns dst (some .dir) dst = some .dir := Function.update_self _ _ _
    have hother : ∀ q, q ≠ dst → update ns dst (some .dir) q = ns q :=
      fun q hq => Function.update_of_ne hq _ _
    generalize update ns dst (some .dir) = ns₁ at hs hdst hother
    refine ensures_bind (ensures_read (fun w kids hw hk => ?_) fun w hw q _ hqd => ?_)
      (Q := fun kids w => (∃ ov₁ entries, ov₁.index.entries = ns₁ ∧ Effective P ov₁ src entries kids) ∧
        w.ns = ns₁) fun kids => ensures_of fun hkids => ?_
    · obtain ⟨entries, he⟩ := effective hk
      exact ⟨⟨w.overlay, entries, hw, he⟩, hw⟩
    · rw [hw]
      exact hother q fun heq => hqd (heq ▸ Under.refl dst)
    obtain ⟨ov₁, entries, rfl, hk⟩ := hkids
    have hrest : ∀ w : World, Elsewhere ov₁.index.entries src dst w.ns → Elsewhere ns src dst w.ns := by
      intro w hw q hqs hqd
      rw [hw q hqs hqd]
      exact hother q fun heq => hqd (heq ▸ Under.refl dst)
    refine ensures_bind (ensures_mono (ensures_moveKids ih hs hk (List.append_nil kids).symm) (fun _ h => h)
      (fun _ _ h => h) hrest) fun _ => ?_
    refine ensures_bind (ensures_mutate (Shipping P (P.resolve ov) ov₁.index.entries src dst kids)
      (fun ns' => Shipped P (P.resolve ov) ns src dst ns' ∧ Elsewhere ns src dst ns') (.tombstone src)
      fun next ns' hw => ⟨hw.finish hs hk hsrc hdst hother, hw.outside hother⟩) fun _ => ?_
    exact ensures_quiet (fun ns' => Shipped P (P.resolve ov) ns src dst ns' ∧ Elsewhere ns src dst ns')
      (quiet_inodeRename (P := P) hs.src_ordinary.1 dst) fun _ h => h.2

end Projection

end LazyMount
