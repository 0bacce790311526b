import LazyMount.Lib.Ghost
import LazyMount.ListingLookup
import LazyMount.RenameWalk

/-! Which paths the recursion of a directory rename comes to, and how often. -/

namespace LazyMount

open Function (update)
open RepoPath Prog Handler Transition

namespace Projection

/-- `rename_dir`, with a note of each child that the loop comes to. -/
def renameDirNoted (P : Projection) : Nat → RepoPath → RepoPath → Prog Action (World × List RepoPath) Error Unit
  | 0, _, _ => .diverge
  | fuel + 1, src, dst => do
    (mutate (.putDir dst)).beside _
    let kids ← (Prog.read .read fun w : World => P.effectiveChildren w.overlay src).beside _
    .each kids fun kid => do
      let cs ← .liftExcept (join src kid.1)
      let cd ← .liftExcept (join dst kid.1)
      .noted .read cs (.ok ())
      if kid.2.isDir then renameDirNoted P fuel cs cd
      else
        match moveChild cs cd kid.2 with
        | some op => do
          (mutate op).beside _
          (inodeRename cs cd).beside _
        | none => pure ()
    (mutate (.tombstone src)).beside _
    (inodeRename src dst).beside _

/-- One turn of its loop. -/
def visitKid (P : Projection) (fuel : Nat) (src dst : RepoPath) (kid : Bytes × Resolved) :
    Prog Action (World × List RepoPath) Error Unit := do
  let cs ← .liftExcept (join src kid.1)
  let cd ← .liftExcept (join dst kid.1)
  .noted .read cs (.ok ())
  if kid.2.isDir then P.renameDirNoted fuel cs cd
  else
    match moveChild cs cd kid.2 with
    | some op => do
      (mutate op).beside _
      (inodeRename cs cd).beside _
    | none => pure ()

variable {P : Projection} {ov ov₁ : Overlay} {see : RepoPath → Except Error (Option Resolved)}
  {ns ns' ns'' : Namespace} {p q src dst dir cs cd : RepoPath} {name : Bytes} {x : Resolved}
  {bt : Option ObjectId} {done todo : List (Bytes × Resolved)} {vs vs' log : List RepoPath} {fuel : Nat}

theorem renameDirNoted_succ (fuel : Nat) (src dst : RepoPath) : P.renameDirNoted (fuel + 1) src dst = (do
    (mutate (.putDir dst)).beside _
    let kids ← (Prog.read .read fun w : World => P.effectiveChildren w.overlay src).beside _
    .each kids (P.visitKid fuel src dst)
    (mutate (.tombstone src)).beside _
    (inodeRename src dst).beside _) := rfl

theorem erases_renameDirNoted (fuel : Nat) (src dst : RepoPath) :
    Erases (P.renameDirNoted fuel src dst) (P.renameDir fuel src dst) := by
  induction fuel generalizing src dst with
  | zero => exact erases_done _
  | succ fuel ih =>
    refine erases_bind (erases_beside _) fun _ => erases_bind (erases_beside _) fun kids =>
      erases_bind (erases_each (fun kid => ?_) kids) fun _ => erases_bind (erases_beside _) fun _ => erases_beside _
    refine erases_bind (erases_liftExcept _) fun cs => erases_bind (erases_liftExcept _) fun cd => erases_note ?_
    split
    · exact ih cs cd
    · cases moveChild cs cd kid.2 with
      | none => exact erases_done _
      | some op => exact erases_bind (erases_beside _) fun _ => erases_beside _

/-! What can be listed still can be when only other paths have changed. -/

theorem resolveAll_isOk {names : List Bytes} : (∃ out, P.resolveAll ov dir names = .ok out) ↔
    ∀ name ∈ names, ∃ q r, join dir name = .ok q ∧ P.resolve ov q = .ok r := by
  induction names with
  | nil => simp [resolveAll]
  | cons name names ih =>
    rw [List.forall_mem_cons, ← ih]
    constructor
    · rintro ⟨out, h⟩
      obtain ⟨q, hq, h⟩ := Except.bind_eq_ok.mp h
      obtain ⟨r, hr, h⟩ := Except.bind_eq_ok.mp h
      obtain ⟨rest, hrest, -⟩ := Except.bind_eq_ok.mp h
      exact ⟨⟨q, r, hq, hr⟩, rest, hrest⟩
    · rintro ⟨⟨q, r, hq, hr⟩, rest, hrest⟩
      refine ⟨(r.map (name, ·)).toList ++ rest, ?_⟩
      simp only [resolveAll, hq, hr, hrest, Except.ok_bind]

theorem undecidedNames_congr (h : ∀ name q, Child dir name q → ov₁.lookup q = ov.lookup q)
    (entries : List TreeEntry) : undecidedNames ov₁ dir entries = undecidedNames ov dir entries := by
  induction entries with
  | nil => rfl
  | cons e entries ih =>
    rw [undecidedNames, undecidedNames, ih]
    cases hj : join dir e.name with
    | error err => rfl
    | ok q => simp only [Except.ok_bind, h _ q (join_eq_ok.mp hj).2]

theorem listed_congr (h : ∀ q m, Under dir q → Under m q → ov₁.lookup m = ov.lookup m)
    (hov : ∃ kids, P.effectiveChildren ov dir = .ok kids) : ∃ kids, P.effectiveChildren ov₁ dir = .ok kids := by
  have hchild : ∀ name q, Child dir name q → ov₁.lookup q = ov.lookup q :=
    fun name q hq => h q q (under_child hq) (Under.refl q)
  have hres : ∀ q, Under dir q → P.resolve ov₁ q = P.resolve ov q := fun q hq => resolve_congr fun m hm => h q m hq hm
  obtain ⟨kids, hov⟩ := hov
  obtain ⟨r, hr, hov⟩ := Except.bind_eq_ok.mp hov
  rw [effectiveChildren, hres dir (Under.refl dir), hr, Except.ok_bind]
  split at hov
  · obtain ⟨entries, hes, hov⟩ := Except.bind_eq_ok.mp hov
    obtain ⟨names, hnames, hov⟩ := Except.bind_eq_ok.mp hov
    obtain ⟨und, hund, hnames⟩ := Except.bind_eq_ok.mp hnames
    cases hnames
    have hall := resolveAll_isOk.mp ⟨kids, hov⟩
    simp only [hes, Except.ok_bind, effectiveNames, undecidedNames_congr hchild, hund]
    refine resolveAll_isOk.mpr fun name hname => ?_
    have hmem : name ∈ (und ++ ((P.children ov dir).filter (·.2 ≠ .tombstone)).map (·.1)).eraseDups := by
      simp only [List.mem_eraseDups, List.mem_append, List.mem_map, List.mem_filter] at hname ⊢
      refine hname.imp_right fun ⟨⟨n, e⟩, ⟨he, ht⟩, hn⟩ => ⟨⟨n, e⟩, ⟨?_, ht⟩, hn⟩
      obtain ⟨q, hq, hl⟩ := mem_children.mp he
      exact mem_children.mpr ⟨q, hq, (hchild n q hq).symm.trans hl⟩
    obtain ⟨q, r', hj, hr'⟩ := hall name hmem
    exact ⟨q, r', hj, (hres q (under_child (join_eq_ok.mp hj).2)).trans hr'⟩
  · cases hov

/-! One directory. -/

/-- A path strictly beneath `src` to which visible directories lead, and which is there. -/
def Descendant (see : RepoPath → Except Error (Option Resolved)) (src c : RepoPath) : Prop :=
  Under src c ∧ c ≠ src ∧ Taken see src c

/-- Each of the paths is a visible descendant, and each comes once. -/
structure Toured (see : RepoPath → Except Error (Option Resolved)) (src : RepoPath) (vs : List RepoPath) : Prop where
  nodup : vs.Nodup
  met : ∀ c ∈ vs, Descendant see src c

/-- The same of the children in `done` and what is beneath them. -/
structure Along (see : RepoPath → Except Error (Option Resolved)) (src : RepoPath)
    (done : List (Bytes × Resolved)) (vs : List RepoPath) : Prop where
  nodup : vs.Nodup
  met : ∀ c ∈ vs, Taken see src c ∧ ∃ kid ∈ done, ∃ cs, Child src kid.1 cs ∧ Under cs c

/-- The loop over the children, after those in `done`. -/
structure Touring (see : RepoPath → Except Error (Option Resolved)) (ns : Namespace) (src dst : RepoPath)
    (done : List (Bytes × Resolved)) (ns' : Namespace) (vs : List RepoPath) : Prop where
  frame : Confined ns src dst done ns'
  along : Along see src done vs
  all : ∀ kid ∈ done, ∀ cs, Child src kid.1 cs → ∀ c, Under cs c → Taken see src c → c ∈ vs

/-- A directory that the recursion comes to cannot be listed. -/
def Stuck (P : Projection) (ov : Overlay) (src : RepoPath) : Prop :=
  ∃ c, Under src c ∧ Reached (P.resolve ov) src c ∧ (c = src ∨ ∃ bt, P.resolve ov c = .ok (some (.dir bt))) ∧
    ¬ ∃ kids, P.effectiveChildren ov c = .ok kids

theorem toured_nil (see : RepoPath → Except Error (Option Resolved)) (src : RepoPath) : Toured see src [] :=
  ⟨List.nodup_nil, fun _ h => (List.not_mem_nil h).elim⟩

theorem Along.toured (h : Along see src done vs) : Toured see src vs := by
  refine ⟨h.nodup, fun c hc => ?_⟩
  obtain ⟨htaken, kid, -, cs, hcs, hu⟩ := h.met c hc
  exact ⟨(under_child hcs).trans hu, fun heq => not_under_parent hcs (heq ▸ hu), htaken⟩

theorem Along.next (h : Along see src done vs) (hsrc : see src = .ok (some (.dir bt)))
    (hnd : ((done ++ (name, x) :: todo).map Prod.fst).Nodup) (hcs : Child src name cs)
    (hv : see cs = .ok (some x)) (ht : Toured see cs vs') : Along see src (done ++ [(name, x)]) (vs ++ cs :: vs') := by
  have hunder : ∀ c ∈ cs :: vs', Under cs c := by
    intro c hc
    rcases List.mem_cons.mp hc with rfl | hc
    · exact Under.refl c
    · exact (ht.met c hc).1
  refine ⟨List.nodup_append.mpr ⟨h.nodup, List.nodup_cons.mpr ⟨fun hc => (ht.met cs hc).2.1 rfl, ht.nodup⟩, ?_⟩,
    fun c hc => ?_⟩
  · -- what was visited before is beneath other children
    rintro c hc c' hc' rfl
    obtain ⟨-, kid, hkid, d, hd, hu⟩ := h.met c hc
    have hname : kid.1 = name := under_sibling hd hcs hu (hunder c hc')
    rw [List.map_append, List.map_cons, List.nodup_append] at hnd
    exact hnd.2.2 kid.1 (List.mem_map_of_mem hkid) name List.mem_cons_self hname
  · rcases List.mem_append.mp hc with hc | hc
    · obtain ⟨htaken, kid, hkid, hrest⟩ := h.met c hc
      exact ⟨htaken, kid, List.mem_append_left _ hkid, hrest⟩
    · refine ⟨(taken_child hsrc hcs (hunder c hc)).mpr ?_, (name, x), by simp, cs, hcs, hunder c hc⟩
      rcases List.mem_cons.mp hc with rfl | hc
      · exact ⟨reached_self, x, hv⟩
      · exact (ht.met c hc).2.2

theorem Touring.next (h : Touring see ns src dst done ns' vs) (hsrc : see src = .ok (some (.dir bt)))
    (hnd : ((done ++ (name, x) :: todo).map Prod.fst).Nodup) (hcs : Child src name cs) (hcd : Child dst name cd)
    (hv : see cs = .ok (some x)) (ht : Toured see cs vs') (hall : ∀ c, Descendant see cs c → c ∈ vs')
    (hrest : Elsewhere ns' cs cd ns'') :
    Touring see ns src dst (done ++ [(name, x)]) ns'' (vs ++ cs :: vs') := by
  refine ⟨h.frame.next hcs hcd hrest, h.along.next hsrc hnd hcs hv ht, fun kid hkid d hd c hu htaken => ?_⟩
  rcases List.mem_append.mp hkid with hkid | hkid
  · exact List.mem_append_left _ (h.all kid hkid d hd c hu htaken)
  · rw [List.mem_singleton] at hkid
    subst hkid
    obtain rfl : d = cs := (hd.unique hcs).mpr rfl
    refine List.mem_append_right _ (List.mem_cons.mpr ?_)
    by_cases heq : c = d
    · exact .inl heq
    · exact .inr (hall c ⟨hu, heq, (taken_child hsrc hcs hu).mp htaken⟩)

theorem Touring.finish {entries : List TreeEntry} {kids : List (Bytes × Resolved)}
    (h : Touring (P.resolve ov) ov₁.index.entries src dst kids ns' vs) (hs : Ahead ov ov₁.index.entries src dst)
    (hk : Effective P ov₁ src entries kids) : ∀ c, Descendant (P.resolve ov) src c → c ∈ vs := by
  rintro c ⟨hu, hne, htaken⟩
  obtain ⟨name, cs, hcs, hu'⟩ := exists_child_under hu hne
  by_cases hin : ∃ kid ∈ kids, kid.1 = name
  · obtain ⟨kid, hkid, rfl⟩ := hin
    exact h.all kid hkid cs hcs c hu' htaken
  · have hnone := resolve_skipped hk hs.src_ne hcs fun kid hkid heq => hin ⟨kid, hkid, heq⟩
    rw [hs.resolve_eq rfl (under_child hcs)] at hnone
    obtain ⟨hreach, r, hr⟩ := htaken
    by_cases heq : c = cs
    · rw [heq, hnone] at hr
      cases hr
    · obtain ⟨bt, hbt⟩ := hreach cs (under_child hcs) hu' (Ne.symm heq)
      rw [hnone] at hbt
      cases hbt

theorem Stuck.up (h : P.Stuck ov cs) (hsrc : P.resolve ov src = .ok (some (.dir bt))) (hcs : Child src name cs)
    (hdir : ∃ bt, P.resolve ov cs = .ok (some (.dir bt))) : P.Stuck ov src := by
  obtain ⟨c, hu, hreach, hc, hno⟩ := h
  refine ⟨c, (under_child hcs).trans hu, (reached_child hsrc hcs hu).mpr hreach, .inr ?_, hno⟩
  rcases hc with rfl | hc
  · exact hdir
  · exact hc

theorem effect_moveChild {op : OverlayOp} (h : moveChild cs cd x = some op) (next : ContentId) (hq : q ≠ cs)
    (hq' : q ≠ cd) : op.effect next ns q = ns q := by
  have hput : ∀ oid mode, (OverlayOp.putBaseRef cd oid mode).effect next ns q = ns q :=
    fun oid mode => Function.update_of_ne hq' _ _
  have hmove : (OverlayOp.rename cs cd).effect next ns q = ns q := by
    cases he : ns cs with
    | none => simp only [OverlayOp.effect, he]
    | some e => simp only [OverlayOp.effect, he, Function.update_of_ne hq, Function.update_of_ne hq']
  cases x with
  | file source y =>
    cases source <;> cases h
    · exact hmove
    · exact hput _ _
  | symlink source =>
    cases source <;> cases h
    · exact hmove
    · exact hput _ _
  | dir | gitfile => cases h

theorem ensures_mutate_beside (Φ Ψ : Namespace → Prop) (log : List RepoPath) {E : World × List RepoPath → Prop}
    (op : OverlayOp) (h : ∀ next ns, Φ ns → Ψ (op.effect next ns)) :
    Ensures (fun s => Φ s.1.ns ∧ s.2 = log) ((mutate op).beside RepoPath) (fun _ s => Ψ s.1.ns ∧ s.2 = log) E := by
  refine ensures_atom_beside (fun s _ hs _ => ⟨?_, hs.2⟩) fun _ _ _ he => by cases he
  show Ψ (s.1.overlay.step op).index.entries
  rw [Overlay.step_entries]
  exact h _ _ hs.1

theorem ensures_inodeRename_beside (Φ : World × List RepoPath → Prop) {E : World × List RepoPath → Prop}
    (hΦ : ∀ w t log, Φ (w, log) → Φ ({ w with inodes := t }, log)) (old new : RepoPath) :
    Ensures Φ ((inodeRename old new).beside RepoPath) (fun _ => Φ) E :=
  ensures_atom_beside (fun s _ hs _ => hΦ s.1 _ s.2 hs) fun _ _ _ he => by cases he

/-- One directory that is walked, at some depth, after what is in the log. -/
def Tours (P : Projection) (ov : Overlay) (fuel : Nat) : Prop :=
  ∀ (src dst : RepoPath) (ns : Namespace) (log : List RepoPath), Ahead ov ns src dst →
    Ensures (fun s => s.1.ns = ns ∧ s.2 = log) (P.renameDirNoted fuel src dst)
      (fun _ s => Elsewhere ns src dst s.1.ns ∧ ∃ vs, s.2 = log ++ vs ∧ Toured (P.resolve ov) src vs ∧
        ∀ c, Descendant (P.resolve ov) src c → c ∈ vs)
      fun s => P.Stuck ov src ∧ ∃ vs, s.2 = log ++ vs ∧ Toured (P.resolve ov) src vs

theorem ensures_visitKid (ih : P.Tours ov fuel) (hs : Ahead ov ns src dst)
    (hsrc : P.resolve ov src = .ok (some (.dir bt))) (hnd : ((done ++ (name, x) :: todo).map Prod.fst).Nodup)
    (hcs : Child src name cs) (hv : P.resolve ov cs = .ok (some x)) :
    Ensures (fun s => ∃ vs, s.2 = log ++ vs ∧ Touring (P.resolve ov) ns src dst done s.1.ns vs)
      (P.visitKid fuel src dst (name, x))
      (fun _ s => ∃ vs, s.2 = log ++ vs ∧ Touring (P.resolve ov) ns src dst (done ++ [(name, x)]) s.1.ns vs)
      fun s => P.Stuck ov src ∧ ∃ vs, s.2 = log ++ vs ∧ Toured (P.resolve ov) src vs := by
  obtain ⟨cd, hcd⟩ := exists_child (valid_of_child hcs) dst
  have hjoin : ∀ {p c : RepoPath}, Child p name c → join p name = .ok c :=
    fun hc => join_eq_ok.mpr ⟨valid_of_child hcs, hc⟩
  refine ensures_from fun s ⟨vs, hlog, ht⟩ => ?_
  have hkid := hs.child ht.frame hnd hcs hcd
  have hpartial : ∀ {vs' : List RepoPath}, Toured (P.resolve ov) cs vs' →
      Toured (P.resolve ov) src (vs ++ cs :: vs') :=
    fun hvs => (ht.along.next hsrc hnd hcs hv hvs).toured
  rw [visitKid, hjoin hcs, liftExcept_ok_bind, hjoin hcd, liftExcept_ok_bind]
  refine ensures_bind (ensures_noted fun t hts => ?_)
    (Q := fun _ t => t.1.ns = s.1.ns ∧ t.2 = log ++ vs ++ [cs]) fun _ => ?_
  · rw [hts]
    exact ⟨rfl, by rw [hlog]⟩
  cases hx : x.isDir with
  | true =>
    obtain ⟨bt', rfl⟩ := Resolved.eq_dir hx
    refine ensures_mono (ih cs cd s.1.ns (log ++ vs ++ [cs]) hkid) (fun _ h => h) (fun _ t hts => ?_) fun t hts => ?_
    · obtain ⟨hrest, vs', hlog', htour, hall⟩ := hts
      refine ⟨vs ++ cs :: vs', ?_, ht.next hsrc hnd hcs hcd hv htour hall hrest⟩
      rw [hlog', List.append_assoc, List.append_assoc, List.singleton_append]
    · obtain ⟨hstuck, vs', hlog', htour⟩ := hts
      refine ⟨hstuck.up hsrc hcs ⟨bt', hv⟩, vs ++ cs :: vs', ?_, hpartial htour⟩
      rw [hlog', List.append_assoc, List.append_assoc, List.singleton_append]
  | false =>
    rw [if_neg (by simp)]
    obtain ⟨op, hop⟩ := moveChild_of_leaf (leaf_of_resolve (hcs.ordinary hs.src_ne) hv hx) cs cd
    rw [hop]
    -- beneath what is no directory the walk comes to nothing
    have hall : ∀ c, Descendant (P.resolve ov) cs c → c ∈ ([] : List RepoPath) := by
      rintro c ⟨hu, hne, hreach, -⟩
      refine (not_reached_below hu hne (fun bt hbt => ?_) hreach).elim
      rw [hv] at hbt
      cases hbt
      cases hx
    refine ensures_bind (ensures_mutate_beside (· = s.1.ns) (Elsewhere s.1.ns cs cd) (log ++ vs ++ [cs]) op
      fun next ns' hns q hqs hqd => ?_) fun _ => ensures_mono (ensures_inodeRename_beside _ (fun _ _ _ h => h) cs cd)
        (fun _ h => h) (fun _ t hts => ?_) fun _ h => h
    · have hne : q ≠ cs := fun heq => hqs (heq ▸ Under.refl cs)
      have hne' : q ≠ cd := fun heq => hqd (heq ▸ Under.refl cd)
      rw [effect_moveChild hop next hne hne', hns]
    · refine ⟨vs ++ [cs], by rw [hts.2, List.append_assoc], ?_⟩
      exact ht.next hsrc hnd hcs hcd hv (toured_nil _ cs) hall hts.1

/-- By induction on the fuel, with the loop invariant `Touring`. -/
theorem tours (fuel : Nat) : P.Tours ov fuel := by
  induction fuel with
  | zero => exact fun _ _ _ _ _ => ensures_diverge
  | succ fuel ih =>
    intro src dst ns log hs₀
    have hs := hs₀.put_dir
    rw [renameDirNoted_succ]
    refine ensures_bind (ensures_mutate_beside (· = ns) (· = update ns dst (some .dir)) log (.putDir dst)
      fun next ns' h => by rw [h]; rfl) fun _ => ?_
    have hother : ∀ q, q ≠ dst → update ns dst (some .dir) q = ns q :=
      fun q hq => Function.update_of_ne hq _ _
    generalize update ns dst (some .dir) = ns₁ at hs hother
    refine ensures_bind (ensures_atom_beside (fun s kids hw hk => ?_) fun s e hw hk => ?_)
      (Q := fun kids s => (∃ ov₁ entries, ov₁.index.entries = ns₁ ∧ Effective P ov₁ src entries kids) ∧
        s.1.ns = ns₁ ∧ s.2 = log) fun kids => ensures_of fun hkids => ?_
    · obtain ⟨entries, he⟩ := effective hk
      exact ⟨⟨s.1.overlay, entries, hw.1, he⟩, hw⟩
    · refine ⟨⟨src, Under.refl src, reached_self, .inl rfl, fun hlist => ?_⟩, [], ?_, toured_nil _ src⟩
      · have hsame : ∀ q m, Under src q → Under m q → s.1.overlay.lookup m = ov.lookup m := by
          intro q m hu hm
          rw [← hs.same q m hu hm, ← hw.1]
          rfl
        obtain ⟨kids, hkids⟩ := listed_congr hsame hlist
        rw [hk] at hkids
        cases hkids
      · rw [List.append_nil]
        exact hw.2
    obtain ⟨ov₁, entries, rfl, hk⟩ := hkids
    obtain ⟨bt, hsrc, -⟩ := hk.tree
    rw [hs.resolve_eq rfl (Under.refl src)] at hsrc
    refine ensures_bind (ensures_weaken (ensures_each (fun done _ s => ∃ vs, s.2 = log ++ vs ∧
      Touring (P.resolve ov) ov₁.index.entries src dst done s.1.ns vs) fun ys kid zs hxs => ?_) (fun s hsl => ?_)
      fun _ _ h => h) fun _ => ?_
    · have hnd : ((ys ++ kid :: zs).map Prod.fst).Nodup := hxs ▸ hk.nodup
      obtain ⟨cs, hcs, hv⟩ := hk.resolved kid (by simp [hxs])
      rw [hs.resolve_eq rfl (under_child hcs)] at hv
      exact ensures_visitKid ih hs hsrc hnd hcs hv
    · refine ⟨[], by rw [hsl.2, List.append_nil], ?_⟩
      rw [hsl.1]
      exact ⟨fun q hq => (hq rfl).elim, ⟨List.nodup_nil, by simp⟩, by simp⟩
    · refine ensures_bind (ensures_atom_beside (fun s _ hsl _ => ?_) fun _ _ _ he => by cases he) fun _ =>
        ensures_inodeRename_beside (fun s => Elsewhere ns src dst s.1.ns ∧ ∃ vs, s.2 = log ++ vs ∧
          Toured (P.resolve ov) src vs ∧ ∀ c, Descendant (P.resolve ov) src c → c ∈ vs) (fun _ _ _ h => h) src dst
      obtain ⟨vs, hlog, ht⟩ := hsl
      refine ⟨fun q hqs hqd => ?_, vs, hlog, ht.along.toured, ht.finish hs hk⟩
      have hne : q ≠ src := fun heq => hqs (heq ▸ Under.refl src)
      have hne' : q ≠ dst := fun heq => hqd (heq ▸ Under.refl dst)
      show (s.1.overlay.step (.tombstone src)).index.entries q = ns q
      rw [Overlay.step_entries]
      show update s.1.ns src (some .tombstone) q = ns q
      rw [Function.update_of_ne hne, ← hother q hne']
      exact ht.frame.outside (fun _ _ hc hu => hqs ((under_child hc).trans hu))
        fun _ _ hc hu => hqd ((under_child hc).trans hu)

/-- A directory rename comes to its end for every two paths of which the second is not within the first. If
neither is within the other it comes to each visible descendant of its source at most once, to nothing else and
to nothing beneath its destination, and if all directories can be listed it returns and has come to all. -/
theorem rename_dir_walk (P : Projection) {w : World} {src dst : RepoPath}
    (hov : {q | (w.overlay.lookup q).isSome}.Finite) (hbase : P.store.Hierarchy P.baselineTree)
    (hd : ¬ Under src dst) : ∃ n, ∀ fuel, n ≤ fuel →
      ((P.renameDir fuel src dst).run w).1 ≠ .diverge ∧
      (P.renameDir fuel src dst).run w = (P.renameDir n src dst).run w ∧
      (¬ Under dst src → ∃ visited,
        (P.renameDirNoted fuel src dst).run (w, []) =
          (((P.renameDir fuel src dst).run w).1, ((P.renameDir fuel src dst).run w).2, visited) ∧
        visited.Nodup ∧ (∀ c ∈ visited, Descendant (P.resolve w.overlay) src c ∧ ¬ Under dst c) ∧
        (((P.renameDir fuel src dst).run w).1 = .ok () → ∀ c, Descendant (P.resolve w.overlay) src c → c ∈ visited) ∧
        (¬ P.Stuck w.overlay src → ((P.renameDir fuel src dst).run w).1 = .ok ())) := by
  obtain ⟨n, hn⟩ := renameDir_ends hov hbase hd
  refine ⟨n, fun fuel hle => ⟨(hn fuel hle).1, (hn fuel hle).2, fun hd' => ?_⟩⟩
  have hahead : Ahead w.overlay w.ns src dst := ⟨ne_root_of_not_under hd, hd, hd', fun _ _ _ _ => rfl⟩
  have htour := tours (P := P) fuel src dst w.ns [] hahead (w, []) ⟨rfl, rfl⟩
  obtain ⟨hres, hworld⟩ := erases_renameDirNoted (P := P) fuel src dst (w, [])
  have hends := (hn fuel hle).1
  rcases hrun : (P.renameDirNoted fuel src dst).run (w, []) with ⟨r, t, visited⟩
  rw [hrun] at htour hres hworld
  rw [← hres] at hends ⊢
  rw [← hworld]
  have happart : ∀ c, Descendant (P.resolve w.overlay) src c → ¬ Under dst c := fun c hc => hahead.apart hc.1
  cases r with
  | ok u =>
    obtain ⟨-, vs, rfl, ht, hall⟩ := htour
    exact ⟨_, rfl, ht.nodup, fun c hc => ⟨ht.met c hc, happart c (ht.met c hc)⟩, fun _ => hall, fun _ => rfl⟩
  | error e =>
    obtain ⟨hstuck, vs, rfl, ht⟩ := htour
    exact ⟨_, rfl, ht.nodup, fun c hc => ⟨ht.met c hc, happart c (ht.met c hc)⟩, (fun h => by cases h),
      fun hno => (hno hstuck).elim⟩
  | diverge => exact (hends rfl).elim

end Projection

/-! A baseline with `d/s/s/t/x` and `d/s/t/x/v`, and with the submodule `m/g` beside the file `m/h`. -/

def forkedTrees : List (ObjectId × List TreeEntry) :=
  [(⟨[1]⟩, [⟨[100], .tree, ⟨[2]⟩⟩, ⟨[109], .tree, ⟨[8]⟩⟩]), (⟨[2]⟩, [⟨[115], .tree, ⟨[3]⟩⟩]),
    (⟨[3]⟩, [⟨[115], .tree, ⟨[4]⟩⟩, ⟨[116], .tree, ⟨[6]⟩⟩]), (⟨[4]⟩, [⟨[116], .tree, ⟨[5]⟩⟩]),
    (⟨[5]⟩, [⟨[120], .regular, ⟨[9]⟩⟩]), (⟨[6]⟩, [⟨[120], .tree, ⟨[7]⟩⟩]), (⟨[7]⟩, [⟨[118], .regular, ⟨[9]⟩⟩]),
    (⟨[8]⟩, [⟨[103], .gitlink, ⟨[10]⟩⟩, ⟨[104], .regular, ⟨[9]⟩⟩])]

def forkedStore : GitStore where
  readTree oid :=
    match forkedTrees.lookup oid with
    | some entries => .ok entries
    | none => .error ⟨.offlineMissingObject, "object not found"⟩
  readBlobRaw _ := .ok [120]
  objectSize _ := .ok 1

noncomputable def forkedProjection : Projection := { deepProjection with store := forkedStore }

theorem hierarchy_forked : forkedProjection.store.Hierarchy forkedProjection.baselineTree := by
  refine GitStore.hierarchy_of_rank (fun oid => 10 - (oid.raw.headD 0).toNat) (fun t entries e hes he hm => ?_) _
  have hall : ∀ p ∈ forkedTrees, ∀ e ∈ p.2, e.mode = .tree →
      10 - (e.oid.raw.headD 0).toNat < 10 - (p.1.raw.headD 0).toNat := by decide
  cases hl : forkedTrees.lookup t with
  | none =>
    simp only [forkedProjection, forkedStore, hl] at hes
    cases hes
  | some es =>
    simp only [forkedProjection, forkedStore, hl] at hes
    obtain rfl : es = entries := Except.ok.inj hes
    obtain ⟨pre, post, hmem, -⟩ := List.lookup_eq_some_iff.mp hl
    exact hall (t, es) (by rw [hmem]; simp) e he hm

noncomputable def forkedWalk (src dst : RepoPath) : Outcome Error Unit × World × List RepoPath :=
  (forkedProjection.renameDirNoted 6 src dst).run (World.fresh 7 none, [])

theorem fresh_finite (pid : Nat) : {q | ((World.fresh pid none).overlay.lookup q).isSome}.Finite :=
  Set.finite_empty.subset fun _ h => by cases h

/-- `rename d e` -/
theorem rename_dir_walk_forked : ∃ fuel, ∃ visited : List RepoPath, visited.Nodup ∧
    ((forkedProjection.renameDirNoted fuel (letter 100) (letter 101)).run (World.fresh 7 none, [])).2.2 = visited ∧
    ((forkedProjection.renameDir fuel (letter 100) (letter 101)).run (World.fresh 7 none)).1 ≠ .diverge := by
  have hd : ¬ Under (letter 100) (letter 101) := by decide
  have hd' : ¬ Under (letter 101) (letter 100) := by decide
  obtain ⟨n, hn⟩ := Projection.rename_dir_walk forkedProjection (fresh_finite 7) hierarchy_forked hd
  obtain ⟨hends, -, hwalk⟩ := hn n le_rfl
  obtain ⟨visited, hrun, hnodup, -⟩ := hwalk hd'
  exact ⟨n, visited, hnodup, by rw [hrun], hends⟩

/-- A rename of `d/s` to `d` makes `d/s/t/x` and then comes to it, and never to `d/s/t/x/v`; a rename of `m`
ends at the submodule, before the file beside it. -/
theorem walk_visits_what_it_makes :
    let see := forkedProjection.resolve (World.fresh 7 none).overlay
    let ds := ofComponents [[100], [115]] (by decide)
    let made := ofComponents [[100], [115], [116], [120]] (by decide)
    let missed := ofComponents [[100], [115], [116], [120], [118]] (by decide)
    let beside := ofComponents [[109], [104]] (by decide)
    forkedProjection.store.Hierarchy forkedProjection.baselineTree ∧
    (¬ Under ds (letter 100) ∧ (forkedWalk ds (letter 100)).1 = .ok () ∧
      (World.fresh 7 none).overlay.lookup made = none ∧
      (forkedWalk ds (letter 100)).2.1.overlay.lookup made = some (.baseRef ⟨[9]⟩ .regular) ∧
      made ∈ (forkedWalk ds (letter 100)).2.2 ∧
      Projection.Descendant see ds missed ∧ missed ∉ (forkedWalk ds (letter 100)).2.2) ∧
    (forkedWalk (letter 109) (letter 101)).1 = .error ⟨.offlineMissingObject, "object not found"⟩ ∧
      Projection.Descendant see (letter 109) beside ∧ beside ∉ (forkedWalk (letter 109) (letter 101)).2.2 := by
  intro see ds made missed beside
  have hds : see ds = .ok (some (.dir (some ⟨[3]⟩))) := by decide +kernel
  let dt := ofComponents [[100], [115], [116]] (by decide)
  have hdt : see dt = .ok (some (.dir (some ⟨[6]⟩))) := by decide +kernel
  have hmade : see made = .ok (some (.dir (some ⟨[7]⟩))) := by decide +kernel
  have hmissed : see missed = .ok (some (.file (.baseline ⟨[9]⟩) false)) := by decide +kernel
  have hm : see (letter 109) = .ok (some (.dir (some ⟨[8]⟩))) := by decide +kernel
  have hbeside : see beside = .ok (some (.file (.baseline ⟨[9]⟩) false)) := by decide +kernel
  have hreach : Projection.Reached see ds missed := by
    have ht : Child ds [116] dt := rfl
    have hx : Child dt [120] made := rfl
    have hv : Child made [118] missed := rfl
    have hu := (under_child hx).trans (under_child hv)
    rw [Projection.reached_child hds ht hu, Projection.reached_child hdt hx (under_child hv),
      Projection.reached_child hmade hv (Under.refl missed)]
    exact Projection.reached_self
  refine ⟨hierarchy_forked, ⟨by decide, by decide +kernel, rfl, by decide +kernel, by decide +kernel,
    ⟨by decide, by decide, hreach, _, hmissed⟩, by decide +kernel⟩, by decide +kernel,
    ⟨by decide, by decide, ?_, _, hbeside⟩, by decide +kernel⟩
  exact (Projection.reached_child hm (show Child (letter 109) [104] beside from rfl) (Under.refl beside)).mpr
    Projection.reached_self

end LazyMount
