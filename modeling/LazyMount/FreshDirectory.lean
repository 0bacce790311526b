import LazyMount.KernelCalls
import LazyMount.Masking

/-! Runs of projection operations, each called as the kernel calls it, and the directories that
`mkdir` makes in them. -/

namespace LazyMount

open Function (update)
open RepoPath Transition

/-- A directory is renamed only if its tree masks the baseline name by name, and onto nothing
or an empty directory. -/
def Op.Masked (P : Projection) (w : World) : Op → Prop
  | .rename parent name newparent newname _ =>
    ∀ src dst, w.Names parent name src → w.Names newparent newname dst →
      (∃ bt, P.resolve w.overlay src = .ok (some (.dir bt))) →
        Projection.Masks P (P.resolve w.overlay) w.ns src ∧
          Projection.Vacant (P.resolve w.overlay) dst
  | _ => True

namespace Projection

open Handler Prog

variable {P : Projection} {ns : Namespace} {p q src dst : RepoPath} {parent : Nat} {name : Bytes}

structure Target (P : Projection) (p : RepoPath) (r : Option Resolved) (ns : Namespace) : Prop where
  closed : P.Closed ns
  ordinary : p.Ordinary
  exposed : P.Exposed ns p
  view : P.view ns p = .ok r

variable {w : World} {r : Option Resolved}

theorem exposed_of_hasDir (hc : P.Closed w.ns) (hd : w.HasDir P parent) (hn : w.Names parent name p) :
    P.Exposed w.ns p := by
  obtain ⟨dir, bt, hdir, hr⟩ := hd
  obtain ⟨dir', hdir', hch⟩ := hn
  obtain rfl : dir = dir' := Except.ok.inj (hdir.symm.trans hdir')
  rw [hc.resolve_eq rfl] at hr
  intro q n r hq hv hl
  obtain rfl := hq.parent_unique hch
  rw [hr] at hv
  cases hv
  exact hl

theorem target (hc : P.Closed w.ns) (hd : w.HasDir P parent) (hn : w.Names parent name p)
    (hp : p.Ordinary) (hr : P.resolve w.overlay p = .ok r) : Target P p r w.ns :=
  ⟨hc, hp, exposed_of_hasDir hc hd hn, by rwa [hc.resolve_eq rfl] at hr⟩

theorem Target.put (ht : Target P p r ns) (hr : Leaf r) (e : OverlayEntry) :
    P.Closed (update ns p (some e)) := ht.closed.put_leaf ht.exposed ht.view hr e

def Made (P : Projection) (p : RepoPath) (ns : Namespace) : Prop :=
  ∃ ns₀, Target P p none ns₀ ∧ ns = update ns₀ p (some .dir)

theorem Made.closed (h : Made P p ns) : P.Closed ns := by
  obtain ⟨ns₀, ht, rfl⟩ := h
  exact ht.put trivial _

/-- One directory that is moved: by induction on the fuel, with the loop invariant `Moving`. -/
theorem ensures_renameDir (fuel : Nat) (src dst : RepoPath) (ns : Namespace) :
    Ensures (fun w => w.ns = ns ∧ Movable P ns src dst) (P.renameDir fuel src dst)
      (fun _ w => Moved P ns src dst w.ns) fun w => P.Closed w.ns := by
  induction fuel generalizing src dst ns with
  | zero => exact ensures_diverge
  | succ fuel ih =>
    intro w hw
    obtain ⟨hns, hm₀⟩ := hw
    obtain ⟨hm, hdst⟩ := movable_put_dir hm₀
    revert w
    suffices hh : Ensures (fun w => w.ns = ns) (P.renameDir (fuel + 1) src dst)
        (fun _ w => Moved P ns src dst w.ns) fun w => P.Closed w.ns from fun w hns => hh w hns
    refine ensures_bind (ensures_mutate (· = ns) (· = update ns dst (some .dir)) (.putDir dst)
      fun next ns' h => by rw [h]; rfl) fun _ => ?_
    generalize hns₁ : update ns dst (some .dir) = ns₁ at hm hdst
    refine ensures_bind (ensures_read (fun w kids hw hk => ?_) fun w hw => by rw [hw]; exact hm.closed)
      (Q := fun kids w => (∃ entries, Kids P ns₁ src entries kids) ∧ w.ns = ns₁) fun kids => ?_
    · exact ⟨effectiveChildren_ok hm.closed hw hk, hw⟩
    refine ensures_of fun hkids => ?_
    obtain ⟨entries, hk⟩ := hkids
    refine ensures_bind (ensures_weaken (ensures_each
      (fun done _ w => Moving P ns₁ src dst done w.ns) fun ys x zs hxs => ?_) (fun w hw => ?_)
      fun _ _ h => h) fun _ => ?_
    · -- one child: a directory goes by the induction hypothesis, a leaf is re-keyed
      have hnd : ((ys ++ x :: zs).map Prod.fst).Nodup := hxs ▸ hk.nodup
      obtain ⟨cs, hcs, hv⟩ := hk.resolved x (by simp [hxs])
      refine ensures_bind (ensures_liftExcept (fun cs' w hj hw => ⟨(join_eq_ok.mp hj).2, hw⟩)
        fun w hw => hw.closed) (Q := fun cs' w => Child src x.1 cs' ∧ Moving P ns₁ src dst ys w.ns)
        fun cs' => ensures_of fun hcs' => ?_
      obtain rfl : cs' = cs := (hcs'.unique hcs).mpr rfl
      refine ensures_bind (ensures_liftExcept (fun cd w hj hw => ⟨(join_eq_ok.mp hj).2, hw⟩)
        fun w hw => hw.closed) (Q := fun cd w => Child dst x.1 cd ∧ Moving P ns₁ src dst ys w.ns)
        fun cd => ensures_of fun hcd => ?_
      cases hx : x.2.isDir with
      | true =>
        have hdir : ∃ bt, P.view ns₁ cs' = .ok (some (.dir bt)) := by
          rw [hv]
          cases h2 : x.2 with
          | dir bt => exact ⟨bt, rfl⟩
          | file | symlink | gitfile => simp [h2, Resolved.isDir] at hx
        exact ensures_from fun w hw => ensures_weaken (ih cs' cd w.ns)
          (fun _ h => ⟨by rw [h], hw.movable hm hdst hnd hcs' hcd hdir⟩)
          fun _ _ hmoved => hw.next_dir hm hnd hcs' hcd hmoved
      | false =>
        rw [if_neg (by simp)]
        obtain ⟨-, hop, -⟩ := moveChild_of_masks hk hm.src_ordinary hm.masks hcs' hv hx cd
        rw [hop]
        exact ensures_bind (ensures_mutate _ (Moving P ns₁ src dst (ys ++ [x])) (.rename cs' cd)
          fun next ns' hw => hw.next_leaf hm hdst hk hnd hcs' hcd hv hx next) fun _ =>
          ensures_quiet (Moving P ns₁ src dst (ys ++ [x]))
            (quiet_inodeRename (P := P) hcs'.ne_root cd) fun w hw => hw.closed
    · rw [hw]
      exact ⟨hm.closed, fun q hq => (hq rfl).elim, by simp⟩
    · refine ensures_bind (ensures_mutate (Moving P ns₁ src dst kids) (Moved P ns src dst)
        (.tombstone src) fun next ns' hw => ⟨hw.finish hm hk, Function.update_self _ _ _,
          fun q hs hd => ?_⟩) fun _ =>
        ensures_quiet (Moved P ns src dst) (quiet_inodeRename (P := P) hm.src_ordinary.1 dst)
          fun w hw => hw.closed
      have hqs : q ≠ src := by
        intro heq
        subst heq
        exact hs (Under.refl q)
      have hqd : q ≠ dst := by
        intro heq
        subst heq
        exact hd (Under.refl q)
      show update ns' src (some .tombstone) q = ns q
      rw [Function.update_of_ne hqs, hw.frame.outside (fun _ _ hc hu => hs ((under_child hc).trans hu))
        (fun _ _ hc hu => hd ((under_child hc).trans hu)), ← hns₁, Function.update_of_ne hqd]

theorem movable {w : World} {newparent : Nat} {newname : Bytes} {flags : UInt32} {bt : Option ObjectId}
    (hc : P.Closed w.ns) (hl : (Op.rename parent name newparent newname flags).Legal P w)
    (hm : (Op.rename parent name newparent newname flags).Masked P w) (hn : w.Names parent name src)
    (hn' : w.Names newparent newname dst) (hsrc : src.Ordinary) (hdst : dst.Ordinary)
    (hr : P.resolve w.overlay src = .ok (some (.dir bt))) : Movable P w.ns src dst := by
  obtain ⟨-, hd', hall⟩ := hl
  obtain ⟨hsd, hds, x, y, hx, hy, hkind⟩ := hall src dst hn hn'
  obtain rfl : x = .dir bt := Option.some.inj (Except.ok.inj (hx.symm.trans hr))
  have hmask := hm src dst hn hn' ⟨bt, hr⟩
  rw [show P.resolve w.overlay = P.view w.ns from funext (hc.resolve_eq rfl)] at hmask hr hy
  refine ⟨hc, ⟨bt, hr⟩, hsrc, hdst, exposed_of_hasDir hc hd' hn', ?_, hsd, hds, hmask.1, hmask.2⟩
  cases y with
  | none =>
    obtain ⟨b, hb, -⟩ := hc.covered_of_leaf hy trivial
    exact ⟨b, hb⟩
  | some y =>
    obtain ⟨bt', rfl⟩ := Resolved.eq_dir (hkind y rfl)
    obtain ⟨b, hb, -⟩ := view_dir_tree hdst hy
    exact ⟨b, hb⟩

theorem Target.emptied (ht : Target P p r ns) (hr : Leaf r) : Emptied P p ns :=
  ⟨ht.closed, ht.ordinary, ht.exposed, ht.closed.hidden p r ht.view hr, ht.closed.covered_of_leaf ht.view hr⟩

theorem Emptied.after {e : OverlayEntry} (hs : Emptied P src ns) (hd : Emptied P dst ns)
    (hsd : ¬ Under src dst) (hds : ¬ Under dst src) : Emptied P src (update ns dst (some e)) := by
  have hview : ∀ q, q ≠ dst → P.view (update ns dst (some e)) q = P.view ns q :=
    fun q hq => view_congr (Function.update_of_ne hq _ _)
  refine ⟨hd.remove (some e), hs.ordinary, fun q n r hq hr hl => ?_, fun n q hq => ?_, ?_⟩
  · have hne : q ≠ dst := fun h => hds (h ▸ under_child hq)
    rw [hview q hne] at hr
    exact hs.exposed q n r hq hr hl
  · have hne : q ≠ dst := fun h => hsd (h ▸ under_child hq)
    rw [hview q hne]
    exact hs.hidden n q hq
  · obtain ⟨b, hb, hall⟩ := hs.covered
    refine ⟨b, hb, fun t ht => ?_⟩
    obtain ⟨es, hes, hin⟩ := hall t ht
    refine ⟨es, hes, fun te hte => ?_⟩
    obtain ⟨m, hv, hm, hm'⟩ := hin te hte
    have hne : m ≠ dst := fun h => hsd (h ▸ under_child hm)
    exact ⟨m, hv, hm, by rwa [Function.update_of_ne hne]⟩

/-- An operation that the kernel calls legally and that masks what it moves keeps the namespace
closed. -/
theorem keeps_closed (P : Projection) :
    P.Keeps P.Closed (Emptied P) fun w op => op.Legal P w ∧ op.Masked P w where
  legal _ _ h := h.1
  inv _ _ h := h.closed
  set _ _ v h _ := h.remove v
  after _ _ _ _ hs hd hsd hds _ := hs.after hd hsd hds
  entry p ns c x hc he := by
    have hp := hc.unset p (by simp [he])
    have hv : P.view ns p = .ok (some (.file (.overlay p) x)) := by
      rw [view_ordinary hp, he]
      rfl
    exact Target.emptied ⟨hc, hp, hc.exposed hv, hv⟩ trivial
  file w p source x hc hr := by
    rw [hc.resolve_eq rfl] at hr
    exact Target.emptied ⟨hc, ordinary_of_leaf hr trivial, hc.exposed hr, hr⟩ trivial
  leaf w parent name p r hc hd hn hp hr hl := (target hc hd hn hp hr).emptied hl
  empty w parent name p hc hd hn hp h := emptied hc hp (exposed_of_hasDir hc hd hn) rfl h
  mkdir w parent name p hc hl hn hp hr := (target hc hl.1 hn hp hr).put trivial _
  renameDir w parent name newparent newname flags src dst bt fuel hc hl hn hn' hsrc hdst hr :=
    ensures_weaken (ensures_renameDir fuel src dst w.ns)
      (fun _ hv => ⟨hv, movable hc hl.1 hl.2 hn hn' hsrc hdst hr⟩) fun _ _ h => h.closed

theorem run_readdir_made {w : World} {ino : Nat} (hm : Made P p w.ns) (hino : w.pathOf ino = .ok p) :
    (P.readdir ino).run w = (.ok [], w) := by
  obtain ⟨ns₀, ht, hns⟩ := hm
  have hp := ht.ordinary
  have hroot : ¬ p.isRoot = true := by rw [isRoot_iff]; exact hp.1
  have hc : P.Closed w.ns := by rw [hns]; exact ht.put trivial _
  have hother : ∀ q, q ≠ p → w.ns q = ns₀ q := fun q hq => by rw [hns, Function.update_of_ne hq]
  obtain ⟨r, hr, hcov⟩ := ht.closed.covered_of_leaf ht.view trivial
  obtain ⟨bt, hbt, hiff⟩ := baselineTreeAt_of hr
  have hres : P.resolve w.overlay p = .ok (some (.dir bt)) := by
    rw [hc.resolve_eq rfl, view_ordinary hp, hns, Function.update_self]
    simp [layered, entryResolved, hbt]
  obtain ⟨entries, hes, hall⟩ : ∃ entries, P.treeEntries bt = .ok entries ∧
      ∀ e ∈ entries, ∃ q, Child p e.name q ∧ (w.ns q).isSome := by
    cases bt with
    | none => exact ⟨[], rfl, by simp⟩
    | some t =>
      obtain ⟨es, hes, hall⟩ := hcov t ((hiff t).mp rfl)
      refine ⟨es, hes, fun e he => ?_⟩
      obtain ⟨q, -, hq, hs⟩ := hall e he
      exact ⟨q, hq, by rwa [hother q hq.ne]⟩
  have hbase : ∀ e ∈ entries, (listBaseline p e).run w = (.ok none, w) := by
    intro e he
    obtain ⟨q, hq, hs⟩ := hall e he
    obtain ⟨o, ho⟩ := Option.isSome_iff_exists.mp hs
    have hj : join p e.name = .ok q := join_eq_ok.mpr ⟨valid_of_child hq, hq⟩
    rw [listBaseline, if_neg (fun h => hroot h.1), hj]
    have hl : (lookupEntry q).run w = (.ok (some o), w) :=
      run_read (f := fun w : World => .ok (w.overlay.lookup q)) (congrArg Except.ok ho)
    exact (run_bind_ok hl).trans rfl
  have hkids : ∀ c ∈ P.children w.overlay p, (listOverlay p c).run w = (.ok none, w) := by
    rintro ⟨name, e⟩ hc'
    obtain ⟨q, hq, he⟩ := mem_children.mp hc'
    have hv := ht.closed.hidden p none ht.view trivial name q hq
    have hq' : ns₀ q = some e := by rw [← hother q hq.ne]; exact he
    rw [view_ordinary (hq.ordinary hp.1), hq'] at hv
    obtain rfl := entryResolved_none_iff.mp hv
    rfl
  refine (run_bind_ok (run_read (f := fun w : World => w.pathOf ino) hino)).trans ?_
  refine (run_bind_ok (run_read (f := fun w : World => P.resolve w.overlay p) hres)).trans ?_
  refine (run_bind_ok (run_read (f := fun _ : World => P.treeEntries bt) hes)).trans ?_
  refine (run_bind_ok (run_collect_none hbase)).trans ?_
  refine (run_bind_ok (run_read (f := fun w : World => .ok (P.children w.overlay p)) rfl)).trans ?_
  refine (run_bind_ok (run_collect_none hkids)).trans ?_
  rw [if_neg hroot]
  rfl

def KernelStep (P : Projection) (w : World) (op : Op) (w' : World) : Prop :=
  op.Legal P w ∧ op.Masked P w ∧ P.Step w op w'

theorem closed_kernelStep {w w' : World} {op : Op} (hc : P.Closed w.ns) (h : KernelStep P w op w') :
    P.Closed w'.ns := by
  obtain ⟨hl, hm, hs⟩ := h
  exact (keeps_closed P).step hc ⟨hl, hm⟩ hs

theorem rootSafe_handlerStep {l : Action} {upd : World → World} (h : P.HandlerStep l upd) (w : World)
    (hw : w.inodes.RootSafe) : (upd w).inodes.RootSafe := by
  cases h with
  | quiet h =>
    cases h with
    | read | fetch | record => exact hw
    | inode f hf => exact hf _ hw
  | mutate | edit => exact hw

theorem rootSafe_step {w w' : World} {op : Op} (hw : w.inodes.RootSafe) (h : P.Step w op w') :
    w'.inodes.RootSafe := by
  obtain ⟨fuel, r, hr, -⟩ := h
  have hh := (Op.within P fuel op).run (fun _ _ hu v hv => rootSafe_handlerStep hu v hv) hw
  rwa [hr] at hh

/-- A new directory is empty: if every directory rename of a run masks the baseline beneath what
it moves, what `mkdir` returns lists nothing, and nothing beneath it resolves. -/
theorem mkdir_returns_empty_directory (P : Projection) (pid : Nat)
    (journal : Option (State × JournalDir)) {ops : List Op} {w w' : World} {parent : Nat}
    {name : Bytes} {attr : Attr} (hrun : Trace (KernelStep P) (World.fresh pid journal) ops w)
    (hlegal : (Op.mkdir parent name).Legal P w) (hmk : (P.mkdir parent name).run w = (.ok attr, w')) :
    (P.readdir attr.ino).run w' = (.ok [], w') ∧
      ∃ path, w.Names parent name path ∧ w'.pathOf attr.ino = .ok path ∧
        ∀ q, Under path q → q ≠ path → P.resolve w'.overlay q = .ok none := by
  have hc : P.Closed w.ns := hrun.invariant (I := fun w => P.Closed w.ns)
    (fun _ _ _ hc h => closed_kernelStep hc h) closed_empty
  have hroot : w'.inodes.RootSafe := by
    have hw : w.inodes.RootSafe := hrun.invariant (I := fun w => w.inodes.RootSafe)
      (fun _ _ _ hs h => rootSafe_step hs h.2.2) InodeTable.rootSafe_new
    have hh := (within_mkdir (P := P) parent name).run
      (fun _ _ hu v hv => rootSafe_handlerStep hu.handlerStep v hv) hw
    rwa [hmk] at hh
  have hh : Ensures _ (P.mkdir parent name) _ _ := ensures_mkdir P.Closed w
  replace hh := hh w ⟨rfl, hc⟩
  rw [hmk] at hh
  obtain ⟨path, hn, hp, hr, hns, hino⟩ := hh
  have hmade : Made P path w'.ns := ⟨w.ns, target hc hlegal hn hp hr, hns⟩
  have hpath : w'.pathOf attr.ino = .ok path := by
    have hne : attr.ino ≠ rootIno := by
      intro h
      rw [h] at hino
      obtain ⟨ns₀, ht, -⟩ := hmade
      exact ht.ordinary.1 (hroot path hino)
    rw [World.pathOf, if_neg hne, hino]
  refine ⟨run_readdir_made hmade hpath, path, hn, hpath, fun q hu hne => ?_⟩
  have hc' := hmade.closed
  rw [hc'.resolve_eq rfl]
  obtain ⟨ns₀, ht, hns⟩ := hmade
  rw [hns, view_congr (Function.update_of_ne hne _ _)]
  exact ht.closed.below ht.view trivial hu hne

/-! A baseline of the directories `d` and `d/x` with the file `d/x/x`. -/

def dxStore : GitStore where
  readTree oid :=
    if oid.raw = [1] then .ok [⟨[100], .tree, ⟨[2]⟩⟩]
    else if oid.raw = [2] then .ok [⟨[120], .tree, ⟨[3]⟩⟩]
    else if oid.raw = [3] then .ok [⟨[120], .regular, ⟨[5]⟩⟩]
    else .error ⟨.offlineMissingObject, "object not found"⟩
  readBlobRaw _ := .ok [120]
  objectSize _ := .ok 1

noncomputable def dxProjection : Projection := xFirstProjection dxStore

theorem dxStore_walk {cs : List Bytes} {bt : Option ObjectId}
    (h : dxStore.walk ⟨[1]⟩ ([100] :: cs) = .ok (some (.dir bt))) :
    cs = [] ∧ bt = some ⟨[2]⟩ ∨ cs = [[120]] ∧ bt = some ⟨[3]⟩ := by
  have hd : dxStore.walk ⟨[1]⟩ ([100] :: cs) =
      if cs = [] then .ok (some (.dir (some ⟨[2]⟩))) else dxStore.walk ⟨[2]⟩ cs := rfl
  rw [hd] at h
  cases cs with
  | nil => simp_all
  | cons c cs =>
    rw [if_neg (by simp)] at h
    by_cases hc : c = [120]
    · subst hc
      have hx : dxStore.walk ⟨[2]⟩ ([120] :: cs) =
          if cs = [] then .ok (some (.dir (some ⟨[3]⟩))) else dxStore.walk ⟨[3]⟩ cs := rfl
      rw [hx] at h
      cases cs with
      | nil => simp_all
      | cons c' cs =>
        rw [if_neg (by simp)] at h
        by_cases hc' : c' = [120]
        · subst hc'
          have hf : dxStore.walk ⟨[3]⟩ ([120] :: cs) =
              .ok (if cs = [] then some (.file (.baseline ⟨[5]⟩) false) else none) := rfl
          rw [hf] at h
          simp_all
        · rw [show dxStore.walk ⟨[3]⟩ (c' :: cs) = .ok none from
            GitStore.walk_notMem rfl (by simpa using Ne.symm hc')] at h
          cases h
    · rw [GitStore.walk_notMem rfl (by simpa using Ne.symm hc)] at h
      cases h

def dxx : RepoPath := ofComponents [[100], [120], [120]] (by decide)

/-- Lookups down to `d/x`, `unlink d/x/x`, `rename d e`. -/
def emptying : List Op :=
  [.lookup 1 [100], .lookup 2 [120], .unlink 3 [120], .rename 1 [100] 1 [101] 0]

noncomputable def emptiedBy (n : Nat) : World :=
  (emptying.take n).foldl (fun w op => ((op.handler dxProjection 9).run w).2)
    (World.fresh 7 none)

theorem emptiedBy_lookup {c : RepoPath} (hne : c ≠ dxx) : (emptiedBy 3).overlay.lookup c = none := by
  have hns : (emptiedBy 3).ns = update (fun _ => none) dxx (some .tombstone) := rfl
  show (emptiedBy 3).ns c = none
  rw [hns, Function.update_of_ne hne]

theorem emptiedBy_resolve {c : RepoPath} {r : Resolved} (hne : c ≠ dxx) (hc : c.Ordinary)
    (h : dxProjection.resolve (emptiedBy 3).overlay c = .ok (some r)) :
    dxStore.walk ⟨[1]⟩ c.components = .ok (some r) := by
  rw [resolve, if_neg (by rw [isRoot_iff]; exact hc.1), if_neg hc.2, emptiedBy_lookup hne] at h
  dsimp only at h
  by_cases ha : (emptiedBy 3).overlay.ancestorTombstoned c = true
  · rw [if_pos ha] at h
    cases h
  · rw [if_neg ha] at h
    exact h

theorem under_letter {b : UInt8} {h : ValidComponent [b]} {q : RepoPath} (hu : Under (letter b h) q) :
    ∃ cs, q.components = [b] :: cs := by
  obtain ⟨cs, hcs⟩ := hu
  exact ⟨cs, by rw [← hcs, letter, components_ofComponents]; rfl⟩

theorem ordinary_of_cons {c : RepoPath} {b : Bytes} {cs : List Bytes} (hb : b ≠ gitfileName)
    (hc : c.components = b :: cs) : c.Ordinary := by
  refine ⟨fun h => ?_, fun h => ?_⟩
  · rw [h, components_root] at hc
    cases hc
  · rw [hc] at h
    exact hb (List.cons.inj h).1

theorem emptiedBy_masks : Masks dxProjection
    (dxProjection.resolve (emptiedBy 3).overlay) (emptiedBy 3).ns (letter 100) := by
  intro c bt hu hc
  obtain ⟨cs, hcs⟩ := under_letter hu
  have hne : c ≠ dxx := by
    intro h
    subst h
    have hn : dxProjection.resolve (emptiedBy 3).overlay dxx = .ok none := by decide +kernel
    rw [hn] at hc
    cases hc
  have hw := emptiedBy_resolve hne (ordinary_of_cons (by decide) hcs) hc
  rw [hcs] at hw
  constructor
  · intro entries hes e he q hq
    rcases dxStore_walk hw with ⟨rfl, rfl⟩ | ⟨rfl, rfl⟩
    · obtain rfl : _ = entries := Except.ok.inj hes
      obtain rfl := List.mem_singleton.mp he
      obtain rfl : q = dx := ext_components (by rw [hq, hcs]; rfl)
      exact .inr ⟨some ⟨[3]⟩, by decide +kernel⟩
    · obtain rfl : _ = entries := Except.ok.inj hes
      obtain rfl := List.mem_singleton.mp he
      obtain rfl : q = dxx := ext_components (by rw [hq, hcs]; rfl)
      exact .inl rfl
  · intro name q oid mode hq he
    by_cases hq' : q = dxx
    · subst hq'
      cases he
    · rw [show (emptiedBy 3).ns q = none from emptiedBy_lookup hq'] at he
      cases he

theorem emptiedBy_vacant : Vacant (dxProjection.resolve (emptiedBy 3).overlay)
    (letter 101) := by
  intro q hu hne
  obtain ⟨cs, hcs⟩ := under_letter hu
  have hd : q ≠ dxx := by
    intro h
    subst h
    exact absurd hu (by decide)
  have hw : dxStore.walk ⟨[1]⟩ q.components = .ok none := by
    rw [hcs]
    exact GitStore.walk_notMem rfl (by decide)
  have ho := ordinary_of_cons (by decide) hcs
  rw [resolve, if_neg (by rw [isRoot_iff]; exact ho.1), if_neg ho.2, emptiedBy_lookup hd]
  dsimp only
  split
  · rfl
  · exact hw

theorem emptiedBy_step {n : Nat} {op : Op} (hop : emptying[n]? = some op)
    (h : ((op.handler dxProjection 9).run (emptiedBy n)).1 ≠ .diverge) :
    dxProjection.Step (emptiedBy n) op (emptiedBy (n + 1)) := by
  refine ⟨9, _, Prod.ext rfl ?_, h⟩
  rw [emptiedBy, emptiedBy, List.take_add_one, hop]
  simp

theorem emptiedBy_run : Trace (KernelStep dxProjection) (World.fresh 7 none)
    emptying (emptiedBy 4) := by
  have hroot : ∀ n, (emptiedBy n).HasDir dxProjection 1 := fun n => ⟨root, _, rfl, rfl⟩
  have hino : (emptiedBy 2).pathOf 3 = .ok dx := by decide +kernel
  refine .cons ⟨trivial, trivial, emptiedBy_step (n := 0) rfl (by decide +kernel)⟩ ?_
  refine .cons ⟨trivial, trivial, emptiedBy_step (n := 1) rfl (by decide +kernel)⟩ ?_
  refine .cons ⟨⟨⟨dx, some ⟨[3]⟩, hino, by decide +kernel⟩, fun path hpath => ?_⟩, trivial,
    emptiedBy_step (n := 2) rfl (by decide +kernel)⟩ ?_
  · obtain rfl := names_eq (p := dxx) hino rfl hpath
    exact ⟨.file (.baseline ⟨[5]⟩) false, by decide +kernel, rfl⟩
  refine .cons ⟨⟨hroot 3, hroot 3, fun src dst hsrc hdst => ?_⟩, fun src dst hsrc hdst _ => ?_,
    emptiedBy_step (n := 3) rfl (by decide +kernel)⟩ (.nil _)
  · obtain rfl := names_beneath_root (p := letter 100) rfl rfl hsrc
    obtain rfl := names_beneath_root (p := letter 101) rfl rfl hdst
    exact ⟨by decide, by decide, .dir (some ⟨[2]⟩), none, by decide +kernel, by decide +kernel, by simp⟩
  · obtain rfl := names_beneath_root (p := letter 100) rfl rfl hsrc
    obtain rfl := names_beneath_root (p := letter 101) rfl rfl hdst
    exact ⟨emptiedBy_masks, emptiedBy_vacant⟩

/-- `unlink d/x/x` and `rename d e` leave nothing for a new `d` to show. -/
theorem mkdir_returns_empty_directory_emptied :
    let P := dxProjection
    let made := (P.mkdir rootIno [100]).run (emptiedBy 4)
    (P.readdir 4).run made.2 = (.ok [], made.2) ∧
      ∃ path, (emptiedBy 4).Names rootIno [100] path ∧ made.2.pathOf 4 = .ok path ∧
        ∀ q, Under path q → q ≠ path → P.resolve made.2.overlay q = .ok none := by
  have hmk : ((dxProjection.mkdir rootIno [100]).run (emptiedBy 4)).1 =
      .ok ⟨4, 1, 0, .dir⟩ := by decide +kernel
  exact mkdir_returns_empty_directory _ 7 none emptiedBy_run ⟨root, _, rfl, rfl⟩ (Prod.ext hmk rfl)

/-- The directory `d` is renamed to `e`, and made anew: the file `f` of the baseline is in it. -/
theorem renamed_directory_shows_through :
    let P := smallProjection
    let w := World.fresh 7 none
    let op : Op := .rename rootIno [100] rootIno [101] 0
    let w₁ := ((op.handler P 1).run w).2
    let made := (P.mkdir rootIno [100]).run w₁
    op.Legal P w ∧ P.Step w op w₁ ∧ (Op.mkdir rootIno [100]).Legal P w₁ ∧
      made.1 = .ok ⟨2, 1, 0, .dir⟩ ∧
      ((P.readdir 2).run made.2).1 = .ok [⟨[102], .file false, 3⟩] := by
  refine ⟨⟨⟨root, _, rfl, rfl⟩, ⟨root, _, rfl, rfl⟩, fun src dst hs hd => ?_⟩,
    ⟨1, .ok .unit, Prod.ext (by decide +kernel) rfl, by simp⟩, ⟨root, _, rfl, rfl⟩,
    by decide +kernel, by decide +kernel⟩
  obtain rfl := names_beneath_root (p := letter 100) rfl rfl hs
  obtain rfl := names_beneath_root (p := letter 101) rfl rfl hd
  refine ⟨by decide, by decide, .dir (some ⟨[2]⟩), none, by decide +kernel, by decide +kernel, by simp⟩

end Projection

end LazyMount
