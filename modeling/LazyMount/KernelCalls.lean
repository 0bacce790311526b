import LazyMount.HandlerSteps
import LazyMount.Lib.Trace

/-! Projection operations as the kernel calls them, and what an invariant of the namespace needs
in order to hold along them. -/

namespace LazyMount

open Function (update)
open RepoPath Prog Handler

namespace World

def ns (w : World) : Namespace := w.overlay.index.entries

def Names (w : World) (parent : Nat) (name : Bytes) (path : RepoPath) : Prop :=
  ∃ dir, w.pathOf parent = .ok dir ∧ Child dir name path

def HasDir (P : Projection) (w : World) (ino : Nat) : Prop :=
  ∃ dir bt, w.pathOf ino = .ok dir ∧ P.resolve w.overlay dir = .ok (some (.dir bt))

end World

theorem names_eq {w : World} {parent : Nat} {name : Bytes} {dir p q : RepoPath}
    (hdir : w.pathOf parent = .ok dir) (hp : Child dir name p) (h : w.Names parent name q) : q = p := by
  obtain ⟨dir', hdir', hq⟩ := h
  obtain rfl : dir = dir' := Except.ok.inj (hdir.symm.trans hdir')
  exact (hq.unique hp).mpr rfl

theorem names_beneath_root {w : World} {name : Bytes} {p q : RepoPath} (hroot : w.pathOf rootIno = .ok root)
    (hp : Child root name p) (h : w.Names rootIno name q) : q = p :=
  names_eq hroot hp h

/-- How the kernel calls: the parent is a visible directory, the target is absent or present as
the operation needs it, and no directory moves into itself or onto one that holds it. -/
def Op.Legal (P : Projection) (w : World) : Op → Prop
  | .create parent name _ | .symlink parent name _ =>
    w.HasDir P parent ∧ ∀ path, w.Names parent name path → P.resolve w.overlay path = .ok none
  | .unlink parent name =>
    w.HasDir P parent ∧ ∀ path, w.Names parent name path →
      ∃ r, P.resolve w.overlay path = .ok (some r) ∧ r.isDir = false
  | .mkdir parent _ => w.HasDir P parent
  | .rmdir parent name =>
    w.HasDir P parent ∧ ∀ path, w.Names parent name path →
      ∃ bt, P.resolve w.overlay path = .ok (some (.dir bt))
  | .rename parent name newparent newname _ =>
    w.HasDir P parent ∧ w.HasDir P newparent ∧ ∀ src dst, w.Names parent name src →
      w.Names newparent newname dst → ¬ Under src dst ∧ ¬ Under dst src ∧
        ∃ r r', P.resolve w.overlay src = .ok (some r) ∧ P.resolve w.overlay dst = .ok r' ∧
          ∀ x, r' = some x → x.isDir = r.isDir
  | _ => True

namespace Projection

variable {P : Projection} {ns : Namespace} {p q src dst : RepoPath} {parent : Nat} {name : Bytes}

/-! Steps that touch the overlay, and steps that do not. -/

theorem ensures_mutate (Φ Ψ : Namespace → Prop) {E : World → Prop} (op : OverlayOp)
    (h : ∀ next ns, Φ ns → Ψ (op.effect next ns)) :
    Ensures (fun w => Φ w.ns) (mutate op) (fun _ w => Ψ w.ns) E := by
  refine ensures_atom (fun w _ hw _ => ?_) fun _ _ _ he => by cases he
  show Ψ (w.overlay.step op).index.entries
  rw [Overlay.step_entries]
  exact h _ _ hw

theorem ensures_createFile (Φ Ψ : Namespace → Prop) {E : World → Prop} (x : Bool)
    (seed : Option Bytes) (h : ∀ next ns, Φ ns → Ψ (update ns p (some (.file next x)))) :
    Ensures (fun w => Φ w.ns) (createFile p x seed) (fun _ w => Ψ w.ns) E := by
  refine ensures_atom (fun w _ hw _ => ?_) fun _ _ _ he => by cases he
  show Ψ (w.overlay.step _).index.entries
  rw [Overlay.step_entries]
  exact h _ _ hw

theorem editContent_index (ov : Overlay) (content : ContentId) (edit : Bytes → Bytes) :
    (ov.editContent content edit).index = ov.index := by
  rw [Overlay.editContent]
  split <;> rfl

theorem ensures_editContent (Φ : Namespace → Prop) {E : World → Prop} (content : ContentId)
    (edit : Bytes → Bytes) :
    Ensures (fun w => Φ w.ns) (editContent content edit) (fun _ w => Φ w.ns) E := by
  refine ensures_atom (fun w _ hw _ => ?_) fun _ _ _ he => by cases he
  show Φ (w.overlay.editContent content edit).index.entries
  rwa [editContent_index]

theorem ns_quiet {l : Action} {upd : World → World} (h : P.Quiet l upd) (w : World) :
    (upd w).ns = w.ns := by
  cases h <;> rfl

theorem ensures_quiet {α : Type} {m : Handler α} (Φ : Namespace → Prop) {E : World → Prop}
    (hm : Within P.Quiet SameTree m) (hE : ∀ w, Φ w.ns → E w) :
    Ensures (fun w => Φ w.ns) m (fun _ w => Φ w.ns) E :=
  hm.ensures (fun _ _ hu w hw => by rwa [ns_quiet hu w]) hE

theorem ensures_childPath {Φ : World → Prop} {E : World → Prop} (hE : ∀ w, Φ w → E w) :
    Ensures Φ (childPath parent name)
      (fun path w => Φ w ∧ w.Names parent name path ∧ path.Ordinary) E := by
  refine ensures_bind (ensures_read (fun w dir hw hd => (⟨hw, hd⟩ : Φ w ∧ w.pathOf parent = .ok dir))
    fun w hw => hE w hw) fun dir => ?_
  refine ensures_bind (ensures_liftExcept (fun path w hj hw => ?_) fun w hw => hE w hw.1)
    (Q := fun path w => Φ w ∧ w.Names parent name path) fun path => ?_
  · exact ⟨hw.1, dir, hw.2, (join_eq_ok.mp hj).2⟩
  · split
    · exact ensures_fail fun w hw => hE w hw.1
    · rename_i hg
      refine ensures_pure fun w hw => ⟨hw.1, hw.2, ?_, hg⟩
      obtain ⟨dir, -, hch⟩ := hw.2
      exact hch.ne_root

theorem ensures_recordChange {w₀ : World} {E : World → Prop} (path : RepoPath) :
    Ensures (SameTree · w₀) (P.recordChange path) (fun _ w => SameTree w w₀) E := by
  have hfile : ∀ path, Ensures (SameTree · w₀) (P.recordChangeFile path) (fun _ w => SameTree w w₀) E :=
    fun _ => ensures_atom (fun _ _ hw _ => hw) fun _ _ _ he => by cases he
  refine ensures_bind (hfile path) fun _ => ?_
  split
  · split
    · exact ensures_pure fun _ hw => hw
    · exact hfile _
  · exact ensures_pure fun _ hw => hw

/-- Up to where `rename` goes on with a directory or with anything else. -/
theorem ensures_rename {w₀ : World} {Q : Unit → World → Prop} {E : World → Prop} {fuel newparent : Nat}
    {newname : Bytes} {flags : UInt32} (hstop : ∀ w, SameTree w w₀ → E w)
    (hdir : ∀ src dst bt, w₀.Names parent name src → w₀.Names newparent newname dst → src.Ordinary →
      dst.Ordinary → P.resolve w₀.overlay src = .ok (some (.dir bt)) →
      Ensures (SameTree · w₀) (P.renameDir fuel src dst) Q E)
    (hfile : ∀ src dst r, w₀.Names parent name src → w₀.Names newparent newname dst → src.Ordinary →
      dst.Ordinary → P.resolve w₀.overlay src = .ok r → (∀ bt, r ≠ some (.dir bt)) →
      Ensures (SameTree · w₀) (P.renameFile src dst) Q E) :
    Ensures (· = w₀) (P.rename fuel parent name newparent newname flags) Q E := by
  have hstart : ∀ w, w = w₀ → E w := fun w hw => hstop w (hw ▸ equivalence_sameTree.refl w)
  refine ensures_bind (ensures_childPath hstart) fun src => ?_
  refine ensures_bind (ensures_weaken (ensures_childPath fun w hw => hstart w hw.1) (fun _ hw => hw)
    fun dst w hw => ?_)
    (Q := fun dst w => ((w₀.Names parent name src ∧ src.Ordinary) ∧
      w₀.Names newparent newname dst ∧ dst.Ordinary) ∧ SameTree w w₀)
    fun dst => ensures_of fun hord => ?_
  · obtain ⟨⟨rfl, hn⟩, hn'⟩ := hw
    exact ⟨⟨hn, hn'⟩, equivalence_sameTree.refl w⟩
  obtain ⟨⟨hn, hsrc⟩, hn', hdst⟩ := hord
  split
  · exact ensures_fail hstop
  refine ensures_bind (Q := fun _ w => SameTree w w₀) ?_ fun occupied => ?_
  · split
    · exact ensures_map (ensures_read (fun _ _ hw _ => hw) hstop)
    · exact ensures_pure fun _ hw => hw
  split
  · exact ensures_fail hstop
  refine ensures_bind (ensures_recordChange src) fun _ => ensures_bind (ensures_recordChange dst) fun _ =>
    ensures_bind (ensures_read (fun w r hw hr => ?_) hstop)
      (Q := fun r w => P.resolve w₀.overlay src = .ok r ∧ SameTree w w₀) fun r => ensures_of fun hr => ?_
  · rw [hw.1] at hr
    exact ⟨hr, hw⟩
  split
  · exact hdir src dst _ hn hn' hsrc hdst hr
  · rename_i hnot
    exact hfile src dst r hn hn' hsrc hdst hr hnot

theorem resolve_entry {ov : Overlay} {e : OverlayEntry} (hp : p.Ordinary)
    (he : ov.lookup p = some e) : P.resolve ov p = P.entryResolved p e := by
  rw [resolve, if_neg (by rw [isRoot_iff]; exact hp.1), if_neg hp.2, he]

theorem resolve_unset {ov : Overlay} (hp : p.Ordinary) (he : ov.lookup p = none) :
    P.resolve ov p = if ov.ancestorTombstoned p then .ok none else P.baselineResolve p := by
  rw [resolve, if_neg (by rw [isRoot_iff]; exact hp.1), if_neg hp.2, he]

theorem leaf_of_resolve {ov : Overlay} {r : Resolved} (hp : p.Ordinary)
    (h : P.resolve ov p = .ok (some r)) (hdir : r.isDir = false) : Leaf (some r) := by
  cases r with
  | dir => cases hdir
  | file | symlink => trivial
  | gitfile =>
    cases he : ov.lookup p with
    | some e =>
      rw [resolve_entry hp he] at h
      rcases entryResolved_dir h with ⟨-, bt, hb, -⟩ | ⟨-, hl⟩
      · cases hb
      · exact hl
    | none =>
      rw [resolve_unset hp he] at h
      split at h
      · cases h
      · exact GitStore.walk_ofTree h

theorem ensures_mkdir (I : Namespace → Prop) (w₀ : World) :
    Ensures (fun w => w = w₀ ∧ I w.ns) (P.mkdir parent name)
      (fun attr w => ∃ path, w₀.Names parent name path ∧ path.Ordinary ∧
        P.resolve w₀.overlay path = .ok none ∧ w.ns = update w₀.ns path (some .dir) ∧
        w.inodes.pathOf attr.ino = some path) fun w => I w.ns := by
  refine ensures_bind (ensures_childPath fun _ hw => hw.2) fun path => ?_
  refine ensures_bind (ensures_read (fun w r hw hr => ?_) fun _ hw => hw.1.2)
    (Q := fun r w => (w₀.Names parent name path ∧ path.Ordinary ∧
      P.resolve w₀.overlay path = .ok r ∧ I w₀.ns) ∧ w.ns = w₀.ns) fun r => ?_
  · obtain ⟨⟨rfl, hi⟩, hn, hp⟩ := hw
    exact ⟨⟨hn, hp, hr, hi⟩, rfl⟩
  refine ensures_of fun h => ?_
  obtain ⟨hn, hp, hr, hi⟩ := h
  cases r with
  | some r => exact ensures_fail fun w hw => by rw [hw]; exact hi
  | none =>
    refine ensures_bind (ensures_quiet (P := P) (· = w₀.ns) (quiet_recordChange path)
      fun w hw => by rw [hw]; exact hi) fun _ => ?_
    refine ensures_bind (ensures_mutate (· = w₀.ns) (· = update w₀.ns path (some .dir)) (.putDir path)
      fun next ns hns => by rw [hns]; rfl) fun _ => ?_
    refine ensures_bind (ensures_atom (fun w i hw hi => ?_) fun _ _ _ he => by cases he)
      (Q := fun i w => w.ns = update w₀.ns path (some .dir) ∧ w.inodes.pathOf i.1 = some path)
      fun i => ensures_pure fun w hw => ⟨path, hn, hp, hr, hw⟩
    obtain rfl := Except.ok.inj hi
    exact ⟨hw, w.inodes.pathOf_lookup path⟩

theorem ensures_lookupEntry (I : Namespace → Prop) (path : RepoPath) :
    Ensures (fun w => I w.ns) (lookupEntry path) (fun o w => I w.ns ∧ w.ns path = o)
      fun w => I w.ns :=
  ensures_read (fun _ _ hw ho => ⟨hw, Except.ok.inj ho⟩) fun _ hw => hw

/-! The rules for an invariant of the namespace. -/

/-- `I` holds along the operations that `L` admits: `Spot p` says that an entry that is no
directory may come and go at `p`. -/
structure Keeps (P : Projection) (I : Namespace → Prop) (Spot : RepoPath → Namespace → Prop)
    (L : World → Op → Prop) : Prop where
  legal : ∀ w op, L w op → op.Legal P w
  inv : ∀ p ns, Spot p ns → I ns
  set : ∀ p ns v, Spot p ns → v ≠ some .dir → I (update ns p v)
  after : ∀ src dst ns e, Spot src ns → Spot dst ns → ¬ Under src dst → ¬ Under dst src →
    e ≠ .dir → Spot src (update ns dst (some e))
  entry : ∀ p ns c x, I ns → ns p = some (.file c x) → Spot p ns
  file : ∀ (w : World) p source x, I w.ns → P.resolve w.overlay p = .ok (some (.file source x)) → Spot p w.ns
  leaf : ∀ (w : World) parent name p r, I w.ns → w.HasDir P parent → w.Names parent name p → p.Ordinary →
    P.resolve w.overlay p = .ok r → Leaf r → Spot p w.ns
  empty : ∀ (w : World) parent name p, I w.ns → w.HasDir P parent → w.Names parent name p → p.Ordinary →
    P.dirIsEmpty w.overlay p = .ok true → Spot p w.ns
  mkdir : ∀ (w : World) parent name p, I w.ns → L w (.mkdir parent name) → w.Names parent name p → p.Ordinary →
    P.resolve w.overlay p = .ok none → I (update w.ns p (some .dir))
  renameDir : ∀ (w : World) parent name newparent newname flags src dst bt fuel, I w.ns →
    L w (.rename parent name newparent newname flags) → w.Names parent name src →
    w.Names newparent newname dst → src.Ordinary → dst.Ordinary →
    P.resolve w.overlay src = .ok (some (.dir bt)) →
    Ensures (fun v => v.ns = w.ns) (P.renameDir fuel src dst) (fun _ v => I v.ns) fun v => I v.ns

namespace Keeps

variable {I : Namespace → Prop} {Spot : RepoPath → Namespace → Prop} {L : World → Op → Prop}
  (K : P.Keeps I Spot L)

include K

theorem removeName (path : RepoPath) (onBaseline : Bool) :
    Ensures (fun w => Spot path w.ns) (P.removeName path onBaseline) (fun _ w => I w.ns)
      fun w => I w.ns := by
  refine ensures_bind (ensures_quiet (Spot path) (quiet_recordChange (P := P) path)
    fun w hw => K.inv path w.ns hw) fun _ => ?_
  refine ensures_bind (ensures_mutate (Spot path) I _ fun next ns hs => ?_) fun _ =>
    ensures_quiet I (quiet_inodeUnlink (P := P) path) fun _ h => h
  cases onBaseline with
  | true => exact K.set path ns (some .tombstone) hs (by simp)
  | false => exact K.set path ns none hs (by simp)

theorem create (x : Bool) : Ensures (fun w => I w.ns ∧ L w (.create parent name x))
    (P.create parent name x) (fun _ w => I w.ns) fun w => I w.ns := by
  refine ensures_bind (ensures_weaken (ensures_childPath fun _ hw => hw.1) (fun _ hw => hw)
    fun path w hw => (?_ : Spot path w.ns)) fun path => ?_
  · obtain ⟨⟨hi, hl⟩, hn, hp⟩ := hw
    obtain ⟨hd, hnone⟩ := K.legal w _ hl
    exact K.leaf w parent name path none hi hd hn hp (hnone path hn) trivial
  refine ensures_bind (ensures_quiet (Spot path) (quiet_recordChange (P := P) path)
    fun w => K.inv path w.ns) fun _ => ?_
  refine ensures_bind (ensures_createFile (Spot path) I x none
    fun next ns hs => K.set path ns _ hs (by simp)) fun _ => ?_
  exact ensures_quiet I (within_bind (quiet_inodeLookup (P := P) path) fun _ => within_pure _)
    fun _ h => h

theorem symlink (target : Bytes) : Ensures (fun w => I w.ns ∧ L w (.symlink parent name target))
    (P.symlink parent name target) (fun _ w => I w.ns) fun w => I w.ns := by
  refine ensures_bind (ensures_weaken (ensures_childPath fun _ hw => hw.1) (fun _ hw => hw)
    fun path w hw => (?_ : Spot path w.ns)) fun path => ?_
  · obtain ⟨⟨hi, hl⟩, hn, hp⟩ := hw
    obtain ⟨hd, hnone⟩ := K.legal w _ hl
    exact K.leaf w parent name path none hi hd hn hp (hnone path hn) trivial
  refine ensures_bind (ensures_quiet (Spot path) (quiet_recordChange (P := P) path)
    fun w => K.inv path w.ns) fun _ => ?_
  refine ensures_bind (ensures_mutate (Spot path) I (.putSymlink path target)
    fun next ns hs => K.set path ns _ hs (by simp)) fun _ => ?_
  exact ensures_quiet I (within_bind (quiet_inodeLookup (P := P) path) fun _ => within_pure _)
    fun _ h => h

theorem mkdir_handler : Ensures (fun w => I w.ns ∧ L w (.mkdir parent name)) (P.mkdir parent name)
    (fun _ w => I w.ns) fun w => I w.ns := by
  refine ensures_from fun w hw => ensures_weaken (ensures_mkdir I w) (fun v hv => ?_) fun _ v hv => ?_
  · subst hv
    exact ⟨rfl, hw.1⟩
  · obtain ⟨path, hn, hp, hr, hns, -⟩ := hv
    rw [hns]
    exact K.mkdir w parent name path hw.1 hw.2 hn hp hr

theorem resolveFile (path : RepoPath) {Φ : World → Prop} :
    Ensures (fun w => I w.ns ∧ Φ w) (P.resolveStep path)
      (fun r w => I w.ns ∧ ∀ source x, r = some (.file source x) → Spot path w.ns) fun w => I w.ns := by
  refine ensures_read (fun w r hw hr => ⟨hw.1, fun source x heq => ?_⟩) fun _ hw => hw.1
  subst heq
  exact K.file w path source x hw.1 hr

theorem copyUp (path : RepoPath) (x : Bool) {m : Handler (Option Bytes)}
    (hm : Within P.Quiet SameTree m) :
    Ensures (fun w => Spot path w.ns) (m >>= fun seed => createFile path x seed) (fun _ w => I w.ns)
      fun w => I w.ns :=
  ensures_bind (ensures_quiet (Spot path) hm fun w => K.inv path w.ns) fun seed =>
    ensures_createFile (Spot path) I x seed fun next ns hs => K.set path ns _ hs (by simp)

theorem openWrite (ino : Nat) (trunc : Bool) : Ensures (fun w => I w.ns) (P.openWrite ino trunc)
    (fun _ w => I w.ns) fun w => I w.ns := by
  refine ensures_bind (ensures_quiet I (quiet_pathOf (P := P) ino) fun _ h => h) fun path =>
    ensures_bind (ensures_quiet I (quiet_recordChangeFile (P := P) path) fun _ h => h) fun _ =>
    ensures_bind (ensures_lookupEntry I path) fun o => ?_
  split
  · refine ensures_bind (ensures_weaken (ensures_quiet I (quiet_openContent (P := P) path)
      fun _ h => h) (fun _ hw => hw.1) fun _ _ h => h) fun c => ?_
    refine ensures_bind ?_ fun _ => ensures_pure fun _ h => h
    cases trunc with
    | true => exact ensures_editContent I c _
    | false => exact ensures_pure fun _ h => h
  · refine ensures_bind (K.resolveFile path) fun r => ?_
    split
    · refine ensures_weaken (K.copyUp path _ ?_) (fun w hw => hw.2 _ _ rfl) fun _ _ h => h
      split
      · exact within_pure _
      · exact within_map _ (quiet_materialize _)
    · exact ensures_fail fun _ hw => hw.1

theorem truncate (ino size : Nat) : Ensures (fun w => I w.ns) (P.truncate ino size)
    (fun _ w => I w.ns) fun w => I w.ns := by
  refine ensures_bind (ensures_quiet I (quiet_pathOf (P := P) ino) fun _ h => h) fun path =>
    ensures_bind (ensures_lookupEntry I path) fun o => ?_
  split
  · refine ensures_bind (ensures_weaken (ensures_quiet I (quiet_recordChangeFile (P := P) path)
      fun _ h => h) (fun _ hw => hw.1) fun _ _ h => h) fun _ => ?_
    exact ensures_bind (ensures_quiet I (quiet_openContent (P := P) path) fun _ h => h)
      fun c => ensures_editContent I c _
  · refine ensures_bind (K.resolveFile path) fun r => ?_
    split
    · rename_i oid x
      refine ensures_bind (ensures_weaken (ensures_quiet (Spot path)
        (quiet_recordChangeFile (P := P) path) fun w => K.inv path w.ns) (fun w hw => hw.2 _ _ rfl)
        fun _ _ h => h) fun _ => ?_
      refine ensures_bind (ensures_quiet (P := P) (Spot path) ?_ fun w => K.inv path w.ns) fun seed =>
        ensures_bind (ensures_createFile (Spot path) I x seed
          fun next ns hs => K.set path ns _ hs (by simp)) fun c => ensures_editContent I c _
      split
      · exact within_pure _
      · exact within_map _ (quiet_materialize _)
    · exact ensures_fail fun _ hw => hw.1

theorem setExecutableBit (path : RepoPath) (x : Bool) {c : ContentId} {y : Bool} :
    Ensures (fun w => I w.ns ∧ w.ns path = some (.file c y)) (setExecutableBit path x)
      (fun _ w => I w.ns) fun w => I w.ns := by
  have hset : ∀ w : World, I w.ns → w.ns path = some (.file c y) →
      I (World.ns { w with overlay := w.overlay.step (.setExecutable path x) }) := by
    intro w hi he
    have hs := K.entry path w.ns c y hi he
    show I (w.overlay.step _).index.entries
    rw [Overlay.step_entries]
    simp only [OverlayOp.effect, show w.overlay.index.entries path = _ from he]
    exact K.set path w.ns _ hs (by simp)
  exact ensures_atom (fun w _ hw _ => hset w hw.1 hw.2) fun w _ hw _ => hset w hw.1 hw.2

theorem setExecutable (ino : Nat) (x : Bool) : Ensures (fun w => I w.ns) (P.setExecutable ino x)
    (fun _ w => I w.ns) fun w => I w.ns := by
  refine ensures_bind (ensures_quiet I (quiet_pathOf (P := P) ino) fun _ h => h) fun path =>
    ensures_bind (ensures_quiet I (quiet_recordChangeFile (P := P) path) fun _ h => h) fun _ =>
    ensures_bind (ensures_lookupEntry I path) fun o => ?_
  split
  · exact K.setExecutableBit path x
  · refine ensures_bind (K.resolveFile path) fun r => ?_
    split
    · rename_i oid y
      have hmaterialize : Ensures (fun w => Spot path w.ns) (P.materialize oid)
          (fun _ w => Spot path w.ns) fun w => I w.ns :=
        ensures_quiet (Spot path) (quiet_materialize (P := P) oid) fun w => K.inv path w.ns
      refine ensures_bind (ensures_weaken hmaterialize (fun w hw => hw.2 _ _ rfl) fun _ _ h => h) fun seed =>
        ensures_bind (ensures_createFile (Spot path) I x (some seed)
          fun next ns hs => K.set path ns _ hs (by simp)) fun _ => ensures_pure fun _ h => h
    · exact ensures_fail fun _ hw => hw.1

theorem unlink : Ensures (fun w => I w.ns ∧ L w (.unlink parent name)) (P.unlink parent name)
    (fun _ w => I w.ns) fun w => I w.ns := by
  refine ensures_bind (ensures_weaken (ensures_childPath fun _ hw => hw.1) (fun _ hw => hw)
    fun path w hw => (?_ : Spot path w.ns)) fun path => ?_
  · obtain ⟨⟨hi, hl⟩, hn, hp⟩ := hw
    obtain ⟨hd, hleaf⟩ := K.legal w _ hl
    obtain ⟨r, hr, hdir⟩ := hleaf path hn
    exact K.leaf w parent name path (some r) hi hd hn hp hr (leaf_of_resolve hp hr hdir)
  refine ensures_bind (ensures_quiet (Spot path) (quiet_baselineResolveStep (P := P) path)
    fun w => K.inv path w.ns) fun b => ?_
  split
  · exact K.removeName path true
  · refine ensures_bind (ensures_quiet (Spot path) (quiet_lookupEntry (P := P) path)
      fun w => K.inv path w.ns) fun o => ?_
    cases o with
    | none => exact ensures_fail fun w => K.inv path w.ns
    | some => exact K.removeName path false

theorem rmdir : Ensures (fun w => I w.ns ∧ L w (.rmdir parent name)) (P.rmdir parent name)
    (fun _ w => I w.ns) fun w => I w.ns := by
  refine ensures_bind (ensures_childPath fun _ hw => hw.1) fun path => ?_
  refine ensures_bind (ensures_read (fun w b hw hb => ?_) fun _ hw => hw.1.1)
    (Q := fun b w => I w.ns ∧ (b = true → Spot path w.ns)) fun b => ?_
  · obtain ⟨⟨hi, hl⟩, hn, hp⟩ := hw
    refine ⟨hi, fun h => ?_⟩
    subst h
    exact K.empty w parent name path hi (K.legal w _ hl).1 hn hp hb
  cases b with
  | false => exact ensures_fail fun _ hw => hw.1
  | true =>
    refine ensures_bind (ensures_read (fun w bt hw _ => hw.2 rfl) fun _ hw => hw.1)
      (Q := fun _ w => Spot path w.ns) fun bt => ?_
    split
    · exact K.removeName path true
    · refine ensures_bind (ensures_quiet (Spot path) (quiet_lookupEntry (P := P) path)
        fun w => K.inv path w.ns) fun o => ?_
      cases o with
      | none => exact ensures_fail fun w => K.inv path w.ns
      | some => exact K.removeName path false

/-- What a rename of a file or a symlink starts from. -/
def Apart (Spot : RepoPath → Namespace → Prop) (src dst : RepoPath) (ns : Namespace) : Prop :=
  Spot src ns ∧ Spot dst ns ∧ ¬ Under src dst ∧ ¬ Under dst src

def Landed (Spot : RepoPath → Namespace → Prop) (src dst : RepoPath) (e : OverlayEntry)
    (ns : Namespace) : Prop :=
  ∃ ns₀, Apart Spot src dst ns₀ ∧ ns = update ns₀ dst (some e)

def Rekeyed (Spot : RepoPath → Namespace → Prop) (src dst : RepoPath) (e : OverlayEntry)
    (ns : Namespace) : Prop :=
  ∃ ns₀, Apart Spot src dst ns₀ ∧ ns = update (update ns₀ dst (some e)) src none

theorem landed {e : OverlayEntry} {v : Option OverlayEntry} (h : Apart Spot src dst ns)
    (he : e ≠ .dir) (hv : v ≠ some .dir) : I (update (update ns dst (some e)) src v) :=
  K.set src _ v (K.after src dst ns e h.1 h.2.1 h.2.2.1 h.2.2.2 he) hv

theorem putBaseRef (oid : ObjectId) (mode : GitMode) (hsrc : src ≠ root) :
    Ensures (fun w => Apart Spot src dst w.ns) (do
      mutate (.putBaseRef dst oid mode)
      mutate (.tombstone src)
      inodeRename src dst) (fun _ w => I w.ns) fun w => I w.ns := by
  refine ensures_bind (ensures_mutate (Apart Spot src dst)
    (Landed Spot src dst (.baseRef oid mode)) (.putBaseRef dst oid mode) fun next ns h => ⟨ns, h, rfl⟩) fun _ => ?_
  refine ensures_bind (ensures_mutate (Landed Spot src dst (.baseRef oid mode)) I (.tombstone src)
    fun next ns h => ?_) fun _ => ensures_quiet I (quiet_inodeRename (P := P) hsrc dst) fun _ h => h
  obtain ⟨ns₀, h, rfl⟩ := h
  exact K.landed h (by simp) (by simp)

theorem renameFile (hsrc : src ≠ root) :
    Ensures (fun w => Apart Spot src dst w.ns ∧ w.ns src ≠ some .dir) (P.renameFile src dst)
      (fun _ w => I w.ns) fun w => I w.ns := by
  have hinv : ∀ ns, Apart Spot src dst ns → I ns := fun ns h => K.inv src ns h.1
  refine ensures_bind (ensures_read (fun w o hw ho => ?_) fun w hw => hinv w.ns hw.1)
    (Q := fun o w => o ≠ some .dir ∧ Apart Spot src dst w.ns ∧ w.ns src = o) fun o =>
      ensures_of fun ho => ?_
  · obtain rfl := Except.ok.inj ho
    exact ⟨hw.2, hw.1, rfl⟩
  cases o with
  | some e =>
    have he : e ≠ .dir := fun h => ho (by rw [h])
    refine ensures_bind (ensures_mutate (fun ns => Apart Spot src dst ns ∧ ns src = some e)
      (Rekeyed Spot src dst e) (.rename src dst)
      fun next ns h => ⟨ns, h.1, by simp [OverlayOp.effect, h.2]⟩) fun _ => ?_
    refine ensures_bind (ensures_quiet (Rekeyed Spot src dst e) (quiet_baselineResolveStep (P := P) src)
      fun w hw => ?_) fun b => ?_
    · obtain ⟨ns₀, h, hns⟩ := hw
      rw [hns]
      exact K.landed h he (by simp)
    refine ensures_bind (Q := fun _ w => I w.ns) ?_ fun _ =>
      ensures_quiet I (quiet_inodeRename (P := P) hsrc dst) fun _ h => h
    cases b.isSome with
    | false =>
      refine ensures_pure fun w hw => ?_
      obtain ⟨ns₀, h, hns⟩ := hw
      rw [hns]
      exact K.landed h he (by simp)
    | true =>
      refine ensures_mutate (Rekeyed Spot src dst e) I (.tombstone src) fun next ns h => ?_
      obtain ⟨ns₀, h, rfl⟩ := h
      simp only [OverlayOp.effect, Function.update_idem]
      exact K.landed h he (by simp)
  | none =>
    refine ensures_bind (ensures_weaken (ensures_quiet (Apart Spot src dst)
      (quiet_baselineResolveStep (P := P) src) fun w => hinv w.ns) (fun w hw => hw.1)
      fun _ _ h => h) fun b => ?_
    split
    · exact K.putBaseRef _ _ hsrc
    · exact K.putBaseRef _ _ hsrc
    · exact ensures_fail fun w => hinv w.ns

theorem apart {w : World} {newparent : Nat} {newname : Bytes} {flags : UInt32} {r : Resolved}
    (hi : I w.ns) (hl : L w (.rename parent name newparent newname flags))
    (hn : w.Names parent name src) (hn' : w.Names newparent newname dst) (hsrc : src.Ordinary)
    (hdst : dst.Ordinary) (hr : P.resolve w.overlay src = .ok (some r)) (hdir : r.isDir = false) :
    Apart Spot src dst w.ns ∧ w.ns src ≠ some .dir := by
  obtain ⟨hd, hd', hall⟩ := K.legal w _ hl
  obtain ⟨hsd, hds, x, y, hx, hy, hkind⟩ := hall src dst hn hn'
  obtain rfl : x = r := Option.some.inj (Except.ok.inj (hx.symm.trans hr))
  have hleaf : Leaf y := by
    cases y with
    | none => trivial
    | some y => exact leaf_of_resolve hdst hy ((hkind y rfl).trans hdir)
  refine ⟨⟨K.leaf w parent name src _ hi hd hn hsrc hr (leaf_of_resolve hsrc hr hdir),
    K.leaf w newparent newname dst y hi hd' hn' hdst hy hleaf, hsd, hds⟩, fun he => ?_⟩
  rw [resolve_entry hsrc he] at hr
  obtain ⟨bt, hbt, -⟩ := dir_of_entryResolved hr
  cases hbt
  cases hdir

theorem rename (fuel newparent : Nat) (newname : Bytes) (flags : UInt32) :
    Ensures (fun w => I w.ns ∧ L w (.rename parent name newparent newname flags))
      (P.rename fuel parent name newparent newname flags) (fun _ w => I w.ns) fun w => I w.ns := by
  refine ensures_from fun w₀ hw₀ => ?_
  obtain ⟨hi, hl⟩ := hw₀
  refine ensures_rename (fun w hw => ?_) (fun src dst bt hn hn' hsrc hdst hr => ?_)
    fun src dst r hn hn' hsrc hdst hr hdir => ?_
  · rw [World.ns, hw.1]
    exact hi
  · refine ensures_weaken (K.renameDir w₀ parent name newparent newname flags src dst bt fuel hi hl
      hn hn' hsrc hdst hr) (fun w hw => ?_) fun _ _ h => h
    rw [World.ns, hw.1]
    rfl
  · obtain ⟨-, -, hall⟩ := K.legal w₀ _ hl
    obtain ⟨-, -, x, -, hx, -⟩ := hall src dst hn hn'
    obtain rfl : r = some x := Except.ok.inj (hr.symm.trans hx)
    refine ensures_weaken (K.renameFile hsrc.1) (fun w hw => ?_) fun _ _ h => h
    rw [World.ns, hw.1]
    exact K.apart hi hl hn hn' hsrc hdst hx (Resolved.isDir_eq_false fun bt heq => hdir bt (congrArg some heq))

/-- The invariant holds along every operation that is admitted. -/
theorem op (op : Op) (fuel : Nat) : Ensures (fun w => I w.ns ∧ L w op) (op.handler P fuel)
    (fun _ w => I w.ns) fun w => I w.ns := by
  have quiet : ∀ {α : Type} {m : Handler α} {op : Op}, Within P.Quiet SameTree m →
      Ensures (fun w => I w.ns ∧ L w op) m (fun _ w => I w.ns) fun w => I w.ns := fun hm =>
    ensures_weaken (ensures_quiet I hm fun _ h => h) (fun _ hw => hw.1) fun _ _ h => h
  have any : ∀ {α : Type} {m : Handler α} {op : Op}, Ensures (fun w => I w.ns) m (fun _ w => I w.ns)
      (fun w => I w.ns) → Ensures (fun w => I w.ns ∧ L w op) m (fun _ w => I w.ns) fun w => I w.ns :=
    fun h => ensures_weaken h (fun _ hw => hw.1) fun _ _ h => h
  cases op with
  | lookup parent name => exact ensures_map (quiet (quiet_lookup parent name))
  | getattr ino => exact ensures_map (quiet (quiet_getattr ino))
  | readdir ino => exact ensures_map (quiet (quiet_readdir ino))
  | forget ino n => exact ensures_map (quiet (quiet_inodeForget ino n))
  | create parent name x => exact ensures_map (K.create x)
  | openWrite ino trunc => exact ensures_map (any (K.openWrite ino trunc))
  | truncate ino size => exact ensures_map (any (K.truncate ino size))
  | unlink parent name => exact ensures_map K.unlink
  | mkdir parent name => exact ensures_map K.mkdir_handler
  | rmdir parent name => exact ensures_map K.rmdir
  | symlink parent name target => exact ensures_map (K.symlink target)
  | rename parent name newparent newname flags =>
    exact ensures_map (K.rename fuel newparent newname flags)
  | setExecutable ino x => exact ensures_map (any (K.setExecutable ino x))

theorem step {w w' : World} {op : Op} (hi : I w.ns) (hl : L w op) (h : P.Step w op w') : I w'.ns := by
  obtain ⟨fuel, r, hr, hne⟩ := h
  have hh := K.op op fuel w ⟨hi, hl⟩
  rw [hr] at hh
  cases r with
  | ok | error => exact hh
  | diverge => exact (hne rfl).elim

end Keeps

end Projection

end LazyMount
