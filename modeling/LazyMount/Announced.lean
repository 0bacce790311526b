import LazyMount.HandlerSteps
import LazyMount.Lib.Annotated
import LazyMount.Recording

/-! Handlers record before they change: each change is at or beneath a path that the handler has
recorded, or goes to a content file that it opened under such a path. -/

namespace LazyMount

open RepoPath Prog Handler

/-- What has been recorded, and which content files were opened or created under it. -/
structure Notes where
  recorded : List RepoPath
  owned : List ContentId

namespace Notes

def empty : Notes := ⟨[], []⟩

def record (g : Notes) (p : RepoPath) : Notes := { g with recorded := p :: g.recorded }

def own (g : Notes) (c : ContentId) : Notes := { g with owned := c :: g.owned }

/-- A replay of the journal drops the empty record of the root. -/
def Covers (g : Notes) (p : RepoPath) : Prop := ∃ r ∈ g.recorded, r ≠ root ∧ Under r p

def Extends (g g' : Notes) : Prop := g.recorded ⊆ g'.recorded ∧ g.owned ⊆ g'.owned

variable {g g' g'' : Notes} {p q : RepoPath}

theorem Extends.refl (g : Notes) : g.Extends g := ⟨List.Subset.refl _, List.Subset.refl _⟩

theorem Extends.trans (h : g.Extends g') (h' : g'.Extends g'') : g.Extends g'' :=
  ⟨List.Subset.trans h.1 h'.1, List.Subset.trans h.2 h'.2⟩

theorem extends_record (g : Notes) (p : RepoPath) : g.Extends (g.record p) :=
  ⟨List.subset_cons_self _ _, List.Subset.refl _⟩

theorem extends_own (g : Notes) (c : ContentId) : g.Extends (g.own c) :=
  ⟨List.Subset.refl _, List.subset_cons_self _ _⟩

theorem Covers.extends (h : g.Covers p) (he : g.Extends g') : g'.Covers p := by
  obtain ⟨r, hr, hne, hu⟩ := h
  exact ⟨r, he.1 hr, hne, hu⟩

theorem Covers.under (h : g.Covers p) (hu : Under p q) : g.Covers q := by
  obtain ⟨r, hr, hne, hp⟩ := h
  exact ⟨r, hr, hne, hp.trans hu⟩

theorem covers_record (g : Notes) (h : p ≠ root) : (g.record p).Covers p :=
  ⟨p, List.mem_cons_self, h, .refl p⟩

theorem Covers.ne_root (h : g.Covers p) : p ≠ root := by
  obtain ⟨r, -, hne, hu⟩ := h
  intro heq
  subst heq
  exact hne (eq_root_of_under hu)

end Notes

/-- The paths whose entries an operation may change. -/
def OverlayOp.touched : OverlayOp → List RepoPath
  | .createFile p _ _ | .putSymlink p _ | .putDir p | .putBaseRef p _ _ | .tombstone p | .clear p
  | .setExecutable p _ => [p]
  | .rename src dst => [src, dst]

theorem OverlayOp.effect_of_notMem {op : OverlayOp} {p : RepoPath} (h : p ∉ op.touched)
    (next : ContentId) (ns : Namespace) : op.effect next ns p = ns p := by
  cases op with
  | createFile | putSymlink | putDir | putBaseRef | tombstone | clear =>
    exact Function.update_of_ne (by simpa [touched] using h) _ _
  | rename src dst =>
    simp only [touched, List.mem_cons, List.not_mem_nil, or_false, not_or] at h
    cases he : ns src with
    | none => simp only [effect, he]
    | some e => simp only [effect, he, Function.update_of_ne h.1, Function.update_of_ne h.2]
  | setExecutable q x =>
    have hne : p ≠ q := by simpa [touched] using h
    cases he : ns q with
    | none => simp only [effect, he]
    | some e => cases e <;> simp only [effect, he, Function.update_of_ne hne]

def World.Unrooted (w : World) : Prop := w.overlay.lookup root = none

namespace Projection

variable (P : Projection)

/-- The steps that a handler with these notes may take. -/
inductive Rule (g : Notes) : Action → (World → World) → (World → Notes) → Prop
  | quiet {l : Action} {upd : World → World} (h : P.Quiet l upd) : Rule g l upd fun _ => g
  | record (path : RepoPath) : Rule g (.record path)
      (fun w => { w with journal := w.journal.map fun j => LazyMount.record P.limits j.1 j.2 path.bytes })
      fun _ => g.record path
  | mutate (op : OverlayOp) (h : ∀ p ∈ op.touched, g.Covers p) :
    Rule g .mutate (fun w => { w with overlay := w.overlay.step op }) fun _ => g
  | createFile (path : RepoPath) (x : Bool) (seed : Option Bytes) (h : g.Covers path) :
    Rule g .mutate (fun w => { w with overlay := w.overlay.step (.createFile path x seed) })
      fun w => g.own w.overlay.newContentId
  | openContent (path : RepoPath) (h : g.Covers path) :
    Rule g .read id fun w => (w.overlay.openContent path).toOption.elim g g.own
  | edit (content : ContentId) (f : Bytes → Bytes) (h : content ∈ g.owned) :
    Rule g .mutate (fun w => { w with overlay := w.overlay.editContent content f }) fun _ => g

/-- The handler keeps to the rule, whatever other handlers do in between. -/
abbrev Announces {α : Type} (T : Notes → α → Prop) (g : Notes) (m : Handler α) : Prop :=
  Annotated World.Unrooted P.Rule T g m

variable {P} {g g' : Notes} {α : Type} {l : Action} {upd : World → World} {next : World → Notes}

theorem Rule.extends (h : P.Rule g l upd next) (w : World) : g.Extends (next w) := by
  cases h with
  | quiet | mutate | edit => exact .refl g
  | record path => exact g.extends_record path
  | createFile => exact g.extends_own _
  | openContent path =>
    show g.Extends ((w.overlay.openContent path).toOption.elim g g.own)
    cases w.overlay.openContent path with
    | ok c => exact g.extends_own c
    | error => exact .refl g

theorem Rule.appended (h : P.Rule g l upd next) (w : World) :
    World.Appended P.limits w (upd w) l.recorded := by
  cases h with
  | quiet h =>
    cases h with
    | read | fetch | inode => exact World.appended_of_eq rfl
    | record path => exact World.appended_record w path
  | record path => exact World.appended_record w path
  | mutate | createFile | openContent => exact World.appended_of_eq rfl
  | edit => exact World.appended_of_eq rfl

theorem unrooted_step {w : World} {op : OverlayOp} (hw : w.Unrooted)
    (h : ∀ p ∈ op.touched, g.Covers p) : World.Unrooted { w with overlay := w.overlay.step op } := by
  show (w.overlay.step op).index.entries root = none
  rw [Overlay.step_entries, OverlayOp.effect_of_notMem fun hr => (h root hr).ne_root rfl]
  exact hw

theorem Rule.unrooted (h : P.Rule g l upd next) {w : World} (hw : w.Unrooted) : (upd w).Unrooted := by
  cases h with
  | quiet h => cases h <;> exact hw
  | record | openContent => exact hw
  | mutate op h => exact unrooted_step hw h
  | createFile path x seed h => exact unrooted_step (g := g) hw (by simpa [OverlayOp.touched] using h)
  | edit c f =>
    show (w.overlay.editContent c f).lookup root = none
    rw [Overlay.editContent]
    split <;> exact hw

/-! The steps. -/

theorem announces_quiet {m : Handler α} (h : Within P.Quiet SameTree m) :
    P.Announces (fun g' _ => g' = g) g m :=
  (h.annotated (returns_true m) fun _ _ => .quiet).mono fun _ _ h => h.1

theorem announces_childPath (parent : Nat) (name : Bytes) :
    P.Announces (fun g' path => g' = g ∧ path.Ordinary) g (childPath parent name) :=
  (quiet_childPath parent name).annotated (returns_childPath parent name) fun _ _ => .quiet

theorem announces_lookupEntry (path : RepoPath) :
    P.Announces (fun g' o => g' = g ∧ (path = root → o = none)) g (lookupEntry path) := by
  refine annotated_atom (.quiet .read) fun w o hw ho => ⟨rfl, ?_⟩
  intro heq
  subst heq
  exact (Except.ok.inj ho).symm.trans hw

theorem announces_resolveStep (path : RepoPath) :
    P.Announces (fun g' r => g' = g ∧ (path = root → ∃ t, r = some (.dir t))) g (P.resolveStep path) := by
  refine annotated_atom (.quiet .read) fun w r hw hr => ⟨rfl, ?_⟩
  intro heq
  subst heq
  exact ⟨_, (Except.ok.inj hr).symm⟩

theorem announces_recordChangeFile (path : RepoPath) :
    P.Announces (fun g' _ => g' = g.record path) g (P.recordChangeFile path) :=
  annotated_atom (.record path) fun _ _ _ _ => rfl

theorem announces_recordChange {path : RepoPath} (hp : path ≠ root) :
    P.Announces (fun g' _ => g.Extends g' ∧ g'.Covers path) g (P.recordChange path) := by
  refine annotated_bind (announces_recordChangeFile path) fun g₁ _ h₁ => ?_
  subst h₁
  have hdone : g.Extends (g.record path) ∧ (g.record path).Covers path :=
    ⟨g.extends_record path, g.covers_record hp⟩
  split
  · split
    · exact annotated_pure hdone
    · refine (announces_recordChangeFile _).mono fun g₂ _ h₂ => ?_
      subst h₂
      have he := (g.record path).extends_record
      exact ⟨hdone.1.trans (he _), hdone.2.extends (he _)⟩
  · exact annotated_pure hdone

theorem announces_mutate {op : OverlayOp} (h : ∀ p ∈ op.touched, g.Covers p) :
    P.Announces (fun g' _ => g' = g) g (mutate op) := annotated_atom (.mutate op h) fun _ _ _ _ => rfl

theorem announces_createFile {path : RepoPath} (h : g.Covers path) (x : Bool) (seed : Option Bytes) :
    P.Announces (fun g' c => c ∈ g'.owned) g (createFile path x seed) := by
  refine annotated_atom (.createFile path x seed h) fun w c _ hc => ?_
  rw [← Except.ok.inj hc]
  exact List.mem_cons_self

theorem announces_openContent {path : RepoPath} (h : g.Covers path) :
    P.Announces (fun g' c => c ∈ g'.owned) g (openContent path) := by
  refine annotated_atom (.openContent path h) fun w c _ hc => ?_
  simp [hc, Except.toOption, Notes.own]

theorem announces_setExecutableBit {path : RepoPath} (h : g.Covers path) (x : Bool) :
    P.Announces (fun g' _ => g' = g) g (setExecutableBit path x) :=
  annotated_atom (.mutate (.setExecutable path x) (by simpa [OverlayOp.touched] using h))
    fun _ _ _ _ => rfl

theorem announces_editContent {content : ContentId} (h : content ∈ g.owned) (f : Bytes → Bytes) :
    P.Announces (fun g' _ => g' = g) g (editContent content f) :=
  annotated_atom (.edit content f h) fun _ _ _ _ => rfl

/-! The handlers. -/

theorem announces_create (parent : Nat) (name : Bytes) (x : Bool) :
    P.Announces (fun g' r => r.2 ∈ g'.owned) g (P.create parent name x) := by
  refine annotated_bind (announces_childPath parent name) fun g₁ path h₁ => ?_
  refine annotated_bind (announces_recordChange h₁.2.1) fun g₂ _ h₂ => ?_
  refine annotated_bind (announces_createFile h₂.2 x none) fun g₃ c h₃ => ?_
  refine annotated_bind (announces_quiet (quiet_inodeLookup path)) fun g₄ r h₄ => ?_
  exact annotated_pure (h₄ ▸ h₃)

theorem announces_openWrite (ino : Nat) (trunc : Bool) :
    P.Announces (fun g' c => c ∈ g'.owned) g (P.openWrite ino trunc) := by
  refine annotated_bind (announces_quiet (quiet_pathOf ino)) fun g₁ path h₁ => ?_
  refine annotated_bind (announces_recordChangeFile path) fun g₂ _ h₂ => ?_
  subst h₂
  refine annotated_bind (announces_lookupEntry path) fun g₃ o ⟨h₃, ho⟩ => ?_
  subst h₃
  split
  · have hp : path ≠ root := fun h => by simp at ho; exact ho h
    refine annotated_bind (announces_openContent (g₁.covers_record hp)) fun g₄ c h₄ => ?_
    refine annotated_bind (annotated_whenever (announces_editContent h₄ _) rfl) fun g₅ _ h₅ => ?_
    exact annotated_pure (h₅ ▸ h₄)
  · refine annotated_bind (announces_resolveStep path) fun g₄ r ⟨h₄, hr⟩ => ?_
    subst h₄
    split
    · have hp : path ≠ root := fun h => by simp at hr; exact hr h
      refine annotated_bind (T := fun g' _ => g' = g₁.record path) ?_ fun g₅ seed h₅ => ?_
      · split
        · exact annotated_pure rfl
        · exact annotated_map _ (announces_quiet (quiet_materialize _)) fun _ _ h => h
      · exact announces_createFile (h₅ ▸ g₁.covers_record hp) _ seed
    · exact annotated_fail _

theorem announces_truncate (ino size : Nat) :
    P.Announces (fun _ _ => True) g (P.truncate ino size) := by
  refine annotated_bind (announces_quiet (quiet_pathOf ino)) fun g₁ path h₁ => ?_
  refine annotated_bind (announces_lookupEntry path) fun g₂ o ⟨h₂, ho⟩ => ?_
  split
  · have hp : path ≠ root := fun h => by simp at ho; exact ho h
    refine annotated_bind (announces_recordChangeFile path) fun g₃ _ h₃ => ?_
    refine annotated_bind (announces_openContent (h₃ ▸ g₂.covers_record hp)) fun g₄ c h₄ => ?_
    exact (announces_editContent h₄ _).mono fun _ _ _ => trivial
  · refine annotated_bind (announces_resolveStep path) fun g₃ r ⟨h₃, hr⟩ => ?_
    split
    · have hp : path ≠ root := fun h => by simp at hr; exact hr h
      refine annotated_bind (announces_recordChangeFile path) fun g₄ _ h₄ => ?_
      refine annotated_bind (T := fun g' _ => g' = g₄) ?_ fun g₅ seed h₅ => ?_
      · split
        · exact annotated_pure rfl
        · exact annotated_map _ (announces_quiet (quiet_materialize _)) fun _ _ h => h
      · have hc : g₅.Covers path := by
          rw [h₅, h₄]
          exact g₃.covers_record hp
        refine annotated_bind (announces_createFile hc _ seed) fun g₆ c h₆ => ?_
        exact (announces_editContent h₆ _).mono fun _ _ _ => trivial
    · exact annotated_fail _

theorem announces_removeName {path : RepoPath} (hp : path ≠ root) (onBaseline : Bool) :
    P.Announces (fun _ _ => True) g (P.removeName path onBaseline) := by
  refine annotated_bind (announces_recordChange hp) fun g₁ _ h₁ => ?_
  refine annotated_bind (announces_mutate fun p hq => ?_) fun g₂ _ _ => ?_
  · cases onBaseline <;> simp only [Bool.false_eq_true, if_false, if_true, OverlayOp.touched,
      List.mem_singleton] at hq <;> exact hq ▸ h₁.2
  · exact (announces_quiet (quiet_inodeUnlink path)).mono fun _ _ _ => trivial

theorem announces_unlink (parent : Nat) (name : Bytes) :
    P.Announces (fun _ _ => True) g (P.unlink parent name) := by
  refine annotated_bind (announces_childPath parent name) fun g₁ path h₁ => ?_
  refine annotated_bind (announces_quiet (quiet_baselineResolveStep path)) fun g₂ r _ => ?_
  split
  · exact announces_removeName h₁.2.1 true
  · refine annotated_bind (announces_lookupEntry path) fun g₃ o _ => ?_
    cases o with
    | none => exact annotated_fail _
    | some => exact announces_removeName h₁.2.1 false

theorem announces_mkdir (parent : Nat) (name : Bytes) :
    P.Announces (fun _ _ => True) g (P.mkdir parent name) := by
  refine annotated_bind (announces_childPath parent name) fun g₁ path h₁ => ?_
  refine annotated_bind (announces_resolveStep path) fun g₂ r _ => ?_
  cases r with
  | some => exact annotated_fail _
  | none =>
    refine annotated_bind (announces_recordChange h₁.2.1) fun g₃ _ h₃ => ?_
    refine annotated_bind (announces_mutate (by simpa [OverlayOp.touched] using h₃.2)) fun g₄ _ _ => ?_
    exact annotated_bind (announces_quiet (quiet_inodeLookup path)) fun _ _ _ => annotated_pure trivial

theorem announces_rmdir (parent : Nat) (name : Bytes) :
    P.Announces (fun _ _ => True) g (P.rmdir parent name) := by
  refine annotated_bind (announces_childPath parent name) fun g₁ path h₁ => ?_
  refine annotated_bind (announces_quiet (quiet_read fun w v h => by rw [h.1])) fun g₂ b _ => ?_
  split
  · refine annotated_bind (announces_quiet (quiet_read fun _ _ _ => rfl)) fun g₃ t _ => ?_
    split
    · exact announces_removeName h₁.2.1 true
    · refine annotated_bind (announces_lookupEntry path) fun g₄ o _ => ?_
      cases o with
      | none => exact annotated_fail _
      | some => exact announces_removeName h₁.2.1 false
  · exact annotated_fail _

theorem announces_symlink (parent : Nat) (name target : Bytes) :
    P.Announces (fun _ _ => True) g (P.symlink parent name target) := by
  refine annotated_bind (announces_childPath parent name) fun g₁ path h₁ => ?_
  refine annotated_bind (announces_recordChange h₁.2.1) fun g₂ _ h₂ => ?_
  refine annotated_bind (announces_mutate (by simpa [OverlayOp.touched] using h₂.2)) fun g₃ _ _ => ?_
  exact annotated_bind (announces_quiet (quiet_inodeLookup path)) fun _ _ _ => annotated_pure trivial

theorem touched_moveChild {cs cd p : RepoPath} {r : Resolved} {op : OverlayOp}
    (h : moveChild cs cd r = some op) (hp : p ∈ op.touched) : p = cs ∨ p = cd := by
  cases r with
  | dir | gitfile => cases h
  | file source x =>
    cases source <;> cases h <;> simp [OverlayOp.touched] at hp <;> tauto
  | symlink source =>
    cases source <;> cases h <;> simp [OverlayOp.touched] at hp <;> tauto

theorem announces_renameDir (fuel : Nat) {src dst : RepoPath} (hsrc : g.Covers src)
    (hdst : g.Covers dst) : P.Announces (fun g' _ => g' = g) g (P.renameDir fuel src dst) := by
  induction fuel generalizing src dst with
  | zero => exact annotated_diverge
  | succ fuel ih =>
    refine annotated_bind (announces_mutate (by simpa [OverlayOp.touched] using hdst))
      fun g₁ _ h₁ => ?_
    subst h₁
    refine annotated_bind (announces_quiet (quiet_read fun w v h => by rw [h.1])) fun g₂ kids h₂ => ?_
    subst h₂
    refine annotated_bind (annotated_each fun kid => ?_) fun g₃ _ h₃ => ?_
    · refine annotated_bind (T := fun g' cs => g' = g₂ ∧ join src kid.1 = .ok cs)
        (annotated_liftExcept fun cs hcs => ⟨rfl, hcs⟩) fun g₃ cs ⟨h₃, hcs⟩ => ?_
      subst h₃
      refine annotated_bind (T := fun g' cd => g' = g₃ ∧ join dst kid.1 = .ok cd)
        (annotated_liftExcept fun cd hcd => ⟨rfl, hcd⟩) fun g₄ cd ⟨h₄, hcd⟩ => ?_
      subst h₄
      have hs : g₄.Covers cs := hsrc.under (under_child (join_eq_ok.mp hcs).2)
      have hd : g₄.Covers cd := hdst.under (under_child (join_eq_ok.mp hcd).2)
      split
      · exact ih hs hd
      · split
        · rename_i op hop
          refine annotated_bind (announces_mutate fun p hp => ?_) fun g₅ _ h₅ => ?_
          · rcases touched_moveChild hop hp with rfl | rfl
            · exact hs
            · exact hd
          · subst h₅
            exact announces_quiet (quiet_inodeRename hs.ne_root cd)
        · exact annotated_pure rfl
    · subst h₃
      refine annotated_bind (announces_mutate (by simpa [OverlayOp.touched] using hsrc))
        fun g₄ _ h₄ => ?_
      subst h₄
      exact announces_quiet (quiet_inodeRename hsrc.ne_root dst)

theorem announces_renameFile {src dst : RepoPath} (hsrc : g.Covers src) (hdst : g.Covers dst) :
    P.Announces (fun g' _ => g' = g) g (P.renameFile src dst) := by
  have htomb : ∀ p ∈ (OverlayOp.tombstone src).touched, g.Covers p := by
    simpa [OverlayOp.touched] using hsrc
  have hend : P.Announces (fun g' _ => g' = g) g (inodeRename src dst) :=
    announces_quiet (quiet_inodeRename hsrc.ne_root dst)
  refine annotated_bind (announces_lookupEntry src) fun g₁ o ⟨h₁, _⟩ => ?_
  subst h₁
  cases o with
  | some =>
    refine annotated_bind (announces_mutate (by simpa [OverlayOp.touched] using ⟨hsrc, hdst⟩))
      fun g₂ _ h₂ => ?_
    subst h₂
    refine annotated_bind (announces_quiet (quiet_baselineResolveStep src)) fun g₃ r h₃ => ?_
    subst h₃
    refine annotated_bind (annotated_whenever (announces_mutate htomb) rfl) fun g₄ _ h₄ => ?_
    subst h₄
    exact hend
  | none =>
    refine annotated_bind (announces_quiet (quiet_baselineResolveStep src)) fun g₂ r h₂ => ?_
    subst h₂
    split
    · refine annotated_bind (announces_mutate (by simpa [OverlayOp.touched] using hdst))
        fun g₃ _ h₃ => ?_
      subst h₃
      refine annotated_bind (announces_mutate htomb) fun g₄ _ h₄ => ?_
      subst h₄
      exact hend
    · refine annotated_bind (announces_mutate (by simpa [OverlayOp.touched] using hdst))
        fun g₃ _ h₃ => ?_
      subst h₃
      refine annotated_bind (announces_mutate htomb) fun g₄ _ h₄ => ?_
      subst h₄
      exact hend
    · exact annotated_fail _

theorem announces_rename (fuel parent : Nat) (name : Bytes) (newparent : Nat) (newname : Bytes)
    (flags : UInt32) :
    P.Announces (fun _ _ => True) g (P.rename fuel parent name newparent newname flags) := by
  refine annotated_bind (announces_childPath parent name) fun g₁ src h₁ => ?_
  refine annotated_bind (announces_childPath newparent newname) fun g₂ dst h₂ => ?_
  split
  · exact annotated_fail _
  · refine annotated_bind (T := fun _ _ => True) ?_ fun g₃ occupied _ => ?_
    · split
      · exact annotated_map _ (announces_quiet (quiet_resolveStep dst)) fun _ _ _ => trivial
      · exact annotated_pure trivial
    · split
      · exact annotated_fail _
      · refine annotated_bind (announces_recordChange h₁.2.1) fun g₄ _ h₄ => ?_
        refine annotated_bind (announces_recordChange h₂.2.1) fun g₅ _ h₅ => ?_
        refine annotated_bind (announces_resolveStep src) fun g₆ r ⟨h₆, _⟩ => ?_
        subst h₆
        have hsrc := h₄.2.extends h₅.1
        split
        · exact (announces_renameDir fuel hsrc h₅.2).mono fun _ _ _ => trivial
        · exact (announces_renameFile hsrc h₅.2).mono fun _ _ _ => trivial

theorem announces_setExecutable (ino : Nat) (x : Bool) :
    P.Announces (fun _ _ => True) g (P.setExecutable ino x) := by
  refine annotated_bind (announces_quiet (quiet_pathOf ino)) fun g₁ path h₁ => ?_
  refine annotated_bind (announces_recordChangeFile path) fun g₂ _ h₂ => ?_
  subst h₂
  refine annotated_bind (announces_lookupEntry path) fun g₃ o ⟨h₃, ho⟩ => ?_
  subst h₃
  split
  · have hp : path ≠ root := fun h => by simp at ho; exact ho h
    exact (announces_setExecutableBit (g₁.covers_record hp) x).mono fun _ _ _ => trivial
  · refine annotated_bind (announces_resolveStep path) fun g₄ r ⟨h₄, hr⟩ => ?_
    subst h₄
    split
    · have hp : path ≠ root := fun h => by simp at hr; exact hr h
      refine annotated_bind (announces_quiet (quiet_materialize _)) fun g₅ seed h₅ => ?_
      subst h₅
      refine annotated_bind (announces_createFile (g₁.covers_record hp) x (some seed)) fun _ _ _ => ?_
      exact annotated_pure trivial
    · exact annotated_fail _

end Projection

/-- A descriptor that is handed out is of a file opened under a record. -/
def Reply.Owned (g : Notes) : Reply → Prop
  | .opened _ content => content ∈ g.owned
  | _ => True

theorem Op.announces (P : Projection) (fuel : Nat) (op : Op) (g : Notes) :
    P.Announces (fun g' r => r.Owned g') g (op.handler P fuel) := by
  cases op with
  | lookup parent name =>
    exact annotated_map _ (Projection.announces_quiet (Projection.quiet_lookup parent name)) fun _ _ _ => trivial
  | getattr ino =>
    exact annotated_map _ (Projection.announces_quiet (Projection.quiet_getattr ino)) fun _ _ _ => trivial
  | readdir ino =>
    exact annotated_map _ (Projection.announces_quiet (Projection.quiet_readdir ino)) fun _ _ _ => trivial
  | forget ino n =>
    exact annotated_map _ (Projection.announces_quiet (Projection.quiet_inodeForget ino n)) fun _ _ _ => trivial
  | create parent name x => exact annotated_map _ (Projection.announces_create parent name x) fun _ _ h => h
  | openWrite ino trunc => exact annotated_map _ (Projection.announces_openWrite ino trunc) fun _ _ h => h
  | truncate ino size => exact annotated_map _ (Projection.announces_truncate ino size) fun _ _ _ => trivial
  | unlink parent name => exact annotated_map _ (Projection.announces_unlink parent name) fun _ _ _ => trivial
  | mkdir parent name => exact annotated_map _ (Projection.announces_mkdir parent name) fun _ _ _ => trivial
  | rmdir parent name => exact annotated_map _ (Projection.announces_rmdir parent name) fun _ _ _ => trivial
  | symlink parent name target =>
    exact annotated_map _ (Projection.announces_symlink parent name target) fun _ _ _ => trivial
  | rename parent name newparent newname flags =>
    exact annotated_map _ (Projection.announces_rename fuel parent name newparent newname flags)
      fun _ _ _ => trivial
  | setExecutable ino x =>
    exact annotated_map _ (Projection.announces_setExecutable ino x) fun _ _ _ => trivial

end LazyMount
