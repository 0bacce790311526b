import LazyMount.Lib.Trace
import LazyMount.Uncovered

/-! The FUSE mount: callbacks, each one atomic step, and the table of open handles. -/

namespace LazyMount

open Prog Handler Transition

/-- What a read handle reads from: bytes in memory, a content file of the overlay, or the cache
file of a blob. -/
inductive ContentHandle where
  | bytes (bytes : Bytes)
  | overlay (content : ContentId)
  | cache (oid : ObjectId)
deriving DecidableEq

inductive FileHandle where
  | read (ino : Nat) (content : ContentHandle)
  | write (ino : Nat) (file : ContentId)
deriving DecidableEq

namespace Projection

variable (P : Projection)

/-- `Projection::open_content`, for a read handle. -/
def openRead (ino : Nat) : Handler ContentHandle := do
  let path ← pathOf ino
  match ← P.resolveStep path with
  | none => .fail (internal s!"inode {ino} vanished")
  | some .gitfile => pure (.bytes P.gitfile)
  | some (.file (.overlay q) _) => .overlay <$> Handler.openContent q
  | some (.file (.baseline oid) _) => do
    let _ ← P.materialize oid
    pure (.cache oid)
  | some (.symlink _) => .fail (internal "open_content on a symlink; use readlink")
  | some (.dir _) => .fail (internal "is a directory")

def readlink (ino : Nat) : Handler Bytes := do
  let path ← pathOf ino
  match ← P.resolveStep path with
  | none => .fail (internal s!"inode {ino} vanished")
  | some (.symlink (.overlay target)) => pure target
  | some (.symlink (.baseline oid)) => .read .read fun _ => P.store.readBlobRaw oid
  | some _ => .fail (internal "not a symlink")

/-- What there is to read behind the handle; none if its content file is gone. -/
def contentOf (ov : Overlay) : ContentHandle → Option Bytes
  | .bytes bytes => some bytes
  | .overlay content => ov.disk.content content
  | .cache oid => (P.store.readBlobRaw oid).toOption

/-- `ContentHandle::read_at` -/
def readAt (ov : Overlay) (offset len : Nat) (h : ContentHandle) : Option Bytes :=
  (P.contentOf ov h).map fun bytes => (bytes.drop offset).take len

def setSize (ino : Nat) : Option Nat → Handler Unit
  | some len => P.truncate ino len
  | none => pure ()

def setMode (ino : Nat) : Option UInt32 → Handler Unit
  | some m => P.setExecutable ino (m &&& 0o111 ≠ 0)
  | none => pure ()

def setattr (ino : Nat) (mode : Option UInt32) (size : Option Nat) : Handler Attr := do
  P.setSize ino size
  P.setMode ino mode
  P.getattr ino

end Projection

/-- `libc::O_ACCMODE` and `libc::O_TRUNC`; `libc::O_RDONLY` is 0. -/
def oAccmode : UInt32 := 3

def oTrunc : UInt32 := 0o1000

/-- The callbacks; `call` stands for those that only hand the projection's answer on. -/
inductive Callback where
  | call (op : Op)
  | openFile (ino : Nat) (flags : UInt32)
  | create (parent : Nat) (name : Bytes) (mode : UInt32)
  | setattr (ino : Nat) (mode : Option UInt32) (size : Option Nat)
  | write (fh : Nat) (offset : Int) (data : Bytes)
  | release (fh : Nat)
deriving DecidableEq

structure TransparentFs where
  world : World
  handles : Nat → Option FileHandle
  nextFh : Nat

namespace TransparentFs

def start (w : World) : TransparentFs := ⟨w, fun _ => none, 1⟩

def insertHandle (s : TransparentFs) (h : FileHandle) : TransparentFs :=
  { s with handles := Function.update s.handles s.nextFh (some h), nextFh := s.nextFh + 1 }

/-- The state that a handler leaves, with a handle for what it returns; none if it does not. -/
def after {α : Type} (s : TransparentFs) (m : Handler α) (handle : α → Option FileHandle) :
    Option TransparentFs :=
  match m.run s.world with
  | (.ok a, w) =>
    match handle a with
    | some h => some ({ s with world := w }.insertHandle h)
    | none => some { s with world := w }
  | (.error _, w) => some { s with world := w }
  | (.diverge, _) => none

def step (P : Projection) (fuel : Nat) (s : TransparentFs) : Callback → Option TransparentFs
  | .call op => s.after (op.handler P fuel) fun _ => none
  | .openFile ino flags =>
    if flags &&& oAccmode ≠ 0 then
      s.after (P.openWrite ino (flags &&& oTrunc ≠ 0)) fun file => some (.write ino file)
    else s.after (P.openRead ino) fun content => some (.read ino content)
  | .create parent name mode =>
    s.after (P.create parent name (mode &&& 0o111 ≠ 0)) fun r => some (.write r.1.ino r.2)
  | .setattr ino mode size => s.after (P.setattr ino mode size) fun _ => none
  | .write fh offset data =>
    match s.handles fh with
    | some (.write _ file) =>
      some { s with world.overlay :=
        s.world.overlay.editContent file (writeAt offset.toNat data) }
    | _ => some s
  | .release fh => some { s with handles := Function.update s.handles fh none }

def Step (P : Projection) (s : TransparentFs) (c : Callback) (t : TransparentFs) : Prop :=
  ∃ fuel, s.step P fuel c = some t

end TransparentFs

/-! What has been kept since a hook query: all that no record covers. -/

namespace World

/-- The journal follows its history, the root has no overlay entry, and the content files are
in order. -/
structure Sound (L : Limits) (w : World) : Prop where
  unrooted : w.Unrooted
  tidy : w.overlay.Tidy
  journaled : w.Journaled L

theorem sound_fresh (L : Limits) (pid : Nat) : (journaledFresh pid).Sound L :=
  ⟨rfl, Overlay.tidy_fresh pid, journaled_fresh pid⟩

/-- Since `w₁` the records of `g` were appended, and nothing changed at a path that none of them
covers; the content files of `g` are in use at covered paths only. -/
structure Since (L : Limits) (w₁ : World) (g : Notes) (w : World) : Prop where
  sound : w.Sound L
  appended : ∃ ps, Appended L w₁ w ps ∧ ∀ r ∈ g.recorded, r.bytes ∈ ps
  entry : ∀ p, ¬ g.Covers p → w.overlay.lookup p = w₁.overlay.lookup p
  content : ∀ p c x, ¬ g.Covers p → w.overlay.lookup p = some (.file c x) →
    w.overlay.disk.content c = w₁.overlay.disk.content c
  owned : ∀ c ∈ g.owned, ∀ p x, w.overlay.lookup p = some (.file c x) → g.Covers p

variable {P : Projection} {L : Limits} {w₁ w : World} {g : Notes}

theorem since_self (hw : w.Sound L) : Since L w .empty w :=
  ⟨hw, ⟨[], appended_of_eq rfl, by simp [Notes.empty]⟩, fun _ _ => rfl, fun _ _ _ _ _ => rfl,
    by simp [Notes.empty]⟩

theorem Since.spares (h : Since L w₁ g w) : Spares w₁ g w :=
  ⟨h.sound.unrooted, h.sound.tidy.distinct, h.entry, h.content, h.owned⟩

theorem since_rule {l : Action} {upd : World → World} {next : World → Notes}
    (hr : P.Rule g l upd next) (h : Since P.limits w₁ g w) :
    Since P.limits w₁ (next w) (upd w) := by
  have ha := hr.appended w
  have hs := spares_rule hr h.spares
  obtain ⟨qs, hqs, hrec⟩ := h.appended
  refine ⟨⟨hs.unrooted, hr.tidy h.sound.tidy, h.sound.journaled.appended ha⟩, ⟨_, hqs.trans ha, fun r hr' => ?_⟩,
    hs.entry, hs.content, hs.owned⟩
  rcases hr.recorded w hr' with hold | rfl
  · exact List.mem_append_left _ (hrec r hold)
  · exact List.mem_append_right _ (List.mem_singleton_self _)

theorem Since.edit {c : ContentId} (h : Since L w₁ g w) (hc : c ∈ g.owned) (f : Bytes → Bytes) :
    Since L w₁ g { w with overlay := w.overlay.editContent c f } := by
  have hs := h.spares.edit hc f
  exact ⟨⟨hs.unrooted, Overlay.tidy_editContent h.sound.tidy c f,
    h.sound.journaled.appended (appended_of_eq rfl)⟩, h.appended, hs.entry,
    hs.content, hs.owned⟩

theorem Since.visible (h : Since L w₁ g w) {p : RepoPath} (hp : ¬ g.Covers p) :
    P.visible w.overlay p = P.visible w₁.overlay p := h.spares.visible hp

end World

namespace Projection

variable {P : Projection} {g : Notes}

theorem quiet_openRead (ino : Nat) : Within P.Quiet SameTree (P.openRead ino) := by
  refine within_bind (quiet_pathOf ino) fun path => within_bind (quiet_resolveStep path) fun r => ?_
  split
  · exact within_fail _
  · exact within_pure _
  · exact within_map _ (quiet_openContent _)
  · exact within_bind (quiet_materialize _) fun _ => within_pure _
  · exact within_fail _
  · exact within_fail _

theorem announces_setattr (ino : Nat) (mode : Option UInt32) (size : Option Nat) :
    P.Announces (fun _ _ => True) g (P.setattr ino mode size) := by
  have hsize : P.Announces (fun _ _ => True) g (P.setSize ino size) := by
    cases size with
    | none => exact annotated_pure trivial
    | some len => exact announces_truncate ino len
  refine annotated_bind hsize fun g₁ _ _ => ?_
  have hmode : P.Announces (fun _ _ => True) g₁ (P.setMode ino mode) := by
    cases mode with
    | none => exact annotated_pure trivial
    | some m => exact announces_setExecutable ino _
  refine annotated_bind hmode fun g₂ _ _ => ?_
  exact (announces_quiet (quiet_getattr ino)).mono fun _ _ _ => trivial

end Projection

namespace TransparentFs

variable {P : Projection} {w₁ : World} {s t u : TransparentFs} {g : Notes}

/-- The assertion about the world, and that a handle which was not open at `s` writes to a
content file that was opened under a record. -/
def Kept (P : Projection) (s : TransparentFs) (g : Notes) (t : TransparentFs) : Prop :=
  World.Since P.limits s.world g t.world ∧ ∀ fh ino c, t.handles fh = some (.write ino c) →
    s.handles fh = some (.write ino c) ∨ c ∈ g.owned

theorem Kept.after {α : Type} {m : Handler α} {handle : α → Option FileHandle}
    {T : Notes → α → Prop} (h : Kept P s g t) (hm : P.Announces T g m)
    (hT : ∀ g' a ino c, T g' a → handle a = some (.write ino c) → c ∈ g'.owned)
    (ht : t.after m handle = some u) : ∃ g', Kept P s g' u := by
  obtain ⟨g', ⟨hsince, hext⟩, hres⟩ := hm.run
    (A := fun g' w => World.Since P.limits s.world g' w ∧ g.Extends g')
    (fun _ _ hA => hA.1.sound.unrooted)
    (fun _ _ _ _ w hr hA => ⟨World.since_rule hr hA.1, hA.2.trans (hr.extends w)⟩)
    ⟨h.1, .refl g⟩
  have hold : ∀ fh ino c, t.handles fh = some (.write ino c) →
      s.handles fh = some (.write ino c) ∨ c ∈ g'.owned := fun fh ino c hfh =>
    (h.2 fh ino c hfh).imp_right fun hc => hext.2 hc
  rw [TransparentFs.after] at ht
  split at ht
  · rename_i a w hrun
    rw [hrun] at hsince hres
    split at ht
    · rename_i fhandle hh
      cases ht
      refine ⟨g', hsince, fun fh ino c hfh => ?_⟩
      by_cases hf : fh = t.nextFh
      · subst hf
        simp only [insertHandle, Function.update_self] at hfh
        exact .inr (hT g' a ino c (hres a rfl) (hh.trans hfh))
      · simp only [insertHandle, Function.update_of_ne hf] at hfh
        exact hold fh ino c hfh
    · cases ht
      exact ⟨g', hsince, hold⟩
  · rename_i e w hrun
    cases ht
    rw [hrun] at hsince
    exact ⟨g', hsince, hold⟩
  · cases ht

/-- A callback that is no write through a handle that was open at `s` keeps the assertion. -/
theorem Kept.step {c : Callback} {fuel : Nat} (h : Kept P s g t)
    (hw : ∀ fh offset data, c = .write fh offset data → ∀ ino file,
      s.handles fh ≠ some (.write ino file))
    (hc : t.step P fuel c = some u) : ∃ g', Kept P s g' u := by
  cases c <;> simp only [TransparentFs.step] at hc
  case call op => exact h.after (op.announces P fuel g) (by simp) hc
  case openFile ino flags =>
    split at hc
    · refine h.after (Projection.announces_openWrite ino _) (fun g' a i c ha hh => ?_) hc
      cases hh
      exact ha
    · exact h.after (Projection.announces_quiet (Projection.quiet_openRead ino)) (by simp) hc
  case create parent name mode =>
    refine h.after (Projection.announces_create parent name _) (fun g' a i c ha hh => ?_) hc
    cases hh
    exact ha
  case setattr ino mode size => exact h.after (Projection.announces_setattr ino mode size) (by simp) hc
  case write fh offset data =>
    split at hc
    · rename_i ino file hfh
      cases hc
      have hown : file ∈ g.owned :=
        (h.2 fh ino file hfh).resolve_left (hw fh offset data rfl ino file)
      exact ⟨g, h.1.edit hown _, h.2⟩
    · cases hc
      exact ⟨g, h⟩
  case release fh =>
    cases hc
    refine ⟨g, h.1, fun fh' ino c hfh => ?_⟩
    by_cases hf : fh' = fh
    · subst hf
      simp at hfh
    · simp only [Function.update_of_ne hf] at hfh
      exact h.2 fh' ino c hfh

theorem Kept.run {cs : List Callback} (h : Kept P s g t) (hrun : Trace (Step P) t cs u)
    (hw : ∀ fh offset data, .write fh offset data ∈ cs → ∀ ino file,
      s.handles fh ≠ some (.write ino file)) : ∃ g', Kept P s g' u := by
  induction hrun generalizing g with
  | nil => exact ⟨g, h⟩
  | cons head _ ih =>
    obtain ⟨fuel, hc⟩ := head
    obtain ⟨g', h'⟩ := h.step (fun fh offset data he => hw fh offset data (he ▸ List.mem_cons_self)) hc
    exact ih h' fun fh offset data he => hw fh offset data (List.mem_cons_of_mem _ he)

theorem kept_self (h : s.world.Sound P.limits) : Kept P s .empty s :=
  ⟨World.since_self h, fun _ _ _ hfh => .inl hfh⟩

/-- If no write between two hook queries goes through a handle that was open at the first one,
then the second, given the token of the first, reports for each path that shows something else
the path itself or a directory above it. -/
theorem hook_reports_changes (P : Projection) {w : World} (hsound : w.Sound P.limits)
    {cs₁ cs₂ : List Callback} (h₁ : Trace (Step P) (start w) cs₁ s) (h₂ : Trace (Step P) s cs₂ t)
    (hwrites : ∀ fh offset data, .write fh offset data ∈ cs₂ → ∀ ino file,
      s.handles fh ≠ some (.write ino file))
    (hash : UInt64) (prev : Bytes) {p : RepoPath}
    (hdiff : P.visible t.world.overlay p ≠ P.visible s.world.overlay p) :
    ∃ q, RepoPath.Under q p ∧
      (t.world.hookQuery hash (s.world.hookQuery hash prev).token.encode).Reports q.bytes := by
  obtain ⟨g₁, hs⟩ := (kept_self (s := start w) hsound).run h₁ (by simp [start])
  obtain ⟨g₂, ht⟩ := (kept_self hs.1.sound).run h₂ hwrites
  have hcover : g₂.Covers p := by
    by_contra hp
    exact hdiff (ht.1.visible hp)
  obtain ⟨r, hr, hne, hu⟩ := hcover
  obtain ⟨ps, happ, hrec⟩ := ht.1.appended
  exact ⟨r, hu, happ.reports hs.1.sound.journaled (hrec r hr) (RepoPath.bytes_ne_nil hne) hash prev⟩

noncomputable def behind (cs : List Callback) : TransparentFs :=
  cs.foldl (fun s c => (s.step smallProjection 0 c).getD s) (start (World.journaledFresh 7))

def createAndWrite : List Callback := [.create 1 [101] 0o644, .write 1 0 [121]]

theorem hook_reports_changes_createAndWrite :
    ∃ q, RepoPath.Under q (letter 101) ∧
      ((behind createAndWrite).world.hookQuery 0
        ((World.journaledFresh 7).hookQuery 0 []).token.encode).Reports q.bytes :=
  hook_reports_changes smallProjection (World.sound_fresh _ 7) (.nil _)
    (show Trace (Step smallProjection) (start (World.journaledFresh 7)) createAndWrite
      (behind createAndWrite) from .cons ⟨0, rfl⟩ (.cons ⟨0, rfl⟩ (.nil _)))
    (by simp [start]) 0 [] (by decide +kernel)

def openForWriting : List Callback := [.call (.lookup 1 [97]), .openFile 2 2]

/-- What is written through the handle behind the first query is never reported. -/
theorem write_through_open_handle :
    let s := behind openForWriting
    let t := behind (openForWriting ++ [.write 1 0 [121]])
    Trace (Step smallProjection) (start (World.journaledFresh 7)) openForWriting s ∧
      Trace (Step smallProjection) s [.write 1 0 [121]] t ∧
      smallProjection.visible s.world.overlay (letter 97) = .ok (some (.file false [120])) ∧
      smallProjection.visible t.world.overlay (letter 97) = .ok (some (.file false [121])) ∧
      ∀ q : RepoPath,
        ¬ (t.world.hookQuery 0 (s.world.hookQuery 0 []).token.encode).Reports q.bytes := by
  refine ⟨.cons ⟨0, rfl⟩ (.cons ⟨0, rfl⟩ (.nil _)), .cons ⟨0, rfl⟩ (.nil _), by decide +kernel,
    by decide +kernel, fun q => ?_⟩
  have hquery : (behind (openForWriting ++ [.write 1 0 [121]])).world.hookQuery 0
      ((behind openForWriting).world.hookQuery 0 []).token.encode =
        .changes ⟨workspaceId 0, 1, 1, 0⟩ [] := by decide +kernel
  rw [hquery]
  exact List.not_mem_nil

end TransparentFs

end LazyMount
