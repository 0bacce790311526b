import LazyMount.OverlayContent
import LazyMount.OverlayInvariant

/-! Which operations release the content they cover up. A content file that no entry refers to is
never looked at again, and nothing removes it. -/

namespace LazyMount

open Function (update)

/-- Every content file belongs to an entry. -/
def Overlay.Unleaked (ov : Overlay) : Prop :=
  ∀ c, ov.disk.content c ≠ none → ∃ p x, ov.lookup p = some (.file c x)

/-- The path whose entry an operation replaces without a look at its content. -/
def OverlayOp.replaces (ns : Namespace) : OverlayOp → Option RepoPath
  | .createFile p _ _ | .putSymlink p _ | .putDir p | .putBaseRef p _ _ => some p
  | .rename src dst => if (ns src).isSome then some dst else none
  | .tombstone _ | .clear _ | .setExecutable _ _ => none

/-- The operation puts an entry over the one of a file. -/
def OverlayOp.CoversFile (op : OverlayOp) (ns : Namespace) : Prop :=
  ∃ p c x, op.replaces ns = some p ∧ ns p = some (.file c x)

/-- What `drop_content` leaves of the content directory. -/
def dropped (ns : Namespace) (files : ContentId → Option Bytes) (p : RepoPath) :
    ContentId → Option Bytes :=
  match ns p with
  | some (.file c _) => update files c none
  | _ => files

/-- What an operation makes of the content directory. -/
def OverlayOp.files (next : ContentId) (ns : Namespace) (files : ContentId → Option Bytes) :
    OverlayOp → ContentId → Option Bytes
  | .createFile _ _ seed => update files next (some (seed.getD []))
  | .tombstone p | .clear p => dropped ns files p
  | .putSymlink _ _ | .putDir _ | .putBaseRef _ _ _ | .rename _ _ | .setExecutable _ _ => files

namespace Overlay

variable {ov : Overlay}

theorem content_dropContent (ov : Overlay) (p : RepoPath) :
    (ov.disk.execAll (ov.dropContent p)).content = dropped ov.lookup ov.disk.content p := by
  cases hl : ov.lookup p with
  | none => simp only [dropContent, dropped, hl]; rfl
  | some e => cases e <;> simp only [dropContent, dropped, hl] <;> rfl

theorem step_content (ov : Overlay) (op : OverlayOp) :
    (ov.step op).disk.content = op.files ov.newContentId ov.lookup ov.disk.content := by
  cases op with
  | createFile p x seed =>
    show (ov.disk.execAll (copyUp ov.newContentId seed ++ persist p _)).content = _
    rw [Disk.execAll_append, Disk.content_persist]
    cases seed <;> simp [copyUp, Disk.execAll, Disk.exec, Disk.setContent, OverlayOp.files]
  | putSymlink p _ | putDir p | putBaseRef p _ _ => exact Disk.content_persist p _
  | tombstone p =>
    show (ov.disk.execAll (ov.dropContent p ++ persist p _)).content = _
    rw [Disk.execAll_append, Disk.content_persist, content_dropContent]
    rfl
  | clear p =>
    show (ov.disk.execAll (ov.dropContent p ++ [.removeSidecar p])).content = _
    rw [Disk.execAll_append]
    exact content_dropContent ov p
  | rename src dst => exact content_rename ov src dst
  | setExecutable p x => exact content_setExecutable ov p x

end Overlay

/-- Entries and content files that belong together: each file entry has its file and shares it with
none, each file has its entry, and the next name is new. -/
structure Owned (next : ContentId) (ns : Namespace) (files : ContentId → Option Bytes) : Prop where
  backed : ∀ p c x, ns p = some (.file c x) → files c ≠ none
  unshared : ∀ p q c x y, ns p = some (.file c x) → ns q = some (.file c y) → p = q
  fresh : ∀ p x, ns p ≠ some (.file next x)
  owned : ∀ c, files c ≠ none → ∃ p x, ns p = some (.file c x)

namespace Owned

variable {next : ContentId} {ns : Namespace} {files : ContentId → Option Bytes}

/-- Where the entry at `p` gives way to one that is no file, its content is left behind. -/
theorem update_iff (h : Owned next ns files) {p : RepoPath} {e : Option OverlayEntry}
    (he : ∀ c x, e ≠ some (.file c x)) :
    (∀ c, files c ≠ none → ∃ q x, update ns p e q = some (.file c x)) ↔
      ∀ c x, ns p ≠ some (.file c x) := by
  constructor
  · intro howned c x hp
    obtain ⟨q, y, hq⟩ := howned c (h.backed p c x hp)
    by_cases hqp : q = p
    · rw [hqp, Function.update_self] at hq
      exact he c y hq
    · rw [Function.update_of_ne hqp] at hq
      exact hqp (h.unshared q p c y x hq hp)
  · intro hp c hc
    obtain ⟨q, y, hq⟩ := h.owned c hc
    have hqp : q ≠ p := fun heq => hp c y (heq ▸ hq)
    exact ⟨q, y, by rw [Function.update_of_ne hqp, hq]⟩

theorem dropped_update (h : Owned next ns files) (p : RepoPath) (e : Option OverlayEntry) (c : ContentId)
    (hc : dropped ns files p c ≠ none) : ∃ q x, update ns p e q = some (.file c x) := by
  have hfile : files c ≠ none ∧ ∀ x, ns p ≠ some (.file c x) := by
    by_cases hp : ∃ b y, ns p = some (.file b y)
    · obtain ⟨b, y, hp⟩ := hp
      have hdropped : dropped ns files p = update files b none := by simp only [dropped, hp]
      rw [hdropped] at hc
      have hcb : c ≠ b := fun heq => hc (by rw [heq, Function.update_self])
      rw [Function.update_of_ne hcb] at hc
      refine ⟨hc, fun x hpx => ?_⟩
      rw [hp] at hpx
      cases hpx
      exact hcb rfl
    · have hdropped : dropped ns files p = files := by
        rw [dropped]
        cases he : ns p with
        | none => rfl
        | some e =>
          cases e with
          | file b y => exact (hp ⟨b, y, he⟩).elim
          | symlink | dir | tombstone | baseRef => rfl
      rw [hdropped] at hc
      exact ⟨hc, fun x hpx => hp ⟨c, x, hpx⟩⟩
  obtain ⟨q, y, hq⟩ := h.owned c hfile.1
  have hqp : q ≠ p := fun heq => hfile.2 y (heq ▸ hq)
  exact ⟨q, y, by rw [Function.update_of_ne hqp, hq]⟩

theorem create_iff (h : Owned next ns files) (p : RepoPath) (x : Bool) (bytes : Bytes) :
    (∀ c, update files next (some bytes) c ≠ none →
        ∃ q y, update ns p (some (.file next x)) q = some (.file c y)) ↔
      ∀ c y, ns p ≠ some (.file c y) := by
  constructor
  · intro howned c y hp
    have hcn : c ≠ next := fun heq => h.fresh p y (heq ▸ hp)
    have hc := h.backed p c y hp
    obtain ⟨q, z, hq⟩ := howned c (by rwa [Function.update_of_ne hcn])
    by_cases hqp : q = p
    · rw [hqp, Function.update_self] at hq
      cases hq
      exact hcn rfl
    · rw [Function.update_of_ne hqp] at hq
      exact hqp (h.unshared q p c z y hq hp)
  · intro hp c hc
    by_cases hcn : c = next
    · exact ⟨p, x, by rw [hcn, Function.update_self]⟩
    · rw [Function.update_of_ne hcn] at hc
      obtain ⟨q, y, hq⟩ := h.owned c hc
      have hqp : q ≠ p := fun heq => hp c y (heq ▸ hq)
      exact ⟨q, y, by rw [Function.update_of_ne hqp, hq]⟩

theorem rename_iff (h : Owned next ns files) {src dst : RepoPath} {e : OverlayEntry}
    (he : ns src = some e) :
    (∀ c, files c ≠ none → ∃ q x, update (update ns dst (some e)) src none q = some (.file c x)) ↔
      ∀ c x, ns dst ≠ some (.file c x) := by
  constructor
  · intro howned c x hdst
    obtain ⟨q, y, hq⟩ := howned c (h.backed dst c x hdst)
    by_cases hqs : q = src
    · rw [hqs, Function.update_self] at hq
      cases hq
    · rw [Function.update_of_ne hqs] at hq
      by_cases hqd : q = dst
      · rw [hqd, Function.update_self, ← he] at hq
        exact hqs (hqd.trans (h.unshared dst src c x y hdst hq))
      · rw [Function.update_of_ne hqd] at hq
        exact hqd (h.unshared q dst c y x hq hdst)
  · intro hdst c hc
    obtain ⟨q, y, hq⟩ := h.owned c hc
    have hqd : q ≠ dst := fun heq => hdst c y (heq ▸ hq)
    by_cases hqs : q = src
    · have hds : dst ≠ src := fun heq => hqd (hqs.trans heq.symm)
      rw [hqs, he] at hq
      exact ⟨dst, y, by rw [Function.update_of_ne hds, Function.update_self, hq]⟩
    · exact ⟨q, y, by rw [Function.update_of_ne hqs, Function.update_of_ne hqd, hq]⟩

end Owned

theorem OverlayOp.coversFile_iff {op : OverlayOp} {ns : Namespace} {p : RepoPath}
    (h : op.replaces ns = some p) : ¬op.CoversFile ns ↔ ∀ c x, ns p ≠ some (.file c x) := by
  rw [CoversFile, h]
  constructor
  · intro hno c x hp
    exact hno ⟨p, c, x, rfl, hp⟩
  · rintro hp ⟨q, c, x, hq, hfile⟩
    cases hq
    exact hp c x hfile

/-- From entries and content files that belong together, an operation leaves a content file behind if it
covers one up, and only then. -/
theorem Owned.effect_iff {next : ContentId} {ns : Namespace} {files : ContentId → Option Bytes}
    (h : Owned next ns files) (op : OverlayOp) :
    (∀ c, op.files next ns files c ≠ none → ∃ q x, op.effect next ns q = some (.file c x)) ↔
      ¬op.CoversFile ns := by
  have hnone (hreplaces : op.replaces ns = none) : ¬op.CoversFile ns := by
    rintro ⟨p, c, x, hp, -⟩
    rw [hreplaces] at hp
    cases hp
  cases op with
  | createFile p x seed =>
    rw [OverlayOp.coversFile_iff rfl]
    exact h.create_iff p x (seed.getD [])
  | putSymlink p target =>
    rw [OverlayOp.coversFile_iff rfl]
    exact h.update_iff (by simp)
  | putDir p =>
    rw [OverlayOp.coversFile_iff rfl]
    exact h.update_iff (by simp)
  | putBaseRef p oid mode =>
    rw [OverlayOp.coversFile_iff rfl]
    exact h.update_iff (by simp)
  | tombstone p => exact iff_of_true (h.dropped_update p _) (hnone rfl)
  | clear p => exact iff_of_true (h.dropped_update p _) (hnone rfl)
  | rename src dst =>
    cases he : ns src with
    | none =>
      have hreplaces : (OverlayOp.rename src dst).replaces ns = none := by simp [OverlayOp.replaces, he]
      simp only [OverlayOp.effect, OverlayOp.files, he]
      exact iff_of_true h.owned (hnone hreplaces)
    | some e =>
      have hreplaces : (OverlayOp.rename src dst).replaces ns = some dst := by
        simp [OverlayOp.replaces, he]
      rw [OverlayOp.coversFile_iff hreplaces]
      simp only [OverlayOp.effect, OverlayOp.files, he]
      exact h.rename_iff he
  | setExecutable p x =>
    refine iff_of_true (fun c hc => ?_) (hnone rfl)
    obtain ⟨q, y, hq⟩ := h.owned c hc
    by_cases hqp : q = p
    · subst hqp
      exact ⟨q, x, by simp only [OverlayOp.effect, hq, Function.update_self]⟩
    · have huntouched : q ∉ (OverlayOp.setExecutable p x).touched := by simpa [OverlayOp.touched] using hqp
      exact ⟨q, y, by rw [OverlayOp.effect_of_notMem huntouched, hq]⟩

namespace Overlay

variable {ov : Overlay}

theorem Unleaked.owned (hu : ov.Unleaked) (hi : Intact ov) :
    Owned ov.newContentId ov.lookup ov.disk.content := by
  have hs := hi.soundIndex
  refine ⟨fun p c x hp => ?_, hs.unshared, fun p x hp => ?_, hu⟩
  · exact Option.isSome_iff_ne_none.1 (hs.content p c x hp)
  · have hlt := (hi.minted p _ x hp).2
    simp only [newContentId] at hlt
    omega

theorem Unleaked.step_iff (hu : ov.Unleaked) (hi : Intact ov) (op : OverlayOp) :
    (ov.step op).Unleaked ↔ ¬op.CoversFile ov.lookup := by
  have hlookup : (ov.step op).lookup = op.effect ov.newContentId ov.lookup := step_entries ov op
  rw [← (hu.owned hi).effect_iff op, Unleaked, step_content, hlookup]

theorem unleaked_fresh (pid : Nat) : (fresh pid).Unleaked := fun _ hc => (hc rfl).elim

/-- Every overlay that a run comes through keeps its content files, if and only if no operation of the
run covers one up. -/
theorem Unleaked.run_iff (hu : ov.Unleaked) (hi : Intact ov) (ops : List OverlayOp) :
    (∀ before after, ops = before ++ after → (ov.run before).Unleaked) ↔
      ∀ before op after, ops = before ++ op :: after → ¬op.CoversFile (ov.run before).lookup := by
  induction ops generalizing ov with
  | nil =>
    constructor
    · intro _ before op after h
      simp at h
    · intro _ before after h
      rw [(List.append_eq_nil_iff.1 h.symm).1]
      exact hu
  | cons o ops ih =>
    have hi' := intact_step hi o
    constructor
    · intro hall
      have hu' : (ov.step o).Unleaked := hall [o] ops rfl
      have hrest := (ih hu' hi').1 fun before after h => hall (o :: before) after (by rw [h]; rfl)
      intro before op after h
      cases before with
      | nil =>
        cases h
        exact (hu.step_iff hi o).1 hu'
      | cons b before =>
        cases h
        exact hrest before op after rfl
    · intro hall
      have hu' : (ov.step o).Unleaked := (hu.step_iff hi o).2 (hall [] o ops rfl)
      have hrest := (ih hu' hi').2 fun before op after h => hall (o :: before) op after (by rw [h]; rfl)
      intro before after h
      cases before with
      | nil => exact hu
      | cons b before =>
        cases h
        exact hrest before after rfl

end Overlay

/-- From a new overlay, after each operation of a run every content file belongs to an entry if and only
if none of them puts an entry over the one of a file. -/
theorem overlay_unleaked_iff (pid : Nat) (ops : List OverlayOp) :
    (∀ before after, ops = before ++ after → ((Overlay.fresh pid).run before).Unleaked) ↔
      ∀ before op after, ops = before ++ op :: after →
        ¬op.CoversFile ((Overlay.fresh pid).run before).lookup :=
  (Overlay.unleaked_fresh pid).run_iff (Overlay.intact_fresh pid) ops

/-- A file created twice: the first content file stays, and no entry has it. -/
theorem recreated_file_leaks :
    let ov := (Overlay.fresh 1).run [.createFile (letter 97) false none, .createFile (letter 97) false none]
    ov.disk.content ⟨1, 0⟩ = some [] ∧ (∀ p x, ov.lookup p ≠ some (.file ⟨1, 0⟩ x)) ∧ ¬ov.Unleaked := by
  have hcontent : ((Overlay.fresh 1).run [.createFile (letter 97) false none,
      .createFile (letter 97) false none]).disk.content ⟨1, 0⟩ = some [] := by decide
  have hlookup (p : RepoPath) (x : Bool) : ((Overlay.fresh 1).run [.createFile (letter 97) false none,
      .createFile (letter 97) false none]).lookup p ≠ some (.file ⟨1, 0⟩ x) := by
    intro hp
    by_cases ha : p = letter 97
    · subst ha
      revert hp
      cases x <;> decide
    · have huntouched (y : Bool) : p ∉ (OverlayOp.createFile (letter 97) y none).touched := by
        simpa [OverlayOp.touched] using ha
      rw [Overlay.run, List.foldl_cons, List.foldl_cons, List.foldl_nil,
        Overlay.lookup_step (huntouched false), Overlay.lookup_step (huntouched false)] at hp
      cases hp
  refine ⟨hcontent, hlookup, fun hu => ?_⟩
  obtain ⟨p, x, hp⟩ := hu ⟨1, 0⟩ (by rw [hcontent]; exact Option.some_ne_none _)
  exact hlookup p x hp

end LazyMount
