import LazyMount.Announced
import LazyMount.OverlaySessions

/-! Content files belong to one path each, and an operation changes those of the paths it
touches. -/

namespace LazyMount

open Function (update)

def FileOp.changes : FileOp → Option ContentId
  | .createContent c | .writeContent c _ | .removeContent c => some c
  | _ => none

theorem Disk.content_exec {op : FileOp} {c : ContentId} (h : op.changes ≠ some c) (d : Disk) :
    (d.exec op).content c = d.content c := by
  cases op with
  | createContent b | writeContent b bytes | removeContent b =>
    have hne : c ≠ b := fun hc => h (by rw [hc]; rfl)
    exact Function.update_of_ne hne _ _
  | createTmp | writeTmp | renameTmp | removeSidecar => rfl

theorem Disk.content_execAll {ops : List FileOp} {c : ContentId} (h : ∀ o ∈ ops, o.changes ≠ some c)
    (d : Disk) : (d.execAll ops).content c = d.content c := by
  induction ops generalizing d with
  | nil => rfl
  | cons op ops ih =>
    rw [Disk.execAll_cons, ih fun o ho => h o (List.mem_cons_of_mem _ ho),
      content_exec (h op List.mem_cons_self)]

theorem Disk.content_execAll_none {ops : List FileOp} {c : ContentId} {d : Disk}
    (h : ∀ o ∈ ops, o.changes = some c → o = .removeContent c) (hd : d.content c = none) :
    (d.execAll ops).content c = none := by
  induction ops generalizing d with
  | nil => exact hd
  | cons op ops ih =>
    rw [Disk.execAll_cons]
    refine ih (fun o ho => h o (List.mem_cons_of_mem _ ho)) ?_
    by_cases hc : op.changes = some c
    · rw [h op List.mem_cons_self hc]
      exact Function.update_self _ _ _
    · rw [content_exec hc, hd]

namespace Overlay

variable {ov : Overlay}

theorem changes_persist {p : RepoPath} {e : OverlayEntry} {o : FileOp} (h : o ∈ persist p e) :
    o.changes = none := by
  simp only [persist, List.mem_cons, List.not_mem_nil, or_false] at h
  rcases h with rfl | rfl | rfl <;> rfl

theorem changes_dropContent {p : RepoPath} {o : FileOp} {c : ContentId} (h : o ∈ ov.dropContent p)
    (hc : o.changes = some c) : o = .removeContent c ∧ ∃ x, ov.lookup p = some (.file c x) := by
  rw [dropContent] at h
  split at h
  · rename_i b x hl
    rw [List.mem_singleton.mp h] at hc
    cases hc
    exact ⟨List.mem_singleton.mp h, x, hl⟩
  · cases h

/-- An operation changes the content file it mints, and removes those of paths it touches. -/
theorem changes_mutation {op : OverlayOp} {o : FileOp} {c : ContentId}
    (h : o ∈ (ov.mutation op).fileOps) (hc : o.changes = some c) :
    c = ov.newContentId ∨
      o = .removeContent c ∧ ∃ p ∈ op.touched, ∃ x, ov.lookup p = some (.file c x) := by
  have hput : ∀ {p : RepoPath} {e : OverlayEntry}, o ∈ persist p e → False := fun ho => by
    rw [changes_persist ho] at hc
    cases hc
  cases op with
  | createFile p x seed =>
    rcases List.mem_append.mp h with h | h
    · left
      cases seed <;> simp only [copyUp, List.mem_cons, List.not_mem_nil, or_false] at h
      · subst h
        exact (Option.some.inj hc).symm
      · rcases h with rfl | rfl <;> exact (Option.some.inj hc).symm
    · exact (hput h).elim
  | putSymlink | putDir | putBaseRef => exact (hput h).elim
  | tombstone p =>
    rcases List.mem_append.mp h with h | h
    · obtain ⟨ho, hl⟩ := changes_dropContent h hc
      exact .inr ⟨ho, p, List.mem_singleton_self p, hl⟩
    · exact (hput h).elim
  | clear p =>
    rcases List.mem_append.mp h with h | h
    · obtain ⟨ho, hl⟩ := changes_dropContent h hc
      exact .inr ⟨ho, p, List.mem_singleton_self p, hl⟩
    · rw [List.mem_singleton.mp h] at hc
      cases hc
  | rename src dst =>
    cases he : ov.lookup src with
    | none => simp [mutation, rename, he, unchanged] at h
    | some e =>
      simp only [mutation, rename, he] at h
      rcases List.mem_append.mp h with h | h
      · exact (hput h).elim
      · rw [List.mem_singleton.mp h] at hc
        cases hc
  | setExecutable p x =>
    cases he : ov.lookup p with
    | none => simp [mutation, setExecutable, he, unchanged, Except.toOption] at h
    | some e =>
      cases e with
      | file b y =>
        simp only [mutation, setExecutable, he, Except.toOption, Option.getD_some] at h
        exact (hput h).elim
      | symlink | dir | tombstone | baseRef =>
        simp [mutation, setExecutable, he, unchanged, Except.toOption] at h

theorem content_step {op : OverlayOp} {c : ContentId} (hnew : c ≠ ov.newContentId)
    (h : ∀ p ∈ op.touched, ∀ x, ov.lookup p ≠ some (.file c x)) :
    (ov.step op).disk.content c = ov.disk.content c := by
  refine Disk.content_execAll (fun o ho hc => ?_) _
  rcases changes_mutation ho hc with heq | ⟨-, p, hp, x, hl⟩
  · exact hnew heq
  · exact h p hp x hl

theorem content_step_none {c : ContentId} (hnew : c ≠ ov.newContentId) (h : ov.disk.content c = none)
    (op : OverlayOp) : (ov.step op).disk.content c = none :=
  Disk.content_execAll_none (fun _ ho hc => ((changes_mutation ho hc).resolve_left hnew).1) h

theorem lookup_step {op : OverlayOp} {p : RepoPath} (h : p ∉ op.touched) :
    (ov.step op).lookup p = ov.lookup p := by
  rw [lookup, step_entries, OverlayOp.effect_of_notMem h]
  rfl

theorem lookup_rename {src : RepoPath} {e : OverlayEntry} (he : ov.lookup src = some e)
    (dst : RepoPath) : (ov.step (.rename src dst)).lookup =
      update (update ov.lookup dst (some e)) src none := by
  show (ov.step (.rename src dst)).index.entries = _
  rw [step_entries]
  simp only [OverlayOp.effect, show ov.index.entries src = _ from he]
  rfl

theorem lookup_setExecutable {p : RepoPath} {c : ContentId} {y : Bool}
    (hl : ov.lookup p = some (.file c y)) (x : Bool) :
    (ov.step (.setExecutable p x)).lookup p = some (.file c x) := by
  rw [lookup, step_entries]
  simp only [OverlayOp.effect, show ov.index.entries p = _ from hl, Function.update_self]

theorem content_createFile (ov : Overlay) (path : RepoPath) (x : Bool) (seed : Option Bytes) :
    (ov.step (.createFile path x seed)).disk.content ov.newContentId = some (seed.getD []) := by
  show ((ov.disk.execAll (copyUp ov.newContentId seed ++
    persist path (.file ov.newContentId x))).content ov.newContentId) = _
  rw [Disk.execAll_append, Disk.content_persist]
  cases seed <;> simp [copyUp, Disk.execAll, Disk.exec, Disk.setContent]

theorem content_rename (ov : Overlay) (src dst : RepoPath) :
    (ov.step (.rename src dst)).disk.content = ov.disk.content := by
  show (ov.disk.execAll (ov.rename src dst).fileOps).content = _
  rw [rename]
  split
  · rfl
  · rename_i e _
    rw [Disk.execAll_append]
    exact Disk.content_persist dst e

theorem content_setExecutable (ov : Overlay) (p : RepoPath) (x : Bool) :
    (ov.step (.setExecutable p x)).disk.content = ov.disk.content := by
  show (ov.disk.execAll ((ov.setExecutable p x).toOption.getD ov.unchanged).fileOps).content = _
  rw [setExecutable]
  split
  · exact Disk.content_persist ..
  · rfl

/-- No two paths share a content file, and the ids that this process will mint are not in use. -/
structure Tidy (ov : Overlay) : Prop where
  unshared : ∀ p q c x y, ov.lookup p = some (.file c x) → ov.lookup q = some (.file c y) → p = q
  minted : ov.Minted

theorem tidy_fresh (pid : Nat) : (fresh pid).Tidy := by
  have hnone : ∀ p e, (fresh pid).lookup p ≠ some e := fun _ _ => by simp [fresh, openDisk, lookup, Index.empty]
  exact ⟨fun p _ c x _ h => (hnone p _ h).elim, fun p c x h => (hnone p _ h).elim⟩

theorem Tidy.ne_newContentId (h : ov.Tidy) {p : RepoPath} {c : ContentId} {x : Bool}
    (hl : ov.lookup p = some (.file c x)) : c ≠ ov.newContentId := by
  intro heq
  subst heq
  exact not_clobbers_of_minted h.minted ⟨p, x, hl⟩

theorem unshared_step {op : OverlayOp} {c : ContentId} {p q : RepoPath} {x y : Bool}
    (hnew : ∀ p x, ov.lookup p ≠ some (.file ov.newContentId x))
    (hc : ∀ p q x y, ov.lookup p = some (.file c x) → ov.lookup q = some (.file c y) → p = q)
    (hp : (ov.step op).lookup p = some (.file c x)) (hq : (ov.step op).lookup q = some (.file c y)) :
    p = q := by
  rw [lookup, step_entries] at hp hq
  rcases effect_origin hp with ⟨z, seed, rfl, rfl⟩ | ⟨z, hz⟩ | ⟨src, z, rfl, hne, hz⟩
  · rcases effect_origin hq with ⟨z', seed', hop, -⟩ | ⟨z', hz'⟩ | ⟨src, z', hop, -, hz'⟩
    · cases hop
      rfl
    · exact (hnew q z' hz').elim
    · exact (hnew src z' hz').elim
  · rcases effect_origin hq with ⟨z', seed', -, rfl⟩ | ⟨z', hz'⟩ | ⟨src, z', rfl, hne, hz'⟩
    · exact (hnew p z hz).elim
    · exact hc p q z z' hz hz'
    · obtain rfl := hc p src z z' hz hz'
      rw [effect_rename_src hz] at hp
      cases hp
  · rcases effect_origin hq with ⟨z', seed', hop, -⟩ | ⟨z', hz'⟩ | ⟨src', z', hop, hne', hz'⟩
    · cases hop
    · obtain rfl := hc q src z' z hz' hz
      rw [effect_rename_src hz'] at hq
      cases hq
    · cases hop
      rfl

theorem tidy_step (h : ov.Tidy) (op : OverlayOp) : (ov.step op).Tidy := by
  refine ⟨fun p q c x y hp hq => ?_, minted_step h.minted op⟩
  have hnew : ∀ p x, ov.lookup p ≠ some (.file ov.newContentId x) := fun _ _ hl => h.ne_newContentId hl rfl
  exact unshared_step hnew (fun r s z z' => h.unshared r s c z z') hp hq

theorem tidy_editContent (h : ov.Tidy) (content : ContentId) (f : Bytes → Bytes) :
    (ov.editContent content f).Tidy := by
  rw [editContent]
  split
  · exact ⟨h.unshared, h.minted⟩
  · exact h

/-- No two paths share a content file that exists, and the ids that this process will mint are not in
use. -/
structure Distinct (ov : Overlay) : Prop where
  apart : ∀ p q c x y, ov.lookup p = some (.file c x) → ov.lookup q = some (.file c y) →
    ov.disk.content c ≠ none → p = q
  minted : ov.Minted

theorem Tidy.distinct (h : ov.Tidy) : ov.Distinct :=
  ⟨fun p q c x y hp hq _ => h.unshared p q c x y hp hq, h.minted⟩

theorem Distinct.ne_newContentId (h : ov.Distinct) {p : RepoPath} {c : ContentId} {x : Bool}
    (hl : ov.lookup p = some (.file c x)) : c ≠ ov.newContentId := by
  intro heq
  subst heq
  exact not_clobbers_of_minted h.minted ⟨p, x, hl⟩

theorem Distinct.apart_step (h : ov.Distinct) {op : OverlayOp} {p q : RepoPath} {c : ContentId}
    {x y : Bool} (hp : (ov.step op).lookup p = some (.file c x))
    (hq : (ov.step op).lookup q = some (.file c y))
    (hc : c = ov.newContentId ∨ ov.disk.content c ≠ none) : p = q := by
  have hnew : ∀ p x, ov.lookup p ≠ some (.file ov.newContentId x) := fun _ _ hl => h.ne_newContentId hl rfl
  refine unshared_step hnew (fun r s z z' hr hs => ?_) hp hq
  exact h.apart r s c z z' hr hs (hc.resolve_left (h.ne_newContentId hr))

theorem distinct_step (h : ov.Distinct) (op : OverlayOp) : (ov.step op).Distinct := by
  refine ⟨fun p q c x y hp hq hc => h.apart_step hp hq ?_, minted_step h.minted op⟩
  by_cases hnew : c = ov.newContentId
  · exact .inl hnew
  · exact .inr fun hnone => hc (content_step_none hnew hnone op)

@[simp] theorem lookup_editContent (ov : Overlay) (content : ContentId) (f : Bytes → Bytes) :
    (ov.editContent content f).lookup = ov.lookup := by
  rw [editContent]
  split <;> rfl

theorem content_editContent {content c : ContentId} (h : c ≠ content) (f : Bytes → Bytes) :
    (ov.editContent content f).disk.content c = ov.disk.content c := by
  rw [editContent]
  split
  · exact Function.update_of_ne h _ _
  · rfl

theorem content_editContent_self {c : ContentId} {bytes : Bytes} (hc : ov.disk.content c = some bytes)
    (f : Bytes → Bytes) : (ov.editContent c f).disk.content c = some (f bytes) := by
  rw [editContent, hc]
  exact Function.update_self ..

theorem content_editContent_none {content c : ContentId} (h : ov.disk.content c = none) (f : Bytes → Bytes) :
    (ov.editContent content f).disk.content c = none := by
  by_cases hc : c = content
  · subst hc
    rw [editContent, h]
    exact h
  · rw [content_editContent hc, h]

theorem distinct_editContent (h : ov.Distinct) (content : ContentId) (f : Bytes → Bytes) :
    (ov.editContent content f).Distinct := by
  refine ⟨fun p q c x y hp hq hc => ?_, ?_⟩
  · rw [lookup_editContent] at hp hq
    exact h.apart p q c x y hp hq fun hnone => hc (content_editContent_none hnone f)
  · rw [editContent]
    split <;> exact h.minted

theorem editContent_same {c : ContentId} {f : Bytes → Bytes}
    (h : ∀ bytes, ov.disk.content c = some bytes → f bytes = bytes) : ov.editContent c f = ov := by
  rw [editContent]
  split
  · rename_i bytes hc
    simp [Disk.exec, Disk.setContent, h bytes hc, ← hc]
  · rfl

end Overlay

end LazyMount
