import LazyMount.HandlerSteps

/-! What `readdir` returns, read off the baseline tree and the overlay at once. -/

namespace LazyMount

open RepoPath Prog Handler

def DirEntry.shown (e : DirEntry) : Bytes × Kind := (e.name, e.kind)

def Resolved.kind : Resolved → Kind
  | .dir _ => .dir
  | .file _ executable => .file executable
  | .symlink _ => .symlink
  | .gitfile => .file false

def OverlayEntry.kind : OverlayEntry → Option Kind
  | .file _ executable => some (.file executable)
  | .symlink _ => some .symlink
  | .dir => some .dir
  | .tombstone => none
  | .baseRef _ mode => some mode.kind

namespace Projection

variable (P : Projection)

/-- What a listing of `dir` shows of an entry of its baseline tree. -/
def baselineShown (ov : Overlay) (dir : RepoPath) (e : TreeEntry) : Option (Bytes × Kind) :=
  if dir.isRoot ∧ e.name = gitfileName then none
  else
    match join dir e.name with
    | .ok child => if (ov.lookup child).isSome then none else some (e.name, e.mode.kind)
    | .error _ => none

def overlayShown (child : Bytes × OverlayEntry) : Option (Bytes × Kind) :=
  child.2.kind.map (child.1, ·)

def shown (ov : Overlay) (dir : RepoPath) (entries : List TreeEntry) : List (Bytes × Kind) :=
  entries.filterMap (baselineShown ov dir) ++ (P.children ov dir).filterMap overlayShown ++
    if dir.isRoot then [(gitfileName, .file false)] else []

variable {P} {α : Type}

theorem Quiet.overlay {m : Handler α} (hm : Within P.Quiet SameTree m) {w w' : World}
    {r : Outcome Error α} (hr : m.run w = (r, w')) : w'.overlay = w.overlay := by
  have hh := hm.run (I := fun v => v.overlay = w.overlay)
    (fun _ _ hu v hv => by cases hu <;> exact hv) rfl
  rwa [hr] at hh

theorem returns_push (path : RepoPath) (name : Bytes) (kind : Kind) :
    Returns (fun d => ∃ i, d = some ⟨name, kind, i⟩) (push path name kind) :=
  returns_bind fun _ => returns_bind fun r => ⟨r.1, rfl⟩

theorem run_push {path : RepoPath} {name : Bytes} {kind : Kind} {w w' : World} {d : Option DirEntry}
    (h : (push path name kind).run w = (.ok d, w')) : d.map DirEntry.shown = some (name, kind) := by
  obtain ⟨i, rfl⟩ := (returns_push path name kind).run h
  rfl

theorem run_listBaseline {dir : RepoPath} {e : TreeEntry} {w w' : World} {d : Option DirEntry}
    (h : (listBaseline dir e).run w = (.ok d, w')) :
    d.map DirEntry.shown = baselineShown w.overlay dir e := by
  rw [listBaseline] at h
  rw [baselineShown]
  split at h
  · rename_i hgit
    cases h
    rw [if_pos hgit]
    rfl
  · rename_i hgit
    rw [if_neg hgit]
    obtain ⟨child, w₁, hj, h₁⟩ := run_bind_eq_ok h
    obtain ⟨o, w₂, ho, h₂⟩ := run_bind_eq_ok h₁
    obtain ⟨hjoin, rfl⟩ := run_liftExcept_eq_ok hj
    obtain ⟨hlook, rfl⟩ := run_read_eq_ok ho
    obtain rfl := Except.ok.inj hlook
    rw [hjoin]
    cases he : w₂.overlay.lookup child with
    | some e' =>
      rw [he] at h₂
      cases h₂
      simp [he]
    | none =>
      rw [he] at h₂
      simpa [he] using run_push h₂

theorem run_listOverlay {dir : RepoPath} {child : Bytes × OverlayEntry} {w w' : World}
    {d : Option DirEntry} (h : (listOverlay dir child).run w = (.ok d, w')) :
    d.map DirEntry.shown = overlayShown child := by
  obtain ⟨name, e⟩ := child
  cases e with
  | tombstone =>
    cases h
    rfl
  | file | symlink | dir | baseRef => exact run_push h

/-- A listing that succeeds. -/
theorem run_readdir {ino : Nat} {w w' : World} {out : List DirEntry}
    (h : (P.readdir ino).run w = (.ok out, w')) :
    ∃ dir bt entries, w.pathOf ino = .ok dir ∧ P.resolve w.overlay dir = .ok (some (.dir bt)) ∧
      P.treeEntries bt = .ok entries ∧ out.map DirEntry.shown = P.shown w.overlay dir entries := by
  obtain ⟨dir, w₁, hdir, h₁⟩ := run_bind_eq_ok h
  obtain ⟨r, w₂, hres, h₂⟩ := run_bind_eq_ok h₁
  obtain ⟨hpath, rfl⟩ := run_read_eq_ok hdir
  obtain ⟨hdir', rfl⟩ := run_read_eq_ok hres
  split at h₂
  · obtain ⟨entries, w₃, hes, h₃⟩ := run_bind_eq_ok h₂
    obtain ⟨baseline, w₄, hbase, h₄⟩ := run_bind_eq_ok h₃
    obtain ⟨kids, w₅, hkids, h₅⟩ := run_bind_eq_ok h₄
    obtain ⟨overlay, w₆, hover, h₆⟩ := run_bind_eq_ok h₅
    obtain ⟨git, w₇, hgit, h₇⟩ := run_bind_eq_ok h₆
    obtain ⟨htree, rfl⟩ := run_read_eq_ok hes
    obtain ⟨hread, rfl⟩ := run_read_eq_ok hkids
    cases h₇
    refine ⟨dir, _, entries, hpath, hdir', htree, ?_⟩
    have hbody : ∀ e ∈ entries, ∀ (v : World) y u, v.overlay = w₃.overlay →
        (listBaseline dir e).run v = (.ok y, u) →
        y.map DirEntry.shown = baselineShown w₃.overlay dir e ∧ u.overlay = w₃.overlay := by
      intro e _ v y u hv hy
      rw [← hv, run_listBaseline hy]
      exact ⟨rfl, Quiet.overlay (P := P) (quiet_listBaseline dir e) hy⟩
    obtain ⟨hbaseline, hov⟩ := run_collect_map (I := fun v => v.overlay = w₃.overlay) hbody rfl hbase
    obtain ⟨hoverlay, -⟩ := run_collect_map (g := overlayShown) (I := fun _ => True)
      (fun child _ v y u _ hy => ⟨run_listOverlay hy, trivial⟩) trivial hover
    obtain rfl := Except.ok.inj hread
    rw [List.map_append, List.map_append, hbaseline, hoverlay, shown, hov]
    congr 1
    split at hgit
    · rename_i hroot
      obtain ⟨i, rfl⟩ := (returns_push dir gitfileName (.file false)).run hgit
      rw [if_pos hroot]
      rfl
    · rename_i hroot
      cases hgit
      rw [if_neg hroot]
      rfl
  · cases h₂

end Projection

end LazyMount
