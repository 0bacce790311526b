import LazyMount.ListingLookup
import LazyMount.OverlayCrash

/-! The four structures of an overlay, the entries, the names by parent, the sidecars and the
content files, agree after every operation. -/

namespace LazyMount

namespace Overlay

/-- The structures agree: the listing of a directory is what the entries say, a reopened
overlay has the same index, and the content files belong to one entry each. -/
structure Representation (P : Projection) (ov : Overlay) : Prop where
  listed : ∀ dir name entry, (name, entry) ∈ P.children ov dir ↔
    ∃ path, dir.join name = .ok path ∧ ov.lookup path = some entry
  once : ∀ dir, ((P.children ov dir).map Prod.fst).Nodup
  reopened : ∀ order pid, ReadDir ov.disk order → (openDisk ov.disk order pid).lookup = ov.lookup
  content : SoundIndex ov

variable {P : Projection} {ov : Overlay}

theorem mem_children_iff {dir : RepoPath} {name : Bytes} {entry : OverlayEntry} :
    (name, entry) ∈ P.children ov dir ↔
      ∃ path, dir.join name = .ok path ∧ ov.lookup path = some entry := by
  rw [Projection.mem_children]
  constructor
  · intro hh
    obtain ⟨path, hchild, hl⟩ := hh
    exact ⟨path, RepoPath.join_ok_iff.mpr ⟨Projection.valid_of_child hchild, hchild⟩, hl⟩
  · intro hh
    obtain ⟨path, hjoin, hl⟩ := hh
    exact ⟨path, (RepoPath.join_ok_iff.mp hjoin).2, hl⟩

theorem Intact.soundIndex (hi : Intact ov) : SoundIndex ov := by
  have hmay : ∀ p e, ov.lookup p = some e → ov.disk.May p e := fun p e h => (may_iff_lookup hi.synced).mpr h
  exact ⟨fun p c x h => hi.sound.content p c x (hmay p _ h),
    fun p q c x y hp hq => hi.sound.unshared p q c x y (hmay p _ hp) (hmay q _ hq)⟩

theorem Intact.representation (hi : Intact ov) : Representation P ov where
  listed _ _ _ := mem_children_iff
  once _ := Projection.nodup_children
  reopened _ pid hr := entries_openDisk hi.synced hr pid
  content := hi.soundIndex

end Overlay

/-- After every run of operations on a new overlay its structures agree. -/
theorem overlay_representation (P : Projection) (pid : Nat) (ops : List OverlayOp) :
    Overlay.Representation P ((Overlay.fresh pid).run ops) := by
  have hi := Overlay.intact_run (Overlay.intact_fresh pid) ops
  exact hi.representation

end LazyMount
