import LazyMount.Layering

/-! What the visible tree has at a path depends on the entries at and above it, and on the
content of its file. -/

namespace LazyMount

open RepoPath

namespace Projection

variable {P : Projection} {ov ov' : Overlay} {p : RepoPath}

theorem ancestorTombstoned_congr (h : ∀ q, Under q p → q ≠ p → ov.lookup q = ov'.lookup q) :
    ov.ancestorTombstoned p = ov'.ancestorTombstoned p := by
  rw [Bool.eq_iff_iff, Overlay.ancestorTombstoned_iff, Overlay.ancestorTombstoned_iff]
  refine exists_congr fun q => and_congr_right fun _ => and_congr_right fun hu =>
    and_congr_right fun hne => ?_
  rw [h q hu hne]

theorem resolve_congr (h : ∀ q, Under q p → ov.lookup q = ov'.lookup q) :
    P.resolve ov p = P.resolve ov' p := by
  simp only [resolve, h p (.refl p), ancestorTombstoned_congr fun q hu _ => h q hu]

theorem resolve_overlay {q : RepoPath} {x : Bool}
    (h : P.resolve ov p = .ok (some (.file (.overlay q) x))) : q = p := by
  rw [resolve] at h
  split at h
  · cases h
  · split at h
    · cases h
    · split at h
      · rename_i e _
        cases e with
        | file =>
          cases h
          rfl
        | symlink | tombstone => cases h
        | dir =>
          obtain ⟨_, -, h⟩ := Except.bind_eq_ok.mp h
          cases h
        | baseRef oid mode => cases mode <;> cases h
      · split at h
        · cases h
        · exact (GitStore.walk_ofTree h).elim

theorem readContent_congr (h : ov.lookup p = ov'.lookup p)
    (hc : ∀ c x, ov.lookup p = some (.file c x) → ov.disk.content c = ov'.disk.content c) :
    ov.readContent p = ov'.readContent p := by
  simp only [Overlay.readContent, Overlay.openContent, ← h]
  cases he : ov.lookup p with
  | none => rfl
  | some e =>
    cases e with
    | file c x =>
      simp only [hc c x he]
      split
      · exact congrArg (fun b => Except.ok (Option.getD b [])) (hc c x he)
      · rfl
    | symlink | dir | tombstone | baseRef => rfl

theorem visible_congr (h : ∀ q, Under q p → ov.lookup q = ov'.lookup q)
    (hc : ∀ c x, ov.lookup p = some (.file c x) → ov.disk.content c = ov'.disk.content c) :
    P.visible ov p = P.visible ov' p := by
  rw [visible, visible, ← resolve_congr h]
  cases hr : P.resolve ov p with
  | error e => rfl
  | ok o =>
    cases o with
    | none => rfl
    | some r =>
      cases r with
      | dir | gitfile => rfl
      | file source x =>
        cases source with
        | baseline oid => rfl
        | overlay q =>
          obtain rfl := resolve_overlay hr
          simp only [seen, nodeOf, readContent_congr (h q (.refl q)) hc]
      | symlink source => cases source <;> rfl

theorem seen_baseline (ov ov' : Overlay) (p : RepoPath) :
    P.seen ov (P.baselineResolve p) = P.seen ov' (P.baselineResolve p) := by
  cases hr : P.baselineResolve p with
  | error e => rfl
  | ok o =>
    cases o with
    | none => rfl
    | some r =>
      cases r with
      | dir | gitfile => rfl
      | file source x =>
        cases source with
        | baseline oid => rfl
        | overlay q => exact (GitStore.walk_ofTree hr).elim
      | symlink source => cases source <;> rfl

end Projection

end LazyMount
