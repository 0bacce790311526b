import LazyMount.Announced
import LazyMount.HandlerSpecs
import LazyMount.OverlayContent
import LazyMount.Visible

/-! What handlers that announce their changes leave alone: the paths that no record covers. -/

namespace LazyMount

open Prog Handler

namespace World

/-- Since `w₁` nothing changed at a path that the notes do not cover, and the content files that the
notes own are in use at covered paths only. -/
structure Spares (w₁ : World) (g : Notes) (w : World) : Prop where
  unrooted : w.Unrooted
  distinct : w.overlay.Distinct
  entry : ∀ p, ¬ g.Covers p → w.overlay.lookup p = w₁.overlay.lookup p
  content : ∀ p c x, ¬ g.Covers p → w.overlay.lookup p = some (.file c x) →
    w.overlay.disk.content c = w₁.overlay.disk.content c
  owned : ∀ c ∈ g.owned, ∀ p x, w.overlay.lookup p = some (.file c x) → g.Covers p

variable {P : Projection} {w₁ w v : World} {g : Notes}

theorem spares_self (hroot : w.Unrooted) (hd : w.overlay.Distinct) : Spares w .empty w :=
  ⟨hroot, hd, fun _ _ => rfl, fun _ _ _ _ _ => rfl, by simp [Notes.empty]⟩

theorem Spares.quiet (h : Spares w₁ g w) (hov : v.overlay = w.overlay) : Spares w₁ g v := by
  refine ⟨?_, hov ▸ h.distinct, hov ▸ h.entry, hov ▸ h.content, hov ▸ h.owned⟩
  rw [Unrooted, hov]
  exact h.unrooted

theorem Spares.record (h : Spares w₁ g w) (path : RepoPath) : Spares w₁ (g.record path) w := by
  have hmono : ∀ {p}, g.Covers p → (g.record path).Covers p := fun hp => hp.extends (g.extends_record path)
  exact ⟨h.unrooted, h.distinct, fun p hp => h.entry p fun hc => hp (hmono hc),
    fun p c x hp => h.content p c x fun hc => hp (hmono hc), fun c hc p x hl => hmono (h.owned c hc p x hl)⟩

theorem Spares.own {c : ContentId} (h : Spares w₁ g w)
    (hc : ∀ p x, w.overlay.lookup p = some (.file c x) → g.Covers p) : Spares w₁ (g.own c) w := by
  refine ⟨h.unrooted, h.distinct, h.entry, h.content, fun b hb p x hl => ?_⟩
  rcases List.mem_cons.mp hb with rfl | hb
  · exact hc p x hl
  · exact h.owned b hb p x hl

/-- A file at a path that is not covered is none that an operation on covered paths changes. -/
theorem Spares.mutate {op : OverlayOp} (h : Spares w₁ g w) (hop : ∀ p ∈ op.touched, g.Covers p) :
    Spares w₁ g { w with overlay := w.overlay.step op } := by
  have hkeep : ∀ p, ¬ g.Covers p → (w.overlay.step op).lookup p = w.overlay.lookup p :=
    fun p hp => Overlay.lookup_step fun hm => hp (hop p hm)
  refine ⟨Projection.unrooted_step h.unrooted hop, Overlay.distinct_step h.distinct op, fun p hp => ?_,
    fun p c x hp hl => ?_, fun c hc p x hl => ?_⟩
  · exact (hkeep p hp).trans (h.entry p hp)
  · have hl' := (hkeep p hp).symm.trans hl
    rw [← h.content p c x hp hl']
    have hnew := h.distinct.ne_newContentId hl'
    by_cases hc : w.overlay.disk.content c = none
    · rw [hc]
      exact Overlay.content_step_none hnew hc op
    · refine Overlay.content_step hnew fun q hq y hlq => hp ?_
      rw [h.distinct.apart p q c x y hl' hlq hc]
      exact hop q hq
  · by_contra hp
    exact hp (h.owned c hc p x ((hkeep p hp).symm.trans hl))

theorem Spares.edit {c : ContentId} (h : Spares w₁ g w) (hc : c ∈ g.owned) (f : Bytes → Bytes) :
    Spares w₁ g { w with overlay := w.overlay.editContent c f } := by
  have hl : ∀ p, (w.overlay.editContent c f).lookup p = w.overlay.lookup p := fun p =>
    congrFun (Overlay.lookup_editContent _ c f) p
  refine ⟨(hl _).trans h.unrooted, Overlay.distinct_editContent h.distinct c f,
    fun p hp => (hl p).trans (h.entry p hp), fun p b x hp hb => ?_, fun b hb p x hlb => ?_⟩
  · rw [hl] at hb
    have hne : b ≠ c := by
      intro heq
      subst heq
      exact hp (h.owned b hc p x hb)
    exact (Overlay.content_editContent hne f).trans (h.content p b x hp hb)
  · rw [hl] at hlb
    exact h.owned b hb p x hlb

theorem spares_rule {l : Action} {upd : World → World} {next : World → Notes}
    (hr : P.Rule g l upd next) (h : Spares w₁ g w) : Spares w₁ (next w) (upd w) := by
  cases hr with
  | quiet hq => exact h.quiet (by cases hq <;> rfl)
  | record path => exact (h.record path).quiet rfl
  | mutate op hop => exact h.mutate hop
  | createFile path x seed hp =>
    have hop : ∀ p ∈ (OverlayOp.createFile path x seed).touched, g.Covers p := by
      simpa [OverlayOp.touched] using hp
    refine (h.mutate hop).own fun p y hl => ?_
    by_contra hc
    have hkeep : (w.overlay.step (.createFile path x seed)).lookup p = w.overlay.lookup p :=
      Overlay.lookup_step fun hm => hc (hop p hm)
    exact h.distinct.ne_newContentId (hkeep.symm.trans hl) rfl
  | openContent path hp =>
    show Spares w₁ ((w.overlay.openContent path).toOption.elim g g.own) w
    cases ho : w.overlay.openContent path with
    | error e => exact h
    | ok c =>
      refine h.own fun p y hl => ?_
      obtain ⟨x, bytes, hx, hbytes⟩ := Projection.openContent_eq_ok ho
      have hc : w.overlay.disk.content c ≠ none := by simp [hbytes]
      rw [h.distinct.apart p path c y x hl hx hc]
      exact hp
  | edit c f hc => exact h.edit hc f

theorem Spares.resolve (h : Spares w₁ g w) {p : RepoPath} (hp : ¬ g.Covers p) :
    P.resolve w.overlay p = P.resolve w₁.overlay p :=
  Projection.resolve_congr fun q hq => h.entry q fun hc => hp (hc.under hq)

theorem Spares.visible (h : Spares w₁ g w) {p : RepoPath} (hp : ¬ g.Covers p) :
    P.visible w.overlay p = P.visible w₁.overlay p :=
  Projection.visible_congr (fun q hq => h.entry q fun hc => hp (hc.under hq))
    fun c x hl => h.content p c x hp hl

end World

namespace Projection

theorem Rule.tidy {P : Projection} {g : Notes} {l : Action} {upd : World → World} {next : World → Notes}
    (h : P.Rule g l upd next) {w : World} (hw : w.overlay.Tidy) : (upd w).overlay.Tidy := by
  cases h with
  | quiet hq => cases hq <;> exact hw
  | record | openContent => exact hw
  | mutate | createFile => exact Overlay.tidy_step hw _
  | edit c f => exact Overlay.tidy_editContent hw c f

theorem Rule.recorded {P : Projection} {g : Notes} {l : Action} {upd : World → World}
    {next : World → Notes} (h : P.Rule g l upd next) (w : World) {r : RepoPath}
    (hr : r ∈ (next w).recorded) : r ∈ g.recorded ∨ l = .record r := by
  cases h with
  | quiet | mutate | createFile | edit => exact .inl hr
  | record path => exact (List.mem_cons.mp hr).symm.imp_right fun heq => by rw [heq]
  | openContent path =>
    replace hr : r ∈ ((w.overlay.openContent path).toOption.elim g g.own).recorded := hr
    cases ho : w.overlay.openContent path with
    | ok c =>
      rw [ho] at hr
      exact .inl hr
    | error e =>
      rw [ho] at hr
      exact .inl hr

end Projection

end LazyMount
