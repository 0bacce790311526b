import LazyMount.FaultyCalls
import LazyMount.OntoDirectory

/-! A rename that fails. What it has done is not undone: the first overlay operation that returns
makes the destination, and no later one removes it. -/

namespace LazyMount

open Function (update)
open RepoPath Prog Handler

namespace Projection

variable {P : Projection} {w₀ w w' t : World} {ov ov' : Overlay} {p src dst : RepoPath} {op : OverlayOp}
  {parent newparent fuel : Nat} {name newname : Bytes} {flags : UInt32}

/-! The steps that leave an entry alone. -/

inductive Leaves (P : Projection) (p : RepoPath) : Action → (World → World) → Prop
  | quiet {l : Action} {upd : World → World} (h : P.Quiet l upd) : Leaves P p l upd
  | mutate (op : OverlayOp) (h : p ∉ op.touched) :
    Leaves P p .mutate fun w => { w with overlay := w.overlay.step op }

theorem leaves_quiet {α : Type} {m : Handler α} (h : Within P.Quiet SameTree m) :
    Within (P.Leaves p) SameTree m := h.mono fun _ _ => .quiet

theorem leaves_mutate (h : p ∉ op.touched) : Within (P.Leaves p) SameTree (mutate op) :=
  within_atom (.mutate op h) fun _ _ _ => rfl

theorem leaves_renameDir (fuel : Nat) {src dst : RepoPath} (hs : ¬ Under src p) (hd : ¬ Under dst p)
    (hsrc : src ≠ root) : Within (P.Leaves p) SameTree (P.renameDir fuel src dst) := by
  induction fuel generalizing src dst with
  | zero => exact within_diverge
  | succ fuel ih =>
    have hps : p ≠ src := fun heq => hs (heq ▸ Under.refl p)
    have hpd : p ≠ dst := fun heq => hd (heq ▸ Under.refl p)
    refine within_bind (leaves_mutate (by simpa [OverlayOp.touched] using hpd)) fun _ => ?_
    refine within_bind (leaves_quiet (quiet_read fun w v h => by rw [h.1])) fun kids => ?_
    refine within_bind (within_each fun kid => ?_) fun _ => ?_
    · refine within_bind_liftExcept fun cs hcs => within_bind_liftExcept fun cd hcd => ?_
      have hcs := (join_eq_ok.mp hcs).2
      have hcd := (join_eq_ok.mp hcd).2
      have hs' : ¬ Under cs p := fun hu => hs ((under_child hcs).trans hu)
      have hd' : ¬ Under cd p := fun hu => hd ((under_child hcd).trans hu)
      split
      · exact ih hs' hd' hcs.ne_root
      · split
        · rename_i op hop
          refine within_bind (leaves_mutate fun hmem => ?_) fun _ => leaves_quiet (quiet_inodeRename hcs.ne_root cd)
          rcases touched_moveChild hop hmem with rfl | rfl
          · exact hs' (Under.refl _)
          · exact hd' (Under.refl _)
        · exact within_pure _
    · exact within_bind (leaves_mutate (by simpa [OverlayOp.touched] using hps)) fun _ =>
        leaves_quiet (quiet_inodeRename hsrc dst)

theorem leaves_moveKid (fuel : Nat) (hs : ¬ Under src dst) (kid : Bytes × Resolved) :
    Within (P.Leaves dst) SameTree (P.moveKid fuel src dst kid) := by
  refine within_bind_liftExcept fun cs hcs => within_bind_liftExcept fun cd hcd => ?_
  have hcs := (join_eq_ok.mp hcs).2
  have hcd := (join_eq_ok.mp hcd).2
  have hs' : ¬ Under cs dst := fun hu => hs ((under_child hcs).trans hu)
  have hd' : ¬ Under cd dst := not_under_parent hcd
  split
  · exact leaves_renameDir fuel hs' hd' hcs.ne_root
  · split
    · rename_i op hop
      refine within_bind (leaves_mutate fun hmem => ?_) fun _ => leaves_quiet (quiet_inodeRename hcs.ne_root cd)
      rcases touched_moveChild hop hmem with rfl | rfl
      · exact hs' (Under.refl _)
      · exact hd' (Under.refl _)
    · exact within_pure _

/-! What a rename that fails leaves. -/

/-- Nothing has been changed yet. -/
def Unbegun (w₀ : World) (hs : List Action) (w : World) : Prop := Action.mutate ∉ hs ∧ SameTree w w₀

/-- An operation has returned, and the destination is there. -/
def Begun (dst : RepoPath) (hs : List Action) (w : World) : Prop :=
  Action.mutate ∈ hs ∧ ∃ e, w.overlay.lookup dst = some e ∧ e ≠ .tombstone

/-- The same, at the end of a call that fails. -/
def Stopped (P : Projection) (w₀ : World) (dst : RepoPath) (hs : List Action) (_ : Option Action)
    (w : World) : Prop :=
  Action.mutate ∉ hs ∧ w.inodes = w₀.inodes ∧ P.Unmoved w₀.overlay w.overlay ∨ Begun dst hs w

theorem Unbegun.stopped {hs : List Action} {fault : Option Action} (h : Unbegun w₀ hs w) :
    Stopped P w₀ dst hs fault w := by
  obtain ⟨hno, hov, hino⟩ := h
  exact .inl ⟨hno, hino, by rw [hov]; exact .refl _⟩

theorem completed_leaves {l : Action} {upd : World → World} (hl : P.Leaves p l upd) (h : Completed l upd w w') :
    w'.overlay.lookup p = w.overlay.lookup p := by
  cases hl with
  | quiet hq =>
    cases h with
    | whole => cases hq <;> rfl
    | stuck op hl h =>
      subst hl
      cases hq
  | mutate op hp =>
    rw [Overlay.lookup, (completed_upd h).2.1]
    exact Overlay.lookup_step hp

theorem endures_leaves {α : Type} {m : Handler α} (hm : Within (P.Leaves dst) SameTree m) :
    Endures Completed Broken (Begun dst) m (fun _ => Begun dst) (Stopped P w₀ dst) := by
  refine hm.endures (fun l upd hs w w' hl hi hd => ?_) (fun hs w hi => .inr hi)
    fun l upd hs w t hl hi hf => .inr ?_
  · obtain ⟨hmem, e, he, hlive⟩ := hi
    exact ⟨List.mem_append_left _ hmem, e, (completed_leaves hl hd).trans he, hlive⟩
  · obtain ⟨hmem, e, he, hlive⟩ := hi
    refine ⟨hmem, e, ?_, hlive⟩
    rw [Overlay.lookup, broken_index hf]
    exact he

theorem endures_silent {α : Type} {m : Handler α} (hm : Within P.Silent SameTree m) :
    Endures Completed Broken (Unbegun w₀) m (fun _ => Unbegun w₀) (Stopped P w₀ dst) := by
  refine hm.endures (fun l upd hs w w' hl hi hd => ?_) (fun hs w hi => hi.stopped)
    fun l upd hs w t hl hi hf => Unbegun.stopped ⟨hi.1, equivalence_sameTree.trans (broken_silent hl hf) hi.2⟩
  refine ⟨fun hmem => ?_, equivalence_sameTree.trans (completed_silent hl hd) hi.2⟩
  rcases List.mem_append.mp hmem with hmem | hmem
  · exact hi.1 hmem
  · rw [List.mem_singleton] at hmem
    subst hmem
    cases hl

theorem endures_readStep {α : Type} {f : World → Except Error α} (hf : ∀ w v, SameTree w v → f w = f v) :
    Endures Completed Broken (Unbegun w₀) (.read .read f : Handler α)
      (fun a hs w => f w₀ = .ok a ∧ Unbegun w₀ hs w) (Stopped P w₀ dst) := by
  have hstep : ∀ hs w w', Unbegun w₀ hs w → Completed .read id w w' → Unbegun w₀ (hs ++ [.read]) w' := by
    intro hs w w' hi hd
    refine ⟨fun hmem => ?_, equivalence_sameTree.trans (completed_silent (P := P) .read hd) hi.2⟩
    rcases List.mem_append.mp hmem with hmem | hmem
    · exact hi.1 hmem
    · cases List.mem_singleton.mp hmem
  refine endures_atom (fun hs w w' a hi hd ha => ⟨?_, hstep hs w w' hi hd⟩)
    (fun hs w w' e hi hd he => (hstep hs w w' hi hd).stopped)
    fun hs w t hi hf => Unbegun.stopped ⟨hi.1, equivalence_sameTree.trans (broken_silent (P := P) .read hf) hi.2⟩
  rw [← ha]
  exact hf w₀ w (equivalence_sameTree.symm hi.2)

theorem endures_childPath : Endures Completed Broken (Unbegun w₀) (childPath parent name)
    (fun path hs w => (w₀.Names parent name path ∧ path.Ordinary) ∧ Unbegun w₀ hs w) (Stopped P w₀ dst) := by
  refine endures_bind (endures_readStep fun w v h => by rw [World.pathOf, World.pathOf, h.2]) fun dir =>
    endures_of fun hdir => ?_
  refine endures_bind (endures_liftExcept (fun path hs w hj hw => ⟨⟨dir, hdir, (join_eq_ok.mp hj).2⟩, hw⟩)
    fun hs w hw => hw.stopped) (Q := fun path hs w => w₀.Names parent name path ∧ Unbegun w₀ hs w)
    fun path => endures_of fun hn => ?_
  split
  · exact endures_fail fun hs w hw => hw.stopped
  · rename_i hgit
    refine endures_pure fun hs w hw => ⟨⟨hn, ?_, hgit⟩, hw⟩
    obtain ⟨dir, -, hch⟩ := hn
    exact hch.ne_root

/-- The first operation of a rename: if it returns the destination is there, and if it fails nothing
has changed. -/
theorem endures_first (hmade : ∃ e, (w₀.overlay.step op).lookup dst = some e ∧ e ≠ .tombstone)
    (hseq : (w₀.overlay.step op).contentSeq = w₀.overlay.contentSeq)
    (hdrop : ∀ p c x, w₀.overlay.lookup p = some (.file c x) → (w₀.overlay.step op).lookup p ≠ some .tombstone) :
    Endures Completed Broken (Unbegun w₀) (mutate op) (fun _ => Begun dst) (Stopped P w₀ dst) := by
  have hdone : ∀ hs w w', Unbegun w₀ hs w →
      Completed .mutate (fun w => { w with overlay := w.overlay.step op }) w w' →
      Begun dst (hs ++ [.mutate]) w' := by
    intro hs w w' hi hd
    obtain ⟨e, he, hlive⟩ := hmade
    refine ⟨List.mem_append_right _ (List.mem_singleton_self _), e, ?_, hlive⟩
    rw [Overlay.lookup, (completed_upd hd).2.1, hi.2.1]
    exact he
  refine endures_atom (fun hs w w' _ hi hd _ => hdone hs w w' hi hd)
    (fun hs w w' _ hi hd _ => .inr (hdone hs w w' hi hd)) fun hs w t hi hf => ?_
  have hidx := broken_index hf
  have hino := broken_inodes hf
  have hcontent : ∀ c, t.overlay.disk.content c ≠ w.overlay.disk.content c →
      c = w.overlay.newContentId ∧ (w.overlay.step op).contentSeq = w.overlay.contentSeq + 1 ∨
        t.overlay.disk.content c = none ∧
          ∃ p x, w.overlay.lookup p = some (.file c x) ∧ (w.overlay.step op).lookup p = some .tombstone :=
    fun c hne => broken_content hf hne
  obtain ⟨hno, hov, hino₀⟩ := hi
  rw [hov] at hidx hcontent
  have hlook : ∀ q, t.overlay.lookup q = w₀.overlay.lookup q := fun q => by
    rw [Overlay.lookup, Overlay.lookup, hidx]
  have hbytes : ∀ p c x, t.overlay.lookup p = some (.file c x) →
      t.overlay.disk.content c = w₀.overlay.disk.content c := by
    intro p c x hl
    by_contra hne
    rcases hcontent c hne with ⟨-, hup⟩ | ⟨-, q, y, hq, htomb⟩
    · omega
    · exact hdrop q c y hq htomb
  refine .inl ⟨hno, hino.trans hino₀, fun q => ?_, fun q => ?_⟩
  · exact resolve_congr fun m _ => hlook m
  · exact visible_congr (fun m _ => hlook m) fun c x hl => hbytes q c x hl

theorem endures_renameDir (hsd : ¬ Under src dst) (hsrc : src ≠ root) (fuel : Nat) :
    Endures Completed Broken (Unbegun w₀) (P.renameDir fuel src dst) (fun _ => Begun dst) (Stopped P w₀ dst) := by
  cases fuel with
  | zero => exact endures_diverge
  | succ fuel =>
    have hlook : (w₀.overlay.step (.putDir dst)).lookup = update w₀.overlay.lookup dst (some .dir) := rfl
    have hne : dst ≠ src := fun heq => hsd (heq ▸ Under.refl dst)
    rw [renameDir_succ]
    refine endures_bind (endures_first ⟨.dir, by rw [hlook, Function.update_self], by simp⟩ rfl
      fun p c x hl => ?_) fun _ => endures_leaves ?_
    · rw [hlook]
      by_cases hp : p = dst
      · rw [hp, Function.update_self]
        simp
      · rw [Function.update_of_ne hp, hl]
        simp
    · refine within_bind (leaves_quiet (quiet_read fun w v h => by rw [h.1])) fun kids => ?_
      refine within_bind (within_each fun kid => leaves_moveKid fuel hsd kid) fun _ => ?_
      exact within_bind (leaves_mutate (by simpa [OverlayOp.touched] using hne)) fun _ =>
        leaves_quiet (quiet_inodeRename hsrc dst)

theorem endures_renameFile (hsd : src ≠ dst) (hsrc : src ≠ root)
    (hlive : w₀.overlay.lookup src ≠ some .tombstone) :
    Endures Completed Broken (Unbegun w₀) (P.renameFile src dst) (fun _ => Begun dst) (Stopped P w₀ dst) := by
  have htomb : Within (P.Leaves dst) SameTree (mutate (.tombstone src)) :=
    leaves_mutate (by simpa [OverlayOp.touched] using hsd.symm)
  have hend : Within (P.Leaves dst) SameTree (inodeRename src dst) := leaves_quiet (quiet_inodeRename hsrc dst)
  have href : ∀ oid mode, Endures Completed Broken (Unbegun w₀) (do
      mutate (.putBaseRef dst oid mode)
      mutate (.tombstone src)
      inodeRename src dst : Handler Unit) (fun _ => Begun dst) (Stopped P w₀ dst) := by
    intro oid mode
    have hlook : (w₀.overlay.step (.putBaseRef dst oid mode)).lookup =
        update w₀.overlay.lookup dst (some (.baseRef oid mode)) := rfl
    refine endures_bind (endures_first ⟨.baseRef oid mode, by rw [hlook, Function.update_self], by simp⟩ rfl
      fun p c x hl => ?_) fun _ => endures_leaves (within_bind htomb fun _ => hend)
    rw [hlook]
    by_cases hp : p = dst
    · rw [hp, Function.update_self]
      simp
    · rw [Function.update_of_ne hp, hl]
      simp
  refine endures_bind (endures_readStep fun w v h => by rw [h.1]) fun o => endures_of fun ho => ?_
  replace ho := Except.ok.inj ho
  cases o with
  | some e =>
    have he : e ≠ .tombstone := fun heq => hlive (heq ▸ ho)
    have hlook := Overlay.lookup_rename ho dst
    have hmoved : Endures Completed Broken (Unbegun w₀) (mutate (.rename src dst)) (fun _ => Begun dst)
        (Stopped P w₀ dst) := by
      refine endures_first ⟨e, ?_, he⟩ ?_ fun p c x hl => ?_
      · rw [hlook, Function.update_of_ne hsd.symm, Function.update_self]
      · show (w₀.overlay.rename src dst).contentSeq = _
        rw [Overlay.rename]
        split <;> rfl
      · rw [hlook]
        by_cases hp : p = src
        · rw [hp, Function.update_self]
          simp
        · rw [Function.update_of_ne hp]
          by_cases hp' : p = dst
          · rw [hp', Function.update_self]
            simpa using he
          · rw [Function.update_of_ne hp', hl]
            simp
    exact endures_bind hmoved fun _ =>
      endures_leaves (within_bind (leaves_quiet (quiet_baselineResolveStep src)) fun b =>
        within_bind (within_whenever htomb) fun _ => hend)
  | none =>
    refine endures_bind (endures_readStep fun w v _ => rfl) fun b => endures_of fun _ => ?_
    split
    · exact href _ _
    · exact href _ _
    · exact endures_fail fun hs w hw => hw.stopped

theorem endures_rename (fuel : Nat) (flags : UInt32) (hn : w₀.Names parent name src)
    (hn' : w₀.Names newparent newname dst) (hsd : ¬ Under src dst)
    {r : Resolved} (hvisible : P.resolve w₀.overlay src = .ok (some r)) :
    Endures Completed Broken (Unbegun w₀) (P.rename fuel parent name newparent newname flags)
      (fun _ => Begun dst) (Stopped P w₀ dst) := by
  refine endures_bind endures_childPath fun src' => endures_of fun hsrc' => ?_
  obtain rfl : src = src' := hn.unique hsrc'.1
  refine endures_bind endures_childPath fun dst' => endures_of fun hdst' => ?_
  obtain rfl : dst = dst' := hn'.unique hdst'.1
  have hlive : w₀.overlay.lookup src ≠ some .tombstone := by
    intro ht
    rw [resolve_entry hsrc'.2 ht] at hvisible
    cases hvisible
  split
  · exact endures_fail fun hs w hw => hw.stopped
  refine endures_bind (Q := fun _ => Unbegun w₀) ?_ fun occupied => ?_
  · split
    · exact endures_silent (within_map _ (silent_resolveStep dst))
    · exact endures_pure fun hs w hw => hw
  split
  · exact endures_fail fun hs w hw => hw.stopped
  refine endures_bind (endures_silent (silent_recordChange src)) fun _ =>
    endures_bind (endures_silent (silent_recordChange dst)) fun _ =>
    endures_bind (endures_silent (silent_resolveStep src)) fun r => ?_
  split
  · exact endures_renameDir hsd hsrc'.2.1 fuel
  · exact endures_renameFile (fun heq => hsd (heq ▸ Under.refl src)) hsrc'.2.1 hlive

end Projection

/-- A rename onto an absent name that fails, at whatever step, has changed nothing visible and no inode if
and only if no overlay operation had returned before. -/
theorem failed_rename_clean_iff (P : Projection) {w t : World} {parent newparent fuel : Nat}
    {name newname : Bytes} {flags : UInt32} {src dst : RepoPath} {r : Resolved} {ls : List Action}
    {fault : Option Action} {err : Error} (hn : w.Names parent name src)
    (hn' : w.Names newparent newname dst) (hsd : ¬ Under src dst)
    (hsrc : P.resolve w.overlay src = .ok (some r)) (hdst : P.resolve w.overlay dst = .ok none)
    (h : (P.rename fuel parent name newparent newname flags).Falters w ls fault (.error err) t) :
    (t.inodes = w.inodes ∧ P.Unmoved w.overlay t.overlay) ↔ Action.mutate ∉ ls := by
  have hend := Projection.endures_rename fuel flags hn hn' hsd hsrc [] w ls fault _ t
    ⟨by simp, rfl, rfl⟩ h
  rw [List.nil_append] at hend
  rcases hend with ⟨hno, hino, hun⟩ | ⟨hmem, e, he, hlive⟩
  · exact ⟨fun _ => hno, fun _ => ⟨hino, hun⟩⟩
  · refine ⟨fun hh => ?_, fun hno => (hno hmem).elim⟩
    have hord := (Projection.absent_entry hdst).1
    have hgone := (hh.2.resolve dst).trans hdst
    rw [Projection.resolve_entry hord he] at hgone
    exact (hlive (Projection.entryResolved_none_iff.mp hgone)).elim

/-- The small repository with a submodule `m`: its commit is no tree that can be read. -/
noncomputable def moduleProjection : Projection := { smallProjection with
  store := { smallStore with
    readTree := fun oid =>
      if oid.raw = [1] then .ok [⟨[97], .regular, ⟨[3]⟩⟩, ⟨[109], .gitlink, ⟨[9]⟩⟩]
      else smallStore.readTree oid } }

/-- `rename m n` on a fresh mount fails at the read of `m`, and the directory `n` is there. -/
theorem rename_module :
    let w := World.fresh 7 none
    let m := moduleProjection.rename 3 rootIno [109] rootIno [110] 0
    (m.run w).1 = .error ⟨.offlineMissingObject, "object not found"⟩ ∧
      moduleProjection.resolve w.overlay (letter 109) = .ok (some (.dir (some ⟨[9]⟩))) ∧
      moduleProjection.resolve w.overlay (letter 110) = .ok none ∧
      moduleProjection.resolve (m.run w).2.overlay (letter 110) = .ok (some (.dir none)) :=
  ⟨by decide +kernel, by decide +kernel, by decide +kernel, by decide +kernel⟩

theorem not_clean_module :
    let w := World.fresh 7 none
    let m := moduleProjection.rename 3 rootIno [109] rootIno [110] 0
    ¬ ((m.run w).2.inodes = w.inodes ∧ moduleProjection.Unmoved w.overlay (m.run w).2.overlay) := by
  intro w m hclean
  obtain ⟨-, -, hbefore, hafter⟩ := rename_module
  have hsame := hclean.2.resolve (letter 110)
  rw [hafter, hbefore] at hsame
  cases hsame

/-- An overlay operation has returned when `rename m n` fails. -/
theorem failed_rename_clean_iff_module :
    let w := World.fresh 7 none
    let m := moduleProjection.rename 3 rootIno [109] rootIno [110] 0
    ∃ ls err, m.Falters w ls none (.error err) (m.run w).2 ∧ Action.mutate ∈ ls := by
  intro w m
  obtain ⟨hfail, hsrc, hdst, -⟩ := rename_module
  obtain ⟨ls, hrun⟩ := falters_run m w
  rw [hfail] at hrun
  refine ⟨ls, _, hrun, ?_⟩
  have hn : w.Names rootIno [109] (letter 109) := ⟨root, rfl, rfl⟩
  have hn' : w.Names rootIno [110] (letter 110) := ⟨root, rfl, rfl⟩
  by_contra hnone
  exact not_clean_module ((failed_rename_clean_iff moduleProjection hn hn' (by decide) hsrc hdst hrun).2 hnone)

/-- `rename m n` fails, and the directory `n` is there. -/
theorem failed_rename_leaves_directory :
    let op : Op := .rename rootIno [109] rootIno [110] 0
    let w := World.fresh 7 none
    let m := moduleProjection.rename 3 rootIno [109] rootIno [110] 0
    op.Legal moduleProjection w ∧ moduleProjection.resolve w.overlay (letter 110) = .ok none ∧
      (∃ ls err, m.Falters w ls none (.error err) (m.run w).2) ∧
      moduleProjection.resolve (m.run w).2.overlay (letter 110) = .ok (some (.dir none)) ∧
      ¬ ((m.run w).2.inodes = w.inodes ∧ moduleProjection.Unmoved w.overlay (m.run w).2.overlay) := by
  have hpath : (World.fresh 7 none).pathOf rootIno = .ok root := rfl
  have hroot : (World.fresh 7 none).HasDir moduleProjection rootIno := ⟨root, _, rfl, rfl⟩
  obtain ⟨hfail, hsrc, hbefore, hafter⟩ := rename_module
  refine ⟨⟨hroot, hroot, fun src dst hn hn' => ?_⟩, hbefore, ?_, hafter, not_clean_module⟩
  · obtain rfl := names_eq (p := letter 109) hpath rfl hn
    obtain rfl := names_eq (p := letter 110) hpath rfl hn'
    exact ⟨by decide, by decide, .dir (some ⟨[9]⟩), none, hsrc, hbefore, by simp⟩
  · obtain ⟨ls, hrun⟩ := falters_run
      (moduleProjection.rename 3 rootIno [109] rootIno [110] 0) (World.fresh 7 none)
    rw [hfail] at hrun
    exact ⟨ls, _, hrun⟩

end LazyMount
