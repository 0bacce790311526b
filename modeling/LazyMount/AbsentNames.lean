import LazyMount.RemovedDirectory

/-! `unlink`, `rmdir` and `rename` of a name that does not resolve. They look at the overlay entry and
at the baseline, not at what the path resolves to, and find nothing only where both have nothing. -/

namespace LazyMount

open RepoPath Prog Handler Transition

/-- The store's own failures are not taken for a missing name. -/
def GitStore.NeverNotFound (store : GitStore) : Prop :=
  ∀ oid e, store.readTree oid = .error e → e.code ≠ .notFound

theorem GitStore.NeverNotFound.walk {store : GitStore} (h : store.NeverNotFound) {cs : List Bytes}
    {tree : ObjectId} {e : Error} (hw : store.walk tree cs = .error e) : e.code ≠ .notFound := by
  induction cs generalizing tree with
  | nil => cases hw
  | cons comp rest ih =>
    simp only [GitStore.walk] at hw
    cases ht : store.readTree tree with
    | error e' =>
      rw [ht] at hw
      obtain rfl : e' = e := Except.error.inj hw
      exact h tree e' ht
    | ok entries =>
      rw [ht, Except.ok_bind] at hw
      split at hw
      · cases hw
      · split at hw
        · split at hw
          · cases hw
          · exact ih hw
        · cases hw
        · cases hw
        · cases hw
        · cases hw

namespace Projection

variable {P : Projection} {w t : World} {ov : Overlay} {p src dst : RepoPath} {parent : Nat}
  {name : Bytes} {α : Type}

/-- The call returns `NotFound`, and every path is seen as before. -/
def FailsClean (P : Projection) (m : Handler α) (w : World) : Prop :=
  ∃ e t, m.run w = (.error e, t) ∧ e.code = .notFound ∧
    ∀ q, P.visible t.overlay q = P.visible w.overlay q

theorem failsClean_of_fail {m : Handler α} {e : Error} (hrun : m.run w = (.error e, t))
    (hov : t.overlay = w.overlay) : P.FailsClean m w ↔ e.code = .notFound := by
  constructor
  · rintro ⟨e', t', hrun', hcode, -⟩
    rw [hrun] at hrun'
    cases hrun'
    exact hcode
  · intro hcode
    exact ⟨e, t, hrun, hcode, fun q => by rw [hov]⟩

theorem not_failsClean_of_ok {m : Handler α} {a : α} (hrun : m.run w = (.ok a, t)) : ¬ P.FailsClean m w := by
  rintro ⟨e, t', hrun', -⟩
  rw [hrun] at hrun'
  cases hrun'

theorem not_failsClean_of_error {m : Handler α} {e : Error} (hrun : m.run w = (.error e, t))
    (he : e.code ≠ .notFound) : ¬ P.FailsClean m w := by
  rintro ⟨e', t', hrun', hcode, -⟩
  rw [hrun] at hrun'
  cases hrun'
  exact he hcode

theorem failsClean_congr {m m' : Handler α} {v : World} (hrun : m.run w = m'.run v)
    (hov : v.overlay = w.overlay) : P.FailsClean m w ↔ P.FailsClean m' v := by
  simp only [FailsClean, hrun, hov]

theorem run_childPath_ok (hn : w.Names parent name p) (hgit : p.components ≠ [gitfileName]) :
    (childPath parent name).run w = (.ok p, w) := by
  obtain ⟨dir, hdir, hp⟩ := hn
  have hj : join dir name = .ok p := join_eq_ok.mpr ⟨valid_of_child hp, hp⟩
  refine (run_bind_ok (run_read (f := fun w : World => w.pathOf parent) hdir)).trans ?_
  rw [hj]
  refine (run_bind_ok (run_liftExcept_ok p w)).trans ?_
  rw [if_neg hgit]
  rfl

theorem run_childPath_gitfile (hn : w.Names parent name p) (hgit : p.components = [gitfileName]) :
    (childPath parent name).run w = (.error protectedGitfile, w) := by
  obtain ⟨dir, hdir, hp⟩ := hn
  have hj : join dir name = .ok p := join_eq_ok.mpr ⟨valid_of_child hp, hp⟩
  refine (run_bind_ok (run_read (f := fun w : World => w.pathOf parent) hdir)).trans ?_
  rw [hj]
  refine (run_bind_ok (run_liftExcept_ok p w)).trans ?_
  rw [if_pos hgit]
  rfl

theorem run_recordChange_ok (p : RepoPath) (w : World) :
    ∃ t, (P.recordChange p).run w = (.ok (), t) ∧ t.overlay = w.overlay := by
  have hrecord : ∀ q v, (P.recordChangeFile q).run v = (.ok (), ((P.recordChangeFile q).run v).2) :=
    fun _ _ => rfl
  rw [recordChange, run_bind_ok (hrecord p w)]
  split
  · split
    · exact ⟨_, rfl, rfl⟩
    · exact ⟨_, rfl, rfl⟩
  · exact ⟨_, rfl, rfl⟩

theorem run_removeName_ok (p : RepoPath) (onBaseline : Bool) (w : World) :
    ∃ t, (P.removeName p onBaseline).run w = (.ok (), t) := by
  obtain ⟨v, hrec, -⟩ := run_recordChange_ok (P := P) p w
  exact ⟨_, (run_bind_ok hrec).trans rfl⟩

theorem absent_entry (h : P.resolve ov p = .ok none) :
    p.Ordinary ∧ ∀ e, ov.lookup p = some e → e = .tombstone := by
  have hord : p.Ordinary := ordinary_of_resolve_leaf h trivial
  refine ⟨hord, fun e he => ?_⟩
  rw [resolve_entry hord he] at h
  exact entryResolved_none_iff.mp h

theorem baselineTreeAt_code (hstore : P.store.NeverNotFound) {e : Error}
    (h : P.baselineTreeAt p = .error e) : e.code ≠ .notFound := by
  cases hr : P.baselineResolve p with
  | error e' =>
    rw [baselineTreeAt_error hr] at h
    obtain rfl : e' = e := Except.error.inj h
    exact hstore.walk hr
  | ok r =>
    obtain ⟨bt, hbt, -⟩ := baselineTreeAt_of hr
    rw [hbt] at h
    cases h

theorem resolve_code (hstore : P.store.NeverNotFound) {e : Error} (h : P.resolve ov p = .error e) :
    e.code ≠ .notFound := by
  rw [resolve] at h
  split at h
  · cases h
  · split at h
    · cases h
    · split at h
      · rename_i entry _
        cases entry with
        | dir =>
          cases hb : P.baselineTreeAt p with
          | error e' =>
            rw [entryResolved, hb] at h
            obtain rfl : e' = e := Except.error.inj h
            exact baselineTreeAt_code hstore hb
          | ok bt =>
            rw [entryResolved, hb] at h
            cases h
        | file | symlink | tombstone | baseRef => cases h
      · split at h
        · cases h
        · exact hstore.walk h

theorem allTombstoned_code {entries : List TreeEntry} {e : Error}
    (h : allTombstoned ov p entries = .error e) : e.code ≠ .notFound := by
  induction entries with
  | nil => cases h
  | cons entry entries ih =>
    simp only [allTombstoned] at h
    cases hj : join p entry.name with
    | error e' =>
      rw [hj] at h
      obtain rfl : e' = e := Except.error.inj h
      rw [join] at hj
      cases hp : p.join entry.name with
      | error pe =>
        rw [hp] at hj
        obtain rfl := Except.error.inj hj
        simp [invalidPath]
      | ok q =>
        rw [hp] at hj
        cases hj
    | ok q =>
      rw [hj, Except.ok_bind] at h
      split at h
      · exact ih h
      · cases h

theorem dirIsEmpty_code (hstore : P.store.NeverNotFound) {e : Error}
    (h : P.dirIsEmpty ov p = .error e) : e.code ≠ .notFound := by
  rw [dirIsEmpty] at h
  cases hb : P.baselineTreeAt p with
  | error e' =>
    rw [hb] at h
    obtain rfl : e' = e := Except.error.inj h
    exact baselineTreeAt_code hstore hb
  | ok bt =>
    rw [hb, Except.ok_bind] at h
    cases hes : P.treeEntries bt with
    | error e' =>
      rw [hes] at h
      obtain rfl : e' = e := Except.error.inj h
      cases bt with
      | none => cases hes
      | some tree => exact hstore tree e' hes
    | ok entries =>
      rw [hes, Except.ok_bind] at h
      cases ha : allTombstoned ov p entries with
      | error e' =>
        rw [ha] at h
        obtain rfl : e' = e := Except.error.inj h
        exact allTombstoned_code ha
      | ok b =>
        rw [ha] at h
        cases h

/-! The three calls. -/

theorem unlink_absent (hstore : P.store.NeverNotFound) (hn : w.Names parent name p)
    (habsent : P.resolve w.overlay p = .ok none) : P.FailsClean (P.unlink parent name) w ↔
      w.overlay.lookup p = none ∧ P.baselineResolve p = .ok none := by
  have hord := (absent_entry habsent).1
  have hchild := run_childPath_ok hn hord.2
  cases hb : P.baselineResolve p with
  | error e =>
    have hrun : (P.unlink parent name).run w = (.error e, w) :=
      (run_bind_ok hchild).trans (run_bind_read_error (f := fun _ : World => P.baselineResolve p) hb)
    exact ⟨fun h => (not_failsClean_of_error hrun (hstore.walk hb) h).elim, fun h => by cases h.2⟩
  | ok r =>
    have hread : (P.baselineResolveStep p).run w = (.ok r, w) := run_read hb
    have hrun : (P.unlink parent name).run w = _ := (run_bind_ok hchild).trans (run_bind_ok hread)
    cases r with
    | some r =>
      obtain ⟨t, hrem⟩ := run_removeName_ok (P := P) p true w
      exact ⟨fun h => (not_failsClean_of_ok (hrun.trans hrem) h).elim, fun h => by cases h.2⟩
    | none =>
      have hlook : (lookupEntry p).run w = (.ok (w.overlay.lookup p), w) := run_read rfl
      cases hl : w.overlay.lookup p with
      | some e =>
        rw [hl] at hlook
        obtain ⟨t, hrem⟩ := run_removeName_ok (P := P) p false w
        have hok := hrun.trans ((run_bind_ok hlook).trans hrem)
        exact ⟨fun h => (not_failsClean_of_ok hok h).elim, fun h => by cases h.1⟩
      | none =>
        rw [hl] at hlook
        have hfail := hrun.trans ((run_bind_ok hlook).trans rfl)
        exact ⟨fun _ => ⟨rfl, rfl⟩, fun _ => (failsClean_of_fail hfail rfl).mpr rfl⟩

theorem rmdir_absent (hstore : P.store.NeverNotFound) (hn : w.Names parent name p)
    (habsent : P.resolve w.overlay p = .ok none) : P.FailsClean (P.rmdir parent name) w ↔
      w.overlay.lookup p = none ∧ P.baselineTreeAt p = .ok none ∧
        ∀ m q e, Child p m q → w.overlay.lookup q = some e → e = .tombstone := by
  have hord := (absent_entry habsent).1
  have hchild := run_childPath_ok hn hord.2
  have hempty : P.baselineTreeAt p = .ok none → P.dirIsEmpty w.overlay p =
      .ok ((P.children w.overlay p).all (·.2 = .tombstone)) := by
    intro hb
    rw [dirIsEmpty, hb]
    simp [treeEntries, allTombstoned]
  have hall : (P.children w.overlay p).all (·.2 = .tombstone) = true ↔
      ∀ m q e, Child p m q → w.overlay.lookup q = some e → e = .tombstone := by
    rw [List.all_eq_true]
    constructor
    · intro h m q e hq he
      simpa using h (m, e) (mem_children.mpr ⟨q, hq, he⟩)
    · rintro h ⟨m, e⟩ hmem
      obtain ⟨q, hq, he⟩ := mem_children.mp hmem
      simpa using h m q e hq he
  cases hd : P.dirIsEmpty w.overlay p with
  | error e =>
    have hrun : (P.rmdir parent name).run w = (.error e, w) :=
      (run_bind_ok hchild).trans (run_bind_read_error (f := fun w : World => P.dirIsEmpty w.overlay p) hd)
    refine ⟨fun h => (not_failsClean_of_error hrun (dirIsEmpty_code hstore hd) h).elim, fun h => ?_⟩
    rw [hempty h.2.1] at hd
    cases hd
  | ok b =>
    have hread : (Prog.read Action.read fun w : World => P.dirIsEmpty w.overlay p).run w = (.ok b, w) :=
      run_read hd
    have hrun : (P.rmdir parent name).run w = _ := (run_bind_ok hchild).trans (run_bind_ok hread)
    cases b with
    | false =>
      refine ⟨fun h => ?_, fun h => ?_⟩
      · exact (not_failsClean_of_error (e := ⟨.dirtyWorkspaceConflict, "not empty"⟩) hrun (by simp) h).elim
      · rw [hempty h.2.1, hall.mpr h.2.2] at hd
        cases hd
    | true =>
      cases hb : P.baselineTreeAt p with
      | error e =>
        rw [dirIsEmpty, hb] at hd
        cases hd
      | ok bt =>
        have hread₂ : (Prog.read Action.read fun _ : World => P.baselineTreeAt p).run w = (.ok bt, w) :=
          run_read hb
        have hrun₂ := hrun.trans (run_bind_ok hread₂)
        cases bt with
        | some tree =>
          obtain ⟨t, hrem⟩ := run_removeName_ok (P := P) p true w
          exact ⟨fun h => (not_failsClean_of_ok (hrun₂.trans hrem) h).elim, fun h => by cases h.2.1⟩
        | none =>
          have hlook : (lookupEntry p).run w = (.ok (w.overlay.lookup p), w) := run_read rfl
          have hkids := hall.mp (Except.ok.inj ((hempty hb).symm.trans hd))
          cases hl : w.overlay.lookup p with
          | some e =>
            rw [hl] at hlook
            obtain ⟨t, hrem⟩ := run_removeName_ok (P := P) p false w
            have hok := hrun₂.trans ((run_bind_ok hlook).trans hrem)
            exact ⟨fun h => (not_failsClean_of_ok hok h).elim, fun h => by cases h.1⟩
          | none =>
            rw [hl] at hlook
            have hfail := hrun₂.trans ((run_bind_ok hlook).trans rfl)
            exact ⟨fun _ => ⟨rfl, rfl, hkids⟩, fun _ => (failsClean_of_fail hfail rfl).mpr rfl⟩

/-- The baseline has no file and no symlink at `p`. -/
def NoFile (P : Projection) (p : RepoPath) : Prop :=
  ∃ r, P.baselineResolve p = .ok r ∧ (∀ source x, r ≠ some (.file source x)) ∧
    ∀ source, r ≠ some (.symlink source)

theorem renameFile_absent (hstore : P.store.NeverNotFound) :
    P.FailsClean (P.renameFile src dst) w ↔ w.overlay.lookup src = none ∧ P.NoFile src := by
  have hlook : (lookupEntry src).run w = (.ok (w.overlay.lookup src), w) := run_read rfl
  cases hl : w.overlay.lookup src with
  | some e =>
    rw [hl] at hlook
    -- the entry moves, tombstone or not
    refine ⟨fun h => ?_, fun h => nomatch h.1⟩
    have hmove : (mutate (.rename src dst)).run w =
        (.ok (), { w with overlay := w.overlay.step (.rename src dst) }) := rfl
    have hrun : (P.renameFile src dst).run w = _ := (run_bind_ok hlook).trans (run_bind_ok hmove)
    cases hb : P.baselineResolve src with
    | error e =>
      have herr := hrun.trans (run_bind_read_error (f := fun _ : World => P.baselineResolve src) hb)
      exact (not_failsClean_of_error herr (hstore.walk hb) h).elim
    | ok r =>
      have hread : (P.baselineResolveStep src).run { w with overlay := w.overlay.step (.rename src dst) } =
        (.ok r, { w with overlay := w.overlay.step (.rename src dst) }) := run_read hb
      have hrun₂ := hrun.trans (run_bind_ok hread)
      cases r with
      | none => exact (not_failsClean_of_ok (hrun₂.trans rfl) h).elim
      | some r => exact (not_failsClean_of_ok (hrun₂.trans rfl) h).elim
  | none =>
    rw [hl] at hlook
    cases hb : P.baselineResolve src with
    | error e =>
      have hrun : (P.renameFile src dst).run w = _ := (run_bind_ok hlook).trans
        (run_bind_read_error (f := fun _ : World => P.baselineResolve src) hb)
      refine ⟨fun h => (not_failsClean_of_error hrun (hstore.walk hb) h).elim, fun h => ?_⟩
      obtain ⟨r, hr, -⟩ := h.2
      rw [hb] at hr
      cases hr
    | ok r =>
      have hread : (P.baselineResolveStep src).run w = (.ok r, w) := run_read hb
      have hrun : (P.renameFile src dst).run w = _ := (run_bind_ok hlook).trans (run_bind_ok hread)
      have hfile : P.NoFile src ↔ (∀ source x, r ≠ some (.file source x)) ∧ ∀ source, r ≠ some (.symlink source) :=
        ⟨fun ⟨r', hr', h⟩ => Except.ok.inj (hb.symm.trans hr') ▸ h, fun h => ⟨r, hb, h⟩⟩
      rw [hfile]
      rcases r with _ | ⟨bt⟩ | ⟨_ | oid, x⟩ | ⟨_ | oid⟩ | _
      · exact ⟨fun _ => by simp, fun _ => (failsClean_of_fail (hrun.trans rfl) rfl).mpr rfl⟩
      · exact ⟨fun _ => by simp, fun _ => (failsClean_of_fail (hrun.trans rfl) rfl).mpr rfl⟩
      · exact (GitStore.walk_ofTree hb).elim
      · exact ⟨fun h => (not_failsClean_of_ok (hrun.trans rfl) h).elim, fun h => (h.2.1 _ _ rfl).elim⟩
      · exact (GitStore.walk_ofTree hb).elim
      · exact ⟨fun h => (not_failsClean_of_ok (hrun.trans rfl) h).elim, fun h => (h.2.2 _ rfl).elim⟩
      · exact (GitStore.walk_ofTree hb).elim

theorem renameFile_congr {v : World} (hov : v.overlay = w.overlay) (hstore : P.store.NeverNotFound) :
    P.FailsClean (P.renameFile src dst) v ↔ P.FailsClean (P.renameFile src dst) w := by
  rw [renameFile_absent hstore, renameFile_absent hstore, hov]

/-- The flags let a rename onto `dst` begin. -/
def Allows (P : Projection) (ov : Overlay) (dst : RepoPath) (flags : UInt32) : Prop :=
  flags &&& renameExchange = 0 ∧ (flags &&& renameNoreplace ≠ 0 → P.resolve ov dst = .ok none)

theorem rename_absent (hstore : P.store.NeverNotFound) {newparent : Nat} {newname : Bytes}
    (fuel : Nat) (flags : UInt32) (hn : w.Names parent name src) (hn' : w.Names newparent newname dst)
    (habsent : P.resolve w.overlay src = .ok none) :
    P.FailsClean (P.rename fuel parent name newparent newname flags) w ↔
      dst.components ≠ [gitfileName] ∧ P.Allows w.overlay dst flags ∧
        w.overlay.lookup src = none ∧ P.NoFile src := by
  have hchild := run_childPath_ok hn (absent_entry habsent).1.2
  by_cases hgit : dst.components = [gitfileName]
  · have hrun : (P.rename fuel parent name newparent newname flags).run w = (.error protectedGitfile, w) := by
      refine (run_bind_ok hchild).trans ?_
      rw [run_bind, run_childPath_gitfile hn' hgit]
    exact ⟨fun h => (not_failsClean_of_error hrun (by simp [protectedGitfile]) h).elim, fun h => (h.1 hgit).elim⟩
  have hchild' := run_childPath_ok hn' hgit
  have hrun : (P.rename fuel parent name newparent newname flags).run w = _ :=
    (run_bind_ok hchild).trans (run_bind_ok hchild')
  by_cases hex : flags &&& renameExchange = 0
  swap
  · rw [if_pos hex] at hrun
    exact ⟨fun h => (not_failsClean_of_error (hrun.trans rfl) (by simp) h).elim, fun h => (hex h.2.1.1).elim⟩
  rw [if_neg (by simpa using hex)] at hrun
  obtain ⟨v, hrec, hov⟩ := run_recordChange_ok (P := P) src w
  obtain ⟨u, hrec', hov'⟩ := run_recordChange_ok (P := P) dst v
  have hu : u.overlay = w.overlay := hov'.trans hov
  have hres : (P.resolveStep src).run u = (.ok none, u) := run_read (by rw [hu, habsent])
  have hgo : (if flags &&& renameNoreplace ≠ 0 then Option.isSome <$> P.resolveStep dst else pure false :
      Handler Bool).run w = (.ok false, w) → (P.FailsClean
        (P.rename fuel parent name newparent newname flags) w ↔
          w.overlay.lookup src = none ∧ P.NoFile src) := by
    intro hocc
    have hlast : (P.rename fuel parent name newparent newname flags).run w = (P.renameFile src dst).run u := by
      refine hrun.trans ?_
      refine (run_bind_ok hocc).trans ?_
      refine (run_bind_ok hrec).trans ?_
      refine (run_bind_ok hrec').trans ?_
      exact run_bind_ok hres
    rw [failsClean_congr hlast hu, renameFile_congr hu hstore, renameFile_absent hstore]
  by_cases hno : flags &&& renameNoreplace = 0
  · have hallows : P.Allows w.overlay dst flags := ⟨hex, fun h => (h hno).elim⟩
    rw [hgo (by rw [if_neg (by simpa using hno)]; rfl)]
    exact ⟨fun h => ⟨hgit, hallows, h⟩, fun h => h.2.2⟩
  · have hocc : ∀ r, P.resolve w.overlay dst = .ok r → (if flags &&& renameNoreplace ≠ 0 then
        Option.isSome <$> P.resolveStep dst else pure false : Handler Bool).run w = (.ok r.isSome, w) := by
      intro r hr
      have hread : (P.resolveStep dst).run w = (.ok r, w) := run_read hr
      rw [if_pos hno]
      exact (run_bind_ok hread).trans rfl
    cases hd : P.resolve w.overlay dst with
    | error e =>
      have hfail : (P.rename fuel parent name newparent newname flags).run w = (.error e, w) := by
        refine hrun.trans ?_
        rw [if_pos hno, run_bind]
        have hread : (Option.isSome <$> P.resolveStep dst : Handler Bool).run w = (.error e, w) :=
          run_bind_read_error (f := fun w : World => P.resolve w.overlay dst) hd
        rw [hread]
      refine ⟨fun h => (not_failsClean_of_error hfail (resolve_code hstore hd) h).elim, fun h => ?_⟩
      rw [h.2.1.2 hno] at hd
      cases hd
    | ok r =>
      cases r with
      | some r =>
        have hfail := hrun.trans ((run_bind_ok (hocc _ hd)).trans rfl)
        refine ⟨fun h => (not_failsClean_of_error hfail (by simp) h).elim, fun h => ?_⟩
        rw [h.2.1.2 hno] at hd
        cases hd
      | none =>
        rw [hgo (hocc none hd)]
        exact ⟨fun h => ⟨hgit, ⟨hex, fun _ => hd⟩, h⟩, fun h => h.2.2⟩

end Projection

/-- The calls on an absent name fail with `NotFound` and change nothing visible, each if and only if it
finds neither an entry nor what it looks for in the baseline. -/
theorem absent_name_fails_iff (P : Projection) (hstore : P.store.NeverNotFound) {w : World} {parent : Nat}
    {name : Bytes} {p : RepoPath} (hn : w.Names parent name p)
    (habsent : P.resolve w.overlay p = .ok none) :
    (P.FailsClean (P.unlink parent name) w ↔
      w.overlay.lookup p = none ∧ P.baselineResolve p = .ok none) ∧
    (P.FailsClean (P.rmdir parent name) w ↔ w.overlay.lookup p = none ∧ P.baselineTreeAt p = .ok none ∧
      ∀ m q e, Child p m q → w.overlay.lookup q = some e → e = .tombstone) ∧
    ∀ fuel newparent newname dst flags, w.Names newparent newname dst → dst ≠ p →
      (P.FailsClean (P.rename fuel parent name newparent newname flags) w ↔
        dst.components ≠ [gitfileName] ∧ P.Allows w.overlay dst flags ∧
          w.overlay.lookup p = none ∧ P.NoFile p) :=
  ⟨Projection.unlink_absent hstore hn habsent, Projection.rmdir_absent hstore hn habsent,
    fun fuel _ _ _ flags hn' _ => Projection.rename_absent hstore fuel flags hn hn' habsent⟩

theorem smallStore_neverNotFound : smallStore.NeverNotFound := by
  intro oid e h
  simp only [smallStore] at h
  split at h
  · cases h
  · split at h
    · cases h
    · split at h
      · cases h
      · cases h
        simp

/-- A name that never was. -/
theorem absent_name_fails_iff_new :
    (smallProjection.FailsClean (smallProjection.unlink rootIno [98]) (World.fresh 7 none) ↔
      (World.fresh 7 none).overlay.lookup (letter 98) = none ∧
        smallProjection.baselineResolve (letter 98) = .ok none) ∧
    (smallProjection.FailsClean (smallProjection.rmdir rootIno [98]) (World.fresh 7 none) ↔
      (World.fresh 7 none).overlay.lookup (letter 98) = none ∧
        smallProjection.baselineTreeAt (letter 98) = .ok none ∧
        ∀ m q e, Child (letter 98) m q → (World.fresh 7 none).overlay.lookup q = some e → e = .tombstone) ∧
    ∀ fuel newparent newname dst flags, (World.fresh 7 none).Names newparent newname dst → dst ≠ letter 98 →
      (smallProjection.FailsClean (smallProjection.rename fuel rootIno [98] newparent newname flags)
          (World.fresh 7 none) ↔
        dst.components ≠ [gitfileName] ∧ smallProjection.Allows (World.fresh 7 none).overlay dst flags ∧
          (World.fresh 7 none).overlay.lookup (letter 98) = none ∧ smallProjection.NoFile (letter 98)) :=
  absent_name_fails_iff smallProjection smallStore_neverNotFound ⟨root, rfl, rfl⟩ (by decide +kernel)

/-- `create b`, `unlink a`. -/
noncomputable def masked (n : Nat) : World :=
  ([Op.create 1 [98] false, .unlink 1 [97]].take n).foldl
    (fun w op => ((op.handler smallProjection 1).run w).2) (World.fresh 7 none)

theorem masked_run : Trace (LegalStep smallProjection) (World.fresh 7 none)
    [.create 1 [98] false, .unlink 1 [97]] (masked 2) := by
  have hpath : ∀ n, (masked n).pathOf rootIno = .ok root := fun _ => rfl
  have hroot : ∀ n, (masked n).Walked smallProjection rootIno ∧ (masked n).HasDir smallProjection rootIno :=
    fun n => ⟨⟨root, rfl, open_root _ _⟩, root, _, rfl, rfl⟩
  have hcreate : smallProjection.Step (masked 0) (.create 1 [98] false) (masked 1) :=
    ⟨1, _, Prod.ext rfl rfl, by decide +kernel⟩
  have hunlink : smallProjection.Step (masked 1) (.unlink 1 [97]) (masked 2) :=
    ⟨1, .ok .unit, Prod.ext (by decide +kernel) rfl, by simp⟩
  refine .cons ⟨⟨(hroot 0).2, fun path hn => ?_⟩, (hroot 0).1, hcreate⟩
    (.cons ⟨⟨(hroot 1).2, fun path hn => ?_⟩, (hroot 1).1, hunlink⟩ (.nil _))
  · obtain rfl := names_eq (p := letter 98) (hpath 0) rfl hn
    decide +kernel
  · obtain rfl := names_eq (p := letter 97) (hpath 1) rfl hn
    exact ⟨.file (.baseline ⟨[3]⟩) false, by decide +kernel, rfl⟩

/-- Then `a` is absent, and its rename onto the file `b` returns and removes `b`. -/
theorem absent_rename_removes :
    let call := smallProjection.rename 1 rootIno [97] rootIno [98] 0
    Trace (LegalStep smallProjection) (World.fresh 7 none) [.create 1 [98] false, .unlink 1 [97]] (masked 2) ∧
      smallProjection.resolve (masked 2).overlay (letter 97) = .ok none ∧
      smallProjection.resolve (masked 2).overlay (letter 98) = .ok (some (.file (.overlay (letter 98)) false)) ∧
      (call.run (masked 2)).1 = .ok () ∧
      smallProjection.resolve (call.run (masked 2)).2.overlay (letter 98) = .ok none ∧
      ¬ smallProjection.FailsClean call (masked 2) := by
  have hok : ((smallProjection.rename 1 rootIno [97] rootIno [98] 0).run (masked 2)).1 = .ok () := by
    decide +kernel
  exact ⟨masked_run, by decide +kernel, by decide +kernel, hok, by decide +kernel,
    Projection.not_failsClean_of_ok (Prod.ext hok rfl)⟩

end LazyMount
