import LazyMount.MovedDirectory
import LazyMount.Recording
import LazyMount.RemovedDirectory

/-! The files of the working tree against the records of the journal, path by path: which files a
run of calls has changed, and which of them it has recorded by name. -/

namespace LazyMount

open Function (update)
open RepoPath Prog Handler Transition

/-- An entry that stands for a file. -/
def OverlayEntry.HasFile : OverlayEntry → Prop
  | .file _ _ => True
  | .baseRef _ mode => mode ≠ .symlink
  | .symlink _ | .dir | .tombstone => False

namespace Projection

variable (P : Projection)

/-- A walk down from `p` through visible directories comes to a file at `q`. -/
def FileAt (ov : Overlay) (p q : RepoPath) : Prop :=
  Reached (P.resolve ov) p q ∧ ∃ source x, P.resolve ov q = .ok (some (.file source x))

/-- A file of the working tree; the root `.git` is none. -/
def TreeFile (ov : Overlay) (q : RepoPath) (bytes : Bytes) : Prop :=
  q.Ordinary ∧ Reached (P.resolve ov) root q ∧ ∃ x, P.visible ov q = .ok (some (.file x bytes))

/-- A directory with a file somewhere beneath it. -/
def Holds (ov : Overlay) (p : RepoPath) : Prop := ∃ q, Under p q ∧ q ≠ p ∧ P.FileAt ov p q

/-- The records that were appended, and which paths are among them. -/
def Logged (w t : World) (rs : List RepoPath) : Prop :=
  ∃ ps : List RepoPath, World.Appended P.limits w t (ps.map RepoPath.bytes) ∧ rs ⊆ ps

/-- Every entry with a file is an old one or recorded, and nothing has changed at or above a file
that was in the tree and is not recorded. -/
structure Recounts (w t : World) (ps : List RepoPath) : Prop where
  appended : World.Appended P.limits w t (ps.map RepoPath.bytes)
  entries : ∀ q e, t.overlay.lookup q = some e → e.HasFile →
    q ∈ ps ∨ ∃ e', w.overlay.lookup q = some e' ∧ e'.HasFile
  kept : ∀ q, P.FileAt w.overlay root q → q ∉ ps → ∀ m, Under m q →
    t.overlay.lookup m = w.overlay.lookup m

variable {P} {u v w t : World} {ov ov' : Overlay} {p q src dst : RepoPath} {rs rs' ps qs : List RepoPath}

/-! Files of the tree. -/

theorem reached_congr (h : ∀ m, Under m q → ov.lookup m = ov'.lookup m) :
    Reached (P.resolve ov) p q ↔ Reached (P.resolve ov') p q := by
  refine forall_congr' fun m => imp_congr_right fun _ => forall_congr' fun hm => imp_congr_right fun _ => ?_
  rw [resolve_congr fun n hn => h n (hn.trans hm)]

theorem fileAt_congr (h : ∀ m, Under m q → ov.lookup m = ov'.lookup m) :
    P.FileAt ov p q ↔ P.FileAt ov' p q := by
  rw [FileAt, FileAt, reached_congr h, resolve_congr h]

theorem under_root (p : RepoPath) : Under root p := by
  rw [Under, components_root]
  exact List.nil_prefix

theorem FileAt.holds (h : P.FileAt ov root q) (hu : Under p q) (hne : q ≠ p) : P.Holds ov p :=
  ⟨q, hu, hne, fun m _ hm hmq => h.1 m (under_root m) hm hmq, h.2⟩

theorem not_holds (h : ∀ bt, P.resolve ov p ≠ .ok (some (.dir bt))) : ¬ P.Holds ov p := by
  rintro ⟨q, hu, hne, hq, -⟩
  exact not_reached_below hu hne h hq

theorem not_holds_of_empty (hp : p.Ordinary) (h : P.dirIsEmpty ov p = .ok true) : ¬ P.Holds ov p := by
  rintro ⟨q, hu, hne, hq, source, x, hfile⟩
  obtain ⟨name, c, hc, hcq⟩ := exists_child_under hu hne
  have hord := hc.ordinary hp.1
  have hnone : P.resolve ov c = .ok none := by
    rcases child_of_empty hp.1 h hc with ht | ⟨hl, hbase⟩
    · rw [resolve_entry hord ht]
      rfl
    · rw [resolve_unset hord hl, hbase]
      split <;> rfl
  by_cases heq : c = q
  · rw [heq, hfile] at hnone
    cases hnone
  · obtain ⟨bt, hbt⟩ := hq c (under_child hc) hcq heq
    rw [hnone] at hbt
    cases hbt

theorem hasFile_of_entryResolved {e : OverlayEntry} {source : FileSource} {x : Bool}
    (h : P.entryResolved p e = .ok (some (.file source x))) : e.HasFile := by
  cases e with
  | file => trivial
  | baseRef oid mode =>
    rintro rfl
    cases h
  | symlink | tombstone => cases h
  | dir =>
    obtain ⟨bt, hbt, -⟩ := dir_of_entryResolved h
    cases hbt

theorem entryResolved_of_hasFile {e : OverlayEntry} (h : e.HasFile) :
    ∃ source x, P.entryResolved p e = .ok (some (.file source x)) := by
  cases e with
  | file => exact ⟨_, _, rfl⟩
  | baseRef oid mode =>
    cases mode with
    | symlink => exact (h rfl).elim
    | tree | gitlink | regular | executable => exact ⟨_, _, rfl⟩
  | symlink | tombstone | dir => exact h.elim

/-! Records. -/

theorem Logged.bind (h : P.Logged w v rs) (h' : P.Logged v t rs') : P.Logged w t (rs ++ rs') := by
  obtain ⟨ps, hps, hrs⟩ := h
  obtain ⟨qs, hqs, hrs'⟩ := h'
  refine ⟨ps ++ qs, ?_, ?_⟩
  · rw [List.map_append]
    exact hps.trans hqs
  · exact List.append_subset.mpr ⟨List.Subset.trans hrs (List.subset_append_left ps qs),
      List.Subset.trans hrs' (List.subset_append_right ps qs)⟩

theorem logged_of_journal (h : t.journal = w.journal) : P.Logged w t [] :=
  ⟨[], World.appended_of_eq h, List.nil_subset _⟩

theorem logged_ordinaryStep {l : Action} {upd : World → World} (h : P.OrdinaryStep l upd) (w : World) :
    P.Logged w (upd w) [] := by
  cases h with
  | quiet h =>
    cases h with
    | read | fetch | inode => exact logged_of_journal rfl
    | record path => exact ⟨[path], World.appended_record w path, List.nil_subset _⟩
  | mutate | edit => exact logged_of_journal rfl

theorem logged_within {α : Type} {m : Handler α} {r : Outcome Error α}
    (hm : Within P.OrdinaryStep SameTree m) (h : m.run w = (r, t)) : P.Logged w t [] := by
  have hrun : P.Logged w (m.run w).2 [] :=
    hm.run (I := fun v => P.Logged w v []) (fun l upd hl v hv => hv.bind (logged_ordinaryStep hl v))
      (logged_of_journal rfl)
  rwa [h] at hrun

theorem logged_recordChangeFile {α : Type} {f : Unit → Handler α} {r : α}
    (hf : Within P.OrdinaryStep SameTree (P.recordChangeFile p >>= f))
    (h : (P.recordChangeFile p >>= f).run w = (.ok r, t)) : P.Logged w t [p] := by
  obtain ⟨_, v, hrec, hrest⟩ := run_bind_eq_ok h
  have hv : P.Logged w v [p] := by
    cases hrec
    exact ⟨[p], World.appended_record w p, List.Subset.refl _⟩
  exact hv.bind (logged_within (hf.rest hrec) hrest)

theorem logged_recordChange {α : Type} {f : Unit → Handler α} {r : α}
    (hf : Within P.OrdinaryStep SameTree (P.recordChange p >>= f))
    (h : (P.recordChange p >>= f).run w = (.ok r, t)) : P.Logged w t [p] := by
  obtain ⟨_, v, hrec, hrest⟩ := run_bind_eq_ok h
  exact (logged_recordChangeFile (Quiet.within (quiet_recordChange p)) hrec).bind
    (logged_within (hf.rest hrec) hrest)

/-! One call and then another. -/

theorem Recounts.trans (h : P.Recounts u w ps) (h' : P.Recounts w t qs) : P.Recounts u t (ps ++ qs) := by
  refine ⟨?_, fun q e he hf => ?_, fun q hq hno m hm => ?_⟩
  · rw [List.map_append]
    exact h.appended.trans h'.appended
  · rcases h'.entries q e he hf with hmem | ⟨e', he', hf'⟩
    · exact .inl (List.mem_append_right ps hmem)
    · exact (h.entries q e' he' hf').imp_left (List.mem_append_left qs)
  · rw [List.mem_append, not_or] at hno
    have hsame := h.kept q hq hno.1
    have hq' : P.FileAt w.overlay root q := (fileAt_congr hsame).mpr hq
    rw [h'.kept q hq' hno.2 m hm]
    exact hsame m hm

/-- A call that changes the entries of the paths that it records, none of which is a directory with a
file beneath it. -/
theorem recounts_paths (hlog : P.Logged w t rs)
    (hother : ∀ q, q ∉ rs → t.overlay.lookup q = w.overlay.lookup q)
    (hrs : ∀ r ∈ rs, ¬ P.Holds w.overlay r) : ∃ ps, P.Recounts w t ps := by
  obtain ⟨ps, happ, hsub⟩ := hlog
  refine ⟨ps, happ, fun q e he hf => ?_, fun q hq hno m hm => ?_⟩
  · by_cases hmem : q ∈ rs
    · exact .inl (hsub hmem)
    · rw [hother q hmem] at he
      exact .inr ⟨e, he, hf⟩
  · refine hother m fun hmem => ?_
    have hne : q ≠ m := by
      intro heq
      exact hno (hsub (heq ▸ hmem))
    exact hrs m hmem (hq.holds hm hne)

theorem recounts_same (hlog : P.Logged w t rs) (hsame : t.overlay.lookup = w.overlay.lookup) :
    ∃ ps, P.Recounts w t ps := by
  obtain ⟨ps, happ, -⟩ := hlog
  exact ⟨ps, happ, fun q e he hf => .inr ⟨e, by rwa [← hsame], hf⟩, fun q _ _ m _ => congrFun hsame m⟩

theorem Lands.not_hasFile {ns ns' : Namespace} {q' : RepoPath} {r : Resolved} {e : OverlayEntry}
    (h : Lands P ns ns' q q' r) (hr : ∀ source x, r ≠ .file source x) :
    (ns' q = some e → e.HasFile → ns q = some e) ∧ (ns' q' = some e → ¬ e.HasFile) := by
  cases h with
  | dir bt hs hd =>
    rw [hs, hd]
    refine ⟨fun he hf => ?_, fun he hf => ?_⟩ <;>
      · obtain rfl := Option.some.inj he
        exact hf.elim
  | entry _ hres _ hs hd =>
    rw [hs, hd]
    refine ⟨fun he => (Option.some_ne_none e he.symm).elim, fun he hf => ?_⟩
    obtain rfl := Option.some.inj he
    obtain ⟨source, x, hfile⟩ := entryResolved_of_hasFile (P := P) (p := q) hf
    exact hr source x (Option.some.inj (Except.ok.inj (hres.symm.trans hfile)))
  | @ref oid mode _ hres hs hd =>
    rw [hs, hd]
    refine ⟨fun he _ => he, fun he hf => ?_⟩
    obtain rfl := Option.some.inj he
    obtain ⟨source, x, hfile⟩ := entryResolved_of_hasFile (P := P) (p := q) hf
    have hmode : baserefResolved oid mode = .file source x := Option.some.inj (Except.ok.inj hfile)
    exact hr source x (hres.symm.trans hmode)

theorem recounts_moved {bt : Option ObjectId} (hlog : P.Logged w t [src, dst])
    (hsrc : P.resolve w.overlay src = .ok (some (.dir bt)))
    (hs : Shipped P (P.resolve w.overlay) w.ns src dst t.ns) (he : Elsewhere w.ns src dst t.ns)
    (hho : ¬ P.Holds w.overlay src) (hho' : ¬ P.Holds w.overlay dst) : ∃ ps, P.Recounts w t ps := by
  obtain ⟨ps, happ, hsub⟩ := hlog
  have hleaf : ∀ q r, Under src q → Reached (P.resolve w.overlay) src q →
      P.resolve w.overlay q = .ok (some r) → ∀ source x, r ≠ .file source x := by
    rintro q r hu hreach hr source x rfl
    have hne : q ≠ src := by
      rintro rfl
      rw [hsrc] at hr
      cases hr
    exact hho ⟨q, hu, hne, hreach, source, x, hr⟩
  refine ⟨ps, happ, fun q e hq hf => .inr ⟨e, ?_, hf⟩, fun q hq hno m hm => ?_⟩
  · -- the entry is not one of those that have moved
    show w.ns q = some e
    replace hq : t.ns q = some e := hq
    by_cases hu : Under src q
    · obtain ⟨q', hq'⟩ := exists_twin hu dst
      by_cases htaken : Taken (P.resolve w.overlay) src q
      · obtain ⟨hreach, r, hr⟩ := htaken
        exact ((hs.taken q q' r hq' hreach hr).not_hasFile (hleaf q r hu hreach hr)).1 hq hf
      · rw [← (hs.left q q' hq' htaken).1]
        exact hq
    · by_cases hu' : Under dst q
      · obtain ⟨q', hq'⟩ := exists_twin hu' src
        by_cases htaken : Taken (P.resolve w.overlay) src q'
        · obtain ⟨hreach, r, hr⟩ := htaken
          have hlands := hs.taken q' q r hq'.symm hreach hr
          exact ((hlands.not_hasFile (hleaf q' r hq'.under.2 hreach hr)).2 hq hf).elim
        · rw [← (hs.left q' q hq'.symm htaken).2]
          exact hq
      · rw [← he q hu hu']
        exact hq
  · -- above a file of the tree there is neither end of the rename
    have hoff : ∀ r ∈ [src, dst], ¬ P.Holds w.overlay r → ¬ Under r m := by
      intro r hr hnot hu
      have hne : q ≠ r := by
        intro heq
        exact hno (hsub (heq ▸ hr))
      exact hnot (hq.holds (hu.trans hm) hne)
    exact he m (hoff src (by simp) hho) (hoff dst (by simp) hho')

/-! The calls. -/

variable {parent ino newparent fuel : Nat} {name newname : Bytes} {α : Type} {r : α}

theorem run_named {f : RepoPath → Handler α}
    (hw : Within P.OrdinaryStep SameTree (childPath parent name >>= f))
    (h : (childPath parent name >>= f).run w = (.ok r, t)) :
    ∃ p, w.Names parent name p ∧ Within P.OrdinaryStep SameTree (f p) ∧ (f p).run w = (.ok r, t) := by
  obtain ⟨p, v, hp, hrest⟩ := run_bind_eq_ok h
  obtain ⟨hn, -, rfl⟩ := run_childPath hp
  exact ⟨p, hn, hw.rest hp, hrest⟩

theorem run_reads {β : Type} {g : World → Except Error β} {f : β → Handler α}
    (hw : Within P.OrdinaryStep SameTree (.read .read g >>= f))
    (h : (.read .read g >>= f : Handler α).run w = (.ok r, t)) :
    ∃ b, g w = .ok b ∧ Within P.OrdinaryStep SameTree (f b) ∧ (f b).run w = (.ok r, t) := by
  obtain ⟨b, v, hb, hrest⟩ := run_bind_eq_ok h
  have hrest' := hw.rest hb
  obtain ⟨hg, rfl⟩ := run_read_eq_ok hb
  exact ⟨b, hg, hrest', hrest⟩

theorem logged_create {x : Bool} {r : Attr × ContentId} (h : (P.create parent name x).run w = (.ok r, t)) :
    ∃ p, w.Names parent name p ∧ P.Logged w t [p] := by
  obtain ⟨p, hn, hw, hrun⟩ := run_named (within_create parent name x) h
  exact ⟨p, hn, logged_recordChange hw hrun⟩

theorem logged_symlink {target : Bytes} {r : Attr}
    (h : (P.symlink parent name target).run w = (.ok r, t)) :
    ∃ p, w.Names parent name p ∧ P.Logged w t [p] := by
  obtain ⟨p, hn, hw, hrun⟩ := run_named (within_symlink parent name target) h
  exact ⟨p, hn, logged_recordChange hw hrun⟩

theorem logged_mkdir {r : Attr} (h : (P.mkdir parent name).run w = (.ok r, t)) :
    ∃ p, w.Names parent name p ∧ P.Logged w t [p] := by
  obtain ⟨p, hn, hw, hrun⟩ := run_named (within_mkdir parent name) h
  obtain ⟨o, -, hw', hrun'⟩ := run_reads hw hrun
  cases o with
  | some => cases hrun'
  | none => exact ⟨p, hn, logged_recordChange hw' hrun'⟩

theorem logged_unlink (h : (P.unlink parent name).run w = (.ok (), t)) :
    ∃ p, w.Names parent name p ∧ P.Logged w t [p] := by
  obtain ⟨p, hn, hw, hrun⟩ := run_named (within_unlink parent name) h
  obtain ⟨b, -, hw', hrun'⟩ := run_reads hw hrun
  refine ⟨p, hn, ?_⟩
  cases b with
  | some => exact logged_recordChange hw' hrun'
  | none =>
    obtain ⟨o, -, hw'', hrun''⟩ := run_reads hw' hrun'
    cases o with
    | none => cases hrun''
    | some => exact logged_recordChange hw'' hrun''

theorem logged_rmdir (h : (P.rmdir parent name).run w = (.ok (), t)) :
    ∃ p, w.Names parent name p ∧ P.Logged w t [p] := by
  obtain ⟨p, hn, hw, hrun⟩ := run_named (within_rmdir parent name) h
  obtain ⟨b, -, hw', hrun'⟩ := run_reads hw hrun
  refine ⟨p, hn, ?_⟩
  cases b with
  | false => cases hrun'
  | true =>
    obtain ⟨bt, -, hw'', hrun''⟩ := run_reads hw' hrun'
    cases bt with
    | some => exact logged_recordChange hw'' hrun''
    | none =>
      obtain ⟨o, -, hw₃, hrun₃⟩ := run_reads hw'' hrun''
      cases o with
      | none => cases hrun₃
      | some => exact logged_recordChange hw₃ hrun₃

theorem logged_openWrite {trunc : Bool} {c : ContentId}
    (h : (P.openWrite ino trunc).run w = (.ok c, t)) : ∃ p, w.pathOf ino = .ok p ∧ P.Logged w t [p] := by
  obtain ⟨p, hp, hw, hrun⟩ := run_reads (within_openWrite ino trunc) h
  exact ⟨p, hp, logged_recordChangeFile hw hrun⟩

theorem logged_setExecutable {x : Bool} (h : (P.setExecutable ino x).run w = (.ok (), t)) :
    ∃ p, w.pathOf ino = .ok p ∧ P.Logged w t [p] := by
  obtain ⟨p, hp, hw, hrun⟩ := run_reads (within_setExecutable ino x) h
  exact ⟨p, hp, logged_recordChangeFile hw hrun⟩

theorem logged_truncate {size : Nat} (h : (P.truncate ino size).run w = (.ok (), t)) :
    ∃ p, w.pathOf ino = .ok p ∧ P.Logged w t [p] := by
  obtain ⟨p, hp, hw, hrun⟩ := run_reads (within_truncate ino size) h
  obtain ⟨o, -, hw', hrun'⟩ := run_reads hw hrun
  refine ⟨p, hp, ?_⟩
  revert hw' hrun'
  split <;> intro hw' hrun'
  · exact logged_recordChangeFile hw' hrun'
  · obtain ⟨res, -, hw'', hrun''⟩ := run_reads hw' hrun'
    revert hw'' hrun''
    split <;> intro hw'' hrun''
    · exact logged_recordChangeFile hw'' hrun''
    · cases hrun''

theorem logged_rename {flags : UInt32}
    (h : (P.rename fuel parent name newparent newname flags).run w = (.ok (), t)) :
    ∃ src dst, w.Names parent name src ∧ w.Names newparent newname dst ∧ P.Logged w t [src, dst] := by
  obtain ⟨src, hsrc, hw₁, h₁⟩ := run_named (within_rename fuel parent name newparent newname flags) h
  obtain ⟨dst, hdst, hw₂, h₂⟩ := run_named hw₁ h₁
  refine ⟨src, dst, hsrc, hdst, ?_⟩
  revert hw₂ h₂
  split <;> intro hw₂ h₂
  · cases h₂
  · obtain ⟨occupied, v, hocc, h₃⟩ := run_bind_eq_ok h₂
    have hw₃ := hw₂.rest hocc
    have hv : P.Logged w v [] := by
      split at hocc
      · exact logged_within (Quiet.within (within_map _ (quiet_resolveStep dst))) hocc
      · cases hocc
        exact logged_of_journal rfl
    revert h₃ hw₃
    split <;> intro h₃ hw₃
    · cases h₃
    · obtain ⟨_, v', hrec, h₄⟩ := run_bind_eq_ok h₃
      have hsrc' : P.Logged v v' [src] :=
        logged_recordChange (f := fun _ => pure ()) (within_bind (Quiet.within (quiet_recordChange src))
          fun _ => within_pure ()) (run_bind_ok hrec)
      exact hv.bind (hsrc'.bind (logged_recordChange (hw₃.rest hrec) h₄))

theorem lookup_step {op : OverlayOp} (h : q ∉ op.touched) : (ov.step op).lookup q = ov.lookup q := by
  show (ov.step op).index.entries q = _
  rw [Overlay.step_entries]
  exact OverlayOp.effect_of_notMem h _ _

/-- A call whose one change is an overlay operation on paths that it records. -/
theorem recounts_step {op : OverlayOp} (hov : t.overlay = w.overlay.step op)
    (hlog : P.Logged w t op.touched) (hop : ∀ r ∈ op.touched, ¬ P.Holds w.overlay r) :
    ∃ ps, P.Recounts w t ps :=
  recounts_paths hlog (fun q hq => by rw [hov, lookup_step hq]) hop

theorem recounts_removed {b : Bool} (hlog : P.Logged w t [p])
    (hov : t.overlay = w.overlay.step (if b then .tombstone p else .clear p))
    (hp : ¬ P.Holds w.overlay p) : ∃ ps, P.Recounts w t ps := by
  refine recounts_paths hlog (fun q hq => ?_) (by simpa using hp)
  rw [hov]
  cases b <;> exact lookup_step hq

/-- A file that is written has an entry of its own afterwards, and nothing else has another. -/
theorem recounts_opens {trunc : Prop} {x : Bool} {c : ContentId} {f : Bytes → Bytes}
    (hlog : P.Logged w t [p]) (ho : P.Opens w.overlay p trunc x c ov) (hov : t.overlay = ov.editContent c f) :
    ∃ ps, P.Recounts w t ps := by
  cases ho with
  | overlay => exact recounts_same hlog (funext fun q => by rw [hov, Overlay.lookup_editContent])
  | baseline hr _ =>
    refine recounts_paths hlog (fun q hq => ?_) fun r hmem => ?_
    · rw [hov, Overlay.lookup_editContent, lookup_step (by simpa [OverlayOp.touched] using hq)]
    · rw [List.mem_singleton.mp hmem]
      refine not_holds fun bt hbt => ?_
      rw [hr] at hbt
      cases hbt

theorem not_dir_of_entry {e : OverlayEntry} (hp : p ≠ root) (hl : ov.lookup p = some e) (he : e ≠ .dir)
    (bt : Option ObjectId) : P.resolve ov p ≠ .ok (some (.dir bt)) := by
  intro h
  rw [resolve_entry (ordinary_of_dir h hp) hl] at h
  rcases entryResolved_dir h with ⟨heq, -⟩ | ⟨-, hleaf⟩
  · exact he heq
  · exact hleaf

theorem recounts_setExecutable {x : Bool} (hroot : w.Unrooted)
    (h : (P.setExecutable ino x).run w = (.ok (), t)) : ∃ ps, P.Recounts w t ps := by
  obtain ⟨p, hp, hlog⟩ := logged_setExecutable h
  obtain ⟨-, hov⟩ := run_setExecutable h hp
  have hclear : ∀ op : OverlayOp, op.touched = [p] → t.overlay = w.overlay.step op →
      (∀ bt, P.resolve w.overlay p ≠ .ok (some (.dir bt))) → ∃ ps, P.Recounts w t ps := by
    intro op htouched hstep hdir
    refine recounts_step hstep (htouched ▸ hlog) fun r hr => ?_
    rw [htouched, List.mem_singleton] at hr
    exact hr ▸ not_holds hdir
  rcases hov with ⟨c, y, hl, hov⟩ | ⟨oid, y, bytes, hr, -, hov⟩
  · have hne : p ≠ root := by
      rintro rfl
      exact Option.some_ne_none _ (hl.symm.trans hroot)
    exact hclear _ rfl hov (not_dir_of_entry hne hl (by simp))
  · refine hclear _ rfl hov fun bt hbt => ?_
    rw [hr] at hbt
    cases hbt

theorem lookup_renames (h : P.Renames ov src dst ov') (hq : q ∉ [src, dst]) :
    ov'.lookup q = ov.lookup q := by
  have hmove : q ∉ (OverlayOp.rename src dst).touched := hq
  have hsrc : q ∉ (OverlayOp.tombstone src).touched := fun hmem => hq (by simp_all [OverlayOp.touched])
  cases h with
  | entry => exact lookup_step hmove
  | covering => rw [lookup_step hsrc, lookup_step hmove]
  | clean =>
    have hdst : ∀ oid mode, q ∉ (OverlayOp.putBaseRef dst oid mode).touched :=
      fun oid mode hmem => hq (by simp_all [OverlayOp.touched])
    rw [lookup_step hsrc, lookup_step (hdst _ _)]

theorem recounts_rename {flags : UInt32}
    (h : (P.rename fuel parent name newparent newname flags).run w = (.ok (), t))
    (hclear : ∀ src dst, w.Names parent name src → w.Names newparent newname dst →
      ¬ P.Holds w.overlay src ∧ ¬ P.Holds w.overlay dst ∧
        ((∃ bt, P.resolve w.overlay src = .ok (some (.dir bt))) → ¬ Under src dst ∧ ¬ Under dst src)) :
    ∃ ps, P.Recounts w t ps := by
  obtain ⟨src, dst, hn, hn', hlog⟩ := logged_rename h
  obtain ⟨hho, hho', happart⟩ := hclear src dst hn hn'
  obtain ⟨hsrc, hdst, v, ⟨hov, -⟩, ⟨⟨bt, hbt⟩, hdir⟩ | ⟨-, hfile⟩⟩ := run_rename_begun h hn hn'
  · obtain ⟨hsd, hds⟩ := happart ⟨bt, hbt⟩
    have hships : Ships w.overlay w.ns src dst := ⟨hsrc, hdst, hsd, hds, fun _ _ _ _ => rfl⟩
    have hns : v.ns = w.ns := by rw [World.ns, hov, World.ns]
    have hmoved := moves fuel src dst w.ns bt hships hbt v hns
    rw [hdir] at hmoved
    exact recounts_moved hlog hbt hmoved.1 hmoved.2 hho hho'
  · obtain ⟨hm, -⟩ := run_renameFile hfile
    rw [hov] at hm
    refine recounts_paths hlog (fun q hq => lookup_renames hm hq) fun r hr => ?_
    rcases List.mem_pair.mp hr with rfl | rfl
    · exact hho
    · exact hho'

end Projection

/-- What the call replaces, removes or moves has no file beneath it, and no directory moves into itself
or onto one that holds it. -/
def Op.Clear (P : Projection) (w : World) : Op → Prop
  | .create parent name _ | .symlink parent name _ | .unlink parent name =>
    ∀ p, w.Names parent name p → ¬ P.Holds w.overlay p
  | .rename parent name newparent newname _ => ∀ src dst, w.Names parent name src →
      w.Names newparent newname dst → ¬ P.Holds w.overlay src ∧ ¬ P.Holds w.overlay dst ∧
        ((∃ bt, P.resolve w.overlay src = .ok (some (.dir bt))) → ¬ Under src dst ∧ ¬ Under dst src)
  | _ => True

namespace Projection

variable {P : Projection} {u w t : World} {ps : List RepoPath}

theorem recounts_call {op : Op} {fuel : Nat} {reply : Reply} (hroot : w.Unrooted) (hop : op.Clear P w)
    (h : (op.handler P fuel).run w = (.ok reply, t)) : ∃ ps, P.Recounts w t ps := by
  have hlook : op.Looks → ∃ ps, P.Recounts w t ps := by
    intro hlooks
    have hov := hlooks.overlay h
    refine recounts_same (logged_within (op.within_ordinary P fuel) h) ?_
    rw [hov]
  cases op with
  | lookup | getattr | readdir | forget => exact hlook trivial
  | create parent name x =>
    obtain ⟨r, hrun, -⟩ := run_map_eq_ok h
    obtain ⟨p, hn, hlog⟩ := logged_create hrun
    obtain ⟨-, -, -, hov, -⟩ := run_create hrun hn
    exact recounts_step hov hlog fun r hr => List.mem_singleton.mp hr ▸ hop p hn
  | symlink parent name target =>
    obtain ⟨r, hrun, -⟩ := run_map_eq_ok h
    obtain ⟨p, hn, hlog⟩ := logged_symlink hrun
    obtain ⟨-, hov, -⟩ := run_symlink hrun hn
    exact recounts_step hov hlog fun r hr => List.mem_singleton.mp hr ▸ hop p hn
  | mkdir parent name =>
    obtain ⟨r, hrun, -⟩ := run_map_eq_ok h
    obtain ⟨p, hn, hlog⟩ := logged_mkdir hrun
    obtain ⟨hnone, hov⟩ := run_mkdir hrun hn
    exact recounts_step hov hlog fun r hr => List.mem_singleton.mp hr ▸ not_holds (by simp [hnone])
  | unlink parent name =>
    obtain ⟨_, hrun, -⟩ := run_map_eq_ok h
    obtain ⟨p, hn, hlog⟩ := logged_unlink hrun
    obtain ⟨-, b, -, hov, -⟩ := run_unlink hrun hn
    exact recounts_removed hlog hov (hop p hn)
  | rmdir parent name =>
    obtain ⟨_, hrun, -⟩ := run_map_eq_ok h
    obtain ⟨p, hn, hlog⟩ := logged_rmdir hrun
    obtain ⟨hp, hempty, bt, -, hov, -⟩ := run_rmdir hrun hn
    exact recounts_removed hlog hov (not_holds_of_empty hp hempty)
  | openWrite ino trunc =>
    obtain ⟨c, hrun, -⟩ := run_map_eq_ok h
    obtain ⟨p, hp, hlog⟩ := logged_openWrite hrun
    obtain ⟨x, ov, ho, hov, -⟩ := run_openWrite hrun hp
    exact recounts_opens hlog ho hov
  | truncate ino size =>
    obtain ⟨_, hrun, -⟩ := run_map_eq_ok h
    obtain ⟨p, hp, hlog⟩ := logged_truncate hrun
    obtain ⟨x, c, ov, ho, hov, -⟩ := run_truncate hrun hp
    exact recounts_opens hlog ho hov
  | rename parent name newparent newname flags =>
    obtain ⟨_, hrun, -⟩ := run_map_eq_ok h
    exact recounts_rename hrun hop
  | setExecutable ino x =>
    obtain ⟨_, hrun, -⟩ := run_map_eq_ok h
    exact recounts_setExecutable hroot hrun

theorem unrooted_call {op : Op} {fuel : Nat} {reply : Reply} (hroot : w.Unrooted)
    (h : (op.handler P fuel).run w = (.ok reply, t)) : t.Unrooted := by
  obtain ⟨g, hg, -⟩ := (op.announces P fuel .empty).run (A := fun _ w => w.Unrooted) (fun _ _ h => h)
    (fun _ _ _ _ _ hr hs => hr.unrooted hs) hroot
  rwa [h] at hg

end Projection

/-- What changes the working tree: a call of the projection, or a write through an open handle. -/
inductive Edit where
  | call (op : Op)
  | write (content : ContentId) (offset : Nat) (data : Bytes)

namespace Edit

/-- The edit succeeds. -/
def Step (P : Projection) (w : World) : Edit → World → Prop
  | call op, t => ∃ fuel reply, (op.handler P fuel).run w = (.ok reply, t)
  | write content offset data, t => t = w.write content offset data

def Clear (P : Projection) (w : World) : Edit → Prop
  | call op => op.Clear P w
  | write _ _ _ => True

def ClearStep (P : Projection) (w : World) (e : Edit) (t : World) : Prop := e.Clear P w ∧ e.Step P w t

end Edit

namespace Projection

variable {P : Projection} {u w t : World} {ov ov' : Overlay} {p q : RepoPath} {ps : List RepoPath}
  {bytes : Bytes}

theorem recounts_write (w : World) (c : ContentId) (offset : Nat) (data : Bytes) :
    P.Recounts w (w.write c offset data) [] := by
  have hsame : (w.write c offset data).overlay.lookup = w.overlay.lookup :=
    Overlay.lookup_editContent w.overlay c _
  exact ⟨World.appended_of_eq rfl, fun q e he hf => .inr ⟨e, by rwa [← hsame], hf⟩,
    fun _ _ _ m _ => congrFun hsame m⟩

theorem recounts_edit {e : Edit} (hroot : w.Unrooted) (h : e.ClearStep P w t) :
    (∃ ps, P.Recounts w t ps) ∧ t.Unrooted := by
  obtain ⟨hclear, hstep⟩ := h
  cases e with
  | call op =>
    obtain ⟨fuel, reply, hrun⟩ := hstep
    exact ⟨recounts_call hroot hclear hrun, unrooted_call hroot hrun⟩
  | write c offset data =>
    obtain rfl := hstep
    refine ⟨⟨[], recounts_write w c offset data⟩, ?_⟩
    show (w.overlay.editContent c _).lookup root = none
    rw [Overlay.lookup_editContent]
    exact hroot

theorem recounts_run {edits : List Edit} (h : Trace (Edit.ClearStep P) u edits w) (hroot : u.Unrooted) :
    ∃ ps, P.Recounts u w ps := by
  induction h with
  | nil u => exact ⟨[], World.appended_of_eq rfl, fun q e he hf => .inr ⟨e, he, hf⟩, fun _ _ _ _ _ => rfl⟩
  | cons hstep _ ih =>
    obtain ⟨⟨ps, hps⟩, hroot'⟩ := recounts_edit hroot hstep
    obtain ⟨qs, hqs⟩ := ih hroot'
    exact ⟨ps ++ qs, hps.trans hqs⟩

/-! Files that no record names. -/

theorem not_gitfile (hp : p.Ordinary) : P.resolve ov p ≠ .ok (some .gitfile) := by
  intro h
  cases hl : ov.lookup p with
  | none => exact GitStore.walk_ofTree (not_masked h hp hl).2
  | some e =>
    rw [resolve_entry hp hl] at h
    rcases entryResolved_dir h with ⟨-, bt, hbt, -⟩ | ⟨-, hleaf⟩
    · cases hbt
    · exact hleaf

theorem TreeFile.fileAt (h : P.TreeFile ov q bytes) : P.FileAt ov root q := by
  obtain ⟨hord, hreach, x, hv⟩ := h
  refine ⟨hreach, ?_⟩
  rw [visible] at hv
  cases hr : P.resolve ov q with
  | error e =>
    rw [hr] at hv
    cases hv
  | ok o =>
    rw [hr] at hv
    cases o with
    | none => cases hv
    | some r =>
      obtain ⟨n, hn, hsome⟩ := Except.bind_eq_ok.mp hv
      cases hsome
      cases r with
      | file source y => exact ⟨source, y, rfl⟩
      | dir => cases hn
      | gitfile => exact (not_gitfile hord hr).elim
      | symlink source =>
        cases source with
        | overlay => cases hn
        | baseline =>
          obtain ⟨_, -, hsym⟩ := Except.bind_eq_ok.mp hn
          cases hsym

theorem resolve_fresh (pid : Nat) (hp : p.Ordinary) :
    P.resolve (Overlay.fresh pid) p = P.baselineResolve p := by
  have hmask : (Overlay.fresh pid).ancestorTombstoned p = false := by
    rw [Bool.eq_false_iff, Ne, Overlay.ancestorTombstoned_iff]
    rintro ⟨m, -, -, -, ht⟩
    cases ht
  rw [resolve_unset hp rfl, hmask]
  rfl

/-- Above a file of the baseline there are directories of the baseline. -/
theorem resolve_fresh_above {bt : Option ObjectId} {source : FileSource} {x : Bool} (pid : Nat)
    (hb : P.baselineResolve q = .ok (some (.file source x))) (hu : Under p q) (hne : p ≠ q)
    (hp : P.resolve ov p = .ok (some (.dir bt))) :
    ∃ bt', P.resolve (Overlay.fresh pid) p = .ok (some (.dir bt')) := by
  by_cases hroot : p = root
  · exact ⟨_, by rw [hroot]; rfl⟩
  · rw [resolve_fresh pid (ordinary_of_dir hp hroot)]
    obtain ⟨r, hr, -⟩ := resolve_baseline hp hroot
    have hnone : (∀ y, r = some y → y.isDir = false) → False := by
      intro hleaf
      rw [baselineResolve_below hroot hr hleaf hu (Ne.symm hne)] at hb
      cases hb
    cases r with
    | none => exact (hnone (by simp)).elim
    | some y =>
      cases y with
      | dir bt' => exact ⟨bt', hr⟩
      | file | symlink | gitfile => exact (hnone (by rintro _ ⟨⟩; rfl)).elim

/-- A file that no record names is a file of the tree if and only if it was one at the start, with the
same bytes. -/
theorem treeFile_unrecorded {pid : Nat} (h : P.Recounts (World.journaledFresh pid) w ps) (hq : q ∉ ps) :
    P.TreeFile w.overlay q bytes ↔ P.TreeFile (Overlay.fresh pid) q bytes := by
  constructor
  · intro hfile
    obtain ⟨hreach, source, x, hr⟩ := hfile.fileAt
    obtain ⟨hord, -, y, hv⟩ := hfile
    have hnone : w.overlay.lookup q = none := by
      cases hl : w.overlay.lookup q with
      | none => rfl
      | some e =>
        rw [resolve_entry hord hl] at hr
        rcases h.entries q e hl (hasFile_of_entryResolved hr) with hmem | ⟨e', he', -⟩
        · exact (hq hmem).elim
        · cases he'
    have hb := (not_masked hr hord hnone).2
    refine ⟨hord, fun m hu hm hne => ?_, y, ?_⟩
    · obtain ⟨bt, hbt⟩ := hreach m hu hm hne
      exact resolve_fresh_above pid hb hm hne hbt
    · rw [visible, hr, ← hb] at hv
      rw [visible, resolve_fresh pid hord, seen_baseline _ w.overlay]
      exact hv
  · intro hfile
    have hsame := h.kept q hfile.fileAt hq
    obtain ⟨hord, hreach, y, hv⟩ := hfile
    refine ⟨hord, (reached_congr hsame).mpr hreach, y, ?_⟩
    rw [visible_congr hsame fun c x hl => ?_]
    · exact hv
    · rw [hsame q (.refl q)] at hl
      cases hl

end Projection

end LazyMount
