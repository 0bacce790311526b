import LazyMount.Mount

/-! What the handlers do to the inode table: some look paths up in it, some unlink a path, and a
rename moves names about. -/

namespace LazyMount

open Function (update)
open Prog Handler

namespace InodeTable

variable {t u v : InodeTable} {i : Nat}

/-- The table's count of references to an inode; nobody refers to one that it does not have. -/
def count (t : InodeTable) (i : Nat) : Nat := ((t.entries i).map (·.lookups)).getD 0

theorem count_of_entries {e : InodeEntry} (h : t.entries i = some e) : t.count i = e.lookups := by
  rw [count, h]
  rfl

theorem pathOf_of_entries {e : InodeEntry} (h : t.entries i = some e) : t.pathOf i = e.path := by
  rw [pathOf, h]
  rfl

/-- A lookup counts one inode up, which has the path's name or is new. -/
theorem entries_lookup (t : InodeTable) (p : RepoPath) : (t.lookup p).2.entries =
    update t.entries (t.lookup p).1.1
      (some ⟨some p, t.count (t.lookup p).1.1 + 1, (t.lookup p).1.2⟩) := by
  unfold lookup
  split
  · rename_i ino h
    obtain ⟨e, he, hp⟩ := (t.pathToIno_iff p ino).mp h
    split
    · rename_i e' he'
      obtain rfl : e = e' := Option.some.inj (he.symm.trans he')
      simp only [setEntry, count_of_entries he, hp]
    · simp_all
  · rename_i h
    have hnone : t.entries t.nextIno = none := by
      by_contra hn
      obtain ⟨e, he⟩ := Option.ne_none_iff_exists'.mp hn
      exact (t.lt_nextIno _ e he).ne rfl
    simp only [alloc, count, hnone]
    rfl

theorem path_of_lookup {t : InodeTable} {p : RepoPath} {e : InodeEntry}
    (h : t.entries (t.lookup p).1.1 = some e) : e.path = some p := by
  unfold lookup at h
  split at h
  · rename_i ino hino
    obtain ⟨e', he', hp⟩ := (t.pathToIno_iff p ino).mp hino
    split at h
    · rw [← hp, ← Option.some.inj (he'.symm.trans h)]
    · rw [← hp, ← Option.some.inj (he'.symm.trans h)]
  · exact ((t.lt_nextIno _ e h).ne rfl).elim

theorem count_lookup (t : InodeTable) (p : RepoPath) (i : Nat) : (t.lookup p).2.count i =
    if i = (t.lookup p).1.1 then t.count i + 1 else t.count i := by
  rw [count, entries_lookup]
  by_cases hi : i = (t.lookup p).1.1
  · rw [if_pos hi, hi, Function.update_self]
    rfl
  · rw [if_neg hi, Function.update_of_ne hi, count]

theorem lookup_of_pathOf {p : RepoPath} (h : t.pathOf i = some p) : (t.lookup p).1.1 = i := by
  have hi : t.pathToIno p = some i := by
    rw [t.pathToIno_iff]
    cases he : t.entries i with
    | none =>
      rw [pathOf, he] at h
      cases h
    | some e => exact ⟨e, rfl, by rwa [pathOf_of_entries he] at h⟩
  unfold lookup
  split
  · rename_i ino hino
    obtain rfl : i = ino := Option.some.inj (hi.symm.trans hino)
    split <;> rfl
  · rename_i hn
    rw [hi] at hn
    cases hn

/-- What lookups do: an inode keeps its name and is counted up, and one without a name is left
alone. -/
structure Grown (t u : InodeTable) : Prop where
  keeps : ∀ i e, t.entries i = some e → ∃ e', u.entries i = some e' ∧ e'.path = e.path ∧
    (e.path = none → e' = e)
  named : ∀ i, t.entries i = none → u.entries i ≠ none → u.pathOf i ≠ none

theorem grown_refl (t : InodeTable) : Grown t t :=
  ⟨fun _ e he => ⟨e, he, rfl, fun _ => rfl⟩, fun _ h hn => (hn h).elim⟩

theorem Grown.trans (h : Grown t u) (h' : Grown u v) : Grown t v := by
  refine ⟨fun i e he => ?_, fun i hi hn => ?_⟩
  · obtain ⟨e₁, he₁, hp₁, hn₁⟩ := h.keeps i e he
    obtain ⟨e₂, he₂, hp₂, hn₂⟩ := h'.keeps i e₁ he₁
    refine ⟨e₂, he₂, hp₂.trans hp₁, fun hp => ?_⟩
    rw [hn₂ (hp₁.trans hp), hn₁ hp]
  · cases hu : u.entries i with
    | none => exact h'.named i hu hn
    | some e =>
      obtain ⟨e', he', hp, -⟩ := h'.keeps i e hu
      rw [pathOf_of_entries he', hp, ← pathOf_of_entries hu]
      exact h.named i hi (by rw [hu]; simp)

theorem grown_lookup (t : InodeTable) (p : RepoPath) : Grown t (t.lookup p).2 := by
  refine ⟨fun i e he => ?_, fun i hi hn => ?_⟩ <;> by_cases hl : i = (t.lookup p).1.1
  · have hp : e.path = some p := path_of_lookup (hl ▸ he)
    refine ⟨⟨some p, t.count (t.lookup p).1.1 + 1, (t.lookup p).1.2⟩, ?_, hp.symm, fun hnone => ?_⟩
    · rw [entries_lookup, hl, Function.update_self]
    · rw [hp] at hnone
      cases hnone
  · exact ⟨e, by rw [entries_lookup, Function.update_of_ne hl, he], rfl, fun _ => rfl⟩
  · rw [hl, pathOf_lookup]
    simp
  · rw [entries_lookup, Function.update_of_ne hl] at hn
    exact (hn hi).elim

/-- What an unlink does: an inode loses its name, or goes if nobody refers to it. -/
def Unlinked (t u : InodeTable) : Prop :=
  ∀ i, u.entries i = t.entries i ∨ ∃ e, t.entries i = some e ∧ e.path ≠ none ∧
    u.entries i = if e.lookups = 0 then none else some { e with path := none }

theorem unlinked_refl (t : InodeTable) : Unlinked t t := fun _ => .inl rfl

theorem Unlinked.trans (h : Unlinked t u) (h' : Unlinked u v) : Unlinked t v := by
  intro i
  rcases h i with hi | ⟨e, he, hp, hi⟩
  · rcases h' i with hi' | ⟨e, he, hp, hi'⟩
    · exact .inl (hi'.trans hi)
    · exact .inr ⟨e, hi ▸ he, hp, hi'⟩
  · rcases h' i with hi' | ⟨e', he', hp', -⟩
    · exact .inr ⟨e, he, hp, hi'.trans hi⟩
    · rw [hi] at he'
      split at he' <;> cases he'
      exact (hp' rfl).elim

theorem unlinked_unlink (t : InodeTable) (p : RepoPath) : Unlinked t (t.unlink p) := by
  intro i
  unfold unlink
  split
  · rename_i ino h
    obtain ⟨e, he, hp⟩ := (t.pathToIno_iff p ino).mp h
    by_cases hi : i = ino
    · subst hi
      refine .inr ⟨e, he, by rw [hp]; simp, ?_⟩
      simp only [Function.update_self, he, Option.bind_some]
    · exact .inl (Function.update_of_ne hi ..)
  · exact .inl rfl

theorem Unlinked.count_le (h : Unlinked t u) (i : Nat) : u.count i ≤ t.count i := by
  rcases h i with hi | ⟨e, he, -, hi⟩
  · rw [count, hi, count]
  · rw [count, hi, count_of_entries he]
    split
    · exact Nat.zero_le _
    · exact le_refl _

/-- What a rename does: an inode may lose its name, and nobody is counted. -/
def Renamed (t u : InodeTable) : Prop :=
  ∀ i, (u.entries i).map (·.lookups) = (t.entries i).map (·.lookups) ∧
    (t.pathOf i = none → u.pathOf i = none)

theorem renamed_refl (t : InodeTable) : Renamed t t := fun _ => ⟨rfl, id⟩

theorem Renamed.trans (h : Renamed t u) (h' : Renamed u v) : Renamed t v := fun i =>
  ⟨(h' i).1.trans (h i).1, fun hp => (h' i).2 ((h i).2 hp)⟩

theorem Renamed.count_eq (h : Renamed t u) (i : Nat) : u.count i = t.count i := by
  rw [count, (h i).1, count]

theorem renamed_rename (t : InodeTable) (old new : RepoPath) : Renamed t (t.rename old new) := by
  intro i
  unfold rename
  split
  · rename_i ino h
    obtain ⟨e, he, hp⟩ := (t.pathToIno_iff old ino).mp h
    by_cases hi : i = ino
    · subst hi
      refine ⟨?_, fun hn => ?_⟩
      · simp only [if_true, Option.map_map]
        rfl
      · rw [pathOf_of_entries he, hp] at hn
        cases hn
    · simp only [pathOf, if_neg hi]
      split
      · refine ⟨by rw [Option.map_map]; rfl, fun _ => ?_⟩
        cases t.entries i <;> rfl
      · exact ⟨rfl, id⟩
  · exact ⟨rfl, id⟩

end InodeTable

/-- A step that leaves the table alone, or changes it as `F` says. -/
inductive TableStep (F : (InodeTable → InodeTable) → Prop) : Action → (World → World) → Prop
  | other {l : Action} {upd : World → World} (h : ∀ w, (upd w).inodes = w.inodes) : TableStep F l upd
  | inode {f : InodeTable → InodeTable} (h : F f) :
    TableStep F .inode fun w => { w with inodes := f w.inodes }

/-- `InodeTable::lookup` -/
def TableLookup (f : InodeTable → InodeTable) : Prop := ∃ p, f = fun t => (t.lookup p).2

def TableUnlink (f : InodeTable → InodeTable) : Prop := ∃ p, f = (·.unlink p)

def TableRename (f : InodeTable → InodeTable) : Prop := ∃ old new, f = (·.rename old new)

/-- The step is a call of `InodeTable::lookup` that returns this inode. -/
def LooksUp (i : Nat) (_ : Action) (upd : World → World) (w : World) : Prop :=
  ∃ p, (upd w).inodes = (w.inodes.lookup p).2 ∧ (w.inodes.lookup p).1.1 = i

namespace Projection

variable {F : (InodeTable → InodeTable) → Prop} {P : Projection} {α : Type}

theorem tableStep_read {l : Action} {f : World → Except Error α} :
    Within (TableStep F) Eq (.read l f : Handler α) :=
  within_atom (.other fun _ => rfl) fun _ _ h => congrArg f h

theorem tableStep_mutate (op : OverlayOp) : Within (TableStep F) Eq (mutate op) :=
  within_atom (.other fun _ => rfl) fun _ _ _ => rfl

theorem tableStep_createFile (p : RepoPath) (x : Bool) (seed : Option Bytes) :
    Within (TableStep F) Eq (createFile p x seed) :=
  within_atom (.other fun _ => rfl) fun _ _ h => by rw [h]

theorem tableStep_editContent (c : ContentId) (f : Bytes → Bytes) :
    Within (TableStep F) Eq (editContent c f) :=
  within_atom (.other fun _ => rfl) fun _ _ _ => rfl

theorem tableStep_recordChangeFile (p : RepoPath) : Within (TableStep F) Eq (P.recordChangeFile p) :=
  within_atom (.other fun _ => rfl) fun _ _ _ => rfl

theorem tableStep_recordChange (p : RepoPath) : Within (TableStep F) Eq (P.recordChange p) := by
  refine within_bind (tableStep_recordChangeFile p) fun _ => ?_
  split
  · split
    · exact within_pure ()
    · exact tableStep_recordChangeFile _
  · exact within_pure ()

theorem tableStep_childPath (parent : Nat) (name : Bytes) :
    Within (TableStep F) Eq (childPath parent name) := by
  refine within_bind tableStep_read fun dir => within_bind (within_liftExcept _) fun path => ?_
  split
  · exact within_fail _
  · exact within_pure _

theorem tableStep_attrOf (ino generation : Nat) (r : Resolved) :
    Within (TableStep F) Eq (P.attrOf ino generation r) := by
  cases r with
  | dir | gitfile => exact within_pure _
  | file source x => cases source <;> exact within_bind tableStep_read fun _ => within_pure _
  | symlink source =>
    cases source with
    | overlay target => exact within_pure _
    | baseline oid => exact within_bind tableStep_read fun _ => within_pure _

theorem tableStep_inodeLookup (p : RepoPath) : Within (TableStep TableLookup) Eq (inodeLookup p) :=
  within_atom (.inode (f := fun t => (t.lookup p).2) ⟨p, rfl⟩) fun _ _ h => by rw [h]

/-! The handlers that look paths up. -/

theorem tableStep_lookup (parent : Nat) (name : Bytes) :
    Within (TableStep TableLookup) Eq (P.lookup parent name) := by
  refine within_bind tableStep_read fun _ => within_bind (within_liftExcept _) fun child =>
    within_bind tableStep_read fun r => ?_
  cases r with
  | none => exact within_pure _
  | some r =>
    exact within_bind (tableStep_inodeLookup child) fun _ =>
      within_bind (tableStep_attrOf _ _ r) fun _ => within_pure _

theorem tableStep_getattr (ino : Nat) : Within (TableStep TableLookup) Eq (P.getattr ino) := by
  refine within_bind tableStep_read fun path => within_bind tableStep_read fun r => ?_
  cases r with
  | none => exact within_fail _
  | some r => exact within_bind (tableStep_inodeLookup path) fun _ => tableStep_attrOf _ _ r

theorem tableStep_push (path : RepoPath) (name : Bytes) (kind : Kind) :
    Within (TableStep TableLookup) Eq (push path name kind) :=
  within_bind (within_liftExcept _) fun child =>
    within_bind (tableStep_inodeLookup child) fun _ => within_pure _

theorem tableStep_listBaseline (path : RepoPath) (e : TreeEntry) :
    Within (TableStep TableLookup) Eq (listBaseline path e) := by
  rw [listBaseline]
  split
  · exact within_pure _
  · refine within_bind (within_liftExcept _) fun child => within_bind tableStep_read fun o => ?_
    cases o with
    | none => exact tableStep_push path e.name e.mode.kind
    | some => exact within_pure _

theorem tableStep_listOverlay (path : RepoPath) (child : Bytes × OverlayEntry) :
    Within (TableStep TableLookup) Eq (listOverlay path child) := by
  rw [listOverlay]
  split
  · exact within_pure _
  all_goals exact tableStep_push _ _ _

theorem tableStep_readdir (ino : Nat) : Within (TableStep TableLookup) Eq (P.readdir ino) := by
  refine within_bind tableStep_read fun path => within_bind tableStep_read fun r => ?_
  split
  · refine within_bind tableStep_read fun entries =>
      within_bind (within_collect (tableStep_listBaseline path)) fun _ => within_bind tableStep_read fun kids =>
      within_bind (within_collect (tableStep_listOverlay path)) fun _ => within_bind ?_ fun _ => within_pure _
    split
    · exact tableStep_push _ _ _
    · exact within_pure _
  · exact within_fail _

theorem tableStep_create (parent : Nat) (name : Bytes) (x : Bool) :
    Within (TableStep TableLookup) Eq (P.create parent name x) :=
  within_bind (tableStep_childPath parent name) fun path => within_bind (tableStep_recordChange path) fun _ =>
    within_bind (tableStep_createFile path x none) fun _ =>
    within_bind (tableStep_inodeLookup path) fun _ => within_pure _

theorem tableStep_mkdir (parent : Nat) (name : Bytes) :
    Within (TableStep TableLookup) Eq (P.mkdir parent name) := by
  refine within_bind (tableStep_childPath parent name) fun path => within_bind tableStep_read fun r => ?_
  cases r with
  | some r => exact within_fail _
  | none =>
    exact within_bind (tableStep_recordChange path) fun _ => within_bind (tableStep_mutate _) fun _ =>
      within_bind (tableStep_inodeLookup path) fun _ => within_pure _

theorem tableStep_symlink (parent : Nat) (name target : Bytes) :
    Within (TableStep TableLookup) Eq (P.symlink parent name target) :=
  within_bind (tableStep_childPath parent name) fun path => within_bind (tableStep_recordChange path) fun _ =>
    within_bind (tableStep_mutate _) fun _ => within_bind (tableStep_inodeLookup path) fun _ => within_pure _

/-! The handlers that leave the table alone. -/

theorem tableStep_openWrite (ino : Nat) (trunc : Bool) :
    Within (TableStep F) Eq (P.openWrite ino trunc) := by
  refine within_bind tableStep_read fun path => within_bind (tableStep_recordChangeFile path) fun _ =>
    within_bind tableStep_read fun o => ?_
  split
  · exact within_bind tableStep_read fun c => within_bind (within_whenever (tableStep_editContent c _)) fun _ =>
      within_pure _
  · refine within_bind tableStep_read fun r => ?_
    split
    · refine within_bind ?_ fun _ => tableStep_createFile _ _ _
      split
      · exact within_pure _
      · exact within_map _ tableStep_read
    · exact within_fail _

theorem tableStep_truncate (ino size : Nat) : Within (TableStep F) Eq (P.truncate ino size) := by
  refine within_bind tableStep_read fun path => within_bind tableStep_read fun o => ?_
  split
  · exact within_bind (tableStep_recordChangeFile path) fun _ => within_bind tableStep_read fun c =>
      tableStep_editContent c _
  · refine within_bind tableStep_read fun r => ?_
    split
    · refine within_bind (tableStep_recordChangeFile path) fun _ => within_bind ?_ fun _ =>
        within_bind (tableStep_createFile _ _ _) fun _ => tableStep_editContent _ _
      split
      · exact within_pure _
      · exact within_map _ tableStep_read
    · exact within_fail _

theorem tableStep_setExecutable (ino : Nat) (x : Bool) :
    Within (TableStep F) Eq (P.setExecutable ino x) := by
  refine within_bind tableStep_read fun path => within_bind (tableStep_recordChangeFile path) fun _ =>
    within_bind tableStep_read fun o => ?_
  split
  · exact within_atom (.other fun _ => rfl) fun _ _ h => by rw [h]
  · refine within_bind tableStep_read fun r => ?_
    split
    · exact within_bind tableStep_read fun _ => within_bind (tableStep_createFile _ _ _) fun _ => within_pure _
    · exact within_fail _

theorem tableStep_openRead (ino : Nat) : Within (TableStep F) Eq (P.openRead ino) := by
  refine within_bind tableStep_read fun path => within_bind tableStep_read fun r => ?_
  split
  · exact within_fail _
  · exact within_pure _
  · exact within_map _ tableStep_read
  · exact within_bind tableStep_read fun _ => within_pure _
  · exact within_fail _
  · exact within_fail _

theorem tableStep_setattr (ino : Nat) (mode : Option UInt32) (size : Option Nat) :
    Within (TableStep TableLookup) Eq (P.setattr ino mode size) := by
  have hsize : Within (TableStep TableLookup) Eq (P.setSize ino size) := by
    cases size with
    | none => exact within_pure ()
    | some len => exact tableStep_truncate ino len
  have hmode : Within (TableStep TableLookup) Eq (P.setMode ino mode) := by
    cases mode with
    | none => exact within_pure ()
    | some m => exact tableStep_setExecutable ino _
  exact within_bind hsize fun _ => within_bind hmode fun _ => tableStep_getattr ino

/-! The handlers that unlink or move names. -/

theorem tableStep_removeName (p : RepoPath) (onBaseline : Bool) :
    Within (TableStep TableUnlink) Eq (P.removeName p onBaseline) :=
  within_bind (tableStep_recordChange p) fun _ => within_bind (tableStep_mutate _) fun _ =>
    within_atom (.inode (f := (·.unlink p)) ⟨p, rfl⟩) fun _ _ _ => rfl

theorem tableStep_unlink (parent : Nat) (name : Bytes) :
    Within (TableStep TableUnlink) Eq (P.unlink parent name) := by
  refine within_bind (tableStep_childPath parent name) fun path => within_bind tableStep_read fun r => ?_
  split
  · exact tableStep_removeName path true
  · refine within_bind tableStep_read fun o => ?_
    cases o with
    | none => exact within_fail _
    | some e => exact tableStep_removeName path false

theorem tableStep_rmdir (parent : Nat) (name : Bytes) :
    Within (TableStep TableUnlink) Eq (P.rmdir parent name) := by
  refine within_bind (tableStep_childPath parent name) fun path => within_bind tableStep_read fun c => ?_
  split
  · refine within_bind tableStep_read fun r => ?_
    split
    · exact tableStep_removeName path true
    · refine within_bind tableStep_read fun o => ?_
      cases o with
      | none => exact within_fail _
      | some e => exact tableStep_removeName path false
  · exact within_fail _

theorem tableStep_inodeRename (old new : RepoPath) : Within (TableStep TableRename) Eq (inodeRename old new) :=
  within_atom (.inode (f := (·.rename old new)) ⟨old, new, rfl⟩) fun _ _ _ => rfl

theorem tableStep_renameDir (fuel : Nat) (src dst : RepoPath) :
    Within (TableStep TableRename) Eq (P.renameDir fuel src dst) := by
  induction fuel generalizing src dst with
  | zero => exact within_diverge
  | succ fuel ih =>
    refine within_bind (tableStep_mutate _) fun _ => within_bind tableStep_read fun kids =>
      within_bind (within_each fun kid => ?_) fun _ => within_bind (tableStep_mutate _) fun _ =>
      tableStep_inodeRename src dst
    refine within_bind (within_liftExcept _) fun cs => within_bind (within_liftExcept _) fun cd => ?_
    split
    · exact ih cs cd
    · cases moveChild cs cd kid.2 with
      | none => exact within_pure _
      | some op => exact within_bind (tableStep_mutate op) fun _ => tableStep_inodeRename cs cd

theorem tableStep_renameFile (src dst : RepoPath) :
    Within (TableStep TableRename) Eq (P.renameFile src dst) := by
  refine within_bind tableStep_read fun o => ?_
  cases o with
  | some e =>
    exact within_bind (tableStep_mutate _) fun _ => within_bind tableStep_read fun _ =>
      within_bind (within_whenever (tableStep_mutate _)) fun _ => tableStep_inodeRename src dst
  | none =>
    refine within_bind tableStep_read fun r => ?_
    split
    · exact within_bind (tableStep_mutate _) fun _ => within_bind (tableStep_mutate _) fun _ =>
        tableStep_inodeRename src dst
    · exact within_bind (tableStep_mutate _) fun _ => within_bind (tableStep_mutate _) fun _ =>
        tableStep_inodeRename src dst
    · exact within_fail _

theorem tableStep_rename (fuel parent : Nat) (name : Bytes) (newparent : Nat) (newname : Bytes)
    (flags : UInt32) :
    Within (TableStep TableRename) Eq (P.rename fuel parent name newparent newname flags) := by
  refine within_bind (tableStep_childPath parent name) fun src =>
    within_bind (tableStep_childPath newparent newname) fun dst => ?_
  split
  · exact within_fail _
  · refine within_bind ?_ fun occupied => ?_
    · split
      · exact within_map _ tableStep_read
      · exact within_pure _
    · split
      · exact within_fail _
      · refine within_bind (tableStep_recordChange src) fun _ => within_bind (tableStep_recordChange dst) fun _ =>
          within_bind tableStep_read fun r => ?_
        split
        · exact tableStep_renameDir fuel src dst
        · exact tableStep_renameFile src dst

end Projection

namespace TableStep

variable {α : Type} {m : Handler α} {w : World}

theorem run_of {F : (InodeTable → InodeTable) → Prop} {R : InodeTable → InodeTable → Prop}
    (hm : Within (TableStep F) Eq m) (hrefl : ∀ t, R t t) (htrans : ∀ t u v, R t u → R u v → R t v)
    (hF : ∀ f, F f → ∀ t, R t (f t)) (w : World) : R w.inodes (m.run w).2.inodes := by
  refine hm.run (I := fun v => R w.inodes v.inodes) (fun l upd hs v hv => ?_) (hrefl _)
  cases hs with
  | other h => rwa [h]
  | inode h => exact htrans _ _ _ hv (hF _ h _)

theorem grown_run (hm : Within (TableStep TableLookup) Eq m) (w : World) :
    InodeTable.Grown w.inodes (m.run w).2.inodes :=
  run_of hm InodeTable.grown_refl (fun _ _ _ => .trans)
    (by rintro f ⟨p, rfl⟩ t; exact t.grown_lookup p) w

theorem unlinked_run (hm : Within (TableStep TableUnlink) Eq m) (w : World) :
    InodeTable.Unlinked w.inodes (m.run w).2.inodes :=
  run_of hm InodeTable.unlinked_refl (fun _ _ _ => .trans)
    (by rintro f ⟨p, rfl⟩ t; exact t.unlinked_unlink p) w

theorem renamed_run (hm : Within (TableStep TableRename) Eq m) (w : World) :
    InodeTable.Renamed w.inodes (m.run w).2.inodes :=
  run_of hm InodeTable.renamed_refl (fun _ _ _ => .trans)
    (by rintro f ⟨old, new, rfl⟩ t; exact t.renamed_rename old new) w

theorem count_of_looksUp {i : Nat} {l : Action} {upd : World → World} (h : LooksUp i l upd w) :
    (upd w).inodes.count i = w.inodes.count i + 1 := by
  obtain ⟨p, hi, rfl⟩ := h
  rw [hi, InodeTable.count_lookup, if_pos rfl]

/-- A handler that calls `InodeTable::lookup` for an inode counts it up, and only such a one does. -/
theorem meets_iff_count (hm : Within (TableStep TableLookup) Eq m) (w : World) (i : Nat) :
    w.inodes.count i ≤ (m.run w).2.inodes.count i ∧
      (m.Meets (LooksUp i) w ↔ w.inodes.count i < (m.run w).2.inodes.count i) := by
  refine hm.meets_iff (f := fun w => w.inodes.count i) (fun l upd v _ he => ?_)
    (fun l upd v hs hn => ?_) w
  · rw [count_of_looksUp he]
    exact Nat.lt_succ_self _
  · cases hs with
    | other h => rw [h]
    | inode h =>
      obtain ⟨p, rfl⟩ := h
      show (v.inodes.lookup p).2.count i = _
      rw [InodeTable.count_lookup, if_neg]
      rintro rfl
      exact hn ⟨p, rfl, rfl⟩

theorem meets_map {β : Type} {f : α → β} {w : World} {i : Nat} (hm : Within (TableStep TableLookup) Eq m) :
    (f <$> m).Meets (LooksUp i) w ↔ m.Meets (LooksUp i) w := by
  rw [(meets_iff_count hm w i).2, (meets_iff_count (within_map f hm) w i).2, run_map_snd]

theorem not_meets_of {F : (InodeTable → InodeTable) → Prop} (hm : Within (TableStep F) Eq m)
    {i : Nat} (hF : ∀ f, F f → ∀ t, (f t).count i ≤ t.count i) (w : World) :
    ¬ m.Meets (LooksUp i) w := by
  refine hm.not_meets (fun l upd v hs he => ?_) w
  have hup := count_of_looksUp he
  cases hs with
  | other h =>
    rw [h] at hup
    omega
  | @inode f h =>
    have hle : (f v.inodes).count i ≤ v.inodes.count i := hF f h v.inodes
    have hlt : (f v.inodes).count i = v.inodes.count i + 1 := hup
    omega

theorem not_meets_unlinks (hm : Within (TableStep TableUnlink) Eq m) (w : World) (i : Nat) :
    ¬ m.Meets (LooksUp i) w :=
  not_meets_of hm (by rintro f ⟨p, rfl⟩ t; exact (t.unlinked_unlink p).count_le i) w

theorem not_meets_renames (hm : Within (TableStep TableRename) Eq m) (w : World) (i : Nat) :
    ¬ m.Meets (LooksUp i) w :=
  not_meets_of hm (by rintro f ⟨old, new, rfl⟩ t; exact ((t.renamed_rename old new).count_eq i).le) w

end TableStep

end LazyMount
