import LazyMount.FileRefinement
import LazyMount.TableSteps

/-! The kernel's count of references to an inode beside the count of the table. -/

namespace LazyMount

open Prog Handler Transition

/-- The inode that the reply returns together with a reference to it. -/
def Op.grants : Op → Reply → Option Nat
  | .lookup _ _, .attr a | .mkdir _ _, .attr a | .symlink _ _ _, .attr a => a.map Attr.ino
  | .create _ _ _, .opened a _ => a.map Attr.ino
  | _, _ => none

namespace Callback

/-- The callback as a handler of the inode that its reply grants a reference to. -/
def granting (P : Projection) (fuel : Nat) : Callback → Handler (Option Nat)
  | .call op => op.grants <$> op.handler P fuel
  | .openFile ino flags =>
    if flags &&& oAccmode ≠ 0 then (fun _ => none) <$> P.openWrite ino (flags &&& oTrunc ≠ 0)
    else (fun _ => none) <$> P.openRead ino
  | .create parent name mode => (fun r => some r.1.ino) <$> P.create parent name (mode &&& 0o111 ≠ 0)
  | .setattr ino mode size => (fun _ => none) <$> P.setattr ino mode size
  | .write _ _ _ | .release _ => pure none

def reply (P : Projection) (fuel : Nat) (w : World) (c : Callback) : Outcome Error (Option Nat) :=
  ((c.granting P fuel).run w).1

def forgets (i : Nat) : Callback → Nat
  | .call (.forget ino n) => if ino = i then n else 0
  | _ => 0

def IsRename : Callback → Prop
  | .call (.rename _ _ _ _ _) => True
  | _ => False

/-- The kernel forgets references that it has. -/
def Honest (refs : Nat → Nat) : Callback → Prop
  | .call (.forget ino n) => 0 < n ∧ n ≤ refs ino
  | _ => True

end Callback

/-- The mount and the kernel's counts. `unpaid` are the inodes that a callback has looked up without
a reply that grants a reference, `missed` those that a rename has evicted while the kernel had no
reference to them. -/
structure Ledger where
  fs : TransparentFs
  refs : Nat → Nat
  unpaid : Set Nat
  missed : Set Nat

namespace Ledger

def start (w : World) : Ledger := ⟨.start w, fun _ => 0, ∅, ∅⟩

def table (v : Ledger) : InodeTable := v.fs.world.inodes

/-- The books after a callback that leaves the mount at `fs`. -/
def after (P : Projection) (fuel : Nat) (v : Ledger) (c : Callback) (fs : TransparentFs) : Ledger where
  fs := fs
  refs i := v.refs i - c.forgets i + if c.reply P fuel v.fs.world = .ok (some i) then 1 else 0
  unpaid := {i | i ∈ v.unpaid ∨ (c.granting P fuel).Meets (LooksUp i) v.fs.world ∧
    c.reply P fuel v.fs.world ≠ .ok (some i)}
  missed := {i | i ∈ v.missed ∨ c.IsRename ∧ v.refs i = 0 ∧ v.table.pathOf i ≠ none ∧
    fs.world.inodes.pathOf i = none}

/-- One callback, answered before the next. -/
def Step (P : Projection) (v : Ledger) (c : Callback) (v' : Ledger) : Prop :=
  c.Honest v.refs ∧ ∃ fuel fs, v.fs.step P fuel c = some fs ∧ v' = v.after P fuel c fs

/-- The inode was handed out, and unlinked or evicted since. -/
def Nameless (v : Ledger) (i : Nat) : Prop := i < v.table.nextIno ∧ v.table.pathOf i = none

end Ledger

namespace InodeTable

variable {t : InodeTable} {ino i n : Nat}

theorem entries_forget_of_ne (h : i ≠ ino) : (t.forget ino n).entries i = t.entries i := by
  unfold forget
  split
  · rfl
  · split
    · split <;> exact Function.update_of_ne h ..
    · rfl

theorem entries_forget (h : ino ≠ rootIno) {e : InodeEntry} (he : t.entries ino = some e) :
    (t.forget ino n).entries ino =
      if e.lookups - n = 0 ∧ e.path = none then none else some { e with lookups := e.lookups - n } := by
  unfold forget
  rw [if_neg h]
  split
  · rename_i e' he'
    obtain rfl : e = e' := Option.some.inj (he.symm.trans he')
    split
    · exact Function.update_self ..
    · exact Function.update_self ..
  · rename_i hn
    rw [hn] at he
    cases he

theorem count_forget_le (h : i ≠ rootIno) : (t.forget ino n).count i ≤ t.count i := by
  by_cases hino : i = ino
  · subst hino
    cases he : t.entries i with
    | none =>
      unfold forget
      rw [if_neg h]
      split
      · rename_i e he'
        rw [he] at he'
        cases he'
      · exact Nat.le_refl _
    | some e =>
      rw [count, entries_forget h he, count_of_entries he]
      split
      · exact Nat.zero_le _
      · exact Nat.sub_le _ _
  · rw [count, entries_forget_of_ne hino, count]

end InodeTable

/-! What a granting reply has done to the table. -/

/-- The callback has called `InodeTable::lookup` once, and that returned this inode. -/
def CountsUp (i : Nat) (w t : World) : Prop :=
  ∃ p, t.inodes = (w.inodes.lookup p).2 ∧ i = (w.inodes.lookup p).1.1

namespace Projection

variable {P : Projection} {w t : World} {parent : Nat} {name : Bytes}

theorem run_attrOf {ino generation : Nat} {r : Resolved} {a : Attr}
    (h : (P.attrOf ino generation r).run w = (.ok a, t)) : a.ino = ino ∧ t = w := by
  rw [attrOf_run] at h
  split at h
  · cases h
    exact ⟨rfl, rfl⟩
  · cases h

theorem countsUp_lookup {a : Attr} (h : (P.lookup parent name).run w = (.ok (some a), t)) :
    CountsUp a.ino w t := by
  obtain ⟨dir, v, hdir, h₁⟩ := run_bind_eq_ok h
  obtain ⟨-, rfl⟩ := run_read_eq_ok hdir
  obtain ⟨p, u, hjoin, h₂⟩ := run_bind_eq_ok h₁
  obtain ⟨-, rfl⟩ := run_liftExcept_eq_ok hjoin
  obtain ⟨r, u', hres, h₃⟩ := run_bind_eq_ok h₂
  obtain ⟨-, rfl⟩ := run_read_eq_ok hres
  cases r with
  | none => cases h₃
  | some r =>
    obtain ⟨i, v', hi, h₄⟩ := run_bind_eq_ok h₃
    obtain ⟨hi', rfl⟩ := run_atom_eq_ok hi
    obtain ⟨a', v'', ha, h₅⟩ := run_bind_eq_ok h₄
    cases h₅
    obtain ⟨hino, rfl⟩ := run_attrOf ha
    refine ⟨p, rfl, ?_⟩
    rw [hino, ← Except.ok.inj hi']

theorem countsUp_made {α : Type} {p : RepoPath} {m : Handler α} {a : Attr}
    {f : Nat × Nat → Attr} (hf : ∀ i, (f i).ino = i.1) (hm : ∀ v b u, m.run v = (.ok b, u) → u.inodes = v.inodes)
    (h : (do
      P.recordChange p
      let _ ← m
      let i ← inodeLookup p
      pure (f i) : Handler Attr).run w = (.ok a, t)) : CountsUp a.ino w t := by
  obtain ⟨_, v, hrec, h₁⟩ := run_bind_eq_ok h
  obtain ⟨-, hino⟩ := run_recordChange hrec
  obtain ⟨_, u, hput, h₂⟩ := run_bind_eq_ok h₁
  have hsame := hm _ _ _ hput
  obtain ⟨i, u', hi, h₃⟩ := run_bind_eq_ok h₂
  obtain ⟨hi', rfl⟩ := run_atom_eq_ok hi
  cases h₃
  refine ⟨p, ?_, ?_⟩
  · show (u.inodes.lookup p).2 = _
    rw [hsame, hino]
  · rw [hf, ← Except.ok.inj hi', hsame, hino]

theorem inodes_mutate {op : OverlayOp} {u v : World} {b : Unit}
    (h : (mutate op).run v = (.ok b, u)) : u.inodes = v.inodes := by
  obtain ⟨-, rfl⟩ := run_atom_eq_ok h
  rfl

theorem countsUp_mkdir {a : Attr} (h : (P.mkdir parent name).run w = (.ok a, t)) :
    CountsUp a.ino w t := by
  obtain ⟨p, v, hp, h₁⟩ := run_bind_eq_ok h
  obtain ⟨-, -, rfl⟩ := run_childPath hp
  obtain ⟨r, u, hr, h₂⟩ := run_bind_eq_ok h₁
  obtain ⟨-, rfl⟩ := run_read_eq_ok hr
  cases r with
  | some r => cases h₂
  | none => exact countsUp_made (fun _ => rfl) (fun _ _ _ => inodes_mutate) h₂

theorem countsUp_symlink {target : Bytes} {a : Attr}
    (h : (P.symlink parent name target).run w = (.ok a, t)) : CountsUp a.ino w t := by
  obtain ⟨p, v, hp, h₁⟩ := run_bind_eq_ok h
  obtain ⟨-, -, rfl⟩ := run_childPath hp
  exact countsUp_made (fun _ => rfl) (fun _ _ _ => inodes_mutate) h₁

theorem countsUp_create {x : Bool} {r : Attr × ContentId}
    (h : (P.create parent name x).run w = (.ok r, t)) : CountsUp r.1.ino w t := by
  obtain ⟨p, v, hp, h₁⟩ := run_bind_eq_ok h
  obtain ⟨-, -, rfl⟩ := run_childPath hp
  obtain ⟨_, v', hrec, h₂⟩ := run_bind_eq_ok h₁
  obtain ⟨-, hino⟩ := run_recordChange hrec
  obtain ⟨c, u, hc, h₃⟩ := run_bind_eq_ok h₂
  obtain ⟨-, rfl⟩ := run_atom_eq_ok hc
  obtain ⟨i, u', hi, h₄⟩ := run_bind_eq_ok h₃
  obtain ⟨hi', rfl⟩ := run_atom_eq_ok hi
  cases h₄
  refine ⟨p, ?_, ?_⟩
  · show (v'.inodes.lookup p).2 = _
    rw [hino]
  · show i.1 = _
    rw [← Except.ok.inj hi', ← hino]

/-! The callbacks that look inodes up and grant no reference to them. -/

theorem looksUp_getattr {ino : Nat} {a : Attr} (hroot : ino ≠ rootIno)
    (h : (P.getattr ino).run w = (.ok a, t)) : (P.getattr ino).Meets (LooksUp ino) w := by
  have hmeets := (TableStep.meets_iff_count (P.tableStep_getattr ino) w ino).2
  rw [h] at hmeets
  refine hmeets.mpr ?_
  obtain ⟨path, v, hpath, h₁⟩ := run_bind_eq_ok h
  obtain ⟨hp, rfl⟩ := run_read_eq_ok hpath
  obtain ⟨r, u, hres, h₂⟩ := run_bind_eq_ok h₁
  obtain ⟨-, rfl⟩ := run_read_eq_ok hres
  cases r with
  | none => cases h₂
  | some r =>
    obtain ⟨i, u', hi, h₃⟩ := run_bind_eq_ok h₂
    obtain ⟨-, rfl⟩ := run_atom_eq_ok hi
    obtain ⟨-, rfl⟩ := run_attrOf h₃
    have hino : (u.inodes.lookup path).1.1 = ino := InodeTable.lookup_of_pathOf (by
      rw [World.pathOf, if_neg hroot] at hp
      split at hp
      · cases hp
        assumption
      · cases hp)
    show u.inodes.count ino < (u.inodes.lookup path).2.count ino
    rw [InodeTable.count_lookup, if_pos hino.symm]
    exact Nat.lt_succ_self _

/-- Between the two states the table counts the inode of the entry up. -/
def Listed (d : DirEntry) (w t : World) : Prop := w.inodes.count d.ino < t.inodes.count d.ino

/-- Between the two states the table counts nothing down. -/
def CountsLe (w t : World) : Prop := ∀ i, w.inodes.count i ≤ t.inodes.count i

theorem countsLe_of {α : Type} {m : Handler α} (hm : Within (TableStep TableLookup) Eq m)
    {r : Outcome Error α} (h : m.run w = (r, t)) : CountsLe w t := by
  intro i
  have hle := (TableStep.meets_iff_count hm w i).1
  rwa [h] at hle

theorem listed_push {path : RepoPath} {kind : Kind} {d : Option DirEntry}
    (h : (push path name kind).run w = (.ok d, t)) : ∀ e ∈ d, Listed e w t := by
  obtain ⟨child, v, hj, h₁⟩ := run_bind_eq_ok h
  obtain ⟨-, rfl⟩ := run_liftExcept_eq_ok hj
  obtain ⟨i, u, hi, h₂⟩ := run_bind_eq_ok h₁
  obtain ⟨hi', rfl⟩ := run_atom_eq_ok hi
  cases h₂
  rintro e ⟨rfl⟩
  show v.inodes.count i.1 < (v.inodes.lookup child).2.count i.1
  rw [InodeTable.count_lookup, if_pos (by rw [← Except.ok.inj hi'])]
  exact Nat.lt_succ_self _

theorem listed_listBaseline {dir : RepoPath} {e : TreeEntry} {d : Option DirEntry}
    (h : (listBaseline dir e).run w = (.ok d, t)) : ∀ e ∈ d, Listed e w t := by
  rw [listBaseline] at h
  split at h
  · cases h
    simp
  · obtain ⟨child, v, hj, h₁⟩ := run_bind_eq_ok h
    obtain ⟨-, rfl⟩ := run_liftExcept_eq_ok hj
    obtain ⟨o, u, ho, h₂⟩ := run_bind_eq_ok h₁
    obtain ⟨-, rfl⟩ := run_read_eq_ok ho
    cases o with
    | none => exact listed_push h₂
    | some =>
      cases h₂
      simp

theorem listed_listOverlay {dir : RepoPath} {child : Bytes × OverlayEntry} {d : Option DirEntry}
    (h : (listOverlay dir child).run w = (.ok d, t)) : ∀ e ∈ d, Listed e w t := by
  obtain ⟨name, e⟩ := child
  cases e with
  | tombstone =>
    cases h
    simp
  | file | symlink | dir | baseRef => exact listed_push h

theorem looksUp_readdir {ino : Nat} {out : List DirEntry}
    (h : (P.readdir ino).run w = (.ok out, t)) :
    ∀ d ∈ out, (P.readdir ino).Meets (LooksUp d.ino) w := by
  intro d hd
  have hmeets := (TableStep.meets_iff_count (P.tableStep_readdir ino) w d.ino).2
  rw [h] at hmeets
  refine hmeets.mpr ?_
  have hloop : ∀ {β : Type} {xs : List β} {f : β → Handler (Option DirEntry)} {ys : List DirEntry}
      {u v : World}, (∀ x, Within (TableStep TableLookup) Eq (f x)) →
      (∀ x u y v, (f x).run u = (.ok y, v) → ∀ e ∈ y, Listed e u v) →
      (Prog.collect xs f).run u = (.ok ys, v) → CountsLe u v ∧ ∀ e ∈ ys, Listed e u v :=
    fun hw hl hr => run_collect_mem (fun _ _ => Nat.le_refl _)
      (fun h h' i => Nat.le_trans (h i) (h' i))
      (fun h hlt h' => Nat.lt_of_le_of_lt (h _) (Nat.lt_of_lt_of_le hlt (h' _)))
      (fun x u y v hy => ⟨countsLe_of (hw x) hy, hl x u y v hy⟩) hr
  obtain ⟨path, v, hpath, h₁⟩ := run_bind_eq_ok h
  obtain ⟨-, rfl⟩ := run_read_eq_ok hpath
  obtain ⟨r, u, hres, h₂⟩ := run_bind_eq_ok h₁
  obtain ⟨-, rfl⟩ := run_read_eq_ok hres
  split at h₂
  · obtain ⟨entries, v₁, hes, h₃⟩ := run_bind_eq_ok h₂
    obtain ⟨-, rfl⟩ := run_read_eq_ok hes
    obtain ⟨baseline, v₂, hbase, h₄⟩ := run_bind_eq_ok h₃
    obtain ⟨kids, v₃, hkids, h₅⟩ := run_bind_eq_ok h₄
    obtain ⟨-, rfl⟩ := run_read_eq_ok hkids
    obtain ⟨overlay, v₄, hover, h₆⟩ := run_bind_eq_ok h₅
    obtain ⟨git, v₅, hgit, h₇⟩ := run_bind_eq_ok h₆
    cases h₇
    obtain ⟨hle, hbase'⟩ := hloop (tableStep_listBaseline path)
      (fun _ _ _ _ => listed_listBaseline) hbase
    obtain ⟨hle', hover'⟩ := hloop (tableStep_listOverlay path)
      (fun _ _ _ _ => listed_listOverlay) hover
    have hgit' : CountsLe v₄ t ∧ ∀ e ∈ git, Listed e v₄ t := by
      split at hgit
      · exact ⟨countsLe_of (tableStep_push _ _ _) hgit, listed_push hgit⟩
      · cases hgit
        exact ⟨fun _ => Nat.le_refl _, by simp⟩
    have hle₁ := hle d.ino
    have hle₂ := hle' d.ino
    have hle₃ := hgit'.1 d.ino
    show v₁.inodes.count d.ino < t.inodes.count d.ino
    rcases List.mem_append.mp hd with hd | hd
    · rcases List.mem_append.mp hd with hd | hd
      · have hlt : _ < _ := hbase' d hd
        omega
      · have hlt : _ < _ := hover' d hd
        omega
    · have hlt : _ < _ := hgit'.2 d (Option.mem_toList.mp hd)
      omega
  · cases h₂

end Projection

namespace Callback

variable {P : Projection} {fuel : Nat} {c : Callback} {w t : World} {i : Nat}

theorem countsUp_granting (h : (c.granting P fuel).run w = (.ok (some i), t)) : CountsUp i w t := by
  cases c with
  | call op =>
    obtain ⟨r, hr, hi⟩ := run_map_eq_ok h
    cases op with
    | lookup parent name =>
      obtain ⟨a, ha, rfl⟩ := run_map_eq_ok hr
      cases a with
      | none => cases hi
      | some a =>
        cases hi
        exact Projection.countsUp_lookup ha
    | mkdir parent name =>
      obtain ⟨a, ha, rfl⟩ := run_map_eq_ok hr
      cases hi
      exact Projection.countsUp_mkdir ha
    | symlink parent name target =>
      obtain ⟨a, ha, rfl⟩ := run_map_eq_ok hr
      cases hi
      exact Projection.countsUp_symlink ha
    | create parent name x =>
      obtain ⟨a, ha, rfl⟩ := run_map_eq_ok hr
      cases hi
      exact Projection.countsUp_create ha
    | getattr | readdir | forget | openWrite | truncate | unlink | rmdir | rename | setExecutable => cases hi
  | openFile ino flags =>
    simp only [granting] at h
    split at h <;> obtain ⟨r, -, hi⟩ := run_map_eq_ok h <;> cases hi
  | create parent name mode =>
    obtain ⟨r, hr, hi⟩ := run_map_eq_ok h
    cases hi
    exact Projection.countsUp_create hr
  | setattr ino mode size =>
    obtain ⟨r, -, hi⟩ := run_map_eq_ok h
    cases hi
  | write | release => cases h

/-- What a callback may do to the table. -/
inductive Class (P : Projection) (fuel : Nat) : Callback → Prop
  | looks {c : Callback} (hr : ¬ c.IsRename) (hf : ∀ i, c.forgets i = 0)
    (h : Within (TableStep TableLookup) Eq (c.granting P fuel)) : Class P fuel c
  | unlinks {c : Callback} (hr : ¬ c.IsRename) (hf : ∀ i, c.forgets i = 0)
    (h : Within (TableStep TableUnlink) Eq (c.granting P fuel)) : Class P fuel c
  | renames {c : Callback} (hr : c.IsRename) (hf : ∀ i, c.forgets i = 0)
    (h : Within (TableStep TableRename) Eq (c.granting P fuel)) : Class P fuel c
  | forget (ino n : Nat) : Class P fuel (.call (.forget ino n))

theorem classified (P : Projection) (fuel : Nat) (c : Callback) : Class P fuel c := by
  cases c with
  | call op =>
    cases op with
    | lookup parent name =>
      exact .looks id (fun _ => rfl) (within_map _ (within_map _ (P.tableStep_lookup parent name)))
    | getattr ino =>
      exact .looks id (fun _ => rfl) (within_map _ (within_map _ (P.tableStep_getattr ino)))
    | readdir ino =>
      exact .looks id (fun _ => rfl) (within_map _ (within_map _ (P.tableStep_readdir ino)))
    | forget ino n => exact .forget ino n
    | create parent name x =>
      exact .looks id (fun _ => rfl) (within_map _ (within_map _ (P.tableStep_create parent name x)))
    | openWrite ino trunc =>
      exact .looks id (fun _ => rfl) (within_map _ (within_map _ (P.tableStep_openWrite ino trunc)))
    | truncate ino size =>
      exact .looks id (fun _ => rfl) (within_map _ (within_map _ (P.tableStep_truncate ino size)))
    | unlink parent name =>
      exact .unlinks id (fun _ => rfl) (within_map _ (within_map _ (P.tableStep_unlink parent name)))
    | mkdir parent name =>
      exact .looks id (fun _ => rfl) (within_map _ (within_map _ (P.tableStep_mkdir parent name)))
    | rmdir parent name =>
      exact .unlinks id (fun _ => rfl) (within_map _ (within_map _ (P.tableStep_rmdir parent name)))
    | symlink parent name target =>
      exact .looks id (fun _ => rfl)
        (within_map _ (within_map _ (P.tableStep_symlink parent name target)))
    | rename parent name newparent newname flags =>
      exact .renames trivial (fun _ => rfl) (within_map _ (within_map _
        (P.tableStep_rename fuel parent name newparent newname flags)))
    | setExecutable ino x =>
      exact .looks id (fun _ => rfl) (within_map _ (within_map _ (P.tableStep_setExecutable ino x)))
  | openFile ino flags =>
    refine .looks id (fun _ => rfl) ?_
    simp only [granting]
    split
    · exact within_map _ (P.tableStep_openWrite ino _)
    · exact within_map _ (P.tableStep_openRead ino)
  | create parent name mode =>
    exact .looks id (fun _ => rfl) (within_map _ (P.tableStep_create parent name _))
  | setattr ino mode size =>
    exact .looks id (fun _ => rfl) (within_map _ (P.tableStep_setattr ino mode size))
  | write | release => exact .looks id (fun _ => rfl) (within_pure _)

end Callback

namespace TransparentFs

variable {P : Projection} {fuel : Nat} {c : Callback} {s u : TransparentFs}

theorem inodes_after {α : Type} {m : Handler α} {handle : α → Option FileHandle}
    (h : s.after m handle = some u) : u.world.inodes = (m.run s.world).2.inodes := by
  rw [after] at h
  split at h
  · rename_i a w hr
    split at h
    · cases h
      rw [hr]
      rfl
    · cases h
      rw [hr]
  · rename_i e w hr
    cases h
    rw [hr]
  · cases h

theorem inodes_step (h : s.step P fuel c = some u) :
    u.world.inodes = ((c.granting P fuel).run s.world).2.inodes := by
  cases c <;> simp only [step] at h
  case call op => exact (inodes_after h).trans (by rw [Callback.granting, run_map_snd])
  case openFile ino flags =>
    simp only [Callback.granting]
    split at h
    · rename_i hw
      rw [if_pos hw, run_map_snd]
      exact inodes_after h
    · rename_i hw
      rw [if_neg hw, run_map_snd]
      exact inodes_after h
  case create parent name mode =>
    exact (inodes_after h).trans (by rw [Callback.granting, run_map_snd])
  case setattr ino mode size => exact (inodes_after h).trans (by rw [Callback.granting, run_map_snd])
  case write fh offset data => split at h <;> cases h <;> rfl
  case release fh =>
    cases h
    rfl

end TransparentFs

namespace Ledger

variable {P : Projection} {v v' : Ledger} {c : Callback} {i : Nat}

/-- The two counts of an inode: they differ if it is unpaid, and one that is missed waits for a
forget that does not come. -/
structure Balanced (v : Ledger) (i : Nat) : Prop where
  refs : v.refs i ≤ v.table.count i
  unpaid : i ∈ v.unpaid ↔ v.refs i < v.table.count i
  nameless : v.table.entries i ≠ none → v.table.pathOf i = none → v.table.count i = 0 → i ∈ v.missed
  missed : i ∈ v.missed → v.refs i = 0 ∧ v.table.pathOf i = none ∧ v.table.entries i ≠ none

theorem balanced_start {w : World} (hw : w.inodes = .new) (hi : i ≠ rootIno) :
    (start w).Balanced i := by
  have hentries : (start w).table.entries i = none := by
    show w.inodes.entries i = none
    rw [hw]
    simp only [InodeTable.new, Function.update_of_ne hi]
  have hcount : (start w).table.count i = 0 := by rw [InodeTable.count, hentries]; rfl
  exact
    { refs := by rw [hcount]; exact Nat.le_refl 0
      unpaid := by
        rw [hcount]
        exact ⟨fun hm => hm.elim, fun hlt => (Nat.lt_irrefl 0 hlt).elim⟩
      nameless := fun hn => (hn hentries).elim
      missed := fun hm => hm.elim }

theorem Balanced.looks (h : v.Balanced i) {m : Prop} {δ : Nat}
    (hgrown : InodeTable.Grown v.table v'.table) (hle : v.table.count i ≤ v'.table.count i)
    (hm : m ↔ v.table.count i < v'.table.count i)
    (hδ : δ = 0 ∨ δ = 1 ∧ v'.table.count i = v.table.count i + 1 ∧ v'.table.pathOf i ≠ none)
    (hrefs : v'.refs i = v.refs i + δ) (hunpaid : i ∈ v'.unpaid ↔ i ∈ v.unpaid ∨ m ∧ δ = 0)
    (hmissed : i ∈ v'.missed ↔ i ∈ v.missed) : v'.Balanced i := by
  have hle' := h.refs
  refine ⟨?_, ?_, fun hn hp hc => hmissed.mpr ?_, fun hmi => ?_⟩
  · rcases hδ with rfl | ⟨rfl, hup, -⟩ <;> omega
  · rw [hunpaid, h.unpaid, hm, hrefs]
    rcases hδ with rfl | ⟨rfl, hup, -⟩ <;> omega
  · cases he : v.table.entries i with
    | none => exact (hgrown.named i he hn hp).elim
    | some e =>
      obtain ⟨e', he', hpath, -⟩ := hgrown.keeps i e he
      have hnone : v.table.pathOf i = none := by
        rw [InodeTable.pathOf_of_entries he, ← hpath, ← InodeTable.pathOf_of_entries he', hp]
      exact h.nameless (by rw [he]; simp) hnone (by omega)
  · obtain ⟨hr, hp, he⟩ := h.missed (hmissed.mp hmi)
    obtain ⟨e, he⟩ := Option.ne_none_iff_exists'.mp he
    obtain ⟨e', he', hpath, -⟩ := hgrown.keeps i e he
    have hp' : v'.table.pathOf i = none := by
      rw [InodeTable.pathOf_of_entries he', hpath, ← InodeTable.pathOf_of_entries he, hp]
    refine ⟨?_, hp', by rw [he']; simp⟩
    rcases hδ with rfl | ⟨-, -, hne⟩
    · rw [hrefs, hr]
    · exact (hne hp').elim

theorem Balanced.unlinks (h : v.Balanced i)
    (hun : v'.table.entries i = v.table.entries i ∨ ∃ e, v.table.entries i = some e ∧ e.path ≠ none ∧
      v'.table.entries i = if e.lookups = 0 then none else some { e with path := none })
    (hrefs : v'.refs i = v.refs i) (hunpaid : i ∈ v'.unpaid ↔ i ∈ v.unpaid)
    (hmissed : i ∈ v'.missed ↔ i ∈ v.missed) : v'.Balanced i := by
  have hle := h.refs
  rcases hun with hsame | ⟨e, he, hp, hnew⟩
  · have hcount : v'.table.count i = v.table.count i := by rw [InodeTable.count, hsame, InodeTable.count]
    have hpath : v'.table.pathOf i = v.table.pathOf i := by rw [InodeTable.pathOf, hsame, InodeTable.pathOf]
    exact ⟨by omega, by rw [hunpaid, h.unpaid, hrefs, hcount],
      by rw [hsame, hpath, hcount, hmissed]; exact h.nameless,
      by rw [hsame, hpath, hrefs, hmissed]; exact h.missed⟩
  · have hcount := InodeTable.count_of_entries he
    have hnot : i ∉ v.missed := by
      intro hmi
      have hnone := (h.missed hmi).2.1
      rw [InodeTable.pathOf_of_entries he] at hnone
      exact hp hnone
    have hcount' : v'.table.count i = v.table.count i := by
      rw [InodeTable.count, hnew, hcount]
      split
      · rename_i hz
        rw [hz]
        rfl
      · rfl
    refine ⟨by omega, by rw [hunpaid, h.unpaid, hrefs, hcount'], fun hn _ hc => ?_,
      fun hmi => (hnot (hmissed.mp hmi)).elim⟩
    rw [hnew, if_pos (by omega)] at hn
    exact (hn rfl).elim

theorem Balanced.renames (h : v.Balanced i) (hre : InodeTable.Renamed v.table v'.table)
    (hrefs : v'.refs i = v.refs i) (hunpaid : i ∈ v'.unpaid ↔ i ∈ v.unpaid)
    (hmissed : i ∈ v'.missed ↔ i ∈ v.missed ∨
      v.refs i = 0 ∧ v.table.pathOf i ≠ none ∧ v'.table.pathOf i = none) : v'.Balanced i := by
  obtain ⟨hlookups, hpath⟩ := hre i
  have hle := h.refs
  have hcount : v'.table.count i = v.table.count i := by
    rw [InodeTable.count, hlookups, InodeTable.count]
  have hentries : v'.table.entries i = none ↔ v.table.entries i = none := by
    rw [← Option.map_eq_none_iff (f := InodeEntry.lookups), hlookups, Option.map_eq_none_iff]
  refine ⟨by omega, by rw [hunpaid, h.unpaid, hrefs, hcount], fun hn hp hc => ?_, fun hmi => ?_⟩
  · by_cases hold : v.table.pathOf i = none
    · exact hmissed.mpr (.inl (h.nameless (mt hentries.mpr hn) hold (by omega)))
    · exact hmissed.mpr (.inr ⟨by omega, hold, hp⟩)
  · rcases hmissed.mp hmi with hold | ⟨hr, hp, hp'⟩
    · obtain ⟨hr, hp, he⟩ := h.missed hold
      exact ⟨by omega, hpath hp, mt hentries.mp he⟩
    · refine ⟨by omega, hp', mt hentries.mp fun he => hp ?_⟩
      rw [InodeTable.pathOf, he]
      rfl

theorem Balanced.forgets (h : v.Balanced i) (hi : i ≠ rootIno) {n : Nat} (hn : 0 < n)
    (hle : n ≤ v.refs i) (htable : v'.table = v.table.forget i n) (hrefs : v'.refs i = v.refs i - n)
    (hunpaid : i ∈ v'.unpaid ↔ i ∈ v.unpaid) (hmissed : i ∈ v'.missed ↔ i ∈ v.missed) :
    v'.Balanced i := by
  have hrefs' := h.refs
  have hnot : i ∉ v.missed := by
    intro hmi
    have hzero := (h.missed hmi).1
    omega
  cases he : v.table.entries i with
  | none =>
    rw [InodeTable.count, he] at hrefs'
    simp at hrefs'
    omega
  | some e =>
    have hcount := InodeTable.count_of_entries he
    have hnew := InodeTable.entries_forget (n := n) hi he
    rw [← htable] at hnew
    have hcount' : v'.table.count i = e.lookups - n := by
      rw [InodeTable.count, hnew]
      split
      · rename_i hgone
        rw [hgone.1]
        rfl
      · rfl
    refine ⟨by omega, ?_, fun hne hp hc => ?_, fun hmi => (hnot (hmissed.mp hmi)).elim⟩
    · rw [hunpaid, h.unpaid, hrefs, hcount, hcount']
      omega
    · by_cases hgone : e.lookups - n = 0 ∧ e.path = none
      · rw [hnew, if_pos hgone] at hne
        exact (hne rfl).elim
      · rw [if_neg hgone] at hnew
        rw [InodeTable.pathOf_of_entries hnew] at hp
        exact (hgone ⟨by omega, hp⟩).elim

theorem Balanced.step (h : v.Balanced i) (hi : i ≠ rootIno) (hs : Step P v c v') : v'.Balanced i := by
  obtain ⟨hhonest, fuel, fs, hstep, rfl⟩ := hs
  obtain ⟨granted, w, hrun⟩ : ∃ granted w, (c.granting P fuel).run v.fs.world = (granted, w) := ⟨_, _, rfl⟩
  have hreply : c.reply P fuel v.fs.world = granted := by rw [Callback.reply, hrun]
  have htable : (v.after P fuel c fs).table = w.inodes := by
    rw [table, after, TransparentFs.inodes_step hstep, hrun]
  have hrefs : (v.after P fuel c fs).refs i =
      v.refs i - c.forgets i + if granted = .ok (some i) then 1 else 0 := by
    rw [← hreply]
    rfl
  have hunpaid : i ∈ (v.after P fuel c fs).unpaid ↔ i ∈ v.unpaid ∨
      (c.granting P fuel).Meets (LooksUp i) v.fs.world ∧ granted ≠ .ok (some i) := by
    rw [← hreply]
    rfl
  have hkept : ¬ c.IsRename → (i ∈ (v.after P fuel c fs).missed ↔ i ∈ v.missed) := fun hr =>
    or_iff_left fun hm => hr hm.1
  have hmissed : c.IsRename → (i ∈ (v.after P fuel c fs).missed ↔ i ∈ v.missed ∨
      v.refs i = 0 ∧ v.table.pathOf i ≠ none ∧ (v.after P fuel c fs).table.pathOf i = none) := fun hr =>
    or_congr_right (and_iff_right hr)
  -- a reply that grants the inode has counted it up
  have hcount : granted = .ok (some i) → (v.after P fuel c fs).table.count i = v.table.count i + 1 ∧
      (v.after P fuel c fs).table.pathOf i ≠ none := by
    rintro rfl
    obtain ⟨p, hp, rfl⟩ := Callback.countsUp_granting hrun
    rw [htable, hp]
    refine ⟨by rw [InodeTable.count_lookup, if_pos rfl]; rfl, ?_⟩
    rw [InodeTable.pathOf_lookup]
    simp
  generalize v.after P fuel c fs = v' at *
  have hungranted : v'.table.count i ≤ v.table.count i → granted ≠ .ok (some i) := by
    intro hle hg
    have hup := (hcount hg).1
    omega
  have hpaid : ¬ (c.granting P fuel).Meets (LooksUp i) v.fs.world → (i ∈ v'.unpaid ↔ i ∈ v.unpaid) :=
    fun hm => hunpaid.trans (or_iff_left fun hu => hm hu.1)
  have hcall := Callback.classified P fuel c
  cases hcall with
  | looks hr hf hm =>
    have hgrown := TableStep.grown_run hm v.fs.world
    obtain ⟨hle, hmeets⟩ := TableStep.meets_iff_count hm v.fs.world i
    rw [hrun] at hgrown hle hmeets
    rw [← htable] at hgrown hle hmeets
    refine h.looks (δ := if granted = .ok (some i) then 1 else 0) hgrown hle hmeets ?_ ?_ ?_ (hkept hr)
    · by_cases hg : granted = .ok (some i)
      · exact .inr ⟨if_pos hg, hcount hg⟩
      · exact .inl (if_neg hg)
    · rw [hrefs, hf]
      rfl
    · rw [hunpaid]
      by_cases hg : granted = .ok (some i) <;> simp [hg]
  | unlinks hr hf hm =>
    have hun := TableStep.unlinked_run hm v.fs.world
    rw [hrun, ← htable] at hun
    have hsame : v'.refs i = v.refs i := by
      rw [hrefs, if_neg (hungranted (hun.count_le i)), hf]
      rfl
    exact h.unlinks (hun i) hsame (hpaid (TableStep.not_meets_unlinks hm _ i)) (hkept hr)
  | renames hr hf hm =>
    have hre := TableStep.renamed_run hm v.fs.world
    rw [hrun, ← htable] at hre
    have hsame : v'.refs i = v.refs i := by
      rw [hrefs, if_neg (hungranted (hre.count_eq i).le), hf]
      rfl
    exact h.renames hre hsame (hpaid (TableStep.not_meets_renames hm _ i)) (hmissed hr)
  | forget ino n =>
    cases hrun
    have htable' : v'.table = v.table.forget ino n := htable
    have hle : v'.table.count i ≤ v.table.count i := by
      rw [htable']
      exact InodeTable.count_forget_le hi
    have hm : ¬ (Callback.granting P fuel (.call (.forget ino n))).Meets (LooksUp i) v.fs.world := by
      rintro (hup | hup)
      · have hcount' : (v.fs.world.inodes.forget ino n).count i = v.fs.world.inodes.count i + 1 :=
          TableStep.count_of_looksUp hup
        have hle' : (v.fs.world.inodes.forget ino n).count i ≤ v.fs.world.inodes.count i :=
          InodeTable.count_forget_le hi
        omega
      · exact hup
    have hrefs' : v'.refs i = v.refs i - if ino = i then n else 0 := by
      rw [hrefs, if_neg (hungranted hle)]
      rfl
    by_cases hino : ino = i
    · subst hino
      rw [if_pos rfl] at hrefs'
      exact h.forgets hi hhonest.1 hhonest.2 htable' hrefs' (hpaid hm) (hkept id)
    · rw [if_neg hino] at hrefs'
      refine h.unlinks (.inl ?_) hrefs' (hpaid hm) (hkept id)
      rw [htable']
      exact InodeTable.entries_forget_of_ne (Ne.symm hino)

theorem unpaid_run {cs : List Callback} (hrun : Trace (Step P) v cs v') : v.unpaid ⊆ v'.unpaid := by
  induction hrun with
  | nil => exact subset_rfl
  | cons hs _ ih =>
    obtain ⟨-, fuel, fs, -, rfl⟩ := hs
    exact fun i hi => ih (Or.inl hi)

theorem unpaid_of_looksUp {α : Type} {m : Handler α} {op : Op} {f : α → Reply} {fuel : Nat} {fs : TransparentFs}
    (hop : op.handler P fuel = f <$> m) (hm : Within (TableStep TableLookup) Eq m)
    (hgrants : ∀ r, op.grants r = none) (hlooks : m.Meets (LooksUp i) v.fs.world) :
    i ∈ (v.after P fuel (.call op) fs).unpaid := by
  have hgranting : (Callback.call op).granting P fuel = op.grants <$> f <$> m := by rw [← hop, Callback.granting]
  refine .inr ⟨?_, fun hreply => ?_⟩
  · rw [hgranting]
    exact (TableStep.meets_map (within_map f hm)).2 ((TableStep.meets_map hm).2 hlooks)
  · have hrun : (op.grants <$> op.handler P fuel).run v.fs.world = (.ok (some i), _) := Prod.ext hreply rfl
    obtain ⟨r, -, hr⟩ := run_map_eq_ok hrun
    rw [hgrants] at hr
    cases hr

/-- An inode that `getattr` has answered for, or that a listing has named, stays unpaid. -/
theorem unpaid_of_answered {op : Op} {u : Ledger} {cs : List Callback} (hstep : Step P v (.call op) u)
    (hrun : Trace (Step P) u cs v')
    (h : op = .getattr i ∧ i ≠ rootIno ∧ (∃ a, ((P.getattr i).run v.fs.world).1 = .ok a) ∨
      ∃ dir out, op = .readdir dir ∧ ((P.readdir dir).run v.fs.world).1 = .ok out ∧ ∃ d ∈ out, d.ino = i) :
    i ∈ v'.unpaid := by
  refine unpaid_run hrun ?_
  obtain ⟨-, fuel, fs, -, rfl⟩ := hstep
  rcases h with ⟨rfl, hroot, a, ha⟩ | ⟨dir, out, rfl, hout, d, hd, rfl⟩
  · exact unpaid_of_looksUp rfl (P.tableStep_getattr i) (fun _ => rfl)
      (Projection.looksUp_getattr hroot (Prod.ext ha rfl))
  · exact unpaid_of_looksUp rfl (P.tableStep_readdir dir) (fun _ => rfl)
      (Projection.looksUp_readdir (Prod.ext hout rfl) d hd)

/-- Once the kernel has no reference to an inode that was unlinked or evicted, the table has none
exactly if every lookup of the inode in the table was answered with a reference to it, and no
rename evicted it while the kernel had none. -/
theorem released_iff {w : World} (hw : w.inodes = .new) {cs : List Callback}
    (hrun : Trace (Step P) (start w) cs v) (hi : i ≠ rootIno) (hname : v.Nameless i)
    (hrefs : v.refs i = 0) : v.table.entries i = none ↔ i ∉ v.unpaid ∧ i ∉ v.missed := by
  have h : v.Balanced i := hrun.invariant (I := fun v => v.Balanced i)
    (fun _ _ _ h hs => h.step hi hs) (balanced_start hw hi)
  constructor
  · intro he
    have hcount : v.table.count i = 0 := by rw [InodeTable.count, he]; rfl
    refine ⟨fun hu => ?_, fun hm => (h.missed hm).2.2 he⟩
    have hlt := h.unpaid.mp hu
    omega
  · rintro ⟨hu, hm⟩
    by_contra he
    have hle := mt h.unpaid.mpr hu
    exact hm (h.nameless he hname.2 (by omega))

theorem released_iff_unlinked : ∃ v, Trace (Step smallProjection) (start (World.fresh 7 none))
    [.call (.lookup 1 [97]), .call (.unlink 1 [97]), .call (.forget 2 1)] v ∧
    v.table.entries 2 = none ∧ 2 ∉ v.unpaid ∧ 2 ∉ v.missed := by
  obtain ⟨v, hrun, hname, hrefs, he⟩ : ∃ v, Trace (Step smallProjection) (start (World.fresh 7 none))
      [.call (.lookup 1 [97]), .call (.unlink 1 [97]), .call (.forget 2 1)] v ∧
      v.Nameless 2 ∧ v.refs 2 = 0 ∧ v.table.entries 2 = none := by
    refine ⟨_, .cons ⟨trivial, 0, _, rfl, rfl⟩ (.cons ⟨trivial, 0, _, rfl, rfl⟩
      (.cons ⟨?_, 0, _, rfl, rfl⟩ (.nil _))), ?_, ?_, ?_⟩
    · exact ⟨Nat.one_pos, by decide +kernel⟩
    · exact ⟨by decide +kernel, by decide +kernel⟩
    · decide +kernel
    · decide +kernel
  exact ⟨v, hrun, he, (released_iff rfl hrun (by decide) hname hrefs).mp he⟩

/-- `stat a` counts the inode up once more than it is replied to the kernel: unlinked and forgotten,
it stays in the table. -/
theorem stat_leaks_inode : ∃ v, Trace (Step smallProjection) (start (World.fresh 7 none))
    [.call (.lookup 1 [97]), .call (.getattr 2), .call (.unlink 1 [97]), .call (.forget 2 1)] v ∧
    v.Nameless 2 ∧ v.refs 2 = 0 ∧ v.table.entries 2 = some ⟨none, 1, 1⟩ := by
  refine ⟨_, .cons ⟨trivial, 0, _, rfl, rfl⟩ (.cons ⟨trivial, 0, _, rfl, rfl⟩
    (.cons ⟨trivial, 0, _, rfl, rfl⟩ (.cons ⟨?_, 0, _, rfl, rfl⟩ (.nil _)))), ?_, ?_, ?_⟩
  · exact ⟨Nat.one_pos, by decide +kernel⟩
  · exact ⟨by decide +kernel, by decide +kernel⟩
  · decide +kernel
  · decide +kernel

end Ledger

end LazyMount
