import LazyMount.RepoPath
import Mathlib.Logic.Function.Basic

/-! Inode numbers of paths. The two maps of the table are inverse on live paths, and every
number in use is below the next one to be handed out. -/

namespace LazyMount

def rootIno : Nat := 1

structure InodeEntry where
  path : Option RepoPath
  lookups : Nat
  generation : Nat
deriving DecidableEq

structure InodeTable where
  nextIno : Nat
  generation : Nat
  pathToIno : RepoPath → Option Nat
  entries : Nat → Option InodeEntry
  pathToIno_iff : ∀ p i, pathToIno p = some i ↔ ∃ e, entries i = some e ∧ e.path = some p
  lt_nextIno : ∀ i e, entries i = some e → i < nextIno
  root_lt : rootIno < nextIno

namespace InodeTable

def new : InodeTable where
  nextIno := rootIno + 1
  generation := 1
  pathToIno := Function.update (fun _ => none) RepoPath.root (some rootIno)
  entries := Function.update (fun _ => none) rootIno (some ⟨some RepoPath.root, 1, 1⟩)
  pathToIno_iff p i := by
    by_cases hp : p = RepoPath.root <;> by_cases hi : i = rootIno <;> simp [hp, hi, eq_comm]
  lt_nextIno i e := by
    simp only [Function.update_apply]
    grind
  root_lt := Nat.lt_succ_self _

def setEntry (t : InodeTable) (ino : Nat) {e : InodeEntry} (he : t.entries ino = some e)
    (new : Option InodeEntry) (hnew : new.bind (·.path) = e.path) : InodeTable :=
  { t with
    entries := Function.update t.entries ino new
    pathToIno_iff := fun p i => by
      rw [t.pathToIno_iff]
      by_cases hi : i = ino
      · subst hi
        cases new <;> simp_all [← hnew]
      · simp [Function.update_of_ne hi]
    lt_nextIno := fun i e' => by
      have := t.lt_nextIno
      simp only [Function.update_apply]
      grind }

def alloc (t : InodeTable) (path : RepoPath) (h : t.pathToIno path = none) : InodeTable :=
  { t with
    nextIno := t.nextIno + 1
    pathToIno := Function.update t.pathToIno path (some t.nextIno)
    entries := Function.update t.entries t.nextIno (some ⟨some path, 1, t.generation⟩)
    pathToIno_iff := fun p i => by
      have hiff := t.pathToIno_iff p i
      have hlt := t.lt_nextIno i
      by_cases hp : p = path <;> by_cases hi : i = t.nextIno <;> simp [hp, hi] <;> grind
    lt_nextIno := fun i e' => by
      have := t.lt_nextIno
      simp only [Function.update_apply]
      grind
    root_lt := Nat.lt_succ_of_lt t.root_lt }

/-- The number and generation of a path, allocated if it has none, with one more kernel
reference. -/
def lookup (t : InodeTable) (path : RepoPath) : (Nat × Nat) × InodeTable :=
  match h : t.pathToIno path with
  | some ino =>
    match he : t.entries ino with
    | some e => ((ino, e.generation), t.setEntry ino he (some { e with lookups := e.lookups + 1 }) rfl)
    | none => ((ino, 0), t)
  | none => ((t.nextIno, t.generation), t.alloc path h)

def pathOf (t : InodeTable) (ino : Nat) : Option RepoPath := (t.entries ino).bind (·.path)

/-- Drop `n` kernel references; an unlinked inode goes with the last of them. -/
def forget (t : InodeTable) (ino n : Nat) : InodeTable :=
  if ino = rootIno then t
  else
    match he : t.entries ino with
    | some e =>
      if h : e.lookups - n = 0 ∧ e.path = none then t.setEntry ino he none h.2.symm
      else t.setEntry ino he (some { e with lookups := e.lookups - n }) rfl
    | none => t

def unlink (t : InodeTable) (path : RepoPath) : InodeTable :=
  match h : t.pathToIno path with
  | some ino =>
    { t with
      pathToIno := Function.update t.pathToIno path none
      entries := Function.update t.entries ino
        ((t.entries ino).bind fun e => if e.lookups = 0 then none else some { e with path := none })
      pathToIno_iff := fun p i => by
        have hiff := t.pathToIno_iff p i
        have hpath := t.pathToIno_iff path ino
        have hp' := t.pathToIno_iff p ino
        by_cases hp : p = path <;> by_cases hi : i = ino <;> simp [hp, hi] <;> grind
      lt_nextIno := fun i e' => by
        obtain ⟨e, he, -⟩ := (t.pathToIno_iff path ino).mp h
        have := t.lt_nextIno
        simp only [Function.update_apply]
        grind }
  | none => t

/-- The inode of `old` answers to `new`; the one that did is unlinked. -/
def rename (t : InodeTable) (old new : RepoPath) : InodeTable :=
  match h : t.pathToIno old with
  | some ino =>
    let prev := Function.update t.pathToIno old none new
    { t with
      pathToIno := Function.update (Function.update t.pathToIno old none) new (some ino)
      entries := fun i =>
        if i = ino then (t.entries i).map fun e => { e with path := some new }
        else if some i = prev then (t.entries i).map fun e => { e with path := none }
        else t.entries i
      pathToIno_iff := fun p i => by
        have hiff := t.pathToIno_iff p i
        have hold := t.pathToIno_iff old ino
        have hino := t.pathToIno_iff p ino
        have hnew := t.pathToIno_iff new i
        by_cases hp : p = new <;> by_cases hi : i = ino <;>
          simp [Function.update_apply, hp, hi] <;> grind
      lt_nextIno := fun i e' => by
        have := t.lt_nextIno i
        cases hi : t.entries i with
        | none => simp
        | some e => exact fun _ => this e hi }
  | none => t

theorem pathOf_lookup (t : InodeTable) (path : RepoPath) :
    (t.lookup path).2.pathOf (t.lookup path).1.1 = some path := by
  unfold lookup
  split
  · rename_i ino h
    obtain ⟨e, he, hpath⟩ := (t.pathToIno_iff path ino).mp h
    split
    · rename_i e' he'
      simp_all [pathOf, setEntry]
    · simp_all
  · simp [pathOf, alloc]

def RootSafe (t : InodeTable) : Prop := ∀ p, t.pathOf rootIno = some p → p = RepoPath.root

variable {t : InodeTable}

theorem rootSafe_new : new.RootSafe := by
  intro p hp
  simpa [pathOf, new, eq_comm] using hp

theorem RootSafe.lookup (h : t.RootSafe) (path : RepoPath) : (t.lookup path).2.RootSafe := by
  have hlt := t.root_lt
  intro p hp
  refine h p ?_
  unfold InodeTable.lookup at hp
  split at hp
  · rename_i ino _
    split at hp
    · rename_i e he
      simp only [pathOf, setEntry, Function.update_apply] at hp ⊢
      split at hp
      · rename_i hi
        rw [hi, he]
        exact hp
      · exact hp
    · exact hp
  · simp only [pathOf, alloc] at hp
    rwa [Function.update_of_ne hlt.ne] at hp

theorem RootSafe.forget (h : t.RootSafe) (ino n : Nat) : (t.forget ino n).RootSafe := by
  intro p hp
  refine h p ?_
  unfold InodeTable.forget at hp
  split at hp
  · exact hp
  · rename_i hne
    split at hp
    · split at hp <;> simpa [pathOf, setEntry, Function.update_of_ne (Ne.symm hne)] using hp
    · exact hp

theorem RootSafe.unlink (h : t.RootSafe) (path : RepoPath) : (t.unlink path).RootSafe := by
  intro p hp
  refine h p ?_
  unfold InodeTable.unlink at hp
  split at hp
  · rename_i ino _
    by_cases hi : rootIno = ino
    · subst hi
      cases he : t.entries rootIno with
      | none => simp [pathOf, he] at hp
      | some e =>
        simp only [pathOf, Function.update_self, he, Option.bind_some] at hp
        split at hp <;> cases hp
    · simpa [pathOf, Function.update_of_ne hi] using hp
  · exact hp

theorem RootSafe.rename (h : t.RootSafe) {old : RepoPath} (hold : old ≠ RepoPath.root) (new : RepoPath) :
    (t.rename old new).RootSafe := by
  intro p hp
  refine h p ?_
  unfold InodeTable.rename at hp
  split at hp
  · rename_i ino hino
    obtain ⟨e, he, hpath⟩ := (t.pathToIno_iff old ino).mp hino
    have hi : rootIno ≠ ino := by
      intro heq
      subst heq
      exact hold (h old (by simp [pathOf, he, hpath]))
    simp only [pathOf, if_neg hi] at hp
    split at hp
    · cases hr : t.entries rootIno <;> simp [hr] at hp
    · exact hp
  · exact hp

end InodeTable

end LazyMount
