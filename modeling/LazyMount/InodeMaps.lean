import LazyMount.InodeTable
import LazyMount.Lib.Machine

/-! The two maps of the inode table as the code has them: nothing ties one to the other but the order
of the writes. Runs of the five operations on them are runs of the table. -/

namespace LazyMount

open Function (update)

structure Inner where
  nextIno : Nat
  generation : Nat
  pathToIno : RepoPath → Option Nat
  entries : Nat → Option InodeEntry

inductive TableOp where
  | lookup (path : RepoPath)
  | rename (old new : RepoPath)
  | unlink (path : RepoPath)
  | forget (ino n : Nat)
  | bumpGeneration
deriving DecidableEq

/-- Renames and unlinks are not about the root. -/
def TableOp.NonRoot : TableOp → Prop
  | .rename old new => old ≠ RepoPath.root ∧ new ≠ RepoPath.root
  | .unlink path => path ≠ RepoPath.root
  | .lookup _ | .forget _ _ | .bumpGeneration => True

namespace Inner

def new : Inner where
  nextIno := rootIno + 1
  generation := 1
  pathToIno := update (fun _ => none) RepoPath.root (some rootIno)
  entries := update (fun _ => none) rootIno (some ⟨some RepoPath.root, 1, 1⟩)

/-- A write through `get_mut`, if there is an entry. -/
def modify (s : Inner) (ino : Nat) (f : InodeEntry → Option InodeEntry) : Inner :=
  { s with entries := update s.entries ino ((s.entries ino).bind f) }

/-- `none` where the entry of a known path is missing, which is a panic. -/
def lookup (s : Inner) (path : RepoPath) : Option ((Nat × Nat) × Inner) :=
  match s.pathToIno path with
  | some ino =>
    match s.entries ino with
    | some e => some ((ino, e.generation), s.modify ino fun e => some { e with lookups := e.lookups + 1 })
    | none => none
  | none =>
    some ((s.nextIno, s.generation),
      { s with
        nextIno := s.nextIno + 1
        entries := update s.entries s.nextIno (some ⟨some path, 1, s.generation⟩)
        pathToIno := update s.pathToIno path (some s.nextIno) })

def forget (s : Inner) (ino n : Nat) : Inner :=
  if ino = rootIno then s
  else
    s.modify ino fun e =>
      let e := { e with lookups := e.lookups - n }
      if e.lookups = 0 ∧ e.path = none then none else some e

/-- The prior occupant of a name loses its path. -/
def evict (s : Inner) : Option Nat → Inner
  | some prev => s.modify prev fun e => some { e with path := none }
  | none => s

def rename (s : Inner) (old new : RepoPath) : Inner :=
  match s.pathToIno old with
  | some ino =>
    let removed := update s.pathToIno old none
    let s := { s with pathToIno := update removed new (some ino) }
    (s.evict (removed new)).modify ino fun e => some { e with path := some new }
  | none => s

def unlink (s : Inner) (path : RepoPath) : Inner :=
  match s.pathToIno path with
  | some ino =>
    { s with pathToIno := update s.pathToIno path none }.modify ino fun e =>
      if e.lookups = 0 then none else some { e with path := none }
  | none => s

def bumpGeneration (s : Inner) : Inner := { s with generation := s.generation + 1 }

def step (s : Inner) : TableOp → Option Inner
  | .lookup path => (s.lookup path).map (·.2)
  | .rename old new => some (s.rename old new)
  | .unlink path => some (s.unlink path)
  | .forget ino n => some (s.forget ino n)
  | .bumpGeneration => some s.bumpGeneration

/-- The number that an operation hands out for the first time. -/
def allocates (s : Inner) : TableOp → Option Nat
  | .lookup path => if (s.pathToIno path).isNone then some s.nextIno else none
  | _ => none

/-- The numbers that a run hands out, in order. -/
def allocations (s : Inner) : List TableOp → List Nat
  | [] => []
  | op :: ops => (s.allocates op).toList ++ ((s.step op).map (allocations · ops)).getD []

end Inner

namespace InodeTable

def inner (t : InodeTable) : Inner := ⟨t.nextIno, t.generation, t.pathToIno, t.entries⟩

def bumpGeneration (t : InodeTable) : InodeTable := { t with generation := t.generation + 1 }

def step (t : InodeTable) : TableOp → InodeTable
  | .lookup path => (t.lookup path).2
  | .rename old new => t.rename old new
  | .unlink path => t.unlink path
  | .forget ino n => t.forget ino n
  | .bumpGeneration => t.bumpGeneration

def run (t : InodeTable) (ops : List TableOp) : InodeTable := ops.foldl step t

variable {t : InodeTable}

theorem lookup_inner (t : InodeTable) (path : RepoPath) :
    t.inner.lookup path = some ((t.lookup path).1, (t.lookup path).2.inner) := by
  unfold lookup
  split
  · rename_i ino hino
    obtain ⟨e, he, -⟩ := (t.pathToIno_iff path ino).1 hino
    have hinner : t.inner.pathToIno path = some ino := hino
    have hentry : t.inner.entries ino = some e := he
    simp only [Inner.lookup, hinner, hentry]
    split
    · rename_i e' he'
      obtain rfl : e = e' := Option.some.inj (he.symm.trans he')
      simp only [Inner.modify, hentry]
      rfl
    · rename_i hnone
      rw [he] at hnone
      cases hnone
  · rename_i hnone
    have hinner : t.inner.pathToIno path = none := hnone
    simp only [Inner.lookup, hinner]
    rfl

theorem forget_inner (t : InodeTable) (ino n : Nat) : t.inner.forget ino n = (t.forget ino n).inner := by
  unfold forget Inner.forget
  by_cases hroot : ino = rootIno
  · rw [if_pos hroot, if_pos hroot]
  · rw [if_neg hroot, if_neg hroot]
    split
    · rename_i e he
      have hentry : t.inner.entries ino = some e := he
      split
      · rename_i hgone
        simp only [Inner.modify, hentry, Option.bind_some, if_pos hgone]
        rfl
      · rename_i hkept
        simp only [Inner.modify, hentry, Option.bind_some, if_neg hkept]
        rfl
    · rename_i hnone
      have hentry : t.inner.entries ino = none := hnone
      simp only [Inner.modify, hentry, Option.bind_none]
      rw [← hentry, Function.update_eq_self]

theorem unlink_inner (t : InodeTable) (path : RepoPath) : t.inner.unlink path = (t.unlink path).inner := by
  unfold unlink
  split
  · rename_i ino hino
    have hinner : t.inner.pathToIno path = some ino := hino
    simp only [Inner.unlink, hinner, Inner.modify]
    rfl
  · rename_i hnone
    have hinner : t.inner.pathToIno path = none := hnone
    simp only [Inner.unlink, hinner]

theorem ne_of_evicted {old new : RepoPath} {ino prev : Nat} (hino : t.pathToIno old = some ino)
    (hprev : update t.pathToIno old none new = some prev) : prev ≠ ino := by
  by_cases hnew : new = old
  · rw [hnew, Function.update_self] at hprev
    cases hprev
  · rw [Function.update_of_ne hnew] at hprev
    rintro rfl
    obtain ⟨e, he, hp⟩ := (t.pathToIno_iff old prev).1 hino
    obtain ⟨e', he', hp'⟩ := (t.pathToIno_iff new prev).1 hprev
    rw [he] at he'
    cases he'
    rw [hp] at hp'
    exact hnew (Option.some.inj hp').symm

theorem rename_inner (t : InodeTable) (old new : RepoPath) :
    t.inner.rename old new = (t.rename old new).inner := by
  unfold rename
  split
  · rename_i ino hino
    have hinner : t.inner.pathToIno old = some ino := hino
    have hremoved : update t.inner.pathToIno old none = update t.pathToIno old none := rfl
    simp only [Inner.rename, hinner, hremoved]
    simp only [inner]
    cases hprev : update t.pathToIno old none new with
    | none =>
      have hentries : update t.entries ino ((t.entries ino).bind fun e => some { e with path := some new })
          = fun i => if i = ino then (t.entries i).map fun e => { e with path := some new } else t.entries i := by
        funext i
        by_cases hi : i = ino
        · subst hi
          rw [Function.update_self, if_pos rfl]
          cases t.entries i <;> rfl
        · rw [Function.update_of_ne hi, if_neg hi]
      simp only [Inner.evict, Inner.modify, hentries, reduceCtorEq, if_false]
    | some prev =>
      have hne := ne_of_evicted hino hprev
      simp only [Inner.evict, Inner.modify, Function.update_of_ne hne.symm, Option.some.injEq]
      congr 1
      funext i
      by_cases hi : i = ino
      · subst hi
        rw [Function.update_self, if_pos rfl]
        cases t.entries i <;> rfl
      · rw [Function.update_of_ne hi, if_neg hi]
        by_cases hp : i = prev
        · subst hp
          rw [Function.update_self, if_pos rfl]
          cases t.entries i <;> rfl
        · rw [Function.update_of_ne hp, if_neg hp]
  · rename_i hnone
    have hinner : t.inner.pathToIno old = none := hnone
    simp only [Inner.rename, hinner]

theorem step_inner (t : InodeTable) (op : TableOp) : t.inner.step op = some (t.step op).inner := by
  cases op with
  | lookup path =>
    have hlookup := lookup_inner t path
    simp only [Inner.step, hlookup, Option.map_some]
    rfl
  | rename old new => exact congrArg some (rename_inner t old new)
  | unlink path => exact congrArg some (unlink_inner t path)
  | forget ino n => exact congrArg some (forget_inner t ino n)
  | bumpGeneration => rfl

theorem run_inner (t : InodeTable) (ops : List TableOp) :
    Machine.run Inner.step t.inner ops = some (t.run ops).inner := by
  induction ops generalizing t with
  | nil => rfl
  | cons op ops ih => exact Machine.run_cons.2 ⟨_, step_inner t op, ih (t.step op)⟩

end InodeTable

namespace Inner

variable {s u v : Inner}

/-- From `s` to `u` numbers are only added behind the next one, and an entry keeps its generation. -/
structure Later (s u : Inner) : Prop where
  nextIno : s.nextIno ≤ u.nextIno
  entry : ∀ i e, u.entries i = some e → i < s.nextIno →
    ∃ e₀, s.entries i = some e₀ ∧ e₀.generation = e.generation

theorem Later.refl (s : Inner) : Later s s := ⟨Nat.le_refl _, fun _ e he _ => ⟨e, he, rfl⟩⟩

theorem Later.trans (h : Later s u) (h' : Later u v) : Later s v := by
  refine ⟨Nat.le_trans h.nextIno h'.nextIno, fun i e he hi => ?_⟩
  obtain ⟨e₁, he₁, hg₁⟩ := h'.entry i e he (Nat.lt_of_lt_of_le hi h.nextIno)
  obtain ⟨e₀, he₀, hg₀⟩ := h.entry i e₁ he₁ hi
  exact ⟨e₀, he₀, hg₀.trans hg₁⟩

theorem later_modify (s : Inner) (ino : Nat) {f : InodeEntry → Option InodeEntry}
    (hf : ∀ e e', f e = some e' → e'.generation = e.generation) : Later s (s.modify ino f) := by
  refine ⟨Nat.le_refl _, fun i e he _ => ?_⟩
  simp only [modify] at he
  by_cases hi : i = ino
  · subst hi
    rw [Function.update_self] at he
    obtain ⟨e₀, he₀, hfe⟩ := Option.bind_eq_some_iff.1 he
    exact ⟨e₀, he₀, (hf e₀ e hfe).symm⟩
  · rw [Function.update_of_ne hi] at he
    exact ⟨e, he, rfl⟩

theorem Later.of_paths {f : RepoPath → Option Nat} (h : Later { s with pathToIno := f } u) : Later s u :=
  ⟨h.nextIno, h.entry⟩

theorem later_lookup {path : RepoPath} {r : Nat × Nat} (h : s.lookup path = some (r, u)) : Later s u := by
  rw [lookup] at h
  split at h
  · split at h
    · cases h
      apply later_modify
      rintro e _ ⟨⟩
      rfl
    · cases h
  · cases h
    refine ⟨Nat.le_succ _, fun i e he hi => ?_⟩
    have hne : i ≠ s.nextIno := by omega
    have hkept : s.entries i = some e := by simpa only [Function.update_of_ne hne] using he
    exact ⟨e, hkept, rfl⟩

theorem later_forget (s : Inner) (ino n : Nat) : Later s (s.forget ino n) := by
  rw [forget]
  split
  · exact Later.refl s
  · apply later_modify
    intro e e' he
    dsimp only at he
    split at he
    · cases he
    · cases he
      rfl

theorem later_unlink (s : Inner) (path : RepoPath) : Later s (s.unlink path) := by
  rw [unlink]
  split
  · refine Later.of_paths (later_modify _ _ fun e e' he => ?_)
    split at he
    · cases he
    · cases he
      rfl
  · exact Later.refl s

theorem later_evict (s : Inner) (prev : Option Nat) : Later s (s.evict prev) := by
  cases prev with
  | none => exact Later.refl s
  | some prev =>
    apply later_modify
    rintro e _ ⟨⟩
    rfl

theorem later_rename (s : Inner) (old new : RepoPath) : Later s (s.rename old new) := by
  rw [rename]
  split
  · refine Later.of_paths ((later_evict _ _).trans (later_modify _ _ ?_))
    rintro e _ ⟨⟩
    rfl
  · exact Later.refl s

theorem later_step {op : TableOp} (h : s.step op = some u) : Later s u := by
  cases op with
  | lookup path =>
    obtain ⟨r, hr, rfl⟩ := Option.map_eq_some_iff.1 h
    exact later_lookup hr
  | rename old new =>
    cases h
    exact later_rename s old new
  | unlink path =>
    cases h
    exact later_unlink s path
  | forget ino n =>
    cases h
    exact later_forget s ino n
  | bumpGeneration =>
    cases h
    exact ⟨Nat.le_refl _, fun i e he _ => ⟨e, he, rfl⟩⟩

theorem later_run {ops : List TableOp} (h : Machine.run step s ops = some u) : Later s u := by
  induction ops generalizing s with
  | nil =>
    cases h
    exact Later.refl _
  | cons op ops ih =>
    obtain ⟨v, hv, hu⟩ := Machine.run_cons.1 h
    exact (later_step hv).trans (ih hu)

theorem nextIno_of_allocates {op : TableOp} {i : Nat} (ha : s.allocates op = some i)
    (h : s.step op = some u) : i = s.nextIno ∧ u.nextIno = s.nextIno + 1 := by
  cases op with
  | lookup path =>
    simp only [allocates, Option.isNone_iff_eq_none, Option.ite_none_right_eq_some] at ha
    obtain ⟨r, hr, rfl⟩ := Option.map_eq_some_iff.1 h
    rw [lookup, ha.1] at hr
    cases hr
    exact ⟨(Option.some.inj ha.2).symm, rfl⟩
  | rename | unlink | forget | bumpGeneration => cases ha

/-- A run hands out larger and larger numbers, none of which was in use before it. -/
theorem allocations_run {ops : List TableOp} (h : Machine.run step s ops = some u) :
    (∀ i ∈ s.allocations ops, s.nextIno ≤ i ∧ i < u.nextIno) ∧
      (s.allocations ops).Pairwise (· < ·) := by
  induction ops generalizing s with
  | nil => exact ⟨by simp [allocations], .nil⟩
  | cons op ops ih =>
    obtain ⟨v, hv, hu⟩ := Machine.run_cons.1 h
    obtain ⟨hrange, hsorted⟩ := ih hu
    have hlater := (later_step hv).nextIno
    have hend := (later_run hu).nextIno
    have hrest : s.allocations (op :: ops) = (s.allocates op).toList ++ v.allocations ops := by
      simp only [allocations, hv, Option.map_some, Option.getD_some]
    rw [hrest]
    cases ha : s.allocates op with
    | none =>
      refine ⟨fun i hi => ?_, hsorted⟩
      have hi' := hrange i hi
      omega
    | some j =>
      obtain ⟨hj, hnext⟩ := nextIno_of_allocates ha hv
      simp only [Option.toList_some, List.singleton_append, List.mem_cons, List.pairwise_cons]
      refine ⟨fun i hi => ?_, fun i hi => ?_, hsorted⟩
      · rcases hi with rfl | hi
        · omega
        · have hi' := hrange i hi
          omega
      · have hi' := hrange i hi
        omega

theorem pathToIno_root_step {op : TableOp} (hroot : s.pathToIno RepoPath.root = some rootIno)
    (hop : op.NonRoot) (h : s.step op = some u) : u.pathToIno RepoPath.root = some rootIno := by
  cases op with
  | lookup path =>
    obtain ⟨r, hr, rfl⟩ := Option.map_eq_some_iff.1 h
    rw [lookup] at hr
    split at hr
    · split at hr
      · cases hr
        exact hroot
      · cases hr
    · rename_i hnone
      cases hr
      have hne : RepoPath.root ≠ path := by
        rintro rfl
        rw [hroot] at hnone
        cases hnone
      exact (Function.update_of_ne hne _ _).trans hroot
  | rename old new =>
    cases h
    have hkept (ino : Nat) : update (update s.pathToIno old none) new (some ino) RepoPath.root
        = some rootIno := by
      rw [Function.update_of_ne hop.2.symm, Function.update_of_ne hop.1.symm, hroot]
    rw [rename]
    split
    · rename_i ino _
      dsimp only
      cases update s.pathToIno old none new <;> exact hkept ino
    · exact hroot
  | unlink path =>
    cases h
    rw [unlink]
    split
    · exact (Function.update_of_ne (Ne.symm hop) _ _).trans hroot
    · exact hroot
  | forget ino n =>
    cases h
    rw [forget]
    split <;> exact hroot
  | bumpGeneration =>
    cases h
    exact hroot

theorem pathToIno_root_run {ops : List TableOp} (hroot : s.pathToIno RepoPath.root = some rootIno)
    (hops : ∀ op ∈ ops, op.NonRoot) (h : Machine.run step s ops = some u) :
    u.pathToIno RepoPath.root = some rootIno :=
  Machine.run_invariant (fun s => s.pathToIno RepoPath.root = some rootIno) TableOp.NonRoot
    (fun _ _ _ hop hi hs => pathToIno_root_step hi hop hs) hops hroot h

theorem linked_forget {i : Nat} {e : InodeEntry} {p : RepoPath} (he : s.entries i = some e)
    (hp : e.path = some p) (ino n : Nat) :
    ∃ e', (s.forget ino n).entries i = some e' ∧ e'.path = some p := by
  rw [forget]
  split
  · exact ⟨e, he, hp⟩
  · by_cases hi : i = ino
    · subst hi
      have hlinked : ¬(e.lookups - n = 0 ∧ e.path = none) := by simp [hp]
      refine ⟨{ e with lookups := e.lookups - n }, ?_, hp⟩
      simp only [modify, he, Option.bind_some, Function.update_self, if_neg hlinked]
    · exact ⟨e, by simp only [modify, Function.update_of_ne hi, he], hp⟩

end Inner

/-- In every run the two maps stay inverse to each other, so that no lookup misses an entry; the root
keeps its number; numbers are handed out once; generations stay; and a forget leaves linked inodes
alone. -/
theorem inode_table_invariant (before after : List TableOp)
    (hops : ∀ op ∈ before ++ after, op.NonRoot) :
    ∃ s u, Machine.run Inner.step Inner.new before = some s ∧ Machine.run Inner.step s after = some u ∧
      (∀ p i, u.pathToIno p = some i ↔ ∃ e, u.entries i = some e ∧ e.path = some p) ∧
      u.pathToIno RepoPath.root = some rootIno ∧
      (∀ i e, u.entries i = some e → i < u.nextIno) ∧
      (∀ i ∈ s.allocations after, s.nextIno ≤ i ∧ i < u.nextIno) ∧
      (s.allocations after).Pairwise (· < ·) ∧
      (∀ i e e', s.entries i = some e → u.entries i = some e' → e'.generation = e.generation) ∧
      (∀ i e p, u.entries i = some e → e.path = some p →
        ∀ ino n, ∃ e', (u.forget ino n).entries i = some e' ∧ e'.path = some p) := by
  have hs := InodeTable.run_inner InodeTable.new before
  have hu := InodeTable.run_inner (InodeTable.new.run before) after
  have hrange := Inner.allocations_run hu
  have hlater := Inner.later_run hu
  have hnew : InodeTable.new.inner.pathToIno RepoPath.root = some rootIno := by
    simp [InodeTable.inner, InodeTable.new]
  have hroot := Inner.pathToIno_root_run hnew (fun op hop => hops op (List.mem_append_left _ hop)) hs
  refine ⟨_, _, hs, hu, InodeTable.pathToIno_iff _, ?_, InodeTable.lt_nextIno _, hrange.1, hrange.2, ?_, ?_⟩
  · exact Inner.pathToIno_root_run hroot (fun op hop => hops op (List.mem_append_right _ hop)) hu
  · intro i e e' he he'
    obtain ⟨e₀, he₀, hg⟩ := hlater.entry i e' he' (InodeTable.lt_nextIno _ i e he)
    rw [he] at he₀
    cases he₀
    exact hg.symm
  · intro i e p he hp ino n
    exact Inner.linked_forget he hp ino n

/-- A rename over an open file, which goes with its last reference. -/
theorem inode_table_invariant_evicted :
    let before : List TableOp := [.lookup (letter 97), .lookup (letter 98), .rename (letter 97) (letter 98)]
    let after : List TableOp := [.forget 3 1, .unlink (letter 98), .bumpGeneration, .lookup (letter 98)]
    ∃ s u, Machine.run Inner.step Inner.new before = some s ∧ Machine.run Inner.step s after = some u ∧
      (∀ p i, u.pathToIno p = some i ↔ ∃ e, u.entries i = some e ∧ e.path = some p) ∧
      u.pathToIno RepoPath.root = some rootIno ∧
      (∀ i e, u.entries i = some e → i < u.nextIno) ∧
      (∀ i ∈ s.allocations after, s.nextIno ≤ i ∧ i < u.nextIno) ∧
      (s.allocations after).Pairwise (· < ·) ∧
      (∀ i e e', s.entries i = some e → u.entries i = some e' → e'.generation = e.generation) ∧
      (∀ i e p, u.entries i = some e → e.path = some p →
        ∀ ino n, ∃ e', (u.forget ino n).entries i = some e' ∧ e'.path = some p) := by
  apply inode_table_invariant
  have ha : letter 97 ≠ RepoPath.root := by decide
  have hb : letter 98 ≠ RepoPath.root := by decide
  simp [TableOp.NonRoot, ha, hb]

end LazyMount
