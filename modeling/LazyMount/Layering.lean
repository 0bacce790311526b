import LazyMount.OverlayRecovery
import LazyMount.Projection

/-! The layered namespace: what a path resolves to by its own overlay entry or the baseline, and
the states in which that is all there is to it. -/

namespace LazyMount

open Function (update)

namespace RepoPath

def Child (p : RepoPath) (name : Bytes) (q : RepoPath) : Prop := q.components = p.components ++ [name]

def Under (p q : RepoPath) : Prop := p.components <+: q.components

instance (p q : RepoPath) : Decidable (Under p q) := inferInstanceAs (Decidable (_ <+: _))

/-- The root and the synthetic `.git` are not the overlay's to decide. -/
def Ordinary (p : RepoPath) : Prop := p ≠ root ∧ p.components ≠ [gitfileName]

variable {p q r : RepoPath} {name : Bytes}

theorem Under.refl (p : RepoPath) : Under p p := List.prefix_refl _

theorem Under.trans (h : Under p q) (h' : Under q r) : Under p r := List.IsPrefix.trans h h'

theorem Under.antisymm (h : Under p q) (h' : Under q p) : p = q := by
  have hlen := h.length_le
  have hlen' := h'.length_le
  exact ext_components (h.eq_of_length (by omega))

theorem eq_root_of_under (h : Under p root) : p = root := by
  rw [Under, components_root, List.prefix_nil] at h
  exact ext_components (by rw [h, components_root])

theorem under_child (h : Child p name q) : Under p q := ⟨[name], h.symm⟩

theorem under_child_iff (h : Child p name q) : Under r q ↔ r = q ∨ Under r p := by
  rw [Under, h, List.prefix_concat_iff, ← h]
  exact or_congr ⟨fun hh => ext_components hh, fun hh => hh ▸ rfl⟩ Iff.rfl

theorem Child.unique {name' : Bytes} {q' : RepoPath} (h : Child p name q) (h' : Child p name' q') :
    q = q' ↔ name = name' := by
  constructor
  · intro heq
    subst heq
    have hh := h.symm.trans h'
    simpa using hh
  · intro heq
    subst heq
    exact ext_components (h.trans h'.symm)

theorem Child.parent_unique {name' : Bytes} {p' : RepoPath} (h : Child p name q)
    (h' : Child p' name' q) : p = p' :=
  ext_components (List.append_inj' (h.symm.trans h') rfl).1

theorem Child.ne (h : Child p name q) : q ≠ p := by
  intro heq
  subst heq
  have hh := congrArg List.length h
  simp at hh

theorem Child.ne_root (h : Child p name q) : q ≠ root := by
  intro heq
  subst heq
  simp [Child] at h

theorem not_under_parent (h : Child p name q) : ¬ Under q p := by
  intro hu
  have hh := hu.length_le
  rw [h, List.length_append, List.length_singleton] at hh
  omega

theorem Child.ordinary (h : Child p name q) (hp : p ≠ root) : q.Ordinary := by
  refine ⟨h.ne_root, fun hg => hp (ext_components ?_)⟩
  have hh := congrArg List.length (h.symm.trans hg)
  simp only [List.length_append, List.length_cons, List.length_nil] at hh
  rw [components_root, List.eq_nil_iff_length_eq_zero]
  omega

theorem exists_child_of_ne_root (hq : q ≠ root) : ∃ p name, Child p name q := by
  rcases q.eq_root_or_concat with h | ⟨cs, c, hc⟩
  · exact (hq h).elim
  · obtain ⟨p, -, hp⟩ := parent_of_components hc
    exact ⟨p, c, by rw [Child, hp, hc]⟩

theorem isRoot_iff : p.isRoot = true ↔ p = root := by
  constructor
  · intro h
    exact ext_components (by simp_all [isRoot, components, root])
  · intro heq
    subst heq
    rfl

/-- An induction over what lies strictly beneath `p`, from parent to child. -/
theorem below_induction {motive : RepoPath → Prop} (base : ∀ name q, Child p name q → motive q)
    (step : ∀ q name r, Under p q → q ≠ p → motive q → Child q name r → motive r)
    (h : Under p q) (hne : q ≠ p) : motive q := by
  obtain ⟨cs, hcs⟩ := h
  induction cs using List.reverseRecOn generalizing q with
  | nil => exact (hne (ext_components (by simpa using hcs.symm))).elim
  | append_singleton cs c ih =>
    have hq : q.components = (p.components ++ cs) ++ [c] := by rw [← hcs, List.append_assoc]
    obtain ⟨m, -, hm⟩ := parent_of_components hq
    have hmq : Child m c q := by rw [Child, hm, hq]
    by_cases hmp : m = p
    · exact base c q (hmp ▸ hmq)
    · exact step m c q ⟨cs, hm.symm⟩ hmp (ih hmp hm.symm) hmq

end RepoPath

open RepoPath

namespace GitStore

variable {store : GitStore} {tree : ObjectId}

theorem walk_concat {cs : List Bytes} {c : Bytes} {r : Option Resolved} (hcs : cs ≠ [])
    (h : store.walk tree cs = .ok r) :
    store.walk tree (cs ++ [c]) = .ok none ∨
      ∃ sub, r = some (.dir (some sub)) ∧ store.walk tree (cs ++ [c]) = store.walk sub [c] := by
  induction cs generalizing tree with
  | nil => exact (hcs rfl).elim
  | cons comp rest ih =>
    simp only [walk, List.cons_append] at h ⊢
    cases ht : store.readTree tree with
    | error e => simp [ht] at h
    | ok entries =>
      rw [ht] at h
      simp only [Except.ok_bind] at h ⊢
      cases hf : entries.find? (fun e => e.name = comp) with
      | none => exact .inl rfl
      | some entry =>
        rw [hf] at h
        cases hm : entry.mode with
        | regular | executable | symlink | gitlink => exact .inl (by simp [hm])
        | tree =>
          simp only [hm] at h ⊢
          by_cases hr : rest = []
          · subst hr
            rw [if_pos rfl] at h
            exact .inr ⟨entry.oid, (Except.ok.inj h).symm, rfl⟩
          · rw [if_neg hr] at h
            rw [if_neg (by simp)]
            exact ih hr h

def OfTree : Resolved → Prop
  | .dir _ | .file (.baseline _) _ | .symlink (.baseline _) => True
  | _ => False

theorem walk_ofTree {cs : List Bytes} {r : Resolved} (h : store.walk tree cs = .ok (some r)) :
    OfTree r := by
  induction cs generalizing tree with
  | nil => cases h
  | cons comp rest ih =>
    obtain ⟨entries, -, h⟩ := Except.bind_eq_ok.mp h
    split at h
    · cases h
    · split at h
      · split at h
        · cases h
          trivial
        · exact ih h
      all_goals
        split at h <;> cases h
        trivial

theorem walk_notMem {c : Bytes} {cs : List Bytes} {entries : List TreeEntry}
    (h : store.readTree tree = .ok entries) (hc : ∀ e ∈ entries, e.name ≠ c) :
    store.walk tree (c :: cs) = .ok none := by
  have hf : entries.find? (fun e => e.name = c) = none := by simpa using hc
  simp only [walk, h, Except.ok_bind, hf]

end GitStore

namespace Overlay

theorem tombstonedFrom_iff {ov : Overlay} {n : Nat} {p : RepoPath} (hn : p.components.length ≤ n) :
    ov.tombstonedFrom n (some p) = true ↔
      ∃ q, q ≠ root ∧ Under q p ∧ ov.lookup q = some .tombstone := by
  induction n generalizing p with
  | zero =>
    have hp : p.components = [] := List.eq_nil_of_length_eq_zero (by omega)
    simp only [tombstonedFrom, Bool.false_eq_true, false_iff, not_exists, not_and]
    intro q hq hu
    obtain rfl : p = root := ext_components (by rw [hp, components_root])
    exact (hq (eq_root_of_under hu)).elim
  | succ n ih =>
    rw [tombstonedFrom]
    by_cases hr : p = root
    · simp only [isRoot_iff.mpr hr, if_true, Bool.false_eq_true, false_iff, not_exists, not_and]
      intro q hq hu
      exact (hq (eq_root_of_under (hr ▸ hu))).elim
    · rw [if_neg (by rwa [isRoot_iff])]
      obtain ⟨m, c, hm⟩ := exists_child_of_ne_root hr
      obtain ⟨m', hpar, hm'⟩ := parent_of_components hm
      obtain rfl : m' = m := ext_components hm'
      have hlen : m'.components.length ≤ n := by
        rw [hm, List.length_append, List.length_singleton] at hn
        omega
      rw [hpar]
      split
      · rename_i ht
        simp only [true_iff]
        exact ⟨p, hr, Under.refl p, ht⟩
      · rename_i ht
        rw [ih hlen]
        constructor
        · intro hh
          obtain ⟨q, hq, hu, hl⟩ := hh
          exact ⟨q, hq, hu.trans (under_child hm), hl⟩
        · intro hh
          obtain ⟨q, hq, hu, hl⟩ := hh
          rcases (under_child_iff hm).mp hu with rfl | hu
          · exact (ht hl).elim
          · exact ⟨q, hq, hu, hl⟩

theorem ancestorTombstoned_iff {ov : Overlay} {p : RepoPath} :
    ov.ancestorTombstoned p = true ↔
      ∃ q, q ≠ root ∧ Under q p ∧ q ≠ p ∧ ov.lookup q = some .tombstone := by
  by_cases hr : p = root
  · have hf : ov.ancestorTombstoned p = false := by
      rw [hr]
      rfl
    simp only [hf, Bool.false_eq_true, false_iff, not_exists, not_and]
    intro q hq hu
    exact (hq (eq_root_of_under (hr ▸ hu))).elim
  · obtain ⟨m, c, hm⟩ := exists_child_of_ne_root hr
    obtain ⟨m', hpar, hm'⟩ := parent_of_components hm
    obtain rfl : m' = m := ext_components hm'
    have hlen : m'.components.length ≤ p.components.length := by
      rw [hm, List.length_append]
      omega
    rw [ancestorTombstoned, hpar, tombstonedFrom_iff hlen]
    constructor
    · intro hh
      obtain ⟨q, hq, hu, hl⟩ := hh
      refine ⟨q, hq, hu.trans (under_child hm), ?_, hl⟩
      intro heq
      subst heq
      exact not_under_parent hm hu
    · intro hh
      obtain ⟨q, hq, hu, hne, hl⟩ := hh
      exact ⟨q, hq, ((under_child_iff hm).mp hu).resolve_left hne, hl⟩

end Overlay

/-- Nothing that has children: absent, a file or a symlink. -/
def Leaf : Option Resolved → Prop
  | none | some (.file _ _) | some (.symlink _) => True
  | some (.dir _) | some .gitfile => False

namespace Projection

variable (P : Projection)

def layered (path : RepoPath) : Option OverlayEntry → Except Error (Option Resolved)
  | some e => P.entryResolved path e
  | none => P.baselineResolve path

/-- The namespace without the masking by ancestors. -/
def view (ns : Namespace) (path : RepoPath) : Except Error (Option Resolved) :=
  if path.isRoot then .ok (some (.dir (some P.baselineTree)))
  else if path.components = [gitfileName] then .ok (some .gitfile)
  else P.layered path (ns path)

/-- The names that the baseline has at `path` are all decided by overlay entries. -/
def Covered (ns : Namespace) (path : RepoPath) : Prop :=
  ∃ r, P.baselineResolve path = .ok r ∧ ∀ tree, r = some (.dir (some tree)) →
    ∃ entries, P.store.readTree tree = .ok entries ∧
      ∀ e ∈ entries, ∃ q, ValidComponent e.name ∧ Child path e.name q ∧ (ns q).isSome

/-- Nothing is visible beneath what is no directory, and an entry that is no directory covers
the baseline's names. -/
structure Closed (ns : Namespace) : Prop where
  unset : ∀ p, (ns p).isSome → p.Ordinary
  hidden : ∀ p r, P.view ns p = .ok r → Leaf r → ∀ name q, Child p name q → P.view ns q = .ok none
  covered : ∀ p e, ns p = some e → e ≠ .dir → P.Covered ns p

/-- No visible leaf stands above `p`. -/
def Exposed (ns : Namespace) (p : RepoPath) : Prop :=
  ∀ q name r, Child q name p → P.view ns q = .ok r → ¬ Leaf r

variable {P} {ns : Namespace} {p q : RepoPath} {r : Option Resolved} {e : OverlayEntry}

theorem join_eq_ok {name : Bytes} : join p name = .ok q ↔ ValidComponent name ∧ Child p name q := by
  rw [join, Child, ← join_ok_iff]
  cases p.join name <;> simp [Except.mapError]

theorem view_root : P.view ns root = .ok (some (.dir (some P.baselineTree))) := rfl

theorem view_ordinary (hp : p.Ordinary) : P.view ns p = P.layered p (ns p) := by
  rw [view, if_neg (by rw [isRoot_iff]; exact hp.1), if_neg hp.2]

theorem view_gitfile (hp : p.components = [gitfileName]) : P.view ns p = .ok (some .gitfile) := by
  have hne : p ≠ root := by
    intro heq
    subst heq
    simp at hp
  rw [view, if_neg (by rwa [isRoot_iff]), if_pos hp]

theorem view_congr {ns' : Namespace} (h : ns p = ns' p) : P.view ns p = P.view ns' p := by
  simp only [view, h]

theorem ordinary_of_leaf (h : P.view ns p = .ok r) (hr : Leaf r) : p.Ordinary := by
  constructor
  · intro heq
    subst heq
    rw [view_root] at h
    cases h
    exact hr
  · intro hg
    rw [view_gitfile hg] at h
    cases h
    exact hr

theorem baselineTreeAt_error {err : Error} (h : P.baselineResolve p = .error err) :
    P.baselineTreeAt p = .error err := by
  simp [baselineTreeAt, h]

theorem baselineTreeAt_of (h : P.baselineResolve p = .ok r) :
    ∃ bt, P.baselineTreeAt p = .ok bt ∧ ∀ t, bt = some t ↔ r = some (.dir (some t)) := by
  simp only [baselineTreeAt, h, Except.ok_bind]
  split
  · exact ⟨_, rfl, fun t => by simp_all⟩
  · rename_i hr
    exact ⟨none, rfl, fun t => by simp only [reduceCtorEq, false_iff]; exact hr _⟩

theorem dir_of_entryResolved (h : P.entryResolved p .dir = .ok r) :
    ∃ bt, r = some (.dir bt) ∧ P.baselineTreeAt p = .ok bt := by
  cases hb : P.baselineTreeAt p with
  | error err => simp [entryResolved, hb] at h
  | ok bt => exact ⟨bt, by simpa [entryResolved, hb] using h.symm, rfl⟩

theorem entryResolved_dir : P.entryResolved p e = .ok r → (e = .dir ∧ ∃ bt, r = some (.dir bt) ∧
    P.baselineTreeAt p = .ok bt) ∨ (e ≠ .dir ∧ Leaf r) := by
  intro h
  cases e with
  | dir => exact .inl ⟨rfl, dir_of_entryResolved h⟩
  | baseRef oid mode =>
    right
    cases h
    exact ⟨by simp, by cases mode <;> trivial⟩
  | file | symlink | tombstone =>
    right
    cases h
    exact ⟨by simp, trivial⟩

theorem entryResolved_leaf (h : e ≠ .dir) : ∃ r, P.entryResolved p e = .ok r ∧ Leaf r := by
  cases e with
  | dir => exact (h rfl).elim
  | baseRef oid mode => exact ⟨_, rfl, by cases mode <;> trivial⟩
  | file | symlink | tombstone => exact ⟨_, rfl, trivial⟩

theorem ne_file_of_baseline {ov : Overlay} {oid : ObjectId} {x : Bool}
    (h : P.resolve ov p = .ok (some (.file (.baseline oid) x))) (c : ContentId) (y : Bool) :
    ov.lookup p ≠ some (.file c y) := by
  intro hl
  rw [resolve] at h
  split at h
  · cases h
  split at h
  · cases h
  rw [hl] at h
  cases h

theorem entryResolved_none_iff : P.entryResolved p e = .ok none ↔ e = .tombstone := by
  constructor
  · intro h
    cases e with
    | tombstone => rfl
    | dir => cases hb : P.baselineTreeAt p <;> simp [entryResolved, hb] at h
    | baseRef oid mode => simp [entryResolved] at h
    | file | symlink => simp [entryResolved] at h
  · intro heq
    subst heq
    rfl

theorem baselineResolve_child {name : Bytes} (hp : p ≠ root) (h : P.baselineResolve p = .ok r)
    (hc : Child p name q) : P.baselineResolve q = .ok none ∨
      ∃ sub, r = some (.dir (some sub)) ∧ P.baselineResolve q = P.store.walk sub [name] := by
  have hne : p.components ≠ [] := fun h => hp (ext_components (by rw [h, components_root]))
  rw [baselineResolve, show q.components = p.components ++ [name] from hc]
  exact GitStore.walk_concat hne h

namespace Closed

variable (hc : P.Closed ns)

include hc

theorem exposed {x : Resolved} (h : P.view ns p = .ok (some x)) : P.Exposed ns p := by
  intro q name r hq hr hl
  rw [hc.hidden q r hr hl name p hq] at h
  cases h

theorem below (h : P.view ns p = .ok r) (hr : Leaf r) (hu : Under p q) (hne : q ≠ p) :
    P.view ns q = .ok none :=
  below_induction (motive := fun q => P.view ns q = .ok none) (fun name q => hc.hidden p r h hr name q)
    (fun q name m _ _ hq => hc.hidden q none hq trivial name m) hu hne

/-- In a closed namespace ancestors mask nothing that is not masked by itself. -/
theorem resolve_eq {ov : Overlay} (hov : ov.index.entries = ns) (p : RepoPath) :
    P.resolve ov p = P.view ns p := by
  have hlook : ∀ q, ov.lookup q = ns q := fun q => by rw [← hov]; rfl
  rw [resolve, view]
  split
  · rfl
  · rename_i hroot
    split
    · rfl
    · rename_i hgit
      have hp : p.Ordinary := ⟨fun h => hroot (isRoot_iff.mpr h), hgit⟩
      rw [hlook]
      cases he : ns p with
      | some e => rfl
      | none =>
        show (if ov.ancestorTombstoned p = true then _ else _) = P.baselineResolve p
        split
        · rename_i ht
          obtain ⟨q, hq, hu, hne, hl⟩ := Overlay.ancestorTombstoned_iff.mp ht
          rw [hlook] at hl
          have hv : P.view ns q = .ok none := by
            rw [view_ordinary (hc.unset q (by simp [hl])), hl]
            rfl
          have hh := hc.below hv trivial hu (Ne.symm hne)
          rw [view_ordinary hp, he] at hh
          exact hh.symm
        · rfl

theorem covered_of_leaf (h : P.view ns p = .ok r) (hr : Leaf r) : P.Covered ns p := by
  have hp := ordinary_of_leaf h hr
  rw [view_ordinary hp] at h
  cases he : ns p with
  | none =>
    rw [he] at h
    refine ⟨r, h, ?_⟩
    rintro t rfl
    exact hr.elim
  | some e =>
    rw [he, layered] at h
    refine hc.covered p e he ?_
    intro heq
    subst heq
    obtain ⟨bt, rfl, -⟩ := dir_of_entryResolved h
    exact hr

theorem update_entry (hp : p.Ordinary) (hx : P.Exposed ns p) (v : Option OverlayEntry)
    (hkids : ∀ r, P.layered p v = .ok r → Leaf r → ∀ name q, Child p name q → P.view ns q = .ok none)
    (hcov : ∀ e, v = some e → e ≠ .dir → P.Covered ns p) : P.Closed (update ns p v) := by
  have hother : ∀ q, q ≠ p → P.view (update ns p v) q = P.view ns q :=
    fun q hq => view_congr (Function.update_of_ne hq _ _)
  have hself : P.view (update ns p v) p = P.layered p v := by
    rw [view_ordinary hp, Function.update_self]
  refine ⟨fun q hq => ?_, fun q r hr hl name m hm => ?_, fun q e he hne => ?_⟩
  · by_cases hqp : q = p
    · exact hqp ▸ hp
    · rw [Function.update_of_ne hqp] at hq
      exact hc.unset q hq
  · by_cases hmp : m = p
    · subst hmp
      rw [hother q hm.ne.symm] at hr
      exact (hx q name r hm hr hl).elim
    · rw [hother m hmp]
      by_cases hqp : q = p
      · subst hqp
        rw [hself] at hr
        exact hkids r hr hl name m hm
      · rw [hother q hqp] at hr
        exact hc.hidden q r hr hl name m hm
  · by_cases hqp : q = p
    · subst hqp
      rw [Function.update_self] at he
      obtain ⟨r, hr, hcr⟩ := hcov e he hne
      refine ⟨r, hr, fun t ht => ?_⟩
      obtain ⟨es, hes, hall⟩ := hcr t ht
      refine ⟨es, hes, fun te hte => ?_⟩
      obtain ⟨m, hv, hm, hs⟩ := hall te hte
      exact ⟨m, hv, hm, by rwa [Function.update_of_ne hm.ne]⟩
    · rw [Function.update_of_ne hqp] at he
      obtain ⟨r, hr, hcr⟩ := hc.covered q e he hne
      refine ⟨r, hr, fun t ht => ?_⟩
      obtain ⟨es, hes, hall⟩ := hcr t ht
      refine ⟨es, hes, fun te hte => ?_⟩
      obtain ⟨m, hv, hm, hs⟩ := hall te hte
      refine ⟨m, hv, hm, ?_⟩
      have hmp : m ≠ p := by
        intro heq
        subst heq
        obtain ⟨r', hr', hl⟩ := entryResolved_leaf (P := P) (p := q) hne
        refine hx q te.name r' hm ?_ hl
        rw [view_ordinary (hc.unset q (by simp [he])), he]
        exact hr'
      rwa [Function.update_of_ne hmp]

theorem put_leaf (hx : P.Exposed ns p) (h : P.view ns p = .ok r) (hr : Leaf r) (e : OverlayEntry) :
    P.Closed (update ns p (some e)) :=
  hc.update_entry (ordinary_of_leaf h hr) hx (some e) (fun _ _ _ => hc.hidden p r h hr)
    fun _ _ _ => hc.covered_of_leaf h hr

theorem put_dir (hp : p.Ordinary) (hx : P.Exposed ns p) : P.Closed (update ns p (some .dir)) := by
  refine hc.update_entry hp hx (some .dir) (fun r hr hl => ?_) (by simp)
  rw [layered] at hr
  obtain ⟨bt, rfl, -⟩ := dir_of_entryResolved hr
  exact hl.elim

theorem remove_leaf (hx : P.Exposed ns p) (h : P.view ns p = .ok r) (hr : Leaf r) :
    P.Closed (update ns p none) :=
  hc.update_entry (ordinary_of_leaf h hr) hx none (fun _ _ _ => hc.hidden p r h hr) (by simp)

end Closed

theorem closed_empty : P.Closed (fun _ => none) := by
  refine ⟨by simp, fun p r hr hl name q hq => ?_, by simp⟩
  have hp := ordinary_of_leaf hr hl
  rw [view_ordinary hp] at hr
  rw [view_ordinary (hq.ordinary hp.1)]
  rcases baselineResolve_child hp.1 hr hq with h | ⟨sub, rfl, -⟩
  · exact h
  · exact hl.elim

end Projection

end LazyMount
