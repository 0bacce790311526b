import LazyMount.Lib.Halting
import LazyMount.MovedDirectory
import Mathlib.Data.Set.Card
import Mathlib.Data.Set.Finite.Lattice
import Mathlib.Order.Bounds.Basic

/-! The recursion of a directory rename: it ends, though it changes the overlay that it walks, and it
comes to each path beneath its source once. -/

namespace LazyMount

open Function (update)
open RepoPath Prog Handler Transition

namespace GitStore

/-- Finitely many trees, and none within itself. -/
structure Hierarchy (store : GitStore) (tree : ObjectId) : Prop where
  finite : {t | store.Reaches tree t}.Finite
  acyclic : ∀ t entries e, store.Reaches tree t → store.readTree t = .ok entries → e ∈ entries →
    e.mode = .tree → ¬ store.Reaches e.oid t

variable {store : GitStore} {tree : ObjectId} {entries : List TreeEntry} {e : TreeEntry}

theorem Hierarchy.sub (h : store.Hierarchy tree) (hes : store.readTree tree = .ok entries) (he : e ∈ entries)
    (hm : e.mode = .tree) : store.Hierarchy e.oid := by
  have hreach : store.Reaches tree e.oid := .sub .self hes he hm
  exact ⟨h.finite.subset fun t ht => hreach.trans ht, fun t es e' ht => h.acyclic t es e' (hreach.trans ht)⟩

theorem Hierarchy.fewer (h : store.Hierarchy tree) (hes : store.readTree tree = .ok entries) (he : e ∈ entries)
    (hm : e.mode = .tree) : {t | store.Reaches e.oid t}.ncard < {t | store.Reaches tree t}.ncard := by
  refine Set.ncard_lt_ncard ⟨fun t ht => ?_, fun hsub => ?_⟩ h.finite
  · exact Reaches.trans (.sub .self hes he hm) ht
  · exact h.acyclic tree entries e .self hes he hm (hsub .self)

/-- By induction on the number of trees within a tree. -/
theorem Hierarchy.finite_paths (h : store.Hierarchy tree) : {cs | ∃ r, store.walk tree cs = .ok (some r)}.Finite := by
  induction hn : {t | store.Reaches tree t}.ncard using Nat.strongRecOn generalizing tree with
  | ind n ih =>
    cases hes : store.readTree tree with
    | error err =>
      refine Set.finite_empty.subset ?_
      rintro (_ | ⟨c, cs⟩) ⟨r, hr⟩
      · cases hr
      · simp only [walk, hes] at hr
        cases hr
    | ok entries =>
      have hbeneath : ∀ e ∈ entries, {cs | e.mode = .tree ∧ ∃ r, store.walk e.oid cs = .ok (some r)}.Finite := by
        intro e he
        by_cases hm : e.mode = .tree
        · exact (ih _ (hn ▸ h.fewer hes he hm) (h.sub hes he hm) rfl).subset fun cs hcs => hcs.2
        · exact Set.finite_empty.subset fun cs hcs => hm hcs.1
      refine (Set.Finite.biUnion (List.finite_toSet entries) fun e he =>
        ((hbeneath e he).image (e.name :: ·)).insert [e.name]).subset ?_
      rintro (_ | ⟨c, cs⟩) ⟨r, hr⟩
      · cases hr
      · simp only [walk, hes, Except.ok_bind] at hr
        cases hf : entries.find? (fun e => e.name = c) with
        | none =>
          rw [hf] at hr
          cases hr
        | some e =>
          have he := List.mem_of_find?_eq_some hf
          obtain rfl : e.name = c := by simpa using List.find?_some hf
          refine Set.mem_biUnion he ?_
          by_cases hnil : cs = []
          · exact .inl (by rw [hnil])
          · cases hm : e.mode with
            | tree =>
              simp only [hf, hm, if_neg hnil] at hr
              exact .inr ⟨cs, ⟨rfl, r, hr⟩, rfl⟩
            | regular | executable | symlink | gitlink =>
              simp only [hf, hm, if_neg hnil] at hr
              cases hr

theorem Reaches.head {t : ObjectId} (h : store.Reaches tree t) : t = tree ∨
    ∃ entries e, store.readTree tree = .ok entries ∧ e ∈ entries ∧ e.mode = .tree ∧ store.Reaches e.oid t := by
  induction h with
  | self => exact .inl rfl
  | sub _ hes he hm ih =>
    rcases ih with rfl | ⟨es, e', hes', he', hm', hr⟩
    · exact .inr ⟨_, _, hes, he, hm, .self⟩
    · exact .inr ⟨es, e', hes', he', hm', hr.sub hes he hm⟩

theorem rank_le {rank : ObjectId → Nat} {t : ObjectId}
    (h : ∀ t entries e, store.readTree t = .ok entries → e ∈ entries → e.mode = .tree → rank e.oid < rank t)
    (hr : store.Reaches tree t) : rank t ≤ rank tree := by
  induction hr with
  | self => exact le_rfl
  | sub _ hes he hm ih => exact (h _ _ _ hes he hm).le.trans ih

/-- Trees that have a rank, by induction on it. -/
theorem hierarchy_of_rank (rank : ObjectId → Nat)
    (h : ∀ t entries e, store.readTree t = .ok entries → e ∈ entries → e.mode = .tree → rank e.oid < rank t)
    (tree : ObjectId) : store.Hierarchy tree := by
  constructor
  · induction hn : rank tree using Nat.strongRecOn generalizing tree with
    | ind n ih =>
      cases hes : store.readTree tree with
      | error err =>
        refine (Set.finite_singleton tree).subset fun t ht => ?_
        rcases ht.head with heq | ⟨es, e, hes', -⟩
        · exact heq
        · rw [hes] at hes'
          cases hes'
      | ok entries =>
        have hbeneath : ∀ e ∈ entries, {t | e.mode = .tree ∧ store.Reaches e.oid t}.Finite := by
          intro e he
          by_cases hm : e.mode = .tree
          · exact (ih _ (hn ▸ h tree entries e hes he hm) e.oid rfl).subset fun t ht => ht.2
          · exact Set.finite_empty.subset fun t ht => hm ht.1
        refine ((Set.Finite.biUnion (List.finite_toSet entries) hbeneath).insert tree).subset fun t ht => ?_
        rcases ht.head with heq | ⟨es, e, hes', he, hm, hr⟩
        · exact .inl heq
        · rw [hes] at hes'
          cases hes'
          exact .inr (Set.mem_biUnion he ⟨hm, hr⟩)
  · intro t entries e _ hes he hm hr
    have hlt := h t entries e hes he hm
    have hle := rank_le h hr
    omega

end GitStore

namespace RepoPath

variable {src dst cs cd p q : RepoPath} {name : Bytes}

theorem ne_root_of_not_under (h : ¬ Under src dst) : src ≠ root := by
  rintro rfl
  exact h (by rw [Under, components_root]; exact List.nil_prefix)

theorem Twin.child (h : Twin src dst p q) (hcs : Child p name cs) (hcd : Child q name cd) : Twin src dst cs cd := by
  obtain ⟨l, hp, hq⟩ := h
  refine ⟨l ++ [name], ?_, ?_⟩
  · rw [hcs, hp, List.append_assoc]
  · rw [hcd, hq, List.append_assoc]

end RepoPath

namespace Projection

variable {P : Projection} {ov : Overlay} {ns : Namespace} {n : Nat} {p q q' src dst cs cd : RepoPath} {name : Bytes}
  {r x : Resolved}

theorem exists_depth (h : P.store.Hierarchy P.baselineTree) :
    ∃ n, ∀ q r, P.baselineResolve q = .ok (some r) → q.components.length ≤ n := by
  obtain ⟨n, hn⟩ := (h.finite_paths.image List.length).bddAbove
  exact ⟨n, fun q r hr => hn ⟨q.components, ⟨r, hr⟩, rfl⟩⟩

theorem exists_height (h : {q | (ns q).isSome}.Finite) : ∃ n, ∀ q, (ns q).isSome → q.components.length ≤ n := by
  obtain ⟨n, hn⟩ := (h.image fun q => q.components.length).bddAbove
  exact ⟨n, fun q hq => hn ⟨q, hq, rfl⟩⟩

/-- No entry beneath `src` is deeper. -/
def Shallow (n : Nat) (src : RepoPath) (ns : Namespace) : Prop :=
  ∀ q, Under src q → (ns q).isSome → q.components.length ≤ n

theorem Shallow.effect {op : OverlayOp} (h : Shallow n src ns)
    (hop : ∀ q ∈ op.writes, Under src q → q.components.length ≤ n) (next : ContentId) :
    Shallow n src (op.effect next ns) := by
  intro q hu hq
  by_cases hw : q ∈ op.writes
  · exact hop q hw hu
  · refine h q hu (Option.isSome_iff_ne_none.mpr fun hnone => ?_)
    rw [OverlayOp.effect_none hw next hnone] at hq
    cases hq

/-- What resolves has an entry or is in the baseline. -/
theorem Shallow.resolved (h : Shallow n src ov.index.entries)
    (hbase : ∀ q r, P.baselineResolve q = .ok (some r) → q.components.length ≤ n) (hu : Under src q)
    (hq : q.Ordinary) (hr : P.resolve ov q = .ok (some r)) : q.components.length ≤ n := by
  cases he : ov.lookup q with
  | some e => exact h q hu (by rw [show ov.index.entries q = _ from he]; rfl)
  | none =>
    rw [resolve_unset hq he] at hr
    split at hr
    · cases hr
    · exact hbase q r hr

theorem length_twin (hd : ¬ Under src dst) (h : Twin src dst q q') (hu : Under src q') :
    q'.components.length ≤ q.components.length := by
  have habove : Under dst src := (under_or_under h.under.2 hu).resolve_right hd
  obtain ⟨l, hq, hq'⟩ := h
  have hlen := habove.length_le
  rw [hq, hq', List.length_append, List.length_append]
  omega

theorem writes_moveChild {op : OverlayOp} (h : moveChild cs cd x = some op) : op.writes = [cd] := by
  cases x with
  | file source y => cases source <;> cases h <;> rfl
  | symlink source => cases source <;> cases h <;> rfl
  | dir | gitfile => cases h

theorem halts_mutate (Φ Ψ : Namespace → Prop) (op : OverlayOp) (h : ∀ next ns, Φ ns → Ψ (op.effect next ns)) :
    Halts (fun w => Φ w.ns) (mutate op) fun _ w => Ψ w.ns := by
  refine halts_atom fun w _ hw _ => ?_
  show Ψ (w.overlay.step op).index.entries
  rw [Overlay.step_entries]
  exact h _ _ hw

theorem halts_inodeRename (Φ : Namespace → Prop) (old new : RepoPath) :
    Halts (fun w => Φ w.ns) (inodeRename old new) fun _ w => Φ w.ns := halts_atom fun _ _ hw _ => hw

/-- By induction on the fuel that is left: a child that is seen is one deeper, and what is made beneath
the source, if it lies beneath the destination, is no deeper than what was seen. -/
theorem halts_renameDir {src₀ dst₀ : RepoPath} (hd : ¬ Under src₀ dst₀)
    (hbase : ∀ q r, P.baselineResolve q = .ok (some r) → q.components.length ≤ n) {fuel : Nat} (hne : src ≠ root)
    (htwin : Twin src₀ dst₀ src dst) (hlen : src.components.length ≤ n)
    (hfuel : n < src.components.length + fuel) :
    Halts (fun w => Shallow n src₀ w.ns) (P.renameDir fuel src dst) fun _ w => Shallow n src₀ w.ns := by
  induction fuel generalizing src dst with
  | zero => omega
  | succ fuel ih =>
    have hwrites : ∀ (op : OverlayOp) c c', op.writes = [c'] → Twin src₀ dst₀ c c' → c.components.length ≤ n →
        Halts (fun w => Shallow n src₀ w.ns) (mutate op) fun _ w => Shallow n src₀ w.ns := by
      intro op c c' hop htwin hlen
      refine halts_mutate _ _ op fun next ns hs => hs.effect (fun q hq hu => ?_) next
      rw [hop, List.mem_singleton] at hq
      subst hq
      exact (length_twin hd htwin hu).trans hlen
    rw [renameDir_succ]
    refine halts_bind (hwrites _ src dst rfl htwin hlen) fun _ => ?_
    refine halts_bind (Q := fun kids w => (∀ kid ∈ kids, ∃ cs, Child src kid.1 cs ∧ cs.components.length ≤ n) ∧
      Shallow n src₀ w.ns) (halts_read fun w kids hw hk => ⟨fun kid hkid => ?_, hw⟩) fun kids =>
        halts_of fun hkids => ?_
    · obtain ⟨entries, he⟩ := effective hk
      obtain ⟨cs, hcs, hr⟩ := he.resolved kid hkid
      exact ⟨cs, hcs, hw.resolved hbase (htwin.under.1.trans (under_child hcs)) (hcs.ordinary hne) hr⟩
    refine halts_bind (halts_each fun kid hkid => ?_) fun _ => ?_
    · obtain ⟨cs, hcs, hlen'⟩ := hkids kid hkid
      have hlen'' : cs.components.length = src.components.length + 1 := by rw [hcs]; simp
      refine halts_bind (halts_liftExcept fun cs' w hj hw => ?_)
        (Q := fun cs' w => cs' = cs ∧ Shallow n src₀ w.ns) fun cs' => halts_of fun hcs' => ?_
      · exact ⟨((join_eq_ok.mp hj).2.unique hcs).mpr rfl, hw⟩
      subst hcs'
      refine halts_bind (halts_liftExcept fun cd w hj hw => ?_)
        (Q := fun cd w => Twin src₀ dst₀ cs' cd ∧ Shallow n src₀ w.ns) fun cd => halts_of fun htwin' => ?_
      · exact ⟨htwin.child hcs (join_eq_ok.mp hj).2, hw⟩
      split
      · exact ih hcs.ne_root htwin' hlen' (by omega)
      · split
        · rename_i op hop
          exact halts_bind (hwrites op cs' cd (writes_moveChild hop) htwin' hlen') fun _ =>
            halts_inodeRename _ cs' cd
        · exact halts_pure fun _ hw => hw
    · refine halts_bind (halts_mutate _ _ _ fun next ns hs => hs.effect (fun q hq _ => ?_) next) fun _ =>
        halts_inodeRename _ src dst
      rw [List.mem_singleton.mp hq]
      exact hlen

theorem extends_renameDir (fuel : Nat) (src dst : RepoPath) :
    Extends (P.renameDir fuel src dst) (P.renameDir (fuel + 1) src dst) := by
  induction fuel generalizing src dst with
  | zero => exact extends_diverge _
  | succ fuel ih =>
    refine extends_bind (extends_refl _) fun _ => extends_bind (extends_refl _) fun kids =>
      extends_bind (extends_each (fun kid => ?_) kids) fun _ => extends_refl _
    refine extends_bind (extends_refl _) fun cs => extends_bind (extends_refl _) fun cd => ?_
    split
    · exact ih cs cd
    · exact extends_refl _

theorem extends_renameDir_le {m n : Nat} (h : m ≤ n) (src dst : RepoPath) :
    Extends (P.renameDir m src dst) (P.renameDir n src dst) := by
  induction h with
  | refl => exact extends_refl _
  | step _ ih => exact ih.trans (extends_renameDir _ src dst)

/-- The recursion has an end, whatever lies between the two paths. -/
theorem renameDir_ends {w : World} (hov : {q | (w.ns q).isSome}.Finite) (hbase : P.store.Hierarchy P.baselineTree)
    (hd : ¬ Under src dst) : ∃ n, ∀ fuel, n ≤ fuel →
      ((P.renameDir fuel src dst).run w).1 ≠ .diverge ∧
        (P.renameDir fuel src dst).run w = (P.renameDir n src dst).run w := by
  obtain ⟨n, hn⟩ := exists_depth hbase
  obtain ⟨m, hm⟩ := exists_height hov
  have hne := ne_root_of_not_under hd
  obtain ⟨k, hnk, hmk, hk⟩ : ∃ k, n ≤ k ∧ m ≤ k ∧ src.components.length ≤ k :=
    ⟨max (max n m) src.components.length, by omega, by omega, by omega⟩
  have hhalts : Halts (fun w => Shallow k src w.ns) (P.renameDir (k + 1) src dst) fun _ w => Shallow k src w.ns :=
    halts_renameDir hd (fun q r hr => (hn q r hr).trans hnk) hne Twin.self hk (by omega)
  have hends := hhalts.ne_diverge (s := w) fun q _ hq => (hm q hq).trans hmk
  refine ⟨k + 1, fun fuel hle => ?_⟩
  have heq := extends_renameDir_le hle src dst w hends
  exact ⟨heq ▸ hends, heq⟩

end Projection

end LazyMount
