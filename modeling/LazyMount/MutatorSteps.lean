import LazyMount.Announced
import LazyMount.MutatorRace

/-! One step of a mutator, seen from a path that it changes. -/

namespace LazyMount

open Function (update)
open Transition

namespace MutatorStep

def onSidecar (p : RepoPath) : MutatorStep → Bool
  | .renameTmp q | .removeSidecar q => q = p
  | _ => false

def onIndex (p : RepoPath) : MutatorStep → Bool
  | .updateIndex upd => (upd.leaves p).isSome
  | _ => false

end MutatorStep

/-- Which of the two calls takes the last of the steps that `f` picks. -/
def lastBy (f : MutatorStep → Bool) (ls : List (Bool × MutatorStep)) : Option Bool :=
  (ls.reverse.find? fun l => f l.2).map Prod.fst

theorem lastBy_snoc (f : MutatorStep → Bool) (ls : List (Bool × MutatorStep)) (l : Bool × MutatorStep) :
    lastBy f (ls ++ [l]) = if f l.2 then some l.1 else lastBy f ls := by
  rw [lastBy, List.reverse_append, List.reverse_singleton, List.singleton_append, List.find?_cons]
  cases f l.2 <;> rfl

theorem IndexUpdate.apply_entries (upd : IndexUpdate) (idx : Index) (p : RepoPath) :
    (upd.apply idx).entries p = (upd.leaves p).getD (idx.entries p) := by
  cases upd with
  | insert q e =>
    by_cases hp : p = q
    · simp [apply, leaves, hp]
    · simp [apply, leaves, hp, Function.update_of_ne]
  | remove q =>
    by_cases hp : p = q
    · simp [apply, leaves, hp]
    · simp [apply, leaves, hp, Function.update_of_ne]
  | rekey src dst e =>
    by_cases hs : p = src
    · simp [apply, leaves, hs]
    · by_cases hd : p = dst
      · subst hd
        simp [apply, leaves, hs, Function.update_of_ne]
      · simp [apply, leaves, hs, hd, Function.update_of_ne]

/-- What is left of the plan ends with the entry `e` at `p`, on disk and in the index. -/
structure Plan.Ends (p : RepoPath) (e : Option OverlayEntry) (plan : Plan) : Prop where
  update : plan.update.leaves p = some e
  remove : plan.remove = some p → e = none
  persist : ∀ g, plan.persist = some (p, g) → plan.remove ≠ some p → e = some g

/-- How far a call is, as far as `p` is concerned; `removes` says that it removes the sidecar
after it has renamed the temp file over it. -/
inductive Stage where
  | idle
  | before
  | writing (fd : Nat) (entry : OverlayEntry) (removes : Bool)
  | publishing (removes : Bool)
  | removing
  | after
  | ok
  | error

def Plan.stage (p : RepoPath) (plan : Plan) : Stage :=
  if plan.persist.map Prod.fst = some p then .before
  else if plan.remove = some p then .removing
  else .after

namespace Call

def stage (p : RepoPath) : Call → Stage
  | .start _ => .idle
  | .running plan => plan.stage p
  | .writing fd q g rest => if q = p then .writing fd g (rest.remove = some p) else rest.stage p
  | .publishing q rest => if q = p then .publishing (rest.remove = some p) else rest.stage p
  | .ok => .ok
  | .error => .error

def Ends (p : RepoPath) (e : Option OverlayEntry) : Call → Prop
  | .running plan => plan.Ends p e
  | .writing _ q g rest => rest.Ends p e ∧ rest.persist = none ∧
      (q = p → rest.remove ≠ some p → e = some g)
  | .publishing _ rest => rest.Ends p e ∧ rest.persist = none
  | _ => True

end Call

/-- What one step can do to the files of a path: nothing, or what the stage says. The two flags
tell whether the step is on the sidecar, and on the index. -/
inductive LocalStep (overwrite : SidecarText → OverlayEntry → SidecarText) (e : Option OverlayEntry)
    (f : PathFiles) : Stage → Bool → Bool → PathFiles → Stage → Prop
  | quiet {st : Stage} : LocalStep overwrite e f st false false f st
  | create {g : OverlayEntry} {removes : Bool} (hg : removes = false → e = some g) :
    LocalStep overwrite e f .before false false f.create.2 (.writing f.create.1 g removes)
  | write {fd : Nat} {g : OverlayEntry} {removes : Bool} (hg : removes = false → e = some g) :
    LocalStep overwrite e f (.writing fd g removes) false false (f.write overwrite fd g) (.publishing removes)
  | publish {f' : PathFiles} {removes : Bool} (hf : f.publish = some f') :
    LocalStep overwrite e f (.publishing removes) true false f' (if removes then .removing else .after)
  | stuck {st : Stage} {onSidecar : Bool} : LocalStep overwrite e f st onSidecar false f .error
  | remove (he : e = none) : LocalStep overwrite e f .removing true false f.remove .after
  | update : LocalStep overwrite e f .after false true f .ok

section Local

variable {overwrite : SidecarText → OverlayEntry → SidecarText} {s s' : Shared} {c c' : Call}
  {l : MutatorStep} {p : RepoPath} {e : Option OverlayEntry}

theorem Shared.files_setFiles_ne (s : Shared) {p q : RepoPath} (h : p ≠ q) (f : PathFiles) :
    (s.setFiles q f).files p = s.files p := Function.update_of_ne h _ _

theorem Call.step_local (he : c.Ends p e) (hc : ∀ op, c ≠ .start op)
    (h : c.step overwrite s = some (l, s', c')) :
    LocalStep overwrite e (s.files p) (c.stage p) (l.onSidecar p) (l.onIndex p) (s'.files p) (c'.stage p) ∧
      c'.Ends p e ∧ s'.index.entries p = (if l.onIndex p then e else s.index.entries p) ∧
      s'.contentSeq = s.contentSeq ∧ s'.pid = s.pid := by
  cases c with
  | start op => exact (hc op rfl).elim
  | ok | error => cases h
  | running plan =>
    obtain ⟨content, persist, remove, upd⟩ := plan
    cases content with
    | cons op ops =>
      cases h
      have hs : (s.execContent op).files = s.files ∧ (s.execContent op).index = s.index ∧
          (s.execContent op).contentSeq = s.contentSeq ∧ (s.execContent op).pid = s.pid := by
        cases op <;> exact ⟨rfl, rfl, rfl, rfl⟩
      rw [hs.1, hs.2.1]
      exact ⟨.quiet, ⟨he.update, he.remove, he.persist⟩, rfl, hs.2.2⟩
    | nil =>
      cases persist with
      | some x =>
        obtain ⟨q, g⟩ := x
        cases h
        have hrest : Plan.Ends p e ⟨[], none, remove, upd⟩ := ⟨he.update, he.remove, by simp⟩
        by_cases hq : q = p
        · subst hq
          have hg : remove ≠ some q → e = some g := he.persist g rfl
          refine ⟨?_, ⟨hrest, rfl, fun _ => hg⟩, rfl, rfl, rfl⟩
          simp only [stage, Plan.stage, Option.map_some, if_true, Shared.files_setFiles]
          exact .create fun hr => hg (of_decide_eq_false hr)
        · refine ⟨?_, ⟨hrest, rfl, fun h => (hq h).elim⟩, rfl, rfl, rfl⟩
          rw [Shared.files_setFiles_ne s (Ne.symm hq)]
          simp only [stage, Plan.stage, Option.map_some, Option.some.injEq, hq, Option.map_none,
            reduceCtorEq]
          exact .quiet
      | none =>
        cases remove with
        | some q =>
          cases h
          have hrest : Plan.Ends p e ⟨[], none, none, upd⟩ := ⟨he.update, by simp, by simp⟩
          refine ⟨?_, hrest, rfl, rfl, rfl⟩
          by_cases hq : q = p
          · subst hq
            simp only [stage, Plan.stage, if_true, Shared.files_setFiles, Option.map_none, reduceCtorEq,
              if_false, MutatorStep.onSidecar, MutatorStep.onIndex, decide_true]
            exact .remove (he.remove rfl)
          · rw [Shared.files_setFiles_ne s (Ne.symm hq)]
            simp only [stage, Plan.stage, Option.some.injEq, hq, Option.map_none, reduceCtorEq,
              if_false, MutatorStep.onSidecar, MutatorStep.onIndex, decide_false]
            exact .quiet
        | none =>
          cases h
          have hleaves : upd.leaves p = some e := he.update
          refine ⟨?_, trivial, ?_, rfl, rfl⟩
          · simp only [stage, Plan.stage, Option.map_none, reduceCtorEq, if_false,
              MutatorStep.onSidecar, MutatorStep.onIndex, hleaves, Option.isSome_some]
            exact .update
          · show (upd.apply s.index).entries p = _
            simp only [IndexUpdate.apply_entries, MutatorStep.onIndex, hleaves, Option.getD_some,
              Option.isSome_some, if_true]
  | writing fd q g rest =>
    cases h
    obtain ⟨hrest, hpersist, hg⟩ := he
    refine ⟨?_, ⟨hrest, hpersist⟩, rfl, rfl, rfl⟩
    by_cases hq : q = p
    · subst hq
      simp only [stage, if_true, Shared.files_setFiles]
      exact .write fun hr => hg rfl (of_decide_eq_false hr)
    · rw [Shared.files_setFiles_ne s (Ne.symm hq)]
      simp only [stage, if_neg hq]
      exact .quiet
  | publishing q rest =>
    obtain ⟨hrest, hpersist⟩ := he
    simp only [step] at h
    split at h
    · rename_i f hf
      cases h
      refine ⟨?_, hrest, rfl, rfl, rfl⟩
      by_cases hq : q = p
      · subst hq
        simp only [stage, if_true, Shared.files_setFiles, MutatorStep.onSidecar, MutatorStep.onIndex,
          decide_true, Plan.stage, hpersist, Option.map_none, reduceCtorEq]
        have hstep : LocalStep overwrite e (s.files q) (.publishing (rest.remove = some q)) true false f
            (if decide (rest.remove = some q) = true then .removing else .after) := .publish hf
        simpa using hstep
      · rw [Shared.files_setFiles_ne s (Ne.symm hq)]
        simp only [stage, MutatorStep.onSidecar, MutatorStep.onIndex, hq, decide_false]
        exact .quiet
    · cases h
      exact ⟨.stuck, trivial, rfl, rfl, rfl⟩

/-- A call that has begun and done nothing at the path yet, or that has ended at once. -/
def Stage.Begun (st : Stage) : Prop := st = .before ∨ st = .removing ∨ st = .ok ∨ st = .error

theorem OverlayOp.begin_local {op : OverlayOp} (next : ContentId) (ns : Namespace)
    (hp : p ∈ op.touched) :
    (op.begin next ns).Ends p (op.effect next ns p) ∧ ((op.begin next ns).stage p).Begun := by
  have hput : ∀ content g, Plan.Ends p (some g) (.put content p g) ∧
      ((Plan.put content p g).stage p).Begun := by
    intro content g
    have hends : Plan.Ends p (some g) (.put content p g) :=
      ⟨by simp [Plan.put, IndexUpdate.leaves], by simp [Plan.put], by simp [Plan.put]⟩
    exact ⟨hends, .inl (by simp [Plan.put, Plan.stage])⟩
  cases op with
  | createFile q | putSymlink q | putDir q | putBaseRef q | tombstone q =>
    obtain rfl := List.mem_singleton.mp hp
    simp only [effect, Function.update_self]
    exact hput _ _
  | clear q =>
    obtain rfl := List.mem_singleton.mp hp
    have hends : Plan.Ends p none (.clear (dropContent ns p) p) :=
      ⟨by simp [Plan.clear, IndexUpdate.leaves], by simp, by simp [Plan.clear]⟩
    simp only [effect, Function.update_self]
    exact ⟨hends, .inr (.inl (by simp [begin, Call.stage, Plan.clear, Plan.stage]))⟩
  | setExecutable q x =>
    obtain rfl := List.mem_singleton.mp hp
    simp only [begin, effect]
    split
    · rename_i c y hc
      simp only [hc, Function.update_self]
      exact hput [] (.file c x)
    · exact ⟨trivial, .inr (.inr (.inr rfl))⟩
  | rename src dst =>
    have hmem : p = src ∨ p = dst := by simpa [touched] using hp
    cases he : ns src with
    | none =>
      simp only [begin, effect, he]
      exact ⟨trivial, .inr (.inr (.inl rfl))⟩
    | some g =>
      simp only [begin, effect, he]
      by_cases hs : p = src
      · subst hs
        have hends : Plan.Ends p none (.rename p dst g) :=
          ⟨by simp [Plan.rename, IndexUpdate.leaves], by simp, by simp [Plan.rename]⟩
        simp only [Function.update_self]
        by_cases hd : dst = p
        · exact ⟨hends, .inl (by simp [Call.stage, Plan.rename, Plan.stage, hd])⟩
        · exact ⟨hends, .inr (.inl (by simp [Call.stage, Plan.rename, Plan.stage, hd]))⟩
      · obtain rfl := hmem.resolve_left hs
        have hends : Plan.Ends p (some g) (.rename src p g) := by
          refine ⟨by simp [Plan.rename, IndexUpdate.leaves, hs], ?_, by simp [Plan.rename]⟩
          intro hr
          exact (hs (Option.some.inj hr).symm).elim
        simp only [Function.update_of_ne hs, Function.update_self]
        exact ⟨hends, .inl (by simp [Call.stage, Plan.rename, Plan.stage])⟩

end Local

end LazyMount
