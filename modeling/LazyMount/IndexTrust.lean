import LazyMount.CommitHooks
import LazyMount.GitView

/-! The hooks of a commit beside the mount. Of a marked entry git takes the file to be as the index has it,
whatever the journal reports, until the mark is off; of a validated one it does so until a reply names the
path. -/

namespace LazyMount

open Function (update)
open ChangeFeed RepoPath Transition

namespace HookEvent

/-- The paths whose bit `update-index --fsmonitor-valid` sets. -/
def validated (index : GitIndex) : HookEvent → List Bytes
  | .next (.validate paths) => index.files.filter (paths.contains ·)
  | .next _ | .cut _ _ | .write _ | .postIndexChange _ | .commit | .stop _ _ => []

def writes : HookEvent → Bool
  | .write _ => true
  | .next _ | .cut _ _ | .postIndexChange _ | .commit | .stop _ _ => false

end HookEvent

def GitView.trusting (v : GitView) (paths : List Bytes) (recorded : RepoPath → Except Error (Option Node)) :
    GitView :=
  { v with seen := fun p => if paths.contains p.bytes then some (recorded p) else v.seen p }

@[simp] theorem GitView.trusting_nil (v : GitView) (recorded : RepoPath → Except Error (Option Node)) :
    v.trusting [] recorded = v := by
  simp [GitView.trusting]

/-- The entries of the index with their marks, what they record, and the rest of git with the mount. -/
structure Committing where
  hooks : CommitHooks
  recorded : RepoPath → Except Error (Option Node)
  view : GitView

inductive CommitEvent where
  | git (e : GitEvent)
  /-- Git writes an entry anew, or `update-index` takes its bit, and what git has seen of the file is gone. -/
  | forget (p : RepoPath)
  /-- `recorded` is what the index has from then on. -/
  | hook (e : HookEvent) (recorded : RepoPath → Except Error (Option Node))

def CommitEvent.Clean : CommitEvent → Prop
  | .hook e _ => e.Clean
  | .git _ | .forget _ => True

namespace Committing

def start (index : GitIndex) (recorded : RepoPath → Except Error (Option Node)) (w : World)
    (seen : RepoPath → Option (Except Error (Option Node))) : Committing :=
  ⟨.start index, recorded, .start w seen⟩

/-- What git takes a file to be without a look at it. It never looks at the file of a marked entry. -/
def believed (c : Committing) (p : RepoPath) : Option (Except Error (Option Node)) :=
  if c.hooks.index.marks p.bytes then some (c.recorded p) else c.view.seen p

def Right (P : Projection) (c : Committing) : Prop :=
  ∀ p x, c.believed p = some x → x = P.visible c.view.fs.world.overlay p

/-- The hooks take their commands while the mount is used, git asks and looks, and the mount is remounted. -/
inductive Step (P : Projection) (hash : UInt64) (valid : IndexEntry → Bool) :
    Committing → CommitEvent → Committing → Prop
  | git {c : Committing} {e : GitEvent} {v : GitView} (h : GitView.Step P hash c.view e v) :
    Step P hash valid c (.git e) { c with view := v }
  | forget (c : Committing) (p : RepoPath) :
    Step P hash valid c (.forget p) { c with view := { c.view with seen := update c.view.seen p none } }
  | hook {c : Committing} {e : HookEvent} {recorded : RepoPath → Except Error (Option Node)} {t : CommitHooks}
    (h : c.hooks.step valid e = some t) (hrecorded : e.writes = false → recorded = c.recorded) :
    Step P hash valid c (.hook e recorded)
      ⟨t, recorded, c.view.trusting (e.validated c.hooks.index) recorded⟩

/-- Where a hook sets the bit of an entry, the file is as the index has it, or the journal has its path. -/
def Tells (P : Projection) (c : Committing) : CommitEvent → Prop
  | .git _ | .forget _ => True
  | .hook e recorded => ∀ p, p.bytes ∈ e.validated c.hooks.index →
      p ∈ TransparentFs.marked P c.view.asked c.view.fs ∨ recorded p = P.visible c.view.fs.world.overlay p

abbrev Run (P : Projection) (hash : UInt64) (valid : IndexEntry → Bool) :
    Committing → List CommitEvent → Committing → Prop :=
  Trace fun c e d => Step P hash valid c e d ∧ c.Tells P e

variable {P : Projection} {hash : UInt64} {valid : IndexEntry → Bool} {c d : Committing} {e : CommitEvent}
  {es : List CommitEvent}

theorem sound_step (hc : c.view.Sound P hash) (h : Step P hash valid c e d) (htells : c.Tells P e) :
    d.view.Sound P hash := by
  cases h with
  | git h => exact hc.step h
  | forget p =>
    refine ⟨hc.synced, hc.kept, hc.placed, hc.believes.mono fun q x hx => ?_⟩
    by_cases hq : q = p
    · simp [hq] at hx
    · simpa [hq] using hx
  | hook h =>
    refine ⟨hc.synced, hc.kept, hc.placed, hc.believes.accept fun p hp => htells p ?_⟩
    simpa using hp

theorem Run.sound (hrun : Run P hash valid c es d) (hc : c.view.Sound P hash) : d.view.Sound P hash :=
  hrun.invariant (I := fun c => c.view.Sound P hash) (fun _ _ _ hc h => sound_step hc h.1 h.2) hc

theorem hooks_step (hc : c.hooks.Sound) (hclean : e.Clean) (h : Step P hash valid c e d) : d.hooks.Sound := by
  cases h with
  | git => exact hc
  | forget => exact hc
  | hook h => exact hc.step hclean h

theorem Run.hooks (hrun : Run P hash valid c es d) (hclean : ∀ e ∈ es, e.Clean) (hc : c.hooks.Sound) :
    d.hooks.Sound :=
  hrun.invariant_of (I := fun c => c.hooks.Sound) (fun _ _ _ he hc h => hooks_step hc he h.1) hclean hc

theorem seen_of_query (hc : c.view.Sound P hash) {version : Bytes} {v : GitView}
    (h : GitView.Step P hash c.view (.query version) v) {p : RepoPath} {x : Except Error (Option Node)}
    (hx : v.seen p = some x) : x = P.visible v.fs.world.overlay p := by
  cases h
  exact hc.believes.forget (fun q hq => GitView.told_of_marked hc.placed hq version) hx

/-- A reply makes git look again at a file that was only validated, never at one that is marked. -/
theorem right_iff (hc : c.view.Sound P hash) {t : CommitHooks} {paths : List Bytes}
    {recorded : RepoPath → Except Error (Option Node)} {version : Bytes}
    (h : Step P hash valid ⟨t, recorded, c.view.trusting paths recorded⟩ (.git (.query version)) d) :
    d.Right P ↔
      (∀ p, t.index.marks p.bytes = true → recorded p = P.visible c.view.fs.world.overlay p) ∧
        ∀ p, p.bytes ∈ paths → recorded p = P.visible c.view.fs.world.overlay p ∨
          told (hookMain hash c.view.fs.world version c.view.token) p = true := by
  cases h with
  | git h =>
    cases h
    constructor
    · intro hright
      refine ⟨fun p hp => hright p (recorded p) (by simp [believed, hp]), fun p hp => ?_⟩
      by_contra hwrong
      rw [not_or] at hwrong
      exact hwrong.1 (hright p (recorded p) (by simp [believed, GitView.trusting, hwrong.2, hp]))
    · rintro ⟨hmarked, hvalid⟩ p x hx
      by_cases hp : t.index.marks p.bytes = true
      · simp only [believed, hp, if_true, Option.some.injEq] at hx
        rw [← hx, hmarked p hp]
        rfl
      · by_cases htold : told (hookMain hash c.view.fs.world version c.view.token) p = true
        · simp [believed, hp, GitView.trusting, htold] at hx
        · by_cases hpath : p.bytes ∈ paths
          · have hrecorded := (hvalid p hpath).resolve_right htold
            simpa [believed, hp, GitView.trusting, htold, hpath, hrecorded, eq_comm] using hx
          · exact seen_of_query hc (.query c.view version)
              (by simpa [believed, hp, GitView.trusting, htold, hpath] using hx)

theorem right_iff_of_query (hc : c.view.Sound P hash) {version : Bytes}
    (h : Step P hash valid c (.git (.query version)) d) :
    d.Right P ↔
      ∀ p, c.hooks.index.marks p.bytes = true → c.recorded p = P.visible c.view.fs.world.overlay p := by
  have hquery : Step P hash valid ⟨c.hooks, c.recorded, c.view.trusting [] c.recorded⟩
      (.git (.query version)) d := by
    rwa [GitView.trusting_nil]
  simpa using right_iff hc hquery

theorem right_iff_of_hook (hc : c.view.Sound P hash) {e : HookEvent}
    {recorded : RepoPath → Except Error (Option Node)} (h : Step P hash valid c (.hook e recorded) d) :
    (∀ version u, Step P hash valid d (.git (.query version)) u → u.Right P) ↔
      (∀ p, d.hooks.index.marks p.bytes = true → recorded p = P.visible c.view.fs.world.overlay p) ∧
        ∀ p, p.bytes ∈ e.validated c.hooks.index → recorded p = P.visible c.view.fs.world.overlay p ∨
          ∀ version, told (hookMain hash c.view.fs.world version c.view.token) p = true := by
  have hasks : ∀ version, ∃ u, Step P hash valid d (.git (.query version)) u :=
    fun version => ⟨_, .git (.query d.view version)⟩
  cases h with
  | hook =>
    constructor
    · intro hright
      obtain ⟨u, hu⟩ := hasks []
      refine ⟨((right_iff hc hu).1 (hright [] u hu)).1, fun p hp => ?_⟩
      by_contra hwrong
      rw [not_or, not_forall] at hwrong
      obtain ⟨hdiffers, version, hquiet⟩ := hwrong
      obtain ⟨v, hv⟩ := hasks version
      exact (((right_iff hc hv).1 (hright version v hv)).2 p hp).elim hdiffers hquiet
    · rintro ⟨hmarked, hvalid⟩ version u hquery
      exact (right_iff hc hquery).2 ⟨hmarked, fun p hp => (hvalid p hp).imp_right fun hall => hall version⟩

/-- Commands of the hooks alone. -/
theorem run_hooks {t : CommitHooks} (hs : List HookEvent)
    (h : Machine.run (CommitHooks.step valid) c.hooks hs = some t)
    (hquiet : ∀ e ∈ hs, e.writes = false ∧ ∀ index, e.validated index = []) :
    Run P hash valid c (hs.map fun e => .hook e c.recorded) { c with hooks := t } := by
  induction hs generalizing c with
  | nil =>
    cases h
    exact .nil c
  | cons e hs ih =>
    obtain ⟨u, hu, ht⟩ := Machine.run_cons.1 h
    have hnone := (hquiet e List.mem_cons_self).2 c.hooks.index
    have hhead : Step P hash valid c (.hook e c.recorded) { c with hooks := u } := by
      have hstep : Step P hash valid c (.hook e c.recorded)
          ⟨u, c.recorded, c.view.trusting (e.validated c.hooks.index) c.recorded⟩ := .hook hu fun _ => rfl
      rwa [hnone, GitView.trusting_nil] at hstep
    have htail := ih (c := { c with hooks := u }) ht fun e he => hquiet e (List.mem_cons_of_mem _ he)
    exact .cons ⟨hhead, by simp [Tells, hnone]⟩ htail

end Committing

open Committing

end LazyMount
