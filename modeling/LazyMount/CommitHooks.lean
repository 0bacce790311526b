import LazyMount.Bytes
import LazyMount.Lib.Machine

/-! The hooks that make a commit after `git add` cheap: the one marks all entries of the index, so that git
fetches none of them, and the others take the marks off again. A file tells them that there are marks. -/

namespace LazyMount

/-- The global options of git that take the next argument. -/
def valueOptions : List Bytes :=
  ["-C", "-c", "--git-dir", "--work-tree", "--namespace", "--super-prefix", "--config-env"].map ascii

/-- `${arg##*/}` -/
def baseOf (arg : Bytes) : Bytes := (arg.reverse.takeWhile (· != 47)).reverse

/-- The arguments behind `git`: the first that is neither an option nor a value of one decides. -/
def verbIsAdd : Bool → List Bytes → Bool
  | _, [] => false
  | true, _ :: args => verbIsAdd false args
  | false, arg :: args =>
    if valueOptions.contains arg then verbIsAdd true args
    else if arg.head? = some 45 then verbIsAdd false args
    else arg == ascii "add"

/-- `is_git_add`, for the command line of the process that runs the hook. -/
def isGitAdd (cmdline : List Bytes) : Bool :=
  match cmdline.dropWhile (baseOf · != ascii "git") with
  | [] => false
  | _ :: args => verbIsAdd false args

/-- Global options of git with their values. -/
inductive GlobalOptions : List Bytes → Prop
  | nil : GlobalOptions []
  | value {flag value : Bytes} {rest : List Bytes} (h : flag ∈ valueOptions) (hrest : GlobalOptions rest) :
      GlobalOptions (flag :: value :: rest)
  | flag {flag : Bytes} {rest : List Bytes} (h : flag ∉ valueOptions) (hdash : flag.head? = some 45)
      (hrest : GlobalOptions rest) : GlobalOptions (flag :: rest)

theorem verbIsAdd_options {options : List Bytes} (h : GlobalOptions options) (args : List Bytes) :
    verbIsAdd false (options ++ args) = verbIsAdd false args := by
  induction h with
  | nil => simp
  | value hflag _ ih => simp [verbIsAdd, hflag, ih]
  | flag hflag hdash _ ih => simp [verbIsAdd, hflag, hdash, ih]

/-- Whatever global options stand before it, the verb decides. -/
theorem isGitAdd_options {options : List Bytes} (h : GlobalOptions options) {git verb : Bytes}
    (hgit : baseOf git = ascii "git") (hvalue : verb ∉ valueOptions) (hdash : verb.head? ≠ some 45)
    (args : List Bytes) : isGitAdd (git :: (options ++ verb :: args)) = (verb == ascii "add") := by
  have hverb : verbIsAdd false (options ++ verb :: args) = (verb == ascii "add") := by
    rw [verbIsAdd_options h]
    simp [verbIsAdd, hvalue, hdash]
  simp [isGitAdd, hgit, hverb]

/-- The hooks run `git update-index` themselves. -/
example : isGitAdd ([ "/usr/bin/git", "update-index", "--skip-worktree", "-z", "--stdin"].map ascii) = false := by
  decide

structure IndexEntry where
  path : Bytes
  skipWorktree : Bool
  fsmonitorValid : Bool
deriving DecidableEq, Repr

abbrev GitIndex := List IndexEntry

namespace GitIndex

/-- `git ls-files -z` -/
def files (index : GitIndex) : List Bytes := index.map (·.path)

def skips (index : GitIndex) : Bool := index.any (·.skipWorktree)

def marks (index : GitIndex) (path : Bytes) : Bool := index.any fun e => e.skipWorktree && e.path == path

/-- Every marked entry has a path of the list. -/
def skipsOnly (paths : List Bytes) (index : GitIndex) : Bool :=
  index.all fun e => !e.skipWorktree || paths.contains e.path

/-- `git update-index --skip-worktree` or `--no-skip-worktree`; what that makes of the other bit is up to git. -/
def markSkip (valid : IndexEntry → Bool) (bit : Bool) (paths : List Bytes) (index : GitIndex) : GitIndex :=
  index.map fun e =>
    if paths.contains e.path then { e with skipWorktree := bit, fsmonitorValid := valid e } else e

/-- `git update-index --fsmonitor-valid` -/
def markValid (paths : List Bytes) (index : GitIndex) : GitIndex :=
  index.map fun e => if paths.contains e.path then { e with fsmonitorValid := true } else e

end GitIndex

/-- The command a hook is in front of. -/
inductive HookPoint where
  | guardTest
  | addGuard
  | list
  | mark (paths : List Bytes)
  | activate
  | addExit
  | activeTest
  | commitGuard
  | save
  | unmark (paths : List Bytes)
  | validate (paths : List Bytes)
  | deactivate
  | commitExit
deriving DecidableEq, Repr

namespace HookPoint

/-- The guard is there, and the trap removes it. -/
def guarded : HookPoint → Bool
  | .guardTest | .addGuard | .activeTest | .commitGuard => false
  | .list | .mark _ | .activate | .addExit | .save | .unmark _ | .validate _ | .deactivate | .commitExit => true

/-- The hook is `commit-msg` or `post-commit`. -/
def ofCommit : HookPoint → Bool
  | .guardTest | .addGuard | .list | .mark _ | .activate | .addExit => false
  | .activeTest | .commitGuard | .save | .unmark _ | .validate _ | .deactivate | .commitExit => true

end HookPoint

/-- The index, the files `glm-skipworktree-hook.guard` and `glm-skipworktree-active`, and the hook that runs. -/
structure CommitHooks where
  index : GitIndex
  guard : Bool
  active : Bool
  hook : Option HookPoint
deriving DecidableEq

inductive HookEvent where
  /-- A command of git writes the index. -/
  | write (index : GitIndex)
  | postIndexChange (cmdline : List Bytes)
  /-- `commit-msg` or `post-commit` -/
  | commit
  /-- The next command of the hook succeeds. -/
  | next (p : HookPoint)
  /-- `ls-files` fails, and `update-index` marks what it got. -/
  | cut (paths got : List Bytes)
  /-- The command fails, or the hook is killed, in which case no trap runs. -/
  | stop (p : HookPoint) (killed : Bool)
deriving DecidableEq

namespace CommitHooks

def start (index : GitIndex) : CommitHooks := ⟨index, false, false, none⟩

def goTo (s : CommitHooks) (p : HookPoint) : CommitHooks := { s with hook := some p }

/-- The hook exits by itself. -/
def exit (s : CommitHooks) (p : HookPoint) : CommitHooks :=
  { s with guard := s.guard && !p.guarded, hook := none }

def next (valid : IndexEntry → Bool) (s : CommitHooks) : HookPoint → CommitHooks
  | .guardTest => if s.guard then s.exit .guardTest else s.goTo .addGuard
  | .addGuard => { s.goTo .list with guard := true }
  | .list => s.goTo (.mark s.index.files)
  | .mark paths => { s.goTo .activate with index := s.index.markSkip valid true paths }
  | .activate => { s.goTo .addExit with active := true }
  | .addExit => s.exit .addExit
  | .activeTest => if s.active then s.goTo .commitGuard else s.exit .activeTest
  | .commitGuard => { s.goTo .save with guard := true }
  | .save => s.goTo (.unmark s.index.files)
  | .unmark paths => { s.goTo (.validate paths) with index := s.index.markSkip valid false paths }
  | .validate paths => { s.goTo .deactivate with index := s.index.markValid paths }
  | .deactivate => { s.goTo .commitExit with active := false }
  | .commitExit => s.exit .commitExit

/-- What a command of git may leave in the index. None marks entries by itself, and a mark gets no new path
while a hook is about to take the marks off. -/
def allows (s : CommitHooks) (index : GitIndex) : Bool :=
  match s.hook with
  | some (.unmark _) => index.skipsOnly (GitIndex.files (s.index.filter (·.skipWorktree)))
  | _ => !index.skips || s.index.skips

/-- Hooks that have something to do do not overlap. -/
def step (valid : IndexEntry → Bool) (s : CommitHooks) : HookEvent → Option CommitHooks
  | .write index => if s.allows index then some { s with index } else none
  | .postIndexChange cmdline =>
    if isGitAdd cmdline = false then some s else if s.hook = none then some (s.goTo .guardTest) else none
  | .commit => if s.hook = none then some (s.goTo .activeTest) else none
  | .next p => if s.hook = some p then some (s.next valid p) else none
  | .cut paths got =>
    if s.hook = some (.mark paths) ∧ got.isPrefixOf paths then
      some ({ s with index := s.index.markSkip valid true got }.exit (.mark paths))
    else none
  | .stop p killed =>
    if s.hook = some p then some (if killed then { s with hook := none } else s.exit p) else none

end CommitHooks

namespace GitIndex

variable {index index' : GitIndex} {paths : List Bytes}

theorem skips_iff : index.skips = true ↔ ∃ e ∈ index, e.skipWorktree = true := by simp [skips]

theorem marks_of_unskipped (h : index.skips = false) (path : Bytes) : index.marks path = false := by
  simp only [skips, List.any_eq_false] at h
  simp only [marks, List.any_eq_false]
  intro e he
  simp [h e he]

theorem skipsOnly_iff : index.skipsOnly paths = true ↔ ∀ e ∈ index, e.skipWorktree = true → e.path ∈ paths := by
  simp [skipsOnly, or_iff_not_imp_left]

theorem skipsOnly_files (index : GitIndex) : index.skipsOnly index.files = true := by
  rw [skipsOnly_iff]
  intro e he _
  exact List.mem_map_of_mem he

theorem skipsOnly_of_marked (h : index'.skipsOnly (GitIndex.files (index.filter (·.skipWorktree))) = true)
    (hold : index.skipsOnly paths = true) : index'.skipsOnly paths = true := by
  rw [skipsOnly_iff] at h hold ⊢
  intro e he hskip
  obtain ⟨old, hmem, hpath⟩ := List.mem_map.1 (h e he hskip)
  rw [List.mem_filter] at hmem
  rw [← hpath]
  exact hold old hmem.1 hmem.2

theorem skips_of_marked (h : index'.skipsOnly (GitIndex.files (index.filter (·.skipWorktree))) = true)
    (hskips : index'.skips = true) : index.skips = true := by
  rw [skips_iff] at hskips ⊢
  rw [skipsOnly_iff] at h
  obtain ⟨e, he, hskip⟩ := hskips
  obtain ⟨old, hmem, -⟩ := List.mem_map.1 (h e he hskip)
  exact ⟨old, List.mem_filter.1 hmem⟩

/-- No mark is left where the list has them all. -/
theorem skips_unmark (valid : IndexEntry → Bool) (h : index.skipsOnly paths = true) :
    (index.markSkip valid false paths).skips = false := by
  rw [skipsOnly_iff] at h
  rw [Bool.eq_false_iff, ne_eq, skips_iff]
  rintro ⟨e, he, hskip⟩
  obtain ⟨old, hmem, rfl⟩ := List.mem_map.1 he
  by_cases hpath : old.path ∈ paths
  · simp [hpath] at hskip
  · simp only [List.contains_iff_mem, hpath, if_false] at hskip
    exact hpath (h old hmem hskip)

@[simp] theorem skips_markValid (index : GitIndex) (paths : List Bytes) :
    (index.markValid paths).skips = index.skips := by
  rw [skips, markValid, List.any_map, skips]
  congr 1
  funext e
  rw [Function.comp_apply]
  split <;> rfl

end GitIndex

namespace HookEvent

/-- The hook of `git add` does not stop between its marks and the file that tells of them. -/
def Clean : HookEvent → Prop
  | .cut _ _ | .stop .activate _ => False
  | .write _ | .postIndexChange _ | .commit | .next _ | .stop _ _ => True

def kills : HookEvent → Bool
  | .stop _ killed => killed
  | .write _ | .postIndexChange _ | .commit | .next _ | .cut _ _ => false

end HookEvent

namespace CommitHooks

structure Sound (s : CommitHooks) : Prop where
  marked : s.index.skips = true → s.active = true ∨ s.hook = some .activate
  listed : ∀ paths, s.hook = some (.unmark paths) → s.index.skipsOnly paths = true
  unmarked : ∀ p, s.hook = some p → ((∃ paths, p = .validate paths) ∨ p = .deactivate) → s.index.skips = false
  inactive : s.hook = some .commitExit → s.active = false

variable {valid : IndexEntry → Bool} {s t : CommitHooks} {e : HookEvent} {p : HookPoint}

theorem sound_start {index : GitIndex} (h : index.skips = false) : (start index).Sound :=
  ⟨by simp [start, h], by simp [start], by simp [start], by simp [start]⟩

/-- A hook goes on, or exits, with the index and the file as they are. -/
theorem Sound.move (h : s.Sound) (hleaves : s.hook ≠ some .activate) (hindex : t.index = s.index)
    (hactive : t.active = s.active)
    (hhook : ∀ p, t.hook = some p →
      (∀ paths, p ≠ .unmark paths ∧ p ≠ .validate paths) ∧ p ≠ .deactivate ∧ p ≠ .commitExit) :
    t.Sound := by
  constructor
  · intro hskips
    rw [hindex] at hskips
    rw [hactive]
    exact Or.inl ((h.marked hskips).resolve_right hleaves)
  · intro paths hp
    exact absurd rfl ((hhook _ hp).1 paths).1
  · rintro p hp (⟨paths, rfl⟩ | rfl)
    · exact absurd rfl ((hhook _ hp).1 paths).2
    · exact absurd rfl (hhook _ hp).2.1
  · intro hp
    exact absurd rfl (hhook _ hp).2.2

theorem Sound.next (h : s.Sound) (hp : s.hook = some p) : (s.next valid p).Sound := by
  cases p with
  | guardTest =>
    rw [CommitHooks.next]
    split <;> exact h.move (by simp [hp]) rfl rfl (by simp [goTo, exit])
  | activeTest =>
    rw [CommitHooks.next]
    split <;> exact h.move (by simp [hp]) rfl rfl (by simp [goTo, exit])
  | addGuard | commitGuard | list | addExit | commitExit =>
    exact h.move (by simp [hp]) rfl rfl (by simp [CommitHooks.next, goTo, exit])
  | mark paths | activate => constructor <;> simp [CommitHooks.next, goTo]
  | save =>
    have hmarked := h.marked
    rw [hp] at hmarked
    constructor <;> simp [CommitHooks.next, goTo, GitIndex.skipsOnly_files]
    simpa using hmarked
  | unmark paths =>
    have hnone := GitIndex.skips_unmark valid (h.listed paths hp)
    constructor <;> simp [CommitHooks.next, goTo, hnone]
  | validate paths =>
    have hnone := h.unmarked _ hp (Or.inl ⟨paths, rfl⟩)
    constructor <;> simp [CommitHooks.next, goTo, hnone]
  | deactivate =>
    have hnone := h.unmarked _ hp (Or.inr rfl)
    constructor <;> simp [CommitHooks.next, goTo, hnone]

theorem skips_of_allows {index : GitIndex} (h : s.allows index = true) (hskips : index.skips = true) :
    s.index.skips = true := by
  rw [allows] at h
  split at h
  · exact GitIndex.skips_of_marked h hskips
  · simpa [hskips] using h

theorem Sound.write (h : s.Sound) {index : GitIndex} (hallows : s.allows index = true) : Sound { s with index } := by
  have hnone : s.index.skips = false → index.skips = false := by
    intro hold
    rw [← Bool.not_eq_true] at hold ⊢
    exact fun hskips => hold (skips_of_allows hallows hskips)
  refine ⟨fun hskips => h.marked (skips_of_allows hallows hskips), fun paths hp => ?_,
    fun p hp hat => hnone (h.unmarked p hp hat), h.inactive⟩
  have hp' : s.hook = some (.unmark paths) := hp
  simp only [allows, hp'] at hallows
  exact GitIndex.skipsOnly_of_marked hallows (h.listed paths hp')

/-- What a step does. -/
inductive Moves (valid : IndexEntry → Bool) (s : CommitHooks) : HookEvent → CommitHooks → Prop
  | write {index : GitIndex} (h : s.allows index = true) : Moves valid s (.write index) { s with index }
  | ignore {cmdline : List Bytes} (h : isGitAdd cmdline = false) : Moves valid s (.postIndexChange cmdline) s
  | add {cmdline : List Bytes} (h : s.hook = none) : Moves valid s (.postIndexChange cmdline) (s.goTo .guardTest)
  | commit (h : s.hook = none) : Moves valid s .commit (s.goTo .activeTest)
  | next {p : HookPoint} (h : s.hook = some p) : Moves valid s (.next p) (s.next valid p)
  | cut {paths got : List Bytes} (h : s.hook = some (.mark paths)) :
      Moves valid s (.cut paths got) ({ s with index := s.index.markSkip valid true got }.exit (.mark paths))
  | fail {p : HookPoint} (h : s.hook = some p) : Moves valid s (.stop p false) (s.exit p)
  | kill {p : HookPoint} (h : s.hook = some p) : Moves valid s (.stop p true) { s with hook := none }

theorem moves_of_step (h : s.step valid e = some t) : Moves valid s e t := by
  cases e <;> simp only [CommitHooks.step, Option.ite_none_right_eq_some, Option.some.injEq] at h
  case postIndexChange cmdline =>
    split at h
    · rename_i hadd
      cases h
      exact .ignore hadd
    · simp only [Option.ite_none_right_eq_some, Option.some.injEq] at h
      obtain ⟨hnone, rfl⟩ := h
      exact .add hnone
  case stop p killed =>
    obtain ⟨hp, rfl⟩ := h
    cases killed with
    | false => exact .fail hp
    | true => exact .kill hp
  all_goals obtain ⟨hguard, rfl⟩ := h
  case write => exact .write hguard
  case commit => exact .commit hguard
  case next => exact .next hguard
  case cut => exact .cut hguard.1

theorem Sound.step (h : s.Sound) (hclean : e.Clean) (hstep : s.step valid e = some t) : t.Sound := by
  have hleaves : ∀ {p killed}, s.hook = some p → e = .stop p killed → s.hook ≠ some .activate := by
    rintro p killed hp rfl hactivate
    rw [hp, Option.some.injEq] at hactivate
    rw [hactivate] at hclean
    exact hclean
  cases moves_of_step hstep with
  | write hallows => exact h.write hallows
  | ignore => exact h
  | add hnone | commit hnone => exact h.move (by simp [hnone]) rfl rfl (by simp [goTo])
  | next hp => exact h.next hp
  | cut => exact hclean.elim
  | fail hp | kill hp => exact h.move (hleaves hp rfl) rfl rfl (by simp [exit])

/-- The guard is there while a hook needs it, and no longer. -/
def Tidy (s : CommitHooks) : Prop := s.guard = s.hook.any HookPoint.guarded

theorem Tidy.next (h : s.Tidy) (hp : s.hook = some p) : (s.next valid p).Tidy := by
  rw [Tidy, hp, Option.any_some] at h
  cases p with
  | guardTest =>
    have hfree : s.guard = false := h
    simp [CommitHooks.next, hfree, Tidy, goTo, HookPoint.guarded]
  | activeTest =>
    have hfree : s.guard = false := h
    rw [CommitHooks.next]
    split <;> simp [Tidy, goTo, exit, hfree, HookPoint.guarded]
  | addGuard | commitGuard | addExit | commitExit => simp [CommitHooks.next, Tidy, goTo, exit, HookPoint.guarded]
  | list | mark | activate | save | unmark | validate | deactivate =>
    simpa [CommitHooks.next, Tidy, goTo, HookPoint.guarded] using h

theorem Tidy.step (h : s.Tidy) (he : e.kills = false) (hstep : s.step valid e = some t) : t.Tidy := by
  cases moves_of_step hstep with
  | write | ignore => exact h
  | add hnone | commit hnone => simpa [Tidy, goTo, hnone, HookPoint.guarded] using h
  | next hp => exact h.next hp
  | cut => simp [Tidy, exit, HookPoint.guarded]
  | fail hp =>
    rw [Tidy, hp, Option.any_some] at h
    simp [Tidy, exit, h]
  | kill => cases he

/-- A hook of a commit that exits by itself has taken off all marks, or there were none. -/
theorem Sound.of_commit (h : s.Sound) (hp : p.ofCommit = true) (hstep : s.step valid (.next p) = some t)
    (hend : t.hook = none) : t.active = false ∧ t.index.skips = false := by
  have ht : t.Sound := h.step (by trivial) hstep
  have hactive : t.active = false := by
    cases moves_of_step hstep with
    | next hat =>
      cases p with
      | guardTest | addGuard | list | mark | activate | addExit => cases hp
      | activeTest =>
        rw [CommitHooks.next] at hend ⊢
        split at hend
        · cases hend
        · rename_i hinactive
          simp [hinactive, exit]
      | commitGuard | save | unmark | validate | deactivate => cases hend
      | commitExit => exact h.inactive hat
  refine ⟨hactive, ?_⟩
  rw [← Bool.not_eq_true]
  intro hskips
  have hwhere := ht.marked hskips
  rw [hactive, hend] at hwhere
  simp at hwhere

end CommitHooks

open CommitHooks

end LazyMount
