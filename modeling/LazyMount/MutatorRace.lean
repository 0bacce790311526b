import LazyMount.Lib.Trace
import LazyMount.OverlaySessions

/-! Two mutators of the overlay at once, step by step. The files of the meta directory are inodes
with names: a descriptor of a temp file keeps its inode when the name moves. -/

namespace LazyMount

open Function (update)
open Transition

/-- What a sidecar file reads as: it is empty, it does not parse, or it holds an entry. -/
inductive SidecarText where
  | blank
  | torn
  | entry (e : OverlayEntry)
deriving DecidableEq

namespace SidecarText

def parse : SidecarText → Option OverlayEntry
  | .entry e => some e
  | _ => none

def file (p : RepoPath) : SidecarText → MetaFile
  | .entry e => .parsed ⟨p.bytes, e⟩
  | _ => .torn

def ofFile : MetaFile → SidecarText
  | .torn => .torn
  | .parsed sc => .entry sc.entry

/-- `write_all` from the start of the file; `overwrite` says what the text reads as when there is some
already. -/
def write (overwrite : SidecarText → OverlayEntry → SidecarText) : SidecarText → OverlayEntry → SidecarText
  | .blank, e => .entry e
  | old, e => overwrite old e

end SidecarText

/-- The sidecar of one path, its temp file, and their inodes. -/
structure PathFiles where
  sidecar : Option Nat
  tmp : Option Nat
  text : Nat → SidecarText
  next : Nat
  used : ∀ i, sidecar = some i ∨ tmp = some i → i < next
  apart : ∀ i, sidecar = some i → tmp ≠ some i

namespace PathFiles

def none : PathFiles := ⟨.none, .none, fun _ => .blank, 0, by simp, by simp⟩

def entry (f : PathFiles) : Option OverlayEntry := f.sidecar.bind fun i => (f.text i).parse

def tmpEntry (f : PathFiles) : Option OverlayEntry := f.tmp.bind fun i => (f.text i).parse

/-- `File::create` truncates the file that has the name, or makes one. -/
def create (f : PathFiles) : Nat × PathFiles :=
  match h : f.tmp with
  | some i => (i, { f with text := update f.text i .blank })
  | .none => (f.next,
      { f with
        tmp := some f.next
        text := update f.text f.next .blank
        next := f.next + 1
        used := by
          rintro i (hi | hi)
          · exact Nat.lt_succ_of_lt (f.used i (.inl hi))
          · cases hi
            exact Nat.lt_succ_self _
        apart := by
          intro i hi hn
          cases hn
          exact (f.used _ (.inl hi)).ne rfl })

def write (f : PathFiles) (overwrite : SidecarText → OverlayEntry → SidecarText) (fd : Nat)
    (e : OverlayEntry) : PathFiles :=
  { f with text := update f.text fd ((f.text fd).write overwrite e) }

/-- `rename` of the temp file over the sidecar. -/
def publish (f : PathFiles) : Option PathFiles :=
  match h : f.tmp with
  | some i => some
      { f with
        sidecar := some i
        tmp := .none
        used := by
          rintro j (hj | hj)
          · exact f.used j (.inr (h.trans hj))
          · cases hj
        apart := by simp }
  | .none => Option.none

def remove (f : PathFiles) : PathFiles :=
  { f with
    sidecar := .none
    used := by
      rintro i (hi | hi)
      · cases hi
      · exact f.used i (.inr hi)
    apart := by simp }

end PathFiles

/-- What the mutators share: the directories and the index, and the counter of content ids. -/
structure Shared where
  files : RepoPath → PathFiles
  finite : {p | (files p).sidecar.isSome ∨ (files p).tmp.isSome}.Finite
  content : ContentId → Option Bytes
  index : Index
  pid : Nat
  contentSeq : Nat

namespace Shared

def setFiles (s : Shared) (p : RepoPath) (f : PathFiles) : Shared :=
  { s with
    files := update s.files p f
    finite := by
      refine (s.finite.insert p).subset fun q hq => ?_
      by_cases hqp : q = p
      · exact .inl hqp
      · rw [Set.mem_ofPred_eq, Function.update_of_ne hqp] at hq
        exact .inr hq }

/-- The disk as `Overlay::open` finds it. -/
def disk (s : Shared) : Disk where
  metaFiles
    | .sidecar p => (s.files p).sidecar.map fun i => ((s.files p).text i).file p
    | .tmp p => (s.files p).tmp.map fun i => ((s.files p).text i).file p
  content := s.content
  finite := by
    refine ((s.finite.image MetaName.sidecar).union (s.finite.image MetaName.tmp)).subset
      fun name hn => ?_
    cases name with
    | sidecar p => exact .inl ⟨p, .inl (by simpa using hn), rfl⟩
    | tmp p => exact .inr ⟨p, .inr (by simpa using hn), rfl⟩
  named := by
    have hfile : ∀ (p : RepoPath) (t : SidecarText) sc, t.file p = .parsed sc → sc.path = p.bytes := by
      intro p t sc ht
      cases t <;> cases ht
      rfl
    rintro (p | p) sc h <;> obtain ⟨i, -, hi⟩ := Option.map_eq_some_iff.mp h
    all_goals exact hfile p _ sc hi

/-- The state of an overlay when nobody is at work on it. -/
def of (ov : Overlay) : Shared where
  files p :=
    { sidecar := (ov.disk.metaFiles (.sidecar p)).map fun _ => 0
      tmp := (ov.disk.metaFiles (.tmp p)).map fun _ => 1
      text := fun i =>
        ((ov.disk.metaFiles (if i = 0 then .sidecar p else .tmp p)).map SidecarText.ofFile).getD .blank
      next := 2
      used := by
        rintro i (hi | hi) <;> obtain ⟨-, -, rfl⟩ := Option.map_eq_some_iff.mp hi <;> decide
      apart := by
        intro i hi hn
        obtain ⟨-, -, rfl⟩ := Option.map_eq_some_iff.mp hi
        simp at hn }
  finite := by
    have hnames := ov.disk.finite.image MetaName.path
    refine hnames.subset fun p hp => ?_
    rcases hp with hp | hp
    · exact ⟨.sidecar p, by simpa using hp, rfl⟩
    · exact ⟨.tmp p, by simpa using hp, rfl⟩
  content := ov.disk.content
  index := ov.index
  pid := ov.pid
  contentSeq := ov.contentSeq

def newContentId (s : Shared) : ContentId := ⟨s.pid, s.contentSeq⟩

end Shared

/-- What a mutator does to the index under the lock. -/
inductive IndexUpdate where
  | insert (path : RepoPath) (entry : OverlayEntry)
  | remove (path : RepoPath)
  | rekey (src dst : RepoPath) (entry : OverlayEntry)

namespace IndexUpdate

def apply (idx : Index) : IndexUpdate → Index
  | insert p e => idx.insert p e
  | remove p => idx.remove p
  | rekey src dst e => (idx.insert dst e).remove src

/-- What it leaves at a path that it changes. -/
def leaves (p : RepoPath) : IndexUpdate → Option (Option OverlayEntry)
  | insert q e => if p = q then some (some e) else none
  | remove q => if p = q then some none else none
  | rekey src dst e => if p = src then some none else if p = dst then some (some e) else none

end IndexUpdate

/-- What is left of a mutator once it has looked its path up: operations on content files, the
sidecar to write, the sidecar to remove, and the update of the index. -/
structure Plan where
  content : List FileOp
  persist : Option (RepoPath × OverlayEntry)
  remove : Option RepoPath
  update : IndexUpdate

namespace Plan

def put (content : List FileOp) (p : RepoPath) (e : OverlayEntry) : Plan :=
  ⟨content, some (p, e), none, .insert p e⟩

def clear (content : List FileOp) (p : RepoPath) : Plan := ⟨content, none, some p, .remove p⟩

def rename (src dst : RepoPath) (e : OverlayEntry) : Plan :=
  ⟨[], some (dst, e), some src, .rekey src dst e⟩

end Plan

/-- Where a mutator is: before its first step, with a plan, with a temp file to be written or to
be renamed, or at its end. -/
inductive Call where
  | start (op : OverlayOp)
  | running (plan : Plan)
  | writing (fd : Nat) (path : RepoPath) (entry : OverlayEntry) (rest : Plan)
  | publishing (path : RepoPath) (rest : Plan)
  | ok
  | error

def OverlayOp.dropContent (ns : Namespace) (p : RepoPath) : List FileOp :=
  match ns p with
  | some (.file content _) => [.removeContent content]
  | _ => []

/-- The first step of a mutator: it mints a content id, or looks its path up. -/
def OverlayOp.begin (next : ContentId) (ns : Namespace) : OverlayOp → Call
  | .createFile p executable seed =>
    .running (.put (Overlay.copyUp next seed) p (.file next executable))
  | .putSymlink p target => .running (.put [] p (.symlink target))
  | .putDir p => .running (.put [] p .dir)
  | .putBaseRef p oid mode => .running (.put [] p (.baseRef oid mode))
  | .tombstone p => .running (.put (dropContent ns p) p .tombstone)
  | .clear p => .running (.clear (dropContent ns p) p)
  | .rename src dst =>
    match ns src with
    | none => .ok
    | some entry => .running (.rename src dst entry)
  | .setExecutable p exec =>
    match ns p with
    | some (.file content _) => .running (.put [] p (.file content exec))
    | _ => .error

def OverlayOp.mints : OverlayOp → Nat
  | .createFile _ _ _ => 1
  | _ => 0

/-- The atomic steps. -/
inductive MutatorStep where
  | begin
  | content
  | createTmp (path : RepoPath)
  | writeTmp (path : RepoPath)
  | renameTmp (path : RepoPath)
  | removeSidecar (path : RepoPath)
  | updateIndex (update : IndexUpdate)

def Shared.execContent (s : Shared) : FileOp → Shared
  | .createContent c => { s with content := update s.content c (some []) }
  | .writeContent c bytes => { s with content := update s.content c (some bytes) }
  | .removeContent c => { s with content := update s.content c none }
  | _ => s

def Call.step (overwrite : SidecarText → OverlayEntry → SidecarText) (s : Shared) :
    Call → Option (MutatorStep × Shared × Call)
  | .start op => some (.begin, { s with contentSeq := s.contentSeq + op.mints },
      op.begin s.newContentId s.index.entries)
  | .running ⟨op :: ops, persist, remove, upd⟩ =>
    some (.content, s.execContent op, .running ⟨ops, persist, remove, upd⟩)
  | .running ⟨[], some (p, e), remove, upd⟩ =>
    some (.createTmp p, s.setFiles p (s.files p).create.2,
      .writing (s.files p).create.1 p e ⟨[], none, remove, upd⟩)
  | .running ⟨[], none, some p, upd⟩ =>
    some (.removeSidecar p, s.setFiles p (s.files p).remove, .running ⟨[], none, none, upd⟩)
  | .running ⟨[], none, none, upd⟩ =>
    some (.updateIndex upd, { s with index := upd.apply s.index }, .ok)
  | .writing fd p e rest =>
    some (.writeTmp p, s.setFiles p ((s.files p).write overwrite fd e), .publishing p rest)
  | .publishing p rest =>
    match (s.files p).publish with
    | some f => some (.renameTmp p, s.setFiles p f, .running rest)
    | none => some (.renameTmp p, s, .error)
  | .ok | .error => none

/-- The call named by the label takes its next step. -/
structure Race where
  shared : Shared
  calls : Bool → Call

def Race.start (ov : Overlay) (op op' : OverlayOp) : Race :=
  ⟨.of ov, fun who => .start (if who then op' else op)⟩

def Race.Step (overwrite : SidecarText → OverlayEntry → SidecarText) (r : Race)
    (l : Bool × MutatorStep) (r' : Race) : Prop :=
  ∃ s c, (r.calls l.1).step overwrite r.shared = some (l.2, s, c) ∧ r' = ⟨s, update r.calls l.1 c⟩

/-! A mutator that is alone does what `Overlay.step` does. -/

theorem Disk.ext_files {d d' : Disk} (hm : ∀ name, d.metaFiles name = d'.metaFiles name)
    (hc : d.content = d'.content) : d = d' := by
  cases d
  cases d'
  obtain rfl := funext hm
  obtain rfl := hc
  rfl

namespace PathFiles

variable {f : PathFiles} {overwrite : SidecarText → OverlayEntry → SidecarText} {fd : Nat}

theorem entry_congr {g : PathFiles} (hs : g.sidecar = f.sidecar)
    (ht : ∀ i, f.sidecar = some i → g.text i = f.text i) : g.entry = f.entry := by
  rw [entry, entry, hs]
  cases hi : f.sidecar with
  | none => rfl
  | some i => rw [Option.bind_some, Option.bind_some, ht i hi]

theorem create_spec (f : PathFiles) : f.create.2.tmp = some f.create.1 ∧
    f.create.2.text f.create.1 = .blank ∧ f.create.2.entry = f.entry := by
  rw [create]
  split
  · rename_i i hi
    refine ⟨hi, Function.update_self .., entry_congr rfl fun j hj => Function.update_of_ne ?_ _ _⟩
    exact fun hji => f.apart j hj (hji ▸ hi)
  · refine ⟨rfl, Function.update_self .., entry_congr rfl fun j hj => Function.update_of_ne ?_ _ _⟩
    exact (f.used j (.inl hj)).ne

theorem entry_write (h : f.tmp = some fd) (e : OverlayEntry) : (f.write overwrite fd e).entry = f.entry := by
  refine entry_congr rfl fun j hj => Function.update_of_ne ?_ _ _
  exact fun hji => f.apart j hj (hji ▸ h)

theorem text_write (h : f.text fd = .blank) (e : OverlayEntry) :
    (f.write overwrite fd e).text fd = .entry e := by
  simp only [write, h, SidecarText.write, Function.update_self]

theorem publish_spec {i : Nat} (h : f.tmp = some i) :
    ∃ f', f.publish = some f' ∧ f'.sidecar = some i ∧ f'.tmp = .none ∧ f'.text = f.text := by
  rw [publish]
  split
  · rename_i j hj
    obtain rfl : i = j := Option.some.inj (h.symm.trans hj)
    exact ⟨_, rfl, rfl, rfl, rfl⟩
  · rename_i hn
    rw [h] at hn
    cases hn

theorem publish_eq_some {f f' : PathFiles} (h : f.publish = some f') :
    ∃ i, f.tmp = some i ∧ f'.sidecar = some i ∧ f'.tmp = .none ∧ f'.text = f.text := by
  cases ht : f.tmp with
  | none =>
    rw [publish] at h
    split at h
    · rename_i i hi
      rw [hi] at ht
      cases ht
    · cases h
  | some i =>
    obtain ⟨g, hg, hspec⟩ := publish_spec ht
    rw [hg] at h
    cases h
    exact ⟨i, rfl, hspec⟩

end PathFiles

namespace Shared

variable {s : Shared} {p : RepoPath} {f : PathFiles}

theorem disk_execContent {op : FileOp} (h : op.OnContent) :
    (s.execContent op).disk = s.disk.exec op := by
  cases op with
  | createContent | writeContent | removeContent => exact Disk.ext_files (fun _ => rfl) rfl
  | createTmp | writeTmp | renameTmp | removeSidecar => exact h.elim

@[simp] theorem files_setFiles (s : Shared) (p : RepoPath) (f : PathFiles) :
    (s.setFiles p f).files p = f := Function.update_self ..

@[simp] theorem setFiles_setFiles (s : Shared) (p : RepoPath) (f g : PathFiles) :
    (s.setFiles p f).setFiles p g = s.setFiles p g := by
  simp only [setFiles, Function.update_idem]

theorem disk_removeSidecar : (s.setFiles p (s.files p).remove).disk = s.disk.exec (.removeSidecar p) := by
  refine Disk.ext_files (fun name => ?_) rfl
  cases name with
  | sidecar q =>
    by_cases hq : q = p
    · subst hq
      simp [disk, setFiles, PathFiles.remove, Disk.exec, Disk.setMeta]
    · simp [disk, setFiles, Disk.exec, Disk.setMeta, hq]
  | tmp q =>
    by_cases hq : q = p
    · subst hq
      simp [disk, setFiles, PathFiles.remove, Disk.exec, Disk.setMeta]
    · simp [disk, setFiles, Disk.exec, Disk.setMeta, hq]

theorem disk_persist {e : OverlayEntry} {i : Nat} (hs : f.sidecar = some i) (ht : f.tmp = none)
    (he : f.text i = .entry e) : (s.setFiles p f).disk = s.disk.execAll (Overlay.persist p e) := by
  refine Disk.ext_files (fun name => ?_) (Disk.content_persist p e).symm
  rw [Disk.metaFiles_persist]
  cases name with
  | sidecar q =>
    by_cases hq : q = p
    · subst hq
      simp [disk, setFiles, hs, he, SidecarText.file]
    · simp [disk, setFiles, hq]
  | tmp q =>
    by_cases hq : q = p
    · subst hq
      simp [disk, setFiles, ht]
    · simp [disk, setFiles, hq]

theorem entry_file (p : RepoPath) (t : SidecarText) : (t.file p).entry = t.parse := by cases t <;> rfl

theorem fileEntry_sidecar (s : Shared) (p : RepoPath) :
    s.disk.fileEntry (.sidecar p) = (s.files p).entry := by
  simp only [Disk.fileEntry, disk, PathFiles.entry]
  cases (s.files p).sidecar with
  | none => rfl
  | some i => exact entry_file p _

theorem fileEntry_tmp (s : Shared) (p : RepoPath) : s.disk.fileEntry (.tmp p) = (s.files p).tmpEntry := by
  simp only [Disk.fileEntry, disk, PathFiles.tmpEntry]
  cases (s.files p).tmp with
  | none => rfl
  | some i => exact entry_file p _

theorem disk_of (ov : Overlay) : (of ov).disk = ov.disk := by
  refine Disk.ext_files (fun name => ?_) rfl
  have hfile : ∀ m, ov.disk.metaFiles name = some m → (SidecarText.ofFile m).file name.path = m := by
    intro m hm
    cases m with
    | torn => rfl
    | parsed sc => exact congrArg (fun q => MetaFile.parsed ⟨q, sc.entry⟩) (ov.disk.named _ sc hm).symm
  cases name with
  | sidecar p =>
    show ((ov.disk.metaFiles (.sidecar p)).map fun _ => 0).map _ = _
    cases hm : ov.disk.metaFiles (.sidecar p) with
    | none => rfl
    | some m => simpa [of, hm, MetaName.path] using hfile m hm
  | tmp p =>
    show ((ov.disk.metaFiles (.tmp p)).map fun _ => 1).map _ = _
    cases hm : ov.disk.metaFiles (.tmp p) with
    | none => rfl
    | some m => simpa [of, hm, MetaName.path] using hfile m hm

end Shared

def Plan.fileOps (plan : Plan) : List FileOp :=
  plan.content ++ (match plan.persist with
    | some (p, e) => Overlay.persist p e
    | none => []) ++
  match plan.remove with
  | some p => [.removeSidecar p]
  | none => []

namespace Call

/-- A step of a call that is alone. -/
def Step (overwrite : SidecarText → OverlayEntry → SidecarText) (x : Shared × Call) (l : MutatorStep)
    (y : Shared × Call) : Prop :=
  x.2.step overwrite x.1 = some (l, y.1, y.2)

/-- From here the call returns `Ok`, after these file operations and this update. -/
def Completes (overwrite : SidecarText → OverlayEntry → SidecarText) (s : Shared) (c : Call)
    (ops : List FileOp) (upd : IndexUpdate) : Prop :=
  ∃ ls t, Trace (Step overwrite) (s, c) ls (t, .ok) ∧ t.disk = s.disk.execAll ops ∧
    t.index = upd.apply s.index ∧ t.contentSeq = s.contentSeq

variable {overwrite : SidecarText → OverlayEntry → SidecarText} {s t : Shared} {c c' : Call}
  {ops ops' : List FileOp} {upd : IndexUpdate} {l : MutatorStep}

theorem Completes.step (h : Completes overwrite t c' ops upd) (hstep : c.step overwrite s = some (l, t, c'))
    (hd : t.disk = s.disk.execAll ops') (hi : t.index = s.index) (hq : t.contentSeq = s.contentSeq) :
    Completes overwrite s c (ops' ++ ops) upd := by
  obtain ⟨ls, u, hrun, hdisk, hindex, hseq⟩ := h
  have hfirst : Step overwrite (s, c) l (t, c') := hstep
  refine ⟨l :: ls, u, .cons hfirst hrun, ?_, by rw [hindex, hi], by rw [hseq, hq]⟩
  rw [hdisk, hd, Disk.execAll_append]

theorem completes_remove (s : Shared) (remove : Option RepoPath) (upd : IndexUpdate) :
    Completes overwrite s (.running ⟨[], none, remove, upd⟩) (Plan.fileOps ⟨[], none, remove, upd⟩) upd := by
  have hlast : ∀ s, Completes overwrite s (.running ⟨[], none, none, upd⟩) [] upd := by
    intro s
    have hfirst : Step overwrite (s, .running ⟨[], none, none, upd⟩) (.updateIndex upd)
        ({ s with index := upd.apply s.index }, .ok) := rfl
    exact ⟨_, _, .cons hfirst (.nil _), rfl, rfl, rfl⟩
  cases remove with
  | none => exact hlast s
  | some p =>
    have hd : (s.setFiles p (s.files p).remove).disk = s.disk.execAll [.removeSidecar p] :=
      Shared.disk_removeSidecar
    exact (hlast _).step rfl hd rfl rfl

theorem completes_persist (s : Shared) (persist : Option (RepoPath × OverlayEntry))
    (remove : Option RepoPath) (upd : IndexUpdate) :
    Completes overwrite s (.running ⟨[], persist, remove, upd⟩)
      (Plan.fileOps ⟨[], persist, remove, upd⟩) upd := by
  cases persist with
  | none => exact completes_remove s remove upd
  | some x =>
    obtain ⟨p, e⟩ := x
    obtain ⟨htmp, hblank, -⟩ := (s.files p).create_spec
    obtain ⟨fd, f, hf⟩ : ∃ fd f, (s.files p).create = (fd, f) := ⟨_, _, rfl⟩
    rw [hf] at htmp hblank
    obtain ⟨g, hg, hs, ht, htext⟩ := (f.write overwrite fd e).publish_spec htmp
    have he : g.text fd = .entry e := by rw [htext, PathFiles.text_write hblank]
    -- the temp file is made, written and renamed
    have hcreate : Step overwrite (s, .running ⟨[], some (p, e), remove, upd⟩) (.createTmp p)
        (s.setFiles p f, .writing fd p e ⟨[], none, remove, upd⟩) := by
      simp only [Step, Call.step, hf]
    have hwrite : Step overwrite (s.setFiles p f, .writing fd p e ⟨[], none, remove, upd⟩) (.writeTmp p)
        (s.setFiles p (f.write overwrite fd e), .publishing p ⟨[], none, remove, upd⟩) := by
      simp only [Step, Call.step, Shared.setFiles_setFiles, Shared.files_setFiles]
    have hpublish : Step overwrite (s.setFiles p (f.write overwrite fd e), .publishing p ⟨[], none, remove, upd⟩)
        (.renameTmp p) (s.setFiles p g, .running ⟨[], none, remove, upd⟩) := by
      simp only [Step, Call.step, Shared.files_setFiles, hg, Shared.setFiles_setFiles]
    have hrest : Completes overwrite (s.setFiles p g) _ _ upd := completes_remove (s.setFiles p g) remove upd
    obtain ⟨ls, u, hrun, hdisk, hindex, hseq⟩ := hrest
    refine ⟨_, u, .cons hcreate (.cons hwrite (.cons hpublish hrun)), ?_, hindex, hseq⟩
    rw [hdisk, Shared.disk_persist hs ht he]
    exact (Disk.execAll_append _ _).symm

theorem completes (s : Shared) (plan : Plan) (hc : ∀ o ∈ plan.content, o.OnContent) :
    Completes overwrite s (.running plan) plan.fileOps plan.update := by
  obtain ⟨content, persist, remove, upd⟩ := plan
  induction content generalizing s with
  | nil => exact completes_persist s persist remove upd
  | cons op ops ih =>
    have hrest := ih (s.execContent op) fun o ho => hc o (List.mem_cons_of_mem _ ho)
    have hd : (s.execContent op).disk = s.disk.execAll [op] :=
      Shared.disk_execContent (hc op List.mem_cons_self)
    exact hrest.step rfl hd (by cases op <;> rfl) (by cases op <;> rfl)

end Call

theorem OverlayOp.onContent_dropContent (ns : Namespace) (p : RepoPath) :
    ∀ o ∈ dropContent ns p, FileOp.OnContent o := by
  rw [dropContent]
  split <;> simp [FileOp.OnContent]

/-- Nothing is lost by the steps: alone, a mutator leaves what `Overlay.step` does. -/
theorem mutator_alone (overwrite : SidecarText → OverlayEntry → SidecarText) (ov : Overlay)
    (op : OverlayOp) : ∃ ls s c, Trace (Call.Step overwrite) (Shared.of ov, .start op) ls (s, c) ∧
      (c = .ok ∨ c = .error) ∧ s.disk = (ov.step op).disk ∧ s.index = (ov.step op).index ∧
      s.contentSeq = (ov.step op).contentSeq := by
  have hbegin : Call.Step overwrite (Shared.of ov, .start op) .begin
      ({ Shared.of ov with contentSeq := ov.contentSeq + op.mints },
        op.begin ov.newContentId ov.index.entries) := rfl
  have hseq : (ov.step op).contentSeq = ov.contentSeq + op.mints := by
    rw [Overlay.contentSeq_step]
    cases op <;> rfl
  have hdisk : Shared.disk { Shared.of ov with contentSeq := ov.contentSeq + op.mints } = ov.disk :=
    Shared.disk_of ov
  -- a plan is run to its end
  have hplan : ∀ plan, op.begin ov.newContentId ov.index.entries = .running plan →
      (∀ o ∈ plan.content, o.OnContent) → plan.fileOps = (ov.mutation op).fileOps →
      plan.update.apply ov.index = (ov.mutation op).index → ∃ ls s c,
        Trace (Call.Step overwrite) (Shared.of ov, .start op) ls (s, c) ∧ (c = .ok ∨ c = .error) ∧
        s.disk = (ov.step op).disk ∧ s.index = (ov.step op).index ∧
        s.contentSeq = (ov.step op).contentSeq := by
    intro plan hp hc hops hupd
    rw [hp] at hbegin
    have hdone : Call.Completes overwrite { Shared.of ov with contentSeq := ov.contentSeq + op.mints }
        (.running plan) plan.fileOps plan.update := Call.completes _ plan hc
    obtain ⟨ls, t, hrun, hd, hi, hq⟩ := hdone
    refine ⟨_, t, .ok, .cons hbegin hrun, .inl rfl, ?_, hi.trans hupd, hq.trans hseq.symm⟩
    rw [hd, hdisk, hops]
    rfl
  -- or there is nothing to do
  have hnone : ∀ c, op.begin ov.newContentId ov.index.entries = c → (c = .ok ∨ c = .error) →
      ov.mutation op = ov.unchanged → ∃ ls s c,
        Trace (Call.Step overwrite) (Shared.of ov, .start op) ls (s, c) ∧ (c = .ok ∨ c = .error) ∧
        s.disk = (ov.step op).disk ∧ s.index = (ov.step op).index ∧
        s.contentSeq = (ov.step op).contentSeq := by
    intro c hc hend hm
    rw [hc] at hbegin
    refine ⟨_, _, c, .cons hbegin (.nil _), hend, ?_, ?_, hseq.symm⟩
    · rw [hdisk, Overlay.step, hm]
      rfl
    · rw [Overlay.step, hm]
      rfl
  have hdrop : ∀ p, OverlayOp.dropContent ov.index.entries p = ov.dropContent p := fun p => rfl
  cases op with
  | createFile p x seed =>
    exact hplan _ rfl (Overlay.onContent_copyUp _ seed)
      (by simp [Plan.put, Plan.fileOps, Overlay.mutation, Overlay.createFile]) rfl
  | putSymlink p target => exact hplan _ rfl (by simp [Plan.put]) rfl rfl
  | putDir p => exact hplan _ rfl (by simp [Plan.put]) rfl rfl
  | putBaseRef p oid mode => exact hplan _ rfl (by simp [Plan.put]) rfl rfl
  | tombstone p =>
    exact hplan _ rfl (OverlayOp.onContent_dropContent _ p)
      (by simp [Plan.put, Plan.fileOps, hdrop, Overlay.mutation, Overlay.tombstone]) rfl
  | clear p =>
    exact hplan _ rfl (OverlayOp.onContent_dropContent _ p)
      (by simp [Plan.clear, Plan.fileOps, hdrop, Overlay.mutation, Overlay.clear]) rfl
  | rename src dst =>
    cases he : ov.index.entries src with
    | none =>
      have hl : ov.lookup src = none := he
      exact hnone .ok (by simp [OverlayOp.begin, he]) (.inl rfl) (by simp [Overlay.mutation, Overlay.rename, hl])
    | some e =>
      have hl : ov.lookup src = some e := he
      have hb : OverlayOp.begin ov.newContentId ov.index.entries (.rename src dst) =
          .running (.rename src dst e) := by simp [OverlayOp.begin, he]
      exact hplan _ hb (by simp [Plan.rename])
        (by simp [Plan.rename, Plan.fileOps, Overlay.mutation, Overlay.rename, hl])
        (by simp [Plan.rename, IndexUpdate.apply, Overlay.mutation, Overlay.rename, hl])
  | setExecutable p x =>
    have hfile : ∀ c y, ov.index.entries p = some (.file c y) →
        OverlayOp.begin ov.newContentId ov.index.entries (.setExecutable p x) =
          .running (.put [] p (.file c x)) ∧
        ov.mutation (.setExecutable p x) = ov.put p (.file c x) := by
      intro c y he
      have hl : ov.lookup p = some (.file c y) := he
      exact ⟨by simp [OverlayOp.begin, he],
        by simp [Overlay.mutation, Overlay.setExecutable, hl, Except.toOption]⟩
    have hother : (∀ c y, ov.index.entries p ≠ some (.file c y)) →
        OverlayOp.begin ov.newContentId ov.index.entries (.setExecutable p x) = .error ∧
        ov.mutation (.setExecutable p x) = ov.unchanged := by
      intro hne
      have hl : ∀ c y, ov.lookup p ≠ some (.file c y) := hne
      constructor
      · rw [OverlayOp.begin]
        split <;> simp_all
      · rw [Overlay.mutation, Overlay.setExecutable]
        split <;> simp_all [Except.toOption]
    by_cases hex : ∃ c y, ov.index.entries p = some (.file c y)
    · obtain ⟨c, y, he⟩ := hex
      obtain ⟨hb, hm⟩ := hfile c y he
      exact hplan _ hb (by simp [Plan.put]) (by rw [hm]; rfl) (by rw [hm]; rfl)
    · obtain ⟨hb, hm⟩ := hother fun c y he => hex ⟨c, y, he⟩
      exact hnone _ hb (.inr rfl) hm

end LazyMount
