import LazyMount.OverlayRecovery

/-! Serve processes one after another over one overlay directory. Content ids count from zero
in each of them, under a pid that the system may hand out again. -/

namespace LazyMount

structure Session where
  pid : Nat
  order : List MetaName
  ops : List OverlayOp

namespace Session

def start (d : Disk) (s : Session) : Overlay := Overlay.openDisk d s.order s.pid

def disk (d : Disk) (s : Session) : Disk := ((s.start d).run s.ops).disk

def history (ss : List Session) : Disk := ss.foldl disk Disk.empty

end Session

namespace Overlay

/-- A `create_file` call here creates, truncates or copies over the content file of an entry. -/
def Clobbers (ov : Overlay) : Prop :=
  ∃ p executable, ov.lookup p = some (.file ov.newContentId executable)

/-- The content ids of this process that the index holds were minted by it. -/
def Minted (ov : Overlay) : Prop :=
  ∀ p c executable, ov.lookup p = some (.file c executable) → c.pid = ov.pid → c.seq < ov.contentSeq

variable {ov : Overlay}

theorem effect_origin {op : OverlayOp} {next c : ContentId} {ns : Namespace} {p : RepoPath} {x : Bool}
    (h : op.effect next ns p = some (.file c x)) :
    (∃ y seed, op = .createFile p y seed ∧ c = next) ∨ (∃ y, ns p = some (.file c y)) ∨
      ∃ src y, op = .rename src p ∧ p ≠ src ∧ ns src = some (.file c y) := by
  have hold : ∀ (ns' : Namespace) (q : RepoPath) (e : Option OverlayEntry),
      Function.update ns' q e p = some (.file c x) → p = q ∧ e = some (.file c x) ∨
        p ≠ q ∧ ns' p = some (.file c x) := by
    intro ns' q e hu
    by_cases hp : p = q
    · subst hp
      exact .inl ⟨rfl, by simpa using hu⟩
    · exact .inr ⟨hp, by rwa [Function.update_of_ne hp] at hu⟩
  cases op with
  | createFile q y seed =>
    rcases hold _ _ _ h with ⟨rfl, he⟩ | ⟨-, hp⟩
    · injection he with he
      injection he with hc
      exact .inl ⟨y, seed, rfl, hc.symm⟩
    · exact .inr (.inl ⟨x, hp⟩)
  | putSymlink | putDir | putBaseRef | tombstone | clear =>
    rcases hold _ _ _ h with ⟨-, he⟩ | ⟨-, hp⟩
    · simp at he
    · exact .inr (.inl ⟨x, hp⟩)
  | rename src dst =>
    cases he : ns src with
    | none =>
      simp only [OverlayOp.effect, he] at h
      exact .inr (.inl ⟨x, h⟩)
    | some e =>
      simp only [OverlayOp.effect, he] at h
      rcases hold _ _ _ h with ⟨-, hn⟩ | ⟨hne, hp⟩
      · simp at hn
      · rcases hold _ _ _ hp with ⟨rfl, hn⟩ | ⟨-, hp⟩
        · exact .inr (.inr ⟨src, x, rfl, hne, by rw [he, hn]⟩)
        · exact .inr (.inl ⟨x, hp⟩)
  | setExecutable q exec =>
    cases he : ns q with
    | none =>
      simp only [OverlayOp.effect, he] at h
      exact .inr (.inl ⟨x, h⟩)
    | some e =>
      cases e with
      | file c' y =>
        simp only [OverlayOp.effect, he] at h
        rcases hold _ _ _ h with ⟨rfl, hn⟩ | ⟨-, hp⟩
        · injection hn with hn
          injection hn with hc
          exact .inr (.inl ⟨y, by rw [he, hc]⟩)
        · exact .inr (.inl ⟨x, hp⟩)
      | symlink | dir | tombstone | baseRef =>
        simp only [OverlayOp.effect, he] at h
        exact .inr (.inl ⟨x, h⟩)

theorem effect_file {op : OverlayOp} {next c : ContentId} {ns : Namespace} {p : RepoPath} {x : Bool}
    (h : op.effect next ns p = some (.file c x)) :
    (∃ q y seed, op = .createFile q y seed ∧ c = next) ∨ ∃ q y, ns q = some (.file c y) := by
  rcases effect_origin h with ⟨y, seed, hop, hc⟩ | ⟨y, hy⟩ | ⟨src, y, -, -, hy⟩
  · exact .inl ⟨p, y, seed, hop, hc⟩
  · exact .inr ⟨p, y, hy⟩
  · exact .inr ⟨src, y, hy⟩

theorem effect_rename_src {next : ContentId} {ns : Namespace} {src dst : RepoPath} {e : OverlayEntry}
    (h : ns src = some e) : (OverlayOp.rename src dst).effect next ns src = none := by
  simp [OverlayOp.effect, h]

theorem step_pid (ov : Overlay) (op : OverlayOp) : (ov.step op).pid = ov.pid := rfl

theorem contentSeq_step (ov : Overlay) (op : OverlayOp) : (ov.step op).contentSeq =
    ov.contentSeq + (match op with | .createFile _ _ _ => 1 | _ => 0) := by
  cases op with
  | createFile | putSymlink | putDir | putBaseRef | tombstone | clear => rfl
  | rename src dst =>
    show (ov.rename src dst).contentSeq = _
    simp only [rename]
    split <;> rfl
  | setExecutable p exec =>
    show ((ov.setExecutable p exec).toOption.getD ov.unchanged).contentSeq = _
    simp only [setExecutable]
    split <;> rfl

theorem minted_step (hm : Minted ov) (op : OverlayOp) : Minted (ov.step op) := by
  intro p c x h hpid
  rw [lookup, step_entries] at h
  rw [contentSeq_step]
  rcases effect_file h with ⟨q, y, seed, rfl, rfl⟩ | ⟨q, y, hq⟩
  · simp [newContentId]
  · exact Nat.lt_add_right _ (hm q c y hq hpid)

theorem minted_run (hm : Minted ov) (ops : List OverlayOp) : Minted (ov.run ops) := by
  induction ops generalizing ov with
  | nil => exact hm
  | cons op ops ih => exact ih (minted_step hm op)

theorem not_clobbers_of_minted (hm : Minted ov) : ¬ ov.Clobbers := by
  intro hh
  obtain ⟨p, x, h⟩ := hh
  exact (hm p _ x h rfl).ne rfl

def createFiles (q : RepoPath) (n : Nat) : List OverlayOp := List.replicate n (.createFile q false none)

theorem run_createFiles (ov : Overlay) (q : RepoPath) (n : Nat) :
    (ov.run (createFiles q n)).pid = ov.pid ∧
      (ov.run (createFiles q n)).contentSeq = ov.contentSeq + n ∧
      ∀ p, p ≠ q → (ov.run (createFiles q n)).lookup p = ov.lookup p := by
  induction n generalizing ov with
  | zero => exact ⟨rfl, rfl, fun _ _ => rfl⟩
  | succ n ih =>
    obtain ⟨hpid, hseq, hl⟩ := ih (ov.step (.createFile q false none))
    refine ⟨hpid, ?_, fun p hp => ?_⟩
    · have hs : (ov.step (.createFile q false none)).contentSeq = ov.contentSeq + 1 := rfl
      have hrun : ov.run (createFiles q (n + 1)) =
          (ov.step (.createFile q false none)).run (createFiles q n) := rfl
      rw [hrun, hseq, hs]
      omega
    · exact (hl p hp).trans (by rw [lookup, step_entries]; exact Function.update_of_ne hp _ _)

theorem exists_path_ne (p : RepoPath) : ∃ q : RepoPath, q ≠ p := by
  by_cases hp : p = ⟨[97], by decide⟩
  · exact ⟨⟨[98], by decide⟩, by rw [hp]; decide⟩
  · exact ⟨_, Ne.symm hp⟩

end Overlay

/-- In the process that follows a history no `create_file` call ever reuses the content file of
an entry if and only if no entry it recovers was created under its own pid. -/
theorem create_file_never_reuses_iff (ss : List Session) (pid : Nat) (order : List MetaName) :
    (∀ ops, ¬ ((Overlay.openDisk (Session.history ss) order pid).run ops).Clobbers) ↔
      ∀ p c executable, (Overlay.openDisk (Session.history ss) order pid).lookup p =
        some (.file c executable) → c.pid ≠ pid := by
  constructor
  · intro h p c executable hp hpid
    obtain ⟨q, hq⟩ := Overlay.exists_path_ne p
    -- as many creations elsewhere bring the counter to the id of this entry
    refine h (Overlay.createFiles q c.seq) ⟨p, executable, ?_⟩
    obtain ⟨hrun, hseq, hl⟩ := Overlay.run_createFiles
      (Overlay.openDisk (Session.history ss) order pid) q c.seq
    have hc : Overlay.newContentId ((Overlay.openDisk (Session.history ss) order pid).run
        (Overlay.createFiles q c.seq)) = ⟨pid, 0 + c.seq⟩ := by
      rw [Overlay.newContentId, hrun, hseq]
      rfl
    rw [hl p (Ne.symm hq), hc, hp, Nat.zero_add, ← hpid]
  · intro h ops
    have hm : Overlay.Minted (Overlay.openDisk (Session.history ss) order pid) :=
      fun p c x hp hpid => (h p c x hp hpid).elim
    exact Overlay.not_clobbers_of_minted (Overlay.minted_run hm ops)

/-- Process 1 creates `a` with the byte `x`; the next process 1 creates `b`, and truncates the
content of `a`. -/
theorem reused_pid_truncates :
    let d := Session.history [⟨1, [], [.createFile (letter 97) false (some [120])]⟩]
    let ov := Overlay.openDisk d [.sidecar (letter 97)] 1
    Overlay.ReadDir d [.sidecar (letter 97)] ∧ ov.Clobbers ∧
      ov.disk.content ov.newContentId = some [120] ∧
      (ov.step (.createFile (letter 98) false none)).disk.content ov.newContentId = some [] := by
  refine ⟨⟨by simp, fun name => ?_⟩, ⟨letter 97, false, by decide⟩, by decide, by decide⟩
  show _ ↔ (((((Disk.empty.exec (.createContent ⟨1, 0⟩)).exec (.writeContent ⟨1, 0⟩ [120])).execAll
    (Overlay.persist (letter 97) (.file ⟨1, 0⟩ false))).metaFiles name).isSome) = true
  rw [Disk.metaFiles_persist]
  by_cases hn : name = .sidecar (letter 97)
  · simp [hn]
  · by_cases ht : name = .tmp (letter 97)
    · simp [ht]
    · simp [hn, ht, Disk.exec, Disk.setContent, Disk.empty]

end LazyMount
