import LazyMount.Overlay

/-! What the file operations leave on disk, and what the scan of `Overlay::open` recovers
from it. -/

namespace LazyMount

/-- The meta files that it writes or removes. -/
def FileOp.metaNames : FileOp → List MetaName
  | .createTmp p | .writeTmp p _ => [.tmp p]
  | .renameTmp p => [.sidecar p, .tmp p]
  | .removeSidecar p => [.sidecar p]
  | .createContent _ | .writeContent _ _ | .removeContent _ => []

namespace Disk

variable {d : Disk}

@[simp] theorem fileEntry_setContent (c : ContentId) (bytes : Option Bytes) :
    (d.setContent c bytes).fileEntry = d.fileEntry := rfl

theorem fileEntry_setMeta (name : MetaName) (file : Option MetaFile)
    (h : ∀ sc, file = some (.parsed sc) → sc.path = name.path.bytes) (n : MetaName) :
    (d.setMeta name file h).fileEntry n =
      if n = name then file.bind MetaFile.entry else d.fileEntry n := by
  by_cases hn : n = name
  · subst hn
    simp [fileEntry, setMeta]
  · simp [fileEntry, setMeta, hn]

@[simp] theorem fileEntry_createTmp (p : RepoPath) (n : MetaName) :
    (d.exec (.createTmp p)).fileEntry n = if n = .tmp p then none else d.fileEntry n :=
  fileEntry_setMeta (.tmp p) (some .torn) (by simp) n

@[simp] theorem fileEntry_writeTmp (p : RepoPath) (e : OverlayEntry) (n : MetaName) :
    (d.exec (.writeTmp p e)).fileEntry n = if n = .tmp p then some e else d.fileEntry n :=
  fileEntry_setMeta (.tmp p) (some (.parsed ⟨p.bytes, e⟩)) (by rintro sc ⟨rfl⟩; rfl) n

@[simp] theorem fileEntry_renameTmp (p : RepoPath) (n : MetaName) :
    (d.exec (.renameTmp p)).fileEntry n = if n = .tmp p then none
      else if n = .sidecar p then d.fileEntry (.tmp p) else d.fileEntry n := by
  rw [exec, fileEntry_setMeta, fileEntry_setMeta]
  rfl

@[simp] theorem fileEntry_removeSidecar (p : RepoPath) (n : MetaName) :
    (d.exec (.removeSidecar p)).fileEntry n = if n = .sidecar p then none else d.fileEntry n :=
  fileEntry_setMeta (.sidecar p) none (by simp) n

@[simp] theorem fileEntry_createContent (c : ContentId) :
    (d.exec (.createContent c)).fileEntry = d.fileEntry := rfl

@[simp] theorem fileEntry_writeContent (c : ContentId) (bytes : Bytes) :
    (d.exec (.writeContent c bytes)).fileEntry = d.fileEntry := rfl

@[simp] theorem fileEntry_removeContent (c : ContentId) :
    (d.exec (.removeContent c)).fileEntry = d.fileEntry := rfl

@[simp] theorem execAll_nil : d.execAll [] = d := rfl

@[simp] theorem execAll_cons (op : FileOp) (ops : List FileOp) :
    d.execAll (op :: ops) = (d.exec op).execAll ops := rfl

theorem execAll_append (ops ops' : List FileOp) :
    d.execAll (ops ++ ops') = (d.execAll ops).execAll ops' := List.foldl_append ..

theorem metaFiles_exec_of_notMem (d : Disk) {op : FileOp} {name : MetaName}
    (h : name ∉ op.metaNames) : (d.exec op).metaFiles name = d.metaFiles name := by
  cases op with
  | createContent | writeContent | removeContent => rfl
  | createTmp p | writeTmp p _ | removeSidecar p =>
    simp only [FileOp.metaNames, List.mem_singleton] at h
    exact Function.update_of_ne h _ _
  | renameTmp p =>
    simp only [FileOp.metaNames, List.mem_cons, List.not_mem_nil, or_false, not_or] at h
    exact (Function.update_of_ne h.2 _ _).trans (Function.update_of_ne h.1 _ _)

theorem metaFiles_execAll_of_notMem (d : Disk) {ops : List FileOp} {name : MetaName}
    (h : name ∉ ops.flatMap FileOp.metaNames) : (d.execAll ops).metaFiles name = d.metaFiles name := by
  induction ops generalizing d with
  | nil => rfl
  | cons op ops ih =>
    simp only [List.flatMap_cons, List.mem_append, not_or] at h
    exact (ih (d.exec op) h.2).trans (metaFiles_exec_of_notMem d h.1)

theorem metaFiles_persist (p : RepoPath) (e : OverlayEntry) (n : MetaName) :
    (d.execAll (Overlay.persist p e)).metaFiles n = if n = .tmp p then none
      else if n = .sidecar p then some (.parsed ⟨p.bytes, e⟩) else d.metaFiles n := by
  simp only [Overlay.persist, execAll_cons, execAll_nil, exec, setMeta, Function.update_apply]
  grind

theorem fileEntry_persist (p : RepoPath) (e : OverlayEntry) (n : MetaName) :
    (d.execAll (Overlay.persist p e)).fileEntry n =
      if n = .tmp p then none else if n = .sidecar p then some e else d.fileEntry n := by
  rw [fileEntry, metaFiles_persist]
  split
  · rfl
  · split <;> rfl

@[simp] theorem content_persist (p : RepoPath) (e : OverlayEntry) :
    (d.execAll (Overlay.persist p e)).content = d.content := rfl

end Disk

namespace Overlay

theorem replay_entries (d : Disk) (idx : Index) (name : MetaName) :
    (replay d idx name).entries = match d.fileEntry name with
      | some e => Function.update idx.entries name.path (some e)
      | none => idx.entries := by
  simp only [replay, Disk.fileEntry]
  cases h : d.metaFiles name with
  | none => rfl
  | some file =>
    cases file with
    | torn => rfl
    | parsed sc =>
      simp only
      rw [d.named name sc h, RepoPath.fromBytes_bytes]
      rfl

theorem replay_entries_apply (d : Disk) (idx : Index) (name : MetaName) (p : RepoPath) :
    (replay d idx name).entries p =
      if name.path = p then (d.fileEntry name).or (idx.entries p) else idx.entries p := by
  rw [replay_entries]
  cases d.fileEntry name with
  | none => simp
  | some e =>
    by_cases hp : name.path = p
    · simp [hp]
    · simp [Function.update_of_ne (Ne.symm hp), hp]

theorem exists_of_scan {d : Disk} {order : List MetaName} {p : RepoPath} {e : OverlayEntry}
    (h : (order.foldl (replay d) Index.empty).entries p = some e) :
    ∃ name ∈ order, name.path = p ∧ d.fileEntry name = some e := by
  induction order using List.reverseRecOn with
  | nil => simp [Index.empty] at h
  | append_singleton order name ih =>
    rw [List.foldl_append, List.foldl_cons, List.foldl_nil, replay_entries_apply] at h
    have hold : (order.foldl (replay d) Index.empty).entries p = some e →
        ∃ n ∈ order ++ [name], n.path = p ∧ d.fileEntry n = some e := by
      intro h
      obtain ⟨n, hn, hp, he⟩ := ih h
      exact ⟨n, List.mem_append_left _ hn, hp, he⟩
    split at h
    · rename_i hp
      cases hf : d.fileEntry name with
      | none =>
        rw [hf] at h
        exact hold h
      | some e' =>
        rw [hf, Option.some_or] at h
        exact ⟨name, by simp, hp, by rw [hf, h]⟩
    · exact hold h

theorem scan_isSome {d : Disk} {order : List MetaName} {name : MetaName} (hn : name ∈ order)
    (hf : (d.fileEntry name).isSome) :
    ((order.foldl (replay d) Index.empty).entries name.path).isSome := by
  induction order using List.reverseRecOn with
  | nil => simp at hn
  | append_singleton order last ih =>
    rw [List.foldl_append, List.foldl_cons, List.foldl_nil, replay_entries_apply]
    rcases List.mem_append.mp hn with hn | hn
    · have hh := ih hn
      split
      · cases d.fileEntry last <;> simp [hh]
      · exact hh
    · rw [List.mem_singleton.mp hn] at hf ⊢
      simp [hf]

theorem scan_last {d : Disk} {order : List MetaName} {name : MetaName} {e : OverlayEntry}
    (hf : d.fileEntry name = some e) :
    ((order ++ [name]).foldl (replay d) Index.empty).entries name.path = some e := by
  rw [List.foldl_append, List.foldl_cons, List.foldl_nil, replay_entries_apply, if_pos rfl, hf]
  rfl

/-- The disk that file operations leave on an empty directory is read in `order`, if that is
right for every name they touch. -/
theorem readDir_execAll {ops : List FileOp} {order : List MetaName} (hnd : order.Nodup)
    (h : ∀ name ∈ order ++ ops.flatMap FileOp.metaNames,
      name ∈ order ↔ ((Disk.empty.execAll ops).metaFiles name).isSome) :
    ReadDir (Disk.empty.execAll ops) order := by
  refine ⟨hnd, fun name => ?_⟩
  by_cases hn : name ∈ order ++ ops.flatMap FileOp.metaNames
  · exact h name hn
  · rw [List.mem_append, not_or] at hn
    rw [Disk.metaFiles_execAll_of_notMem _ hn.2]
    simp [hn.1, Disk.empty]

theorem readDir_mem {d : Disk} {order : List MetaName} (hr : ReadDir d order) {name : MetaName}
    (hf : (d.fileEntry name).isSome) : name ∈ order := by
  rw [hr.mem]
  revert hf
  simp only [Disk.fileEntry]
  cases d.metaFiles name <;> simp

theorem scan_entry {d : Disk} {order : List MetaName} (hr : ReadDir d order) {p : RepoPath}
    (htmp : d.fileEntry (.tmp p) = none) :
    (order.foldl (replay d) Index.empty).entries p = d.fileEntry (.sidecar p) := by
  cases h : (order.foldl (replay d) Index.empty).entries p with
  | some e =>
    obtain ⟨name, _, hp, hf⟩ := exists_of_scan h
    subst hp
    cases name with
    | sidecar q => exact hf.symm
    | tmp q =>
      rw [MetaName.path, hf] at htmp
      cases htmp
  | none =>
    cases hf : d.fileEntry (.sidecar p) with
    | none => rfl
    | some e =>
      have hsome := scan_isSome (readDir_mem hr (by rw [hf]; rfl)) (by rw [hf]; rfl)
      rw [MetaName.path, h] at hsome
      simp at hsome

theorem scan_entries {d : Disk} {order : List MetaName} (hr : ReadDir d order)
    (htmp : ∀ p, d.fileEntry (.tmp p) = none) (p : RepoPath) :
    (order.foldl (replay d) Index.empty).entries p = d.fileEntry (.sidecar p) :=
  scan_entry hr (htmp p)

theorem exists_readDir (d : Disk) : ∃ order, ReadDir d order :=
  ⟨d.finite.toFinset.toList, Finset.nodup_toList _, by simp⟩

theorem exists_readDir_last (d : Disk) (m n : MetaName) :
    ∃ order, (∀ x ∈ order, x ≠ m ∧ x ≠ n) ∧ ∀ last : List MetaName, last.Nodup →
      (∀ x, x ∈ last ↔ (x = m ∨ x = n) ∧ (d.metaFiles x).isSome) → ReadDir d (order ++ last) := by
  classical
  refine ⟨((d.finite.toFinset.erase m).erase n).toList, ?_, fun last hnd hlast => ⟨?_, fun x => ?_⟩⟩
  · intro x hx
    simp only [Finset.mem_toList, Finset.mem_erase] at hx
    exact ⟨hx.2.1, hx.1⟩
  · rw [List.nodup_append']
    refine ⟨Finset.nodup_toList _, hnd, List.disjoint_left.mpr fun x hx hl => ?_⟩
    simp only [Finset.mem_toList, Finset.mem_erase] at hx
    rcases ((hlast x).mp hl).1 with rfl | rfl
    · exact hx.2.1 rfl
    · exact hx.1 rfl
  · simp only [List.mem_append, Finset.mem_toList, Finset.mem_erase, Set.Finite.mem_toFinset,
      Set.mem_ofPred_eq, hlast]
    tauto

end Overlay

/-- A namespace is what the index is for: the entry of every path. -/
abbrev Namespace := RepoPath → Option OverlayEntry

/-- A scan of this directory recovers exactly this namespace: it is what the sidecars hold, and
no temp file parses. -/
structure Recovers (d : Disk) (ns : Namespace) : Prop where
  sidecar : ∀ p, d.fileEntry (.sidecar p) = ns p
  noTmp : ∀ p, d.fileEntry (.tmp p) = none

/-- What an operation does to the namespace; `next` is the content id that a `create_file`
mints. -/
def OverlayOp.effect (next : ContentId) (ns : Namespace) : OverlayOp → Namespace
  | .createFile p executable _ => Function.update ns p (some (.file next executable))
  | .putSymlink p target => Function.update ns p (some (.symlink target))
  | .putDir p => Function.update ns p (some .dir)
  | .putBaseRef p oid mode => Function.update ns p (some (.baseRef oid mode))
  | .tombstone p => Function.update ns p (some .tombstone)
  | .clear p => Function.update ns p none
  | .rename src dst =>
    match ns src with
    | some e => Function.update (Function.update ns dst (some e)) src none
    | none => ns
  | .setExecutable p exec =>
    match ns p with
    | some (.file c _) => Function.update ns p (some (.file c exec))
    | _ => ns

/-- The paths that get an entry where there was none. -/
def OverlayOp.writes : OverlayOp → List RepoPath
  | .createFile p _ _ | .putSymlink p _ | .putDir p | .putBaseRef p _ _ | .tombstone p => [p]
  | .rename _ dst => [dst]
  | .clear _ | .setExecutable _ _ => []

theorem OverlayOp.effect_none {op : OverlayOp} {p : RepoPath} (h : p ∉ op.writes) (next : ContentId)
    {ns : Namespace} (hp : ns p = none) : op.effect next ns p = none := by
  cases op with
  | createFile q | putSymlink q | putDir q | putBaseRef q | tombstone q =>
    rwa [effect, Function.update_of_ne (List.ne_of_not_mem_cons h)]
  | clear q =>
    by_cases hq : p = q
    · rw [effect, hq, Function.update_self]
    · rwa [effect, Function.update_of_ne hq]
  | rename src dst =>
    cases he : ns src with
    | none => simpa only [effect, he] using hp
    | some e =>
      simp only [effect, he]
      by_cases hq : p = src
      · rw [hq, Function.update_self]
      · rwa [Function.update_of_ne hq, Function.update_of_ne (List.ne_of_not_mem_cons h)]
  | setExecutable q x =>
    by_cases hq : p = q
    · rw [effect, ← hq, hp]
      exact hp
    · cases he : ns q with
      | none => simpa only [effect, he] using hp
      | some e =>
        cases e with
        | file c y =>
          simp only [effect, he]
          rwa [Function.update_of_ne hq]
        | symlink | dir | tombstone | baseRef => simpa only [effect, he] using hp

def FileOp.OnContent : FileOp → Prop
  | .createContent _ | .writeContent _ _ | .removeContent _ => True
  | _ => False

theorem Disk.fileEntry_content {ops : List FileOp} (h : ∀ op ∈ ops, op.OnContent) (d : Disk) :
    (d.execAll ops).fileEntry = d.fileEntry := by
  induction ops generalizing d with
  | nil => rfl
  | cons op ops ih =>
    rw [Disk.execAll_cons, ih (fun o ho => h o (by simp [ho]))]
    have hop := h op (by simp)
    cases op <;> first | rfl | exact hop.elim

namespace Overlay

variable {d : Disk} {ns : Namespace}

theorem entries_openDisk (h : Recovers d ns) {order : List MetaName} (hr : ReadDir d order)
    (pid : Nat) : (openDisk d order pid).index.entries = ns := by
  funext p
  rw [← h.sidecar p]
  exact scan_entries hr h.noTmp p

theorem recovers_content (hd : Recovers d ns) {ops : List FileOp}
    (hops : ∀ o ∈ ops, FileOp.OnContent o) : Recovers (d.execAll ops) ns :=
  ⟨fun p => by rw [Disk.fileEntry_content hops, hd.sidecar],
    fun p => by rw [Disk.fileEntry_content hops, hd.noTmp]⟩

theorem recovers_persist (hd : Recovers d ns) (p : RepoPath) (e : OverlayEntry) :
    Recovers (d.execAll (persist p e)) (Function.update ns p (some e)) := by
  refine ⟨fun q => ?_, fun q => ?_⟩
  · by_cases hq : q = p <;> simp [Disk.fileEntry_persist, hq, hd.sidecar]
  · simp [Disk.fileEntry_persist, hd.noTmp]

theorem recovers_removeSidecar (hd : Recovers d ns) (p : RepoPath) :
    Recovers (d.exec (.removeSidecar p)) (Function.update ns p none) := by
  refine ⟨fun q => ?_, fun q => ?_⟩
  · by_cases hq : q = p <;> simp [hq, hd.sidecar]
  · simp [hd.noTmp]

/-- The index is what the next open would recover. -/
abbrev Synced (ov : Overlay) : Prop := Recovers ov.disk ov.index.entries

theorem synced_openDisk {order : List MetaName} (hr : ReadDir d order)
    (htmp : ∀ p, d.fileEntry (.tmp p) = none) (pid : Nat) : Synced (openDisk d order pid) :=
  ⟨fun p => (scan_entries hr htmp p).symm, htmp⟩

theorem synced_fresh (pid : Nat) : Synced (fresh pid) :=
  ⟨fun _ => rfl, fun _ => rfl⟩

/-- What an operation can do: persist an entry after some content operations, remove one, move
one, or nothing. -/
inductive Does (ov : Overlay) : OverlayOp → Mutation → Prop
  | put {op p e pre seq} (hpre : ∀ o ∈ pre, FileOp.OnContent o)
      (heff : op.effect ov.newContentId ov.index.entries =
        Function.update ov.index.entries p (some e)) :
      Does ov op ⟨pre ++ persist p e, ov.index.insert p e, seq⟩
  | clear {p} : Does ov (.clear p) ⟨ov.dropContent p ++ [.removeSidecar p], ov.index.remove p,
      ov.contentSeq⟩
  | rename {src dst e} (he : ov.lookup src = some e) :
      Does ov (.rename src dst) ⟨persist dst e ++ [.removeSidecar src],
        (ov.index.insert dst e).remove src, ov.contentSeq⟩
  | unchanged {op} (heff : op.effect ov.newContentId ov.index.entries = ov.index.entries) :
      Does ov op ov.unchanged

theorem forall_onContent_nil : ∀ o ∈ ([] : List FileOp), FileOp.OnContent o := by simp

theorem onContent_copyUp (content : ContentId) (seed : Option Bytes) :
    ∀ o ∈ copyUp content seed, FileOp.OnContent o := by
  cases seed <;> simp [copyUp, FileOp.OnContent]

theorem onContent_dropContent (ov : Overlay) (p : RepoPath) :
    ∀ o ∈ ov.dropContent p, FileOp.OnContent o := by
  simp only [dropContent]
  split <;> simp [FileOp.OnContent]

theorem does (ov : Overlay) (op : OverlayOp) : Does ov op (ov.mutation op) := by
  cases op with
  | createFile p executable seed =>
    exact Does.put (onContent_copyUp _ seed) rfl
  | putSymlink p target => exact Does.put forall_onContent_nil rfl
  | putDir p => exact Does.put forall_onContent_nil rfl
  | putBaseRef p oid mode => exact Does.put forall_onContent_nil rfl
  | tombstone p => exact Does.put (ov.onContent_dropContent p) rfl
  | clear p => exact Does.clear
  | rename src dst =>
    cases h : ov.lookup src with
    | none =>
      have hm : ov.mutation (.rename src dst) = ov.unchanged := by simp [mutation, rename, h]
      rw [hm]
      have hns : ov.index.entries src = none := h
      exact Does.unchanged (by simp [OverlayOp.effect, hns])
    | some e =>
      have hm : ov.mutation (.rename src dst) = ⟨persist dst e ++ [.removeSidecar src],
          (ov.index.insert dst e).remove src, ov.contentSeq⟩ := by
        simp [mutation, rename, h]
      rw [hm]
      exact Does.rename h
  | setExecutable p exec =>
    by_cases h : ∃ c x, ov.lookup p = some (.file c x)
    · obtain ⟨c, x, h⟩ := h
      have hm : ov.mutation (.setExecutable p exec) = ov.put p (.file c exec) := by
        simp [mutation, setExecutable, h, Except.toOption]
      rw [hm]
      have hns : ov.index.entries p = some (.file c x) := h
      exact Does.put forall_onContent_nil (by simp [OverlayOp.effect, hns])
    · have hm : ov.mutation (.setExecutable p exec) = ov.unchanged := by
        simp only [mutation, setExecutable]
        split
        · exact (h ⟨_, _, ‹_›⟩).elim
        · rfl
      rw [hm]
      refine Does.unchanged ?_
      simp only [OverlayOp.effect]
      split
      · exact (h ⟨_, _, ‹_›⟩).elim
      · rfl

theorem step_entries (ov : Overlay) (op : OverlayOp) :
    (ov.step op).index.entries = op.effect ov.newContentId ov.index.entries := by
  have hd := ov.does op
  show (ov.mutation op).index.entries = _
  cases hm : ov.mutation op with
  | mk ops idx seq =>
    rw [hm] at hd
    cases hd with
    | put hpre heff => exact heff.symm
    | clear => rfl
    | rename he =>
      have hns : ov.index.entries _ = some _ := he
      simp [OverlayOp.effect, hns]
    | unchanged heff => exact heff.symm

theorem synced_step {ov : Overlay} (hs : Synced ov) (op : OverlayOp) : Synced (ov.step op) := by
  have hd := ov.does op
  show Synced (ov.apply (ov.mutation op))
  cases hm : ov.mutation op with
  | mk ops idx seq =>
    rw [hm] at hd
    cases hd with
    | @put _ p e pre _ hpre heff =>
      have hh := recovers_persist (recovers_content hs hpre) p e
      rwa [← Disk.execAll_append] at hh
    | @clear p =>
      have hh := recovers_removeSidecar (recovers_content hs (ov.onContent_dropContent p)) p
      rwa [← Disk.execAll_nil (d := Disk.exec _ _), ← Disk.execAll_cons, ← Disk.execAll_append] at hh
    | @rename src dst e he =>
      have hh := recovers_removeSidecar (recovers_persist hs dst e) src
      rwa [← Disk.execAll_nil (d := Disk.exec _ _), ← Disk.execAll_cons, ← Disk.execAll_append] at hh
    | unchanged heff => exact hs

end Overlay

end LazyMount
