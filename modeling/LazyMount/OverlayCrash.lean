import LazyMount.OverlaySessions

/-! A crash between two file operations of an overlay mutator, and the content references that
the next `Overlay::open` recovers. -/

namespace LazyMount

namespace Disk

/-- A scan of this directory may recover `e` at `p`. -/
def May (d : Disk) (p : RepoPath) (e : OverlayEntry) : Prop :=
  d.fileEntry (.sidecar p) = some e ∨ d.fileEntry (.tmp p) = some e

/-- Whatever a scan recovers, content files exist and are not shared. -/
structure Sound (d : Disk) : Prop where
  content : ∀ p c x, d.May p (.file c x) → (d.content c).isSome
  unshared : ∀ p q c x y, d.May p (.file c x) → d.May q (.file c y) → p = q

theorem may_iff {d : Disk} {p : RepoPath} {e : OverlayEntry} :
    d.May p e ↔ ∃ name : MetaName, name.path = p ∧ d.fileEntry name = some e := by
  constructor
  · rintro (h | h)
    · exact ⟨.sidecar p, rfl, h⟩
    · exact ⟨.tmp p, rfl, h⟩
  · intro hh
    obtain ⟨name, rfl, h⟩ := hh
    cases name with
    | sidecar p => exact .inl h
    | tmp p => exact .inr h

end Disk

namespace Overlay

/-- Every file entry has its content file, and no two entries the same one. -/
structure SoundIndex (ov : Overlay) : Prop where
  content : ∀ p c x, ov.lookup p = some (.file c x) → (ov.disk.content c).isSome
  unshared : ∀ p q c x y, ov.lookup p = some (.file c x) → ov.lookup q = some (.file c y) → p = q

theorem may_of_scan {d : Disk} {order : List MetaName} {pid : Nat} {p : RepoPath} {e : OverlayEntry}
    (h : (openDisk d order pid).lookup p = some e) : d.May p e := by
  obtain ⟨name, _, hp, he⟩ := exists_of_scan h
  exact Disk.may_iff.mpr ⟨name, hp, he⟩

theorem exists_scan {d : Disk} {p q : RepoPath} {e f : OverlayEntry} (hp : d.May p e)
    (hq : d.May q f) (hne : p ≠ q) : ∃ order, ReadDir d order ∧ ∀ pid,
      (openDisk d order pid).lookup p = some e ∧ (openDisk d order pid).lookup q = some f := by
  obtain ⟨m, rfl, hm⟩ := Disk.may_iff.mp hp
  obtain ⟨n, rfl, hn⟩ := Disk.may_iff.mp hq
  have hsome : ∀ {x : MetaName} {g : OverlayEntry}, d.fileEntry x = some g →
      (d.metaFiles x).isSome := by
    intro x g hx
    cases hf : d.metaFiles x <;> simp_all [Disk.fileEntry]
  have hmn : m ≠ n := fun h => hne (congrArg MetaName.path h)
  obtain ⟨order, _, hlast⟩ := exists_readDir_last d m n
  refine ⟨order ++ [m, n], hlast [m, n] (by simp [hmn]) ?_, fun pid => ⟨?_, ?_⟩⟩
  · intro x
    simp only [List.mem_cons, List.not_mem_nil, or_false]
    exact ⟨fun h => ⟨h, by rcases h with rfl | rfl <;> simp [hsome hm, hsome hn]⟩, fun h => h.1⟩
  · show ((order ++ [m, n]).foldl (replay d) Index.empty).entries m.path = some e
    have happ : order ++ [m, n] = (order ++ [m]) ++ [n] := by simp
    rw [happ, List.foldl_append, List.foldl_cons, List.foldl_nil, replay_entries_apply,
      if_neg (Ne.symm hne)]
    exact scan_last hm
  · show ((order ++ [m, n]).foldl (replay d) Index.empty).entries n.path = some f
    have happ : order ++ [m, n] = (order ++ [m]) ++ [n] := by simp
    rw [happ]
    exact scan_last hn

theorem exists_scan_one {d : Disk} {p : RepoPath} {e : OverlayEntry} (hp : d.May p e) :
    ∃ order, ReadDir d order ∧ ∀ pid, (openDisk d order pid).lookup p = some e := by
  obtain ⟨m, rfl, hm⟩ := Disk.may_iff.mp hp
  obtain ⟨order, _, hlast⟩ := exists_readDir_last d m m
  have hsome : (d.metaFiles m).isSome := by
    cases hf : d.metaFiles m <;> simp_all [Disk.fileEntry]
  refine ⟨order ++ [m], hlast [m] (by simp) (by simp [hsome]), fun pid => ?_⟩
  exact scan_last hm

theorem soundIndex_iff (d : Disk) :
    (∀ order pid, ReadDir d order → SoundIndex (openDisk d order pid)) ↔ d.Sound := by
  constructor
  · intro h
    refine ⟨fun p c x hp => ?_, fun p q c x y hp hq => ?_⟩
    · obtain ⟨order, hr, hl⟩ := exists_scan_one hp
      exact (h order 0 hr).content p c x (hl 0)
    · by_contra hne
      obtain ⟨order, hr, hl⟩ := exists_scan hp hq hne
      exact hne ((h order 0 hr).unshared p q c x y (hl 0).1 (hl 0).2)
  · rintro ⟨hc, hu⟩ order pid hr
    exact ⟨fun p c x hp => hc p c x (may_of_scan hp),
      fun p q c x y hp hq => hu p q c x y (may_of_scan hp) (may_of_scan hq)⟩

/-! The disk after a cut. -/

theorem fileEntry_persist_take (d : Disk) (p : RepoPath) (e : OverlayEntry) (k : Nat) (n : MetaName) :
    (d.execAll ((persist p e).take k)).fileEntry n = match k with
      | 0 => d.fileEntry n
      | 1 => if n = .tmp p then none else d.fileEntry n
      | 2 => if n = .tmp p then some e else d.fileEntry n
      | _ => if n = .tmp p then none else if n = .sidecar p then some e else d.fileEntry n := by
  rcases k with _ | _ | _ | k
  · rfl
  · exact Disk.fileEntry_createTmp p n
  · have hops : (persist p e).take 2 = [.createTmp p, .writeTmp p e] := rfl
    simp only [hops, Disk.execAll_cons, Disk.execAll_nil, Disk.fileEntry_writeTmp,
      Disk.fileEntry_createTmp]
    grind
  · have hops : (persist p e).take (k + 3) = persist p e := List.take_of_length_le (by simp [persist])
    rw [hops]
    exact Disk.fileEntry_persist p e n

theorem content_persist_take (d : Disk) (p : RepoPath) (e : OverlayEntry) (k : Nat) :
    (d.execAll ((persist p e).take k)).content = d.content := by
  rcases k with _ | _ | _ | k
  · rfl
  · rfl
  · rfl
  · have hops : (persist p e).take (k + 3) = persist p e := List.take_of_length_le (by simp [persist])
    rw [hops, Disk.content_persist]

theorem may_persist_take {d : Disk} {p q : RepoPath} {e f : OverlayEntry} {k : Nat}
    (h : (d.execAll ((persist p e).take k)).May q f) : d.May q f ∨ q = p ∧ f = e ∧ 1 < k := by
  simp only [Disk.May, fileEntry_persist_take] at h
  rcases k with _ | _ | _ | k <;> simp only [Disk.May] <;> grind

theorem may_removeSidecar {d : Disk} {p q : RepoPath} {e : OverlayEntry}
    (h : (d.exec (.removeSidecar p)).May q e) :
    d.May q e ∧ (d.fileEntry (.tmp p) = none → q ≠ p) := by
  simp only [Disk.May, Disk.fileEntry_removeSidecar] at h ⊢
  grind

/-- The run has left the index on disk, the references sound, and its content ids its own. -/
structure Intact (ov : Overlay) : Prop where
  synced : Synced ov
  sound : ov.disk.Sound
  minted : ∀ p c x, ov.lookup p = some (.file c x) → c.pid = ov.pid ∧ c.seq < ov.contentSeq

/-- The cuts that break a reference: a deletion that has removed the content of its file and
not yet its sidecar, and a rename of a file whose entry stands at both paths. -/
def BrokenCut (ov : Overlay) (cut : Nat) : OverlayOp → Prop
  | .tombstone p => (∃ c x, ov.lookup p = some (.file c x)) ∧ 0 < cut ∧ cut < 4
  | .clear p => (∃ c x, ov.lookup p = some (.file c x)) ∧ cut = 1
  | .rename src dst => (∃ c x, ov.lookup src = some (.file c x)) ∧ src ≠ dst ∧ 1 < cut ∧ cut < 4
  | _ => False

variable {ov : Overlay} {cut : Nat}

theorem may_iff_lookup (hs : Synced ov) {p : RepoPath} {e : OverlayEntry} :
    ov.disk.May p e ↔ ov.lookup p = some e := by
  simp [Disk.May, hs.sidecar, hs.noTmp, lookup]

theorem sound_of_subset {d d' : Disk} (hs : d.Sound)
    (hmay : ∀ q c x, d'.May q (.file c x) → d.May q (.file c x))
    (hc : ∀ q c x, d'.May q (.file c x) → (d.content c).isSome → (d'.content c).isSome) :
    d'.Sound :=
  ⟨fun p c x hp => hc p c x hp (hs.content p c x (hmay p c x hp)),
    fun p q c x y hp hq => hs.unshared p q c x y (hmay p c x hp) (hmay q c y hq)⟩

theorem sound_persist_take {d : Disk} (hs : d.Sound) {p : RepoPath} {e : OverlayEntry} {k : Nat}
    (he : 1 < k → ∀ c x, e = .file c x → ∃ y, d.May p (.file c y)) :
    (d.execAll ((persist p e).take k)).Sound := by
  have hold : ∀ q c x, (d.execAll ((persist p e).take k)).May q (.file c x) →
      ∃ y, d.May q (.file c y) := by
    intro q c x h
    rcases may_persist_take h with h | ⟨rfl, hf, hk⟩
    · exact ⟨x, h⟩
    · exact he hk c x hf.symm
  refine ⟨fun q c x h => ?_, fun q r c x y hq hr => ?_⟩
  · obtain ⟨y, hy⟩ := hold q c x h
    rw [content_persist_take]
    exact hs.content q c y hy
  · obtain ⟨x', hx⟩ := hold q c x hq
    obtain ⟨y', hy⟩ := hold r c y hr
    exact hs.unshared q r c x' y' hx hy

theorem content_copyUp_take (d : Disk) (content c : ContentId) (seed : Option Bytes) (k : Nat) :
    (((d.execAll ((copyUp content seed).take k)).content c).isSome : Prop) ↔
      (d.content c).isSome ∨ 0 < k ∧ c = content := by
  rcases k with _ | _ | k <;> cases seed <;> by_cases hc : c = content <;>
    simp [copyUp, Disk.exec, Disk.setContent, hc]

theorem sound_create (hi : Intact ov) (p : RepoPath) (x : Bool) (seed : Option Bytes) :
    (ov.crashDisk (.createFile p x seed) cut).Sound := by
  have hops : (ov.mutation (.createFile p x seed)).fileOps =
      copyUp ov.newContentId seed ++ persist p (.file ov.newContentId x) := rfl
  have hpre : ∀ o ∈ (copyUp ov.newContentId seed).take cut, FileOp.OnContent o := fun o ho =>
    onContent_copyUp _ seed o (List.mem_of_mem_take ho)
  rw [crashDisk, hops, List.take_append, Disk.execAll_append]
  set d := ov.disk.execAll ((copyUp ov.newContentId seed).take cut) with hd
  have hmay : ∀ q c y, d.May q (.file c y) ↔ ov.lookup q = some (.file c y) := by
    intro q c y
    rw [← may_iff_lookup hi.synced, Disk.May, Disk.May, hd, Disk.fileEntry_content hpre]
  have hnew : ∀ q y, ¬ d.May q (.file ov.newContentId y) := by
    intro q y h
    exact (hi.minted q _ y ((hmay q _ y).mp h)).2.ne rfl
  have hold : ∀ q c y, (d.execAll ((persist p (.file ov.newContentId x)).take
      (cut - (copyUp ov.newContentId seed).length))).May q (.file c y) →
      ov.lookup q = some (.file c y) ∨ q = p ∧ c = ov.newContentId ∧ 0 < cut := by
    intro q c y h
    rcases may_persist_take h with h | ⟨rfl, he, hk⟩
    · exact .inl ((hmay q c y).mp h)
    · injection he with hc
      exact .inr ⟨rfl, hc, by omega⟩
  refine ⟨fun q c y h => ?_, fun q r c y z hq hr => ?_⟩
  · rw [content_persist_take, hd, content_copyUp_take]
    rcases hold q c y h with h | ⟨_, rfl, hcut⟩
    · exact .inl (hi.sound.content q c y ((may_iff_lookup hi.synced).mpr h))
    · exact .inr ⟨hcut, rfl⟩
  · rcases hold q c y hq with h | ⟨hq', hc, _⟩
    · rcases hold r c z hr with h' | ⟨_, rfl, _⟩
      · exact hi.sound.unshared q r c y z ((may_iff_lookup hi.synced).mpr h)
          ((may_iff_lookup hi.synced).mpr h')
      · exact (hnew q y ((hmay q _ y).mpr h)).elim
    · rcases hold r c z hr with h' | ⟨hr', _, _⟩
      · exact (hnew r z ((hmay r _ z).mpr (hc ▸ h'))).elim
      · rw [hq', hr']

theorem dropContent_of_file {p : RepoPath} {c : ContentId} {x : Bool}
    (h : ov.lookup p = some (.file c x)) : ov.dropContent p = [.removeContent c] := by
  simp [dropContent, h]

theorem dropContent_of_not_file {p : RepoPath} (h : ¬ ∃ c x, ov.lookup p = some (.file c x)) :
    ov.dropContent p = [] := by
  simp only [dropContent]
  split
  · exact (h ⟨_, _, ‹_›⟩).elim
  · rfl

theorem sound_of_dropped (hi : Intact ov) {p : RepoPath} {c : ContentId} {x : Bool} {d : Disk}
    (hp : ov.lookup p = some (.file c x))
    (hmay : ∀ q c' y, d.May q (.file c' y) → q ≠ p ∧ ov.disk.May q (.file c' y))
    (hc : ∀ c', c' ≠ c → d.content c' = ov.disk.content c') : d.Sound := by
  refine sound_of_subset hi.sound (fun q c' y h => (hmay q c' y h).2) fun q c' y h hsome => ?_
  obtain ⟨hne, hold⟩ := hmay q c' y h
  have hcc : c' ≠ c := by
    intro heq
    subst heq
    exact hne (hi.sound.unshared q p c' y x hold ((may_iff_lookup hi.synced).mpr hp))
  rwa [hc c' hcc]

theorem sound_tombstone (hi : Intact ov) {p : RepoPath} (hb : ¬ BrokenCut ov cut (.tombstone p)) :
    (ov.crashDisk (.tombstone p) cut).Sound := by
  have hops : (ov.mutation (.tombstone p)).fileOps = ov.dropContent p ++ persist p .tombstone := rfl
  rw [crashDisk, hops]
  by_cases hf : ∃ c x, ov.lookup p = some (.file c x)
  · have hcut : cut = 0 ∨ 4 ≤ cut := by
      by_contra hcut
      exact hb ⟨hf, by omega, by omega⟩
    obtain ⟨c, x, hp⟩ := hf
    rw [dropContent_of_file hp]
    rcases hcut with rfl | hcut
    · exact hi.sound
    · rw [List.take_of_length_le (by simpa [persist] using hcut), Disk.execAll_append]
      refine sound_of_dropped hi hp (fun q c' y h => ?_) fun c' hc => ?_
      · simp only [Disk.May, Disk.fileEntry_persist, Disk.execAll_cons, Disk.execAll_nil,
          Disk.fileEntry_removeContent] at h
        simp only [Disk.May]
        grind
      · simp [Disk.exec, Disk.setContent, Function.update_of_ne hc]
  · rw [dropContent_of_not_file hf, List.nil_append]
    exact sound_persist_take hi.sound (by simp)

theorem sound_clear (hi : Intact ov) {p : RepoPath} (hb : ¬ BrokenCut ov cut (.clear p)) :
    (ov.crashDisk (.clear p) cut).Sound := by
  have hops : (ov.mutation (.clear p)).fileOps = ov.dropContent p ++ [.removeSidecar p] := rfl
  rw [crashDisk, hops]
  by_cases hf : ∃ c x, ov.lookup p = some (.file c x)
  · have hcut : cut = 0 ∨ 2 ≤ cut := by
      by_contra hcut
      exact hb ⟨hf, by omega⟩
    obtain ⟨c, x, hp⟩ := hf
    rw [dropContent_of_file hp]
    rcases hcut with rfl | hcut
    · exact hi.sound
    · rw [List.take_of_length_le (by simpa using hcut)]
      refine sound_of_dropped hi hp (fun q c' y h => ?_) fun c' hc => ?_
      · obtain ⟨hold, hne⟩ := may_removeSidecar h
        exact ⟨hne (hi.synced.noTmp p), hold⟩
      · exact Function.update_of_ne hc _ _
  · rw [dropContent_of_not_file hf, List.nil_append]
    rcases cut with _ | cut
    · exact hi.sound
    · rw [List.take_of_length_le (by simp)]
      exact sound_of_subset hi.sound (fun q c y h => (may_removeSidecar h).1) fun _ _ _ _ h => h

theorem fileOps_rename {src dst : RepoPath} {e : OverlayEntry} (he : ov.lookup src = some e) :
    (ov.mutation (.rename src dst)).fileOps = persist dst e ++ [.removeSidecar src] := by
  simp [mutation, rename, he]

theorem sound_of_moved (hi : Intact ov) {src dst : RepoPath} {c : ContentId} {x : Bool} {d : Disk}
    (he : ov.lookup src = some (.file c x))
    (hmay : ∀ q c' y, d.May q (.file c' y) →
      q = dst ∧ c' = c ∨ q ≠ src ∧ ov.disk.May q (.file c' y))
    (hc : d.content = ov.disk.content) : d.Sound := by
  have hsrc := (may_iff_lookup hi.synced).mpr he
  refine ⟨fun q c' y h => ?_, fun q r c' y z hq hr => ?_⟩
  · rw [hc]
    rcases hmay q c' y h with ⟨_, rfl⟩ | ⟨_, h⟩
    · exact hi.sound.content src c' x hsrc
    · exact hi.sound.content q c' y h
  · rcases hmay q c' y hq with ⟨hqd, hqc⟩ | ⟨hqs, hq⟩
    · rcases hmay r c' z hr with ⟨hrd, _⟩ | ⟨hrs, hr⟩
      · rw [hqd, hrd]
      · exact (hrs (hi.sound.unshared r src c z x (hqc ▸ hr) hsrc)).elim
    · rcases hmay r c' z hr with ⟨_, hrc⟩ | ⟨_, hr⟩
      · exact (hqs (hi.sound.unshared q src c y x (hrc ▸ hq) hsrc)).elim
      · exact hi.sound.unshared q r c' y z hq hr

theorem sound_rename (hi : Intact ov) {src dst : RepoPath}
    (hb : ¬ BrokenCut ov cut (.rename src dst)) : (ov.crashDisk (.rename src dst) cut).Sound := by
  cases he : ov.lookup src with
  | none =>
    have hops : (ov.mutation (.rename src dst)).fileOps = [] := by
      simp [mutation, rename, he, unchanged]
    rw [crashDisk, hops, List.take_nil]
    exact hi.sound
  | some e =>
    rw [crashDisk, fileOps_rename he, List.take_append, Disk.execAll_append]
    have hsrc := (may_iff_lookup hi.synced).mpr he
    -- unless a file moves to another path, the persist alone is sound at every cut
    by_cases hmove : (∃ c x, e = .file c x) ∧ src ≠ dst
    · obtain ⟨⟨c, x, rfl⟩, hne⟩ := hmove
      have hcut : cut ≤ 1 ∨ 4 ≤ cut := by
        by_contra hcut
        exact hb ⟨⟨c, x, he⟩, hne, by omega, by omega⟩
      rcases hcut with hcut | hcut
      · have hnil : [FileOp.removeSidecar src].take (cut - (persist dst (.file c x)).length) = [] := by
          simp [persist]
          omega
        rw [hnil]
        exact sound_persist_take hi.sound (by omega)
      · have hall : [FileOp.removeSidecar src].take (cut - (persist dst (.file c x)).length) =
            [.removeSidecar src] := List.take_of_length_le (by simp [persist]; omega)
        rw [hall, List.take_of_length_le (by simp [persist]; omega)]
        set d := ov.disk.execAll (persist dst (.file c x)) with hd
        have hold : ∀ q c' y, (d.exec (.removeSidecar src)).May q (.file c' y) →
            q = dst ∧ c' = c ∨ q ≠ src ∧ ov.disk.May q (.file c' y) := by
          intro q c' y h
          have hnone : d.fileEntry (.tmp src) = none := by
            rw [hd, Disk.fileEntry_persist]
            simp [hi.synced.noTmp]
          obtain ⟨h, hne⟩ := may_removeSidecar h
          simp only [Disk.May, hd, Disk.fileEntry_persist] at h
          have := hne hnone
          simp only [Disk.May]
          grind
        exact sound_of_moved hi he hold rfl
    · have hpersist : (ov.disk.execAll ((persist dst e).take cut)).Sound := by
        refine sound_persist_take hi.sound fun _ c x hf => ⟨x, ?_⟩
        have hsd : src = dst := by
          by_contra hne
          exact hmove ⟨⟨c, x, hf⟩, hne⟩
        rw [← hsd, ← hf]
        exact hsrc
      rcases Nat.lt_or_ge 3 cut with hcut | hcut
      · have hall : [FileOp.removeSidecar src].take (cut - (persist dst e).length) =
            [.removeSidecar src] := List.take_of_length_le (by simp [persist]; omega)
        rw [hall]
        exact sound_of_subset hpersist (fun q c y h => (may_removeSidecar h).1) fun _ _ _ _ h => h
      · have hnil : [FileOp.removeSidecar src].take (cut - (persist dst e).length) = [] := by
          simp [persist]
          omega
        rw [hnil]
        exact hpersist

theorem sound_put (hi : Intact ov) {p : RepoPath} {e : OverlayEntry}
    (he : ∀ c x, e = .file c x → ∃ y, ov.lookup p = some (.file c y)) :
    (ov.disk.execAll ((persist p e).take cut)).Sound :=
  sound_persist_take hi.sound fun _ c x hf =>
    (he c x hf).imp fun _ hy => (may_iff_lookup hi.synced).mpr hy

/-- Every other cut leaves the references sound. -/
theorem sound_crashDisk (hi : Intact ov) (op : OverlayOp) (hb : ¬ BrokenCut ov cut op) :
    (ov.crashDisk op cut).Sound := by
  cases op with
  | createFile p x seed => exact sound_create hi p x seed
  | putSymlink | putDir | putBaseRef => exact sound_put hi (by simp)
  | tombstone p => exact sound_tombstone hi hb
  | clear p => exact sound_clear hi hb
  | rename src dst => exact sound_rename hi hb
  | setExecutable p exec =>
    by_cases hf : ∃ c x, ov.lookup p = some (.file c x)
    · obtain ⟨c, x, hp⟩ := hf
      have hops : (ov.mutation (.setExecutable p exec)).fileOps = persist p (.file c exec) := by
        simp [mutation, setExecutable, hp, Except.toOption, put]
      rw [crashDisk, hops]
      refine sound_put hi fun c' y h => ⟨x, ?_⟩
      injection h with h
      rw [hp, h]
    · have hops : (ov.mutation (.setExecutable p exec)).fileOps = [] := by
        simp only [mutation, setExecutable]
        split
        · exact (hf ⟨_, _, ‹_›⟩).elim
        · rfl
      rw [crashDisk, hops, List.take_nil]
      exact hi.sound

/-- A broken cut leaves a file entry on disk without its content, or one content id at two
paths. -/
theorem not_sound_crashDisk (hi : Intact ov) {op : OverlayOp} (hb : BrokenCut ov cut op) :
    ¬ (ov.crashDisk op cut).Sound := by
  intro hs
  cases op with
  | tombstone p =>
    obtain ⟨⟨c, x, hp⟩, hlo, hhi⟩ := hb
    obtain ⟨k, rfl⟩ := Nat.exists_eq_add_of_lt hlo
    have hops : (ov.mutation (.tombstone p)).fileOps = .removeContent c :: persist p .tombstone := by
      show ov.dropContent p ++ _ = _
      rw [dropContent_of_file hp]
      rfl
    rw [crashDisk, hops, Nat.zero_add, List.take_succ_cons, Disk.execAll_cons] at hs
    have hmay : ((ov.disk.exec (.removeContent c)).execAll ((persist p .tombstone).take k)).May p
        (.file c x) := by
      left
      rw [fileEntry_persist_take]
      have hold : (ov.disk.exec (.removeContent c)).fileEntry (.sidecar p) = some (.file c x) :=
        (hi.synced.sidecar p).trans hp
      rcases k with _ | _ | _ | k
      · exact hold
      · simpa using hold
      · simpa using hold
      · omega
    have hc := hs.content p c x hmay
    rw [content_persist_take] at hc
    simp [Disk.exec, Disk.setContent] at hc
  | clear p =>
    obtain ⟨⟨c, x, hp⟩, rfl⟩ := hb
    have hops : (ov.mutation (.clear p)).fileOps = [.removeContent c, .removeSidecar p] := by
      show ov.dropContent p ++ _ = _
      rw [dropContent_of_file hp]
      rfl
    rw [crashDisk, hops] at hs
    have hc := hs.content p c x (.inl ((hi.synced.sidecar p).trans hp))
    simp [Disk.exec, Disk.setContent] at hc
  | rename src dst =>
    obtain ⟨⟨c, x, he⟩, hne, hlo, hhi⟩ := hb
    have hnil : [FileOp.removeSidecar src].take (cut - (persist dst (.file c x)).length) = [] := by
      simp [persist]
      omega
    rw [crashDisk, fileOps_rename he, List.take_append, hnil, List.append_nil] at hs
    have hsrc : (ov.disk.execAll ((persist dst (.file c x)).take cut)).May src (.file c x) := by
      left
      have hold : ov.disk.fileEntry (.sidecar src) = some (.file c x) := (hi.synced.sidecar src).trans he
      rw [fileEntry_persist_take]
      rcases cut with _ | _ | _ | cut <;> simp [hne, hold]
    have hdst : (ov.disk.execAll ((persist dst (.file c x)).take cut)).May dst (.file c x) := by
      simp only [Disk.May, fileEntry_persist_take]
      rcases cut with _ | _ | _ | cut
      · omega
      · omega
      · simp
      · simp
    exact hne (hs.unshared src dst c x x hsrc hdst)
  | createFile | putSymlink | putDir | putBaseRef | setExecutable => exact hb

theorem intact_fresh (pid : Nat) : Intact (fresh pid) := by
  refine ⟨synced_fresh pid, ⟨fun p c x h => ?_, fun p q c x y h => ?_⟩, by simp [fresh, openDisk, lookup, Index.empty]⟩
  · rcases h with h | h <;> cases h
  · rcases h with h | h <;> cases h

theorem not_brokenCut_length (ov : Overlay) (op : OverlayOp) :
    ¬ BrokenCut ov (ov.mutation op).fileOps.length op := by
  cases op with
  | tombstone p =>
    intro hh
    obtain ⟨⟨c, x, hp⟩, _, hlt⟩ := hh
    have hlen : (ov.mutation (.tombstone p)).fileOps.length = 4 := by
      show (ov.dropContent p ++ persist p .tombstone).length = 4
      rw [dropContent_of_file hp]
      rfl
    omega
  | clear p =>
    intro hh
    obtain ⟨⟨c, x, hp⟩, hlen'⟩ := hh
    have hlen : (ov.mutation (.clear p)).fileOps.length = 2 := by
      show (ov.dropContent p ++ [FileOp.removeSidecar p]).length = 2
      rw [dropContent_of_file hp]
      rfl
    omega
  | rename src dst =>
    intro hh
    obtain ⟨⟨c, x, he⟩, _, _, hlt⟩ := hh
    rw [fileOps_rename he] at hlt
    simp [persist] at hlt
  | createFile | putSymlink | putDir | putBaseRef | setExecutable => exact id

theorem intact_step (hi : Intact ov) (op : OverlayOp) : Intact (ov.step op) := by
  refine ⟨synced_step hi.synced op, ?_, fun p c x h => ?_⟩
  · have hs := sound_crashDisk hi op (not_brokenCut_length ov op)
    rwa [crashDisk, List.take_length] at hs
  · rw [lookup, step_entries] at h
    rw [step_pid, contentSeq_step]
    rcases effect_file h with ⟨q, y, seed, rfl, rfl⟩ | ⟨q, y, hq⟩
    · simp [newContentId]
    · obtain ⟨hpid, hlt⟩ := hi.minted q c y hq
      exact ⟨hpid, Nat.lt_add_right _ hlt⟩

theorem intact_run (hi : Intact ov) (ops : List OverlayOp) : Intact (ov.run ops) := by
  induction ops generalizing ov with
  | nil => exact hi
  | cons op ops ih => exact ih (intact_step hi op)

end Overlay

/-- After any run on a new overlay and a crash inside the next operation, every index that the
next open may rebuild has its content files, none shared, if and only if the cut is not one of
the broken ones. -/
theorem crash_keeps_references_iff (pid : Nat) (ops : List OverlayOp) (op : OverlayOp) (cut : Nat) :
    (∀ order pid', Overlay.ReadDir (((Overlay.fresh pid).run ops).crashDisk op cut) order →
      Overlay.SoundIndex
        (Overlay.openDisk (((Overlay.fresh pid).run ops).crashDisk op cut) order pid')) ↔
      ¬ Overlay.BrokenCut ((Overlay.fresh pid).run ops) cut op := by
  have hi := Overlay.intact_run (Overlay.intact_fresh pid) ops
  rw [Overlay.soundIndex_iff]
  exact ⟨fun h hb => Overlay.not_sound_crashDisk hi hb h, Overlay.sound_crashDisk hi op⟩

/-- A crash behind the first file operation of the tombstone of a file: the next open finds the
sidecar of `a` and no content file. -/
theorem crash_dangles_reference :
    let d := ((Overlay.fresh 1).run [.createFile (letter 97) false none]).crashDisk
      (.tombstone (letter 97)) 1
    let ov := Overlay.openDisk d [.sidecar (letter 97)] 2
    Overlay.ReadDir d [.sidecar (letter 97)] ∧
      ov.lookup (letter 97) = some (.file ⟨1, 0⟩ false) ∧ ov.disk.content ⟨1, 0⟩ = none := by
  refine ⟨⟨by simp, fun name => ?_⟩, by decide, by decide⟩
  show _ ↔ (((Disk.empty.exec (.createContent ⟨1, 0⟩)).execAll
    (Overlay.persist (letter 97) (.file ⟨1, 0⟩ false))).metaFiles name).isSome = true
  rw [Disk.metaFiles_persist]
  by_cases hn : name = .sidecar (letter 97)
  · simp [hn]
  · by_cases ht : name = .tmp (letter 97)
    · simp [ht]
    · simp [hn, ht, Disk.exec, Disk.setContent, Disk.empty]

end LazyMount
