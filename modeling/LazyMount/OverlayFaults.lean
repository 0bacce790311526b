import LazyMount.OverlayInvariant

/-! File operations that fail inside an overlay mutator. The removals are best effort; any other
failure ends the call with `Err`, before the index is updated. -/

namespace LazyMount

open Function (update)

/-- The removals, whose results the source drops with `let _ =`. -/
def FileOp.ignored : FileOp → Bool
  | .removeContent _ | .removeSidecar _ => true
  | _ => false

/-- Where a call fails: the number of file operations behind it, the bytes that a failed copy
has written, and whether the removals failed as well. An `fsync` that fails, or the open of a new
content file, leaves what the failure of the next operation leaves. -/
structure Fault where
  before : Nat
  copied : Nat
  stuck : Bool
deriving DecidableEq, Repr

/-- What a failed operation leaves: a part of the copy, else nothing. The sidecar that a failed
write leaves in the temp file does not parse, as before. -/
def Disk.execPart (d : Disk) (copied : Nat) : FileOp → Disk
  | .writeContent c bytes => d.exec (.writeContent c (bytes.take copied))
  | _ => d

namespace Overlay

/-- The file operations of a call that take place, if none of the others fails. -/
def attempted (ov : Overlay) (op : OverlayOp) (stuck : Bool) : List FileOp :=
  if stuck then (ov.mutation op).fileOps.filter fun o => !o.ignored else (ov.mutation op).fileOps

def failDisk (ov : Overlay) (op : OverlayOp) (f : Fault) : Disk :=
  let d := ov.disk.execAll ((ov.attempted op f.stuck).take f.before)
  match (ov.attempted op f.stuck)[f.before]? with
  | some o => d.execPart f.copied o
  | none => d

/-- The overlay behind a call that fails so. -/
def failed (ov : Overlay) (op : OverlayOp) (f : Fault) : Overlay :=
  { ov with disk := ov.failDisk op f, contentSeq := (ov.mutation op).contentSeq }

/-- Such a fault can end the call with `Err`. -/
def Fails (ov : Overlay) (op : OverlayOp) (f : Fault) : Prop :=
  ∃ o, (ov.attempted op f.stuck)[f.before]? = some o ∧ o.ignored = false

/-- The path whose sidecar a call writes. -/
def target : OverlayOp → RepoPath
  | .createFile p _ _ | .putSymlink p _ | .putDir p | .putBaseRef p _ _ | .tombstone p | .clear p
  | .setExecutable p _ => p
  | .rename _ dst => dst

/-- The entry of that sidecar. -/
def written (ov : Overlay) : OverlayOp → Option OverlayEntry
  | .createFile _ x _ => some (.file ov.newContentId x)
  | .putSymlink _ target => some (.symlink target)
  | .putDir _ => some .dir
  | .putBaseRef _ oid mode => some (.baseRef oid mode)
  | .tombstone _ => some .tombstone
  | .clear _ => none
  | .rename src _ => ov.lookup src
  | .setExecutable p x =>
    match ov.lookup p with
    | some (.file c _) => some (.file c x)
    | _ => none

/-- The file operations before the sidecar is written. -/
def lead (ov : Overlay) (op : OverlayOp) (stuck : Bool) : List FileOp :=
  match op with
  | .createFile _ _ seed => copyUp ov.newContentId seed
  | .tombstone p => if stuck then [] else ov.dropContent p
  | _ => []

variable {ov : Overlay} {op : OverlayOp} {f : Fault}

theorem filter_persist (p : RepoPath) (e : OverlayEntry) :
    ((persist p e).filter fun o => !o.ignored) = persist p e := rfl

theorem filter_copyUp (c : ContentId) (seed : Option Bytes) :
    ((copyUp c seed).filter fun o => !o.ignored) = copyUp c seed := by
  cases seed <;> rfl

theorem filter_dropContent (p : RepoPath) :
    ((ov.dropContent p).filter fun o => !o.ignored) = [] := by
  rw [dropContent]
  split <;> rfl

theorem attempted_eq (stuck : Bool) {e : OverlayEntry} (h : ov.written op = some e) :
    ∃ rest, ov.attempted op stuck = ov.lead op stuck ++ persist (target op) e ++ rest ∧
      ∀ o ∈ rest, FileOp.ignored o = true := by
  cases op with
  | createFile p x seed =>
    obtain rfl := Option.some.inj h
    refine ⟨[], ?_, by simp⟩
    cases stuck
    · simp [attempted, mutation, createFile, lead, target]
    · simp only [attempted, mutation, createFile, if_true, List.filter_append, filter_copyUp,
        filter_persist, lead, target, List.append_nil]
  | putSymlink | putDir | putBaseRef =>
    obtain rfl := Option.some.inj h
    refine ⟨[], ?_, by simp⟩
    cases stuck <;> rfl
  | tombstone p =>
    obtain rfl := Option.some.inj h
    refine ⟨[], ?_, by simp⟩
    cases stuck
    · simp [attempted, mutation, tombstone, lead, target]
    · simp only [attempted, mutation, tombstone, if_true, List.filter_append, filter_dropContent,
        filter_persist, lead, target, List.append_nil]
  | clear p => cases h
  | rename src dst =>
    have hl : ov.lookup src = some e := h
    cases stuck
    · exact ⟨[.removeSidecar src], by simp [attempted, mutation, rename, hl, lead, target],
        by simp [FileOp.ignored]⟩
    · refine ⟨[], ?_, by simp⟩
      simp [attempted, mutation, rename, hl, lead, target, persist, FileOp.ignored]
  | setExecutable p x =>
    rw [written] at h
    split at h
    · rename_i c y hl
      obtain rfl := Option.some.inj h
      refine ⟨[], ?_, by simp⟩
      cases stuck <;> simp [attempted, mutation, setExecutable, hl, Except.toOption, put, lead,
        target, persist, FileOp.ignored]
    · cases h

theorem attempted_ignored {stuck : Bool} (h : ov.written op = none) :
    ∀ o ∈ ov.attempted op stuck, FileOp.ignored o = true := by
  have hsub : ∀ o ∈ ov.attempted op stuck, o ∈ (ov.mutation op).fileOps := by
    intro o ho
    rw [attempted] at ho
    split at ho
    · exact List.mem_of_mem_filter ho
    · exact ho
  intro o ho
  have hmem := hsub o ho
  cases op with
  | createFile | putSymlink | putDir | putBaseRef | tombstone => cases h
  | clear p =>
    rcases List.mem_append.mp hmem with hd | hr
    · rw [dropContent] at hd
      split at hd
      · rw [List.mem_singleton.mp hd]
        rfl
      · cases hd
    · rw [List.mem_singleton.mp hr]
      rfl
  | rename src dst =>
    have hl : ov.lookup src = none := h
    simp [mutation, rename, hl, unchanged] at hmem
  | setExecutable p x =>
    have hm : ov.mutation (.setExecutable p x) = ov.unchanged := by
      simp only [written] at h
      simp only [mutation, setExecutable]
      split
      · rename_i c y hl
        rw [hl] at h
        cases h
      · rfl
    rw [hm] at hmem
    cases hmem

theorem execPart_persist (d : Disk) (n : Nat) {p : RepoPath} {e : OverlayEntry} {o : FileOp}
    (h : o ∈ persist p e) : d.execPart n o = d := by
  simp only [persist, List.mem_cons, List.not_mem_nil, or_false] at h
  rcases h with rfl | rfl | rfl <;> rfl

theorem Fails.written (h : Fails ov op f) : ∃ e, ov.written op = some e := by
  obtain ⟨o, ho, hno⟩ := h
  cases hw : ov.written op with
  | some e => exact ⟨e, rfl⟩
  | none =>
    have hyes := attempted_ignored hw o (List.mem_of_getElem? ho)
    rw [hyes] at hno
    cases hno

/-- A call fails before the sidecar is written, or at one of the three operations that write it. -/
theorem Fails.point (h : Fails ov op f) {e : OverlayEntry} (he : ov.written op = some e) :
    (∃ o, (ov.lead op f.stuck)[f.before]? = some o ∧ o.ignored = false ∧ ov.failDisk op f =
      (ov.disk.execAll ((ov.lead op f.stuck).take f.before)).execPart f.copied o) ∨
    ∃ k < 3, f.before = (ov.lead op f.stuck).length + k ∧
      ov.failDisk op f = (ov.disk.execAll (ov.lead op f.stuck)).execAll ((persist (target op) e).take k) := by
  obtain ⟨rest, heq, hrest⟩ := attempted_eq f.stuck he
  obtain ⟨o, ho, hno⟩ := h
  have hfail : ov.failDisk op f =
      (ov.disk.execAll ((ov.attempted op f.stuck).take f.before)).execPart f.copied o := by
    rw [failDisk, ho]
  rw [heq] at ho hfail
  by_cases hlead : f.before < (ov.lead op f.stuck).length
  · left
    have hleft : f.before < (ov.lead op f.stuck ++ persist (target op) e).length := by
      rw [List.length_append]
      omega
    rw [List.getElem?_append_left hleft, List.getElem?_append_left hlead] at ho
    refine ⟨o, ho, hno, ?_⟩
    rw [hfail, List.take_append_of_le_length hleft.le, List.take_append_of_le_length hlead.le]
  · right
    obtain ⟨k, hk⟩ := Nat.exists_eq_add_of_le (Nat.le_of_not_lt hlead)
    have hlen : (persist (target op) e).length = 3 := rfl
    rw [List.append_assoc, List.getElem?_append_right (by omega), hk, Nat.add_sub_cancel_left] at ho
    have hk3 : k < 3 := by
      by_contra hge
      rw [List.getElem?_append_right (by omega)] at ho
      have hyes := hrest o (List.mem_of_getElem? ho)
      rw [hyes] at hno
      cases hno
    rw [List.getElem?_append_left (by omega)] at ho
    refine ⟨k, hk3, hk, ?_⟩
    rw [hfail, execPart_persist _ _ (List.mem_of_getElem? ho), hk, List.append_assoc,
      List.take_length_add_append, Disk.execAll_append, List.take_append_of_le_length (by omega)]

theorem lead_onContent (stuck : Bool) : ∀ o ∈ ov.lead op stuck, FileOp.OnContent o := by
  cases op with
  | createFile p x seed => exact onContent_copyUp _ seed
  | tombstone p =>
    cases stuck
    · exact ov.onContent_dropContent p
    · exact forall_onContent_nil
  | putSymlink | putDir | putBaseRef | clear | rename | setExecutable => exact forall_onContent_nil

theorem fileEntry_execPart (d : Disk) (n : Nat) (o : FileOp) : (d.execPart n o).fileEntry = d.fileEntry := by
  cases o <;> rfl

theorem fileEntry_failed (h : Fails ov op f) {e : OverlayEntry} (he : ov.written op = some e) (n : MetaName) :
    (ov.failed op f).disk.fileEntry n = match f.before - (ov.lead op f.stuck).length with
      | 0 => ov.disk.fileEntry n
      | 1 => if n = .tmp (target op) then none else ov.disk.fileEntry n
      | _ => if n = .tmp (target op) then some e else ov.disk.fileEntry n := by
  show (ov.failDisk op f).fileEntry n = _
  rcases h.point he with ⟨o, ho, -, hd⟩ | ⟨k, hk3, hk, hd⟩
  · have hlt := (List.getElem?_eq_some_iff.mp ho).1
    have hzero : f.before - (ov.lead op f.stuck).length = 0 := by omega
    rw [hd, hzero, fileEntry_execPart,
      Disk.fileEntry_content fun o ho => lead_onContent f.stuck o (List.mem_of_mem_take ho)]
    rfl
  · have hsub : f.before - (ov.lead op f.stuck).length = k := by omega
    rw [hd, hsub, fileEntry_persist_take, Disk.fileEntry_content (lead_onContent f.stuck)]
    rcases k with _ | _ | _ | k
    · rfl
    · rfl
    · rfl
    · omega

/-- The content file that a failed call has written or removed. -/
def spoiled (ov : Overlay) (op : OverlayOp) (f : Fault) : Option (ContentId × Option Bytes) :=
  match op with
  | .createFile _ _ seed =>
    match f.before, seed with
    | 0, _ => none
    | _ + 1, none => some (ov.newContentId, some [])
    | 1, some bytes => some (ov.newContentId, some (bytes.take f.copied))
    | _ + 2, some bytes => some (ov.newContentId, some bytes)
  | .tombstone p =>
    match f.stuck, ov.lookup p with
    | false, some (.file c _) => some (c, none)
    | _, _ => none
  | _ => none

theorem content_failed (h : Fails ov op f) (c : ContentId) :
    (ov.failed op f).disk.content c = match ov.spoiled op f with
      | some (b, bytes) => if c = b then bytes else ov.disk.content c
      | none => ov.disk.content c := by
  obtain ⟨e, he⟩ := h.written
  show (ov.failDisk op f).content c = _
  rcases h.point he with ⟨o, ho, hno, hd⟩ | ⟨k, -, hk, hd⟩
  · have hlt := (List.getElem?_eq_some_iff.mp ho).1
    rw [hd]
    cases op with
    | createFile p x seed =>
      cases seed with
      | none =>
        have hzero : f.before = 0 := by simpa [lead, copyUp] using hlt
        simp only [lead, copyUp, hzero, List.getElem?_cons_zero, Option.some.injEq] at ho
        subst ho
        simp [spoiled, hzero, Disk.execPart]
      | some bytes =>
        have htwo : f.before = 0 ∨ f.before = 1 := by
          have hlt' : f.before < 2 := by simpa [lead, copyUp] using hlt
          omega
        rcases htwo with hb | hb
        · simp only [lead, copyUp, hb, List.getElem?_cons_zero, Option.some.injEq] at ho
          subst ho
          simp [spoiled, hb, Disk.execPart]
        · simp only [lead, copyUp, hb, List.getElem?_cons_succ, List.getElem?_cons_zero, Option.some.injEq] at ho
          subst ho
          simp [spoiled, hb, Disk.execPart, lead, copyUp, Disk.exec, Disk.setContent, Function.update_apply]
    | tombstone p =>
      have hyes : o.ignored = true := by
        have hmem := List.mem_of_getElem? ho
        simp only [lead, dropContent] at hmem
        split at hmem
        · cases hmem
        · split at hmem
          · rw [List.mem_singleton.mp hmem]
            rfl
          · cases hmem
      rw [hyes] at hno
      cases hno
    | putSymlink | putDir | putBaseRef | clear | rename | setExecutable => cases ho
  · rw [hd, content_persist_take]
    cases op with
    | createFile p x seed =>
      cases seed with
      | none =>
        obtain ⟨n, hn⟩ : ∃ n, f.before = n + 1 := ⟨k, by simpa [lead, copyUp, Nat.add_comm] using hk⟩
        simp [spoiled, hn, lead, copyUp, Disk.exec, Disk.setContent, Function.update_apply]
      | some bytes =>
        obtain ⟨n, hn⟩ : ∃ n, f.before = n + 2 := ⟨k, by simpa [lead, copyUp, Nat.add_comm] using hk⟩
        simp [spoiled, hn, lead, copyUp, Disk.exec, Disk.setContent, Function.update_apply]
    | tombstone p =>
      cases hs : f.stuck with
      | true => simp [spoiled, lead, hs]
      | false =>
        simp only [spoiled, lead, hs, dropContent, Bool.false_eq_true, if_false]
        cases hl : ov.lookup p with
        | none => rfl
        | some e =>
          cases e with
          | file b y => simp [Disk.exec, Disk.setContent, Function.update_apply]
          | symlink | dir | tombstone | baseRef => rfl
    | putSymlink | putDir | putBaseRef | clear | rename | setExecutable => rfl

/-- What every caller sees of the overlay is as before. -/
structure Unaltered (P : Projection) (ov ov' : Overlay) : Prop where
  lookup : ov'.lookup = ov.lookup
  children : ∀ dir, P.children ov' dir = P.children ov dir
  bytes : ∀ p c x, ov.lookup p = some (.file c x) → ov'.disk.content c = ov.disk.content c

/-- In memory, and behind every later `Overlay::open`. -/
def Untouched (P : Projection) (ov ov' : Overlay) : Prop :=
  Unaltered P ov ov' ∧ ∀ order pid, ReadDir ov'.disk order → Unaltered P ov (openDisk ov'.disk order pid)

/-- An open of this directory can only find these entries. -/
def Shows (d : Disk) (ns : Namespace) : Prop := ∀ p e, d.May p e ↔ ns p = some e

theorem unaltered_of_index {P : Projection} {ov' : Overlay} (h : ov'.index = ov.index)
    (hc : ∀ p c x, ov.lookup p = some (.file c x) → ov'.disk.content c = ov.disk.content c) :
    Unaltered P ov ov' := by
  have hlookup : ov'.lookup = ov.lookup := by
    funext p
    rw [Overlay.lookup, Overlay.lookup, h]
  refine ⟨hlookup, fun dir => ?_, hc⟩
  rw [Projection.children, Projection.children, h, hlookup]

theorem lookup_openDisk_iff (d : Disk) (ns : Namespace) :
    (∀ order pid, ReadDir d order → (openDisk d order pid).lookup = ns) ↔ Shows d ns := by
  constructor
  · intro h p e
    constructor
    · intro hmay
      obtain ⟨order, hr, hl⟩ := exists_scan_one hmay
      rw [← h order 0 hr]
      exact hl 0
    · intro hns
      obtain ⟨order, hr⟩ := exists_readDir d
      have hl : (openDisk d order 0).lookup p = some e := by rw [h order 0 hr, hns]
      exact may_of_scan hl
  · intro h order pid hr
    funext p
    cases hl : (openDisk d order pid).lookup p with
    | some e => exact ((h p e).mp (may_of_scan hl)).symm
    | none =>
      cases hns : ns p with
      | none => rfl
      | some e =>
        obtain ⟨name, rfl, hname⟩ := Disk.may_iff.mp ((h p e).mpr hns)
        have hsome := scan_isSome (readDir_mem hr (by rw [hname]; rfl)) (by rw [hname]; rfl)
        have hnone : (order.foldl (replay d) Index.empty).entries name.path = none := hl
        rw [hnone] at hsome
        cases hsome

theorem untouched_iff {P : Projection} {ov' : Overlay} (hidx : ov'.index = ov.index) :
    Untouched P ov ov' ↔ Shows ov'.disk ov.lookup ∧
      ∀ p c x, ov.lookup p = some (.file c x) → ov'.disk.content c = ov.disk.content c := by
  constructor
  · rintro ⟨hmem, hopen⟩
    exact ⟨(lookup_openDisk_iff _ _).mp fun order pid hr => (hopen order pid hr).lookup, hmem.bytes⟩
  · rintro ⟨hshows, hbytes⟩
    refine ⟨unaltered_of_index hidx hbytes, fun order pid hr => unaltered_of_index ?_ hbytes⟩
    exact Index.ext_entries ((lookup_openDisk_iff _ _).mpr hshows order pid hr)

/-- The call fails while what the directory shows is still what the index holds: before its
temp file holds a whole sidecar, or with the entry that is there already; and no file entry uses
the content file that it has written or removed. -/
structure Spared (ov : Overlay) (op : OverlayOp) (f : Fault) : Prop where
  others : ∀ p e, p ≠ target op → (ov.disk.May p e ↔ ov.lookup p = some e)
  path : match f.before - (ov.lead op f.stuck).length with
    | 0 => ∀ e, ov.disk.May (target op) e ↔ ov.lookup (target op) = some e
    | 1 => ov.disk.fileEntry (.sidecar (target op)) = ov.lookup (target op)
    | _ => ov.lookup (target op) = ov.written op ∧
      ∀ e, ov.disk.fileEntry (.sidecar (target op)) = some e → ov.written op = some e
  content : ∀ p c x bytes, ov.lookup p = some (.file c x) → ov.spoiled op f = some (c, bytes) →
    ov.disk.content c = bytes

theorem shows_failed (h : Fails ov op f) : Shows (ov.failed op f).disk ov.lookup ↔
    (∀ p e, p ≠ target op → (ov.disk.May p e ↔ ov.lookup p = some e)) ∧
      match f.before - (ov.lead op f.stuck).length with
      | 0 => ∀ e, ov.disk.May (target op) e ↔ ov.lookup (target op) = some e
      | 1 => ov.disk.fileEntry (.sidecar (target op)) = ov.lookup (target op)
      | _ => ov.lookup (target op) = ov.written op ∧
        ∀ e, ov.disk.fileEntry (.sidecar (target op)) = some e → ov.written op = some e := by
  obtain ⟨w, hw⟩ := h.written
  have hentry := fileEntry_failed h hw
  have hsplit : Shows (ov.failed op f).disk ov.lookup ↔
      (∀ p e, p ≠ target op → ((ov.failed op f).disk.May p e ↔ ov.lookup p = some e)) ∧
        ∀ e, (ov.failed op f).disk.May (target op) e ↔ ov.lookup (target op) = some e := by
    refine ⟨fun hs => ⟨fun p e _ => hs p e, hs _⟩, fun hs p e => ?_⟩
    by_cases hp : p = target op
    · exact hp ▸ hs.2 e
    · exact hs.1 p e hp
  have hothers : ∀ p e, p ≠ target op → ((ov.failed op f).disk.May p e ↔ ov.disk.May p e) := by
    intro p e hp
    have hside : (MetaName.sidecar p) ≠ .tmp (target op) := by simp
    have htmp : (MetaName.tmp p) ≠ .tmp (target op) := by simpa using hp
    rw [Disk.May, Disk.May, hentry, hentry]
    split <;> simp [hp]
  rw [hsplit]
  refine and_congr (forall_congr' fun p => forall_congr' fun e => imp_congr_right fun hp => ?_) ?_
  · rw [hothers p e hp]
  · simp only [Disk.May, hentry, hw]
    generalize f.before - (ov.lead op f.stuck).length = stage
    generalize hns : ov.lookup (target op) = o
    generalize ov.disk.fileEntry (.sidecar (target op)) = side
    rcases stage with _ | _ | stage
    · rfl
    · cases side <;> cases o <;> grind
    · cases side <;> cases o <;> grind

theorem refused_step {p : RepoPath} {x : Bool} {e : Error} (h : ov.setExecutable p x = .error e) :
    ov.step (.setExecutable p x) = ov := by
  show ov.apply ((ov.setExecutable p x).toOption.getD ov.unchanged) = ov
  rw [h]
  rfl

theorem spoiled_iff (h : Fails ov op f) : (∀ p c x, ov.lookup p = some (.file c x) →
    (ov.failed op f).disk.content c = ov.disk.content c) ↔
      ∀ p c x bytes, ov.lookup p = some (.file c x) → ov.spoiled op f = some (c, bytes) →
        ov.disk.content c = bytes := by
  simp only [content_failed h]
  constructor
  · intro hc p c x bytes hl hs
    have hh := hc p c x hl
    rw [hs] at hh
    simpa using hh.symm
  · intro hc p c x hl
    cases hs : ov.spoiled op f with
    | none => rfl
    | some b =>
      obtain ⟨b, bytes⟩ := b
      by_cases hcb : c = b
      · subst hcb
        simp [hc p c x bytes hl hs]
      · simp [hcb]

theorem spoiled_of_intact (hi : Intact ov) : (∀ p c x bytes, ov.lookup p = some (.file c x) →
    ov.spoiled op f = some (c, bytes) → ov.disk.content c = bytes) ↔
      ∀ p c x, op = .tombstone p → ov.lookup p = some (.file c x) → f.stuck = true := by
  constructor
  · rintro h p c x rfl hl
    by_contra hs
    have hstuck : f.stuck = false := by simpa using hs
    have hnone := h p c x none hl (by simp [spoiled, hstuck, hl])
    have hsome := hi.soundIndex.content p c x hl
    rw [hnone] at hsome
    cases hsome
  · intro h p c x bytes hl hs
    cases op with
    | createFile q y seed =>
      have hnew : c = ov.newContentId := by
        simp only [spoiled] at hs
        split at hs <;> cases hs <;> rfl
      have hlt := (hi.minted p c x hl).2
      rw [hnew] at hlt
      exact absurd hlt (Nat.lt_irrefl _)
    | tombstone q =>
      rw [spoiled] at hs
      split at hs
      · rename_i c' y hstuck hq
        rw [h q c' y rfl hq] at hstuck
        cases hstuck
      · cases hs
    | putSymlink | putDir | putBaseRef | clear | rename | setExecutable => cases hs

/-- In a run without errors the spared calls are those that fail before the whole sidecar is written,
or write the entry that is there, and do not remove the content of a file. -/
theorem spared_of_intact (hi : Intact ov) : ov.Spared op f ↔
    (f.before < (ov.lead op f.stuck).length + 2 ∨ ov.lookup (target op) = ov.written op) ∧
      ∀ p c x, op = .tombstone p → ov.lookup p = some (.file c x) → f.stuck = true := by
  have hshows : Shows ov.disk ov.lookup := fun p e => may_iff_lookup hi.synced
  have hside : ov.disk.fileEntry (.sidecar (target op)) = ov.lookup (target op) := hi.synced.sidecar _
  constructor
  · intro h
    refine ⟨?_, (spoiled_of_intact hi).mp h.content⟩
    by_contra hh
    rw [not_or] at hh
    obtain ⟨n, hn⟩ := Nat.exists_eq_add_of_le (Nat.le_of_not_lt hh.1)
    have hpath := h.path
    have hstage : f.before - (ov.lead op f.stuck).length = n + 2 := by omega
    rw [hstage] at hpath
    exact hh.2 hpath.1
  · rintro ⟨hpoint, hdrop⟩
    refine ⟨fun p e _ => hshows p e, ?_, (spoiled_of_intact hi).mpr hdrop⟩
    rcases hstage : f.before - (ov.lead op f.stuck).length with _ | _ | n
    · exact hshows _
    · exact hside
    · have hsame : ov.lookup (target op) = ov.written op := hpoint.resolve_left (by omega)
      exact ⟨hsame, fun e he => by rw [← hsame, ← hside, he]⟩

end Overlay

/-- A call that fails leaves everything as it was, in memory and for later opens, if and only if it is
one of the spared ones; a call that is refused, if the directory shows what the index holds. -/
theorem mutator_atomic_iff (P : Projection) (ov : Overlay) :
    (∀ op f, ov.Fails op f → (ov.Untouched P (ov.failed op f) ↔ ov.Spared op f)) ∧
      ∀ p x e, ov.setExecutable p x = .error e →
        (ov.Untouched P (ov.step (.setExecutable p x)) ↔ Overlay.Shows ov.disk ov.lookup) := by
  constructor
  · intro op f h
    have huntouched : ov.Untouched P (ov.failed op f) ↔ _ := Overlay.untouched_iff rfl
    rw [huntouched, Overlay.shows_failed h, Overlay.spoiled_iff h]
    exact ⟨fun hh => ⟨hh.1.1, hh.1.2, hh.2⟩, fun hh => ⟨⟨hh.others, hh.path⟩, hh.content⟩⟩
  · intro p x e h
    have huntouched : ov.Untouched P ov ↔ _ := Overlay.untouched_iff rfl
    rw [Overlay.refused_step h, huntouched]
    exact ⟨fun hh => hh.1, fun hh => ⟨hh, fun _ _ _ _ => rfl⟩⟩

/-- A file that is in the overlay is copied up anew, and the disk has no room for the temp file behind the copy. -/
theorem mutator_atomic_iff_no_room :
    let ov := (Overlay.fresh 1).run [.createFile (letter 97) false none]
    let op : OverlayOp := .createFile (letter 97) true (some [120])
    let f : Fault := ⟨2, 0, false⟩
    ov.Fails op f ∧ ov.Untouched smallProjection (ov.failed op f) := by
  intro ov op f
  have hfails : ov.Fails op f := ⟨.createTmp (letter 97), by decide, rfl⟩
  have hintact : ov.Intact := Overlay.intact_run (Overlay.intact_fresh 1) _
  have hspared : ov.Spared op f := (Overlay.spared_of_intact hintact).2 ⟨.inl (by decide), by simp [op]⟩
  exact ⟨hfails, ((mutator_atomic_iff smallProjection ov).1 op f hfails).2 hspared⟩

/-- The tombstone of the file `a` fails at its temp file: the entry is still there and its
content is gone. -/
theorem failed_tombstone_drops_content :
    let ov := (Overlay.fresh 1).run [.createFile (letter 97) false none]
    let f : Fault := ⟨1, 0, false⟩
    ov.Fails (.tombstone (letter 97)) f ∧ ¬ ov.Untouched smallProjection (ov.failed (.tombstone (letter 97)) f) := by
  refine ⟨⟨.createTmp (letter 97), by decide, rfl⟩, fun hh => ?_⟩
  have hbytes := hh.1.bytes (letter 97) ⟨1, 0⟩ false (by decide)
  exact absurd hbytes (by decide)

end LazyMount
