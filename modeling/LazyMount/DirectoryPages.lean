import LazyMount.Lib.PagedRead
import LazyMount.ListingLookup
import LazyMount.Mount

/-! Directory handles: a listing is taken once, at `opendir`, and read in pages while the mount goes
on changing. -/

namespace LazyMount

open Function (update)
open Prog RepoPath Transition PagedRead

/-- What the mount tells the kernel of the type of an entry. -/
inductive FileType where
  | directory
  | symlink
  | regularFile
deriving DecidableEq

def fileType : Kind → FileType
  | .dir => .directory
  | .symlink => .symlink
  | .file _ => .regularFile

abbrev DirListing := List (Nat × FileType × Bytes)

/-- An entry as it is added to a reply; the offset is where to go on after it. -/
structure PageEntry where
  ino : Nat
  offset : Nat
  kind : FileType
  name : Bytes
deriving DecidableEq

def dotName : Bytes := [dot]

def dotDotName : Bytes := [dot, dot]

def dirListing (ino : Nat) (entries : List DirEntry) : DirListing :=
  (ino, .directory, dotName) :: (ino, .directory, dotDotName) ::
    entries.map fun e => (e.ino, fileType e.kind, e.name)

/-- The listing with the offset that each entry is added under, counted from `i`. -/
def enumerated (i : Nat) : DirListing → List PageEntry
  | [] => []
  | (ino, kind, name) :: rest => ⟨ino, i + 1, kind, name⟩ :: enumerated (i + 1) rest

/-- What a reply with room for `room` entries takes of a listing. -/
def page (listing : DirListing) (offset : Int) (room : Nat) : List PageEntry :=
  ((enumerated 0 listing).drop offset.toNat).take room

/-- The mount with the table of its open directories. -/
structure DirTable where
  fs : TransparentFs
  dirHandles : Nat → Option DirListing

inductive DirRequest where
  | file (c : Callback)
  | opendir (ino : Nat)
  | readdir (ino fh : Nat) (offset : Int) (room : Nat)
  | releasedir (fh : Nat)
deriving DecidableEq

inductive DirReply where
  | file
  | opened (fh : Nat)
  | entries (entries : List PageEntry)
  | ok
  | error (e : Error)
deriving DecidableEq

namespace DirTable

def start (w : World) : DirTable := ⟨.start w, fun _ => none⟩

def inWorld (s : DirTable) (w : World) : DirTable := { s with fs.world := w }

def insertListing (s : DirTable) (listing : DirListing) : DirTable :=
  ⟨{ s.fs with nextFh := s.fs.nextFh + 1 }, update s.dirHandles s.fs.nextFh (some listing)⟩

def opendir (P : Projection) (s : DirTable) (ino : Nat) : Option (DirReply × DirTable) :=
  match (P.readdir ino).run s.fs.world with
  | (.ok entries, w) =>
    some (.opened s.fs.nextFh, (s.inWorld w).insertListing (dirListing ino entries))
  | (.error e, w) => some (.error e, s.inWorld w)
  | (.diverge, _) => none

/-- Without a listing under the handle, the directory is read afresh. -/
def readdir (P : Projection) (s : DirTable) (ino fh : Nat) (offset : Int) (room : Nat) :
    Option (DirReply × DirTable) :=
  match s.dirHandles fh with
  | some listing => some (.entries (page listing offset room), s)
  | none =>
    match (P.readdir ino).run s.fs.world with
    | (.ok entries, w) => some (.entries (page (dirListing ino entries) offset room), s.inWorld w)
    | (.error e, w) => some (.error e, s.inWorld w)
    | (.diverge, _) => none

def step (P : Projection) (fuel : Nat) (s : DirTable) : DirRequest → Option (DirReply × DirTable)
  | .file c => (s.fs.step P fuel c).map fun fs => (.file, { s with fs := fs })
  | .opendir ino => s.opendir P ino
  | .readdir ino fh offset room => s.readdir P ino fh offset room
  | .releasedir fh => some (.ok, { s with dirHandles := update s.dirHandles fh none })

def Answers (P : Projection) (s : DirTable) (req : DirRequest) (reply : DirReply) (t : DirTable) : Prop :=
  ∃ fuel, s.step P fuel req = some (reply, t)

def Step (P : Projection) (s : DirTable) (req : DirRequest) (t : DirTable) : Prop :=
  ∃ reply, s.Answers P req reply t

end DirTable

/-! Offsets and pages. -/

theorem length_enumerated (i : Nat) (listing : DirListing) :
    (enumerated i listing).length = listing.length := by
  induction listing generalizing i with
  | nil => rfl
  | cons x rest ih => simp [enumerated, ih]

theorem offset_enumerated (i : Nat) (listing : DirListing) :
    (enumerated i listing).map PageEntry.offset = List.range' (i + 1) listing.length := by
  induction listing generalizing i with
  | nil => rfl
  | cons x rest ih => simp [enumerated, ih, List.range'_succ]

theorem listed_enumerated (i : Nat) (listing : DirListing) :
    (enumerated i listing).map (fun e => (e.ino, e.kind, e.name)) = listing := by
  induction listing generalizing i with
  | nil => rfl
  | cons x rest ih => simp [enumerated, ih]

/-- Where a client goes on that read up to `k` and then these entries. -/
def resume (k : Nat) (entries : List PageEntry) : Nat := ((entries.getLast?).map PageEntry.offset).getD k

theorem take_range' (i n k : Nat) : (List.range' i n).take k = List.range' i (min k n) := by
  by_cases h : n ≤ k
  · rw [List.take_range'_of_length_le h, Nat.min_eq_right h]
  · rw [List.take_range'_of_length_ge (by omega), Nat.min_eq_left (by omega)]

theorem resume_window (listing : DirListing) {k : Nat} (room : Nat) (_ : k ≤ (enumerated 0 listing).length) :
    resume k (window (enumerated 0 listing) k room) =
      k + (window (enumerated 0 listing) k room).length := by
  have hoff : (window (enumerated 0 listing) k room).map PageEntry.offset =
      List.range' (k + 1) (min room (listing.length - k)) := by
    rw [window, List.map_take, List.map_drop, offset_enumerated, List.drop_range', take_range']
    congr 1
    omega
  have hlen : (window (enumerated 0 listing) k room).length = min room (listing.length - k) := by
    rw [window, List.length_take, List.length_drop, length_enumerated]
  rw [resume, ← List.getLast?_map, hoff, hlen, List.getLast?_range']
  by_cases h : min room (listing.length - k) = 0
  · simp [h]
  · simp only [h, if_false, Option.getD_some]
    omega

namespace Projection

variable {P : Projection}

theorem within_setattr (ino : Nat) (mode : Option UInt32) (size : Option Nat) :
    Within P.OrdinaryStep SameTree (P.setattr ino mode size) := by
  have hsize : Within P.OrdinaryStep SameTree (P.setSize ino size) := by
    cases size with
    | none => exact within_pure _
    | some len => exact within_truncate ino len
  have hmode : Within P.OrdinaryStep SameTree (P.setMode ino mode) := by
    cases mode with
    | none => exact within_pure _
    | some m => exact within_setExecutable ino _
  exact within_bind hsize fun _ => within_bind hmode fun _ => Quiet.within (quiet_getattr ino)

end Projection

namespace TransparentFs

variable {P : Projection} {s t : TransparentFs} {c : Callback} {fuel : Nat}

/-- What a handler leaves of the world, and of the table of handles. -/
theorem of_after {α : Type} {m : Handler α} {handle : α → Option FileHandle}
    (h : s.after m handle = some t) : t.world = (m.run s.world).2 ∧
      ((t.handles = s.handles ∧ t.nextFh = s.nextFh) ∨
        ∃ x, t.handles = update s.handles s.nextFh (some x) ∧ t.nextFh = s.nextFh + 1) := by
  rw [after] at h
  split at h
  · rename_i a w hrun
    rw [hrun]
    split at h
    · rename_i x hx
      cases h
      exact ⟨rfl, .inr ⟨x, rfl, rfl⟩⟩
    · cases h
      exact ⟨rfl, .inl ⟨rfl, rfl⟩⟩
  · rename_i e w hrun
    rw [hrun]
    cases h
    exact ⟨rfl, .inl ⟨rfl, rfl⟩⟩
  · cases h

/-- A callback leaves the table of handles alone, adds a new handle, or releases one. -/
theorem handles_step (h : s.step P fuel c = some t) :
    (t.handles = s.handles ∧ t.nextFh = s.nextFh ∧ ∀ fh, c ≠ .release fh) ∨
      (∃ x, t.handles = update s.handles s.nextFh (some x) ∧ t.nextFh = s.nextFh + 1 ∧
        ∀ fh, c ≠ .release fh) ∨
      ∃ fh, c = .release fh ∧ t.handles = update s.handles fh none ∧ t.nextFh = s.nextFh := by
  have hafter : ∀ {α : Type} {m : Handler α} {handle : α → Option FileHandle},
      s.after m handle = some t → (∀ fh, c ≠ .release fh) →
      (t.handles = s.handles ∧ t.nextFh = s.nextFh ∧ ∀ fh, c ≠ .release fh) ∨
        ∃ x, t.handles = update s.handles s.nextFh (some x) ∧ t.nextFh = s.nextFh + 1 ∧
          ∀ fh, c ≠ .release fh := by
    intro α m handle ha hc
    rcases (of_after ha).2 with ⟨hh, hn⟩ | ⟨x, hh, hn⟩
    · exact .inl ⟨hh, hn, hc⟩
    · exact .inr ⟨x, hh, hn, hc⟩
  cases c <;> simp only [step] at h
  case call | create | setattr => exact (hafter h (by simp)).imp_right .inl
  case openFile => split at h <;> exact (hafter h (by simp)).imp_right .inl
  case write =>
    split at h <;>
      · cases h
        exact .inl ⟨rfl, rfl, by simp⟩
  case release fh =>
    cases h
    exact .inr (.inr ⟨fh, rfl, rfl, rfl⟩)

theorem nextFh_step (h : s.step P fuel c = some t) : s.nextFh ≤ t.nextFh := by
  rcases handles_step h with ⟨-, hn, -⟩ | ⟨x, -, hn, -⟩ | ⟨fh, -, -, hn⟩ <;> omega

/-- What every ordinary step of a handler keeps, every callback keeps. -/
theorem world_step {I : World → Prop} (hI : ∀ l upd, P.OrdinaryStep l upd → ∀ w, I w → I (upd w))
    (hs : I s.world) (h : s.step P fuel c = some t) : I t.world := by
  have hafter : ∀ {α : Type} {m : Handler α} {handle : α → Option FileHandle},
      s.after m handle = some t → Within P.OrdinaryStep SameTree m → I t.world := by
    intro α m handle ha hm
    rw [(of_after ha).1]
    exact hm.run hI hs
  cases c <;> simp only [step] at h
  case call op => exact hafter h (Op.within_ordinary P fuel op)
  case create parent name mode => exact hafter h (Projection.within_create parent name _)
  case setattr ino mode size => exact hafter h (Projection.within_setattr ino mode size)
  case openFile ino flags =>
    split at h
    · exact hafter h (Projection.within_openWrite ino _)
    · exact hafter h (Projection.Quiet.within (Projection.quiet_openRead ino))
  case write fh offset data =>
    split at h
    · cases h
      exact hI _ _ (.edit _ _) _ hs
    · cases h
      exact hs
  case release fh =>
    cases h
    exact hs

end TransparentFs

namespace DirTable

variable {P : Projection} {s t u : DirTable} {fuel fh : Nat} {req : DirRequest} {reply : DirReply}
  {listing : DirListing}

/-- A step leaves the listings alone, adds one under a new handle, or drops one. -/
theorem step_cases (h : s.step P fuel req = some (reply, t)) :
    (t.dirHandles = s.dirHandles ∧ s.fs.nextFh ≤ t.fs.nextFh) ∨
      (∃ ino entries w, req = .opendir ino ∧ reply = .opened s.fs.nextFh ∧
        (P.readdir ino).run s.fs.world = (.ok entries, w) ∧
        t = (s.inWorld w).insertListing (dirListing ino entries)) ∨
      ∃ fh, req = .releasedir fh ∧ t = { s with dirHandles := update s.dirHandles fh none } := by
  cases req with
  | file c =>
    obtain ⟨fs, hfs, heq⟩ := Option.map_eq_some_iff.mp h
    cases heq
    exact .inl ⟨rfl, TransparentFs.nextFh_step hfs⟩
  | opendir ino =>
    rw [step, opendir] at h
    split at h
    · rename_i entries w hrun
      cases h
      exact .inr (.inl ⟨ino, entries, w, rfl, rfl, hrun, rfl⟩)
    · cases h
      exact .inl ⟨rfl, Nat.le_refl _⟩
    · cases h
  | readdir ino fh offset room =>
    rw [step, readdir] at h
    split at h
    · cases h
      exact .inl ⟨rfl, Nat.le_refl _⟩
    · split at h
      · cases h
        exact .inl ⟨rfl, Nat.le_refl _⟩
      · cases h
        exact .inl ⟨rfl, Nat.le_refl _⟩
      · cases h
  | releasedir fh =>
    cases h
    exact .inr (.inr ⟨fh, rfl, rfl⟩)

/-- The listing under a handle stays until the handle is released. -/
def Holds (fh : Nat) (listing : DirListing) (s : DirTable) : Prop :=
  s.dirHandles fh = some listing ∧ fh < s.fs.nextFh

theorem Holds.step (hs : Holds fh listing s) (hreq : req ≠ .releasedir fh)
    (h : s.step P fuel req = some (reply, t)) : Holds fh listing t := by
  rcases step_cases h with ⟨hsame, hle⟩ | ⟨ino, entries, w, -, -, -, rfl⟩ | ⟨fh', rfl, rfl⟩
  · exact ⟨hsame ▸ hs.1, Nat.lt_of_lt_of_le hs.2 hle⟩
  · have hne : fh ≠ s.fs.nextFh := Nat.ne_of_lt hs.2
    exact ⟨(Function.update_of_ne hne _ _).trans hs.1, Nat.lt_succ_of_lt hs.2⟩
  · have hne : fh ≠ fh' := by
      rintro rfl
      exact hreq rfl
    exact ⟨(Function.update_of_ne hne _ _).trans hs.1, hs.2⟩

theorem Holds.readdir (hs : Holds fh listing s) {ino room : Nat} {offset : Int}
    (h : s.step P fuel (.readdir ino fh offset room) = some (reply, t)) :
    reply = .entries (page listing offset room) := by
  rw [DirTable.step, DirTable.readdir, hs.1] at h
  cases h
  rfl

/-- A page of the handle from the offset on. -/
def ServePage (P : Projection) (fh : Nat) (s : DirTable) (k room : Nat) (items : List PageEntry)
    (t : DirTable) : Prop :=
  ∃ ino, s.Answers P (.readdir ino fh k room) (.entries items) t

/-- Anything else that happens to the mount, but not the release of the handle. -/
def Elsewhere (P : Projection) (fh : Nat) (s t : DirTable) : Prop :=
  ∃ req, req ≠ .releasedir fh ∧ s.Step P req t

theorem serves_listing (P : Projection) (fh : Nat) (listing : DirListing) :
    Serves (ServePage P fh) (Elsewhere P fh) resume (enumerated 0 listing) (Holds fh listing) where
  idle := by
    rintro s t hs ⟨req, hreq, reply, fuel, h⟩
    exact hs.step hreq h
  page := by
    rintro s k room items t hs ⟨ino, fuel, h⟩
    refine ⟨hs.step (by simp) h, ?_⟩
    have hreply := hs.readdir h
    simpa [page, window] using hreply
  next k room hk := resume_window listing room hk

theorem run_readdir_keeps {I : World → Prop} (hI : ∀ l upd, P.OrdinaryStep l upd → ∀ w, I w → I (upd w))
    {ino : Nat} {w w' : World} {r : Outcome Error (List DirEntry)} (hw : I w)
    (h : (P.readdir ino).run w = (r, w')) : I w' := by
  have hh := (Projection.Quiet.within (Projection.quiet_readdir (P := P) ino)).run hI hw
  rwa [h] at hh

/-- What every ordinary step of a handler keeps, every request keeps. -/
theorem world_step {I : World → Prop} (hI : ∀ l upd, P.OrdinaryStep l upd → ∀ w, I w → I (upd w))
    (hs : I s.fs.world) (h : s.step P fuel req = some (reply, t)) : I t.fs.world := by
  cases req with
  | file c =>
    obtain ⟨fs, hfs, heq⟩ := Option.map_eq_some_iff.mp h
    cases heq
    exact TransparentFs.world_step hI hs hfs
  | opendir ino =>
    rw [step, opendir] at h
    split at h
    all_goals
      rename_i hrun
      cases h
    · exact run_readdir_keeps hI hs hrun
    · exact run_readdir_keeps hI hs hrun
  | readdir ino fh offset room =>
    rw [step, readdir] at h
    split at h
    · cases h
      exact hs
    · split at h
      all_goals
        rename_i hrun
        cases h
      · exact run_readdir_keeps hI hs hrun
      · exact run_readdir_keeps hI hs hrun
  | releasedir fh =>
    cases h
    exact hs

theorem sparesGitfile_run {w : World} (hw : w.overlay.SparesGitfile) {reqs : List DirRequest}
    (h : Trace (Step P) (start w) reqs s) : s.fs.world.overlay.SparesGitfile := by
  refine h.invariant (I := fun s => s.fs.world.overlay.SparesGitfile) (fun s req t hs hstep => ?_) hw
  obtain ⟨reply, fuel, hstep⟩ := hstep
  exact world_step (I := fun w => w.overlay.SparesGitfile) (fun l upd hu w hw => hw.ordinaryStep hu w) hs hstep

/-- What `opendir` leaves under the handle that it returns. -/
theorem opendir_eq {ino : Nat} (h : s.Answers P (.opendir ino) (.opened fh) t) :
    ∃ dir bt baseline entries, s.fs.world.pathOf ino = .ok dir ∧
      P.resolve s.fs.world.overlay dir = .ok (some (.dir bt)) ∧ P.treeEntries bt = .ok baseline ∧
      entries.map DirEntry.shown = P.shown s.fs.world.overlay dir baseline ∧
      Holds fh (dirListing ino entries) t := by
  obtain ⟨fuel, h⟩ := h
  rw [step, opendir] at h
  split at h
  · rename_i entries w hrun
    cases h
    obtain ⟨dir, bt, baseline, hpath, hres, hes, hshown⟩ := Projection.run_readdir hrun
    exact ⟨dir, bt, baseline, entries, hpath, hres, hes, hshown, Function.update_self _ _ _,
      Nat.lt_succ_self _⟩
  · cases h
  · cases h

end DirTable

open DirTable

def PageEntry.shown (e : PageEntry) : Bytes × FileType := (e.name, e.kind)

/-- What a listing of `dir` is to show to the kernel. -/
def Projection.listed (P : Projection) (ov : Overlay) (dir : RepoPath) (baseline : List TreeEntry) :
    List (Bytes × FileType) :=
  (dotName, .directory) :: (dotDotName, .directory) ::
    (P.shown ov dir baseline).map fun x => (x.1, fileType x.2)

theorem shown_enumerated (P : Projection) {ov : Overlay} {dir : RepoPath} {baseline : List TreeEntry}
    {entries : List DirEntry} (ino : Nat) (h : entries.map DirEntry.shown = P.shown ov dir baseline) :
    (enumerated 0 (dirListing ino entries)).map PageEntry.shown = P.listed ov dir baseline := by
  have hlist := congrArg (List.map fun x : Nat × FileType × Bytes => (x.2.2, x.2.1))
    (listed_enumerated 0 (dirListing ino entries))
  rw [List.map_map] at hlist
  rw [Projection.listed, ← h, List.map_map]
  refine hlist.trans ?_
  simp [dirListing, DirEntry.shown]

theorem not_child_dots {dir q : RepoPath} {name : Bytes} (h : Child dir name q) :
    name ≠ dotName ∧ name ≠ dotDotName := by
  have hv := Projection.valid_of_child h
  simp_all [ValidComponent, dotName, dotDotName]

theorem nodup_listed (P : Projection) {ov : Overlay} {dir : RepoPath} {baseline : List TreeEntry}
    (h : ((P.shown ov dir baseline).map Prod.fst).Nodup) :
    ((P.listed ov dir baseline).map Prod.fst).Nodup := by
  have hdots : ∀ name ∈ (P.shown ov dir baseline).map Prod.fst, name ≠ dotName ∧ name ≠ dotDotName := by
    intro name hname
    obtain ⟨⟨n, k⟩, hmem, rfl⟩ := List.mem_map.mp hname
    obtain ⟨q, hq⟩ := Projection.exists_child_of_shown hmem
    exact not_child_dots hq
  have hmap : (P.listed ov dir baseline).map Prod.fst =
      dotName :: dotDotName :: (P.shown ov dir baseline).map Prod.fst := by
    simp [Projection.listed]
  rw [hmap, List.nodup_cons, List.nodup_cons, List.mem_cons]
  refine ⟨?_, fun hmem => (hdots _ hmem).2 rfl, h⟩
  rintro (heq | hmem)
  · exact absurd heq (by decide)
  · exact (hdots _ hmem).1 rfl

/-- Whatever happens to the mount meanwhile, a client that reads on from the offset of the last entry
until a page is empty has read the directory as it was at `opendir`, each name once. -/
theorem pages_show_opened (P : Projection) (hnames : P.store.UniqueNames P.baselineTree)
    (hlinks : P.store.OpaqueLinks P.baselineTree) {w : World} (hw : w.overlay.SparesGitfile)
    {reqs : List DirRequest} {s s' t u : DirTable} (hrun : Trace (Step P) (start w) reqs s)
    {ino fh : Nat} (hopen : s.Answers P (.opendir ino) (.opened fh) s')
    {xs : List PageEntry} {k room : Nat}
    (hread : Reading (ServePage P fh) (Elsewhere P fh) resume s' xs k t)
    (hend : ServePage P fh t k room [] u) (hroom : 0 < room) :
    ∃ dir bt baseline, s.fs.world.pathOf ino = .ok dir ∧
      P.resolve s.fs.world.overlay dir = .ok (some (.dir bt)) ∧ P.treeEntries bt = .ok baseline ∧
      xs.map PageEntry.shown = P.listed s.fs.world.overlay dir baseline ∧
      (xs.map PageEntry.name).Nodup ∧ xs.map PageEntry.offset = List.range' 1 xs.length := by
  obtain ⟨dir, bt, baseline, entries, hpath, hres, hes, hshown, hholds⟩ := opendir_eq hopen
  have hxs := hread.eq_of_empty (serves_listing P fh _) hholds hend hroom
  have hlisted : xs.map PageEntry.shown = P.listed s.fs.world.overlay dir baseline := by
    rw [hxs, shown_enumerated P ino hshown]
  refine ⟨dir, bt, baseline, hpath, hres, hes, hlisted, ?_, ?_⟩
  · have hfree := sparesGitfile_run hw hrun
    have hshows : ((P.shown s.fs.world.overlay dir baseline).map Prod.fst).Nodup :=
      Projection.nodup_shown hfree (Projection.nodup_listed hlinks hnames hres hes)
    have hnd := nodup_listed P hshows
    rw [← hlisted, List.map_map] at hnd
    exact hnd
  · rw [hxs, offset_enumerated, length_enumerated]

/-- The root is opened, then `mkdir e`, and the handle is released. -/
def openMkdirRelease : List DirRequest := [.opendir 1, .file (.call (.mkdir 1 [101])), .releasedir 1]

noncomputable def asked (n : Nat) : DirTable :=
  (openMkdirRelease.take n).foldl (fun s req => ((s.step deepProjection 0 req).map Prod.snd).getD s)
    (start (World.fresh 7 none))

/-- Two pages, with the new directory between them. -/
theorem pages_show_opened_root :
    let xs : List PageEntry := [⟨1, 1, .directory, dotName⟩, ⟨1, 2, .directory, dotDotName⟩,
      ⟨2, 3, .directory, [100]⟩, ⟨3, 4, .regularFile, gitfileName⟩]
    ∃ dir bt baseline, (World.fresh 7 none).pathOf 1 = .ok dir ∧
      deepProjection.resolve (Overlay.fresh 7) dir = .ok (some (.dir bt)) ∧
      deepProjection.treeEntries bt = .ok baseline ∧
      xs.map PageEntry.shown = deepProjection.listed (Overlay.fresh 7) dir baseline ∧
      (xs.map PageEntry.name).Nodup ∧ xs.map PageEntry.offset = List.range' 1 xs.length := by
  have hlisting : (asked 1).dirHandles 1 = some [(1, .directory, dotName), (1, .directory, dotDotName),
      (2, .directory, [100]), (3, .regularFile, gitfileName)] := by decide +kernel
  have hlisting' : (asked 2).dirHandles 1 = (asked 1).dirHandles 1 := by decide +kernel
  have hfirst : ServePage deepProjection 1 (asked 1) 0 2
      [⟨1, 1, .directory, dotName⟩, ⟨1, 2, .directory, dotDotName⟩] (asked 1) :=
    ⟨1, 0, by rw [DirTable.step, DirTable.readdir, hlisting]; rfl⟩
  have hsecond : ServePage deepProjection 1 (asked 2) 2 5
      [⟨2, 3, .directory, [100]⟩, ⟨3, 4, .regularFile, gitfileName⟩] (asked 2) :=
    ⟨1, 0, by rw [DirTable.step, DirTable.readdir, hlisting', hlisting]; rfl⟩
  have hend : ServePage deepProjection 1 (asked 2) 4 5 [] (asked 2) :=
    ⟨1, 0, by rw [DirTable.step, DirTable.readdir, hlisting', hlisting]; rfl⟩
  have hmkdir : Elsewhere deepProjection 1 (asked 1) (asked 2) :=
    ⟨.file (.call (.mkdir 1 [101])), by simp, .file, 0, rfl⟩
  exact pages_show_opened deepProjection deepStore_names.1 deepStore_names.2
    (w := World.fresh 7 none) ⟨rfl, rfl, rfl⟩ (.nil _) (show Answers _ _ _ _ (asked 1) from ⟨0, rfl⟩)
    (((Reading.start _).page hfirst).idle hmkdir |>.page hsecond) hend (by decide)

namespace DirTable

variable {P : Projection} {s t u : DirTable} {fh : Nat} {req : DirRequest} {reqs : List DirRequest}

/-- No handle names two things, and one that is not given out yet names none. -/
structure Distinct (s : DirTable) : Prop where
  apart : ∀ fh, s.fs.handles fh = none ∨ s.dirHandles fh = none
  unissued : ∀ fh, s.fs.nextFh ≤ fh → s.fs.handles fh = none ∧ s.dirHandles fh = none

theorem distinct_start (w : World) : (start w).Distinct :=
  ⟨fun _ => .inl rfl, fun _ _ => ⟨rfl, rfl⟩⟩

/-- What a step does to the two tables: nothing, a new handle in one of them, or a release in one. -/
inductive TablesStep (s : DirTable) (req : DirRequest) (t : DirTable) : Prop
  | same (hreq : ∀ fh, req ≠ .file (.release fh) ∧ req ≠ .releasedir fh) (hn : t.fs.nextFh = s.fs.nextFh)
    (hf : t.fs.handles = s.fs.handles) (hd : t.dirHandles = s.dirHandles)
  | file (hreq : ∀ fh, req ≠ .file (.release fh) ∧ req ≠ .releasedir fh) (hn : t.fs.nextFh = s.fs.nextFh + 1)
    (x : FileHandle) (hf : t.fs.handles = update s.fs.handles s.fs.nextFh (some x))
    (hd : t.dirHandles = s.dirHandles)
  | dir (hreq : ∀ fh, req ≠ .file (.release fh) ∧ req ≠ .releasedir fh) (hn : t.fs.nextFh = s.fs.nextFh + 1)
    (x : DirListing) (hf : t.fs.handles = s.fs.handles)
    (hd : t.dirHandles = update s.dirHandles s.fs.nextFh (some x))
  | release (fh : Nat) (hreq : req = .file (.release fh)) (hn : t.fs.nextFh = s.fs.nextFh)
    (hf : t.fs.handles = update s.fs.handles fh none) (hd : t.dirHandles = s.dirHandles)
  | releasedir (fh : Nat) (hreq : req = .releasedir fh) (hn : t.fs.nextFh = s.fs.nextFh)
    (hf : t.fs.handles = s.fs.handles) (hd : t.dirHandles = update s.dirHandles fh none)

theorem tablesStep (h : s.Step P req t) : TablesStep s req t := by
  obtain ⟨reply, fuel, h⟩ := h
  cases req with
  | file c =>
    obtain ⟨fs, hfs, heq⟩ := Option.map_eq_some_iff.mp h
    cases heq
    rcases TransparentFs.handles_step hfs with ⟨hf, hn, hc⟩ | ⟨x, hf, hn, hc⟩ | ⟨fh, rfl, hf, hn⟩
    · exact .same (fun fh => by simpa using hc fh) hn hf rfl
    · exact .file (fun fh => by simpa using hc fh) hn x hf rfl
    · exact .release fh rfl hn hf rfl
  | opendir ino =>
    rw [DirTable.step, opendir] at h
    split at h
    · cases h
      exact .dir (by simp) rfl _ rfl rfl
    · cases h
      exact .same (by simp) rfl rfl rfl
    · cases h
  | readdir ino fh offset room =>
    rw [DirTable.step, DirTable.readdir] at h
    split at h
    · cases h
      exact .same (by simp) rfl rfl rfl
    · split at h
      · cases h
        exact .same (by simp) rfl rfl rfl
      · cases h
        exact .same (by simp) rfl rfl rfl
      · cases h
  | releasedir fh =>
    cases h
    exact .releasedir fh rfl rfl rfl rfl

theorem Distinct.step (hs : s.Distinct) (h : TablesStep s req t) : t.Distinct := by
  have hnew := hs.unissued s.fs.nextFh (Nat.le_refl _)
  refine ⟨fun fh => ?_, fun fh hfh => ?_⟩
  · have hfh := hs.apart fh
    cases h with
    | same _ _ hf hd => rwa [hf, hd]
    | file _ _ x hf hd | dir _ _ x hf hd =>
      rw [hf, hd]
      by_cases he : fh = s.fs.nextFh
      · simp [he, hnew]
      · rwa [Function.update_of_ne he]
    | release fh' _ _ hf hd | releasedir fh' _ _ hf hd =>
      rw [hf, hd]
      by_cases he : fh = fh'
      · simp [he]
      · rwa [Function.update_of_ne he]
  · cases h with
    | same _ hn hf hd =>
      rw [hf, hd]
      exact hs.unissued fh (hn ▸ hfh)
    | file _ hn x hf hd | dir _ hn x hf hd =>
      rw [hf, hd, Function.update_of_ne (by omega)]
      exact hs.unissued fh (by omega)
    | release fh' _ hn hf hd | releasedir fh' _ hn hf hd =>
      obtain ⟨hfile, hdir⟩ := hs.unissued fh (by omega)
      simp [hf, hd, Function.update_apply, hfile, hdir]

/-- A handle that was given out keeps what it names until its own release. -/
theorem kept_step (hfh : fh < s.fs.nextFh) (h : TablesStep s req t) : fh < t.fs.nextFh ∧
    t.fs.handles fh = (if req = .file (.release fh) then none else s.fs.handles fh) ∧
    t.dirHandles fh = (if req = .releasedir fh then none else s.dirHandles fh) := by
  have hne : fh ≠ s.fs.nextFh := Nat.ne_of_lt hfh
  cases h with
  | same hreq hn hf hd =>
    rw [hn, hf, hd, if_neg (hreq fh).1, if_neg (hreq fh).2]
    exact ⟨hfh, rfl, rfl⟩
  | file hreq hn x hf hd =>
    rw [hn, hf, hd, if_neg (hreq fh).1, if_neg (hreq fh).2, Function.update_of_ne hne]
    exact ⟨by omega, rfl, rfl⟩
  | dir hreq hn x hf hd =>
    rw [hn, hf, hd, if_neg (hreq fh).1, if_neg (hreq fh).2, Function.update_of_ne hne]
    exact ⟨by omega, rfl, rfl⟩
  | release fh' hreq hn hf hd =>
    subst hreq
    rw [hn, hf, hd]
    refine ⟨hfh, ?_, by simp⟩
    by_cases he : fh = fh'
    · simp [he]
    · simp [Function.update_of_ne he, Ne.symm he]
  | releasedir fh' hreq hn hf hd =>
    subst hreq
    rw [hn, hf, hd]
    refine ⟨hfh, by simp, ?_⟩
    by_cases he : fh = fh'
    · simp [he]
    · simp [Function.update_of_ne he, Ne.symm he]

theorem kept_run (hfh : fh < s.fs.nextFh) (h : Trace (Step P) s reqs t) :
    t.fs.handles fh = (if .file (.release fh) ∈ reqs then none else s.fs.handles fh) ∧
      t.dirHandles fh = (if .releasedir fh ∈ reqs then none else s.dirHandles fh) := by
  induction h with
  | nil => simp
  | @cons s u t req reqs head _ ih =>
    obtain ⟨hlt, hf, hd⟩ := kept_step hfh (tablesStep head)
    obtain ⟨htf, htd⟩ := ih hlt
    simp only [htf, htd, hf, hd, List.mem_cons, eq_comm (a := req)]
    constructor
    · split_ifs <;> simp_all
    · split_ifs <;> simp_all

end DirTable

/-- A handle names one thing: no file and listing share one, what it names stays until its own release,
and after that it never names anything again. -/
theorem handle_names_one_thing (P : Projection) {w : World} {before after : List DirRequest}
    {s t : DirTable} (hs : Trace (Step P) (start w) before s) (ht : Trace (Step P) s after t) (fh : Nat) :
    (s.fs.handles fh = none ∨ s.dirHandles fh = none) ∧
      (s.fs.nextFh ≤ fh → s.fs.handles fh = none ∧ s.dirHandles fh = none) ∧
      (fh < s.fs.nextFh →
        t.fs.handles fh = (if .file (.release fh) ∈ after then none else s.fs.handles fh) ∧
        t.dirHandles fh = (if .releasedir fh ∈ after then none else s.dirHandles fh)) := by
  have hdistinct : s.Distinct :=
    hs.invariant (I := Distinct) (fun _ _ _ hs hstep => hs.step (tablesStep hstep)) (distinct_start w)
  exact ⟨hdistinct.apart fh, hdistinct.unissued fh, fun hfh => kept_run hfh ht⟩

theorem handle_names_one_thing_released :
    ((asked 1).fs.handles 1 = none ∨ (asked 1).dirHandles 1 = none) ∧
      ((asked 1).fs.nextFh ≤ 1 → (asked 1).fs.handles 1 = none ∧ (asked 1).dirHandles 1 = none) ∧
      (1 < (asked 1).fs.nextFh →
        (asked 3).fs.handles 1 = (if .file (.release 1) ∈ openMkdirRelease.drop 1 then none
          else (asked 1).fs.handles 1) ∧
        (asked 3).dirHandles 1 = (if .releasedir 1 ∈ openMkdirRelease.drop 1 then none
          else (asked 1).dirHandles 1)) :=
  handle_names_one_thing deepProjection (w := World.fresh 7 none)
    (show Trace _ _ (openMkdirRelease.take 1) (asked 1) from .cons ⟨.opened 1, 0, rfl⟩ (.nil _))
    (.cons ⟨.file, 0, rfl⟩ (.cons ⟨.ok, 0, rfl⟩ (.nil _))) 1

end LazyMount
