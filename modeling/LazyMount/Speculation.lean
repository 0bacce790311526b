import LazyMount.Lib.Machine
import LazyMount.Lib.Tally
import LazyMount.TreeReader
import Mathlib.Algebra.Group.Nat.Defs

/-! Speculative fetches: the prefetch of sizes in a directory that is walked, and the read-ahead of
contents in one that is read. Callers arm directories, and the workers of a pool take the jobs; the byte
counter is read before a fetch and added to after it. -/

namespace LazyMount

open Function (update)

def prefetchThreads : Nat := 8
def prefetchDirThreshold : Nat := 4
def prefetchDirCap : Nat := 512
def prefetchByteBudget : Nat := 32 * 1024 * 1024
def hydrateThreads : Nat := 4
def hydrateDirCap : Nat := 256
def hydrateByteBudget : Nat := 256 * 1024 * 1024

/-- `prefetch_siblings` with `warm_dir_siblings`, and `readahead_on_open` with
`warm_dir_content_siblings`. -/
inductive Warmer where
  | prefetch
  | hydrate
deriving DecidableEq, Repr

namespace Warmer

def threads : Warmer → Nat
  | .prefetch => prefetchThreads
  | .hydrate => hydrateThreads

/-- `Pool::new` -/
def workers (m : Warmer) : Nat := max m.threads 1

def byteBudget : Warmer → Nat
  | .prefetch => prefetchByteBudget
  | .hydrate => hydrateByteBudget

end Warmer

def skipSuffixes : List Bytes :=
  [".png", ".jpg", ".jpeg", ".gif", ".webp", ".bmp", ".tiff", ".ico", ".pdf", ".zip", ".tar", ".gz",
    ".bz2", ".xz", ".zst", ".7z", ".wasm", ".a", ".o", ".so", ".dylib", ".dll", ".exe", ".bin", ".class",
    ".jar", ".mp3", ".mp4", ".mov", ".wav", ".woff", ".woff2", ".ttf", ".otf", ".eot"].map ascii

def manifests : List Bytes :=
  ["cargo.toml", "cargo.lock", "package.json", "package-lock.json", "go.mod", "go.sum", "pyproject.toml",
    "requirements.txt", "makefile", "pom.xml", "build.gradle", "tsconfig.json", "setup.py"].map ascii

def sourceSuffixes : List Bytes :=
  [".rs", ".go", ".ts", ".tsx", ".js", ".jsx", ".mjs", ".cjs", ".py", ".c", ".h", ".cc", ".cpp", ".hpp",
    ".cxx", ".java", ".rb", ".sh", ".bash", ".toml", ".yaml", ".yml", ".json", ".md", ".txt", ".proto",
    ".sql", ".css", ".scss", ".html", ".kt", ".swift", ".scala", ".php", ".lua", ".ex", ".exs"].map ascii

def contentPriority (name : Bytes) : Option Nat :=
  let lower := toLowercase name
  if skipSuffixes.any fun s => s.isSuffixOf lower then none
  else if manifests.contains lower || (ascii "readme").isPrefixOf lower || (ascii ".lock").isSuffixOf lower then
    some 0
  else if sourceSuffixes.any fun s => s.isSuffixOf lower then some 1
  else some 2

/-- Trees and gitlinks have no size and no content. -/
def GitMode.isBlob : GitMode → Bool
  | .regular | .executable | .symlink => true
  | .tree | .gitlink => false

/-- The siblings to hydrate, by tier. With each entry comes whether it passes the tests on what is in
the overlay, in the cache, or known to be large. -/
def eligible (tree : List (TreeEntry × Bool)) : List TreeEntry :=
  let tiered := tree.filterMap fun (e, passed) =>
    if e.mode.isBlob && passed then (contentPriority e.name).map fun tier => (tier, e) else none
  ((tiered.mergeSort fun a b => decide (a.1 ≤ b.1)).take hydrateDirCap).map (·.2)

inductive Job where
  | warm (dir : RepoPath)
  | fetch (oid : ObjectId)
deriving DecidableEq

/-- Where a caller is that may arm the directory of an inode. -/
inductive Caller where
  | idle
  | counting (dir : RepoPath)
  | checking (dir : RepoPath)
  | inserting (dir : RepoPath)
  | spawning (dir : RepoPath)
deriving DecidableEq

inductive Worker where
  | idle
  | listing (dir : RepoPath)
  /-- The loop over the siblings: what is left of them, and how many jobs it has spawned. -/
  | spreading (rest : List TreeEntry) (n : Nat)
  | checking (oid : ObjectId)
  | fetching (oid : ObjectId)
  | adding (size : Nat)
deriving DecidableEq

/-- A fetch is under way that was in the budget, and is not added yet. -/
def Worker.inFlight : Worker → Bool
  | .fetching _ | .adding _ => true
  | .idle | .listing _ | .spreading _ _ | .checking _ => false

def Worker.lists (dir : RepoPath) : Worker → Bool
  | .listing d => decide (d = dir)
  | .idle | .spreading _ _ | .checking _ | .fetching _ | .adding _ => false

structure Speculation where
  bytes : Nat
  statCounts : RepoPath → Nat
  dirs : List RepoPath
  queue : List Job
  caller : Nat → Caller
  worker : Nat → Worker

inductive WarmEvent where
  | arm (c : Nat) (dir : RepoPath)
  | stat (c : Nat)
  | checkBudget (c : Nat)
  | insert (c : Nat)
  | spawn (c : Nat)
  | take (w : Nat)
  /-- The worker reads the tree of the directory, or does not get it. -/
  | list (w : Nat) (dir : RepoPath) (tree : Option (List (TreeEntry × Bool)))
  /-- The next sibling, and whether it passes the tests. -/
  | next (w : Nat) (passed : Bool)
  | check (w : Nat)
  | fetched (w : Nat) (ok : Bool)
  | add (w : Nat)
  /-- A job that panics or finds the projection gone. -/
  | drop (w : Nat)
deriving DecidableEq

/-- A worker reads the siblings of the directory to spread them. -/
def WarmEvent.isFanOut (dir : RepoPath) : WarmEvent → Bool
  | .list _ d _ => decide (d = dir)
  | _ => false

namespace Speculation

def start : Speculation := ⟨0, fun _ => 0, [], [], fun _ => .idle, fun _ => .idle⟩

def setCaller (s : Speculation) (c : Nat) (p : Caller) : Speculation := { s with caller := update s.caller c p }

def setWorker (s : Speculation) (w : Nat) (p : Worker) : Speculation := { s with worker := update s.worker w p }

/-- `Pool::spawn` -/
def enqueue (s : Speculation) (job : Job) : Speculation := { s with queue := s.queue ++ [job] }

/-- One turn of the loop over the siblings. -/
def nextSibling (m : Warmer) (s : Speculation) (w : Nat) (rest : List TreeEntry) (n : Nat) (passed : Bool) :
    Speculation :=
  match m, rest with
  | _, [] => s.setWorker w .idle
  | .prefetch, e :: rest =>
    if n ≥ prefetchDirCap ∨ s.bytes ≥ prefetchByteBudget then s.setWorker w .idle
    else if e.mode.isBlob && passed then (s.enqueue (.fetch e.oid)).setWorker w (.spreading rest (n + 1))
    else s.setWorker w (.spreading rest n)
  | .hydrate, e :: rest =>
    if s.bytes ≥ hydrateByteBudget then s.setWorker w .idle
    else (s.enqueue (.fetch e.oid)).setWorker w (.spreading rest (n + 1))

/-- The counter is a `u64`. -/
def step (m : Warmer) (size : ObjectId → Nat) (s : Speculation) : WarmEvent → Option Speculation
  | .arm c dir =>
    match s.caller c with
    | .idle => some (s.setCaller c (match m with | .prefetch => .counting dir | .hydrate => .checking dir))
    | _ => none
  | .stat c =>
    match s.caller c with
    | .counting dir =>
      let n := s.statCounts dir + 1
      some ({ s with statCounts := update s.statCounts dir n }.setCaller c
        (if n < prefetchDirThreshold then .idle else .checking dir))
    | _ => none
  | .checkBudget c =>
    match s.caller c with
    | .checking dir => some (s.setCaller c (if s.bytes ≥ m.byteBudget then .idle else .inserting dir))
    | _ => none
  | .insert c =>
    match s.caller c with
    | .inserting dir =>
      some (if dir ∈ s.dirs then s.setCaller c .idle
      else { s with dirs := dir :: s.dirs }.setCaller c (.spawning dir))
    | _ => none
  | .spawn c =>
    match s.caller c with
    | .spawning dir => some ((s.enqueue (.warm dir)).setCaller c .idle)
    | _ => none
  | .take w =>
    match s.worker w, s.queue with
    | .idle, job :: queue =>
      if w < m.workers then
        some ({ s with queue := queue }.setWorker w
          (match job with | .warm dir => .listing dir | .fetch oid => .checking oid))
      else none
    | _, _ => none
  | .list w dir tree =>
    if s.worker w = .listing dir then
      some (s.setWorker w (match tree with
        | none => .idle
        | some tree => .spreading (match m with | .prefetch => tree.map (·.1) | .hydrate => eligible tree) 0))
    else none
  | .next w passed =>
    match s.worker w with
    | .spreading rest n => some (s.nextSibling m w rest n passed)
    | _ => none
  | .check w =>
    match s.worker w with
    | .checking oid => some (s.setWorker w (if s.bytes ≥ m.byteBudget then .idle else .fetching oid))
    | _ => none
  | .fetched w ok =>
    match s.worker w with
    | .fetching oid => some (s.setWorker w (if ok then .adding (size oid) else .idle))
    | _ => none
  | .add w =>
    match s.worker w with
    | .adding n => some ({ s with bytes := (s.bytes + n) % 2 ^ 64 }.setWorker w .idle)
    | _ => none
  | .drop w => some (s.setWorker w .idle)

/-- What a step finds, and what it leaves. -/
inductive Moves (m : Warmer) (size : ObjectId → Nat) (s : Speculation) : WarmEvent → Speculation → Prop
  /-- A caller goes on that does not enter the directory, and has not. -/
  | caller {e : WarmEvent} {c : Nat} {p : Caller} (counts : RepoPath → Nat)
      (he : ∀ dir, e.isFanOut dir = false) (hp : ∀ dir, p ≠ .spawning dir) :
      Moves m size s e ({ s with statCounts := counts }.setCaller c p)
  | insert {c : Nat} {dir : RepoPath} (hnew : dir ∉ s.dirs) :
      Moves m size s (.insert c) ({ s with dirs := dir :: s.dirs }.setCaller c (.spawning dir))
  | spawn {c : Nat} {dir : RepoPath} (h : s.caller c = .spawning dir) :
      Moves m size s (.spawn c) ((s.enqueue (.warm dir)).setCaller c .idle)
  | warm {w : Nat} {dir : RepoPath} {queue : List Job} (h : s.worker w = .idle) (hw : w < m.workers)
      (hqueue : s.queue = .warm dir :: queue) :
      Moves m size s (.take w) ({ s with queue := queue }.setWorker w (.listing dir))
  | fetch {w : Nat} {oid : ObjectId} {queue : List Job} (h : s.worker w = .idle) (hw : w < m.workers)
      (hqueue : s.queue = .fetch oid :: queue) :
      Moves m size s (.take w) ({ s with queue := queue }.setWorker w (.checking oid))
  | list {w : Nat} {dir : RepoPath} {tree : Option (List (TreeEntry × Bool))} {p : Worker}
      (h : s.worker w = .listing dir) (hp : p.inFlight = false) (hlists : ∀ d, p.lists d = false) :
      Moves m size s (.list w dir tree) (s.setWorker w p)
  | spread {w : Nat} {passed : Bool} {e : TreeEntry} {rest : List TreeEntry} {n : Nat}
      (h : s.worker w = .spreading (e :: rest) n) :
      Moves m size s (.next w passed) ((s.enqueue (.fetch e.oid)).setWorker w (.spreading rest (n + 1)))
  | skip {w : Nat} {passed : Bool} {e : TreeEntry} {rest : List TreeEntry} {n : Nat}
      (h : s.worker w = .spreading (e :: rest) n) :
      Moves m size s (.next w passed) (s.setWorker w (.spreading rest n))
  | check {w : Nat} {oid : ObjectId} (h : s.worker w = .checking oid) (hb : s.bytes < m.byteBudget) :
      Moves m size s (.check w) (s.setWorker w (.fetching oid))
  | fetched {w : Nat} {oid : ObjectId} (h : s.worker w = .fetching oid) :
      Moves m size s (.fetched w true) (s.setWorker w (.adding (size oid)))
  | add {w n : Nat} (h : s.worker w = .adding n) :
      Moves m size s (.add w) ({ s with bytes := (s.bytes + n) % 2 ^ 64 }.setWorker w .idle)
  /-- A job ends early. -/
  | stop {e : WarmEvent} {w : Nat} (he : ∀ dir, e.isFanOut dir = false) : Moves m size s e (s.setWorker w .idle)

variable {m : Warmer} {size : ObjectId → Nat} {s t : Speculation} {e : WarmEvent}

theorem moves_of_next {w n : Nat} {passed : Bool} {rest : List TreeEntry} (h : s.worker w = .spreading rest n) :
    Moves m size s (.next w passed) (s.nextSibling m w rest n passed) := by
  cases rest with
  | nil =>
    rw [nextSibling]
    exact .stop fun _ => rfl
  | cons e rest =>
    cases m with
    | prefetch =>
      rw [nextSibling]
      split
      · exact .stop fun _ => rfl
      · split
        · exact .spread h
        · exact .skip h
    | hydrate =>
      rw [nextSibling]
      split
      · exact .stop fun _ => rfl
      · exact .spread h

theorem moves_of_step (h : s.step m size e = some t) : Moves m size s e t := by
  cases e with
  | arm c dir =>
    simp only [step] at h
    split at h
    · cases h
      refine .caller s.statCounts (fun _ => rfl) fun d => ?_
      cases m <;> simp
    · cases h
  | stat c =>
    simp only [step] at h
    split at h
    · cases h
      refine .caller _ (fun _ => rfl) fun d => ?_
      split <;> simp
    · cases h
  | checkBudget c =>
    simp only [step] at h
    split at h
    · cases h
      refine .caller s.statCounts (fun _ => rfl) fun d => ?_
      split <;> simp
    · cases h
  | insert c =>
    simp only [step] at h
    split at h
    · cases h
      split
      · exact .caller s.statCounts (fun _ => rfl) fun d => by simp
      · rename_i hnew
        exact .insert hnew
    · cases h
  | spawn c =>
    simp only [step] at h
    split at h
    · rename_i hc
      cases h
      exact .spawn hc
    · cases h
  | take w =>
    simp only [step] at h
    split at h
    · rename_i job queue hw hqueue
      split at h
      · rename_i hlt
        cases h
        cases job with
        | warm dir => exact .warm hw hlt hqueue
        | fetch oid => exact .fetch hw hlt hqueue
      · cases h
    · cases h
  | list w dir tree =>
    simp only [step] at h
    split at h
    · rename_i hw
      cases h
      refine .list hw ?_ fun d => ?_
      · cases tree <;> rfl
      · cases tree <;> rfl
    · cases h
  | next w passed =>
    simp only [step] at h
    split at h
    · rename_i hw
      cases h
      exact moves_of_next hw
    · cases h
  | check w =>
    simp only [step] at h
    split at h
    · rename_i hw
      cases h
      split
      · exact .stop fun _ => rfl
      · rename_i hb
        exact .check hw (by omega)
    · cases h
  | fetched w ok =>
    simp only [step] at h
    split at h
    · rename_i hw
      cases h
      cases ok with
      | true => exact .fetched hw
      | false => exact .stop fun _ => rfl
    · cases h
  | add w =>
    simp only [step] at h
    split at h
    · rename_i hw
      cases h
      exact .add hw
    · cases h
  | drop w =>
    cases h
    exact .stop fun _ => rfl

/-- The fetches under way are counted against the budget as if they had taken the largest blob. -/
structure Bounded (m : Warmer) (M : Nat) (s : Speculation) : Prop where
  idle : ∀ w, m.workers ≤ w → s.worker w = .idle
  size_le : ∀ w n, s.worker w = .adding n → n ≤ M
  bytes_lt : s.bytes + M * Tally.count Worker.inFlight s.worker m.workers < m.byteBudget + m.workers * M

variable {M w : Nat} {p : Worker}

theorem Bounded.lt_workers (h : Bounded m M s) (hw : s.worker w ≠ .idle) : w < m.workers := by
  by_contra hle
  exact hw (h.idle w (by omega))

theorem Bounded.setWorker (h : Bounded m M s) (hw : w < m.workers ∨ p = .idle)
    (hworker : t.worker = update s.worker w p) (hp : ∀ n, p = .adding n → n ≤ M)
    (hbytes : t.bytes + M * Tally.count Worker.inFlight t.worker m.workers < m.byteBudget + m.workers * M) :
    Bounded m M t := by
  refine ⟨fun v hv => ?_, fun v n hv => ?_, hbytes⟩
  · rw [hworker]
    by_cases hvw : v = w
    · have hidle : p = .idle := hw.resolve_left (by omega)
      rw [hvw, Function.update_self, hidle]
    · rw [Function.update_of_ne hvw]
      exact h.idle v hv
  · rw [hworker] at hv
    by_cases hvw : v = w
    · rw [hvw, Function.update_self] at hv
      exact hp n hv
    · rw [Function.update_of_ne hvw] at hv
      exact h.size_le v n hv

theorem count_update_le {q : Worker → Bool} {n : Nat} (hp : q p = true → q (s.worker w) = true) :
    Tally.count q (update s.worker w p) n ≤ Tally.count q s.worker n := by
  by_cases hw : w < n
  · have hcount := Tally.count_update (q := q) (f := s.worker) (p := p) hw
    cases hq : q p with
    | true =>
      rw [hq, hp hq] at hcount
      omega
    | false =>
      rw [hq, if_neg Bool.false_ne_true] at hcount
      omega
  · rw [Tally.count_update_of_le (by omega)]

theorem Bounded.quiet (h : Bounded m M s) (hw : w < m.workers ∨ p = .idle)
    (hworker : t.worker = update s.worker w p) (hbytes : t.bytes = s.bytes)
    (hp : p.inFlight = true → (s.worker w).inFlight = true) (hsize : ∀ n, p = .adding n → n ≤ M) :
    Bounded m M t := by
  have hcount : Tally.count Worker.inFlight t.worker m.workers ≤ Tally.count Worker.inFlight s.worker m.workers := by
    rw [hworker]
    exact count_update_le hp
  have hmul := Nat.mul_le_mul_left M hcount
  have hlt := h.bytes_lt
  exact h.setWorker hw hworker hsize (by omega)

theorem Bounded.begin (h : Bounded m M s) {oid : ObjectId} (hw : s.worker w = .checking oid)
    (hb : s.bytes < m.byteBudget) : Bounded m M (s.setWorker w (.fetching oid)) := by
  have hlt : w < m.workers := h.lt_workers (by simp [hw])
  refine h.setWorker (.inl hlt) rfl (fun n hn => by cases hn) ?_
  have hle := Tally.count_le Worker.inFlight (update s.worker w (.fetching oid)) m.workers
  have hmul := Nat.mul_le_mul_right M hle
  rw [Nat.mul_comm _ M] at hmul
  show s.bytes + M * Tally.count Worker.inFlight (update s.worker w (.fetching oid)) m.workers < _
  omega

theorem Bounded.finish (h : Bounded m M s) {n : Nat} (hw : s.worker w = .adding n) :
    Bounded m M ({ s with bytes := (s.bytes + n) % 2 ^ 64 }.setWorker w .idle) := by
  have hlt : w < m.workers := h.lt_workers (by simp [hw])
  refine h.setWorker (.inl hlt) rfl (fun k hk => by cases hk) ?_
  have hcount := Tally.count_update (q := Worker.inFlight) (f := s.worker) (p := .idle) hlt
  rw [hw] at hcount
  have hcount' : Tally.count Worker.inFlight s.worker m.workers =
      Tally.count Worker.inFlight (update s.worker w .idle) m.workers + 1 := hcount.symm
  have hbytes := h.bytes_lt
  rw [hcount', Nat.mul_succ] at hbytes
  have hn := h.size_le w n hw
  have hmod := Nat.mod_le (s.bytes + n) (2 ^ 64)
  show (s.bytes + n) % 2 ^ 64 + M * Tally.count Worker.inFlight (update s.worker w .idle) m.workers < _
  omega

theorem bounded_step (hM : ∀ oid, size oid ≤ M) (h : Bounded m M s) (hstep : s.step m size e = some t) :
    Bounded m M t := by
  have hmoves := moves_of_step hstep
  cases hmoves with
  | caller | insert | spawn => exact ⟨h.idle, h.size_le, h.bytes_lt⟩
  | warm hidle hw | fetch hidle hw =>
    exact h.quiet (.inl hw) rfl rfl (fun hp => by cases hp) (fun n hn => by cases hn)
  | @list w dir tree p hw hp =>
    refine h.quiet (.inl (h.lt_workers (by simp [hw]))) rfl rfl (fun ht => ?_) fun n hn => ?_
    · rw [hp] at ht
      cases ht
    · rw [hn] at hp
      cases hp
  | spread hw | skip hw =>
    have hlt := h.lt_workers (by rw [hw]; exact Worker.noConfusion)
    exact h.quiet (.inl hlt) rfl rfl (fun hp => by cases hp) (fun n hn => by cases hn)
  | check hw hb => exact h.begin hw hb
  | @fetched w oid hw =>
    have hlt := h.lt_workers (by rw [hw]; exact Worker.noConfusion)
    refine h.quiet (.inl hlt) rfl rfl (fun _ => by rw [hw]; rfl) fun n hn => ?_
    cases hn
    exact hM oid
  | add hw => exact h.finish hw
  | stop => exact h.quiet (.inr rfl) rfl rfl (fun hp => by cases hp) (fun n hn => by cases hn)

/-- The jobs to spread a directory that are queued, under way or done. -/
def tickets (m : Warmer) (s : Speculation) (es : List WarmEvent) (dir : RepoPath) : Nat :=
  s.queue.count (.warm dir) + Tally.count (Worker.lists dir) s.worker m.workers + es.countP (·.isFanOut dir)

/-- Only the caller that entered a directory spawns the job for it, and it does so once. -/
structure Once (m : Warmer) (s : Speculation) (es : List WarmEvent) : Prop where
  unique : ∀ c c' dir, s.caller c = .spawning dir → s.caller c' = .spawning dir → c = c'
  entered : ∀ c dir, s.caller c = .spawning dir → dir ∈ s.dirs ∧ tickets m s es dir = 0
  unseen : ∀ dir, dir ∉ s.dirs → tickets m s es dir = 0
  once : ∀ dir, tickets m s es dir ≤ 1

variable {es : List WarmEvent} {dir : RepoPath}

theorem Once.quiet (h : Once m s es) (hcaller : ∀ c dir, t.caller c = .spawning dir → s.caller c = .spawning dir)
    (hdirs : t.dirs = s.dirs) (htickets : ∀ dir, tickets m t (es ++ [e]) dir ≤ tickets m s es dir) :
    Once m t (es ++ [e]) := by
  refine ⟨fun c c' dir hc hc' => ?_, fun c dir hc => ?_, fun dir hdir => ?_, fun dir => ?_⟩
  · exact h.unique c c' dir (hcaller c dir hc) (hcaller c' dir hc')
  · obtain ⟨hmem, hzero⟩ := h.entered c dir (hcaller c dir hc)
    have hle := htickets dir
    exact ⟨hdirs ▸ hmem, by omega⟩
  · rw [hdirs] at hdir
    have hzero := h.unseen dir hdir
    have hle := htickets dir
    omega
  · have hone := h.once dir
    have hle := htickets dir
    omega

theorem countP_fanOut (es : List WarmEvent) (e : WarmEvent) (dir : RepoPath) :
    (es ++ [e]).countP (·.isFanOut dir) = es.countP (·.isFanOut dir) + if e.isFanOut dir then 1 else 0 := by
  rw [List.countP_append, List.countP_singleton]

theorem Once.work (h : Once m s es) (hcaller : t.caller = s.caller) (hdirs : t.dirs = s.dirs)
    (hworker : t.worker = update s.worker w p) (he : ∀ dir, e.isFanOut dir = false)
    (hp : ∀ dir, p.lists dir = false)
    (hqueue : ∀ dir, t.queue.count (.warm dir) ≤ s.queue.count (.warm dir)) : Once m t (es ++ [e]) := by
  refine h.quiet (fun c d hc => by rwa [hcaller] at hc) hdirs fun d => ?_
  have hcount : Tally.count (Worker.lists d) t.worker m.workers ≤ Tally.count (Worker.lists d) s.worker m.workers := by
    rw [hworker]
    exact count_update_le fun hq => by rw [hp] at hq; cases hq
  have hq := hqueue d
  rw [tickets, tickets, countP_fanOut, he, if_neg Bool.false_ne_true]
  omega

theorem update_spawning {c c' : Nat} {p : Caller} (hp : ∀ dir, p ≠ .spawning dir)
    (h : update s.caller c p c' = .spawning dir) : c' ≠ c ∧ s.caller c' = .spawning dir := by
  by_cases hc : c' = c
  · rw [hc, Function.update_self] at h
    exact absurd h (hp dir)
  · rw [Function.update_of_ne hc] at h
    exact ⟨hc, h⟩

theorem Once.insert (h : Once m s es) {c : Nat} (hnew : dir ∉ s.dirs) :
    Once m ({ s with dirs := dir :: s.dirs }.setCaller c (.spawning dir)) (es ++ [.insert c]) := by
  have htickets (d : RepoPath) :
      tickets m ({ s with dirs := dir :: s.dirs }.setCaller c (.spawning dir)) (es ++ [.insert c]) d
        = tickets m s es d := by
    rw [tickets, countP_fanOut]
    rfl
  -- Nobody was about to spawn it, as it was not entered.
  have hnobody (c' : Nat) : s.caller c' ≠ .spawning dir := fun hc' => hnew (h.entered c' dir hc').1
  have hcaller {c' : Nat} {d : RepoPath} (hc' : update s.caller c (.spawning dir) c' = .spawning d) :
      (c' = c ∧ d = dir) ∨ (d ≠ dir ∧ s.caller c' = .spawning d) := by
    by_cases hcc : c' = c
    · rw [hcc, Function.update_self] at hc'
      cases hc'
      exact .inl ⟨hcc, rfl⟩
    · rw [Function.update_of_ne hcc] at hc'
      exact .inr ⟨fun hd => hnobody c' (hd ▸ hc'), hc'⟩
  constructor
  · intro c₁ c₂ d h₁ h₂
    rcases hcaller h₁ with ⟨h₁, hd⟩ | ⟨hd, h₁⟩ <;> rcases hcaller h₂ with ⟨h₂, hd'⟩ | ⟨hd', h₂⟩
    · rw [h₁, h₂]
    · exact absurd hd hd'
    · exact absurd hd' hd
    · exact h.unique c₁ c₂ d h₁ h₂
  · intro c' d hc'
    rw [htickets]
    rcases hcaller hc' with ⟨-, hd⟩ | ⟨hd, hc'⟩
    · rw [hd]
      exact ⟨List.mem_cons_self, h.unseen dir hnew⟩
    · obtain ⟨hmem, hzero⟩ := h.entered c' d hc'
      exact ⟨List.mem_cons_of_mem dir hmem, hzero⟩
  · intro d hd
    rw [htickets]
    exact h.unseen d fun hmem => hd (List.mem_cons_of_mem dir hmem)
  · intro d
    rw [htickets]
    exact h.once d

theorem Once.spawn (h : Once m s es) {c : Nat} (hc : s.caller c = .spawning dir) :
    Once m ((s.enqueue (.warm dir)).setCaller c .idle) (es ++ [.spawn c]) := by
  obtain ⟨hmem, hzero⟩ := h.entered c dir hc
  have htickets (d : RepoPath) : tickets m ((s.enqueue (.warm dir)).setCaller c .idle) (es ++ [.spawn c]) d
      = tickets m s es d + if dir = d then 1 else 0 := by
    have hqueue : (s.queue ++ [Job.warm dir]).count (.warm d)
        = s.queue.count (.warm d) + if dir = d then 1 else 0 := by
      rw [List.count_append, List.count_singleton]
      simp
    have hsame : es.countP (·.isFanOut d) = (es ++ [WarmEvent.spawn c]).countP (·.isFanOut d) := by
      rw [countP_fanOut]
      rfl
    rw [tickets, tickets, ← hsame]
    show (s.queue ++ [Job.warm dir]).count (.warm d) + _ + _ = _
    rw [hqueue]
    show _ + Tally.count (Worker.lists d) s.worker m.workers + _ = _
    omega
  have hcaller {c' : Nat} {d : RepoPath} (hc' : update s.caller c .idle c' = .spawning d) :
      c' ≠ c ∧ s.caller c' = .spawning d := update_spawning (fun _ => Caller.noConfusion) hc'
  constructor
  · intro c₁ c₂ d h₁ h₂
    exact h.unique c₁ c₂ d (hcaller h₁).2 (hcaller h₂).2
  · intro c' d hc'
    obtain ⟨hne, hd⟩ := hcaller hc'
    have hother : dir ≠ d := fun heq => hne (h.unique c' c d hd (heq ▸ hc))
    rw [htickets, if_neg hother]
    exact h.entered c' d hd
  · intro d hd
    have hother : dir ≠ d := fun heq => hd (heq ▸ hmem)
    rw [htickets, if_neg hother]
    exact h.unseen d hd
  · intro d
    rw [htickets]
    by_cases hd : dir = d
    · rw [if_pos hd, ← hd, hzero]
    · rw [if_neg hd]
      exact h.once d

theorem lists_listing (d dir : RepoPath) : (Worker.listing dir).lists d = decide (dir = d) := rfl

theorem Once.warm (h : Once m s es) {queue : List Job} (hidle : s.worker w = .idle) (hw : w < m.workers)
    (hqueue : s.queue = .warm dir :: queue) :
    Once m ({ s with queue := queue }.setWorker w (.listing dir)) (es ++ [.take w]) := by
  refine h.quiet (fun _ _ hc => hc) rfl fun d => ?_
  have hcount := Tally.count_update (q := Worker.lists d) (f := s.worker) (p := .listing dir) hw
  rw [hidle, lists_listing] at hcount
  have hlisting : Tally.count (Worker.lists d) (update s.worker w (.listing dir)) m.workers
      = Tally.count (Worker.lists d) s.worker m.workers + if decide (dir = d) = true then 1 else 0 := hcount
  have hfan : (WarmEvent.take w).isFanOut d = false := rfl
  rw [tickets, tickets, countP_fanOut, hfan, if_neg Bool.false_ne_true, hqueue, List.count_cons]
  show queue.count (.warm d) + Tally.count (Worker.lists d) (update s.worker w (.listing dir)) m.workers + _ ≤ _
  rw [hlisting]
  simp only [decide_eq_true_eq, beq_iff_eq, Job.warm.injEq]
  omega

theorem Once.list (h : Once m s es) {tree : Option (List (TreeEntry × Bool))} (hw : w < m.workers)
    (hlisting : s.worker w = .listing dir) (hp : ∀ d, p.lists d = false) :
    Once m (s.setWorker w p) (es ++ [.list w dir tree]) := by
  refine h.quiet (fun _ _ hc => hc) rfl fun d => ?_
  have hcount := Tally.count_update (q := Worker.lists d) (f := s.worker) (p := p) hw
  rw [hlisting, lists_listing, hp, if_neg Bool.false_ne_true] at hcount
  rw [tickets, tickets, countP_fanOut]
  show s.queue.count (.warm d) + Tally.count (Worker.lists d) (update s.worker w p) m.workers
    + (_ + if decide (dir = d) = true then 1 else 0) ≤ _
  omega

theorem once_step (hb : Bounded m M s) (h : Once m s es) (hstep : s.step m size e = some t) :
    Once m t (es ++ [e]) := by
  have hmoves := moves_of_step hstep
  cases hmoves with
  | caller counts he hp =>
    refine h.quiet (fun c d hc => (update_spawning hp hc).2) rfl fun d => ?_
    rw [tickets, countP_fanOut, he]
    exact Nat.le_refl _
  | insert hnew => exact h.insert hnew
  | spawn hc => exact h.spawn hc
  | warm hidle hw hqueue => exact h.warm hidle hw hqueue
  | @fetch w oid queue hidle hw hqueue =>
    refine h.work rfl rfl rfl (fun _ => rfl) (fun _ => rfl) fun d => ?_
    rw [hqueue]
    exact List.count_le_count_cons
  | list hw hp hlists => exact h.list (hb.lt_workers (by rw [hw]; exact Worker.noConfusion)) hw hlists
  | @spread w passed e rest n hw =>
    refine h.work rfl rfl rfl (fun _ => rfl) (fun _ => rfl) fun d => ?_
    show (s.queue ++ [Job.fetch e.oid]).count (.warm d) ≤ _
    rw [List.count_append, List.count_singleton]
    exact Nat.le_refl _
  | skip | check | fetched | add =>
    exact h.work rfl rfl rfl (fun _ => rfl) (fun _ => rfl) fun _ => Nat.le_refl _
  | stop he => exact h.work rfl rfl rfl he (fun _ => rfl) fun _ => Nat.le_refl _

theorem count_start (q : Worker → Bool) (hq : q .idle = false) (n : Nat) : Tally.count q start.worker n = 0 := by
  induction n with
  | zero => rfl
  | succ n ih =>
    rw [Tally.count, ih, show start.worker n = .idle from rfl, hq]
    rfl

theorem bounded_start (m : Warmer) (M : Nat) : Bounded m M start := by
  refine ⟨fun _ _ => rfl, fun _ _ h => (Worker.noConfusion h), ?_⟩
  rw [count_start _ rfl]
  have hbudget : 0 < m.byteBudget := by cases m <;> decide
  show 0 + M * 0 < _
  omega

theorem once_start (m : Warmer) : Once m start [] := by
  have hzero (dir : RepoPath) : tickets m start [] dir = 0 := by
    rw [tickets, count_start _ rfl]
    rfl
  constructor
  · intro c c' dir h
    cases h
  · intro c dir h
    cases h
  · intro dir _
    exact hzero dir
  · intro dir
    rw [hzero]
    exact Nat.zero_le 1

theorem tracks_run (hM : ∀ oid, size oid ≤ M) (hrun : Machine.run (step m size) start es = some s) :
    Bounded m M s ∧ Once m s es := by
  have hh := Machine.run_history (fun s es => Bounded m M s ∧ Once m s es) (fun e => [e]) (fun _ => True)
    (fun _ _ _ _ _ hi hs => ⟨bounded_step hM hi.1 hs, once_step hi.1 hi.2 hs⟩) (fun _ _ => trivial)
    ⟨bounded_start m M, once_start m⟩ hrun
  simpa using hh

end Speculation

/-- However the steps of callers and workers fall, the bytes that were fetched stay below the budget and
one blob for each worker, and the siblings of a directory are spread once at most. -/
theorem speculation_bounded (m : Warmer) (size : ObjectId → Nat) (M : Nat) (es : List WarmEvent)
    (s : Speculation) (hM : ∀ oid, size oid ≤ M)
    (hrun : Machine.run (Speculation.step m size) .start es = some s) :
    s.bytes < m.byteBudget + m.threads * M ∧ ∀ dir, es.countP (·.isFanOut dir) ≤ 1 := by
  obtain ⟨hbounded, honce⟩ := Speculation.tracks_run hM hrun
  constructor
  · have hbytes := hbounded.bytes_lt
    have hworkers : m.workers = m.threads := by cases m <;> rfl
    rw [hworkers] at hbytes
    omega
  · intro dir
    have htickets := honce.once dir
    rw [Speculation.tickets] at htickets
    omega

/-- A walk takes the size of four files in a directory. Its last step and another walker arm it, and its
only sibling is fetched once. -/
theorem speculation_bounded_once :
    let size : ObjectId → Nat := fun _ => 5
    let dir : RepoPath := .root
    let e : TreeEntry := ⟨[97], .regular, ⟨[1]⟩⟩
    let es : List WarmEvent := [.arm 0 dir, .stat 0, .arm 0 dir, .stat 0, .arm 0 dir, .stat 0, .arm 0 dir,
      .arm 1 dir, .stat 0, .stat 1, .checkBudget 0, .checkBudget 1, .insert 0, .insert 1, .spawn 0, .take 3,
      .list 3 dir (some [(e, true)]), .next 3 true, .take 1, .check 1, .next 3 true, .fetched 1 true, .add 1]
    ∃ s, Machine.run (Speculation.step .prefetch size) .start es = some s ∧ s.bytes = 5 ∧
      s.bytes < prefetchByteBudget + prefetchThreads * 5 ∧ ∀ dir, es.countP (·.isFanOut dir) ≤ 1 := by
  intro size dir e es
  obtain ⟨s, hs⟩ := Option.isSome_iff_exists.1
    (show (Machine.run (Speculation.step .prefetch size) .start es).isSome = true by decide)
  have hbytes : (Machine.run (Speculation.step .prefetch size) .start es).map (·.bytes) = some 5 := by decide
  rw [hs] at hbytes
  exact ⟨s, hs, Option.some.inj hbytes,
    speculation_bounded .prefetch size 5 es s (fun _ => Nat.le_refl 5) hs⟩

end LazyMount
