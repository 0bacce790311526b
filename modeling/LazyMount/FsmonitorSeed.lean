import LazyMount.AttributeScan
import LazyMount.Error
import LazyMount.Lib.Streaming
import LazyMount.Lib.Tally
import LazyMount.SgrepOverlay
import Mathlib.Algebra.Order.BigOperators.Group.Finset

/-! The seed of the index: every tracked path is marked valid but those that a checkout converts. The
files of attributes are fetched by threads that share a counter, and the paths go through pipes to
commands of git. -/

namespace LazyMount

open Function (update)
open Machine Streaming

def gitattributesName : Bytes := ascii ".gitattributes"

/-- `p.rsplit(|&b| b == b'/').next()` -/
def lastComponent (path : Bytes) : Option Bytes := (path.splitOn 47).getLast?

def attributeFiles (all : List Bytes) : List Bytes :=
  all.filter fun p => lastComponent p = some gitattributesName

/-- SEED_ATTR_PREFETCH_WORKERS -/
def seedAttrPrefetchWorkers : Nat := 8

/-- Where a thread of `prefetch_attr_blobs` is in its loop. -/
inductive PrefetchPoint where
  | claiming
  | reading (i : Nat)
  | exited
deriving DecidableEq

inductive PrefetchEvent (n : Nat) where
  | claim (w : Fin n)
  /-- The read returns, with the content or an error. -/
  | read (w : Fin n) (i : Nat)
deriving DecidableEq

def PrefetchEvent.finished {n : Nat} : PrefetchEvent n → List Nat
  | .claim _ => []
  | .read _ i => [i]

/-- The threads and the counter that they share. -/
structure AttrPrefetch (n : Nat) where
  next : Nat
  worker : Fin n → PrefetchPoint

namespace AttrPrefetch

variable {n : Nat}

def start (n : Nat) : AttrPrefetch n := ⟨0, fun _ => .claiming⟩

/-- `fetch_add` and the look at the list; then the read, whose errors are ignored. -/
def step (attrs : List Bytes) (s : AttrPrefetch n) : PrefetchEvent n → Option (AttrPrefetch n)
  | .claim w =>
    if s.worker w = .claiming then
      some ⟨s.next + 1, update s.worker w (if s.next < attrs.length then .reading s.next else .exited)⟩
    else none
  | .read w i =>
    if s.worker w = .reading i then some ⟨s.next, update s.worker w .claiming⟩ else none

/-- The positions of the files that have been read, in the order of the reads. -/
def finished (es : List (PrefetchEvent n)) : List Nat := es.flatMap PrefetchEvent.finished

end AttrPrefetch

/-- How many threads there are: none for a single file, which the scan reads soon enough. -/
def prefetchWorkers (attrs : List Bytes) : Nat :=
  if attrs.length < 2 then 0 else min attrs.length seedAttrPrefetchWorkers

/-- A command of git that reads its input from a pipe: what it prints to the pipe that is read, what it
leaves of the input, and whether it succeeds. -/
structure Command where
  State : Type
  next : State → Move UInt8 UInt8 State
  first : State
  output : Bytes → Bytes
  unread : Bytes → Bytes
  succeeds : Bytes → Bool
  moves : Bytes → Nat
  produces : ∀ input, Produces next first input (output input) (unread input) (succeeds input) (moves input)

namespace Command

variable (c : Command)

/-- With pipes of a size, and a writer thread or none. -/
def step (size : Nat) (threaded : Bool) (x : Exchange UInt8 UInt8 c.State) :
    Event → Option (Exchange UInt8 UInt8 c.State) := x.step ⟨size, size, threaded⟩ c.next

def start (input : Bytes) : Exchange UInt8 UInt8 c.State := .start input c.first

/-- How the exchange of a command with its input may end. -/
def Exchanged (size : Nat) (threaded : Bool) (input : Bytes) (x : Exchange UInt8 UInt8 c.State) : Prop :=
  ∃ es, run (c.step size threaded) (c.start input) es = some x ∧
    AtRest (c.step size threaded) (fun _ => True) x

end Command

/-- Where a command is that reads all of its input before it prints. -/
inductive BatchPoint where
  | reading (seen : Bytes)
  | printing (rest : Bytes) (ok : Bool)

def BatchPoint.next (output : Bytes → Bytes) (succeeds : Bytes → Bool) : BatchPoint → Move UInt8 UInt8 BatchPoint
  | .reading seen => .read fun
    | some b => .reading (seen ++ [b])
    | none => .printing (output seen) (succeeds seen)
  | .printing (b :: rest) ok => .write b (.printing rest ok)
  | .printing [] ok => .exit ok

theorem BatchPoint.produces_printing {output : Bytes → Bytes} {succeeds : Bytes → Bool} (rest input : Bytes)
    (ok : Bool) : Produces (BatchPoint.next output succeeds) (.printing rest ok) input rest input ok rest.length := by
  induction rest with
  | nil => exact .exit rfl
  | cons b rest ih => exact .write rfl ih

theorem BatchPoint.produces_reading {output : Bytes → Bytes} {succeeds : Bytes → Bool} (seen input : Bytes) :
    Produces (BatchPoint.next output succeeds) (.reading seen) input (output (seen ++ input)) []
      (succeeds (seen ++ input)) ((output (seen ++ input)).length + 1 + input.length) := by
  induction input generalizing seen with
  | nil =>
    rw [List.append_nil]
    exact .eof rfl (BatchPoint.produces_printing _ _ _)
  | cons b input ih =>
    have hrest := ih (seen ++ [b])
    rw [List.append_assoc, List.singleton_append] at hrest
    exact .item rfl hrest

def Command.batch (output : Bytes → Bytes) (succeeds : Bytes → Bool) : Command where
  State := BatchPoint
  next := BatchPoint.next output succeeds
  first := .reading []
  output := output
  unread _ := []
  succeeds := succeeds
  moves input := (output input).length + 1 + input.length
  produces := BatchPoint.produces_reading []

/-- A command that complains and exits, and reads nothing. -/
def Command.refusing (complaint : Bytes) : Command where
  State := BatchPoint
  next := BatchPoint.next id fun _ => false
  first := .printing complaint false
  output _ := complaint
  unread input := input
  succeeds _ := false
  moves _ := complaint.length
  produces input := BatchPoint.produces_printing complaint input false

/-- The commands that the seed runs: `ls-files` prints a listing or an error, `update-index` errors only. -/
structure SeedGit where
  lsFiles : Except Bytes Bytes
  readIndexBlob : Bytes → Except Error Bytes
  checkAttr : Command
  updateIndex : Command

def seedError (summary : String) : Error := ⟨.internal, summary⟩

/-- `String::from_utf8_lossy(..).trim()` -/
def errorText (stderr : Bytes) : String := String.ofList (Text.trim (lossyText stderr))

/-- The attributes that `check-attr` is asked for. -/
def seedAttributes : List Bytes :=
  [ascii "filter", ascii "ident", ascii "working-tree-encoding", ascii "eol"]

namespace SeedGit

variable (G : SeedGit)

/-- The scan stops at the first file that declares a conversion. -/
def declares (read : Bytes → Except Error Bytes) : List Bytes → Except Error Bool
  | [] => .ok false
  | path :: paths => do
    let content ← read path
    if attributesDeclareConversion content then .ok true else declares read paths

/-- What `conversion_paths` returns if `check-attr` leaves the exchange so. -/
def converted (x : Exchange UInt8 UInt8 G.checkAttr.State) : Except Error (List Bytes) :=
  match x.status with
  | .exited true => .ok (convertedPaths (x.taken.splitOn 0))
  | _ => .error (seedError "check-attr --cached failed")

/-- The paths are written by a thread of their own. -/
def ConversionPaths (size : Nat) (all : List Bytes) (r : Except Error (List Bytes)) : Prop :=
  match declares G.readIndexBlob (attributeFiles all) with
  | .error e => r = .error e
  | .ok false => r = .ok []
  | .ok true => ∃ x, G.checkAttr.Exchanged size true (RecordLog.encode 0 all) x ∧ r = G.converted x

/-- The end of the seed: the stream that was marked, if `update-index` took all of it. -/
def marked (stream : Bytes) (x : Exchange UInt8 UInt8 G.updateIndex.State) : Except Error (Option Bytes) :=
  if x.broken then .error (seedError "pipe paths: Broken pipe (os error 32)")
  else
    match x.status with
    | .exited true => .ok (some stream)
    | _ => .error (seedError ("update-index --fsmonitor-valid: " ++ errorText x.taken))

/-- `seed_fsmonitor_valid`; the errors of `update-index` are read once the paths are written, and not if a
write failed. -/
def Seeds (size : Nat) (r : Except Error (Option Bytes)) : Prop :=
  match G.lsFiles with
  | .error e => r = .error (seedError ("ls-files failed: " ++ errorText e))
  | .ok out =>
    let all := RecordLog.decode 0 out
    if all = [] then r = .ok none
    else
      ∃ c, G.ConversionPaths size all c ∧
        match c with
        | .error e => r = .error e
        | .ok converted =>
          let toSeed := all.filter fun p => !converted.contains p
          if toSeed = [] then r = .ok none
          else ∃ x, G.updateIndex.Exchanged size false (RecordLog.encode 0 toSeed) x ∧
            r = G.marked (RecordLog.encode 0 toSeed) x

/-- A file of attributes declares a conversion, and git has one for the path. -/
def converts (tracked : List Bytes) (value : Bytes → Bytes → Bytes) (p : Bytes) : Bool :=
  ((attributeFiles tracked).any fun path =>
    match G.readIndexBlob path with
    | .ok content => attributesDeclareConversion content
    | .error _ => false) &&
  seedAttributes.any fun attr => isConversion attr (value p attr)

end SeedGit

/-- What `check-attr -z` prints for the paths, where the values of the attributes are known. -/
def attrReport (value : Bytes → Bytes → Bytes) (paths : List Bytes) : Bytes :=
  RecordLog.encode 0 (paths.flatMap fun p => seedAttributes.flatMap fun attr => [p, attr, value p attr])

namespace AttrPrefetch

variable {n : Nat} {attrs : List Bytes} {s t : AttrPrefetch n} {e : PrefetchEvent n}

/-- One for a thread that reads the file. -/
def reads (i : Nat) : PrefetchPoint → Nat
  | .reading j => if j = i then 1 else 0
  | .claiming | .exited => 0

def reading (worker : Fin n → PrefetchPoint) (i : Nat) : Nat := ∑ w, reads i (worker w)

theorem reading_update (worker : Fin n → PrefetchPoint) (w : Fin n) (p : PrefetchPoint) (i : Nat) :
    reading (update worker w p) i + reads i (worker w) = reading worker i + reads i p :=
  Tally.sum_update (reads i) worker w p

inductive Moves (attrs : List Bytes) (s : AttrPrefetch n) : PrefetchEvent n → AttrPrefetch n → Prop
  | claim {w : Fin n} (hw : s.worker w = .claiming) (hlt : s.next < attrs.length) :
    Moves attrs s (.claim w) ⟨s.next + 1, update s.worker w (.reading s.next)⟩
  | stop {w : Fin n} (hw : s.worker w = .claiming) (hle : attrs.length ≤ s.next) :
    Moves attrs s (.claim w) ⟨s.next + 1, update s.worker w .exited⟩
  | read {w : Fin n} {i : Nat} (hw : s.worker w = .reading i) :
    Moves attrs s (.read w i) ⟨s.next, update s.worker w .claiming⟩

theorem moves_of_step (h : s.step attrs e = some t) : Moves attrs s e t := by
  cases e with
  | claim w =>
    simp only [step, Option.ite_none_right_eq_some] at h
    obtain ⟨hw, ht⟩ := h
    cases ht
    by_cases hlt : s.next < attrs.length
    · rw [if_pos hlt]
      exact .claim hw hlt
    · rw [if_neg hlt]
      exact .stop hw (by omega)
  | read w i =>
    simp only [step, Option.ite_none_right_eq_some] at h
    obtain ⟨hw, ht⟩ := h
    cases ht
    exact .read hw

/-- Each file that was handed out has been read or is being read, by one thread. -/
structure Tracks (attrs : List Bytes) (es : List (PrefetchEvent n)) (s : AttrPrefetch n) : Prop where
  counts : ∀ i, (finished es).count i + reading s.worker i = if i < min s.next attrs.length then 1 else 0
  exited : ∀ w, s.worker w = .exited → attrs.length ≤ s.next

theorem tracks_start (attrs : List Bytes) (n : Nat) : Tracks attrs [] (start n) where
  counts := by simp [start, finished, reading, reads]
  exited := by simp [start]

theorem Tracks.step {es : List (PrefetchEvent n)} (h : Tracks attrs es s) (hstep : s.step attrs e = some t) :
    Tracks attrs (es ++ [e]) t := by
  have hcounts := h.counts
  have hfinished : finished (es ++ [e]) = finished es ++ e.finished := by simp [finished]
  have hexited : ∀ (w v : Fin n) (p : PrefetchPoint), p ≠ .exited → update s.worker w p v = .exited →
      attrs.length ≤ s.next := by
    intro w v p hp hv
    by_cases hvw : v = w
    · rw [hvw, Function.update_self] at hv
      exact absurd hv hp
    · rw [Function.update_of_ne hvw] at hv
      exact h.exited v hv
  cases moves_of_step hstep with
  | @claim w hw hlt =>
    refine ⟨fun i => ?_, fun v hv => ?_⟩
    · have hsum := reading_update s.worker w (.reading s.next) i
      simp only [hw, reads, Nat.add_zero] at hsum
      simp only [hfinished, PrefetchEvent.finished, List.append_nil, hsum, ← Nat.add_assoc, hcounts]
      split <;> split <;> split <;> omega
    · have hle := hexited w v _ (by simp) hv
      omega
  | @stop w hw hle =>
    refine ⟨fun i => ?_, fun v _ => Nat.le_succ_of_le hle⟩
    have hsum := reading_update s.worker w .exited i
    simp only [hw, reads, Nat.add_zero] at hsum
    simp only [hfinished, PrefetchEvent.finished, List.append_nil, hsum, hcounts]
    rw [Nat.min_eq_right hle, Nat.min_eq_right (Nat.le_succ_of_le hle)]
  | @read w i hw =>
    refine ⟨fun j => ?_, fun v hv => hexited w v _ (by simp) hv⟩
    have hsum := reading_update s.worker w .claiming j
    simp only [hw, reads, Nat.add_zero] at hsum
    have hj := hcounts j
    simp only [hfinished, PrefetchEvent.finished, List.count_append, List.count_singleton, beq_iff_eq]
    omega

theorem tracks_run {es : List (PrefetchEvent n)} (hrun : run (AttrPrefetch.step attrs) (start n) es = some s) :
    Tracks attrs es s := by
  have hh := run_history (fun s es => Tracks attrs es s) (fun e => [e]) (fun _ => True)
    (fun _ _ _ _ _ hi hs => hi.step hs) (fun _ _ => trivial) (tracks_start attrs n) hrun
  simpa using hh

/-- How many more steps a thread takes for what it has in hand. -/
def pending : PrefetchPoint → Nat
  | .reading _ => 2
  | .claiming => 1
  | .exited => 0

def left (worker : Fin n → PrefetchPoint) : Nat := ∑ w, pending (worker w)

theorem left_update (worker : Fin n → PrefetchPoint) (w : Fin n) (p : PrefetchPoint) :
    left (update worker w p) + pending (worker w) = left worker + pending p :=
  Tally.sum_update pending worker w p

def rank (attrs : List Bytes) (s : AttrPrefetch n) : Nat := 2 * (attrs.length - s.next) + left s.worker

theorem ranked : Ranked (@step n attrs) (fun _ => True) (fun _ => True) (rank attrs) where
  keeps _ _ _ _ _ := trivial
  lowers := by
    intro s e t _ _ hstep
    cases moves_of_step hstep with
    | @claim w hw hlt =>
      have hsum := left_update s.worker w (.reading s.next)
      simp only [hw, pending] at hsum
      simp only [rank]
      omega
    | @stop w hw hle =>
      have hsum := left_update s.worker w .exited
      simp only [hw, pending] at hsum
      simp only [rank]
      omega
    | @read w i hw =>
      have hsum := left_update s.worker w .claiming
      simp only [hw, pending] at hsum
      simp only [rank]
      omega

theorem exited_of_atRest (hrest : AtRest (step attrs) (fun _ => True) s) (w : Fin n) : s.worker w = .exited := by
  cases hw : s.worker w with
  | claiming =>
    have hclaim := hrest (.claim w) trivial
    simp [step, hw] at hclaim
  | reading i =>
    have hread := hrest (.read w i) trivial
    simp [step, hw] at hread
  | exited => rfl

theorem Tracks.finished_perm {es : List (PrefetchEvent n)} (h : Tracks attrs es s) (hn : 0 < n)
    (hexited : ∀ w, s.worker w = .exited) : (finished es).Perm (List.range attrs.length) := by
  rw [List.perm_iff_count]
  intro i
  have hcounts := h.counts i
  have hnext := h.exited ⟨0, hn⟩ (hexited _)
  simp only [reading, hexited, reads, Finset.sum_const_zero, Nat.add_zero] at hcounts
  rw [hcounts, List.nodup_range.count, Nat.min_eq_right hnext]
  simp

end AttrPrefetch

open AttrPrefetch in
/-- However the threads take turns, no file is read twice; they all end, after a number of steps that the
list bounds, and then every file has been read. -/
theorem prefetch_reads_each_once (attrs : List Bytes) {es : List (PrefetchEvent (prefetchWorkers attrs))}
    {s : AttrPrefetch (prefetchWorkers attrs)}
    (hrun : run (AttrPrefetch.step attrs) (AttrPrefetch.start _) es = some s) :
    (finished es).Nodup ∧ (∀ i ∈ finished es, i < attrs.length) ∧
    es.length ≤ 2 * attrs.length + seedAttrPrefetchWorkers ∧
    (∃ es' t, run (AttrPrefetch.step attrs) s es' = some t ∧
      AtRest (AttrPrefetch.step attrs) (fun _ => True) t) ∧
    (AtRest (AttrPrefetch.step attrs) (fun _ => True) s → (∀ w, s.worker w = .exited) ∧
      (2 ≤ attrs.length → (finished es).Perm (List.range attrs.length))) := by
  have ht := tracks_run hrun
  refine ⟨List.nodup_iff_count_le_one.mpr fun i => ?_, fun i hi => ?_, ?_, ?_, fun hrest => ?_⟩
  · have hcounts := ht.counts i
    split at hcounts <;> omega
  · have hcounts := ht.counts i
    have hpos := List.count_pos_iff.mpr hi
    split at hcounts <;> omega
  · have hlen := ranked.length_le trivial (fun _ _ => trivial) hrun
    have hworkers : prefetchWorkers attrs ≤ seedAttrPrefetchWorkers := by
      rw [prefetchWorkers]
      split <;> omega
    have hleft : left (AttrPrefetch.start (prefetchWorkers attrs)).worker = prefetchWorkers attrs := by
      simp [left, AttrPrefetch.start, pending]
    rw [rank, rank, hleft, AttrPrefetch.start] at hlen
    omega
  · obtain ⟨es', t, -, hrun', hrest⟩ := Ranked.exists_atRest (ranked : Ranked (AttrPrefetch.step attrs) _ _ _)
      (s := s) trivial
    exact ⟨es', t, hrun', hrest⟩
  · have hexited := exited_of_atRest hrest
    refine ⟨hexited, fun hlen => ht.finished_perm ?_ hexited⟩
    rw [prefetchWorkers, if_neg (by omega), seedAttrPrefetchWorkers]
    omega

/-- Three files and three threads; the first that is claimed is read last. -/
theorem prefetch_reads_each_once_shared :
    let attrs : List Bytes := [ascii ".gitattributes", ascii "a/.gitattributes", ascii "b/.gitattributes"]
    let es : List (PrefetchEvent 3) := [.claim 1, .claim 0, .read 0 1, .claim 0, .claim 2, .read 0 2, .read 1 0,
      .claim 1, .claim 0]
    ∃ s, run (AttrPrefetch.step attrs) (AttrPrefetch.start 3) es = some s ∧
      (AttrPrefetch.finished es).Perm (List.range 3) := by
  intro attrs es
  obtain ⟨s, hs⟩ := Option.isSome_iff_exists.1
    (show (run (AttrPrefetch.step attrs) (AttrPrefetch.start 3) es).isSome = true by decide)
  have hexited : (run (AttrPrefetch.step attrs) (AttrPrefetch.start 3) es).all
      (fun s => decide (∀ w, s.worker w = .exited)) = true := by decide
  have hrest : AtRest (AttrPrefetch.step attrs) (fun _ => True) s := by
    have hall : ∀ w, s.worker w = .exited := by simpa [hs] using hexited
    intro e _
    cases e <;> simp [AttrPrefetch.step, hall]
  exact ⟨s, hs, ((prefetch_reads_each_once attrs hs).2.2.2.2 hrest).2 (by decide)⟩

namespace Command

variable {c : Command} {size : Nat} {threaded : Bool} {input : Bytes} {x : Exchange UInt8 UInt8 c.State}

theorem sound_run {es : List Event} (hrun : run (c.step size threaded) (c.start input) es = some x) :
    x.Sound ⟨size, size, threaded⟩ c.next (c.output input) (c.unread input) (c.succeeds input) :=
  run_invariant _ (fun _ => True) (fun _ _ _ _ hx hs => hx.step hs) (fun _ _ => trivial)
    (Exchange.sound_start (c.produces input)) hrun

theorem exists_exchanged (c : Command) (size : Nat) (threaded : Bool) (input : Bytes) :
    ∃ x, c.Exchanged size threaded input x := by
  have hsound := Exchange.sound_start (C := ⟨size, size, threaded⟩) (c.produces input)
  obtain ⟨es, x, -, hrun, hrest⟩ := Exchange.ranked.exists_atRest hsound
  exact ⟨x, es, hrun, hrest⟩

theorem Exchanged.completed (h : c.Exchanged size threaded input x) (hsize : 0 < size)
    (hc : threaded = true ∨ (c.output input).length ≤ size) :
    x.status = .exited (c.succeeds input) ∧ (x.broken = true → c.unread input ≠ []) ∧
      (threaded = true → x.taken = c.output input) := by
  obtain ⟨es, hrun, hrest⟩ := h
  obtain ⟨-, hstatus, hbroken, hread⟩ := Exchange.completed_of_atRest (sound_run hrun) hsize hsize hc hrest
  exact ⟨hstatus, hbroken, fun ht => (hread (by simp [Exchange.reads, ht])).2⟩

end Command

/-- The paths are written while the output is read, or the output fits in its pipe: then the exchange with
a command never gets stuck and ends within a number of steps that the input tells. A write fails only if the
command does not want all of its input. Then a parent without a writer thread reads nothing; else it has all
of the output. -/
theorem seed_exchange_ends (c : Command) {size : Nat} {threaded : Bool} {input : Bytes} (hsize : 0 < size)
    (hc : threaded = true ∨ (c.output input).length ≤ size) {es : List Event} {x : Exchange UInt8 UInt8 c.State}
    (hrun : run (c.step size threaded) (c.start input) es = some x) :
    (∃ es' y, run (c.step size threaded) x es' = some y ∧ AtRest (c.step size threaded) (fun _ => True) y) ∧
    es.length ≤ 2 * c.moves input + input.length + 3 ∧
    (AtRest (c.step size threaded) (fun _ => True) x → x.writing = false ∧
      x.status = .exited (c.succeeds input) ∧ (x.broken = true → c.unread input ≠ []) ∧
      (threaded = true ∨ x.broken = false → x.eof = true ∧ x.taken = c.output input) ∧
      (threaded = false ∧ x.broken = true → x.eof = false ∧ x.taken = [])) := by
  have hsound := Command.sound_run hrun
  refine ⟨?_, ?_, fun hrest => ?_⟩
  · obtain ⟨es', y, -, hrun', hrest⟩ := Exchange.ranked.exists_atRest hsound
    exact ⟨es', y, hrun', hrest⟩
  · have hstart := Exchange.sound_start (C := ⟨size, size, threaded⟩) (c.produces input)
    have hlen := Exchange.ranked.length_le hstart (fun _ _ => trivial) hrun
    have hmoves : movesLeft c.next c.first input = c.moves input := (c.produces input).movesLeft_eq
    simp only [Exchange.rank, Exchange.left, Exchange.start, List.nil_append, hmoves, List.length_nil,
      Bool.toNat_true, Bool.not_false] at hlen
    omega
  · obtain ⟨hwriting, hstatus, hbroken, hread⟩ := Exchange.completed_of_atRest hsound hsize hsize hc hrest
    refine ⟨hwriting, hstatus, hbroken, fun h => hread ?_, fun h => ?_⟩
    · rcases h with h | h <;> simp [Exchange.reads, h, hwriting]
    · exact (hsound.idle (by simp [Exchange.reads, h.1, h.2])).symm

/-- In pipes that hold one byte: a command that prints what it reads, and one that complains and leaves its
input to a parent that reads behind the writes. -/
theorem seed_exchange_ends_one :
    (let c := Command.batch id fun _ => true
    let es : List Event := [.feed, .move, .feed, .move, .hangUp, .move, .move, .drain, .move, .drain, .move, .finish]
    ∃ x, run (c.step 1 true) (c.start [97, 0]) es = some x ∧ x.eof = true ∧ x.taken = [97, 0]) ∧
    let c := Command.refusing [33]
    ∃ x, run (c.step 1 false) (c.start [97, 0]) [.move, .feed, .move, .feed] = some x ∧
      x.eof = false ∧ x.taken = [] := by
  constructor
  · intro c es
    let x : Exchange UInt8 UInt8 c.State := ⟨[], false, false, [], .exited true, [], [97, 0], true⟩
    have hrun : run (c.step 1 true) (c.start [97, 0]) es = some x := rfl
    have hrest : AtRest (c.step 1 true) (fun _ => True) x := by
      intro e _
      cases e <;> rfl
    obtain ⟨-, -, hends⟩ := seed_exchange_ends c (by decide) (.inl rfl) hrun
    exact ⟨x, hrun, (hends hrest).2.2.2.1 (.inl rfl)⟩
  · intro c
    let x : Exchange UInt8 UInt8 c.State := ⟨[], false, true, [97], .exited false, [33], [], false⟩
    have hrun : run (c.step 1 false) (c.start [97, 0]) [.move, .feed, .move, .feed] = some x := rfl
    have hrest : AtRest (c.step 1 false) (fun _ => True) x := by
      intro e _
      cases e <;> rfl
    obtain ⟨-, -, hends⟩ := seed_exchange_ends c (by decide) (.inr (by decide)) hrun
    exact ⟨x, hrun, (hends hrest).2.2.2.2 ⟨rfl, rfl⟩⟩

theorem mem_convertedPaths {p : Bytes} (triples : List (Bytes × Bytes × Bytes)) :
    p ∈ convertedPaths ((triples.flatMap fun t => [t.1, t.2.1, t.2.2]) ++ [[]]) ↔
      p ≠ [] ∧ ∃ attr val, (p, attr, val) ∈ triples ∧ isConversion attr val = true := by
  induction triples with
  | nil => simp [convertedPaths]
  | cons t triples ih =>
    obtain ⟨path, attr, val⟩ := t
    simp only [List.flatMap_cons, List.cons_append, List.nil_append, convertedPaths]
    split
    · rename_i hc
      rw [List.mem_cons, ih]
      constructor
      · rintro (rfl | ⟨hne, attr', val', hmem, hconv⟩)
        · exact ⟨hc.1, attr, val, by simp, hc.2⟩
        · exact ⟨hne, attr', val', by simp [hmem], hconv⟩
      · rintro ⟨hne, attr', val', hmem, hconv⟩
        rcases List.mem_cons.mp hmem with heq | hmem
        · cases heq
          exact .inl rfl
        · exact .inr ⟨hne, attr', val', hmem, hconv⟩
    · rename_i hc
      rw [ih]
      constructor
      · rintro ⟨hne, attr', val', hmem, hconv⟩
        exact ⟨hne, attr', val', by simp [hmem], hconv⟩
      · rintro ⟨hne, attr', val', hmem, hconv⟩
        rcases List.mem_cons.mp hmem with heq | hmem
        · cases heq
          exact absurd ⟨hne, hconv⟩ hc
        · exact ⟨hne, attr', val', hmem, hconv⟩

theorem seedAttributes_clean {attr : Bytes} (h : attr ∈ seedAttributes) : 0 ∉ attr := by
  have hall : (seedAttributes.all fun attr => decide (0 ∉ attr)) = true := by decide
  simpa using List.all_eq_true.mp hall attr h

/-- The loop over the triples finds the paths for which some attribute is a conversion. -/
theorem mem_convertedPaths_report {value : Bytes → Bytes → Bytes} {paths : List Bytes}
    (hpaths : ∀ p ∈ paths, p ≠ [] ∧ 0 ∉ p) (hvalue : ∀ p attr, 0 ∉ value p attr) {p : Bytes} :
    p ∈ convertedPaths ((attrReport value paths).splitOn 0) ↔
      p ∈ paths ∧ (seedAttributes.any fun attr => isConversion attr (value p attr)) = true := by
  let triples := paths.flatMap fun p => seedAttributes.map fun attr => (p, attr, value p attr)
  have htriples : (paths.flatMap fun p => seedAttributes.flatMap fun attr => [p, attr, value p attr]) =
      triples.flatMap fun t => [t.1, t.2.1, t.2.2] := by
    simp [triples, List.flatMap_assoc, List.flatMap_map]
  have hclean : ∀ r ∈ triples.flatMap fun t => [t.1, t.2.1, t.2.2], 0 ∉ r := by
    intro r hr
    simp only [triples, List.mem_flatMap, List.mem_map, List.mem_cons, List.not_mem_nil, or_false] at hr
    obtain ⟨t, ⟨q, hq, attr, hattr, rfl⟩, rfl | rfl | rfl⟩ := hr
    · exact (hpaths _ hq).2
    · exact seedAttributes_clean hattr
    · exact hvalue q attr
  rw [attrReport, htriples, RecordLog.splitOn_encode 0 hclean, mem_convertedPaths]
  simp only [triples, List.mem_flatMap, List.mem_map, Prod.mk.injEq, List.any_eq_true]
  constructor
  · rintro ⟨-, attr, val, ⟨q, hq, attr', hattr, rfl, rfl, rfl⟩, hconv⟩
    exact ⟨hq, attr', hattr, hconv⟩
  · rintro ⟨hp, attr, hattr, hconv⟩
    exact ⟨(hpaths p hp).1, attr, _, ⟨p, hp, attr, hattr, rfl, rfl, rfl⟩, hconv⟩

namespace SeedGit

variable {G : SeedGit} {size : Nat} {tracked : List Bytes} {value : Bytes → Bytes → Bytes}

theorem declares_error {read : Bytes → Except Error Bytes} {paths : List Bytes} {e : Error}
    (h : declares read paths = .error e) : ∃ path ∈ paths, read path = .error e := by
  induction paths with
  | nil => cases h
  | cons path paths ih =>
    cases hread : read path with
    | error e' =>
      rw [declares, hread] at h
      cases h
      exact ⟨path, by simp, hread⟩
    | ok content =>
      rw [declares, hread, Except.ok_bind] at h
      split at h
      · cases h
      · obtain ⟨path', hmem, hread'⟩ := ih h
        exact ⟨path', by simp [hmem], hread'⟩

theorem declares_ok {read : Bytes → Except Error Bytes} {paths : List Bytes} {b : Bool}
    (h : declares read paths = .ok b) : (paths.any fun path =>
      match read path with
      | .ok content => attributesDeclareConversion content
      | .error _ => false) = b := by
  induction paths with
  | nil =>
    cases h
    rfl
  | cons path paths ih =>
    cases hread : read path with
    | error e =>
      rw [declares, hread] at h
      cases h
    | ok content =>
      rw [declares, hread, Except.ok_bind] at h
      rw [List.any_cons, hread]
      split at h
      · rename_i hdecl
        cases h
        simp [hdecl]
      · rename_i hdecl
        rw [ih h]
        simp [hdecl]

theorem error_of_conversionPaths {e : Error} (hsize : 0 < size)
    (h : G.ConversionPaths size tracked (.error e)) :
    (∃ path ∈ attributeFiles tracked, G.readIndexBlob path = .error e) ∨
      G.checkAttr.succeeds (RecordLog.encode 0 tracked) = false := by
  rw [ConversionPaths] at h
  cases hdecl : declares G.readIndexBlob (attributeFiles tracked) with
  | error e' =>
    rw [hdecl] at h
    cases h
    exact .inl (declares_error hdecl)
  | ok b =>
    rw [hdecl] at h
    cases b with
    | false => cases h
    | true =>
      obtain ⟨x, hx, hr⟩ := h
      obtain ⟨hstatus, -, -⟩ := hx.completed hsize (.inl rfl)
      rw [SeedGit.converted, hstatus] at hr
      cases hok : G.checkAttr.succeeds (RecordLog.encode 0 tracked) with
      | true =>
        rw [hok] at hr
        cases hr
      | false => exact .inr rfl

section Conversion

variable (hsize : 0 < size) (hpaths : ∀ p ∈ tracked, p ≠ [] ∧ 0 ∉ p) (hvalue : ∀ p attr, 0 ∉ value p attr)
  (hattr : G.checkAttr.output (RecordLog.encode 0 tracked) = attrReport value tracked)

include hsize hpaths hvalue hattr

theorem mem_of_conversionPaths {converted : List Bytes} (h : G.ConversionPaths size tracked (.ok converted))
    {p : Bytes} (hp : p ∈ tracked) : p ∈ converted ↔ G.converts tracked value p = true := by
  rw [ConversionPaths] at h
  rw [converts]
  cases hdecl : declares G.readIndexBlob (attributeFiles tracked) with
  | error e =>
    rw [hdecl] at h
    cases h
  | ok b =>
    rw [hdecl] at h
    rw [declares_ok hdecl]
    cases b with
    | false =>
      cases h
      simp
    | true =>
      obtain ⟨x, hx, hr⟩ := h
      obtain ⟨hstatus, -, htaken⟩ := hx.completed hsize (.inl rfl)
      rw [SeedGit.converted, hstatus, htaken rfl, hattr] at hr
      split at hr
      · cases hr
        simp [mem_convertedPaths_report hpaths hvalue, hp]
      · cases hr

end Conversion

theorem exists_conversionPaths (G : SeedGit) (size : Nat) (all : List Bytes) : ∃ r, G.ConversionPaths size all r := by
  cases hdecl : declares G.readIndexBlob (attributeFiles all) with
  | error e => exact ⟨.error e, by rw [ConversionPaths, hdecl]⟩
  | ok b =>
    cases b with
    | false => exact ⟨.ok [], by rw [ConversionPaths, hdecl]⟩
    | true =>
      obtain ⟨x, hx⟩ := G.checkAttr.exists_exchanged size true (RecordLog.encode 0 all)
      refine ⟨G.converted x, ?_⟩
      rw [ConversionPaths, hdecl]
      exact ⟨x, hx, rfl⟩

theorem exists_seeds (G : SeedGit) (size : Nat) : ∃ r, G.Seeds size r := by
  cases hls : G.lsFiles with
  | error e => exact ⟨_, by rw [Seeds, hls]⟩
  | ok out =>
    by_cases hall : RecordLog.decode 0 out = []
    · refine ⟨.ok none, ?_⟩
      rw [Seeds, hls]
      simp [hall]
    · obtain ⟨c, hc⟩ := exists_conversionPaths G size (RecordLog.decode 0 out)
      cases c with
      | error e =>
        refine ⟨.error e, ?_⟩
        rw [Seeds, hls]
        simp only [hall, if_false]
        exact ⟨_, hc, rfl⟩
      | ok converted =>
        by_cases hseed : (RecordLog.decode 0 out).filter (fun p => !converted.contains p) = []
        · refine ⟨.ok none, ?_⟩
          rw [Seeds, hls]
          simp only [hall, if_false]
          refine ⟨_, hc, ?_⟩
          simp only [hseed, if_true]
        · obtain ⟨x, hx⟩ := G.updateIndex.exists_exchanged size false
            (RecordLog.encode 0 ((RecordLog.decode 0 out).filter fun p => !converted.contains p))
          refine ⟨G.marked (RecordLog.encode 0 ((RecordLog.decode 0 out).filter fun p => !converted.contains p)) x, ?_⟩
          rw [Seeds, hls]
          simp only [hall, if_false]
          refine ⟨_, hc, ?_⟩
          simp only [hseed, if_false]
          exact ⟨x, hx, rfl⟩

end SeedGit

end LazyMount
