import LazyMount.Lib.Ranked
import LazyMount.Lib.Tally
import Mathlib.Algebra.GroupWithZero.Nat
import Mathlib.Algebra.Order.BigOperators.Group.Finset

/-! The bounded pool of worker threads: callers enqueue jobs, the workers take them from one queue, and
whoever drops the pool waits for the workers. -/

namespace LazyMount

open Function (update)

/-- Where a worker is in its loop. -/
inductive LoopPoint (Job : Type) where
  /-- In front of the lock of the receiver. -/
  | locking
  /-- It has the lock, and waits in `recv`. -/
  | receiving
  | running (job : Job)
  | exited
deriving DecidableEq

/-- One for a worker that runs a job of the kind. -/
def LoopPoint.runs {Job : Type} (q : Job → Bool) : LoopPoint Job → Nat
  | .running job => if q job then 1 else 0
  | .locking | .receiving | .exited => 0

/-- A call of `Pool::drop`: the worker whose job makes it, if it is one, and the workers that are still
to be joined. -/
structure PoolDrop (n : Nat) where
  within : Option (Fin n)
  rest : List (Fin n)
deriving DecidableEq

/-- `tx` is taken when the pool is dropped. -/
structure WorkerPool (n : Nat) (Job : Type) where
  tx : Bool
  queue : List Job
  receiver : Option (Fin n)
  worker : Fin n → LoopPoint Job
  drop : Option (PoolDrop n)

inductive WorkerEvent (n : Nat) (Job : Type) where
  | spawn (job : Job)
  | lock (w : Fin n)
  /-- `recv` returns a job, and the lock is released. -/
  | recv (w : Fin n) (job : Job)
  /-- `recv` fails: the queue is closed and empty. -/
  | hangUp (w : Fin n)
  /-- The job returns, or its panic is caught. -/
  | finish (w : Fin n) (job : Job) (panicked : Bool)
  | close (within : Option (Fin n))
  /-- The next worker is joined, or skipped. -/
  | join
deriving DecidableEq

namespace WorkerEvent

variable {n : Nat} {Job : Type}

def isClose : WorkerEvent n Job → Bool
  | .close _ => true
  | _ => false

/-- What the workers and the one who drops the pool do by themselves. -/
def Inner : WorkerEvent n Job → Prop
  | .spawn _ | .close _ => False
  | .lock _ | .recv _ _ | .hangUp _ | .finish _ _ _ | .join => True

def spawned : WorkerEvent n Job → List Job
  | .spawn job => [job]
  | _ => []

def started : WorkerEvent n Job → List Job
  | .recv _ job => [job]
  | _ => []

def finished : WorkerEvent n Job → List Job
  | .finish _ job _ => [job]
  | _ => []

end WorkerEvent

namespace WorkerPool

variable {n : Nat} {Job : Type}

/-- `Pool::new` with `n` threads, where `n` is positive. -/
def new (n : Nat) (Job : Type) : WorkerPool n Job := ⟨true, [], none, fun _ => .locking, none⟩

def setWorker (s : WorkerPool n Job) (w : Fin n) (p : LoopPoint Job) : WorkerPool n Job :=
  { s with worker := update s.worker w p }

/-- The job of the worker is inside `Pool::drop`. -/
def Joining (s : WorkerPool n Job) (w : Fin n) : Prop :=
  ∃ d, s.drop = some d ∧ d.within = some w ∧ d.rest ≠ []

instance (s : WorkerPool n Job) (w : Fin n) : Decidable (s.Joining w) :=
  match hd : s.drop with
  | none => isFalse fun ⟨_, h, _⟩ => by simp [hd] at h
  | some d =>
    if h : d.within = some w ∧ d.rest ≠ [] then isTrue ⟨d, hd, h⟩
    else isFalse fun ⟨d', h', hw⟩ => h (by rw [hd, Option.some.injEq] at h'; rwa [h'])

def step [DecidableEq Job] (s : WorkerPool n Job) : WorkerEvent n Job → Option (WorkerPool n Job)
  | .spawn job => some (if s.tx then { s with queue := s.queue ++ [job] } else s)
  | .lock w =>
    if s.worker w = .locking ∧ s.receiver = none then
      some { s.setWorker w .receiving with receiver := some w }
    else none
  | .recv w job =>
    if s.worker w = .receiving ∧ s.queue.head? = some job then
      some { s.setWorker w (.running job) with queue := s.queue.tail, receiver := none }
    else none
  | .hangUp w =>
    if s.worker w = .receiving ∧ s.queue = [] ∧ s.tx = false then
      some { s.setWorker w .exited with receiver := none }
    else none
  | .finish w job _ =>
    if s.worker w = .running job ∧ ¬ s.Joining w then some (s.setWorker w .locking) else none
  | .close within =>
    match s.drop, within with
    | some _, _ => none
    | none, none => some { s with tx := false, drop := some ⟨none, List.finRange n⟩ }
    | none, some w =>
      match s.worker w with
      | .running _ => some { s with tx := false, drop := some ⟨some w, List.finRange n⟩ }
      | _ => none
  | .join =>
    match s.drop with
    | some ⟨within, w :: rest⟩ =>
      if within = some w ∨ s.worker w = .exited then some { s with drop := some ⟨within, rest⟩ } else none
    | _ => none

/-- The jobs that were spawned on the open pool, the oldest first. -/
def accepted (es : List (WorkerEvent n Job)) : List Job :=
  (es.takeWhile fun e => !e.isClose).flatMap WorkerEvent.spawned

def started (es : List (WorkerEvent n Job)) : List Job := es.flatMap WorkerEvent.started

def finished (es : List (WorkerEvent n Job)) : List Job := es.flatMap WorkerEvent.finished

/-- What each step finds, and what it leaves. -/
inductive Moves (s : WorkerPool n Job) : WorkerEvent n Job → WorkerPool n Job → Prop
  | enqueue {job : Job} (h : s.tx = true) : Moves s (.spawn job) { s with queue := s.queue ++ [job] }
  | refuse {job : Job} (h : s.tx = false) : Moves s (.spawn job) s
  | lock {w : Fin n} (h : s.worker w = .locking) (hfree : s.receiver = none) :
      Moves s (.lock w) { s.setWorker w .receiving with receiver := some w }
  | recv {w : Fin n} {job : Job} {queue : List Job} (h : s.worker w = .receiving)
      (hqueue : s.queue = job :: queue) :
      Moves s (.recv w job) { s.setWorker w (.running job) with queue := queue, receiver := none }
  | hangUp {w : Fin n} (h : s.worker w = .receiving) (hempty : s.queue = []) (htx : s.tx = false) :
      Moves s (.hangUp w) { s.setWorker w .exited with receiver := none }
  | finish {w : Fin n} {job : Job} {panicked : Bool} (h : s.worker w = .running job)
      (hfree : ¬ s.Joining w) : Moves s (.finish w job panicked) (s.setWorker w .locking)
  | close {within : Option (Fin n)} (h : s.drop = none)
      (hwithin : ∀ w, within = some w → ∃ job, s.worker w = .running job) :
      Moves s (.close within) { s with tx := false, drop := some ⟨within, List.finRange n⟩ }
  | join {within : Option (Fin n)} {w : Fin n} {rest : List (Fin n)}
      (h : s.drop = some ⟨within, w :: rest⟩) (hw : within = some w ∨ s.worker w = .exited) :
      Moves s .join { s with drop := some ⟨within, rest⟩ }

theorem moves_of_step [DecidableEq Job] {s t : WorkerPool n Job} {e : WorkerEvent n Job} (h : s.step e = some t) :
    Moves s e t := by
  cases e with
  | spawn job =>
    simp only [step, Option.some.injEq] at h
    subst h
    split
    · rename_i htx
      exact .enqueue htx
    · rename_i htx
      exact .refuse (by simpa using htx)
  | lock w =>
    obtain ⟨⟨hw, hfree⟩, rfl⟩ := by simpa only [step, Option.ite_none_right_eq_some, Option.some.injEq] using h
    exact .lock hw hfree
  | recv w job =>
    obtain ⟨⟨hw, hhead⟩, rfl⟩ := by simpa only [step, Option.ite_none_right_eq_some, Option.some.injEq] using h
    obtain ⟨queue, hqueue⟩ := List.head?_eq_some_iff.mp hhead
    rw [hqueue, List.tail_cons]
    exact .recv hw hqueue
  | hangUp w =>
    obtain ⟨⟨hw, hempty, htx⟩, rfl⟩ := by
      simpa only [step, Option.ite_none_right_eq_some, Option.some.injEq] using h
    exact .hangUp hw hempty htx
  | finish w job panicked =>
    obtain ⟨⟨hw, hfree⟩, rfl⟩ := by simpa only [step, Option.ite_none_right_eq_some, Option.some.injEq] using h
    exact .finish hw hfree
  | close within =>
    simp only [step] at h
    split at h
    · cases h
    · rename_i hdrop
      cases h
      exact .close hdrop (by simp)
    · rename_i w hdrop
      split at h
      · rename_i job hw
        cases h
        exact .close hdrop fun v hv => ⟨job, by rw [← Option.some.inj hv, hw]⟩
      · cases h
  | join =>
    simp only [step] at h
    split at h
    · rename_i within w rest hdrop
      obtain ⟨hw, rfl⟩ := by simpa only [Option.ite_none_right_eq_some, Option.some.injEq] using h
      exact .join hdrop hw
    · cases h

/-! What holds in every state of the pool. -/

structure Sound (s : WorkerPool n Job) : Prop where
  receiver : ∀ w, s.receiver = some w ↔ s.worker w = .receiving
  exited : ∀ w, s.worker w = .exited → s.tx = false ∧ s.queue = []
  opened : s.tx = true ↔ s.drop = none
  /-- Who is not to be joined any more has exited, or is the one who joins. -/
  joined : ∀ d, s.drop = some d → ∀ w, w ∉ d.rest → d.within = some w ∨ s.worker w = .exited
  joining : ∀ w, s.Joining w → ∃ job, s.worker w = .running job

variable {s t : WorkerPool n Job} {e : WorkerEvent n Job} {w : Fin n} {p : LoopPoint Job}

@[simp] theorem setWorker_worker (s : WorkerPool n Job) (w : Fin n) (p : LoopPoint Job) :
    (s.setWorker w p).worker = update s.worker w p := rfl

@[simp] theorem setWorker_drop (s : WorkerPool n Job) (w : Fin n) (p : LoopPoint Job) :
    (s.setWorker w p).drop = s.drop := rfl

@[simp] theorem setWorker_tx (s : WorkerPool n Job) (w : Fin n) (p : LoopPoint Job) :
    (s.setWorker w p).tx = s.tx := rfl

@[simp] theorem setWorker_queue (s : WorkerPool n Job) (w : Fin n) (p : LoopPoint Job) :
    (s.setWorker w p).queue = s.queue := rfl

theorem sound_new (n : Nat) (Job : Type) : Sound (new n Job) where
  receiver := by simp [new]
  exited := by simp [new]
  opened := by simp [new]
  joined := by simp [new]
  joining := by simp [new, Joining]

/-- One worker goes on; nothing about the drop changes. -/
theorem Sound.advance (h : Sound s) (hworker : t.worker = update s.worker w p) (hdrop : t.drop = s.drop)
    (htx : t.tx = s.tx) (hqueue : s.queue = [] → t.queue = [])
    (hreceiver : ∀ v, t.receiver = some v ↔ t.worker v = .receiving)
    (hleaves : s.worker w ≠ .exited) (hexits : p = .exited → s.tx = false ∧ t.queue = [])
    (hfree : (∃ job, p = .running job) ∨ ¬ s.Joining w) : Sound t := by
  have hother : ∀ v, v ≠ w → t.worker v = s.worker v := by
    intro v hv
    rw [hworker, Function.update_of_ne hv]
  have hself : t.worker w = p := by rw [hworker, Function.update_self]
  constructor
  case receiver => exact hreceiver
  case exited =>
    intro v hv
    by_cases hvw : v = w
    · subst hvw
      rw [hself] at hv
      rw [htx]
      exact hexits hv
    · rw [hother v hvw] at hv
      obtain ⟨hclosed, hempty⟩ := h.exited v hv
      rw [htx]
      exact ⟨hclosed, hqueue hempty⟩
  case opened => rw [htx, hdrop, h.opened]
  case joined =>
    intro d hd v hv
    rw [hdrop] at hd
    refine (h.joined d hd v hv).imp id fun hexit => ?_
    have hvw : v ≠ w := by
      rintro rfl
      exact hleaves hexit
    rw [hother v hvw]
    exact hexit
  case joining =>
    intro v hv
    have hv' : s.Joining v := by simpa only [Joining, hdrop] using hv
    by_cases hvw : v = w
    · subst hvw
      obtain ⟨job, hjob⟩ := hfree.resolve_right (by simpa using hv')
      exact ⟨job, by rw [hself, hjob]⟩
    · rw [hother v hvw]
      exact h.joining v hv'

theorem not_joining_of (h : Sound s) (hw : ∀ job, s.worker w ≠ .running job) : ¬ s.Joining w := by
  intro hj
  obtain ⟨job, hjob⟩ := h.joining w hj
  exact hw job hjob

theorem sound_step [DecidableEq Job] (h : Sound s) (hstep : s.step e = some t) : Sound t := by
  have hmoves := moves_of_step hstep
  cases hmoves with
  | refuse => exact h
  | enqueue htx =>
    refine ⟨h.receiver, fun w hw => ?_, h.opened, h.joined, h.joining⟩
    have hclosed := (h.exited w hw).1
    rw [htx] at hclosed
    cases hclosed
  | @lock w hw hfree =>
    refine h.advance rfl rfl rfl id (fun v => ?_) (by simp [hw]) (by simp)
      (.inr (not_joining_of h (by simp [hw])))
    by_cases hv : v = w
    · simp [hv]
    · have hnone := h.receiver v
      simp only [hfree, reduceCtorEq, false_iff] at hnone
      simp [hv, Ne.symm hv, hnone]
  | @recv w job queue hw hqueue =>
    refine h.advance rfl rfl rfl (by simp [hqueue]) (fun v => ?_) (by simp [hw]) (by simp) (.inl ⟨job, rfl⟩)
    by_cases hv : v = w
    · simp [hv]
    · have hholds := (h.receiver w).mpr hw
      have hother := h.receiver v
      simp only [hholds, Option.some.injEq, Ne.symm hv, false_iff] at hother
      simp [hv, hother]
  | @hangUp w hw hempty htx =>
    refine h.advance rfl rfl rfl id (fun v => ?_) (by simp [hw]) (fun _ => ⟨htx, hempty⟩)
      (.inr (not_joining_of h (by simp [hw])))
    by_cases hv : v = w
    · simp [hv]
    · have hholds := (h.receiver w).mpr hw
      have hother := h.receiver v
      simp only [hholds, Option.some.injEq, Ne.symm hv, false_iff] at hother
      simp [hv, hother]
  | @finish w job panicked hw hfree =>
    refine h.advance rfl rfl rfl id (fun v => ?_) (by simp [hw]) (by simp) (.inr hfree)
    by_cases hv : v = w
    · have hnot := h.receiver w
      simp only [hw, reduceCtorEq, iff_false] at hnot
      simp [hv, WorkerPool.setWorker, hnot]
    · simpa [WorkerPool.setWorker, hv] using h.receiver v
  | @close within hdrop hwithin =>
    have hopen := h.opened.mpr hdrop
    refine ⟨h.receiver, fun w hw => ?_, by simp, fun d hd w hw => ?_, fun w hw => ?_⟩
    · have hclosed := (h.exited w hw).1
      rw [hopen] at hclosed
      cases hclosed
    · cases hd
      exact (hw (List.mem_finRange w)).elim
    · obtain ⟨d, hd, hin, -⟩ := hw
      cases hd
      exact hwithin w hin
  | @join within w rest hdrop hw =>
    have hopened := h.opened
    refine ⟨h.receiver, h.exited, by simpa [hdrop] using hopened, fun d hd v hv => ?_, fun v hv => ?_⟩
    · cases hd
      by_cases hvw : v = w
      · rw [hvw]
        exact hw
      · exact h.joined _ hdrop v (by simpa [hvw] using hv)
    · obtain ⟨d, hd, hin, -⟩ := hv
      cases hd
      exact h.joining v ⟨_, hdrop, hin, by simp⟩

/-! The jobs of a run. -/

theorem accepted_concat (es : List (WorkerEvent n Job)) (e : WorkerEvent n Job) :
    accepted (es ++ [e]) = accepted es ++ if es.any WorkerEvent.isClose then [] else e.spawned := by
  induction es with
  | nil => cases e <;> simp [accepted, WorkerEvent.isClose, WorkerEvent.spawned]
  | cons f es ih =>
    cases hf : f.isClose with
    | true => simp [accepted, hf]
    | false => simpa [accepted, hf] using ih

/-- How many workers run a job of the kind. -/
def running (worker : Fin n → LoopPoint Job) (q : Job → Bool) : Nat := ∑ w, (worker w).runs q

theorem running_update (worker : Fin n → LoopPoint Job) (w : Fin n) (p : LoopPoint Job) (q : Job → Bool) :
    running (update worker w p) q + (worker w).runs q = running worker q + p.runs q :=
  Tally.sum_update (LoopPoint.runs q) worker w p

theorem running_le (worker : Fin n → LoopPoint Job) (q : Job → Bool) : running worker q ≤ n := by
  have hone : ∀ w ∈ Finset.univ, (worker w).runs q ≤ 1 := by
    intro w _
    cases worker w <;> simp only [LoopPoint.runs]
    case running job => split <;> omega
    all_goals omega
  simpa [running] using Finset.sum_le_card_nsmul _ _ 1 hone

/-- The queue and the workers against the events so far. -/
structure Tracks (es : List (WorkerEvent n Job)) (s : WorkerPool n Job) : Prop where
  sound : Sound s
  closed : es.any WorkerEvent.isClose = !s.tx
  order : started es ++ s.queue = accepted es
  counts : ∀ q, (started es).countP q = (finished es).countP q + running s.worker q

theorem tracks_new (n : Nat) (Job : Type) : Tracks [] (new n Job) where
  sound := sound_new n Job
  closed := rfl
  order := rfl
  counts := by simp [new, started, finished, running, LoopPoint.runs]

theorem tracks_step [DecidableEq Job] {es : List (WorkerEvent n Job)} (h : Tracks es s)
    (hstep : s.step e = some t) : Tracks (es ++ [e]) t := by
  have horder := h.order
  have hsound := sound_step h.sound hstep
  have hmoves := moves_of_step hstep
  have hstarted : started (es ++ [e]) = started es ++ e.started := by simp [started]
  have hfinished : finished (es ++ [e]) = finished es ++ e.finished := by simp [finished]
  refine ⟨hsound, ?_, ?_, fun q => ?_⟩
  · rw [List.any_append, h.closed]
    cases hmoves <;> simp_all [WorkerEvent.isClose]
  · rw [accepted_concat, h.closed, ← horder, hstarted]
    cases hmoves with
    | enqueue htx => simp [htx, WorkerEvent.started, WorkerEvent.spawned]
    | refuse htx => simp [htx, WorkerEvent.started]
    | recv hw hqueue => simp [hqueue, WorkerEvent.started, WorkerEvent.spawned]
    | lock | hangUp | finish | close | join => simp [WorkerEvent.started, WorkerEvent.spawned]
  · have hcounts := h.counts q
    rw [hstarted, hfinished, List.countP_append, List.countP_append]
    cases hmoves with
    | enqueue | refuse | close | join => simpa [WorkerEvent.started, WorkerEvent.finished] using hcounts
    | @lock w hw hfree =>
      have hsum := running_update s.worker w .receiving q
      simp only [hw, LoopPoint.runs, Nat.add_zero] at hsum
      simpa [WorkerEvent.started, WorkerEvent.finished, hsum] using hcounts
    | @hangUp w hw =>
      have hsum := running_update s.worker w .exited q
      simp only [hw, LoopPoint.runs, Nat.add_zero] at hsum
      simpa [WorkerEvent.started, WorkerEvent.finished, hsum] using hcounts
    | @recv w job queue hw hqueue =>
      have hsum := running_update s.worker w (.running job) q
      simp only [hw, LoopPoint.runs, Nat.add_zero] at hsum
      simp only [WorkerEvent.started, WorkerEvent.finished, List.countP_singleton, List.countP_nil,
        setWorker_worker]
      omega
    | @finish w job panicked hw hfree =>
      have hsum := running_update s.worker w .locking q
      simp only [hw, LoopPoint.runs, Nat.add_zero] at hsum
      simp only [WorkerEvent.started, WorkerEvent.finished, List.countP_singleton, List.countP_nil,
        setWorker_worker]
      omega

theorem tracks_run [DecidableEq Job] {es : List (WorkerEvent n Job)}
    (hrun : Machine.run step (new n Job) es = some s) :
    Tracks es s := by
  have hh := Machine.run_history (fun s es => Tracks es s) (fun e => [e]) (fun _ => True)
    (fun _ _ _ _ _ hi hs => tracks_step hi hs) (fun _ _ => trivial) (tracks_new n Job) hrun
  simpa using hh

/-! The pool left alone. -/

/-- How many more inner steps a worker takes for what it has in hand. -/
def pending : LoopPoint Job → Nat
  | .running _ => 3
  | .locking => 2
  | .receiving => 1
  | .exited => 0

def left (worker : Fin n → LoopPoint Job) : Nat := ∑ w, pending (worker w)

theorem left_update (worker : Fin n → LoopPoint Job) (w : Fin n) (p : LoopPoint Job) :
    left (update worker w p) + pending (worker w) = left worker + pending p :=
  Tally.sum_update pending worker w p

def rank (s : WorkerPool n Job) : Nat :=
  3 * s.queue.length + left s.worker + (s.drop.map (·.rest.length)).getD 0

theorem ranked [DecidableEq Job] : Machine.Ranked (@step n Job _) WorkerEvent.Inner Sound rank where
  keeps _ _ _ hs hstep := sound_step hs hstep
  lowers := by
    intro s e t he _ hstep
    have hmoves := moves_of_step hstep
    cases hmoves with
    | enqueue | refuse | close => exact he.elim
    | @lock w hw =>
      have hsum := left_update s.worker w .receiving
      simp only [hw, pending] at hsum
      simp only [rank, setWorker_worker, setWorker_queue, setWorker_drop]
      omega
    | @recv w job queue hw hqueue =>
      have hsum := left_update s.worker w (.running job)
      simp only [hw, pending] at hsum
      simp only [rank, setWorker_worker, setWorker_drop, hqueue, List.length_cons]
      omega
    | @hangUp w hw =>
      have hsum := left_update s.worker w .exited
      simp only [hw, pending] at hsum
      simp only [rank, setWorker_worker, setWorker_queue, setWorker_drop]
      omega
    | @finish w job panicked hw =>
      have hsum := left_update s.worker w .locking
      simp only [hw, pending] at hsum
      simp only [rank, setWorker_worker, setWorker_queue, setWorker_drop]
      omega
    | @join within w rest hdrop =>
      simp only [rank, hdrop, Option.map_some, Option.getD_some, List.length_cons]
      omega

section Rest

variable [DecidableEq Job] (h : Sound s) (hrest : Machine.AtRest step WorkerEvent.Inner s)

include h hrest

/-- At rest a worker waits for jobs only while the pool is open and none is left. -/
theorem waiting_of_atRest (hw : s.worker w = .locking ∨ s.worker w = .receiving) :
    s.queue = [] ∧ s.tx = true := by
  have hreceiving : ∀ v, s.worker v = .receiving → s.queue = [] ∧ s.tx = true := by
    intro v hv
    have hempty : s.queue = [] := by
      rcases hq : s.queue with _ | ⟨job, queue⟩
      · rfl
      · have hrecv := hrest (.recv v job) trivial
        simp [step, hv, hq] at hrecv
    have hhang := hrest (.hangUp v) trivial
    refine ⟨hempty, ?_⟩
    simpa [step, hv, hempty] using hhang
  rcases hw with hw | hw
  · rcases hr : s.receiver with _ | v
    · have hlock := hrest (.lock w) trivial
      simp [step, hw, hr] at hlock
    · exact hreceiving v ((h.receiver v).mp hr)
  · exact hreceiving w hw

theorem idle_of_atRest (w : Fin n) (job : Job) : s.worker w ≠ .running job := by
  -- whoever runs a job at rest is inside the drop of the pool
  have hjoining : ∀ v j, s.worker v = .running j → s.Joining v := by
    intro v j hv
    have hfinish := hrest (.finish v j false) trivial
    simpa [step, hv] using hfinish
  intro hw
  obtain ⟨d, hdrop, hin, hne⟩ := hjoining w job hw
  have htx : s.tx = false := by
    have hopened := h.opened
    simpa [hdrop] using hopened
  obtain ⟨within, rest⟩ := d
  obtain ⟨v, rest, rfl⟩ := List.exists_cons_of_ne_nil hne
  have hjoin := hrest .join trivial
  simp only [step, hdrop, ite_eq_right_iff, reduceCtorEq, imp_false, not_or] at hjoin
  rcases hv : s.worker v with _ | _ | j | _
  · exact absurd (waiting_of_atRest h hrest (.inl hv)).2 (by simp [htx])
  · exact absurd (waiting_of_atRest h hrest (.inr hv)).2 (by simp [htx])
  · obtain ⟨d, hdrop', hin', -⟩ := hjoining v j hv
    rw [hdrop, Option.some.injEq] at hdrop'
    subst hdrop'
    exact hjoin.1 hin'
  · exact hjoin.2 hv

theorem empty_of_atRest (hn : 0 < n) : s.queue = [] := by
  rcases hw : s.worker ⟨0, hn⟩ with _ | _ | job | _
  · exact (waiting_of_atRest h hrest (.inl hw)).1
  · exact (waiting_of_atRest h hrest (.inr hw)).1
  · exact (idle_of_atRest h hrest _ _ hw).elim
  · exact (h.exited _ hw).2

theorem dropped_of_atRest (htx : s.tx = false) :
    (∀ w, s.worker w = .exited) ∧ ∃ d, s.drop = some d ∧ d.rest = [] := by
  have hexited : ∀ w, s.worker w = .exited := by
    intro w
    rcases hw : s.worker w with _ | _ | job | _
    · exact absurd (waiting_of_atRest h hrest (.inl hw)).2 (by simp [htx])
    · exact absurd (waiting_of_atRest h hrest (.inr hw)).2 (by simp [htx])
    · exact (idle_of_atRest h hrest _ _ hw).elim
    · rfl
  have hopened := h.opened
  rw [htx] at hopened
  obtain ⟨⟨within, rest⟩, hdrop⟩ := Option.ne_none_iff_exists'.mp (by simpa using hopened)
  refine ⟨hexited, _, hdrop, ?_⟩
  rcases rest with _ | ⟨v, rest⟩
  · rfl
  · have hjoin := hrest .join trivial
    simp [step, hdrop, hexited v] at hjoin

end Rest

theorem running_eq_zero {worker : Fin n → LoopPoint Job} (h : ∀ w job, worker w ≠ .running job)
    (q : Job → Bool) : running worker q = 0 := by
  rw [running, Finset.sum_eq_zero]
  intro w _
  cases hw : worker w with
  | running job => exact (h w job hw).elim
  | locking | receiving | exited => rfl

/-- Nobody runs a job, so those that were started have finished. -/
theorem Tracks.finished_perm [DecidableEq Job] {es : List (WorkerEvent n Job)} (h : Tracks es s)
    (hidle : ∀ w job, s.worker w ≠ .running job) (hqueue : s.queue = []) :
    (finished es).Perm (accepted es) := by
  have horder := h.order
  rw [hqueue, List.append_nil] at horder
  rw [← horder, List.perm_iff_count]
  intro job
  have hcounts := h.counts (· == job)
  rw [running_eq_zero hidle, Nat.add_zero] at hcounts
  exact hcounts.symm

theorem accepted_append {es es' : List (WorkerEvent n Job)} (h : ∀ e ∈ es', e.Inner) :
    accepted (es ++ es') = accepted es := by
  induction es' using List.reverseRecOn with
  | nil => simp
  | append_singleton es' e ih =>
    have he := h e (by simp)
    have hspawned : e.spawned = [] := by cases e <;> first | rfl | exact he.elim
    rw [← List.append_assoc, accepted_concat, hspawned, ih fun f hf => h f (by simp [hf])]
    simp

end WorkerPool

open WorkerPool

instance neZero_workers (k : Nat) : NeZero (max k 1) := ⟨by omega⟩

/-- However the threads take turns: the jobs are started in the order they were spawned, each of them
once, and at most as many run as there are workers. When the drop of the pool returns to a thread that is
no worker, all of them have finished; from a job of a pool with more workers, all have been started. -/
theorem pool_runs_each_job_once {Job : Type} [DecidableEq Job] (k : Nat)
    {es : List (WorkerEvent (max k 1) Job)} {s : WorkerPool (max k 1) Job}
    (hrun : Machine.run step (WorkerPool.new _ Job) es = some s) :
    started es ++ s.queue = accepted es ∧
    (∀ q, (started es).countP q = (finished es).countP q + running s.worker q) ∧
    (started es).length ≤ (finished es).length + max k 1 ∧
    ∀ d, s.drop = some d → d.rest = [] →
      (d.within = none → (finished es).Perm (accepted es)) ∧ (1 < k → started es = accepted es) := by
  have ht := tracks_run hrun
  have hsound := ht.sound
  refine ⟨ht.order, ht.counts, ?_, fun d hd hrest => ⟨fun hwithin => ?_, fun hk => ?_⟩⟩
  · have hall := ht.counts fun _ => true
    have hbusy := running_le s.worker fun _ => true
    simp only [List.countP_true] at hall
    omega
  · have hexited : ∀ w, s.worker w = .exited := by
      intro w
      have hw := hsound.joined d hd w (by simp [hrest])
      simpa [hwithin] using hw
    have hempty := (hsound.exited ⟨0, by omega⟩ (hexited _)).2
    exact ht.finished_perm (by simp [hexited]) hempty
  · -- one of two workers is not the one whose job drops the pool
    obtain ⟨w, hw⟩ : ∃ w : Fin (max k 1), d.within ≠ some w := by
      by_cases hzero : d.within = some ⟨0, by omega⟩
      · exact ⟨⟨1, by omega⟩, by simp [hzero]⟩
      · exact ⟨_, hzero⟩
    have hexited := (hsound.joined d hd w (by simp [hrest])).resolve_left hw
    have horder := ht.order
    rwa [(hsound.exited w hexited).2, List.append_nil] at horder

/-- Two workers and three jobs, one of which panics; the pool is dropped with the last one in the queue. -/
theorem pool_runs_each_job_once_dropped :
    let es : List (WorkerEvent (max 2 1) Nat) := [.spawn 5, .spawn 6, .lock 0, .recv 0 5, .lock 1, .recv 1 6,
      .spawn 7, .finish 1 6 true, .close none, .lock 1, .recv 1 7, .finish 0 5 false, .lock 0, .hangUp 0, .join,
      .finish 1 7 false, .lock 1, .hangUp 1, .join]
    ∃ s, Machine.run step (WorkerPool.new _ Nat) es = some s ∧ (finished es).Perm [5, 6, 7] := by
  intro es
  obtain ⟨s, hs⟩ := Option.isSome_iff_exists.1
    (show (Machine.run step (WorkerPool.new _ Nat) es).isSome = true by decide)
  have hreturned : (Machine.run step (WorkerPool.new _ Nat) es).bind (·.drop) = some ⟨none, []⟩ := by decide
  rw [hs] at hreturned
  exact ⟨s, hs, ((pool_runs_each_job_once 2 hs).2.2.2 _ hreturned rfl).1 rfl⟩

/-- The pool never gets stuck: left alone it comes to rest, within a number of steps that its state tells,
and then every job that was spawned has finished; if it was dropped, the drop has returned and all
workers have exited, also where one of its own jobs dropped it. -/
theorem pool_comes_to_rest {Job : Type} [DecidableEq Job] (k : Nat)
    {es : List (WorkerEvent (max k 1) Job)} {s : WorkerPool (max k 1) Job}
    (hrun : Machine.run step (WorkerPool.new _ Job) es = some s) :
    (∃ es' t, (∀ e ∈ es', WorkerEvent.Inner e) ∧ Machine.run step s es' = some t ∧
      Machine.AtRest step WorkerEvent.Inner t) ∧
    ∀ es' t, (∀ e ∈ es', WorkerEvent.Inner e) → Machine.run step s es' = some t →
      es'.length + t.rank ≤ s.rank ∧
      (Machine.AtRest step WorkerEvent.Inner t → (finished (es ++ es')).Perm (accepted es) ∧
        (t.tx = false → (∀ w, t.worker w = .exited) ∧ ∃ d, t.drop = some d ∧ d.rest = [])) := by
  have hsound := (tracks_run hrun).sound
  refine ⟨ranked.exists_atRest hsound, fun es' t hes' hrun' => ?_⟩
  have ht : Tracks (es ++ es') t := tracks_run (Machine.run_append.mpr ⟨s, hrun, hrun'⟩)
  refine ⟨ranked.length_le hsound hes' hrun', fun hrest => ⟨?_, dropped_of_atRest ht.sound hrest⟩⟩
  rw [← accepted_append hes']
  exact ht.finished_perm (idle_of_atRest ht.sound hrest) (empty_of_atRest ht.sound hrest (by omega))

/-- The only worker runs a job that drops the pool, with another job in the queue. -/
theorem pool_comes_to_rest_within :
    let es : List (WorkerEvent (max 1 1) Nat) := [.spawn 5, .spawn 6, .lock 0, .recv 0 5, .close (some 0)]
    let es' : List (WorkerEvent (max 1 1) Nat) :=
      [.join, .finish 0 5 false, .lock 0, .recv 0 6, .finish 0 6 false, .lock 0, .hangUp 0]
    ∃ s t, Machine.run step (WorkerPool.new _ Nat) es = some s ∧ Machine.run step s es' = some t ∧
      es'.length + t.rank ≤ s.rank := by
  intro es es'
  obtain ⟨t, ht⟩ := Option.isSome_iff_exists.1
    (show (Machine.run step (WorkerPool.new _ Nat) (es ++ es')).isSome = true by decide)
  obtain ⟨s, hs, ht'⟩ := Machine.run_append.mp ht
  exact ⟨s, t, hs, ht', ((pool_comes_to_rest 1 hs).2 es' t (by simp [es', WorkerEvent.Inner]) ht').1⟩

end LazyMount
