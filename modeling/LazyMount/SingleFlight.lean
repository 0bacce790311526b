import LazyMount.Lib.KeyedLock
import LazyMount.Lib.Machine
import LazyMount.Overlay

/-! Materializing blobs in the content cache: callers of `materialize_path_inner` in any number, on
demand and ahead of demand, take its steps in any order. A lock for each blob lets one of them fetch. -/

namespace LazyMount

open Function (update)

structure Materialize where
  oid : ObjectId
  speculative : Bool
deriving DecidableEq, Repr

/-- Where a caller is in `materialize_path_inner`. -/
inductive Phase where
  | idle
  /-- In front of the first look at the final name. -/
  | called (r : Materialize)
  | waiting (r : Materialize)
  /-- It has the lock, and looks again. -/
  | locked (r : Materialize)
  | missing (r : Materialize)
  | fetching (r : Materialize) (seq : Nat)
  | fetched (r : Materialize) (seq : Nat)
  /-- The rename failed, and the temporary file is removed. -/
  | unpublished (r : Materialize)
  /-- It returns, and the lock is released. -/
  | returning (r : Materialize) (ok : Bool)
deriving DecidableEq, Repr

/-- The blob whose lock a caller has. -/
def Phase.lockOf : Phase → Option ObjectId
  | .idle | .called _ | .waiting _ => none
  | .locked r | .missing r | .fetching r _ | .fetched r _ | .unpublished r | .returning r _ => some r.oid

/-- `cache_dir`, the locks and the counters. A temporary file is named after its blob and `TMP_SEQ`. -/
structure Cache where
  files : ObjectId → Option Bytes
  temps : ObjectId × Nat → Option Bytes
  tmpSeq : Nat
  holder : ObjectId → Option Nat
  phase : Nat → Phase
  hydrations : Nat
  hydrateWarms : Nat

inductive FlightEvent where
  | call (c : Nat) (r : Materialize)
  | look (c : Nat)
  | lock (c : Nat)
  | lookAgain (c : Nat)
  /-- The counter goes up and `blob_to_file` begins. -/
  | fetch (c : Nat) (r : Materialize)
  /-- What the temporary file holds by now. -/
  | write (c : Nat) (bytes : Bytes)
  | fetched (c : Nat) (r : Materialize) (ok : Bool)
  | publish (c : Nat) (r : Materialize) (ok : Bool)
  | lookLast (c : Nat)
  | unlock (c : Nat)
deriving DecidableEq

namespace Cache

def start (files : ObjectId → Option Bytes) (temps : ObjectId × Nat → Option Bytes) : Cache :=
  ⟨files, temps, 0, fun _ => none, fun _ => .idle, 0, 0⟩

def goTo (s : Cache) (c : Nat) (p : Phase) : Cache := { s with phase := update s.phase c p }

def count (s : Cache) (r : Materialize) : Cache :=
  if r.speculative then { s with hydrateWarms := s.hydrateWarms + 1 }
  else { s with hydrations := s.hydrations + 1 }

/-- `blob_to_file` either writes the whole blob and succeeds or fails; a failed rename leaves no
temporary file. -/
def step (blob : ObjectId → Bytes) (s : Cache) : FlightEvent → Option Cache
  | .call c r =>
    match s.phase c with
    | .idle => some (s.goTo c (.called r))
    | _ => none
  | .look c =>
    match s.phase c with
    | .called r => some (if (s.files r.oid).isSome then s.goTo c .idle else s.goTo c (.waiting r))
    | _ => none
  | .lock c =>
    match s.phase c with
    | .waiting r =>
      if (s.holder r.oid).isSome then none
      else some { s.goTo c (.locked r) with holder := update s.holder r.oid (some c) }
    | _ => none
  | .lookAgain c =>
    match s.phase c with
    | .locked r =>
      some (if (s.files r.oid).isSome then s.goTo c (.returning r true) else s.goTo c (.missing r))
    | _ => none
  | .fetch c r =>
    if s.phase c = .missing r then
      some { (s.count r).goTo c (.fetching r s.tmpSeq) with
        tmpSeq := s.tmpSeq + 1
        temps := update s.temps (r.oid, s.tmpSeq) (some []) }
    else none
  | .write c bytes =>
    match s.phase c with
    | .fetching r seq => some { s with temps := update s.temps (r.oid, seq) (some bytes) }
    | _ => none
  | .fetched c r ok =>
    match s.phase c with
    | .fetching r' seq =>
      if r' = r then
        some (if ok then
          { s.goTo c (.fetched r seq) with temps := update s.temps (r.oid, seq) (some (blob r.oid)) }
        else s.goTo c (.returning r false))
      else none
    | _ => none
  | .publish c r ok =>
    match s.phase c with
    | .fetched r' seq =>
      if r' = r then
        match ok, s.temps (r.oid, seq) with
        | true, some bytes => some { s.goTo c (.returning r true) with
            files := update s.files r.oid (some bytes)
            temps := update s.temps (r.oid, seq) none }
        | true, none => none
        | false, _ => some { s.goTo c (.unpublished r) with temps := update s.temps (r.oid, seq) none }
      else none
    | _ => none
  | .lookLast c =>
    match s.phase c with
    | .unpublished r => some (s.goTo c (.returning r (s.files r.oid).isSome))
    | _ => none
  | .unlock c =>
    match s.phase c with
    | .returning r _ => some { s.goTo c .idle with holder := update s.holder r.oid none }
    | _ => none

/-- What the caller gets, where a step returns to it: the blob's path, or an error. -/
def answer (s : Cache) : FlightEvent → Option (ObjectId × Bool)
  | .look c =>
    match s.phase c with
    | .called r => if (s.files r.oid).isSome then some (r.oid, true) else none
    | _ => none
  | .unlock c =>
    match s.phase c with
    | .returning r ok => some (r.oid, ok)
    | _ => none
  | _ => none

end Cache

namespace FlightEvent

def isFetch (speculative : Bool) : FlightEvent → Bool
  | .fetch _ r => r.speculative == speculative
  | _ => false

def isRetrieval : FlightEvent → Bool
  | .fetch _ _ => true
  | _ => false

def isSuccess (oid : ObjectId) : FlightEvent → Bool
  | .fetched _ r true => r.oid == oid
  | _ => false

def isFailedRename (oid : ObjectId) : FlightEvent → Bool
  | .publish _ r false => r.oid == oid
  | _ => false

theorem countP_fetch (es : List FlightEvent) :
    es.countP (·.isFetch false) + es.countP (·.isFetch true) = es.countP (·.isRetrieval) := by
  induction es with
  | nil => rfl
  | cons e es ih =>
    have hone : (if e.isFetch false then 1 else 0) + (if e.isFetch true then 1 else 0)
        = if e.isRetrieval then 1 else 0 := by
      cases e with
      | fetch c r => cases hr : r.speculative <;> simp [isFetch, isRetrieval, hr]
      | call | look | lock | lookAgain | write | fetched | publish | lookLast | unlock => rfl
    simp only [List.countP_cons]
    omega

end FlightEvent

namespace Cache

/-- What each step finds, and what it leaves. -/
inductive Moves (blob : ObjectId → Bytes) (s : Cache) : FlightEvent → Cache → Prop
  | call {c : Nat} {r : Materialize} (h : s.phase c = .idle) : Moves blob s (.call c r) (s.goTo c (.called r))
  | hit {c : Nat} {r : Materialize} (h : s.phase c = .called r) (hf : (s.files r.oid).isSome = true) :
      Moves blob s (.look c) (s.goTo c .idle)
  | wait {c : Nat} {r : Materialize} (h : s.phase c = .called r) : Moves blob s (.look c) (s.goTo c (.waiting r))
  | lock {c : Nat} {r : Materialize} (h : s.phase c = .waiting r) (hfree : s.holder r.oid = none) :
      Moves blob s (.lock c) { s.goTo c (.locked r) with holder := update s.holder r.oid (some c) }
  | found {c : Nat} {r : Materialize} (h : s.phase c = .locked r) (hf : (s.files r.oid).isSome = true) :
      Moves blob s (.lookAgain c) (s.goTo c (.returning r true))
  | miss {c : Nat} {r : Materialize} (h : s.phase c = .locked r) (hf : s.files r.oid = none) :
      Moves blob s (.lookAgain c) (s.goTo c (.missing r))
  | fetch {c : Nat} {r : Materialize} (h : s.phase c = .missing r) :
      Moves blob s (.fetch c r) { (s.count r).goTo c (.fetching r s.tmpSeq) with
        tmpSeq := s.tmpSeq + 1
        temps := update s.temps (r.oid, s.tmpSeq) (some []) }
  | write {c : Nat} {r : Materialize} {seq : Nat} {bytes : Bytes} (h : s.phase c = .fetching r seq) :
      Moves blob s (.write c bytes) { s with temps := update s.temps (r.oid, seq) (some bytes) }
  | complete {c : Nat} {r : Materialize} {seq : Nat} (h : s.phase c = .fetching r seq) :
      Moves blob s (.fetched c r true) { s.goTo c (.fetched r seq) with
        temps := update s.temps (r.oid, seq) (some (blob r.oid)) }
  | fail {c : Nat} {r : Materialize} {seq : Nat} (h : s.phase c = .fetching r seq) :
      Moves blob s (.fetched c r false) (s.goTo c (.returning r false))
  | publish {c : Nat} {r : Materialize} {seq : Nat} {bytes : Bytes} (h : s.phase c = .fetched r seq)
      (ht : s.temps (r.oid, seq) = some bytes) :
      Moves blob s (.publish c r true) { s.goTo c (.returning r true) with
        files := update s.files r.oid (some bytes)
        temps := update s.temps (r.oid, seq) none }
  | strand {c : Nat} {r : Materialize} {seq : Nat} (h : s.phase c = .fetched r seq) :
      Moves blob s (.publish c r false) { s.goTo c (.unpublished r) with
        temps := update s.temps (r.oid, seq) none }
  | lookLast {c : Nat} {r : Materialize} (h : s.phase c = .unpublished r) :
      Moves blob s (.lookLast c) (s.goTo c (.returning r (s.files r.oid).isSome))
  | unlock {c : Nat} {r : Materialize} {ok : Bool} (h : s.phase c = .returning r ok) :
      Moves blob s (.unlock c) { s.goTo c .idle with holder := update s.holder r.oid none }

theorem moves_of_step {blob : ObjectId → Bytes} {s t : Cache} {e : FlightEvent} (h : s.step blob e = some t) :
    Moves blob s e t := by
  cases e with
  | call c r | write c bytes | lookLast c | unlock c =>
    simp only [step] at h
    split at h
    · rename_i hp
      cases h
      constructor
      exact hp
    · cases h
  | look c =>
    simp only [step] at h
    split at h
    · rename_i r hp
      cases h
      split
      · rename_i hf
        exact .hit hp hf
      · exact .wait hp
    · cases h
  | lock c =>
    simp only [step] at h
    split at h
    · rename_i r hp
      split at h
      · cases h
      · rename_i hfree
        cases h
        exact .lock hp (Option.not_isSome_iff_eq_none.1 hfree)
    · cases h
  | lookAgain c =>
    simp only [step] at h
    split at h
    · rename_i r hp
      cases h
      split
      · rename_i hf
        exact .found hp hf
      · rename_i hf
        exact .miss hp (Option.not_isSome_iff_eq_none.1 hf)
    · cases h
  | fetch c r =>
    simp only [step] at h
    split at h
    · rename_i hp
      cases h
      exact .fetch hp
    · cases h
  | fetched c r ok =>
    simp only [step] at h
    split at h
    · rename_i r' seq hp
      split at h
      · rename_i hr
        subst hr
        cases h
        cases ok with
        | true => exact .complete hp
        | false => exact .fail hp
      · cases h
    · cases h
  | publish c r ok =>
    simp only [step] at h
    split at h
    · rename_i r' seq hp
      split at h
      · rename_i hr
        subst hr
        split at h
        · rename_i ht
          cases h
          exact .publish hp ht
        · cases h
        · cases h
          exact .strand hp
      · cases h
    · cases h

end Cache

/-- What a caller knows of the cache where it is. -/
def Phase.Knows (blob : ObjectId → Bytes) (files : ObjectId → Option Bytes)
    (temps : ObjectId × Nat → Option Bytes) : Phase → Prop
  | .missing r | .fetching r _ | .unpublished r => files r.oid = none
  | .fetched r seq => files r.oid = none ∧ temps (r.oid, seq) = some (blob r.oid)
  | .returning r ok => ok = true → (files r.oid).isSome = true
  | .idle | .called _ | .waiting _ | .locked _ => True

theorem Phase.Knows.frame {blob : ObjectId → Bytes} {files files' : ObjectId → Option Bytes}
    {temps temps' : ObjectId × Nat → Option Bytes} {p : Phase} (h : p.Knows blob files temps)
    (hsame : ∀ oid, p.lockOf = some oid → files' oid = files oid ∧ ∀ seq, temps' (oid, seq) = temps (oid, seq)) :
    p.Knows blob files' temps' := by
  cases p with
  | idle | called | waiting | locked => trivial
  | missing r | fetching r | unpublished r | returning r =>
    have hfiles := (hsame r.oid rfl).1
    simpa only [Knows, hfiles] using h
  | fetched r seq =>
    obtain ⟨hfiles, htemps⟩ := hsame r.oid rfl
    simpa only [Knows, hfiles, htemps] using h

namespace Cache

variable {blob : ObjectId → Bytes} {s t : Cache} {e : FlightEvent} {c : Nat} {p : Phase} {r : Materialize}
  {oid : ObjectId}

/-- Files under final names are whole, the locks exclude, and every caller is right about what it
knows. -/
structure Sound (blob : ObjectId → Bytes) (s : Cache) : Prop where
  whole : ∀ oid bytes, s.files oid = some bytes → bytes = blob oid
  exclusive : KeyedLock.Exclusive Phase.lockOf s.holder s.phase
  knows : ∀ c, (s.phase c).Knows blob s.files s.temps

theorem sound_start {files : ObjectId → Option Bytes} (temps : ObjectId × Nat → Option Bytes)
    (hfiles : ∀ oid bytes, files oid = some bytes → bytes = blob oid) : Sound blob (start files temps) := by
  refine ⟨hfiles, fun k c => ?_, fun c => trivial⟩
  constructor <;> intro h <;> cases h

theorem Sound.next (h : Sound blob s) (hphase : t.phase = update s.phase c p)
    (hexclusive : KeyedLock.Exclusive Phase.lockOf t.holder t.phase)
    (hwhole : ∀ oid bytes, t.files oid = some bytes → bytes = blob oid)
    (hframe : ∀ oid, (s.phase c).lockOf ≠ some oid →
      t.files oid = s.files oid ∧ ∀ seq, t.temps (oid, seq) = s.temps (oid, seq))
    (hknows : p.Knows blob t.files t.temps) : Sound blob t := by
  refine ⟨hwhole, hexclusive, fun d => ?_⟩
  rw [hphase]
  by_cases hd : d = c
  · rw [hd, Function.update_self]
    exact hknows
  · rw [Function.update_of_ne hd]
    refine (h.knows d).frame fun oid hoid => hframe oid fun hc => ?_
    exact hd (h.exclusive.unique hoid hc)

theorem Sound.goTo (h : Sound blob s) (hlock : p.lockOf = (s.phase c).lockOf)
    (hknows : p.Knows blob s.files s.temps) : Sound blob (s.goTo c p) :=
  h.next rfl (h.exclusive.move hlock) h.whole (fun _ _ => ⟨rfl, fun _ => rfl⟩) hknows

theorem temps_of_ne {temps : ObjectId × Nat → Option Bytes} {o : ObjectId} {seq : Nat} {b : Option Bytes}
    (hne : some r.oid ≠ some o) (seq' : Nat) : update temps (r.oid, seq) b (o, seq') = temps (o, seq') := by
  refine Function.update_of_ne (fun he => hne ?_) _ _
  rw [(Prod.mk.inj he).1]

@[simp] theorem count_files (s : Cache) (r : Materialize) : (s.count r).files = s.files := by
  unfold count
  split <;> rfl

@[simp] theorem count_temps (s : Cache) (r : Materialize) : (s.count r).temps = s.temps := by
  unfold count
  split <;> rfl

@[simp] theorem count_holder (s : Cache) (r : Materialize) : (s.count r).holder = s.holder := by
  unfold count
  split <;> rfl

@[simp] theorem count_phase (s : Cache) (r : Materialize) : (s.count r).phase = s.phase := by
  unfold count
  split <;> rfl

theorem sound_step (h : Sound blob s) (hstep : s.step blob e = some t) : Sound blob t := by
  have hmoves := moves_of_step hstep
  cases hmoves with
  | call hp => exact h.goTo (by rw [hp]; rfl) trivial
  | hit hp hf => exact h.goTo (by rw [hp]; rfl) trivial
  | wait hp => exact h.goTo (by rw [hp]; rfl) trivial
  | @lock c r hp hfree =>
    refine h.next rfl (h.exclusive.acquire hfree (by rw [hp]; rfl) rfl) h.whole ?_ trivial
    exact fun _ _ => ⟨rfl, fun _ => rfl⟩
  | found hp hf => exact h.goTo (by rw [hp]; rfl) fun _ => hf
  | miss hp hf => exact h.goTo (by rw [hp]; rfl) hf
  | @fetch c r hp =>
    have hmissing := h.knows c
    rw [hp] at hmissing
    refine h.next (c := c) (p := .fetching r s.tmpSeq) (by simp [Cache.goTo]) ?_ ?_ ?_ ?_
    · simpa [Cache.goTo] using h.exclusive.move (p := .fetching r s.tmpSeq) (by rw [hp]; rfl)
    · simpa [Cache.goTo] using h.whole
    · intro o ho
      rw [hp] at ho
      simpa [Cache.goTo] using temps_of_ne ho
    · show (s.count r).files r.oid = none
      rw [count_files]
      exact hmissing
  | @write c r seq bytes hp =>
    have hmissing := h.knows c
    rw [hp] at hmissing
    refine h.next (Function.update_eq_self c s.phase).symm ?_ h.whole ?_ ?_
    · exact h.exclusive
    · intro o ho
      rw [hp] at ho
      exact ⟨rfl, temps_of_ne ho⟩
    · rw [hp]
      exact hmissing
  | @complete c r seq hp =>
    have hmissing := h.knows c
    rw [hp] at hmissing
    refine h.next rfl (h.exclusive.move (by rw [hp]; rfl)) h.whole ?_ ⟨hmissing, Function.update_self _ _ _⟩
    intro o ho
    rw [hp] at ho
    exact ⟨rfl, temps_of_ne ho⟩
  | fail hp =>
    exact h.goTo (by rw [hp]; rfl) (by intro hok; cases hok)
  | @publish c r seq bytes hp ht =>
    have hfetched := h.knows c
    rw [hp] at hfetched
    have hbytes : bytes = blob r.oid := Option.some.inj (ht.symm.trans hfetched.2)
    refine h.next rfl (h.exclusive.move (by rw [hp]; rfl)) ?_ ?_ ?_
    · intro o b hb
      have hfile : update s.files r.oid (some bytes) o = some b := hb
      by_cases ho : o = r.oid
      · subst ho
        rw [Function.update_self] at hfile
        rw [← Option.some.inj hfile, hbytes]
      · rw [Function.update_of_ne ho] at hfile
        exact h.whole o b hfile
    · intro o ho
      rw [hp] at ho
      have hne : o ≠ r.oid := fun he => ho (by rw [he]; rfl)
      exact ⟨Function.update_of_ne hne _ _, temps_of_ne ho⟩
    · intro _
      exact congrArg Option.isSome (Function.update_self r.oid (some bytes) s.files)
  | @strand c r seq hp =>
    have hfetched := h.knows c
    rw [hp] at hfetched
    refine h.next rfl (h.exclusive.move (by rw [hp]; rfl)) h.whole ?_ hfetched.1
    intro o ho
    rw [hp] at ho
    exact ⟨rfl, temps_of_ne ho⟩
  | lookLast hp => exact h.goTo (by rw [hp]; rfl) id
  | @unlock c r ok hp =>
    refine h.next rfl (h.exclusive.release (by rw [hp]; rfl) rfl) h.whole ?_ trivial
    exact fun _ _ => ⟨rfl, fun _ => rfl⟩

/-- A file under a final name stays as it is. -/
theorem files_step (h : Sound blob s) (hstep : s.step blob e = some t) {bytes : Bytes}
    (hfile : s.files oid = some bytes) : t.files oid = some bytes := by
  have hmoves := moves_of_step hstep
  cases hmoves with
  | call | hit | wait | lock | found | miss | write | complete | fail | strand | lookLast | unlock =>
    exact hfile
  | @fetch c r hp => simpa [goTo] using hfile
  | @publish c r seq b hp ht =>
    have hfetched := h.knows c
    rw [hp] at hfetched
    have hne : oid ≠ r.oid := by
      rintro rfl
      rw [hfetched.1] at hfile
      cases hfile
    exact (Function.update_of_ne hne _ _).trans hfile

/-- Who gets a path finds the file there. -/
theorem file_of_answer (h : Sound blob s) (hstep : s.step blob e = some t)
    (hanswer : s.answer e = some (oid, true)) : t.files oid = some (blob oid) := by
  have ht := sound_step h hstep
  have hsome : (t.files oid).isSome = true := by
    have hmoves := moves_of_step hstep
    cases hmoves with
    | call | lock | found | miss | fetch | write | complete | fail | publish | strand | lookLast => cases hanswer
    | hit hp hf =>
      simp only [answer, hp, hf, if_true, Option.some.injEq, Prod.mk.injEq] at hanswer
      rw [← hanswer.1]
      exact hf
    | @wait c r hp =>
      simp only [answer, hp, Option.ite_none_right_eq_some, Option.some.injEq, Prod.mk.injEq] at hanswer
      rw [← hanswer.2.1]
      exact hanswer.1
    | @unlock c r ok hp =>
      have hreturning := h.knows c
      rw [hp] at hreturning
      simp only [answer, hp, Option.some.injEq, Prod.mk.injEq] at hanswer
      rw [← hanswer.1]
      exact hreturning hanswer.2
  obtain ⟨bytes, hbytes⟩ := Option.isSome_iff_exists.1 hsome
  rw [hbytes, ht.whole oid bytes hbytes]

/-- Nobody has fetched the blob and not published it yet, and there is no file of it. -/
def Settled (oid : ObjectId) (s : Cache) : Prop :=
  s.files oid = none ∧ ∀ c r seq, s.phase c = .fetched r seq → r.oid ≠ oid

theorem Settled.before (h : Settled oid t) (hphase : t.phase = update s.phase c p)
    (hfiles : t.files oid = none → s.files oid = none)
    (hown : ∀ r seq, s.phase c = .fetched r seq → r.oid ≠ oid) : Settled oid s := by
  refine ⟨hfiles h.1, fun d r seq hd => ?_⟩
  by_cases hdc : d = c
  · exact hown r seq (hdc ▸ hd)
  · refine h.2 d r seq ?_
    rw [hphase, Function.update_of_ne hdc, hd]

/-- A fetch that succeeds is of a blob that nobody else has fetched. -/
theorem settled_of_success (h : Sound blob s) (hstep : s.step blob e = some t)
    (he : e.isSuccess oid = true) : Settled oid s := by
  have hmoves := moves_of_step hstep
  cases hmoves with
  | call | hit | wait | lock | found | miss | fetch | write | fail | publish | strand | lookLast | unlock =>
    cases he
  | @complete c r seq hp =>
    obtain rfl : r.oid = oid := eq_of_beq he
    have hfetching := h.knows c
    rw [hp] at hfetching
    refine ⟨hfetching, fun d r' seq' hd heq => ?_⟩
    have hdc : d = c := h.exclusive.unique (k := r.oid) (by rw [hd, ← heq]; rfl) (by rw [hp]; rfl)
    rw [hdc, hp] at hd
    cases hd

/-- Only a failed rename makes room for a second fetch. -/
theorem settled_before (hstep : s.step blob e = some t) (he : e.isFailedRename oid = false)
    (ht : Settled oid t) : Settled oid s := by
  have hmoves := moves_of_step hstep
  cases hmoves with
  | call hp | hit hp | wait hp | lock hp | found hp | miss hp | complete hp | fail hp | lookLast hp
  | unlock hp =>
    refine ht.before rfl id fun r seq hc => ?_
    rw [hp] at hc
    cases hc
  | @fetch c r hp =>
    refine ht.before (c := c) (p := .fetching r s.tmpSeq) (by simp [goTo]) (by simp [goTo]) ?_
    intro r' seq hc
    rw [hp] at hc
    cases hc
  | write hp => exact ht
  | @publish c r seq bytes hp hbytes =>
    have hfile : update s.files r.oid (some bytes) oid = none := ht.1
    have hne : oid ≠ r.oid := by
      rintro rfl
      rw [Function.update_self] at hfile
      cases hfile
    refine ht.before rfl (fun _ => (Function.update_of_ne hne _ _).symm.trans hfile) fun r' seq' hc => ?_
    rw [hp] at hc
    cases hc
    exact hne.symm
  | @strand c r seq hp =>
    refine ht.before rfl id fun r' seq' hc heq => ?_
    rw [hp] at hc
    cases hc
    simp [FlightEvent.isFailedRename, heq] at he

theorem hydrations_step (hstep : s.step blob e = some t) :
    t.hydrations = s.hydrations + (if e.isFetch false then 1 else 0) ∧
      t.hydrateWarms = s.hydrateWarms + (if e.isFetch true then 1 else 0) := by
  have hmoves := moves_of_step hstep
  cases hmoves with
  | call | hit | wait | lock | found | miss | write | complete | fail | publish | strand | lookLast | unlock =>
    exact ⟨rfl, rfl⟩
  | @fetch c r hp => cases hr : r.speculative <;> simp [count, goTo, FlightEvent.isFetch, hr]

/-- What the counters and the fetches so far have to do with each other. -/
structure Tracks (blob : ObjectId → Bytes) (es : List FlightEvent) (s : Cache) : Prop where
  sound : Sound blob s
  hydrations : s.hydrations = es.countP (·.isFetch false)
  hydrateWarms : s.hydrateWarms = es.countP (·.isFetch true)
  most : ∀ oid, es.countP (·.isSuccess oid) ≤ es.countP (·.isFailedRename oid) + 1
  settled : ∀ oid, s.Settled oid → es.countP (·.isSuccess oid) ≤ es.countP (·.isFailedRename oid)

theorem countP_concat (q : FlightEvent → Bool) (es : List FlightEvent) (e : FlightEvent) :
    (es ++ [e]).countP q = es.countP q + if q e then 1 else 0 := by
  rw [List.countP_append, List.countP_singleton]

theorem tracks_start {files : ObjectId → Option Bytes} (temps : ObjectId × Nat → Option Bytes)
    (hfiles : ∀ oid bytes, files oid = some bytes → bytes = blob oid) :
    Tracks blob [] (start files temps) :=
  ⟨sound_start temps hfiles, rfl, rfl, fun _ => Nat.zero_le _, fun _ _ => Nat.le_refl _⟩

theorem tracks_step {es : List FlightEvent} (h : Tracks blob es s) (hstep : s.step blob e = some t) :
    Tracks blob (es ++ [e]) t := by
  obtain ⟨hhydrations, hwarms⟩ := hydrations_step hstep
  have hboth (o : ObjectId) (hs : e.isSuccess o = true) : e.isFailedRename o = false := by
    cases e with
    | fetched c r ok => rfl
    | call | look | lock | lookAgain | fetch | write | publish | lookLast | unlock => cases hs
  refine ⟨sound_step h.sound hstep, ?_, ?_, fun o => ?_, fun o ho => ?_⟩
  · rw [countP_concat, hhydrations, h.hydrations]
  · rw [countP_concat, hwarms, h.hydrateWarms]
  · rw [countP_concat, countP_concat]
    have hmost := h.most o
    by_cases hs : e.isSuccess o = true
    · have hsettled := h.settled o (settled_of_success h.sound hstep hs)
      rw [if_pos hs]
      omega
    · rw [if_neg hs]
      omega
  · rw [countP_concat, countP_concat]
    cases hf : e.isFailedRename o with
    | true =>
      have hmost := h.most o
      have hs : ¬e.isSuccess o = true := fun hs => by rw [hboth o hs] at hf; cases hf
      rw [if_neg hs, if_pos rfl]
      omega
    | false =>
      have hsettled := h.settled o (settled_before hstep hf ho)
      have hs : ¬e.isSuccess o = true := by
        intro hs
        have hmoves := moves_of_step hstep
        cases hmoves with
        | call | hit | wait | lock | found | miss | fetch | write | fail | publish | strand | lookLast
        | unlock => cases hs
        | @complete c r seq hp =>
          exact ho.2 c r seq (Function.update_self _ _ _) (eq_of_beq hs)
      rw [if_neg hs, if_neg Bool.false_ne_true]
      omega

theorem tracks_run {es : List FlightEvent} {files : ObjectId → Option Bytes}
    {temps : ObjectId × Nat → Option Bytes}
    (hfiles : ∀ oid bytes, files oid = some bytes → bytes = blob oid)
    (hrun : Machine.run (step blob) (start files temps) es = some s) : Tracks blob es s := by
  have hh := Machine.run_history (fun s es => Tracks blob es s) (fun e => [e]) (fun _ => True)
    (fun _ _ _ _ _ hi hs => tracks_step hi hs) (fun _ _ => trivial) (tracks_start temps hfiles) hrun
  simpa using hh

end Cache

/-- However the callers' steps fall: unless a rename fails one fetch of a blob succeeds at most, who gets
a path finds the whole blob there, a file in the cache stays as it is, and the two counters together
count the fetches. -/
theorem single_flight (blob : ObjectId → Bytes) (files : ObjectId → Option Bytes)
    (temps : ObjectId × Nat → Option Bytes) (es : List FlightEvent) (s : Cache)
    (hfiles : ∀ oid bytes, files oid = some bytes → bytes = blob oid)
    (hrun : Machine.run (Cache.step blob) (Cache.start files temps) es = some s) :
    (∀ oid, es.countP (·.isSuccess oid) ≤ es.countP (·.isFailedRename oid) + 1) ∧
    (∀ oid, (∀ e ∈ es, e.isFailedRename oid = false) → es.countP (·.isSuccess oid) ≤ 1) ∧
    (∀ e t oid, s.step blob e = some t → s.answer e = some (oid, true) → t.files oid = some (blob oid)) ∧
    (∀ oid bytes, s.files oid = some bytes →
      ∀ es' t, Machine.run (Cache.step blob) s es' = some t → t.files oid = some bytes) ∧
    s.hydrations = es.countP (·.isFetch false) ∧ s.hydrateWarms = es.countP (·.isFetch true) ∧
    s.hydrations + s.hydrateWarms = es.countP (·.isRetrieval) := by
  have ht := Cache.tracks_run hfiles hrun
  refine ⟨ht.most, fun oid hrenames => ?_, fun e t oid hstep => Cache.file_of_answer ht.sound hstep,
    fun oid bytes hfile es' t hrun' => ?_, ht.hydrations, ht.hydrateWarms, ?_⟩
  · have hmost := ht.most oid
    have hzero : es.countP (·.isFailedRename oid) = 0 :=
      List.countP_eq_zero.2 fun e he => by simp [hrenames e he]
    omega
  · refine (Machine.run_invariant (fun s => Cache.Sound blob s ∧ s.files oid = some bytes) (fun _ => True)
      (fun u e v _ hu hstep => ?_) (fun _ _ => trivial) ⟨ht.sound, hfile⟩ hrun').2
    exact ⟨Cache.sound_step hu.1 hstep, Cache.files_step hu.1 hstep hu.2⟩
  · rw [ht.hydrations, ht.hydrateWarms]
    exact FlightEvent.countP_fetch es

/-- A reader on demand and one ahead of demand want one blob; the first fetch fails, and the second
succeeds and is published before the other looks again. -/
theorem single_flight_retried :
    let blob : ObjectId → Bytes := fun _ => [120]
    let demand : Materialize := ⟨⟨[1]⟩, false⟩
    let warm : Materialize := ⟨⟨[1]⟩, true⟩
    let es : List FlightEvent := [.call 0 demand, .call 1 warm, .look 0, .look 1, .lock 0, .lookAgain 0,
      .fetch 0 demand, .write 0 [7], .fetched 0 demand false, .unlock 0, .lock 1, .lookAgain 1,
      .fetch 1 warm, .fetched 1 warm true, .call 0 demand, .publish 1 warm true, .look 0]
    ∃ s, Machine.run (Cache.step blob) (Cache.start (fun _ => none) fun _ => none) es = some s ∧
      (∀ oid, es.countP (·.isSuccess oid) ≤ es.countP (·.isFailedRename oid) + 1) ∧
      (∀ oid, (∀ e ∈ es, e.isFailedRename oid = false) → es.countP (·.isSuccess oid) ≤ 1) ∧
      (∀ e t oid, s.step blob e = some t → s.answer e = some (oid, true) → t.files oid = some (blob oid)) ∧
      (∀ oid bytes, s.files oid = some bytes →
        ∀ es' t, Machine.run (Cache.step blob) s es' = some t → t.files oid = some bytes) ∧
      s.hydrations = es.countP (·.isFetch false) ∧ s.hydrateWarms = es.countP (·.isFetch true) ∧
      s.hydrations + s.hydrateWarms = es.countP (·.isRetrieval) := by
  intro blob demand warm es
  obtain ⟨s, hs⟩ := Option.isSome_iff_exists.1
    (show (Machine.run (Cache.step blob) (Cache.start (fun _ => none) fun _ => none) es).isSome = true by
      decide)
  exact ⟨s, hs, single_flight blob (fun _ => none) (fun _ => none) es s (fun _ _ h => by cases h) hs⟩

end LazyMount
