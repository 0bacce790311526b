import LazyMount.Lib.Ranked

/-! A process between two bounded pipes. Its parent writes all of the input to the one and reads the
other to the end: at the same time, or only once it has written, if no write failed. -/

namespace Streaming

open Machine

variable {α β σ : Type}

/-- What a process does next; a read gets nothing at the end of the input. -/
inductive Move (α β σ : Type) where
  | read (k : Option α → σ)
  | write (b : β) (s : σ)
  | exit (ok : Bool)

/-- Left alone with its input, the process writes the output and exits, in `n` moves before that; the
unread is what it leaves of the input. -/
inductive Produces (next : σ → Move α β σ) : σ → List α → List β → List α → Bool → Nat → Prop
  | exit {s : σ} {input : List α} {ok : Bool} (h : next s = .exit ok) : Produces next s input [] input ok 0
  | write {s s' : σ} {b : β} {input unread : List α} {output : List β} {ok : Bool} {n : Nat}
    (h : next s = .write b s') (hrest : Produces next s' input output unread ok n) :
    Produces next s input (b :: output) unread ok (n + 1)
  | item {s : σ} {k : Option α → σ} {a : α} {input unread : List α} {output : List β} {ok : Bool} {n : Nat}
    (h : next s = .read k) (hrest : Produces next (k (some a)) input output unread ok n) :
    Produces next s (a :: input) output unread ok (n + 1)
  | eof {s : σ} {k : Option α → σ} {output : List β} {unread : List α} {ok : Bool} {n : Nat}
    (h : next s = .read k) (hrest : Produces next (k none) [] output unread ok n) :
    Produces next s [] output unread ok (n + 1)

inductive Status (σ : Type) where
  | running (s : σ)
  | exited (ok : Bool)

/-- What the parent has left to write, whether its end of the pipe is open and whether a write failed, the
two pipes, the process, and what the parent has read, to the end or not yet. -/
structure Exchange (α β σ : Type) where
  rest : List α
  writing : Bool
  broken : Bool
  inbox : List α
  status : Status σ
  outbox : List β
  taken : List β
  eof : Bool

inductive Event where
  | feed
  | hangUp
  | move
  | drain
  | finish
deriving DecidableEq

/-- The sizes of the pipes, and whether the parent reads while it writes. -/
structure Pipes where
  capIn : Nat
  capOut : Nat
  concurrent : Bool

namespace Exchange

def start (input : List α) (s : σ) : Exchange α β σ := ⟨input, true, false, [], .running s, [], [], false⟩

/-- Whether the parent reads. -/
def reads (C : Pipes) (x : Exchange α β σ) : Bool := C.concurrent || !x.writing && !x.broken

/-- A write to a pipe that nobody reads any more fails, and the parent gives up the rest; if it was to read
behind the writes, it does not read at all. -/
def step (C : Pipes) (next : σ → Move α β σ) (x : Exchange α β σ) : Event → Option (Exchange α β σ)
  | .feed =>
    match x.rest, x.status with
    | a :: rest, .running _ =>
      if x.inbox.length < C.capIn then some { x with rest := rest, inbox := x.inbox ++ [a] } else none
    | _ :: _, .exited _ => some { x with rest := [], writing := false, broken := true }
    | [], _ => none
  | .hangUp => if x.rest.isEmpty ∧ x.writing then some { x with writing := false } else none
  | .move =>
    match x.status with
    | .running s =>
      match next s with
      | .read k =>
        match x.inbox with
        | a :: inbox => some { x with inbox := inbox, status := .running (k (some a)) }
        | [] => if x.writing then none else some { x with status := .running (k none) }
      | .write b s' =>
        if x.outbox.length < C.capOut then some { x with outbox := x.outbox ++ [b], status := .running s' }
        else none
      | .exit ok => some { x with status := .exited ok }
    | .exited _ => none
  | .drain =>
    if x.reads C then
      match x.outbox with
      | b :: outbox => some { x with outbox := outbox, taken := x.taken ++ [b] }
      | [] => none
    else none
  | .finish =>
    match x.status with
    | .exited _ =>
      if x.reads C ∧ x.outbox.isEmpty ∧ ¬ x.eof then some { x with eof := true } else none
    | .running _ => none

end Exchange

variable {next : σ → Move α β σ}

section Produces

variable {s s' : σ} {k : Option α → σ} {a : α} {b : β} {input unread : List α} {output : List β} {ok ok' : Bool}
  {n : Nat}

theorem Produces.of_item (h : Produces next s (a :: input) output unread ok n) (hs : next s = .read k) :
    ∃ m, n = m + 1 ∧ Produces next (k (some a)) input output unread ok m := by
  cases h with
  | item g hrest =>
    rw [hs] at g
    cases g
    exact ⟨_, rfl, hrest⟩
  | exit g | write g _ =>
    rw [hs] at g
    cases g

theorem Produces.of_eof (h : Produces next s [] output unread ok n) (hs : next s = .read k) :
    ∃ m, n = m + 1 ∧ Produces next (k none) [] output unread ok m := by
  cases h with
  | eof g hrest =>
    rw [hs] at g
    cases g
    exact ⟨_, rfl, hrest⟩
  | exit g | write g _ =>
    rw [hs] at g
    cases g

theorem Produces.of_write (h : Produces next s input output unread ok n) (hs : next s = .write b s') :
    ∃ out m, output = b :: out ∧ n = m + 1 ∧ Produces next s' input out unread ok m := by
  cases h with
  | write g hrest =>
    rw [hs] at g
    cases g
    exact ⟨_, _, rfl, rfl, hrest⟩
  | exit g | item g _ | eof g _ =>
    rw [hs] at g
    cases g

theorem Produces.of_exit (h : Produces next s input output unread ok n) (hs : next s = .exit ok') :
    output = [] ∧ input = unread ∧ ok' = ok ∧ n = 0 := by
  cases h with
  | exit g =>
    rw [hs] at g
    cases g
    exact ⟨rfl, rfl, rfl, rfl⟩
  | write g _ | item g _ | eof g _ =>
    rw [hs] at g
    cases g

/-- A process makes a number of moves only. -/
theorem Produces.unique {output' : List β} {unread' : List α} {n' : Nat}
    (h : Produces next s input output unread ok n) (h' : Produces next s input output' unread' ok' n') :
    n = n' := by
  induction h generalizing output' n' with
  | exit h =>
    obtain ⟨-, -, -, rfl⟩ := h'.of_exit h
    rfl
  | write h _ ih =>
    obtain ⟨out, m, rfl, rfl, hrest⟩ := h'.of_write h
    rw [ih hrest]
  | item h _ ih =>
    obtain ⟨m, rfl, hrest⟩ := h'.of_item h
    rw [ih hrest]
  | eof h _ ih =>
    obtain ⟨m, rfl, hrest⟩ := h'.of_eof h
    rw [ih hrest]

end Produces

open Classical in
/-- How many moves a process that exits has left. -/
noncomputable def movesLeft (next : σ → Move α β σ) (s : σ) (input : List α) : Nat :=
  if h : ∃ n output unread ok, Produces next s input output unread ok n then h.choose else 0

theorem Produces.movesLeft_eq {s : σ} {input unread : List α} {output : List β} {ok : Bool} {n : Nat}
    (h : Produces next s input output unread ok n) : movesLeft next s input = n := by
  have hex : ∃ n output unread ok, Produces next s input output unread ok n := ⟨n, output, unread, ok, h⟩
  rw [movesLeft, dif_pos hex]
  obtain ⟨output', unread', ok', h'⟩ := hex.choose_spec
  exact (h'.unique h)

namespace Exchange

variable {C : Pipes} {x y : Exchange α β σ} {output : List β} {unread : List α} {ok : Bool}

/-- The process still produces what the parent has not read of the output, and a write of the parent
fails only where it leaves some of the input. -/
def Awaits (next : σ → Move α β σ) (output : List β) (unread : List α) (ok : Bool) (x : Exchange α β σ) : Prop :=
  match x.status with
  | .running s => x.broken = false ∧
    ∃ out n, Produces next s (x.inbox ++ x.rest) out unread ok n ∧ x.taken ++ x.outbox ++ out = output
  | .exited ok' => ok' = ok ∧ x.taken ++ x.outbox = output ∧
    (x.inbox ++ x.rest = unread ∧ x.broken = false ∨ unread ≠ [] ∧ x.rest = [])

structure Sound (C : Pipes) (next : σ → Move α β σ) (output : List β) (unread : List α) (ok : Bool)
    (x : Exchange α β σ) : Prop where
  closed : x.writing = false → x.rest = []
  awaits : x.Awaits next output unread ok
  ended : x.eof = true → x.outbox = [] ∧ ∃ ok, x.status = .exited ok
  idle : x.reads C = false → x.taken = [] ∧ x.eof = false

noncomputable def left (next : σ → Move α β σ) (x : Exchange α β σ) : Nat :=
  match x.status with
  | .running s => 2 * movesLeft next s (x.inbox ++ x.rest) + 1
  | .exited _ => 0

/-- Two for each move of the process, which may add an item to read. -/
noncomputable def rank (next : σ → Move α β σ) (x : Exchange α β σ) : Nat :=
  x.left next + x.rest.length + x.writing.toNat + x.outbox.length + (!x.eof).toNat

inductive Moves (C : Pipes) (next : σ → Move α β σ) (x : Exchange α β σ) : Event → Exchange α β σ → Prop
  | feed {a : α} {rest : List α} {s : σ} (hrest : x.rest = a :: rest) (hs : x.status = .running s)
    (hroom : x.inbox.length < C.capIn) : Moves C next x .feed { x with rest := rest, inbox := x.inbox ++ [a] }
  | giveUp {a : α} {rest : List α} {ok : Bool} (hrest : x.rest = a :: rest) (hs : x.status = .exited ok) :
    Moves C next x .feed { x with rest := [], writing := false, broken := true }
  | hangUp (hrest : x.rest = []) (hw : x.writing = true) : Moves C next x .hangUp { x with writing := false }
  | read {s : σ} {k : Option α → σ} {a : α} {inbox : List α} (hs : x.status = .running s)
    (hnext : next s = .read k) (hin : x.inbox = a :: inbox) :
    Moves C next x .move { x with inbox := inbox, status := .running (k (some a)) }
  | readEnd {s : σ} {k : Option α → σ} (hs : x.status = .running s) (hnext : next s = .read k)
    (hin : x.inbox = []) (hw : x.writing = false) : Moves C next x .move { x with status := .running (k none) }
  | write {s s' : σ} {b : β} (hs : x.status = .running s) (hnext : next s = .write b s')
    (hroom : x.outbox.length < C.capOut) :
    Moves C next x .move { x with outbox := x.outbox ++ [b], status := .running s' }
  | exit {s : σ} {ok : Bool} (hs : x.status = .running s) (hnext : next s = .exit ok) :
    Moves C next x .move { x with status := .exited ok }
  | drain {b : β} {outbox : List β} (hout : x.outbox = b :: outbox) (hc : x.reads C = true) :
    Moves C next x .drain { x with outbox := outbox, taken := x.taken ++ [b] }
  | finish {ok : Bool} (hs : x.status = .exited ok) (hout : x.outbox = []) (he : x.eof = false)
    (hc : x.reads C = true) : Moves C next x .finish { x with eof := true }

theorem step_iff {e : Event} : x.step C next e = some y ↔ Moves C next x e y := by
  constructor
  · intro h
    cases e with
    | feed =>
      simp only [step] at h
      split at h
      · rename_i a rest s hrest hs
        split at h
        · cases h
          exact .feed hrest hs ‹_›
        · cases h
      · cases h
        exact .giveUp ‹_› ‹_›
      · cases h
    | hangUp =>
      simp only [step, List.isEmpty_iff] at h
      split at h
      · rename_i hc
        cases h
        exact .hangUp hc.1 hc.2
      · cases h
    | move =>
      simp only [step] at h
      split at h
      · rename_i s hs
        split at h
        · rename_i k hk
          split at h
          · cases h
            exact .read hs hk ‹_›
          · split at h
            · cases h
            · rename_i hin hw
              cases h
              exact .readEnd hs hk hin (by simpa using hw)
        · rename_i b s' hk
          split at h
          · cases h
            exact .write hs hk ‹_›
          · cases h
        · cases h
          exact .exit hs ‹_›
      · cases h
    | drain =>
      simp only [step] at h
      split at h
      · rename_i hc
        split at h
        · cases h
          exact .drain ‹_› hc
        · cases h
      · cases h
    | finish =>
      simp only [step, List.isEmpty_iff] at h
      split at h
      · rename_i hs
        split at h
        · rename_i hc
          cases h
          exact .finish hs hc.2.1 (by simpa using hc.2.2) hc.1
        · cases h
      · cases h
  · intro h
    cases h with
    | feed hrest hs hroom => simp [step, hrest, hs, hroom]
    | giveUp hrest hs => simp [step, hrest, hs]
    | hangUp hrest hw => simp [step, hrest, hw]
    | read hs hnext hin => simp [step, hs, hnext, hin]
    | readEnd hs hnext hin hw => simp [step, hs, hnext, hin, hw]
    | write hs hnext hroom => simp [step, hs, hnext, hroom]
    | exit hs hnext => simp [step, hs, hnext]
    | drain hout hc => simp [step, hout, hc]
    | finish hs hout he hc => simp [step, hs, hout, he, hc]

theorem sound_start {input : List α} {s : σ} {n : Nat} (h : Produces next s input output unread ok n) :
    (start input s).Sound C next output unread ok :=
  ⟨by simp [start], ⟨rfl, output, n, by simpa [start] using h, by simp [start]⟩, by simp [start],
    fun _ => ⟨rfl, rfl⟩⟩

theorem Sound.step {e : Event} (hx : x.Sound C next output unread ok) (h : x.step C next e = some y) :
    y.Sound C next output unread ok := by
  obtain ⟨hclosed, hawaits, hended, hidle⟩ := hx
  have hrunning : ∀ s, x.status = .running s → x.eof = false := by
    intro s hs
    by_contra he
    obtain ⟨-, ok', hok⟩ := hended (by simpa using he)
    rw [hs] at hok
    cases hok
  cases step_iff.mp h with
  | feed hrest hs hroom =>
    refine ⟨fun hw => absurd (hclosed hw) (by simp [hrest]), ?_, fun he => absurd he (by simp [hrunning _ hs]), hidle⟩
    simp only [Awaits, hs] at hawaits ⊢
    simpa [hrest] using hawaits
  | giveUp hrest hs =>
    refine ⟨fun _ => rfl, ?_, fun he => hended he, fun hreads => hidle ?_⟩
    · simp only [Awaits, hs, hrest] at hawaits ⊢
      obtain ⟨hok, hout, hleft⟩ := hawaits
      refine ⟨hok, hout, .inr ⟨?_, trivial⟩⟩
      rcases hleft with ⟨rfl, -⟩ | ⟨hne, -⟩
      · simp
      · exact hne
    · -- it had not written all, so it has not begun to read
      have hwriting : x.writing = true := by
        by_contra hw
        have hnil := hclosed (by simpa using hw)
        rw [hrest] at hnil
        cases hnil
      simp only [reads, Bool.or_eq_false_iff] at hreads ⊢
      simp [hreads.1, hwriting]
  | hangUp hrest hw =>
    refine ⟨fun _ => hrest, hawaits, hended, fun hreads => hidle ?_⟩
    simp only [reads, Bool.or_eq_false_iff] at hreads ⊢
    simp [hreads.1, hw]
  | read hs hnext hin =>
    refine ⟨hclosed, ?_, fun he => absurd he (by simp [hrunning _ hs]), hidle⟩
    simp only [Awaits, hs, hin, List.cons_append] at hawaits
    obtain ⟨hbroken, out, n, hprod, hout⟩ := hawaits
    obtain ⟨m, -, hrest⟩ := hprod.of_item hnext
    exact ⟨hbroken, out, m, hrest, hout⟩
  | readEnd hs hnext hin hw =>
    refine ⟨hclosed, ?_, fun he => absurd he (by simp [hrunning _ hs]), hidle⟩
    simp only [Awaits, hs, hin, hclosed hw, List.append_nil] at hawaits
    obtain ⟨hbroken, out, n, hprod, hout⟩ := hawaits
    obtain ⟨m, -, hrest⟩ := hprod.of_eof hnext
    exact ⟨hbroken, out, m, by simpa [hin, hclosed hw] using hrest, hout⟩
  | write hs hnext hroom =>
    refine ⟨hclosed, ?_, fun he => absurd he (by simp [hrunning _ hs]), hidle⟩
    simp only [Awaits, hs] at hawaits
    obtain ⟨hbroken, out, n, hprod, hout⟩ := hawaits
    obtain ⟨out', m, rfl, -, hrest⟩ := hprod.of_write hnext
    exact ⟨hbroken, out', m, hrest, by simpa using hout⟩
  | exit hs hnext =>
    refine ⟨hclosed, ?_, fun he => absurd he (by simp [hrunning _ hs]), hidle⟩
    simp only [Awaits, hs] at hawaits
    obtain ⟨hbroken, out, n, hprod, hout⟩ := hawaits
    obtain ⟨rfl, hunread, hok, -⟩ := hprod.of_exit hnext
    exact ⟨hok, by simpa using hout, .inl ⟨hunread, hbroken⟩⟩
  | drain hout hc =>
    refine ⟨hclosed, ?_, fun he => absurd (hended he).1 (by simp [hout]), fun hreads => ?_⟩
    · simp only [Awaits, hout] at hawaits ⊢
      cases hs : x.status with
      | running s => simpa [hs] using hawaits
      | exited ok' => simpa [hs] using hawaits
    · cases hc.symm.trans hreads
  | finish hs hout he hc =>
    exact ⟨hclosed, hawaits, fun _ => ⟨hout, _, hs⟩, fun hreads => nomatch hc.symm.trans hreads⟩

theorem ranked : Ranked (step C next) (fun _ => True) (Sound C next output unread ok) (rank next) where
  keeps _ _ _ hx h := hx.step h
  lowers := by
    intro x e y _ hx h
    have hawaits := hx.awaits
    cases step_iff.mp h with
    | feed hrest hs hroom =>
      simp only [rank, left, hs, hrest, List.append_assoc, List.singleton_append, List.length_cons]
      omega
    | giveUp hrest hs =>
      simp only [rank, left, hs, hrest, List.length_cons, List.length_nil, Bool.toNat_false]
      omega
    | hangUp hrest hw =>
      simp only [rank, left, hw, Bool.toNat_true, Bool.toNat_false]
      omega
    | read hs hnext hin =>
      simp only [Awaits, hs, hin, List.cons_append] at hawaits
      obtain ⟨-, out, n, hprod, -⟩ := hawaits
      obtain ⟨m, rfl, hrest⟩ := hprod.of_item hnext
      simp only [rank, left, hs, hin, List.cons_append, hprod.movesLeft_eq, hrest.movesLeft_eq]
      omega
    | readEnd hs hnext hin hw =>
      simp only [Awaits, hs, hin, hx.closed hw, List.append_nil] at hawaits
      obtain ⟨-, out, n, hprod, -⟩ := hawaits
      obtain ⟨m, rfl, hrest⟩ := hprod.of_eof hnext
      simp only [rank, left, hs, hin, hx.closed hw, List.append_nil, hprod.movesLeft_eq, hrest.movesLeft_eq]
      omega
    | write hs hnext hroom =>
      simp only [Awaits, hs] at hawaits
      obtain ⟨-, out, n, hprod, -⟩ := hawaits
      obtain ⟨out', m, rfl, rfl, hrest⟩ := hprod.of_write hnext
      simp only [rank, left, hs, hprod.movesLeft_eq, hrest.movesLeft_eq, List.length_append, List.length_singleton]
      omega
    | exit hs hnext =>
      simp only [rank, left, hs]
      omega
    | drain hout hc =>
      simp only [rank, left, hout, List.length_cons]
      omega
    | finish hs hout he hc =>
      simp only [rank, left, hs, he, Bool.not_false, Bool.not_true, Bool.toNat_true, Bool.toNat_false]
      omega

/-- With room for an item in each pipe, and for all of the output if the parent does not read while it
writes, nobody waits for ever; and where the parent reads, it has read the output. -/
theorem completed_of_atRest (hx : x.Sound C next output unread ok) (hin : 0 < C.capIn) (hout : 0 < C.capOut)
    (hc : C.concurrent = true ∨ output.length ≤ C.capOut) (hrest : AtRest (step C next) (fun _ => True) x) :
    x.writing = false ∧ x.status = .exited ok ∧ (x.broken = true → unread ≠ []) ∧
      (x.reads C = true → x.eof = true ∧ x.taken = output) := by
  have hstuck : ∀ e y, ¬ Moves C next x e y := by
    intro e y hm
    have hnone := hrest e trivial
    rw [step_iff.mpr hm] at hnone
    cases hnone
  have hwriting : (x.inbox = [] ∨ ∃ ok, x.status = .exited ok) → x.writing = false := by
    intro hempty
    by_contra hw
    cases hr : x.rest with
    | nil => exact hstuck _ _ (.hangUp hr (by simpa using hw))
    | cons a rest =>
      cases hs : x.status with
      | running s =>
        have hnil : x.inbox = [] := hempty.resolve_right fun h => by simp [hs] at h
        exact hstuck _ _ (.feed hr hs (by simpa [hnil] using hin))
      | exited ok' => exact hstuck _ _ (.giveUp hr hs)
  have hawaits := hx.awaits
  cases hs : x.status with
  | running s =>
    simp only [Awaits, hs] at hawaits
    obtain ⟨-, out, n, hprod, hsplit⟩ := hawaits
    cases hnext : next s with
    | read k =>
      cases hi : x.inbox with
      | nil => exact (hstuck _ _ (.readEnd hs hnext hi (hwriting (.inl hi)))).elim
      | cons a inbox => exact (hstuck _ _ (.read hs hnext hi)).elim
    | write b s' =>
      have hfull : C.capOut ≤ x.outbox.length := by
        by_contra hroom
        exact hstuck _ _ (.write hs hnext (by omega))
      obtain ⟨out', m, rfl, -, -⟩ := hprod.of_write hnext
      rcases hc with hc | hc
      · cases ho : x.outbox with
        | nil =>
          rw [ho] at hfull
          simp at hfull
          omega
        | cons b' outbox => exact (hstuck _ _ (.drain ho (by simp [reads, hc]))).elim
      · have hlen := congrArg List.length hsplit
        simp only [List.length_append, List.length_cons] at hlen
        omega
    | exit ok' => exact (hstuck _ _ (.exit hs hnext)).elim
  | exited ok' =>
    simp only [Awaits, hs] at hawaits
    obtain ⟨rfl, hsplit, hleft⟩ := hawaits
    refine ⟨hwriting (.inr ⟨_, hs⟩), rfl, fun hbroken => ?_, fun hreads => ?_⟩
    · rcases hleft with ⟨-, hfine⟩ | ⟨hne, -⟩
      · simp [hbroken] at hfine
      · exact hne
    · cases ho : x.outbox with
      | cons b outbox => exact (hstuck _ _ (.drain ho hreads)).elim
      | nil =>
        have he : x.eof = true := by
          by_contra he
          exact hstuck _ _ (.finish hs ho (by simpa using he) hreads)
        exact ⟨he, by simpa [ho] using hsplit⟩

end Exchange

end Streaming
