import LazyMount.Lib.KeyedLock
import LazyMount.Lib.Ranked
import LazyMount.Lib.Tally
import LazyMount.Overlay
import Mathlib.Algebra.Order.BigOperators.Group.Finset

/-! The sizes of blobs, asked of git once each: callers of `cached_size` share the lock of a blob with those
that materialize it. -/

namespace LazyMount

open Function (update)

/-- Where a caller is in `cached_size`, or in `materialize_path_inner` with regard to the lock. -/
inductive SizePoint where
  | idle
  | called (oid : ObjectId)
  | waiting (oid : ObjectId)
  /-- It has the lock, and looks again. -/
  | locked (oid : ObjectId)
  | missing (oid : ObjectId)
  | sized (oid : ObjectId) (sz : Nat)
  | counted (oid : ObjectId) (sz : Nat)
  /-- It returns, and the lock is released. -/
  | returning (oid : ObjectId) (r : Option Nat)
  | wantsFile (oid : ObjectId)
  | fillsFile (oid : ObjectId)
deriving DecidableEq, Repr

namespace SizePoint

def lockOf : SizePoint → Option ObjectId
  | .idle | .called _ | .waiting _ | .wantsFile _ => none
  | .locked oid | .missing oid | .sized oid _ | .counted oid _ | .returning oid _ | .fillsFile oid => some oid

/-- How many more steps the caller takes, if nobody is in its way. -/
def pending : SizePoint → Nat
  | .idle => 0
  | .called _ => 7
  | .waiting _ => 6
  | .locked _ => 5
  | .missing _ => 4
  | .sized _ _ => 3
  | .counted _ _ => 2
  | .returning _ _ => 1
  | .wantsFile _ => 2
  | .fillsFile _ => 1

/-- It has a size that is not counted yet. -/
def uncounted : SizePoint → Nat
  | .sized _ _ => 1
  | .idle | .called _ | .waiting _ | .locked _ | .missing _ | .counted _ _ | .returning _ _ | .wantsFile _ |
    .fillsFile _ => 0

end SizePoint

/-- `size_cache`, the locks, the callers and `size_faults`. -/
structure SizeCache where
  sizes : ObjectId → Option Nat
  holder : ObjectId → Option Nat
  point : Nat → SizePoint
  sizeFaults : Nat

inductive SizeEvent where
  | call (c : Nat) (oid : ObjectId)
  | look (c : Nat) (oid : ObjectId) (found : Option Nat)
  | lock (c : Nat) (oid : ObjectId)
  | lookAgain (c : Nat) (oid : ObjectId) (found : Option Nat)
  /-- `object_size` returns, with an error or a size. -/
  | size (c : Nat) (oid : ObjectId) (r : Option Nat)
  | count (c : Nat) (oid : ObjectId) (sz : Nat)
  | insert (c : Nat) (oid : ObjectId) (sz : Nat)
  | unlock (c : Nat) (oid : ObjectId) (r : Option Nat)
  | materialize (c : Nat) (oid : ObjectId)
  | lockFile (c : Nat) (oid : ObjectId)
  | unlockFile (c : Nat) (oid : ObjectId)
deriving DecidableEq

namespace SizeEvent

/-- What the callers do by themselves. -/
def Inner : SizeEvent → Prop
  | .call _ _ | .materialize _ _ => False
  | .look _ _ _ | .lock _ _ | .lookAgain _ _ _ | .size _ _ _ | .count _ _ _ | .insert _ _ _ | .unlock _ _ _ |
    .lockFile _ _ | .unlockFile _ _ => True

/-- What a caller of `cached_size` gets. -/
def answer : SizeEvent → Option (ObjectId × Option Nat)
  | .look _ oid (some sz) => some (oid, some sz)
  | .unlock _ oid r => some (oid, r)
  | _ => none

def fetched : SizeEvent → List ObjectId
  | .size _ oid (some _) => [oid]
  | _ => []

end SizeEvent

namespace SizeCache

def start : SizeCache := ⟨fun _ => none, fun _ => none, fun _ => .idle, 0⟩

def goTo (s : SizeCache) (c : Nat) (p : SizePoint) : SizeCache := { s with point := update s.point c p }

/-- With `n` callers at most; where git tells a size, it is the blob's. -/
def step (size : ObjectId → Nat) (n : Nat) (s : SizeCache) : SizeEvent → Option SizeCache
  | .call c oid => if c < n ∧ s.point c = .idle then some (s.goTo c (.called oid)) else none
  | .look c oid found =>
    if s.point c = .called oid ∧ s.sizes oid = found then
      some (s.goTo c (if found.isSome then .idle else .waiting oid))
    else none
  | .lock c oid =>
    if s.point c = .waiting oid ∧ s.holder oid = none then
      some { s.goTo c (.locked oid) with holder := update s.holder oid (some c) }
    else none
  | .lookAgain c oid found =>
    if s.point c = .locked oid ∧ s.sizes oid = found then
      some (s.goTo c (if found.isSome then .returning oid found else .missing oid))
    else none
  | .size c oid r =>
    if s.point c = .missing oid then
      match r with
      | some sz => if sz = size oid then some (s.goTo c (.sized oid sz)) else none
      | none => some (s.goTo c (.returning oid none))
    else none
  | .count c oid sz =>
    if s.point c = .sized oid sz then
      some { s.goTo c (.counted oid sz) with sizeFaults := s.sizeFaults + 1 }
    else none
  | .insert c oid sz =>
    if s.point c = .counted oid sz then
      some { s.goTo c (.returning oid (some sz)) with sizes := update s.sizes oid (some sz) }
    else none
  | .unlock c oid r =>
    if s.point c = .returning oid r then
      some { s.goTo c .idle with holder := update s.holder oid none }
    else none
  | .materialize c oid => if c < n ∧ s.point c = .idle then some (s.goTo c (.wantsFile oid)) else none
  | .lockFile c oid =>
    if s.point c = .wantsFile oid ∧ s.holder oid = none then
      some { s.goTo c (.fillsFile oid) with holder := update s.holder oid (some c) }
    else none
  | .unlockFile c oid =>
    if s.point c = .fillsFile oid then some { s.goTo c .idle with holder := update s.holder oid none } else none

/-- The blobs whose sizes git told, in order. -/
def fetched (es : List SizeEvent) : List ObjectId := es.flatMap SizeEvent.fetched

/-- What a step does: one caller moves, with the lock that it had, took or released. -/
inductive Moves (size : ObjectId → Nat) (n : Nat) (s : SizeCache) : SizeEvent → SizeCache → Prop
  | call {c : Nat} {oid : ObjectId} (hc : c < n) (h : s.point c = .idle) :
    Moves size n s (.call c oid) (s.goTo c (.called oid))
  | hit {c : Nat} {oid : ObjectId} {sz : Nat} (h : s.point c = .called oid) (hfound : s.sizes oid = some sz) :
    Moves size n s (.look c oid (some sz)) (s.goTo c .idle)
  | miss {c : Nat} {oid : ObjectId} (h : s.point c = .called oid) (hfound : s.sizes oid = none) :
    Moves size n s (.look c oid none) (s.goTo c (.waiting oid))
  | lock {c : Nat} {oid : ObjectId} (h : s.point c = .waiting oid) (hfree : s.holder oid = none) :
    Moves size n s (.lock c oid) { s.goTo c (.locked oid) with holder := update s.holder oid (some c) }
  | late {c : Nat} {oid : ObjectId} {sz : Nat} (h : s.point c = .locked oid) (hfound : s.sizes oid = some sz) :
    Moves size n s (.lookAgain c oid (some sz)) (s.goTo c (.returning oid (some sz)))
  | first {c : Nat} {oid : ObjectId} (h : s.point c = .locked oid) (hfound : s.sizes oid = none) :
    Moves size n s (.lookAgain c oid none) (s.goTo c (.missing oid))
  | size {c : Nat} {oid : ObjectId} (h : s.point c = .missing oid) :
    Moves size n s (.size c oid (some (size oid))) (s.goTo c (.sized oid (size oid)))
  | fail {c : Nat} {oid : ObjectId} (h : s.point c = .missing oid) :
    Moves size n s (.size c oid none) (s.goTo c (.returning oid none))
  | count {c : Nat} {oid : ObjectId} {sz : Nat} (h : s.point c = .sized oid sz) :
    Moves size n s (.count c oid sz) { s.goTo c (.counted oid sz) with sizeFaults := s.sizeFaults + 1 }
  | insert {c : Nat} {oid : ObjectId} {sz : Nat} (h : s.point c = .counted oid sz) :
    Moves size n s (.insert c oid sz)
      { s.goTo c (.returning oid (some sz)) with sizes := update s.sizes oid (some sz) }
  | unlock {c : Nat} {oid : ObjectId} {r : Option Nat} (h : s.point c = .returning oid r) :
    Moves size n s (.unlock c oid r) { s.goTo c .idle with holder := update s.holder oid none }
  | materialize {c : Nat} {oid : ObjectId} (hc : c < n) (h : s.point c = .idle) :
    Moves size n s (.materialize c oid) (s.goTo c (.wantsFile oid))
  | lockFile {c : Nat} {oid : ObjectId} (h : s.point c = .wantsFile oid) (hfree : s.holder oid = none) :
    Moves size n s (.lockFile c oid) { s.goTo c (.fillsFile oid) with holder := update s.holder oid (some c) }
  | unlockFile {c : Nat} {oid : ObjectId} (h : s.point c = .fillsFile oid) :
    Moves size n s (.unlockFile c oid) { s.goTo c .idle with holder := update s.holder oid none }

variable {size : ObjectId → Nat} {n : Nat} {s t : SizeCache} {e : SizeEvent}

theorem moves_of_step (h : s.step size n e = some t) : Moves size n s e t := by
  cases e <;> simp only [step, Option.ite_none_right_eq_some] at h
  case look c oid found =>
    obtain ⟨⟨hp, hfound⟩, ht⟩ := h
    cases ht
    cases found with
    | none => exact .miss hp hfound
    | some sz => exact .hit hp hfound
  case lock =>
    obtain ⟨⟨hp, hfree⟩, ht⟩ := h
    cases ht
    exact .lock hp hfree
  case lookAgain c oid found =>
    obtain ⟨⟨hp, hfound⟩, ht⟩ := h
    cases ht
    cases found with
    | none => exact .first hp hfound
    | some sz => exact .late hp hfound
  case size c oid r =>
    obtain ⟨hp, ht⟩ := h
    cases r with
    | none =>
      cases ht
      exact .fail hp
    | some sz =>
      simp only [Option.ite_none_right_eq_some] at ht
      obtain ⟨rfl, ht⟩ := ht
      cases ht
      exact .size hp
  all_goals
    obtain ⟨hp, ht⟩ := h
    cases ht
  case call => exact .call hp.1 hp.2
  case count => exact .count hp
  case insert => exact .insert hp
  case unlock => exact .unlock hp
  case materialize => exact .materialize hp.1 hp.2
  case lockFile => exact .lockFile hp.1 hp.2
  case unlockFile => exact .unlockFile hp

end SizeCache

namespace SizePoint

/-- Git told the size, and it is not in the cache yet. -/
def Has (oid : ObjectId) (p : SizePoint) : Prop := ∃ sz, p = .sized oid sz ∨ p = .counted oid sz

def Knows (size : ObjectId → Nat) (sizes : ObjectId → Option Nat) : SizePoint → Prop
  | .missing oid => sizes oid = none
  | .sized oid sz | .counted oid sz => sizes oid = none ∧ sz = size oid
  | .returning oid r => ∀ sz, r = some sz → sizes oid = some sz
  | .idle | .called _ | .waiting _ | .locked _ | .wantsFile _ | .fillsFile _ => True

variable {size : ObjectId → Nat} {sizes : ObjectId → Option Nat} {p : SizePoint} {oid : ObjectId}

theorem Has.lockOf (h : p.Has oid) : p.lockOf = some oid := by
  obtain ⟨sz, rfl | rfl⟩ := h <;> rfl

theorem Has.absent (h : p.Has oid) (hk : p.Knows size sizes) : sizes oid = none := by
  obtain ⟨sz, rfl | rfl⟩ := h <;> exact hk.1

/-- What a caller knows is about the blob whose lock it has. -/
theorem Knows.frame (h : p.Knows size sizes) (hlock : p.lockOf ≠ some oid) (r : Option Nat) :
    p.Knows size (update sizes oid r) := by
  cases p with
  | missing o | sized o sz | counted o sz | returning o sz =>
    have hne : o ≠ oid := fun heq => hlock (by rw [heq]; rfl)
    simpa only [Knows, Function.update_of_ne hne] using h
  | idle | called | waiting | locked | wantsFile | fillsFile => exact h

end SizePoint

namespace SizeCache

variable {size : ObjectId → Nat} {n c : Nat} {s t : SizeCache} {e : SizeEvent} {p : SizePoint} {oid : ObjectId}

structure Sound (size : ObjectId → Nat) (n : Nat) (s : SizeCache) : Prop where
  exclusive : KeyedLock.Exclusive SizePoint.lockOf s.holder s.point
  bounded : ∀ c, s.point c ≠ .idle → c < n
  true_size : ∀ oid sz, s.sizes oid = some sz → sz = size oid
  knows : ∀ c, (s.point c).Knows size s.sizes

theorem sound_start (size : ObjectId → Nat) (n : Nat) : start.Sound size n :=
  ⟨fun _ _ => by simp [start, SizePoint.lockOf], by simp [start], by simp [start], fun _ => trivial⟩

theorem bounded_update (h : s.Sound size n) (hc : c < n) : ∀ d, update s.point c p d ≠ .idle → d < n := by
  intro d hd
  by_cases hdc : d = c
  · rwa [hdc]
  · rw [Function.update_of_ne hdc] at hd
    exact h.bounded d hd

theorem knows_update (h : s.Sound size n) (hp : p.Knows size s.sizes) :
    ∀ d, (update s.point c p d).Knows size s.sizes := by
  intro d
  by_cases hdc : d = c
  · rwa [hdc, Function.update_self]
  · rw [Function.update_of_ne hdc]
    exact h.knows d

theorem Sound.goTo (h : s.Sound size n) (hc : c < n) (hlock : p.lockOf = (s.point c).lockOf)
    (hp : p.Knows size s.sizes) : (s.goTo c p).Sound size n :=
  ⟨h.exclusive.move hlock, bounded_update h hc, h.true_size, knows_update h hp⟩

theorem Sound.acquire (h : s.Sound size n) (hc : c < n) (hfree : s.holder oid = none)
    (hnone : (s.point c).lockOf = none) (hlock : p.lockOf = some oid) (hp : p.Knows size s.sizes) :
    Sound size n { s.goTo c p with holder := update s.holder oid (some c) } :=
  ⟨h.exclusive.acquire hfree hnone hlock, bounded_update h hc, h.true_size, knows_update h hp⟩

theorem Sound.release (h : s.Sound size n) (hc : c < n) (hlock : (s.point c).lockOf = some oid) :
    Sound size n { s.goTo c .idle with holder := update s.holder oid none } :=
  ⟨h.exclusive.release hlock rfl, bounded_update h hc, h.true_size, knows_update h trivial⟩

theorem Sound.insert (h : s.Sound size n) {sz : Nat} (hp : s.point c = .counted oid sz) :
    Sound size n { s.goTo c (.returning oid (some sz)) with sizes := update s.sizes oid (some sz) } := by
  have hlock : (s.point c).lockOf = some oid := by rw [hp]; rfl
  have hc : c < n := h.bounded c (by simp [hp])
  have hsize : sz = size oid := by
    have hknows := h.knows c
    rw [hp] at hknows
    exact hknows.2
  refine ⟨h.exclusive.move hlock.symm, bounded_update h hc, fun o r hr => ?_, fun d => ?_⟩
  · by_cases ho : o = oid
    · simp only [ho, Function.update_self, Option.some.injEq] at hr
      rw [ho, ← hr, hsize]
    · simp only [Function.update_of_ne ho] at hr
      exact h.true_size o r hr
  · by_cases hd : d = c
    · simp only [SizeCache.goTo, hd, Function.update_self]
      rintro r hr
      cases hr
      rw [Function.update_self]
    · simp only [SizeCache.goTo, Function.update_of_ne hd]
      exact (h.knows d).frame (fun hdl => hd (h.exclusive.unique hdl hlock)) _

theorem Sound.step (h : s.Sound size n) (hstep : s.step size n e = some t) : t.Sound size n := by
  have hbounded : ∀ {c p}, s.point c = p → p ≠ .idle → c < n := fun hp hne => h.bounded _ (by rwa [hp])
  cases moves_of_step hstep with
  | call hc hp | materialize hc hp => exact h.goTo hc (by rw [hp]; rfl) trivial
  | hit hp | miss hp => exact h.goTo (hbounded hp (by simp)) (by rw [hp]; rfl) trivial
  | lock hp hfree | lockFile hp hfree =>
    exact h.acquire (hbounded hp (by simp)) hfree (by rw [hp]; rfl) rfl trivial
  | @late c oid sz hp hfound =>
    exact h.goTo (hbounded hp (by simp)) (by rw [hp]; rfl) (by rintro r ⟨⟩; exact hfound)
  | first hp hfound => exact h.goTo (hbounded hp (by simp)) (by rw [hp]; rfl) hfound
  | @size c oid hp =>
    have hknows := h.knows c
    rw [hp] at hknows
    exact h.goTo (hbounded hp (by simp)) (by rw [hp]; rfl) ⟨hknows, rfl⟩
  | fail hp => exact h.goTo (hbounded hp (by simp)) (by rw [hp]; rfl) (by simp [SizePoint.Knows])
  | @count c oid sz hp =>
    have hknows := h.knows c
    rw [hp] at hknows
    have hnext := h.goTo (p := .counted oid sz) (hbounded hp (by simp)) (by rw [hp]; rfl) hknows
    exact ⟨hnext.exclusive, hnext.bounded, hnext.true_size, hnext.knows⟩
  | insert hp => exact h.insert hp
  | unlock hp | unlockFile hp => exact h.release (hbounded hp (by simp)) (by rw [hp]; rfl)

/-! What the history of the sizes says. -/

structure Tracks (size : ObjectId → Nat) (n : Nat) (s : SizeCache) (told : List ObjectId) : Prop where
  sound : s.Sound size n
  nodup : told.Nodup
  mem : ∀ oid, oid ∈ told ↔ (s.sizes oid).isSome ∨ ∃ c, (s.point c).Has oid
  count : s.sizeFaults + ∑ c : Fin n, (s.point c).uncounted = told.length

variable {told : List ObjectId}

theorem tracks_start (size : ObjectId → Nat) (n : Nat) : start.Tracks size n [] :=
  ⟨sound_start size n, by simp, by simp [start, SizePoint.Has], by simp [start, SizePoint.uncounted]⟩

theorem exists_has_update (point : Nat → SizePoint) (c : Nat) (p : SizePoint) (oid : ObjectId) :
    (∃ d, (update point c p d).Has oid) ↔ p.Has oid ∨ ∃ d, d ≠ c ∧ (point d).Has oid := by
  constructor
  · intro hd
    obtain ⟨d, hd⟩ := hd
    by_cases hdc : d = c
    · rw [hdc, Function.update_self] at hd
      exact Or.inl hd
    · rw [Function.update_of_ne hdc] at hd
      exact Or.inr ⟨d, hdc, hd⟩
  · intro hd
    obtain hp | ⟨d, hdc, hd⟩ := hd
    · exact ⟨c, by rwa [Function.update_self]⟩
    · exact ⟨d, by rwa [Function.update_of_ne hdc]⟩

theorem exists_has_split (point : Nat → SizePoint) (c : Nat) (oid : ObjectId) :
    (∃ d, (point d).Has oid) ↔ (point c).Has oid ∨ ∃ d, d ≠ c ∧ (point d).Has oid := by
  simpa using exists_has_update point c (point c) oid

/-- A caller that has the size of the same blobs as before. -/
theorem Tracks.move (h : s.Tracks size n told) (ht : t.Sound size n) (hc : c < n)
    (hpoint : t.point = update s.point c p) (hsizes : t.sizes = s.sizes)
    (hhas : ∀ oid, p.Has oid ↔ (s.point c).Has oid)
    (hcount : t.sizeFaults + p.uncounted = s.sizeFaults + (s.point c).uncounted) : t.Tracks size n told := by
  refine ⟨ht, h.nodup, fun oid => ?_, ?_⟩
  · rw [h.mem, hsizes, hpoint, exists_has_update, exists_has_split s.point c, hhas]
  · have hsum := Tally.sum_update_val SizePoint.uncounted s.point hc p
    have hold := h.count
    rw [hpoint]
    omega

theorem Tracks.told_size (h : s.Tracks size n told) (ht : t.Sound size n) (hc : c < n) (hp : s.point c = .missing oid)
    (hpoint : t.point = update s.point c (.sized oid (size oid))) (hsizes : t.sizes = s.sizes)
    (hfaults : t.sizeFaults = s.sizeFaults) : t.Tracks size n (told ++ [oid]) := by
  have habsent : s.sizes oid = none := by
    have hknows := h.sound.knows c
    rwa [hp] at hknows
  have hlock : (s.point c).lockOf = some oid := by rw [hp]; rfl
  have hnew : oid ∉ told := by
    rw [h.mem, habsent]
    rintro (hsome | ⟨d, hd⟩)
    · simp at hsome
    · have hdc : d = c := h.sound.exclusive.unique hd.lockOf hlock
      rw [hdc, hp] at hd
      simp [SizePoint.Has] at hd
  refine ⟨ht, ?_, fun o => ?_, ?_⟩
  · simpa [List.nodup_append, h.nodup] using fun o ho (heq : o = oid) => hnew (by rwa [heq] at ho)
  · have hsplit := exists_has_split s.point c o
    have hnone : ¬ (s.point c).Has o := by simp [hp, SizePoint.Has]
    have hhas : (SizePoint.sized oid (size oid)).Has o ↔ o = oid := by simp [SizePoint.Has, eq_comm]
    rw [List.mem_append, h.mem, hsizes, hpoint, exists_has_update, hhas, hsplit, List.mem_singleton]
    rw [or_iff_right hnone, or_right_comm, or_assoc]
  · have hsum := Tally.sum_update_val SizePoint.uncounted s.point hc (.sized oid (size oid))
    have hold := h.count
    have hone : (SizePoint.sized oid (size oid)).uncounted = 1 := rfl
    have hzero : (s.point c).uncounted = 0 := by rw [hp]; rfl
    rw [hpoint, hfaults, List.length_append, List.length_singleton]
    omega

theorem Tracks.insert (h : s.Tracks size n told) (hc : c < n) {sz : Nat} (hp : s.point c = .counted oid sz) :
    Tracks size n { s.goTo c (.returning oid (some sz)) with sizes := update s.sizes oid (some sz) } told := by
  refine ⟨h.sound.insert hp, h.nodup, fun o => ?_, ?_⟩
  · have hhas : (s.point c).Has o ↔ oid = o := by simp [hp, SizePoint.Has]
    have hnone : ¬ (SizePoint.returning oid (some sz)).Has o := by simp [SizePoint.Has]
    rw [h.mem, exists_has_split s.point c, hhas]
    simp only [SizeCache.goTo, exists_has_update, hnone, false_or]
    by_cases ho : o = oid
    · simp [ho]
    · simp [Function.update_of_ne ho, Ne.symm ho]
  · have hsum := Tally.sum_update_val SizePoint.uncounted s.point hc (.returning oid (some sz))
    have hold := h.count
    have hzero : (SizePoint.returning oid (some sz)).uncounted = 0 := rfl
    have hwas : (s.point c).uncounted = 0 := by rw [hp]; rfl
    simp only [SizeCache.goTo]
    omega

theorem Tracks.step (h : s.Tracks size n told) (hstep : s.step size n e = some t) :
    t.Tracks size n (told ++ e.fetched) := by
  have hsound := h.sound.step hstep
  have hbounded : ∀ {c p}, s.point c = p → p ≠ .idle → c < n := fun hp hne => h.sound.bounded _ (by rwa [hp])
  cases moves_of_step hstep with
  | call hc hp | materialize hc hp =>
    simpa [SizeEvent.fetched] using h.move hsound hc rfl rfl (by simp [hp, SizePoint.Has]) (by rw [hp]; rfl)
  | hit hp | miss hp | lock hp | late hp | first hp | fail hp | unlock hp | lockFile hp | unlockFile hp =>
    simpa [SizeEvent.fetched] using
      h.move hsound (hbounded hp (by simp)) rfl rfl (by simp [hp, SizePoint.Has]) (by rw [hp]; rfl)
  | count hp =>
    simpa [SizeEvent.fetched] using
      h.move hsound (hbounded hp (by simp)) rfl rfl (by simp [hp, SizePoint.Has]) (by rw [hp]; rfl)
  | size hp => exact h.told_size hsound (hbounded hp (by simp)) hp rfl rfl rfl
  | insert hp => simpa [SizeEvent.fetched] using h.insert (hbounded hp (by simp)) hp

theorem tracks_run {es : List SizeEvent} (hrun : Machine.run (step size n) start es = some s) :
    s.Tracks size n (fetched es) := by
  have hhist := Machine.run_history (Tracks size n) SizeEvent.fetched (fun _ => True)
    (fun _ _ _ _ _ h hstep => h.step hstep) (fun _ _ => trivial) (tracks_start size n) hrun
  simpa [fetched] using hhist

theorem Tracks.answer (h : s.Tracks size n told) (hstep : s.step size n e = some t) {sz : Nat}
    (he : e.answer = some (oid, some sz)) : sz = size oid ∧ oid ∈ told := by
  have hfound : s.sizes oid = some sz := by
    cases moves_of_step hstep with
    | hit hp hfound =>
      cases he
      exact hfound
    | @unlock c o r hp =>
      have hknows := h.sound.knows c
      rw [hp] at hknows
      cases he
      exact hknows sz rfl
    | call | miss | lock | late | first | size | fail | count | insert | materialize | lockFile | unlockFile =>
      simp [SizeEvent.answer] at he
  exact ⟨h.sound.true_size oid sz hfound, (h.mem oid).2 (Or.inl (by simp [hfound]))⟩

/-! Left alone, all the callers return. -/

/-- How many steps the callers take at most. -/
def rank (n : Nat) (s : SizeCache) : Nat := ∑ c : Fin n, (s.point c).pending

theorem rank_lt (hc : c < n) (hpoint : t.point = update s.point c p) (hp : p.pending < (s.point c).pending) :
    t.rank n < s.rank n := by
  have hsum := Tally.sum_update_val SizePoint.pending s.point hc p
  simp only [rank, hpoint]
  omega

theorem ranked (size : ObjectId → Nat) (n : Nat) :
    Machine.Ranked (step size n) SizeEvent.Inner (Sound size n) (rank n) where
  keeps _ _ _ hs hstep := hs.step hstep
  lowers s e t he hs hstep := by
    have hbounded : ∀ {c p}, s.point c = p → p ≠ .idle → c < n := fun hp hne => hs.bounded _ (by rwa [hp])
    cases moves_of_step hstep with
    | call | materialize => exact he.elim
    | hit hp | miss hp | lock hp | late hp | first hp | size hp
    | fail hp | count hp | insert hp | unlock hp | lockFile hp | unlockFile hp =>
      exact rank_lt (hbounded hp (by simp)) rfl (by simp [hp, SizePoint.pending])

/-- Who has a lock can go on. -/
theorem holder_moves (size : ObjectId → Nat) (n : Nat) (hlock : (s.point c).lockOf = some oid) :
    ∃ e, SizeEvent.Inner e ∧ s.step size n e ≠ none := by
  cases hp : s.point c with
  | idle | called | waiting | wantsFile => simp [hp, SizePoint.lockOf] at hlock
  | locked o => exact ⟨.lookAgain c o (s.sizes o), trivial, by simp [step, hp]⟩
  | missing o => exact ⟨.size c o none, trivial, by simp [step, hp]⟩
  | sized o sz => exact ⟨.count c o sz, trivial, by simp [step, hp]⟩
  | counted o sz => exact ⟨.insert c o sz, trivial, by simp [step, hp]⟩
  | returning o r => exact ⟨.unlock c o r, trivial, by simp [step, hp]⟩
  | fillsFile o => exact ⟨.unlockFile c o, trivial, by simp [step, hp]⟩

theorem free_of_atRest (h : s.Sound size n) (hrest : Machine.AtRest (step size n) SizeEvent.Inner s) (oid : ObjectId) :
    s.holder oid = none := by
  rw [Option.eq_none_iff_forall_ne_some]
  intro d hd
  obtain ⟨e, he, hne⟩ := holder_moves size n ((h.exclusive oid d).1 hd)
  exact hne (hrest e he)

theorem idle_of_atRest (h : s.Sound size n) (hrest : Machine.AtRest (step size n) SizeEvent.Inner s) (c : Nat) :
    s.point c = .idle := by
  have hfree := free_of_atRest h hrest
  cases hp : s.point c with
  | idle => rfl
  | called o =>
    have hlook := hrest (.look c o (s.sizes o)) trivial
    simp [step, hp] at hlook
  | waiting o =>
    have hlock := hrest (.lock c o) trivial
    simp [step, hp, hfree] at hlock
  | wantsFile o =>
    have hlock := hrest (.lockFile c o) trivial
    simp [step, hp, hfree] at hlock
  | locked o | missing o | sized o | counted o | returning o | fillsFile o =>
    have hheld := (h.exclusive o c).2 (by rw [hp]; rfl)
    rw [hfree] at hheld
    cases hheld

theorem Tracks.count_idle (h : s.Tracks size n told) (hidle : ∀ c, s.point c = .idle) :
    s.sizeFaults = told.length := by
  have hcount := h.count
  simpa [hidle, SizePoint.uncounted] using hcount

theorem Tracks.mem_idle (h : s.Tracks size n told) (hidle : ∀ c, s.point c = .idle) (oid : ObjectId) :
    oid ∈ told ↔ (s.sizes oid).isSome := by
  rw [h.mem]
  simp [hidle, SizePoint.Has]

end SizeCache

open SizeCache

/-- However the callers take turns, git tells the size of a blob once at most. -/
theorem sizes_asked_once (size : ObjectId → Nat) (n : Nat) {es : List SizeEvent} {s : SizeCache}
    (hrun : Machine.run (step size n) start es = some s) :
    (fetched es).Nodup ∧ s.sizeFaults ≤ (fetched es).length ∧ (∀ oid, (s.sizes oid).isSome → oid ∈ fetched es) ∧
      ∀ before e after oid sz, es = before ++ e :: after → e.answer = some (oid, some sz) →
        sz = size oid ∧ oid ∈ fetched before := by
  have h := tracks_run hrun
  refine ⟨h.nodup, ?_, fun oid hoid => (h.mem oid).2 (Or.inl hoid), fun before e after oid sz hes he => ?_⟩
  · have hcount := h.count
    omega
  · rw [hes] at hrun
    obtain ⟨u, hu, hrest⟩ := Machine.run_append.1 hrun
    obtain ⟨v, hv, -⟩ := Machine.run_cons.1 hrest
    exact (tracks_run hu).answer hv he

/-- The second caller waits for the first, and a third for the lock of the file. -/
theorem sizes_asked_once_shared :
    let oid : ObjectId := ⟨[7]⟩
    let es : List SizeEvent :=
      [.call 0 oid, .call 1 oid, .materialize 2 oid, .look 0 oid none, .look 1 oid none, .lock 0 oid,
        .lookAgain 0 oid none, .size 0 oid (some 9), .count 0 oid 9, .insert 0 oid 9, .unlock 0 oid (some 9),
        .lockFile 2 oid, .unlockFile 2 oid, .lock 1 oid, .lookAgain 1 oid (some 9), .unlock 1 oid (some 9)]
    ∃ s, Machine.run (step (fun _ => 9) 3) start es = some s ∧ (fetched es).Nodup ∧
      s.sizeFaults ≤ (fetched es).length := by
  intro oid es
  obtain ⟨s, hs⟩ := Option.isSome_iff_exists.1
    (show (Machine.run (step (fun _ => 9) 3) start es).isSome = true by decide)
  obtain ⟨hnodup, hle, -⟩ := sizes_asked_once (fun _ => 9) 3 hs
  exact ⟨s, hs, hnodup, hle⟩

/-- No caller waits for ever, whoever else materializes the blob. -/
theorem size_lookups_return (size : ObjectId → Nat) (n : Nat) {es : List SizeEvent} {s : SizeCache}
    (hrun : Machine.run (step size n) start es = some s) :
    (∃ es' t, (∀ e ∈ es', SizeEvent.Inner e) ∧ Machine.run (step size n) s es' = some t ∧
      Machine.AtRest (step size n) SizeEvent.Inner t) ∧
    ∀ es' t, (∀ e ∈ es', SizeEvent.Inner e) → Machine.run (step size n) s es' = some t →
      es'.length + t.rank n ≤ s.rank n ∧
      (Machine.AtRest (step size n) SizeEvent.Inner t →
        (∀ c, t.point c = .idle) ∧ (∀ oid, t.holder oid = none) ∧
        t.sizeFaults = (fetched (es ++ es')).length ∧
        ∀ oid, oid ∈ fetched (es ++ es') ↔ (t.sizes oid).isSome) := by
  have hs := (tracks_run hrun).sound
  refine ⟨(ranked size n).exists_atRest hs, fun es' t hes' hrun' => ?_⟩
  have ht := tracks_run (Machine.run_append.2 ⟨s, hrun, hrun'⟩)
  refine ⟨(ranked size n).length_le hs hes' hrun', fun hrest => ?_⟩
  have hidle := idle_of_atRest ht.sound hrest
  exact ⟨hidle, free_of_atRest ht.sound hrest, ht.count_idle hidle, ht.mem_idle hidle⟩

/-- One caller has the lock, git fails it, and another takes the lock next. -/
theorem size_lookups_return_failed :
    let oid : ObjectId := ⟨[7]⟩
    let es : List SizeEvent := [.call 0 oid, .call 1 oid, .look 0 oid none, .look 1 oid none, .lock 0 oid]
    let es' : List SizeEvent :=
      [.lookAgain 0 oid none, .size 0 oid none, .unlock 0 oid none, .lock 1 oid, .lookAgain 1 oid none,
        .size 1 oid (some 9), .count 1 oid 9, .insert 1 oid 9, .unlock 1 oid (some 9)]
    ∃ s t, Machine.run (step (fun _ => 9) 2) start es = some s ∧
      Machine.run (step (fun _ => 9) 2) s es' = some t ∧ es'.length + t.rank 2 ≤ s.rank 2 := by
  intro oid es es'
  obtain ⟨t, ht⟩ := Option.isSome_iff_exists.1
    (show (Machine.run (step (fun _ => 9) 2) start (es ++ es')).isSome = true by decide)
  obtain ⟨s, hs, ht'⟩ := Machine.run_append.1 ht
  exact ⟨s, t, hs, ht', ((size_lookups_return (fun _ => 9) 2 hs).2 es' t (by simp [es', SizeEvent.Inner]) ht').1⟩

end LazyMount
