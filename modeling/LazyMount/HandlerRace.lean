import LazyMount.Announced

/-! Handlers run on a pool of threads, step by step, and hook queries in between. -/

namespace LazyMount

open RepoPath Prog

structure Pool where
  world : World
  handlers : List (Handler Reply)

inductive PoolEvent where
  | call (op : Op) (fuel : Nat)
  | step (i : Nat) (action : Action)
deriving DecidableEq

def PoolEvent.recorded : PoolEvent → List Bytes
  | .call _ _ => []
  | .step _ action => action.recorded

namespace Pool

variable {P : Projection}

def step (P : Projection) (s : Pool) : PoolEvent → Option Pool
  | .call op fuel => some { s with handlers := s.handlers ++ [op.handler P fuel] }
  | .step i action =>
    match s.handlers[i]? with
    | some (.step l upd k) =>
      if l = action then some ⟨upd s.world, s.handlers.set i (k s.world)⟩ else none
    | _ => none

def run (P : Projection) : Pool → List PoolEvent → Option Pool := Machine.run (step P)

theorem step_cases {s t : Pool} {e : PoolEvent} (h : step P s e = some t) :
    (∃ op fuel, e = .call op fuel ∧ t = { s with handlers := s.handlers ++ [op.handler P fuel] }) ∨
    ∃ i l upd k, e = .step i l ∧ s.handlers[i]? = some (.step l upd k) ∧
      t = ⟨upd s.world, s.handlers.set i (k s.world)⟩ := by
  cases e with
  | call op fuel => exact .inl ⟨op, fuel, rfl, (Option.some.inj h).symm⟩
  | step i action =>
    simp only [step] at h
    split at h
    · rename_i l upd k hm
      split at h
      · rename_i hl
        subst hl
        exact .inr ⟨i, l, upd, k, rfl, hm, (Option.some.inj h).symm⟩
      · cases h
    · cases h

structure Sound (P : Projection) (s : Pool) : Prop where
  unrooted : s.world.Unrooted
  announces : ∀ m ∈ s.handlers, ∃ g, P.Announces (fun g' r => r.Owned g') g m

theorem sound_step {s t : Pool} {e : PoolEvent} (hs : s.Sound P) (h : step P s e = some t) :
    t.Sound P ∧ World.Appended P.limits s.world t.world e.recorded := by
  rcases step_cases h with ⟨op, fuel, rfl, rfl⟩ | ⟨i, l, upd, k, rfl, hi, rfl⟩
  · refine ⟨⟨hs.unrooted, fun m hm => ?_⟩, World.appended_of_eq rfl⟩
    rcases List.mem_append.mp hm with hm | hm
    · exact hs.announces m hm
    · rw [List.mem_singleton.mp hm]
      exact ⟨.empty, op.announces P fuel _⟩
  · obtain ⟨g, next, hr, hk⟩ := hs.announces _ (List.mem_of_getElem? hi)
    refine ⟨⟨hr.unrooted hs.unrooted, fun m hm => ?_⟩, hr.appended s.world⟩
    rcases List.mem_or_eq_of_mem_set hm with hm | rfl
    · exact hs.announces m hm
    · exact ⟨_, hk s.world hs.unrooted⟩

theorem sound_run {s t : Pool} {es : List PoolEvent} (hs : s.Sound P) (h : s.run P es = some t) :
    t.Sound P ∧ World.Appended P.limits s.world t.world (es.flatMap PoolEvent.recorded) :=
  Machine.run_history (fun u h => u.Sound P ∧ World.Appended P.limits s.world u.world h)
    PoolEvent.recorded (fun _ => True)
    (fun _ _ _ _ _ hu hstep => ⟨(sound_step hu.1 hstep).1, hu.2.trans (sound_step hu.1 hstep).2⟩)
    (fun _ _ => trivial) (h := []) ⟨hs, World.appended_of_eq rfl⟩ h

/-- Each change that the handler may still make comes behind an append that it is still to
make: it does not stand between its last append and a change. -/
def Ready : Handler Reply → Prop
  | .done _ => True
  | .step l _ k =>
    (∃ p, p ≠ root ∧ l = .record p) ∨ (l ≠ .mutate ∧ ∀ w : World, w.Unrooted → Ready (k w))

theorem ready_of_announces {m : Handler Reply} {T : Notes → Reply → Prop} {g : Notes}
    (hm : P.Announces T g m) (hrec : ∀ p ∈ g.recorded, p = root) (hown : g.owned = []) :
    Ready m := by
  have hcover : ∀ p, ¬ g.Covers p := fun p ⟨r, hr, hne, _⟩ => hne (hrec r hr)
  induction m generalizing g with
  | done r => trivial
  | step l upd k ih =>
    obtain ⟨next, hr, hk⟩ := hm
    cases hr with
    | quiet h =>
      exact .inr ⟨by cases h <;> simp, fun w hw => ih w (hk w hw) hrec hown hcover⟩
    | record p =>
      by_cases hp : p = root
      · refine .inr ⟨by simp, fun w hw => ih w (hk w hw) ?_ hown ?_⟩
        · simpa [Notes.record] using ⟨hp, hrec⟩
        · rintro q ⟨r, hr, hne, -⟩
          rcases List.mem_cons.mp hr with rfl | hr
          · exact hne hp
          · exact hne (hrec r hr)
      · exact .inl ⟨p, hp, rfl⟩
    | mutate op h =>
      have hne : op.touched ≠ [] := by cases op <;> simp [OverlayOp.touched]
      obtain ⟨p, hp⟩ := List.exists_mem_of_ne_nil _ hne
      exact (hcover p (h p hp)).elim
    | createFile p x seed h | openContent p h => exact (hcover p h).elim
    | edit c f h =>
      rw [hown] at h
      cases h

/-- A handler that is ready, or not called yet, records a path before it changes anything. -/
theorem records_before_mutating {s t : Pool} {es : List PoolEvent} {i : Nat} (hs : s.Sound P)
    (hr : s.run P es = some t) (hready : ∀ m, s.handlers[i]? = some m → Ready m)
    (hmut : .step i .mutate ∈ es) : ∃ p, p ≠ root ∧ .step i (.record p) ∈ es := by
  induction es generalizing s with
  | nil => cases hmut
  | cons e es ih =>
    obtain ⟨u, hu, ht⟩ := Machine.run_cons.mp hr
    have hsu := (sound_step hs hu).1
    have hnext : (∀ m, u.handlers[i]? = some m → Ready m) → e ≠ .step i .mutate →
        ∃ p, p ≠ root ∧ .step i (.record p) ∈ e :: es := by
      intro hready' hne
      have hm : .step i .mutate ∈ es := (List.mem_cons.mp hmut).resolve_left (Ne.symm hne)
      obtain ⟨p, hp, hmem⟩ := ih hsu ht hready' hm
      exact ⟨p, hp, List.mem_cons_of_mem _ hmem⟩
    rcases step_cases hu with ⟨op, fuel, rfl, rfl⟩ | ⟨j, l, upd, k, rfl, hj, rfl⟩
    · refine hnext (fun m hm => ?_) (by simp)
      rcases Nat.lt_trichotomy i s.handlers.length with hlt | heq | hgt
      · exact hready m (by rwa [List.getElem?_append_left hlt] at hm)
      · subst heq
        rw [List.getElem?_concat_length] at hm
        cases hm
        exact ready_of_announces (op.announces P fuel .empty) (by simp [Notes.empty]) rfl
      · rw [List.getElem?_eq_none (by rw [List.length_append, List.length_singleton]; omega)] at hm
        cases hm
    · by_cases hij : j = i
      · subst hij
        rcases hready _ hj with ⟨p, hp, rfl⟩ | ⟨hl, hk⟩
        · exact ⟨p, hp, List.mem_cons_self⟩
        · refine hnext (fun m hm => ?_) (by simpa using hl)
          rw [List.getElem?_set_self (List.getElem?_eq_some_iff.mp hj).1] at hm
          cases hm
          exact hk s.world hs.unrooted
      · refine hnext (fun m hm => hready m ?_) (by simp [hij])
        rwa [List.getElem?_set_ne hij] at hm

/-- A handler changes something behind the query `Q1`. If it did not stand between its last
append and a change when `Q1` ran, then any later query, given the token of `Q1`, reports a path
that it recorded, whether it has replied or not. -/
theorem hook_reports_handler (P : Projection) {w : World} (hroot : w.Unrooted)
    (hj : w.Journaled P.limits) {es₁ es₂ : List PoolEvent} {s₁ s₂ : Pool} {i : Nat}
    (h₁ : run P ⟨w, []⟩ es₁ = some s₁) (h₂ : run P s₁ es₂ = some s₂)
    (hmut : .step i .mutate ∈ es₂) (hready : ∀ m, s₁.handlers[i]? = some m → Ready m)
    (hash : UInt64) (prev : Bytes) :
    ∃ p, .step i (.record p) ∈ es₁ ++ es₂ ∧
      (s₂.world.hookQuery hash (s₁.world.hookQuery hash prev).token.encode).Reports p.bytes := by
  have hs₁ := sound_run (s := ⟨w, []⟩) ⟨hroot, by simp⟩ h₁
  have hs₂ := sound_run hs₁.1 h₂
  obtain ⟨p, hp, hmem⟩ := records_before_mutating hs₁.1 h₂ hready hmut
  refine ⟨p, List.mem_append_right _ hmem, ?_⟩
  refine hs₂.2.reports (hj.appended hs₁.2) (List.mem_flatMap.mpr ⟨_, hmem, ?_⟩) (bytes_ne_nil hp)
    hash prev
  exact List.mem_singleton_self _

def unlinkRecords : List PoolEvent :=
  [.call (.unlink rootIno [97]) 0, .step 0 .read, .step 0 .read, .step 0 (.record (letter 97))]

def unlinkMutates : List PoolEvent := [.step 0 .mutate, .step 0 .inode]

theorem hook_reports_handler_unlink :
    ∃ s, run smallProjection ⟨World.journaledFresh 7, []⟩ (unlinkRecords ++ unlinkMutates) = some s ∧
      ∃ p, .step 0 (.record p) ∈ [] ++ (unlinkRecords ++ unlinkMutates) ∧
        (s.world.hookQuery 0 ((World.journaledFresh 7).hookQuery 0 []).token.encode).Reports p.bytes :=
  ⟨_, rfl, hook_reports_handler smallProjection (w := World.journaledFresh 7) rfl
    (World.journaled_fresh 7) (Machine.run_nil _)
    (show run smallProjection _ (unlinkRecords ++ unlinkMutates) = some _ from rfl)
    (by decide) (by simp) 0 []⟩

/-- `Q1` runs between the append and the tombstone of the same `unlink`; behind the reply, `Q2`
reports nothing. -/
theorem unlink_between_queries :
    ∃ s₁ s₂, run smallProjection ⟨World.journaledFresh 7, []⟩ unlinkRecords = some s₁ ∧
      run smallProjection s₁ unlinkMutates = some s₂ ∧ s₂.handlers = [.done (.ok .unit)] ∧
      ∀ p, .step 0 (.record p) ∈ unlinkRecords ++ unlinkMutates →
        ¬ (s₂.world.hookQuery 0 (s₁.world.hookQuery 0 []).token.encode).Reports p.bytes := by
  refine ⟨_, _, rfl, rfl, rfl, fun p hp => ?_⟩
  have hpath : p = letter 97 := by simpa [unlinkRecords, unlinkMutates] using hp
  subst hpath
  decide +kernel

end Pool

end LazyMount
