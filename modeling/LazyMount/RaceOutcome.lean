import LazyMount.DiskMemory

/-! What the next open finds at a path after two mutators of it, and what the index has there. -/

namespace LazyMount

open Function (update)
open Transition
open Sight (forall_who)
open RepoPath

namespace Call

variable {overwrite : SidecarText → OverlayEntry → SidecarText} {s s' : Shared} {c c' : Call}
  {l : MutatorStep} {p : RepoPath}

theorem step_ok : ¬ Call.ok.step overwrite s = some (l, s', c') := by
  intro h
  cases h

theorem step_ne_start (h : c.step overwrite s = some (l, s', c')) (o : OverlayOp) : c' ≠ .start o := by
  cases c with
  | start op =>
    cases h
    cases op <;> simp only [OverlayOp.begin] <;> first | (split <;> simp) | simp
  | running plan =>
    obtain ⟨_ | ⟨op, content⟩, _ | ⟨q, g⟩, _ | q', upd⟩ := plan <;> cases h <;> simp
  | writing fd q g rest =>
    cases h
    simp
  | publishing q rest =>
    simp only [step] at h
    split at h <;> cases h <;> simp
  | ok | error => cases h

theorem step_index (h : c.step overwrite s = some (l, s', c')) (hc : c' ≠ .ok) : s'.index = s.index := by
  cases c with
  | start op =>
    cases h
    rfl
  | running plan =>
    obtain ⟨_ | ⟨op, content⟩, _ | ⟨q, g⟩, _ | q', upd⟩ := plan <;> cases h <;>
      first | rfl | exact (hc rfl).elim | (cases op <;> rfl)
  | writing fd q g rest =>
    cases h
    rfl
  | publishing q rest =>
    simp only [step] at h
    split at h <;> cases h <;> rfl
  | ok | error => cases h

end Call

theorem OverlayOp.mints_cases (op : OverlayOp) : (op.mints = 0 ∧ ∀ next next' ns,
    op.effect next ns = op.effect next' ns) ∨ ∃ p x seed, op = .createFile p x seed := by
  cases op with
  | createFile p x seed => exact .inr ⟨p, x, seed, rfl⟩
  | putSymlink | putDir | putBaseRef | tombstone | clear | rename | setExecutable =>
    exact .inl ⟨rfl, fun _ _ _ => rfl⟩

namespace Race

variable {overwrite : SidecarText → OverlayEntry → SidecarText} {ov : Overlay} {ops : Bool → OverlayOp}
  {p : RepoPath} {ls : List (Bool × MutatorStep)} {r r' : Race} {l : Bool × MutatorStep}
  {e : Bool → Option OverlayEntry} {first late : Option Bool}

def sight (p : RepoPath) (ls : List (Bool × MutatorStep)) (r : Race) : Sight where
  files := r.shared.files p
  index := r.shared.index.entries p
  stage who := (r.calls who).stage p
  sidecarBy := lastBy (MutatorStep.onSidecar p) ls
  indexBy := lastBy (MutatorStep.onIndex p) ls

/-- The content id that a call mints, when `first` is the call that began first. -/
def minted (ov : Overlay) (ops : Bool → OverlayOp) (first : Option Bool) (who : Bool) : ContentId :=
  ⟨ov.pid, ov.contentSeq + if first = some who then 0 else (ops (!who)).mints⟩

/-- A race that goes well: `e who` is the entry that a call leaves, `first` began first, and `late`
began after the other call had returned. -/
structure Well (ov : Overlay) (ops : Bool → OverlayOp) (p : RepoPath) (e : Bool → Option OverlayEntry)
    (first late : Option Bool) (ls : List (Bool × MutatorStep)) (r : Race) : Prop where
  coherent : (r.sight p ls).Coherent (ov.index.entries p) e
  ends : ∀ who, (r.calls who).Ends p (e who)
  starts : ∀ who o, r.calls who = .start o → o = ops who
  pid : r.shared.pid = ov.pid
  index : (∀ who, r.calls who ≠ .ok) → r.shared.index.entries = ov.index.entries
  early : ∀ who, (∀ o, r.calls who ≠ .start o) → late ≠ some who →
    e who = (ops who).effect (minted ov ops first who) ov.index.entries p
  serial : ∀ who, late = some who → r.calls (!who) = .ok
  alone : ∀ who, (∃ o, r.calls (!who) = .start o) ∨ late = some who → (r.sight p ls).Alone who
  unbegun : first = none → (∀ who, ∃ o, r.calls who = .start o) ∧ r.shared.contentSeq = ov.contentSeq
  begun : ∀ who, first = some who → (∀ o, r.calls who ≠ .start o) ∧ ((∃ o, r.calls (!who) = .start o) →
    r.shared.contentSeq = ov.contentSeq + (ops who).mints)

theorem Step.spec {who : Bool} {m : MutatorStep} (h : Race.Step overwrite r (who, m) r') (p : RepoPath)
    (ls : List (Bool × MutatorStep)) :
    (r.calls who).step overwrite r.shared = some (m, r'.shared, r'.calls who) ∧
      r'.calls (!who) = r.calls (!who) ∧ r'.sight p (ls ++ [(who, m)]) =
        (r.sight p ls).next who (m.onSidecar p) (m.onIndex p) (r'.shared.files p)
          (r'.shared.index.entries p) ((r'.calls who).stage p) := by
  obtain ⟨s, c, hc, rfl⟩ := h
  have hself : update r.calls who c who = c := Function.update_self ..
  have hother : ∀ w, w ≠ who → update r.calls who c w = r.calls w := fun w hw =>
    Function.update_of_ne hw ..
  have hstage : (fun w => (update r.calls who c w).stage p) =
      update (fun w => (r.calls w).stage p) who (c.stage p) := by
    funext w
    by_cases hw : w = who
    · rw [hw, hself, Function.update_self]
    · rw [hother w hw, Function.update_of_ne hw]
  refine ⟨?_, hother _ (by cases who <;> decide), ?_⟩
  · rw [hc]
    exact congrArg (fun c => some (m, s, c)) hself.symm
  · simp only [sight, Sight.next, lastBy_snoc, hstage, hself]

theorem Well.run (h : Well ov ops p e first late ls r) {who : Bool} {m : MutatorStep}
    (hnot : ∀ o, r.calls who ≠ .start o) (hstep : Race.Step overwrite r (who, m) r') :
    (r'.sight p (ls ++ [(who, m)])).Doomed ∨ Well ov ops p e first late (ls ++ [(who, m)]) r' := by
  obtain ⟨hc, hother, hsight⟩ := hstep.spec p ls
  obtain ⟨hlocal, hends, hix, hseq, hpid⟩ := Call.step_local (h.ends who) hnot hc
  have hbegun : ∀ o, r'.calls who ≠ .start o := Call.step_ne_start hc
  have hok : r.calls who ≠ .ok := by
    intro hok
    rw [hok] at hc
    exact Call.step_ok hc
  have hlate : late ≠ some (!who) := by
    intro hlate
    have hend := h.serial _ hlate
    rw [Bool.not_not] at hend
    exact hok hend
  rcases h.coherent.next hlocal hix with hd | hcoh
  · exact .inl (hsight ▸ hd)
  refine .inr ⟨hsight ▸ hcoh, ?_, ?_, hpid.trans h.pid, ?_, ?_, ?_, ?_, ?_, ?_⟩
  · exact forall_who who hends (hother ▸ h.ends (!who))
  · refine forall_who who (fun o ho => (hbegun o ho).elim) fun o ho => ?_
    exact h.starts _ o (hother ▸ ho)
  · intro hrest
    rw [← h.index (forall_who who hok (hother ▸ hrest (!who)))]
    exact congrArg Index.entries (Call.step_index hc (hrest who))
  · refine forall_who who (fun _ hlate => h.early who hnot hlate) fun ho hlate => ?_
    exact h.early (!who) (hother ▸ ho) hlate
  · refine forall_who who (fun hlate => hother.trans (h.serial who hlate)) fun hl => ?_
    exact (hlate hl).elim
  · refine forall_who who (fun ho => ?_) fun ho => ?_
    · rw [hsight]
      exact (h.alone who (hother ▸ ho)).next hlocal
    · rw [Bool.not_not] at ho
      rcases ho with ⟨o, ho⟩ | hl
      · exact (hbegun o ho).elim
      · exact (hlate hl).elim
  · intro hfirst
    obtain ⟨o, ho⟩ := (h.unbegun hfirst).1 who
    exact (hnot o ho).elim
  · refine forall_who who (fun hfirst => ⟨hbegun, fun ho => ?_⟩) fun hfirst => ⟨?_, fun ho => ?_⟩
    · exact hseq.trans ((h.begun who hfirst).2 (hother ▸ ho))
    · exact hother ▸ (h.begun _ hfirst).1
    · rw [Bool.not_not] at ho
      obtain ⟨o, ho⟩ := ho
      exact (hbegun o ho).elim

theorem Well.begin (h : Well ov ops p e first late ls r) {who : Bool} (hp : p ∈ (ops who).touched)
    (hstart : r.calls who = .start (ops who)) {m : MutatorStep} (hstep : Race.Step overwrite r (who, m) r') :
    (r'.sight p (ls ++ [(who, m)])).Doomed ∨ ∃ e first late,
      Well ov ops p e first late (ls ++ [(who, m)]) r' := by
  obtain ⟨hc, hother, hsight⟩ := hstep.spec p ls
  have hbegun : ∀ o, r'.calls who ≠ .start o := Call.step_ne_start hc
  rw [hstart] at hc
  obtain ⟨rfl, hshared, hbegin⟩ : m = .begin ∧
      r'.shared = { r.shared with contentSeq := r.shared.contentSeq + (ops who).mints } ∧
      r'.calls who = (ops who).begin r.shared.newContentId r.shared.index.entries := by
    simp only [Call.step, Option.some.injEq, Prod.mk.injEq] at hc
    exact ⟨hc.1.symm, hc.2.1.symm, hc.2.2.symm⟩
  obtain ⟨x, hx⟩ : ∃ x, (ops who).effect r.shared.newContentId r.shared.index.entries p = x := ⟨_, rfl⟩
  obtain ⟨hends, hst⟩ := OverlayOp.begin_local r.shared.newContentId r.shared.index.entries hp
  rw [hx, ← hbegin] at hends
  rw [← hbegin] at hst
  have hidle : (r.sight p ls).stage who = .idle := by simp only [sight, hstart, Call.stage]
  have hfiles : r'.shared.files = r.shared.files := by rw [hshared]
  have hindex : r'.shared.index = r.shared.index := by rw [hshared]
  have hpid : r'.shared.pid = r.shared.pid := by rw [hshared]
  have hnext : r'.sight p (ls ++ [(who, .begin)]) = (r.sight p ls).next who false false
      (r.sight p ls).files (r.sight p ls).index ((r'.calls who).stage p) := by
    rw [hsight, hfiles, hindex]
    rfl
  rcases h.coherent.begin hidle hst x with hd | hcoh
  · exact .inl (hnext ▸ hd)
  have hnotok : r.calls who ≠ .ok := by
    rw [hstart]
    simp
  have hself : update e who x who = x := Function.update_self ..
  have hkeep : update e who x (!who) = e (!who) := Function.update_of_ne (by cases who <;> decide) ..
  have hfirst : first ≠ some who := fun hf => (h.begun who hf).1 _ hstart
  have hlate : late ≠ some (!who) := by
    intro hl
    have hend := h.serial _ hl
    rw [Bool.not_not] at hend
    exact hnotok hend
  have halone : (r.sight p ls).sidecarBy = (r.sight p ls).indexBy →
      (r'.sight p (ls ++ [(who, .begin)])).Alone who := by
    intro hsame
    rw [hnext]
    refine ⟨fun hafter => ?_, fun _ => hsame⟩
    rw [Sight.next_stage_self] at hafter
    rcases hst with hs | hs | hs | hs <;> rw [hs] at hafter <;> cases hafter
  -- what is left is to say which call was first, and whether this one is late
  have hwell : ∀ first' late', first' ≠ none → late' ≠ some (!who) →
      (late' ≠ some who → x = (ops who).effect (minted ov ops first' who) ov.index.entries p) →
      ((∀ o, r.calls (!who) ≠ .start o) → first' = first) →
      (late' = some who → r.calls (!who) = .ok) →
      ((∃ o, r.calls (!who) = .start o) ∨ late' = some who →
        (r.sight p ls).sidecarBy = (r.sight p ls).indexBy) →
      (first' = some who → r.shared.contentSeq = ov.contentSeq) →
      (first' = some (!who) → ∀ o, r.calls (!who) ≠ .start o) →
      Well ov ops p (update e who x) first' late' (ls ++ [(who, .begin)]) r' := by
    intro first' late' hsome hnotlate hearly hsame hserial hquiet hseq hbefore
    refine ⟨hnext ▸ hcoh, ?_, ?_, hpid.trans h.pid, ?_, ?_, ?_, ?_, fun hnone => (hsome hnone).elim, ?_⟩
    · refine forall_who who ?_ ?_
      · rwa [hself]
      · rw [hkeep, hother]
        exact h.ends (!who)
    · refine forall_who who (fun o ho => (hbegun o ho).elim) fun o ho => ?_
      exact h.starts _ o (hother ▸ ho)
    · intro hrest
      rw [hindex]
      exact h.index (forall_who who hnotok (hother ▸ hrest (!who)))
    · refine forall_who who (fun _ hl => hself.trans (hearly hl)) fun ho _ => ?_
      rw [hother] at ho
      rw [hkeep, hsame ho]
      exact h.early (!who) ho hlate
    · exact forall_who who (fun hl => hother.trans (hserial hl)) fun hl => (hnotlate hl).elim
    · refine forall_who who (fun ho => halone (hquiet (hother ▸ ho))) fun ho => ?_
      rw [Bool.not_not] at ho
      rcases ho with ⟨o, ho⟩ | hl
      · exact (hbegun o ho).elim
      · exact (hnotlate hl).elim
    · refine forall_who who (fun hf => ⟨hbegun, fun _ => ?_⟩) fun hf => ⟨?_, fun ho => ?_⟩
      · rw [hshared]
        exact congrArg (· + _) (hseq hf)
      · exact hother ▸ hbefore hf
      · rw [Bool.not_not] at ho
        obtain ⟨o, ho⟩ := ho
        exact (hbegun o ho).elim
  have hnever : ∀ {o : OverlayOp} {c : Call}, c = .start o → c ≠ .ok := by
    rintro o - rfl
    simp
  cases first with
  | none =>
    obtain ⟨hall, hseq⟩ := h.unbegun rfl
    obtain ⟨o, ho⟩ := hall (!who)
    have hnobody : (r.sight p ls).sidecarBy = none := by
      have hidle' : ∀ w, (r.sight p ls).sidecarBy ≠ some w := fun w => by
        obtain ⟨o, ho⟩ := hall w
        have hstage : (r.sight p ls).stage w = .idle := by simp only [sight, ho, Call.stage]
        have hold := h.coherent.holds w
        rw [hstage] at hold
        exact hold.1
      exact Option.eq_none_iff_forall_ne_some.mpr hidle'
    have hid : minted ov ops (some who) who = r.shared.newContentId := by
      simp only [minted, if_true, Nat.add_zero, Shared.newContentId, h.pid, hseq]
    refine .inr ⟨_, some who, none, hwell _ _ (by simp) (by simp) (fun _ => ?_)
      (fun hn => (hn o ho).elim) (by simp) (fun _ => ?_) (fun _ => hseq) fun hf => ?_⟩
    · rw [hid, ← hx, h.index (forall_who who hnotok (hnever ho))]
    · rw [hnobody, h.coherent.first hnobody]
    · cases who <;> cases hf
  | some a =>
    obtain rfl : a = !who := (Bool.eq_or_eq_not a who).resolve_left fun ha => hfirst (by rw [ha])
    obtain ⟨hother', hseq⟩ := h.begun _ rfl
    have hfirst' : ∀ {q : Prop}, some (!who) = some who → q := fun hf => (hfirst hf).elim
    have hid : minted ov ops (some (!who)) who = r.shared.newContentId := by
      rw [Bool.not_not] at hseq
      simp only [minted, if_neg hfirst, Shared.newContentId, h.pid, hseq ⟨_, hstart⟩]
    by_cases hok : r.calls (!who) = .ok
    · have hquiet : (r.sight p ls).sidecarBy = (r.sight p ls).indexBy := by
        have hother'' := h.alone (!who) (.inl (by rw [Bool.not_not]; exact ⟨_, hstart⟩))
        exact hother''.ok (by simp only [sight, hok, Call.stage])
      exact .inr ⟨_, some (!who), some who, hwell _ _ (by simp) (by cases who <;> simp)
        (fun hl => (hl rfl).elim) (fun _ => rfl) (fun _ => hok) (fun _ => hquiet) hfirst'
        fun _ => hother'⟩
    · refine .inr ⟨_, some (!who), none, hwell _ _ (by simp) (by simp) (fun _ => ?_) (fun _ => rfl)
        (by simp) (fun ho => ?_) hfirst' fun _ => hother'⟩
      · rw [hid, ← hx, h.index (forall_who who hnotok hok)]
      · rcases ho with ⟨o, ho⟩ | hl
        · exact (hother' o ho).elim
        · cases hl

theorem well_start (hs : Overlay.Synced ov) (op op' : OverlayOp) (p : RepoPath) :
    Well ov (fun who => if who then op' else op) p (fun _ => none) none none [] (.start ov op op') := by
  have hsidecar : ((Race.start ov op op').shared.files p).entry = ov.index.entries p := by
    rw [← hs.sidecar p, ← Shared.disk_of ov, Shared.fileEntry_sidecar]
    rfl
  have htmp : ((Race.start ov op op').shared.files p).tmpEntry = none := by
    rw [← hs.noTmp p, ← Shared.disk_of ov, Shared.fileEntry_tmp]
    rfl
  exact
    { coherent :=
        { holds := fun _ => ⟨by simp [sight, lastBy], by simp [sight, lastBy]⟩
          apart := fun _ h => h.elim
          tmp := fun _ _ _ => htmp
          unwritten := fun _ => hsidecar
          unindexed := fun _ => rfl
          first := fun _ => rfl }
      ends := fun _ => trivial
      starts := by
        intro who o ho
        cases ho
        rfl
      pid := rfl
      index := fun _ => rfl
      early := fun who hn => (hn _ rfl).elim
      serial := by simp
      alone := fun who _ => ⟨by simp [sight, Race.start, Call.stage], fun _ => rfl⟩
      unbegun := fun _ => ⟨fun who => ⟨_, rfl⟩, rfl⟩
      begun := by simp }

/-- Every call that has begun has an entry to leave. -/
structure Pending (ops : Bool → OverlayOp) (p : RepoPath) (r : Race) : Prop where
  starts : ∀ who o, r.calls who = .start o → o = ops who
  ends : ∀ who, ∃ e, (r.calls who).Ends p e

theorem Pending.step (h : Pending ops p r) (hp : ∀ who, p ∈ (ops who).touched) {who : Bool}
    {m : MutatorStep} (hstep : Race.Step overwrite r (who, m) r') : Pending ops p r' := by
  obtain ⟨hc, hother, -⟩ := hstep.spec p []
  refine ⟨forall_who who (fun o ho => (Call.step_ne_start hc o ho).elim) fun o ho => ?_,
    forall_who who ?_ (hother ▸ h.ends (!who))⟩
  · exact h.starts _ o (hother ▸ ho)
  · by_cases hstart : ∃ o, r.calls who = .start o
    · obtain ⟨o, ho⟩ := hstart
      obtain rfl := h.starts who o ho
      rw [ho] at hc
      simp only [Call.step, Option.some.injEq, Prod.mk.injEq] at hc
      exact ⟨_, hc.2.2 ▸ (OverlayOp.begin_local _ _ (hp who)).1⟩
    · obtain ⟨e, he⟩ := h.ends who
      exact ⟨e, (Call.step_local he (fun o ho => hstart ⟨o, ho⟩) hc).2.1⟩

theorem doomed_step (h : (r.sight p ls).Doomed) (hpend : Pending ops p r) {who : Bool}
    {m : MutatorStep} (hstep : Race.Step overwrite r (who, m) r') :
    (r'.sight p (ls ++ [(who, m)])).Doomed := by
  obtain ⟨hc, hother, hsight⟩ := hstep.spec p ls
  by_cases hstart : ∃ o, r.calls who = .start o
  · obtain ⟨o, ho⟩ := hstart
    have hidle : (r.sight p ls).stage who = .idle := by simp only [sight, ho, Call.stage]
    have hkeep : (r'.sight p (ls ++ [(who, m)])).stage (!who) = (r.sight p ls).stage (!who) := by
      rw [hsight, Sight.next_stage_not]
    -- a call that has not begun is not in the window, nor past it
    rcases h with ⟨w, hw⟩ | hboth | ⟨w, hw, -, hpast⟩
    · rcases Bool.eq_or_eq_not w who with rfl | rfl
      · rw [hidle] at hw
        cases hw
      · exact .inl ⟨_, hkeep.trans hw⟩
    · have hin := hboth who
      rw [hidle] at hin
      exact hin.elim
    · rcases Bool.eq_or_eq_not w who with rfl | rfl
      · rw [hidle] at hw
        exact hw.elim
      · rw [Bool.not_not, hidle] at hpast
        simp [Stage.Past] at hpast
  · obtain ⟨e, he⟩ := hpend.ends who
    rw [hsight]
    exact h.next (Call.step_local he (fun o ho => hstart ⟨o, ho⟩) hc).1

theorem not_doomed (hok : ∀ who, r.calls who = .ok) : ¬ (r.sight p ls).Doomed := by
  have hstage : ∀ who, (r.sight p ls).stage who = .ok := fun who => by
    simp only [sight, hok who, Call.stage]
  rintro (⟨w, hw⟩ | hboth | ⟨w, hw, -⟩)
  · rw [hstage w] at hw
    cases hw
  · have hin := hboth true
    rw [hstage] at hin
    exact hin
  · rw [hstage w] at hw
    exact hw

theorem well_of_ok (hs : Overlay.Synced ov) {op op' : OverlayOp} (hp : p ∈ op.touched)
    (hp' : p ∈ op'.touched) (hrun : Trace (Race.Step overwrite) (.start ov op op') ls r)
    (hok : ∀ who, r.calls who = .ok) :
    ∃ e first late, Well ov (fun who => if who then op' else op) p e first late ls r := by
  let ops : Bool → OverlayOp := fun who => if who then op' else op
  have htouched : ∀ who, p ∈ (ops who).touched := forall_who false hp hp'
  have hinv : Pending ops p r ∧ ((r.sight p ls).Doomed ∨ ∃ e first late, Well ov ops p e first late ls r) := by
    have hstart := well_start hs op op' p
    refine Trace.history (I := fun ls r => Pending ops p r ∧
      ((r.sight p ls).Doomed ∨ ∃ e first late, Well ov ops p e first late ls r))
      ⟨⟨hstart.starts, fun who => ⟨_, hstart.ends who⟩⟩, .inr ⟨_, _, _, hstart⟩⟩ ?_ hrun
    rintro es s ⟨who, m⟩ t ⟨hpend, h⟩ hstep
    refine ⟨hpend.step htouched hstep, ?_⟩
    rcases h with hd | ⟨e, first, late, hw⟩
    · exact .inl (doomed_step hd hpend hstep)
    · by_cases hbegin : ∃ o, s.calls who = .start o
      · obtain ⟨o, ho⟩ := hbegin
        obtain rfl := hw.starts who o ho
        exact hw.begin (htouched who) ho hstep
      · rcases hw.run (fun o ho => hbegin ⟨o, ho⟩) hstep with hd | hw'
        · exact .inl hd
        · exact .inr ⟨_, _, _, hw'⟩
  exact hinv.2.resolve_left (not_doomed hok)

/-- Which of the calls began first makes no difference to whether they leave the same entry. -/
theorem same_entry_iff {op op' : OverlayOp} (hp : p ∈ op.touched) (hp' : p ∈ op'.touched) (who : Bool)
    (ns : Namespace) :
    op.effect (minted ov (fun w => if w then op' else op) (some who) false) ns p =
        op'.effect (minted ov (fun w => if w then op' else op) (some who) true) ns p ↔
      op.effect ov.newContentId ns p = op'.effect (ov.step op).newContentId ns p := by
  have hid : ov.newContentId = ⟨ov.pid, ov.contentSeq⟩ := rfl
  have hnext : (ov.step op).newContentId = ⟨ov.pid, ov.contentSeq + op.mints⟩ := by
    have hseq : (ov.step op).contentSeq = ov.contentSeq + op.mints := by
      rw [Overlay.contentSeq_step]
      cases op <;> rfl
    exact congrArg (ContentId.mk ov.pid) hseq
  cases who with
  | false =>
    simp only [minted, hid, hnext, Bool.not_true, Bool.false_eq_true, if_true, if_false, Nat.add_zero,
      Option.some.injEq]
  | true =>
    simp only [minted, hid, hnext, Bool.not_false, Bool.true_eq_false, if_true, if_false, Nat.add_zero,
      Option.some.injEq]
    rcases op.mints_cases with ⟨hm, heff⟩ | ⟨q, x, seed, rfl⟩
    · rw [hm, heff _ ⟨ov.pid, ov.contentSeq⟩, Nat.add_zero]
    · rcases op'.mints_cases with ⟨hm, heff⟩ | ⟨q', x', seed', rfl⟩
      · rw [hm, heff _ ⟨ov.pid, ov.contentSeq⟩, Nat.add_zero,
          heff ⟨ov.pid, ov.contentSeq + _⟩ ⟨ov.pid, ov.contentSeq⟩]
      · obtain rfl := List.mem_singleton.mp hp
        obtain rfl := List.mem_singleton.mp hp'
        simp [OverlayOp.effect, OverlayOp.mints]

/-- The race in which the calls take their steps in this order. -/
def schedule (overwrite : SidecarText → OverlayEntry → SidecarText) :
    Race → List Bool → Option (List (Bool × MutatorStep) × Race)
  | r, [] => some ([], r)
  | r, who :: order => do
    let (l, s, c) ← (r.calls who).step overwrite r.shared
    let (ls, r') ← schedule overwrite ⟨s, update r.calls who c⟩ order
    some ((who, l) :: ls, r')

theorem trace_schedule {order : List Bool} (h : schedule overwrite r order = some (ls, r')) :
    Trace (Race.Step overwrite) r ls r' := by
  induction order generalizing r ls with
  | nil =>
    cases h
    exact .nil _
  | cons who order ih =>
    simp only [schedule, Option.bind_eq_bind, Option.bind_eq_some_iff] at h
    obtain ⟨⟨l, s, c⟩, hc, ⟨ls', r''⟩, hrest, hend⟩ := h
    cases hend
    have hfirst : Race.Step overwrite r (who, l) ⟨s, update r.calls who c⟩ := ⟨s, c, hc, rfl⟩
    exact .cons hfirst (ih hrest)

end Race

/-- The entry that an open finds at a path after two mutators of it and the one in the index are the same
exactly when the same call was the last to change both, or the calls leave the same entry. -/
theorem disk_agrees_iff {ov : Overlay} (hs : ov.Synced) {op op' : OverlayOp} {p : RepoPath}
    (hp : p ∈ op.touched) (hp' : p ∈ op'.touched)
    {overwrite : SidecarText → OverlayEntry → SidecarText} {ls : List (Bool × MutatorStep)} {r : Race}
    (hrun : Trace (Race.Step overwrite) (.start ov op op') ls r) (hok : ∀ who, r.calls who = .ok)
    {order : List MetaName} (hr : Overlay.ReadDir r.shared.disk order) (pid : Nat) :
    (Overlay.openDisk r.shared.disk order pid).lookup p = r.shared.index.entries p ↔
      lastBy (MutatorStep.onSidecar p) ls = lastBy (MutatorStep.onIndex p) ls ∨
        op.effect ov.newContentId ov.index.entries p =
          op'.effect (ov.step op).newContentId ov.index.entries p := by
  obtain ⟨e, first, late, h⟩ := Race.well_of_ok hs hp hp' hrun hok
  have hstage : ∀ who, (r.sight p ls).stage who = .ok := fun who => by
    simp only [Race.sight, hok who, Call.stage]
  have hwindow : ∀ who, ¬ ((r.sight p ls).stage who).InWindow := fun who => by
    rw [hstage]
    exact id
  have htmp : r.shared.disk.fileEntry (.tmp p) = none := by
    rw [Shared.fileEntry_tmp]
    exact h.coherent.tmp true (hwindow _) (hwindow _)
  have hopen : (Overlay.openDisk r.shared.disk order pid).lookup p = (r.shared.files p).entry :=
    (Overlay.scan_entry hr htmp).trans (Shared.fileEntry_sidecar _ _)
  have hholds : ∀ who, Sight.Holds (e who) (r.sight p ls) who .ok := fun who => by
    rw [← hstage who]
    exact h.coherent.holds who
  have hdisk : ∀ who, lastBy (MutatorStep.onSidecar p) ls = some who →
      (r.shared.files p).entry = e who := fun who hl => ((hholds who).1 hl).1
  have hindex : ∀ who, lastBy (MutatorStep.onIndex p) ls = some who →
      r.shared.index.entries p = e who := fun who hl => (hholds who).2 hl
  rw [hopen]
  by_cases hsame : lastBy (MutatorStep.onSidecar p) ls = lastBy (MutatorStep.onIndex p) ls
  · refine ⟨fun _ => .inl hsame, fun _ => ?_⟩
    cases hl : lastBy (MutatorStep.onSidecar p) ls with
    | none =>
      exact (h.coherent.unwritten hl).trans (h.coherent.unindexed (hsame.symm.trans hl)).symm
    | some who => rw [hdisk who hl, hindex who (hsame.symm.trans hl)]
  · -- each call has the last word in one of the two places
    have hlate : ∀ who, late ≠ some who := fun who hl =>
      hsame ((h.alone who (.inr hl)).ok (hstage who))
    have hentry : ∀ who, e who = OverlayOp.effect
        (Race.minted ov (fun w => if w then op' else op) first who) ov.index.entries
        (if who then op' else op) p := fun who =>
      h.early who (by simp [hok who]) (hlate who)
    have hnone : lastBy (MutatorStep.onSidecar p) ls ≠ none := fun hl =>
      hsame (hl.trans (h.coherent.first hl).symm)
    obtain ⟨who, hl⟩ := Option.ne_none_iff_exists'.mp hnone
    obtain ⟨who', hl'⟩ := Option.ne_none_iff_exists'.mp ((hholds who).1 hl).2
    have hbegun : first ≠ none := by
      intro hf
      obtain ⟨o, ho⟩ := (h.unbegun hf).1 who
      rw [hok who] at ho
      cases ho
    obtain ⟨a, ha⟩ := Option.ne_none_iff_exists'.mp hbegun
    have hboth : e false = e true ↔ op.effect ov.newContentId ov.index.entries p =
        op'.effect (ov.step op).newContentId ov.index.entries p := by
      rw [← Race.same_entry_iff hp hp' a, hentry, hentry, ha]
      rfl
    rw [hdisk who hl, hindex who' hl', or_iff_right hsame, ← hboth]
    have hne : who ≠ who' := by
      rintro rfl
      exact hsame (hl.trans hl'.symm)
    cases who <;> cases who'
    · exact (hne rfl).elim
    · rfl
    · exact eq_comm
    · exact (hne rfl).elim

/-- `unlink` runs to its end while `mkdir` has its sidecar in place and waits for the index. -/
theorem index_outlives_sidecar : ∃ ls r order,
    Trace (Race.Step fun _ _ => .torn)
      (.start (.fresh 1) (.putDir (letter 97)) (.tombstone (letter 97))) ls r ∧
    (∀ who, r.calls who = .ok) ∧ Overlay.ReadDir r.shared.disk order ∧
    r.shared.index.entries (letter 97) = some .dir ∧
    (Overlay.openDisk r.shared.disk order 2).lookup (letter 97) = some .tombstone := by
  obtain ⟨⟨ls, r⟩, hr⟩ : ∃ x, Race.schedule (fun _ _ => .torn)
      (.start (.fresh 1) (.putDir (letter 97)) (.tombstone (letter 97)))
      [false, false, false, false, true, true, true, true, true, false] = some x := ⟨_, rfl⟩
  obtain ⟨order, horder⟩ := Overlay.exists_readDir r.shared.disk
  have hrun := Race.trace_schedule hr
  have htmp : r.shared.disk.fileEntry (.tmp (letter 97)) = none := by
    cases hr
    rfl
  have hside : r.shared.disk.fileEntry (.sidecar (letter 97)) = some .tombstone := by
    cases hr
    rfl
  have hopen : (Overlay.openDisk r.shared.disk order 2).lookup (letter 97) = some .tombstone :=
    (Overlay.scan_entry horder htmp).trans hside
  cases hr
  exact ⟨_, _, order, hrun, forall_who false rfl rfl, horder, rfl, hopen⟩

theorem disk_agrees_iff_two_dirs : ∃ ls r order,
    Trace (Race.Step fun _ _ => .torn)
      (.start (.fresh 1) (.putDir (letter 97)) (.tombstone (letter 97))) ls r ∧
    Overlay.ReadDir r.shared.disk order ∧
    (Overlay.openDisk r.shared.disk order 2).lookup (letter 97) =
      r.shared.index.entries (letter 97) := by
  obtain ⟨⟨ls, r⟩, hr⟩ : ∃ x, Race.schedule (fun _ _ => .torn)
      (.start (.fresh 1) (.putDir (letter 97)) (.tombstone (letter 97)))
      [false, false, true, false, false, true, true, false, true, true] = some x := ⟨_, rfl⟩
  obtain ⟨order, horder⟩ := Overlay.exists_readDir r.shared.disk
  have hrun := Race.trace_schedule hr
  cases hr
  refine ⟨_, _, order, hrun, horder, ?_⟩
  exact (disk_agrees_iff (Overlay.synced_fresh 1) (List.mem_singleton_self _)
    (List.mem_singleton_self _) hrun (forall_who false rfl rfl) horder 2).mpr (.inl rfl)

end LazyMount
