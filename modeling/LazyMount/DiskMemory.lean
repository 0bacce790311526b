import LazyMount.MutatorSteps

/-! Two mutators at once, seen from a path that both change: what holds of the files and of the
index as long as no call is bound to fail. -/

namespace LazyMount

open Function (update)
open Transition

/-- What there is to see of a race from one path: its files, its entry in the index, how far the
calls are, and which of them was the last to change the sidecar and the entry. -/
structure Sight where
  files : PathFiles
  index : Option OverlayEntry
  stage : Bool → Stage
  sidecarBy : Option Bool
  indexBy : Option Bool

/-- The call has the temp file in its hands. -/
def Stage.InWindow : Stage → Prop
  | .writing _ _ _ | .publishing _ => True
  | _ => False

/-- The call does not go near the temp file any more. -/
def Stage.Past (st : Stage) : Prop := st = .removing ∨ st = .after ∨ st = .ok ∨ st = .error

namespace Sight

/-- One of the calls returns `Err`: two of them share the temp file, or one waits to rename a temp
file that the other has renamed. -/
def Doomed (v : Sight) : Prop :=
  (∃ who, v.stage who = .error) ∨ (∀ who, (v.stage who).InWindow) ∨
    ∃ who, (v.stage who).InWindow ∧ v.files.tmp = none ∧ (v.stage (!who)).Past

/-- What holds of a call at this stage that leaves the entry `e` at the path. -/
def Holds (e : Option OverlayEntry) (v : Sight) (who : Bool) : Stage → Prop
  | .idle => v.sidecarBy ≠ some who ∧ v.indexBy ≠ some who
  | .before | .removing => v.indexBy ≠ some who
  | .writing fd g removes => v.indexBy ≠ some who ∧ v.files.tmp = some fd ∧
      v.files.text fd = .blank ∧ (removes = false → e = some g)
  | .publishing removes => v.indexBy ≠ some who ∧ ∃ i g, v.files.tmp = some i ∧
      v.files.text i = .entry g ∧ (removes = false → e = some g)
  | .after => v.indexBy ≠ some who ∧ v.sidecarBy ≠ none ∧
      (v.sidecarBy = some who → v.files.entry = e)
  | .ok => (v.sidecarBy = some who → v.files.entry = e ∧ v.indexBy ≠ none) ∧
      (v.indexBy = some who → v.index = e)
  | .error => False

/-- The race began with the entry `e₀`, and the calls leave the entries `e`. -/
structure Coherent (e₀ : Option OverlayEntry) (e : Bool → Option OverlayEntry) (v : Sight) : Prop where
  holds : ∀ who, Holds (e who) v who (v.stage who)
  apart : ∀ who, (v.stage who).InWindow → ¬ (v.stage (!who)).InWindow
  tmp : ∀ who, ¬ (v.stage who).InWindow → ¬ (v.stage (!who)).InWindow → v.files.tmpEntry = none
  unwritten : v.sidecarBy = none → v.files.entry = e₀
  unindexed : v.indexBy = none → v.index = e₀
  first : v.sidecarBy = none → v.indexBy = none

/-- The call has had nobody beside it so far. -/
structure Alone (who : Bool) (v : Sight) : Prop where
  after : v.stage who = .after → v.sidecarBy = some who
  ok : v.stage who = .ok → v.sidecarBy = v.indexBy

/-- What a step of `who` leaves to see. -/
def next (v : Sight) (who onSidecar onIndex : Bool) (f : PathFiles) (ix : Option OverlayEntry)
    (st : Stage) : Sight where
  files := f
  index := ix
  stage := update v.stage who st
  sidecarBy := if onSidecar then some who else v.sidecarBy
  indexBy := if onIndex then some who else v.indexBy

variable {v : Sight} {who a b : Bool} {f : PathFiles} {ix : Option OverlayEntry} {st : Stage}
  {overwrite : SidecarText → OverlayEntry → SidecarText} {e : Bool → Option OverlayEntry}
  {e₀ : Option OverlayEntry}

theorem next_stage_self : (v.next who a b f ix st).stage who = st := Function.update_self ..

theorem next_stage_not : (v.next who a b f ix st).stage (!who) = v.stage (!who) :=
  Function.update_of_ne (by cases who <;> decide) ..

theorem next_quiet : v.next who false false v.files v.index (v.stage who) = v := by
  simp only [Sight.next, Function.update_eq_self]
  rfl

theorem forall_who {P : Bool → Prop} (who : Bool) (h : P who) (h' : P (!who)) (w : Bool) : P w := by
  rcases Bool.eq_or_eq_not w who with rfl | rfl
  · exact h
  · exact h'

theorem Doomed.next (h : v.Doomed) {x : Option OverlayEntry}
    (hs : LocalStep overwrite x v.files (v.stage who) a b f st) : (v.next who a b f ix st).Doomed := by
  have hself : (v.next who a b f ix st).stage who = st := next_stage_self
  have hnot : (v.next who a b f ix st).stage (!who) = v.stage (!who) := next_stage_not
  rcases h with ⟨w, hw⟩ | hboth | ⟨w, hw, htmp, hpast⟩
  · rcases Bool.eq_or_eq_not w who with rfl | rfl
    · rw [hw] at hs
      cases hs <;> exact .inl ⟨_, hself⟩
    · exact .inl ⟨_, hnot.trans hw⟩
  · have hin := hboth who
    have hother := hboth (!who)
    obtain ⟨s, hst⟩ : ∃ s, v.stage who = s := ⟨_, rfl⟩
    rw [hst] at hs hin
    cases hs with
    | quiet => exact .inr (.inl (forall_who who (by rwa [hself]) (by rwa [hnot])))
    | create | remove | update => exact hin.elim
    | write => exact .inr (.inl (forall_who who (by rw [hself]; trivial) (by rwa [hnot])))
    | @publish _ removes hf =>
      obtain ⟨i, -, -, ht, -⟩ := PathFiles.publish_eq_some hf
      refine .inr (.inr ⟨!who, by rwa [hnot], ht, ?_⟩)
      rw [Bool.not_not, hself, Stage.Past]
      cases removes <;> simp
    | stuck => exact .inl ⟨_, hself⟩
  · rcases Bool.eq_or_eq_not w who with rfl | rfl
    · obtain ⟨s, hst⟩ : ∃ s, v.stage w = s := ⟨_, rfl⟩
      rw [hst] at hs hw
      cases hs with
      | quiet => exact .inr (.inr ⟨w, by rwa [hself], htmp, by rwa [hnot]⟩)
      | create | remove | update => exact hw.elim
      | write => exact .inr (.inr ⟨w, by rw [hself]; trivial, htmp, by rwa [hnot]⟩)
      | publish hf =>
        obtain ⟨i, hi, -⟩ := PathFiles.publish_eq_some hf
        rw [hi] at htmp
        cases htmp
      | stuck => exact .inl ⟨_, hself⟩
    · rw [Bool.not_not] at hpast
      obtain ⟨s, hst⟩ : ∃ s, v.stage who = s := ⟨_, rfl⟩
      rw [hst] at hs hpast
      have hwindow : ((v.next who a b f ix st).stage (!who)).InWindow := by rwa [hnot]
      have hkeep : f.tmp = none → st.Past → (v.next who a b f ix st).Doomed := fun ht hp =>
        .inr (.inr ⟨!who, hwindow, ht, by rwa [Bool.not_not, hself]⟩)
      cases hs with
      | quiet => exact hkeep htmp hpast
      | create | write | publish => simp [Stage.Past] at hpast
      | stuck => exact .inl ⟨_, hself⟩
      | remove => exact hkeep htmp (by simp [Stage.Past])
      | update => exact hkeep htmp (by simp [Stage.Past])

theorem Holds.congr {x : Option OverlayEntry} {w : Bool} {v' : Sight} {s : Stage} (h : Holds x v w s)
    (hsidecar : v'.sidecarBy = some (!w) ∨ v'.sidecarBy = v.sidecarBy ∧ v'.files.entry = v.files.entry)
    (hindex : v'.indexBy = some (!w) ∨ v'.indexBy = v.indexBy ∧ v'.index = v.index)
    (hfiles : s.InWindow → v'.files.tmp = v.files.tmp ∧ v'.files.text = v.files.text) :
    Holds x v' w s := by
  have hne : some (!w) ≠ some w := by cases w <;> decide
  have hby : v.indexBy ≠ some w → v'.indexBy ≠ some w := by
    intro hn
    rcases hindex with hi | ⟨hi, -⟩ <;> rw [hi]
    · exact hne
    · exact hn
  cases s with
  | idle =>
    refine ⟨?_, hby h.2⟩
    rcases hsidecar with hs | ⟨hs, -⟩ <;> rw [hs]
    · exact hne
    · exact h.1
  | before | removing => exact hby h
  | writing fd g removes =>
    obtain ⟨htmp, htext⟩ := hfiles trivial
    exact ⟨hby h.1, by rw [htmp, htext]; exact h.2⟩
  | publishing removes =>
    obtain ⟨htmp, htext⟩ := hfiles trivial
    exact ⟨hby h.1, by rw [htmp, htext]; exact h.2⟩
  | after =>
    rcases hsidecar with hs | ⟨hs, he⟩
    · exact ⟨hby h.1, by simp [hs], fun hw => (hne (hs.symm.trans hw)).elim⟩
    · exact ⟨hby h.1, by rw [hs, he]; exact h.2⟩
  | ok =>
    have hsome : v.indexBy ≠ none → v'.indexBy ≠ none := by
      intro hn
      rcases hindex with hi | ⟨hi, -⟩ <;> rw [hi]
      · simp
      · exact hn
    refine ⟨fun hw => ?_, fun hw => ?_⟩
    · rcases hsidecar with hs | ⟨hs, he⟩
      · exact (hne (hs.symm.trans hw)).elim
      · obtain ⟨hentry, hi⟩ := h.1 (hs.symm.trans hw)
        exact ⟨he.trans hentry, hsome hi⟩
    · rcases hindex with hi | ⟨hi, hx⟩
      · exact (hne (hi.symm.trans hw)).elim
      · exact hx.trans (h.2 (hi.symm.trans hw))
  | error => exact h

theorem Coherent.of_step (h : v.Coherent e₀ e)
    (hown : Holds (e who) (v.next who a b f ix st) who st)
    (hsidecar : a = false → f.entry = v.files.entry) (hindex : b = false → ix = v.index)
    (hafter : b = true → v.sidecarBy ≠ none)
    (hwindow : st.InWindow → ¬ (v.stage (!who)).InWindow)
    (htmp : ¬ st.InWindow → ¬ (v.stage (!who)).InWindow → f.tmpEntry = none)
    (hfiles : (v.stage (!who)).InWindow → f.tmp = v.files.tmp ∧ f.text = v.files.text) :
    (v.next who a b f ix st).Coherent e₀ e := by
  have hself : (v.next who a b f ix st).stage who = st := next_stage_self
  have hnot : (v.next who a b f ix st).stage (!who) = v.stage (!who) := next_stage_not
  refine ⟨forall_who who (by rwa [hself]) ?_, forall_who who ?_ ?_, forall_who who ?_ ?_, ?_, ?_, ?_⟩
  · rw [hnot]
    refine (h.holds (!who)).congr ?_ ?_ hfiles
    · rw [Bool.not_not]
      cases a with
      | true => exact .inl rfl
      | false => exact .inr ⟨rfl, hsidecar rfl⟩
    · rw [Bool.not_not]
      cases b with
      | true => exact .inl rfl
      | false => exact .inr ⟨rfl, hindex rfl⟩
  · rwa [hself, hnot]
  · rw [Bool.not_not, hself, hnot]
    exact fun hother hst => hwindow hst hother
  · rwa [hself, hnot]
  · rw [Bool.not_not, hself, hnot]
    exact fun hother hst => htmp hst hother
  · cases a with
    | true => exact fun hn => (Option.some_ne_none _ hn).elim
    | false => exact fun hn => (hsidecar rfl).trans (h.unwritten hn)
  · cases b with
    | true => exact fun hn => (Option.some_ne_none _ hn).elim
    | false => exact fun hn => (hindex rfl).trans (h.unindexed hn)
  · cases a with
    | true => exact fun hn => (Option.some_ne_none _ hn).elim
    | false =>
      cases b with
      | true => exact fun hn => (hafter rfl hn).elim
      | false => exact h.first

theorem Coherent.next (h : v.Coherent e₀ e)
    (hs : LocalStep overwrite (e who) v.files (v.stage who) a b f st)
    (hix : ix = if b then e who else v.index) :
    (v.next who a b f ix st).Doomed ∨ (v.next who a b f ix st).Coherent e₀ e := by
  have hself : (v.next who a b f ix st).stage who = st := next_stage_self
  have hnot : (v.next who a b f ix st).stage (!who) = v.stage (!who) := next_stage_not
  have hown := h.holds who
  have happart := h.apart who
  have htmp := h.tmp who
  obtain ⟨s, hst⟩ : ∃ s, v.stage who = s := ⟨_, rfl⟩
  rw [hst] at hs hown happart htmp
  cases hs with
  | quiet =>
    obtain rfl : ix = v.index := hix
    rw [← hst, next_quiet]
    exact .inr h
  | stuck => exact .inl (.inl ⟨_, hself⟩)
  | @create g removes hg =>
    by_cases hother : (v.stage (!who)).InWindow
    · exact .inl (.inr (.inl (forall_who who (by rw [hself]; trivial) (by rwa [hnot]))))
    · obtain ⟨htmp, hblank, hentry⟩ := v.files.create_spec
      exact .inr (h.of_step ⟨hown, htmp, hblank, hg⟩ (fun _ => hentry) (fun _ => hix) (by simp)
        (fun _ => hother) (fun hn => (hn trivial).elim) fun ho => (hother ho).elim)
  | @write fd g removes hg =>
    obtain ⟨hindex, hname, hblank, -⟩ := hown
    have hentry : (v.files.write overwrite fd g).entry = v.files.entry := PathFiles.entry_write hname g
    have htext : (v.files.write overwrite fd g).text fd = .entry g := PathFiles.text_write hblank g
    have hother : ¬ (v.stage (!who)).InWindow := happart trivial
    exact .inr (h.of_step ⟨hindex, fd, g, hname, htext, hg⟩ (fun _ => hentry) (fun _ => hix) (by simp)
      (fun _ => hother) (fun hn => (hn trivial).elim) fun ho => (hother ho).elim)
  | @publish _ removes hf =>
    obtain ⟨hindex, j, g, hj, hg, hends⟩ := hown
    obtain ⟨i, hi, hside, hnone, htext⟩ := PathFiles.publish_eq_some hf
    obtain rfl : i = j := Option.some.inj (hi.symm.trans hj)
    have hentry : f.entry = some g := by
      rw [PathFiles.entry, hside, Option.bind_some, htext, hg]
      rfl
    have htmpEntry : f.tmpEntry = none := by rw [PathFiles.tmpEntry, hnone, Option.bind_none]
    have hother : ¬ (v.stage (!who)).InWindow := happart trivial
    have hnew : Holds (e who) (v.next who true false f ix (if removes then .removing else .after)) who
        (if removes then .removing else .after) := by
      cases removes with
      | true => exact hindex
      | false => exact ⟨hindex, Option.some_ne_none _, fun _ => hentry.trans (hends rfl).symm⟩
    exact .inr (h.of_step hnew (by simp) (fun _ => hix) (by simp) (fun _ => hother)
      (fun _ _ => htmpEntry) fun ho => (hother ho).elim)
  | remove he =>
    have hnew : Holds (e who) (v.next who true false v.files.remove ix .after) who .after :=
      ⟨hown, Option.some_ne_none _, fun _ => he.symm⟩
    exact .inr (h.of_step hnew (by simp) (fun _ => hix) (by simp) (fun hst => hst.elim)
      (fun _ => htmp id) fun _ => ⟨rfl, rfl⟩)
  | update =>
    obtain ⟨-, hsome, hentry⟩ := hown
    have hnew : Holds (e who) (v.next who false true v.files ix .ok) who .ok :=
      ⟨fun hw => ⟨hentry hw, Option.some_ne_none _⟩, fun _ => hix⟩
    exact .inr (h.of_step hnew (fun _ => rfl) (by simp) (fun _ => hsome) (fun hst => hst.elim)
      (fun _ => htmp id) fun _ => ⟨rfl, rfl⟩)

theorem Coherent.congr {e' : Bool → Option OverlayEntry} (h : v.Coherent e₀ e)
    (hholds : ∀ who, Holds (e' who) v who (v.stage who)) : v.Coherent e₀ e' :=
  ⟨hholds, h.apart, h.tmp, h.unwritten, h.unindexed, h.first⟩

theorem Coherent.begin (h : v.Coherent e₀ e) (hidle : v.stage who = .idle) (hst : st.Begun)
    (x : Option OverlayEntry) : (v.next who false false v.files v.index st).Doomed ∨
      (v.next who false false v.files v.index st).Coherent e₀ (update e who x) := by
  have hself : (v.next who false false v.files v.index st).stage who = st := next_stage_self
  have hne : (!who) ≠ who := by cases who <;> decide
  have hx : update e who x who = x := Function.update_self ..
  have hx' : update e who x (!who) = e (!who) := Function.update_of_ne hne ..
  have htmp := h.tmp who
  obtain ⟨hnew, hnew'⟩ : v.sidecarBy ≠ some who ∧ v.indexBy ≠ some who := by
    have hold := h.holds who
    rwa [hidle] at hold
  have hcoh : v.Coherent e₀ (update e who x) := by
    refine h.congr (forall_who who ?_ (by rw [hx']; exact h.holds (!who)))
    rw [hidle]
    exact ⟨hnew, hnew'⟩
  have hstep : Holds (update e who x who) (v.next who false false v.files v.index st) who st →
      ¬ st.InWindow → (v.next who false false v.files v.index st).Coherent e₀ (update e who x) := by
    intro hown hwindow
    refine hcoh.of_step hown (fun _ => rfl) (fun _ => rfl) (by simp) (fun hw => (hwindow hw).elim)
      (fun _ => htmp ?_) fun _ => ⟨rfl, rfl⟩
    rw [hidle]
    exact id
  rcases hst with rfl | rfl | rfl | rfl
  · exact .inr (hstep hnew' id)
  · exact .inr (hstep hnew' id)
  · exact .inr (hstep ⟨fun hw => (hnew hw).elim, fun hw => (hnew' hw).elim⟩ id)
  · exact .inl (.inl ⟨who, hself⟩)

theorem Alone.next (h : v.Alone who) {x : Option OverlayEntry}
    (hs : LocalStep overwrite x v.files (v.stage who) a b f st) : (v.next who a b f ix st).Alone who := by
  have hself : (v.next who a b f ix st).stage who = st := next_stage_self
  have hsb : (v.next who a b f ix st).sidecarBy = if a then some who else v.sidecarBy := rfl
  have hib : (v.next who a b f ix st).indexBy = if b then some who else v.indexBy := rfl
  have ⟨after, ok⟩ := h
  obtain ⟨s, hst⟩ : ∃ s, v.stage who = s := ⟨_, rfl⟩
  rw [hst] at hs
  generalize v.next who a b f ix st = v' at *
  cases hs <;> constructor <;> grind

end Sight

end LazyMount
