import LazyMount.HandlerSteps
import LazyMount.OverlayContent
import LazyMount.Lib.Interleave

/-! Two calls at once, step by step, and the writes through the descriptors they return. -/

namespace LazyMount

open RepoPath Prog

namespace World

def write (w : World) (content : ContentId) (offset : Nat) (bytes : Bytes) : World :=
  { w with overlay := w.overlay.editContent content (writeAt offset bytes) }

def writes (w : World) (ws : List (ContentId × Nat × Bytes)) : World :=
  ws.foldl (fun w x => w.write x.1 x.2.1 x.2.2) w

end World

namespace Projection

variable {P : Projection}

theorem HandlerStep.sameTree {l : Action} {upd : World → World} (h : P.HandlerStep l upd)
    (w v : World) (hs : SameTree w v) : SameTree (upd w) (upd v) := by
  obtain ⟨hov, hino⟩ := hs
  cases h with
  | quiet h =>
    cases h with
    | read | fetch | record => exact ⟨hov, hino⟩
    | inode f => exact ⟨hov, congrArg f hino⟩
  | mutate op => exact ⟨congrArg (·.step op) hov, hino⟩
  | edit content f => exact ⟨congrArg (·.editContent content f) hov, hino⟩

theorem sameTree_writes {w v : World} (h : SameTree w v) (ws : List (ContentId × Nat × Bytes)) :
    SameTree (w.writes ws) (v.writes ws) := by
  induction ws generalizing w v with
  | nil => exact h
  | cons x ws ih =>
    exact ih ⟨congrArg (·.editContent x.1 (writeAt x.2.1 x.2.2)) h.1, h.2⟩

/-- One of the two calls takes no step before the other has ended that may not as well be taken
behind it. -/
def OneDefers (sched : List Bool) (w : World) (m n : Handler Reply) : Prop :=
  Defers SameTree sched w m n ∨ Defers SameTree (sched.map not) w n m

theorem serial_of_oneDefers {op op' : Op} {fuel fuel' : Nat} {w w' : World} {sched : List Bool}
    {r r' : Outcome Error Reply}
    (hrun : interleave sched w (op.handler P fuel) (op'.handler P fuel') = (w', .done r, .done r'))
    (hdefer : OneDefers sched w (op.handler P fuel) (op'.handler P fuel')) :
    ∃ v, SameTree w' v ∧ (serial w (op.handler P fuel) (op'.handler P fuel') = (v, r, r') ∨
      serial w (op'.handler P fuel') (op.handler P fuel) = (v, r', r)) := by
  have hm := op.within P fuel
  have hm' := op'.within P fuel'
  rcases hdefer with hd | hd
  · obtain ⟨hres, hend⟩ := hd.serial hm hm' (fun _ _ => HandlerStep.sameTree) equivalence_sameTree hrun
    exact ⟨_, hend, .inl (Prod.ext rfl hres)⟩
  · have hrun' : interleave (sched.map not) w (op'.handler P fuel') (op.handler P fuel) =
        (w', .done r', .done r) := by rw [interleave_not, hrun]
    obtain ⟨hres, hend⟩ := hd.serial hm' hm (fun _ _ => HandlerStep.sameTree) equivalence_sameTree hrun'
    exact ⟨_, hend, .inr (Prod.ext rfl hres)⟩

/-- What is left of an `open_write` that has not found the file in the overlay: it fails, or
returns a content file of its own. -/
def CopiesUp : Handler Reply → Prop
  | .done r => ∀ c, r ≠ .ok (.opened none c)
  | .step _ upd k => (upd = id ∧ ∀ w, CopiesUp (k w)) ∨
      ∀ w, (upd w).inodes = w.inodes ∧ (upd w).overlay.contentSeq = w.overlay.contentSeq + 1 ∧
        k w = .done (.ok (.opened none w.overlay.newContentId))

/-- A call that looks its path up in the overlay behind as many steps, in states with `I`. -/
def Unlooked (I : World → Prop) : Nat → Handler Reply → Prop
  | _, .done _ => False
  | 0, .step _ upd k => upd = id ∧ ∀ w, I w → CopiesUp (k w)
  | i + 1, .step _ upd k => (∀ w, SameTree (upd w) w) ∧ (∀ v w, v.inodes = w.inodes → k v = k w) ∧
      ∀ w, I w → Unlooked I i (k w)

theorem not_unlooked_done {I : World → Prop} {i : Nat} {r : Outcome Error Reply} : ¬ Unlooked I i (.done r) := by
  cases i <;> exact id

def Uncopied (ino : Nat) (path : RepoPath) (w : World) : Prop :=
  w.pathOf ino = .ok path ∧ ∀ c x, w.overlay.lookup path ≠ some (.file c x)

theorem Uncopied.congr {ino : Nat} {path : RepoPath} {v w : World} (h : SameTree v w)
    (hw : Uncopied ino path w) : Uncopied ino path v := by
  rw [Uncopied, World.pathOf, h.1, h.2]
  exact hw

theorem copiesUp_createFile (path : RepoPath) (x : Bool) (seed : Option Bytes) :
    CopiesUp (.opened none <$> Handler.createFile path x seed) :=
  .inr fun _ => ⟨rfl, rfl, rfl⟩

theorem copiesUp_read {α : Type} {f : World → Except Error α} {m : α → Handler ContentId}
    (h : ∀ a, CopiesUp (.opened none <$> m a)) :
    CopiesUp (.opened none <$> ((.read .read f : Handler α) >>= m)) := by
  refine .inl ⟨rfl, fun w => ?_⟩
  show CopiesUp (.opened none <$> (Prog.liftExcept (f w) >>= m))
  cases f w with
  | error e => exact fun c => by simp
  | ok a => exact h a

theorem unlooked_openWrite (ino fuel : Nat) (trunc : Bool) (path : RepoPath) :
    Unlooked (Uncopied ino path) 2 ((Op.openWrite ino trunc).handler P fuel) := by
  refine ⟨fun w => ⟨rfl, rfl⟩, fun v w h => ?_, fun w hw => ?_⟩
  · simp only [World.pathOf, h]
  simp only [hw.1]
  refine ⟨fun w => ⟨rfl, rfl⟩, fun _ _ _ => rfl, fun w hw => ⟨rfl, fun w hw => ?_⟩⟩
  dsimp only [Prog.liftExcept, Prog.bind]
  split
  · rename_i c x hl
    exact (hw.2 c x hl).elim
  · refine copiesUp_read fun r => ?_
    split
    · cases trunc with
      | true => exact copiesUp_createFile path _ none
      | false =>
        refine .inl ⟨rfl, fun w => ?_⟩
        cases hb : P.store.readBlobRaw _ with
        | error e => exact fun c => by simp
        | ok data => exact copiesUp_createFile path _ (some data)
    · exact fun c => by simp

/-- The content files that two calls return, if they have returned one, are older than the next
and not the same. -/
def Apart (w : World) (m n : Handler Reply) : Prop :=
  (CopiesUp m ∨ ∃ c, m = .done (.ok (.opened none c)) ∧ c.seq < w.overlay.contentSeq) ∧
    (CopiesUp n ∨ ∃ c, n = .done (.ok (.opened none c)) ∧ c.seq < w.overlay.contentSeq) ∧
    ∀ c, m = .done (.ok (.opened none c)) → n ≠ .done (.ok (.opened none c))

theorem Apart.symm {w : World} {m n : Handler Reply} (h : Apart w m n) : Apart w n m :=
  ⟨h.2.1, h.1, fun c hn hm => h.2.2 c hm hn⟩

theorem CopiesUp.ne_opened {m : Handler Reply} (hm : CopiesUp m) (c : ContentId) :
    m ≠ .done (.ok (.opened none c)) := by
  rintro rfl
  exact hm c rfl

theorem Apart.step {w : World} {l : Action} {upd : World → World} {k : World → Handler Reply}
    {n : Handler Reply} (h : Apart w (.step l upd k) n) : Apart (upd w) (k w) n := by
  obtain ⟨hm, hn, hne⟩ := h
  have hm : CopiesUp (.step l upd k) := hm.resolve_right (by simp)
  rcases hm with ⟨rfl, hk⟩ | hk
  · exact ⟨.inl (hk w), hn, fun c hc => ((hk w).ne_opened c hc).elim⟩
  · obtain ⟨-, hseq, hdone⟩ := hk w
    refine ⟨.inr ⟨_, hdone, ?_⟩, ?_, ?_⟩
    · rw [hseq]
      exact Nat.lt_succ_self _
    · rcases hn with hn | ⟨c, rfl, hc⟩
      · exact .inl hn
      · exact .inr ⟨c, rfl, by omega⟩
    · rintro c hc rfl
      rw [hdone] at hc
      cases hc
      rcases hn with hn | ⟨c, hn, hc⟩
      · exact hn _ rfl
      · cases hn
        exact absurd hc (Nat.lt_irrefl _)

theorem Apart.interleave {w w' : World} {m n : Handler Reply} {bs : List Bool}
    {r r' : Outcome Error Reply} (h : Apart w m n)
    (hrun : interleave bs w m n = (w', .done r, .done r')) (c : ContentId)
    (hr : r = .ok (.opened none c)) : r' ≠ .ok (.opened none c) := by
  induction bs generalizing w m n with
  | nil =>
    cases hrun
    intro hr'
    exact h.2.2 c (by rw [hr]) (by rw [hr'])
  | cons b bs ih =>
    cases b with
    | true =>
      cases m with
      | done => exact ih h hrun
      | step l upd k => exact ih h.step hrun
    | false =>
      cases n with
      | done => exact ih h hrun
      | step l upd k => exact ih h.symm.step.symm hrun

section Early

variable {upd : World → World} {k : World → Handler Reply} {I : World → Prop}

theorem passes_copiesUp (hupd : ∀ w, SameTree (upd w) w)
    (hk : ∀ v w, v.inodes = w.inodes → k v = k w) {m : Handler Reply} (hm : CopiesUp m)
    (hw : Within P.HandlerStep SameTree m) (s : World) : Passes SameTree upd k s m := by
  induction m generalizing s with
  | done r => trivial
  | step l upd' k' ih =>
    obtain ⟨hl, hread, hrest⟩ := hw
    have hcomm : SameTree (upd' (upd s)) (upd (upd' s)) :=
      equivalence_sameTree.trans (hl.sameTree _ _ (hupd s)) (equivalence_sameTree.symm (hupd _))
    rcases hm with ⟨rfl, hm⟩ | hm
    · exact ⟨hcomm, hread _ _ (hupd s), rfl, ih s (hm s) (hrest s) s⟩
    · obtain ⟨hino, -, hdone⟩ := hm s
      refine ⟨hcomm, hread _ _ (hupd s), hk _ _ hino, ?_⟩
      rw [hdone]
      trivial

theorem passes_unlooked (hupd : ∀ w, SameTree (upd w) w)
    (hk : ∀ v w, v.inodes = w.inodes → k v = k w) (hI : ∀ v w, SameTree v w → I w → I v)
    {m : Handler Reply} {i : Nat} (hm : Unlooked I i m) (hw : Within P.HandlerStep SameTree m) {s : World}
    (hs : I s) : Passes SameTree upd k s m := by
  induction m generalizing s i with
  | done r => trivial
  | step l upd' k' ih =>
    obtain ⟨hl, hread, hrest⟩ := hw
    have hcomm : SameTree (upd' (upd s)) (upd (upd' s)) :=
      equivalence_sameTree.trans (hl.sameTree _ _ (hupd s)) (equivalence_sameTree.symm (hupd _))
    cases i with
    | zero =>
      obtain ⟨rfl, hm⟩ := hm
      exact ⟨hcomm, hread _ _ (hupd s), rfl, passes_copiesUp hupd hk (hm s hs) (hrest s) s⟩
    | succ i =>
      obtain ⟨hupd', -, hm⟩ := hm
      exact ⟨hcomm, hread _ _ (hupd s), hk _ _ (hupd' s).2,
        ih s (hm s hs) (hrest s) (hI _ _ (hupd' s) hs)⟩

end Early

/-- The second call is given at most `i` steps before the first has ended. -/
def Behind (i : Nat) (sched : List Bool) (w : World) (m n : Handler Reply) : Prop :=
  ∃ pre post, sched = pre ++ post ∧ pre.count false ≤ i ∧ ∃ r, (interleave pre w m n).2.1 = .done r

variable {I : World → Prop} {w w' : World} {m n : Handler Reply} {bs : List Bool} {c : ContentId} {i j : Nat}

theorem Behind.first {l : Action} {upd : World → World} {k : World → Handler Reply}
    (h : Behind i bs (upd w) (k w) n) : Behind i (true :: bs) w (.step l upd k) n := by
  obtain ⟨pre, post, rfl, hcount, hdone⟩ := h
  exact ⟨true :: pre, post, rfl, by simpa using hcount, hdone⟩

theorem Behind.second {l : Action} {upd : World → World} {k : World → Handler Reply}
    (h : Behind i bs (upd w) m (k w)) : Behind (i + 1) (false :: bs) w m (.step l upd k) := by
  obtain ⟨pre, post, rfl, hcount, hdone⟩ := h
  exact ⟨false :: pre, post, rfl, by simpa using hcount, hdone⟩

/-- Of two calls that return the same content file, one that looks the path up before the other does so
behind its last step. -/
theorem behind_of_copiesUp (hI : ∀ v w, SameTree v w → I w → I v) (hs : I w) (hm : CopiesUp m)
    (hn : Unlooked I i n)
    (hrun : interleave bs w m n =
      (w', .done (.ok (.opened none c)), .done (.ok (.opened none c)))) : Behind i bs w m n := by
  induction bs generalizing w m n i with
  | nil =>
    cases hrun
    exact (hm c rfl).elim
  | cons b bs ih =>
    cases b with
    | true =>
      cases m with
      | done r =>
        obtain ⟨pre, post, rfl, hcount, hdone⟩ := ih hs hm hn hrun
        exact ⟨true :: pre, post, rfl, by simpa using hcount, hdone⟩
      | step l upd k =>
        rcases hm with ⟨rfl, hm⟩ | hm
        · exact (ih hs (hm w) hn hrun).first
        · exact ⟨[true], bs, rfl, by simp, _, (hm w).2.2⟩
    | false =>
      cases n with
      | done r => exact (not_unlooked_done hn).elim
      | step l upd k =>
        cases i with
        | zero =>
          obtain ⟨rfl, hn⟩ := hn
          have hapart : Apart w m (k w) :=
            ⟨.inl hm, .inl (hn w hs), fun c hc => (hm.ne_opened c hc).elim⟩
          have hrun' : interleave bs w m (k w) = _ := hrun
          exact (hapart.interleave hrun' c rfl rfl).elim
        | succ i => exact (ih (hI _ _ (hn.1 w) hs) hm (hn.2.2 w hs) hrun).second

theorem behind_of_unlooked (hI : ∀ v w, SameTree v w → I w → I v) (hs : I w) (hm : Unlooked I i m)
    (hn : Unlooked I j n)
    (hrun : interleave bs w m n =
      (w', .done (.ok (.opened none c)), .done (.ok (.opened none c)))) :
    Behind j bs w m n ∨ Behind i (bs.map not) w n m := by
  induction bs generalizing w m n i j with
  | nil =>
    cases hrun
    exact (not_unlooked_done hm).elim
  | cons b bs ih =>
    cases b with
    | true =>
      cases m with
      | done r => exact (not_unlooked_done hm).elim
      | step l upd k =>
        cases i with
        | zero =>
          obtain ⟨rfl, hm⟩ := hm
          exact .inl (behind_of_copiesUp hI hs (hm w hs) hn hrun).first
        | succ i =>
          rcases ih (hI _ _ (hm.1 w) hs) (hm.2.2 w hs) hn hrun with h | h
          · exact .inl h.first
          · exact .inr h.second
    | false =>
      cases n with
      | done r => exact (not_unlooked_done hn).elim
      | step l upd k =>
        cases j with
        | zero =>
          obtain ⟨rfl, hn⟩ := hn
          have hrun' : interleave (bs.map not) w (k w) m =
              (w', .done (.ok (.opened none c)), .done (.ok (.opened none c))) := by
            rw [interleave_not, show interleave bs w m (k w) = _ from hrun]
          exact .inr (behind_of_copiesUp hI hs (hn w hs) hm hrun').first
        | succ j =>
          rcases ih (hI _ _ (hn.1 w) hs) hm (hn.2.2 w hs) hrun with h | h
          · exact .inl h.second
          · exact .inr h.first

theorem defers_of_behind (hI : ∀ v w, SameTree v w → I w → I v) (hs : I w)
    (hm : (∃ i, Unlooked I i m) ∨ CopiesUp m) (hn : Unlooked I j n) (hwm : Within P.HandlerStep SameTree m)
    (hwn : Within P.HandlerStep SameTree n) (h : Behind j bs w m n) : Defers SameTree bs w m n := by
  obtain ⟨pre, post, rfl, hcount, r, hdone⟩ := h
  induction pre generalizing w m n j with
  | nil =>
    obtain rfl : m = .done r := hdone
    exact defers_done _ _ _ _
  | cons b pre ih =>
    cases b with
    | true =>
      cases m with
      | done q => exact defers_done _ _ _ _
      | step l upd k =>
        have hcount' : pre.count false ≤ j := by simpa using hcount
        rcases hm with ⟨i, hm⟩ | ⟨rfl, hm⟩ | hm
        · cases i with
          | zero =>
            obtain ⟨rfl, hm⟩ := hm
            exact ih hs (.inr (hm w hs)) hn (hwm.2.2 w) hwn hcount' hdone
          | succ i =>
            exact ih (hI _ _ (hm.1 w) hs) (.inl ⟨i, hm.2.2 w hs⟩) hn (hwm.2.2 w) hwn hcount' hdone
        · exact ih hs (.inr (hm w)) hn (hwm.2.2 w) hwn hcount' hdone
        · show Defers SameTree (pre ++ post) (upd w) (k w) n
          rw [(hm w).2.2]
          exact defers_done _ _ _ _
    | false =>
      cases n with
      | done q => exact (not_unlooked_done hn).elim
      | step l upd k =>
        cases j with
        | zero => simp at hcount
        | succ j =>
          have hcount' : pre.count false ≤ j := by simpa using hcount
          obtain ⟨hupd, hk, hn⟩ := hn
          refine ⟨?_, ih (hI _ _ (hupd w) hs) hm (hn w hs) hwm (hwn.2.2 w) hcount' hdone⟩
          rcases hm with ⟨i, hm⟩ | hm
          · exact passes_unlooked hupd hk hI hm hwm hs
          · exact passes_copiesUp hupd hk hm hwm w

theorem uncopied_of_resolve {ino : Nat} {path : RepoPath} {oid : ObjectId} {x : Bool}
    (hname : w.pathOf ino = .ok path)
    (hres : P.resolve w.overlay path = .ok (some (.file (.baseline oid) x))) :
    Uncopied ino path w := ⟨hname, ne_file_of_baseline hres⟩

section OpenWrite

variable {ino : Nat} {path : RepoPath}

def appended (P : Projection) (path : RepoPath) (w : World) : World :=
  { w with journal := w.journal.map fun j => record P.limits j.1 j.2 path.bytes }

theorem run_openWrite_uncopied {oid : ObjectId} {x : Bool} {data : Bytes}
    (hname : w.pathOf ino = .ok path)
    (hres : P.resolve w.overlay path = .ok (some (.file (.baseline oid) x)))
    (hblob : P.store.readBlobRaw oid = .ok data) (trunc : Bool) :
    ∃ v seed, (P.openWrite ino trunc).run w = (.ok w.overlay.newContentId, v) ∧
      v.inodes = w.inodes ∧ v.overlay = w.overlay.step (.createFile path x seed) := by
  have hl := (uncopied_of_resolve hname hres).2
  have hrecord : (P.recordChangeFile path).run w = (.ok (), appended P path w) := rfl
  have hlook : (Handler.lookupEntry path).run (appended P path w) =
      (.ok (w.overlay.lookup path), appended P path w) := rfl
  have hresolve : (P.resolveStep path).run (appended P path w) =
      (.ok (some (.file (.baseline oid) x)), appended P path w) := run_read hres
  rw [openWrite, run_bind_ok (show (Handler.pathOf ino).run w = _ from run_read hname),
    run_bind_ok hrecord, run_bind_ok hlook]
  split
  · rename_i c y hc
    exact (hl c y hc).elim
  · rw [run_bind_ok hresolve]
    cases trunc with
    | true => exact ⟨_, none, rfl, rfl, rfl⟩
    | false =>
      have hfetch : (P.materialize oid).run (appended P path w) = (.ok data, appended P path w) :=
        run_read hblob
      have hseed : (if false = true then pure none else some <$> P.materialize oid).run
          (appended P path w) = (.ok (some data), appended P path w) := run_bind_ok hfetch
      rw [run_bind_ok hseed]
      exact ⟨_, some data, rfl, rfl, rfl⟩

theorem run_openWrite_copied {c : ContentId} {x : Bool} (hname : w.pathOf ino = .ok path)
    (hl : w.overlay.lookup path = some (.file c x)) (hc : (w.overlay.disk.content c).isSome)
    (trunc : Bool) : ((P.openWrite ino trunc).run w).1 = .ok c := by
  have hrecord : (P.recordChangeFile path).run w = (.ok (), appended P path w) := rfl
  have hlook : (Handler.lookupEntry path).run (appended P path w) =
      (.ok (some (.file c x)), appended P path w) := run_read (congrArg _ hl)
  have hopen : (Handler.openContent path).run (appended P path w) = (.ok c, appended P path w) := by
    refine run_read ?_
    show w.overlay.openContent path = .ok c
    simp [Overlay.openContent, hl, hc]
  rw [openWrite, run_bind_ok (show (Handler.pathOf ino).run w = _ from run_read hname),
    run_bind_ok hrecord, run_bind_ok hlook]
  show (run (Handler.openContent path >>= _) _).1 = _
  rw [run_bind_ok hopen]
  cases trunc <;> rfl

theorem serial_openWrite {oid : ObjectId} {x : Bool} {data : Bytes}
    (hname : w.pathOf ino = .ok path)
    (hres : P.resolve w.overlay path = .ok (some (.file (.baseline oid) x)))
    (hblob : P.store.readBlobRaw oid = .ok data) (fuel fuel' : Nat) (trunc trunc' : Bool) :
    ∃ c, (serial w ((Op.openWrite ino trunc).handler P fuel)
      ((Op.openWrite ino trunc').handler P fuel')).2 = (.ok (.opened none c), .ok (.opened none c)) := by
  obtain ⟨v, seed, hrun, hino, hov⟩ := run_openWrite_uncopied hname hres hblob trunc
  have hname' : v.pathOf ino = .ok path := by rw [← hname, World.pathOf, World.pathOf, hino]
  have hl : v.overlay.lookup path = some (.file w.overlay.newContentId x) := by
    rw [hov]
    exact Function.update_self ..
  have hc : (v.overlay.disk.content w.overlay.newContentId).isSome := by
    rw [hov, Overlay.content_createFile]
    rfl
  have hcopied : ((P.openWrite ino trunc').run v).1 = .ok w.overlay.newContentId :=
    run_openWrite_copied hname' hl hc trunc'
  have hfirst : ((Op.openWrite ino trunc).handler P fuel).run w =
      (.ok (.opened none w.overlay.newContentId), v) := run_bind_ok hrun
  have hsecond : ((Op.openWrite ino trunc').handler P fuel').run v =
      (.ok (.opened none w.overlay.newContentId), ((P.openWrite ino trunc').run v).2) :=
    run_bind_ok (Prod.ext hcopied rfl)
  refine ⟨w.overlay.newContentId, ?_⟩
  rw [serial, hfirst, hsecond]

section Both

variable {oid : ObjectId} {x : Bool} {data : Bytes} {trunc trunc' : Bool} {fuel fuel' : Nat} {sched : List Bool}
  {r r' : Outcome Error Reply}

theorem opened_same_of_oneDefers (hname : w.pathOf ino = .ok path)
    (hres : P.resolve w.overlay path = .ok (some (.file (.baseline oid) x)))
    (hblob : P.store.readBlobRaw oid = .ok data)
    (hrun : interleave sched w ((Op.openWrite ino trunc).handler P fuel)
      ((Op.openWrite ino trunc').handler P fuel') = (w', .done r, .done r'))
    (hdefer : OneDefers sched w ((Op.openWrite ino trunc).handler P fuel)
      ((Op.openWrite ino trunc').handler P fuel')) :
    ∃ c, r = .ok (.opened none c) ∧ r' = .ok (.opened none c) := by
  obtain ⟨v, -, hserial | hserial⟩ := serial_of_oneDefers hrun hdefer
  · obtain ⟨c, hc⟩ := serial_openWrite hname hres hblob fuel fuel' trunc trunc'
    rw [hserial] at hc
    cases hc
    exact ⟨c, rfl, rfl⟩
  · obtain ⟨c, hc⟩ := serial_openWrite hname hres hblob fuel' fuel trunc' trunc
    rw [hserial] at hc
    cases hc
    exact ⟨c, rfl, rfl⟩

/-- One of two `open_write` calls looks the path up, in its third step, only after the other has created the
file, in its last. -/
def OneLooksBehind (sched : List Bool) (w : World) (m n : Handler Reply) : Prop :=
  Behind 2 sched w m n ∨ Behind 2 (sched.map not) w n m

theorem oneDefers_of_oneLooksBehind (hw : Uncopied ino path w)
    (h : OneLooksBehind sched w ((Op.openWrite ino trunc).handler P fuel)
      ((Op.openWrite ino trunc').handler P fuel')) :
    OneDefers sched w ((Op.openWrite ino trunc).handler P fuel) ((Op.openWrite ino trunc').handler P fuel') := by
  have hunlooked : ∀ trunc fuel, Unlooked (Uncopied ino path) 2 ((Op.openWrite ino trunc).handler P fuel) :=
    fun trunc fuel => unlooked_openWrite ino fuel trunc path
  rcases h with h | h
  · exact .inl (defers_of_behind (fun _ _ => Uncopied.congr) hw (.inl ⟨2, hunlooked _ _⟩) (hunlooked _ _)
      (Op.within P fuel _) (Op.within P fuel' _) h)
  · exact .inr (defers_of_behind (fun _ _ => Uncopied.congr) hw (.inl ⟨2, hunlooked _ _⟩) (hunlooked _ _)
      (Op.within P fuel' _) (Op.within P fuel _) h)

/-- What the condition says of two `open_write` calls on a baseline file that is not copied up yet. -/
theorem oneDefers_openWrite_iff (hname : w.pathOf ino = .ok path)
    (hres : P.resolve w.overlay path = .ok (some (.file (.baseline oid) x)))
    (hblob : P.store.readBlobRaw oid = .ok data)
    (hrun : interleave sched w ((Op.openWrite ino trunc).handler P fuel)
      ((Op.openWrite ino trunc').handler P fuel') = (w', .done r, .done r')) :
    OneDefers sched w ((Op.openWrite ino trunc).handler P fuel) ((Op.openWrite ino trunc').handler P fuel') ↔
      OneLooksBehind sched w ((Op.openWrite ino trunc).handler P fuel)
        ((Op.openWrite ino trunc').handler P fuel') := by
  have hw := uncopied_of_resolve hname hres
  constructor
  · intro hdefer
    obtain ⟨c, rfl, rfl⟩ := opened_same_of_oneDefers hname hres hblob hrun hdefer
    exact behind_of_unlooked (fun _ _ => Uncopied.congr) hw (unlooked_openWrite ino fuel trunc path)
      (unlooked_openWrite ino fuel' trunc' path) hrun
  · exact oneDefers_of_oneLooksBehind hw

end Both

end OpenWrite

/-- Two calls whose steps interleave return what they return one after the other, and writes
through their descriptors then show the same tree, if one of them defers to the other. Two
`open_write` calls on a baseline file that is not copied up yet return the same content file
exactly then. -/
theorem interleaved_calls_serial (P : Projection) (op op' : Op) (fuel fuel' : Nat) {w w' : World}
    {sched : List Bool} {r r' : Outcome Error Reply}
    (hrun : interleave sched w (op.handler P fuel) (op'.handler P fuel') = (w', .done r, .done r')) :
    (OneDefers sched w (op.handler P fuel) (op'.handler P fuel') →
      ∃ v, (serial w (op.handler P fuel) (op'.handler P fuel') = (v, r, r') ∨
          serial w (op'.handler P fuel') (op.handler P fuel) = (v, r', r)) ∧
        ∀ ws p, P.visible (w'.writes ws).overlay p = P.visible (v.writes ws).overlay p) ∧
    ∀ ino trunc trunc' path oid x data, op = .openWrite ino trunc → op' = .openWrite ino trunc' →
      w.pathOf ino = .ok path → P.resolve w.overlay path = .ok (some (.file (.baseline oid) x)) →
      P.store.readBlobRaw oid = .ok data →
      ((∃ c, r = .ok (.opened none c) ∧ r' = .ok (.opened none c)) ↔
        OneDefers sched w (op.handler P fuel) (op'.handler P fuel')) := by
  constructor
  · intro hdefer
    obtain ⟨v, hsame, hserial⟩ := serial_of_oneDefers hrun hdefer
    refine ⟨v, hserial, fun ws p => ?_⟩
    rw [(sameTree_writes hsame ws).1]
  · rintro ino trunc trunc' path oid x data rfl rfl hname hres hblob
    constructor
    · intro hsame
      obtain ⟨c, rfl, rfl⟩ := hsame
      have hw := uncopied_of_resolve hname hres
      exact oneDefers_of_oneLooksBehind hw (behind_of_unlooked (fun _ _ => Uncopied.congr) hw
        (unlooked_openWrite ino fuel trunc path) (unlooked_openWrite ino fuel' trunc' path) hrun)
    · exact opened_same_of_oneDefers hname hres hblob hrun

noncomputable def lookedUp : World :=
  (((Op.lookup rootIno [97]).handler smallProjection 0).run (World.fresh 7 none)).2

noncomputable def openA : Handler Reply := (Op.openWrite 2 false).handler smallProjection 0

noncomputable def execA : Handler Reply := (Op.setExecutable 2 true).handler smallProjection 0

def startedEarly : List Bool :=
  [false, false, true, true, true, true, true, true, false, false]

theorem defers_startedEarly : Defers SameTree startedEarly lookedUp openA execA :=
  ⟨⟨⟨rfl, rfl⟩, rfl, rfl, ⟨rfl, rfl⟩, rfl, rfl, ⟨rfl, rfl⟩, rfl, rfl, ⟨rfl, rfl⟩, rfl, rfl,
    ⟨rfl, rfl⟩, rfl, rfl, ⟨rfl, rfl⟩, rfl, rfl, trivial⟩,
    ⟨⟨rfl, rfl⟩, rfl, rfl, ⟨rfl, rfl⟩, rfl, rfl, ⟨rfl, rfl⟩, rfl, rfl, ⟨rfl, rfl⟩, rfl, rfl,
    ⟨rfl, rfl⟩, rfl, rfl, ⟨rfl, rfl⟩, rfl, rfl, trivial⟩, trivial, trivial, trivial⟩

theorem interleaved_calls_serial_startedEarly :
    (∃ v, (serial lookedUp openA execA = (v, .ok (.opened none ⟨7, 0⟩), .ok .unit) ∨
        serial lookedUp execA openA = (v, .ok .unit, .ok (.opened none ⟨7, 0⟩))) ∧
      ∀ ws p, smallProjection.visible
          ((interleave startedEarly lookedUp openA execA).1.writes ws).overlay p =
        smallProjection.visible (v.writes ws).overlay p) ∧
    OneDefers startedEarly lookedUp openA openA :=
  ⟨(interleaved_calls_serial smallProjection (.openWrite 2 false) (.setExecutable 2 true) 0 0
      (show interleave startedEarly lookedUp openA execA = (_, _, _) from rfl)).1
      (.inl defers_startedEarly),
    ((interleaved_calls_serial smallProjection (.openWrite 2 false) (.openWrite 2 false) 0 0
      (show interleave startedEarly lookedUp openA openA = (_, _, _) from rfl)).2
      2 false false (letter 97) ⟨[3]⟩ false [120] rfl rfl rfl rfl rfl).mp ⟨⟨7, 0⟩, rfl, rfl⟩⟩

def bothLookFirst : List Bool :=
  List.replicate 5 true ++ List.replicate 5 false ++ [true, false]

/-- Each of the two calls copies `a` up; what is written through the first descriptor is not
seen at the path, as it is if one call runs behind the other. -/
theorem concurrent_copy_up_loses_write :
    let both := interleave bothLookFirst lookedUp openA openA
    let one := serial lookedUp openA openA
    both.2 = (.done (.ok (.opened none ⟨7, 0⟩)), .done (.ok (.opened none ⟨7, 1⟩))) ∧
      smallProjection.visible (both.1.write ⟨7, 0⟩ 0 [121]).overlay (letter 97) =
        .ok (some (.file false [120])) ∧
      one.2 = (.ok (.opened none ⟨7, 0⟩), .ok (.opened none ⟨7, 0⟩)) ∧
      smallProjection.visible (one.1.write ⟨7, 0⟩ 0 [121]).overlay (letter 97) =
        .ok (some (.file false [121])) :=
  ⟨rfl, by decide +kernel, by decide +kernel, by decide +kernel⟩

end Projection

end LazyMount
