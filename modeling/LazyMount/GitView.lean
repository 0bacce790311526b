import LazyMount.DirectoryPages
import LazyMount.Lib.ChangeFeed
import LazyMount.Lib.CutShort
import LazyMount.Restart
import LazyMount.WireReply

/-! Git beside the mount: it keeps what it has seen of the working tree, asks the hook what may have
changed since, and looks again at what the reply names. The process behind the mount may die and be
started again. -/

namespace LazyMount

open Function (update)
open Prog RepoPath Transition ChangeFeed

/-- The argument for which the hook answers at all. -/
def hookVersion : Bytes := ascii "2"

/-- What the hook prints: for another version than its own, or without a journal, the sentinel. -/
def hookMain (hash : UInt64) (w : World) (version prev : Bytes) : Bytes :=
  if version = hookVersion then (w.hookQuery hash prev).encode
  else (Query.fullInvalidation ⟨[], 0, 0, 0⟩).encode

/-- What a reply tells git to look at again: everything for the path `/`, else each path it names with
all that is beneath. -/
def told (reply : Bytes) (p : RepoPath) : Bool :=
  replyPaths reply = [[slash]] || (replyPaths reply).any fun bytes =>
    match fromBytes bytes with
    | .ok q => q.isPrefixOf p
    | .error _ => false

/-- A new process opens the overlay and the journal from their directories. -/
def World.reopened (w : World) (order : List MetaName) (pid : Nat) : World :=
  ⟨Overlay.openDisk w.overlay.disk order pid, InodeTable.new,
    w.journal.map fun j => (⟨j.2.readLog, j.2.readBase⟩, j.2.createLog)⟩

/-- The world is passed while the callback is served. -/
def TransparentFs.Passes (P : Projection) (s : TransparentFs) (fuel : Nat) : Callback → World → Prop
  | .call op, w => Passed (op.handler P fuel) s.world w
  | .openFile ino flags, w =>
    if flags &&& oAccmode ≠ 0 then Passed (P.openWrite ino (flags &&& oTrunc ≠ 0)) s.world w
    else Passed (P.openRead ino) s.world w
  | .create parent name mode, w => Passed (P.create parent name (mode &&& 0o111 ≠ 0)) s.world w
  | .setattr ino mode size, w => Passed (P.setattr ino mode size) s.world w
  | .write _ _ _, w | .release _, w => w = s.world

/-- The mount, the token of git's last query, what git has seen, and (nothing reads it) the mount as it
was at that query. -/
structure GitView where
  fs : TransparentFs
  token : Bytes
  seen : RepoPath → Option (Except Error (Option Node))
  asked : TransparentFs

inductive GitEvent where
  | callback (c : Callback)
  | query (version : Bytes)
  | look (p : RepoPath)
  | remount (c : Callback) (order : List MetaName) (pid : Nat)

namespace GitView

/-- Git with an index of its own and no token. -/
def start (w : World) (seen : RepoPath → Option (Except Error (Option Node))) : GitView :=
  ⟨.start w, [], seen, .start w⟩

/-- No write goes through a handle that was open at the last query. The process may die between two steps
of a callback; the next one has an id that no content file carries, finds no record of the root, and mounts
the same tree. -/
inductive Step (P : Projection) (hash : UInt64) : GitView → GitEvent → GitView → Prop
  | callback {v : GitView} {c : Callback} {fs : TransparentFs} (h : TransparentFs.Step P v.fs c fs)
    (hw : ∀ fh offset data, c = .write fh offset data → ∀ ino file,
      v.asked.handles fh ≠ some (.write ino file)) :
    Step P hash v (.callback c) { v with fs := fs }
  | query (v : GitView) (version : Bytes) :
    Step P hash v (.query version)
      ⟨v.fs, replyToken (hookMain hash v.fs.world version v.token),
        fun p => if told (hookMain hash v.fs.world version v.token) p then none else v.seen p, v.fs⟩
  | look (v : GitView) (p : RepoPath) :
    Step P hash v (.look p)
      { v with seen := update v.seen p (some (P.visible v.fs.world.overlay p)) }
  | remount {v : GitView} {c : Callback} {fuel : Nat} {w : World} {order : List MetaName} {pid : Nat}
    (h : v.fs.Passes P fuel c w) (hdir : Overlay.ReadDir w.overlay.disk order)
    (hpid : ∀ p b x, w.overlay.lookup p = some (.file b x) → b.pid ≠ pid)
    (hroot : ∀ st dir, w.journal = some (st, dir) → [] ∉ st.paths) :
    Step P hash v (.remount c order pid)
      { v with fs := .start (w.reopened order pid), asked := { v.asked with handles := fun _ => none } }

end GitView

/-! What a reply names, read from the wire. -/

theorem told_of_reports {q : Query} {r p : RepoPath} (hw : 0 ∉ q.token.workspace)
    (hpaths : ∀ b ∈ q.paths, 0 ∉ b) (hr : q.Reports r.bytes) (hu : Under r p) : told q.encode p = true := by
  rw [told, replyPaths_encode hw hpaths]
  cases q with
  | fullInvalidation token => simp [Query.paths]
  | changes token paths =>
    rw [Bool.or_eq_true, List.any_eq_true]
    exact .inr ⟨r.bytes, hr, by rw [fromBytes_bytes]; exact isPrefixOf_iff.mpr hu⟩

theorem nul_notMem_hexDigit {n : Nat} (h : n < 16) : hexDigit n ≠ 0 := by
  have hall : ∀ m : Fin 16, hexDigit m ≠ 0 := by decide
  exact hall ⟨n, h⟩

theorem nul_notMem_workspaceId (hash : UInt64) : 0 ∉ workspaceId hash := by
  simp only [workspaceId, List.mem_map, not_exists, not_and]
  exact fun i _ => nul_notMem_hexDigit (Nat.mod_lt _ (by omega))

namespace World

variable {L : Limits} {w t : World} {hash : UInt64} {prev : Bytes}

theorem nul_notMem_token (w : World) (hash : UInt64) (prev : Bytes) :
    0 ∉ (w.hookQuery hash prev).token.workspace := by
  rw [hookQuery, LazyMount.hookQuery]
  split
  · simp [Query.token]
  · rw [ChangeJournal.query_token]
    exact nul_notMem_workspaceId hash

theorem nul_notMem_paths (w : World) (hash : UInt64) (prev : Bytes) :
    ∀ b ∈ (w.hookQuery hash prev).paths, 0 ∉ b := by
  have hslash : ∀ b ∈ ([[slash]] : List Bytes), 0 ∉ b := by decide
  have hlog : ∀ n, ∀ b ∈ sortDedup (w.journalDir.readLog.drop n), 0 ∉ b := fun n b hb =>
    RecordLog.sep_notMem_of_mem_decode 0 (List.mem_of_mem_drop (mem_sortDedup.mp hb))
  rw [hookQuery, LazyMount.hookQuery]
  split
  · exact hslash
  · rw [ChangeJournal.query]
    split
    · split
      · simp [Query.paths]
      · exact hslash
    · split
      · exact hslash
      · split
        · exact hslash
        · split
          · exact hslash
          · exact hlog _

/-- The token is one for the world `w`: asked with it, the hook reports all that was recorded since. -/
def Placed (L : Limits) (hash : UInt64) (w : World) (token : Bytes) : Prop :=
  ∀ t ps p, Appended L w t ps → p ∈ ps → p ≠ [] → (t.hookQuery hash token).Reports p

theorem placed_query (hw : w.Journaled L) (hash : UInt64) (prev : Bytes) :
    Placed L hash w (w.hookQuery hash prev).token.encode :=
  fun _ _ _ happ hp hne => happ.reports hw hp hne hash prev

theorem placed_sentinel (hash : UInt64) (w : World) :
    Placed L hash w (Token.encode ⟨[], 0, 0, 0⟩) := by
  intro t ps p _ _ _
  have hparse : Token.parse (Token.encode ⟨[], 0, 0, 0⟩) = some ⟨[], 0, 0, 0⟩ := by decide
  have hne : ([] : Bytes) ≠ workspaceId hash := by simp [workspaceId]
  rw [hookQuery, LazyMount.hookQuery]
  split
  · trivial
  · rw [ChangeJournal.query, if_neg (Token.encode_ne_nil _), hparse]
    simp only [ChangeJournal.replay, hne, ne_eq, not_false_eq_true, true_or, if_true]
    trivial

/-- The bootstrap: without a token, any record since makes the answer an invalidation. -/
theorem placed_nil (hw : w.Journaled L) (hash : UInt64) : Placed L hash w [] := by
  intro t ps p happ hp hne
  obtain ⟨st, dir, hist, hj, ht⟩ := hw
  obtain ⟨st', dir', es, hj', hr, rfl⟩ := happ st dir hj
  have htracks := Serve.tracks_run ht hr
  have hlog : dir'.log = some _ := htracks.log
  have hbase : dir'.readBase = st'.base := by simpa using htracks.base
  have hcur : dir'.readBase + dir'.readLog.length ≠ 0 := by
    intro hzero
    have hempty : dir'.readLog = [] := List.length_eq_zero_iff.mp (by omega)
    have hmem : p ∈ SlidingWindow.window Serve.keep st'.base (hist ++ recordedPaths es) := by
      rw [← hbase, show dir'.readBase = 0 by omega, SlidingWindow.window, List.drop_zero, List.mem_filter]
      exact ⟨List.mem_append_right _ hp, by simpa using hne⟩
    rw [← htracks.readLog, hempty] at hmem
    cases hmem
  simp only [hookQuery, journalDir, hj', Option.map_some, Option.getD_some, LazyMount.hookQuery, hlog]
  rw [if_neg (by simp), ChangeJournal.query, if_pos rfl, if_neg (by simpa [ChangeJournal.replay, curSeq] using hcur)]
  trivial

/-- What the window has is what a replay of the log finds, if no record is empty. -/
theorem Journaled.reopened (hw : w.Journaled L) (hroot : ∀ st dir, w.journal = some (st, dir) → [] ∉ st.paths)
    (order : List MetaName) (pid : Nat) : (w.reopened order pid).journal = w.journal := by
  obtain ⟨st, dir, hist, hj, ht⟩ := hw
  have hpaths : st.paths = hist.drop st.base := ht.paths
  have hread : dir.readLog = st.paths := by
    have hwindow : dir.readLog = SlidingWindow.window Serve.keep st.base hist := ht.readLog
    rw [hwindow, SlidingWindow.window, ← hpaths, List.filter_eq_self]
    intro r hr
    have hne : r ≠ [] := by
      rintro rfl
      exact hroot st dir hj hr
    simpa using hne
  have hbase : dir.readBase = st.base := by simpa using ht.base
  have hlog : dir.log = some (RecordLog.encode 0 st.paths) := ht.log
  have hdir : dir.createLog = dir := by
    rw [JournalDir.createLog, hlog, Option.getD_some, ← hlog]
  rw [World.reopened, hj, Option.map_some, hread, hbase, hdir]

/-- A process that opens the directories anew finds what was there. -/
theorem Since.reopened {a : World} {g : Notes} {order : List MetaName} {pid : Nat} (h : Since L a g w)
    (hsync : Overlay.Synced w.overlay) (hdir : Overlay.ReadDir w.overlay.disk order)
    (hpid : ∀ p b x, w.overlay.lookup p = some (.file b x) → b.pid ≠ pid)
    (hroot : ∀ st dir, w.journal = some (st, dir) → [] ∉ st.paths) :
    Since L a g (w.reopened order pid) ∧
      (w.reopened order pid).overlay = { w.overlay with pid := pid, contentSeq := 0 } := by
  have hov : (w.reopened order pid).overlay = { w.overlay with pid := pid, contentSeq := 0 } :=
    Overlay.openDisk_eq hsync hdir pid
  have hlookup : ∀ p, (w.reopened order pid).overlay.lookup p = w.overlay.lookup p := fun p => by rw [hov]; rfl
  have hcontent : (w.reopened order pid).overlay.disk.content = w.overlay.disk.content := by rw [hov]
  have happ : Appended L w (w.reopened order pid) [] :=
    appended_of_eq (h.sound.journaled.reopened hroot order pid)
  obtain ⟨ps, hps, hrec⟩ := h.appended
  have hrecorded : Appended L a (w.reopened order pid) ps := by simpa using hps.trans happ
  refine ⟨⟨⟨?_, ⟨?_, ?_⟩, h.sound.journaled.appended happ⟩, ⟨ps, hrecorded, hrec⟩, ?_, ?_, ?_⟩, hov⟩
  · show (w.reopened order pid).overlay.lookup root = none
    rw [hlookup]
    exact h.sound.unrooted
  · simpa only [hlookup] using h.sound.tidy.unshared
  · intro p b x hl hp
    rw [hlookup] at hl
    rw [hov] at hp
    exact absurd hp (hpid p b x hl)
  · simpa only [hlookup] using h.entry
  · simpa only [hlookup, hcontent] using h.content
  · simpa only [hlookup] using h.owned

end World

namespace TransparentFs

variable {P : Projection} {a s t : TransparentFs} {c : Callback} {p : RepoPath}

theorem appended_ordinaryStep {l : Action} {upd : World → World} (h : P.OrdinaryStep l upd) (w : World) :
    ∃ ps, World.Appended P.limits w (upd w) ps := by
  cases h with
  | quiet h =>
    cases h with
    | read | fetch | inode => exact ⟨[], World.appended_of_eq rfl⟩
    | record path => exact ⟨_, World.appended_record w path⟩
  | mutate | edit => exact ⟨[], World.appended_of_eq rfl⟩

theorem appended_step {w : World} {ps : List Bytes} (hs : World.Appended P.limits w s.world ps)
    (h : Step P s c t) : ∃ qs, World.Appended P.limits w t.world (ps ++ qs) := by
  obtain ⟨fuel, h⟩ := h
  refine world_step (I := fun v => ∃ qs, World.Appended P.limits w v (ps ++ qs))
    (fun l upd hu v hv => ?_) ⟨[], by rwa [List.append_nil]⟩ h
  obtain ⟨qs, hqs⟩ := hv
  obtain ⟨rs, hrs⟩ := appended_ordinaryStep hu v
  exact ⟨qs ++ rs, by rw [← List.append_assoc]; exact hqs.trans hrs⟩

/-- What the journal marks at `s` since `a`: what is at or beneath a recorded path. -/
def marked (P : Projection) (a s : TransparentFs) : Set RepoPath :=
  {p | ∃ ps r, World.Appended P.limits a.world s.world ps ∧ r.bytes ∈ ps ∧ r ≠ root ∧ Under r p}

def feed (P : Projection) : Feed TransparentFs RepoPath (Except Error (Option Node)) :=
  ⟨fun s p => P.visible s.world.overlay p, marked P⟩

theorem marked_step (h : Step P s c t) : marked P a s ⊆ marked P a t := by
  rintro p ⟨ps, r, happ, hr, hne, hu⟩
  obtain ⟨qs, hqs⟩ := appended_step happ h
  exact ⟨_, r, hqs, List.mem_append_left _ hr, hne, hu⟩

theorem Kept.sound {g : Notes} (h : Kept P a g s) : (feed P).Sound a s := by
  intro p hp
  by_contra hdiff
  have hcover : g.Covers p := by
    by_contra hg
    exact hdiff (h.1.visible hg)
  obtain ⟨r, hr, hne, hu⟩ := hcover
  obtain ⟨ps, happ, hrec⟩ := h.1.appended
  exact hp ⟨ps, r, happ, hrec r hr, hne, hu⟩

/-- What every ordinary step of a handler keeps holds wherever a callback is cut short. -/
theorem world_passed {I : World → Prop} (hI : ∀ l upd, P.OrdinaryStep l upd → ∀ w, I w → I (upd w))
    {fuel : Nat} {w : World} (hs : I s.world) (h : s.Passes P fuel c w) : I w := by
  cases c <;> simp only [Passes] at h
  case call op => exact (Op.within_ordinary P fuel op).passed hI hs h
  case create parent name mode => exact (Projection.within_create parent name _).passed hI hs h
  case setattr ino mode size => exact (Projection.within_setattr ino mode size).passed hI hs h
  case openFile ino flags =>
    split at h
    · exact (Projection.within_openWrite ino _).passed hI hs h
    · exact (Projection.Quiet.within (Projection.quiet_openRead ino)).passed hI hs h
  case write | release => rwa [h]

theorem since_passed {g : Notes} {fuel : Nat} {w : World} (hg : World.Since P.limits a.world g s.world)
    (h : s.Passes P fuel c w) : ∃ g', World.Since P.limits a.world g' w := by
  have hpassed : ∀ {α : Type} {m : Handler α} {T : Notes → α → Prop}, P.Announces T g m → Passed m s.world w →
      ∃ g', World.Since P.limits a.world g' w := fun hm hp =>
    hm.passed (fun _ _ hA => hA.sound.unrooted) (fun _ _ _ _ _ hr hA => World.since_rule hr hA) hg hp
  cases c <;> simp only [Passes] at h
  case call op => exact hpassed (op.announces P fuel g) h
  case create parent name mode => exact hpassed (Projection.announces_create parent name _) h
  case setattr ino mode size => exact hpassed (Projection.announces_setattr ino mode size) h
  case openFile ino flags =>
    split at h
    · exact hpassed (Projection.announces_openWrite ino _) h
    · exact hpassed (Projection.announces_quiet (Projection.quiet_openRead ino)) h
  case write | release =>
    rw [h]
    exact ⟨g, hg⟩

theorem synced_ordinaryStep {l : Action} {upd : World → World} (h : P.OrdinaryStep l upd) (w : World)
    (hw : Overlay.Synced w.overlay) : Overlay.Synced (upd w).overlay :=
  Overlay.synced_handlerStep h.handlerStep w hw

end TransparentFs

namespace GitView

open TransparentFs

variable {P : Projection} {hash : UInt64} {v u : GitView} {e : GitEvent} {p : RepoPath}

/-- What holds between the last query and now. -/
structure Sound (P : Projection) (hash : UInt64) (v : GitView) : Prop where
  synced : Overlay.Synced v.fs.world.overlay
  kept : ∃ g, Kept P v.asked g v.fs
  placed : World.Placed P.limits hash v.asked.world v.token
  believes : (feed P).Believes v.asked v.fs v.seen

theorem told_of_marked (h : World.Placed P.limits hash v.asked.world v.token)
    (hp : p ∈ marked P v.asked v.fs) (version : Bytes) :
    told (hookMain hash v.fs.world version v.token) p = true := by
  obtain ⟨ps, r, happ, hr, hne, hu⟩ := hp
  rw [hookMain]
  split
  · exact told_of_reports (World.nul_notMem_token _ _ _) (World.nul_notMem_paths _ _ _)
      (h _ _ _ happ hr (RepoPath.bytes_ne_nil hne)) hu
  · exact told_of_reports (q := .fullInvalidation ⟨[], 0, 0, 0⟩) (by simp [Query.token]) (by decide)
      trivial hu

theorem placed_reply {w : World} (hw : w.Journaled P.limits) (version prev : Bytes) :
    World.Placed P.limits hash w (replyToken (hookMain hash w version prev)) := by
  rw [hookMain]
  split
  · rw [replyToken_encode (World.nul_notMem_token _ _ _)]
    exact World.placed_query hw hash prev
  · rw [replyToken_encode (by simp [Query.token])]
    exact World.placed_sentinel hash w

theorem Sound.remount {fuel : Nat} {w : World} {order : List MetaName} {pid : Nat} {c : Callback}
    (hv : v.Sound P hash) (h : v.fs.Passes P fuel c w) (hdir : Overlay.ReadDir w.overlay.disk order)
    (hpid : ∀ p b x, w.overlay.lookup p = some (.file b x) → b.pid ≠ pid)
    (hroot : ∀ st dir, w.journal = some (st, dir) → [] ∉ st.paths) :
    Sound P hash
      { v with fs := .start (w.reopened order pid), asked := { v.asked with handles := fun _ => none } } := by
  obtain ⟨g, hg⟩ := hv.kept
  have hsync : Overlay.Synced w.overlay := world_passed (fun _ _ h => synced_ordinaryStep h) hv.synced h
  obtain ⟨g', hg'⟩ := since_passed hg.1 h
  obtain ⟨hnew, hov⟩ := hg'.reopened hsync hdir hpid hroot
  have hkept : Kept P { v.asked with handles := fun _ => none } g' (.start (w.reopened order pid)) :=
    ⟨hnew, fun _ _ _ hfh => by cases hfh⟩
  have hmono : marked P v.asked v.fs ⊆ marked P v.asked (.start (w.reopened order pid)) := by
    rintro p ⟨ps, r, happ, hr, hne, hu⟩
    obtain ⟨qs, hqs⟩ : ∃ qs, World.Appended P.limits v.asked.world w (ps ++ qs) := by
      refine world_passed (I := fun u => ∃ qs, World.Appended P.limits v.asked.world u (ps ++ qs))
        (fun l upd hu u hq => ?_) ⟨[], by rwa [List.append_nil]⟩ h
      obtain ⟨qs, hqs⟩ := hq
      obtain ⟨rs, hrs⟩ := appended_ordinaryStep hu u
      exact ⟨qs ++ rs, by rw [← List.append_assoc]; exact hqs.trans hrs⟩
    have hlast := hqs.trans (World.appended_of_eq (hg'.sound.journaled.reopened hroot order pid))
    exact ⟨_, r, hlast, List.mem_append_left _ (List.mem_append_left _ hr), hne, hu⟩
  refine ⟨?_, ⟨g', hkept⟩, hv.placed, hv.believes.move hg.sound hkept.sound hmono⟩
  show Overlay.Synced (w.reopened order pid).overlay
  rw [hov]
  exact ⟨hsync.sidecar, hsync.noTmp⟩

theorem Sound.step (hv : v.Sound P hash) (h : Step P hash v e u) : u.Sound P hash := by
  obtain ⟨g, hg⟩ := hv.kept
  cases h with
  | @callback c fs h hw =>
    obtain ⟨fuel, hc⟩ := h
    obtain ⟨g', hg'⟩ := hg.step hw hc
    exact ⟨world_step (fun _ _ h => synced_ordinaryStep h) hv.synced hc, ⟨g', hg'⟩, hv.placed,
      hv.believes.move hg.sound hg'.sound (marked_step ⟨fuel, hc⟩)⟩
  | query version =>
    refine ⟨hv.synced, ⟨_, kept_self hg.1.sound⟩, placed_reply hg.1.sound.journaled version v.token,
      fun p x hx => .inr ?_⟩
    exact hv.believes.forget (fun p hp => told_of_marked hv.placed hp version) hx
  | look p => exact ⟨hv.synced, ⟨g, hg⟩, hv.placed, hv.believes.look p⟩
  | remount h hdir hpid hroot => exact hv.remount h hdir hpid hroot

theorem sound_start {w : World} (hw : w.Sound P.limits) (hsync : Overlay.Synced w.overlay)
    {seen : RepoPath → Option (Except Error (Option Node))}
    (hseen : ∀ p x, seen p = some x → x = P.visible w.overlay p) : (start w seen).Sound P hash :=
  ⟨hsync, ⟨_, kept_self hw⟩, World.placed_nil hw.journaled hash, fun p x hx => .inr (hseen p x hx)⟩

end GitView

/-- Over any run of callbacks, queries, looks and remounts, git is right about each path that the next reply does
not name; and right after a query it is right about all that it has seen. -/
theorem git_never_trusts_stale (P : Projection) (hash : UInt64) {w : World} (hw : w.Sound P.limits)
    (hsync : Overlay.Synced w.overlay) {seen : RepoPath → Option (Except Error (Option Node))}
    (hseen : ∀ p x, seen p = some x → x = P.visible w.overlay p) {es : List GitEvent} {v : GitView}
    (hrun : Trace (GitView.Step P hash) (GitView.start w seen) es v) :
    (∀ p x, v.seen p = some x → x = P.visible v.fs.world.overlay p ∨
      ∀ version, told (hookMain hash v.fs.world version v.token) p = true) ∧
      ∀ version u, GitView.Step P hash v (.query version) u →
        ∀ p x, u.seen p = some x → x = P.visible u.fs.world.overlay p := by
  have hv : v.Sound P hash := hrun.invariant (I := GitView.Sound P hash)
    (fun _ _ _ hv h => hv.step h) (GitView.sound_start hw hsync hseen)
  constructor
  · intro p x hx
    rcases hv.believes p x hx with hm | hview
    · exact .inr fun version => GitView.told_of_marked hv.placed hm version
    · exact .inl hview
  · intro version u h p x hx
    cases h
    exact hv.believes.forget (fun q hq => GitView.told_of_marked hv.placed hq version) hx

/-- Git has seen everything; after `create e`, a write to it and a remount a query makes it forget `e`. -/
theorem git_never_trusts_stale_created : ∃ order,
    let w := World.journaledFresh 7
    let s := TransparentFs.start ((TransparentFs.behind TransparentFs.createAndWrite).world.reopened order 8)
    let v : GitView := ⟨s, [], fun p => some (smallProjection.visible w.overlay p), .start w⟩
    (∀ p x, v.seen p = some x → x = smallProjection.visible s.world.overlay p ∨
      ∀ version, told (hookMain 0 s.world version []) p = true) ∧
      ∀ version u, GitView.Step smallProjection 0 v (.query version) u →
        ∀ p x, u.seen p = some x → x = smallProjection.visible u.fs.world.overlay p := by
  have hcreate : TransparentFs.Step smallProjection (.start (World.journaledFresh 7))
      (.create 1 [101] 0o644) (TransparentFs.behind [.create 1 [101] 0o644]) := ⟨0, rfl⟩
  have hwrite : TransparentFs.Step smallProjection (TransparentFs.behind [.create 1 [101] 0o644])
      (.write 1 0 [121]) (TransparentFs.behind TransparentFs.createAndWrite) := ⟨0, rfl⟩
  let w := (TransparentFs.behind TransparentFs.createAndWrite).world
  have hlookup : ∀ p b x, w.overlay.lookup p = some (.file b x) → b.pid ≠ 8 := by
    intro p b x hl
    have hentry : w.overlay.lookup p =
        Function.update (fun _ => none) (letter 101) (some (.file ⟨7, 0⟩ false)) p := rfl
    rw [hentry, Function.update_apply] at hl
    split at hl
    · cases hl
      decide
    · cases hl
  have hpaths : ∀ st dir, w.journal = some (st, dir) → [] ∉ st.paths := by
    intro st dir hj
    have hall : w.journal.map (·.1.paths) = some [[101]] := rfl
    rw [hj, Option.map_some, Option.some.injEq] at hall
    rw [hall]
    decide
  obtain ⟨order, hdir⟩ := Overlay.exists_readDir w.overlay.disk
  refine ⟨order, ?_⟩
  have hpasses : (TransparentFs.behind TransparentFs.createAndWrite).Passes smallProjection 0 (.release 0) w := rfl
  exact git_never_trusts_stale smallProjection 0 (World.sound_fresh _ 7) (Overlay.synced_fresh 7)
    (fun p x hx => (Option.some.inj hx).symm)
    (.cons (.callback hcreate fun _ _ _ hc => by cases hc)
      (.cons (.callback hwrite fun fh offset data _ ino file h => by cases h)
        (.cons (.remount hpasses hdir hlookup hpaths) (.nil _))))

end LazyMount
