import LazyMount.HookRace

/-! Appends to the journal that stop part-way: a `write_all` that fails leaves its prefix in
the log, and the next record is appended behind it. -/

namespace LazyMount

/-- A live serve process: its window and the journal directory. -/
structure Journaled where
  st : State
  dir : JournalDir
deriving DecidableEq, Repr

/-- `failed p k`: `record(p)` returns `Err` after `k` bytes of `p` and its NUL (all of them when
only the fsync fails). `died p k`: the process dies there, and the journal is opened again.
`restart`: it is opened again between two calls. -/
inductive AppendEvent where
  | recorded (path : {p : Bytes // 0 ∉ p})
  | failed (path : {p : Bytes // 0 ∉ p}) (k : Nat)
  | died (path : {p : Bytes // 0 ∉ p}) (k : Nat)
  | restart
deriving DecidableEq

namespace Journaled

def start : Journaled := ⟨⟨[], 0⟩, JournalDir.empty.createLog⟩

def log (s : Journaled) : Bytes := s.dir.log.getD []

/-- `ChangeJournal::open` by a new process. -/
def reopen (dir : JournalDir) : Journaled := ⟨⟨dir.readLog, dir.readBase⟩, dir.createLog⟩

def record (L : Limits) (s : Journaled) (path : Bytes) : Journaled :=
  let r := LazyMount.record L s.st s.dir path
  ⟨r.1, r.2⟩

def step (L : Limits) (s : Journaled) : AppendEvent → Journaled
  | .recorded p => s.record L p
  | .failed p k => { s with dir := s.dir.writeAll ((p.1 ++ [0]).take k) }
  | .died p k => reopen (s.dir.writeAll ((p.1 ++ [0]).take k))
  | .restart => reopen s.dir

def run (L : Limits) (s : Journaled) (es : List AppendEvent) : Journaled := es.foldl (step L) s

def cur (s : Journaled) : Nat := s.dir.readBase + s.dir.readLog.length

/-- The records of the window that a replay would keep. -/
def kept (s : Journaled) : List Bytes := s.st.paths.filter (· ≠ [])

variable {L : Limits} {s : Journaled}

theorem record_of_not_needsPrune {p : Bytes}
    (h : (s.st.push p).needsPrune L (s.dir.append p) = false) :
    s.record L p = ⟨s.st.push p, s.dir.append p⟩ := by
  simp [record, LazyMount.record, h]

theorem record_of_needsPrune {p : Bytes}
    (h : (s.st.push p).needsPrune L (s.dir.append p) = true) :
    s.record L p = ⟨((s.st.push p).pruned L), (prune L (s.st.push p) (s.dir.append p)).2⟩ := by
  simp [record, LazyMount.record, h, prune]

theorem log_append (s : Journaled) (p : Bytes) :
    (⟨s.st.push p, s.dir.append p⟩ : Journaled).log = s.log ++ (p ++ [0]) := by
  simp [log, JournalDir.log_append]

theorem nulFree_push (hs : ∀ r ∈ s.st.paths, (0 : UInt8) ∉ r) (p : {p : Bytes // 0 ∉ p}) :
    ∀ r ∈ (s.st.push p).paths, (0 : UInt8) ∉ r := by
  intro r hr
  rcases List.mem_append.mp hr with hr | hr
  · exact hs r hr
  · rw [List.mem_singleton.mp hr]
    exact p.2

theorem nulFree_pruned {st : State} (h : ∀ r ∈ st.paths, (0 : UInt8) ∉ r) :
    ∀ r ∈ (st.pruned L).paths, (0 : UInt8) ∉ r :=
  fun r hr => h r (List.mem_of_mem_drop hr)

structure Synced (s : Journaled) : Prop where
  base : s.dir.readBase = s.st.base
  nulFree : ∀ r ∈ s.st.paths, 0 ∉ r

theorem synced_start : Synced start := ⟨rfl, by simp [start]⟩

theorem synced_step (hs : Synced s) (e : AppendEvent) : Synced (s.step L e) := by
  cases e with
  | failed p k => exact ⟨hs.base, hs.nulFree⟩
  | died | restart => exact ⟨rfl, fun r hr => RecordLog.sep_notMem_of_mem_decode 0 hr⟩
  | recorded p =>
    have hnul := nulFree_push hs.nulFree p
    show Synced (s.record L p)
    cases h : (s.st.push p).needsPrune L (s.dir.append p) with
    | true =>
      rw [record_of_needsPrune h]
      exact ⟨by simp [prune], nulFree_pruned hnul⟩
    | false =>
      rw [record_of_not_needsPrune h]
      exact ⟨hs.base, hnul⟩

theorem synced_run (hs : Synced s) (es : List AppendEvent) : Synced (s.run L es) := by
  induction es generalizing s with
  | nil => exact hs
  | cons e es ih => exact ih (synced_step hs e)

/-- `p` is a record of its own in the window and in the log, and a replay numbers it above
`seq`. A later prune numbers it at least as high: it counts what it drops, and before `p`
the window keeps no fewer records than the log. -/
def Held (seq : Nat) (p : Bytes) (s : Journaled) : Prop :=
  ∃ x y M1 M2, s.log = x ++ (p ++ 0 :: y) ∧ RecordLog.AtBoundary 0 x ∧
    s.st.paths = M1 ++ p :: M2 ∧ (RecordLog.decode 0 x).length ≤ (M1.filter (· ≠ [])).length ∧
    seq ≤ s.st.base + (RecordLog.decode 0 x).length

def dropped (L : Limits) (s : Journaled) : AppendEvent → List Bytes
  | .recorded p =>
    let st := s.st.push p
    if st.needsPrune L (s.dir.append p) then st.paths.take (st.dropN L) else []
  | _ => []

variable {seq : Nat} {p : Bytes}

theorem Held.readLog (h : Held seq p s) (hp : 0 ∉ p) (hne : p ≠ []) :
    ∃ ps qs, s.dir.readLog = ps ++ p :: qs ∧ seq ≤ s.st.base + ps.length := by
  obtain ⟨x, y, M1, M2, hlog, hx, _, _, hseq⟩ := h
  refine ⟨RecordLog.decode 0 x, RecordLog.decode 0 y, ?_, hseq⟩
  show RecordLog.decode 0 s.log = _
  rw [hlog, RecordLog.decode_append 0 hx, RecordLog.decode_append_sep, RecordLog.decode_piece 0 hp,
    if_neg hne, List.singleton_append]

theorem Held.extend {t : Journaled} (bs : Bytes) (rs : List Bytes) (h : Held seq p s)
    (hlog : t.log = s.log ++ bs) (hpaths : t.st.paths = s.st.paths ++ rs)
    (hbase : t.st.base = s.st.base) : Held seq p t := by
  obtain ⟨x, y, M1, M2, hl, hx, hM, hle, hseq⟩ := h
  exact ⟨x, y ++ bs, M1, M2 ++ rs, by simp [hlog, hl], hx, by simp [hpaths, hM], hle,
    by rwa [hbase]⟩

theorem Held.reopen (h : Held seq p s) (hs : Synced s) (hp : 0 ∉ p) (hne : p ≠ []) :
    Held seq p (reopen s.dir) := by
  obtain ⟨x, y, M1, M2, hlog, hx, _, _, hseq⟩ := h
  have hkept : (RecordLog.decode 0 x).filter (· ≠ []) = RecordLog.decode 0 x :=
    List.filter_eq_self.mpr fun r hr => by simpa using RecordLog.ne_nil_of_mem_decode 0 hr
  refine ⟨x, y, RecordLog.decode 0 x, RecordLog.decode 0 y, hlog, hx, ?_, by rw [hkept], ?_⟩
  · show RecordLog.decode 0 s.log = _
    rw [hlog, RecordLog.decode_append 0 hx, RecordLog.decode_append_sep,
      RecordLog.decode_piece 0 hp, if_neg hne, List.singleton_append]
  · show seq ≤ s.dir.readBase + _
    rwa [hs.base]

theorem Held.prune {d : JournalDir} (h : Held seq p s) (hnul : ∀ r ∈ s.st.paths, (0 : UInt8) ∉ r) :
    Held seq p ⟨s.st.pruned L, (prune L s.st d).2⟩ ∨
      p ∈ s.st.paths.take (s.st.dropN L) ∧ seq < (s.st.pruned L).base := by
  obtain ⟨x, y, M1, M2, _, _, hM, hle, hseq⟩ := h
  have hlen := List.length_filter_le (· ≠ []) M1
  by_cases hd : s.st.dropN L ≤ M1.length
  · left
    have hpaths : (s.st.pruned L).paths = M1.drop (s.st.dropN L) ++ p :: M2 := by
      simp only [State.pruned, hM, List.drop_append_of_le_length hd]
    have hM1 : ∀ r ∈ M1.drop (s.st.dropN L), (0 : UInt8) ∉ r := fun r hr =>
      hnul r (by rw [hM]; exact List.mem_append_left _ (List.mem_of_mem_drop hr))
    have hdec := RecordLog.decode_encode 0 hM1
    refine ⟨RecordLog.encode 0 (M1.drop (s.st.dropN L)), RecordLog.encode 0 M2, _, M2, ?_,
      RecordLog.atBoundary_encode 0 _, hpaths, hdec ▸ le_rfl, ?_⟩
    · show RecordLog.encode 0 (s.st.pruned L).paths = _
      rw [hpaths, RecordLog.encode_append, RecordLog.encode_cons]
    · have hmono := SlidingWindow.label_mono (· ≠ []) M1 (Nat.zero_le (s.st.dropN L))
      simp only [SlidingWindow.label, SlidingWindow.window, List.drop_zero, Nat.zero_add] at hmono
      rw [hdec]
      show seq ≤ s.st.base + s.st.dropN L + _
      omega
  · right
    refine ⟨?_, ?_⟩
    · rw [hM, List.take_append, List.mem_append]
      rw [List.take_cons (by omega)]
      exact .inr (List.mem_cons_self ..)
    · show seq < s.st.base + s.st.dropN L
      omega

theorem Held.recorded {q : {q : Bytes // 0 ∉ q}} (hs : Synced s)
    (h : Held seq p ⟨s.st.push q, s.dir.append q⟩) :
    Held seq p (s.step L (.recorded q)) ∨
      p ∈ dropped L s (.recorded q) ∧ seq < (s.step L (.recorded q)).st.base := by
  have hstep : s.step L (.recorded q) = s.record L q := rfl
  cases hprune : (s.st.push q).needsPrune L (s.dir.append q) with
  | true =>
    rw [hstep, record_of_needsPrune hprune]
    simpa only [dropped, hprune, if_true] using h.prune (nulFree_push hs.nulFree q)
  | false =>
    rw [hstep, record_of_not_needsPrune hprune]
    exact .inl h

theorem Held.step (h : Held seq p s) (hs : Synced s) (hp : 0 ∉ p) (hne : p ≠ []) (e : AppendEvent) :
    Held seq p (s.step L e) ∨ p ∈ dropped L s e ∧ seq < (s.step L e).st.base := by
  cases e with
  | recorded q => exact Held.recorded hs (h.extend (q.1 ++ [0]) [q.1] (log_append s q) rfl rfl)
  | failed q k => exact .inl (h.extend ((q.1 ++ [0]).take k) [] rfl (List.append_nil _).symm rfl)
  | died q k =>
    have ht : Synced ⟨s.st, s.dir.writeAll ((q.1 ++ [0]).take k)⟩ := ⟨hs.base, hs.nulFree⟩
    have hh : Held seq p ⟨s.st, s.dir.writeAll ((q.1 ++ [0]).take k)⟩ :=
      h.extend ((q.1 ++ [0]).take k) [] rfl (List.append_nil _).symm rfl
    exact .inl (hh.reopen ht hp hne)
  | restart => exact .inl (h.reopen hs hp hne)

theorem base_le_step (hs : Synced s) (e : AppendEvent) : s.st.base ≤ (s.step L e).st.base := by
  cases e with
  | failed => exact le_rfl
  | died | restart => exact hs.base.ge
  | recorded q =>
    show s.st.base ≤ (s.record L q).st.base
    cases h : (s.st.push q).needsPrune L (s.dir.append q) with
    | true =>
      rw [record_of_needsPrune h]
      exact Serve.base_le_pruned (s.st.push q)
    | false => rw [record_of_not_needsPrune h]; exact le_rfl

theorem base_le_run (hs : Synced s) (es : List AppendEvent) : s.st.base ≤ (s.run L es).st.base := by
  induction es generalizing s with
  | nil => exact le_rfl
  | cons e es ih => exact (base_le_step hs e).trans (ih (synced_step hs e))

def PrunedAway (L : Limits) (s : Journaled) (es : List AppendEvent) (p : Bytes) : Prop :=
  ∃ es₁ e es₂, es = es₁ ++ e :: es₂ ∧ p ∈ dropped L (s.run L es₁) e

theorem PrunedAway.cons {e : AppendEvent} {es : List AppendEvent}
    (h : PrunedAway L (s.step L e) es p) : PrunedAway L s (e :: es) p := by
  obtain ⟨es₁, e', es₂, rfl, hd⟩ := h
  exact ⟨e :: es₁, e', es₂, rfl, hd⟩

theorem Held.run (h : Held seq p s) (hs : Synced s) (hp : 0 ∉ p) (hne : p ≠ [])
    (es : List AppendEvent) :
    Held seq p (s.run L es) ∨ PrunedAway L s es p ∧ seq < (s.run L es).st.base := by
  induction es generalizing s with
  | nil => exact .inl h
  | cons e es ih =>
    rcases h.step (L := L) hs hp hne e with hh | ⟨hd, hlt⟩
    · rcases ih hh (synced_step hs e) with hh | ⟨hd, hlt⟩
      · exact .inl hh
      · exact .inr ⟨hd.cons, hlt⟩
    · exact .inr ⟨⟨[], e, es, rfl, hd⟩, hlt.trans_le (base_le_run (synced_step hs e) es)⟩

def live (hash : UInt64) (s : Journaled) : ChangeJournal := ⟨workspaceId hash, 1, 0, s.st⟩

def fresh (hash : UInt64) (s : Journaled) : ChangeJournal :=
  .replay (workspaceId hash) 1 0 s.dir s.dir

/-- The live journal or a fresh one handed out `t` somewhere along this run. -/
def Minted (hash : UInt64) (L : Limits) (es : List AppendEvent) (t : Token) : Prop :=
  ∃ es₁ es₂, es = es₁ ++ es₂ ∧ (t = ((start.run L es₁).live hash).currentToken ∨
    t = ((start.run L es₁).fresh hash).currentToken)

/-- What the append of a record has to find: no torn tail, no more records in the log than in
the window, and no token that counts more of them than a replay does. -/
structure Clean (hash : UInt64) (L : Limits) (before : List AppendEvent) : Prop where
  boundary : RecordLog.AtBoundary 0 (start.run L before).log
  counted : (start.run L before).dir.readLog.length ≤ (start.run L before).kept.length
  tokens : ∀ t, Minted hash L before t → t.seq ≤ (start.run L before).cur

/-- The state after the run `before`, the record of `p` and the run `after`. -/
def later (L : Limits) (before : List AppendEvent) (p : {p : Bytes // 0 ∉ p})
    (after : List AppendEvent) : Journaled :=
  (start.run L before).run L (.recorded p :: after)

/-- A fresh replay reads `p`, until a prune drops it, and answers every token handed out before
the record and not pruned with a set that has `p`. -/
structure Reproduced (hash : UInt64) (L : Limits) (before : List AppendEvent)
    (p : {p : Bytes // 0 ∉ p}) (after : List AppendEvent) : Prop where
  record : p.1 ∈ (later L before p after).dir.readLog ∨
    PrunedAway L (start.run L before) (.recorded p :: after) p
  reported : ∀ t, Minted hash L before t → (later L before p after).dir.readBase ≤ t.seq →
    ∃ paths, ((later L before p after).fresh hash).query t.encode =
      .changes ((later L before p after).fresh hash).currentToken paths ∧ p.1 ∈ paths

theorem Minted.eq_tokenAt {hash : UInt64} {es : List AppendEvent} {t : Token}
    (h : Minted hash L es t) (s : Journaled) : t = (s.fresh hash).tokenAt t.seq := by
  obtain ⟨es₁, es₂, _, rfl | rfl⟩ := h <;> rfl

theorem query_minted {hash : UInt64} {es : List AppendEvent} {t : Token}
    (h : Minted hash L es t) (s : Journaled) : (s.fresh hash).query t.encode =
      if s.cur < t.seq ∨ t.seq < s.dir.readBase then .fullInvalidation (s.fresh hash).currentToken
      else .changes (s.fresh hash).currentToken
        (sortDedup (s.dir.readLog.drop (t.seq - s.dir.readBase))) := by
  conv_lhs => rw [h.eq_tokenAt s]
  exact ChangeJournal.query_seq (colon_notMem_workspaceId hash) t.seq

theorem held_appended {p : Bytes} (hb : RecordLog.AtBoundary 0 s.log)
    (hc : s.dir.readLog.length ≤ s.kept.length) (hseq : seq ≤ s.st.base + s.dir.readLog.length) :
    Held seq p ⟨s.st.push p, s.dir.append p⟩ :=
  ⟨s.log, [], s.st.paths, [], log_append s p, hb, rfl, hc, hseq⟩

theorem reproduced_of_clean {hash : UInt64} {before : List AppendEvent} {p : {p : Bytes // 0 ∉ p}}
    (hne : p.1 ≠ []) (hc : Clean hash L before) (after : List AppendEvent) :
    Reproduced hash L before p after := by
  have hs : Synced (start.run L before) := synced_run synced_start before
  have hheld : ∀ seq ≤ (start.run L before).cur, Held seq p (later L before p after) ∨
      PrunedAway L (start.run L before) (.recorded p :: after) p ∧
        seq < (later L before p after).st.base := by
    intro seq hseq
    have happ : Held seq p ⟨(start.run L before).st.push p, (start.run L before).dir.append p⟩ :=
      held_appended hc.boundary hc.counted (by rwa [← hs.base])
    rcases Held.recorded (L := L) hs happ with hh | ⟨hd, hlt⟩
    · rcases hh.run (synced_step hs (.recorded p)) p.2 hne after with hh | ⟨hd, hlt⟩
      · exact .inl hh
      · exact .inr ⟨hd.cons, hlt⟩
    · refine .inr ⟨⟨[], _, after, rfl, hd⟩, hlt.trans_le ?_⟩
      exact base_le_run (synced_step hs (.recorded p)) after
  have hf : Synced (later L before p after) := synced_run hs _
  refine ⟨?_, fun t ht hlive => ?_⟩
  · rcases hheld 0 (Nat.zero_le _) with hh | ⟨hd, _⟩
    · obtain ⟨ps, qs, hlog, _⟩ := hh.readLog p.2 hne
      exact .inl (by rw [hlog]; simp)
    · exact .inr hd
  · rcases hheld t.seq (hc.tokens t ht) with hh | ⟨_, hlt⟩
    · obtain ⟨ps, qs, hlog, hseq⟩ := hh.readLog p.2 hne
      have hbase := hf.base
      have hcur : t.seq ≤ (later L before p after).cur := by
        rw [cur, hlog, List.length_append]
        omega
      rw [query_minted ht, if_neg (by omega)]
      refine ⟨_, rfl, ?_⟩
      rw [mem_sortDedup, hlog, List.drop_append_of_le_length (by omega)]
      simp
    · have hbase := hf.base
      omega

theorem Reproduced.seq_lt {hash : UInt64} {before after : List AppendEvent}
    {p : {p : Bytes // 0 ∉ p}} (h : Reproduced hash L before p after) {t : Token}
    (ht : Minted hash L before t) (hlive : (later L before p after).dir.readBase ≤ t.seq) :
    t.seq < (later L before p after).cur := by
  obtain ⟨paths, hq, hp⟩ := h.reported t ht hlive
  rw [query_minted ht] at hq
  split at hq
  · exact Query.noConfusion hq
  · injection hq with _ hpaths
    rw [← hpaths, mem_sortDedup] at hp
    have hlen := List.length_pos_of_mem hp
    rw [List.length_drop] at hlen
    rw [cur]
    omega

/-- A record that is reproduced before any prune found no torn tail, and no token ahead of a
replay. -/
theorem clean_of_reproduced {hash : UInt64} {before : List AppendEvent} {p : {p : Bytes // 0 ∉ p}}
    (hne : p.1 ≠ []) (hprune : ((start.run L before).st.push p).needsPrune L
      ((start.run L before).dir.append p) = false)
    (h : Reproduced hash L before p []) : RecordLog.AtBoundary 0 (start.run L before).log ∧
      ∀ t, Minted hash L before t → t.seq ≤ (start.run L before).cur := by
  have hlater : later L before p [] =
      ⟨(start.run L before).st.push p, (start.run L before).dir.append p⟩ :=
    record_of_not_needsPrune hprune
  have hbase : (later L before p []).dir.readBase = (start.run L before).dir.readBase := by
    rw [hlater, JournalDir.readBase_append]
  have hread : (later L before p []).dir.readLog =
      RecordLog.decode 0 ((start.run L before).log ++ (p.1 ++ [0])) := by
    rw [← log_append, ← hlater]
    rfl
  have hb : RecordLog.AtBoundary 0 (start.run L before).log := by
    by_contra hb
    -- a replay counts the glued record and the torn one once: the last token misses `p`
    obtain ⟨rs, t, _, hold, hnew⟩ := RecordLog.decode_append_torn 0 hb p.2
    have hcur : (later L before p []).cur = (start.run L before).cur := by
      rw [cur, cur, hbase, hread, hnew]
      show _ = _ + (RecordLog.decode 0 (start.run L before).log).length
      rw [hold, List.length_append, List.length_append]
      rfl
    have ht : Minted hash L before ((start.run L before).fresh hash).currentToken :=
      ⟨before, [], (List.append_nil _).symm, .inr rfl⟩
    have hlt := h.seq_lt ht (hbase ▸ Nat.le_add_right _ _)
    exact hlt.ne hcur.symm
  refine ⟨hb, fun t ht => ?_⟩
  have hcur : (later L before p []).cur = (start.run L before).cur + 1 := by
    rw [cur, cur, hbase, hread, RecordLog.decode_append_record 0 hb p.2 hne, List.length_append]
    rfl
  by_cases hlive : (later L before p []).dir.readBase ≤ t.seq
  · have := h.seq_lt ht hlive
    omega
  · rw [hbase] at hlive
    rw [cur]
    omega

end Journaled

/-- The Ok record of a non-empty path is reproduced by every later replay when its append finds
a clean log; and one reproduced before any prune found its log at a boundary and no token
ahead of it. -/
theorem record_reproduced (hash : UInt64) (L : Limits) (before : List AppendEvent)
    (p : {p : Bytes // 0 ∉ p}) (hne : p.1 ≠ []) :
    (Journaled.Clean hash L before → ∀ after, Journaled.Reproduced hash L before p after) ∧
    (((Journaled.start.run L before).st.push p).needsPrune L
        ((Journaled.start.run L before).dir.append p) = false →
      Journaled.Reproduced hash L before p [] →
      RecordLog.AtBoundary 0 (Journaled.start.run L before).log ∧
        ∀ t, Journaled.Minted hash L before t → t.seq ≤ (Journaled.start.run L before).cur) :=
  ⟨Journaled.reproduced_of_clean hne, Journaled.clean_of_reproduced hne⟩

theorem record_reproduced_after_one : Journaled.Reproduced 0 smallLimits
    [.recorded ⟨[97], by decide⟩] ⟨[98], by decide⟩ [.failed ⟨[99], by decide⟩ 1, .restart] := by
  refine (record_reproduced 0 smallLimits _ ⟨[98], by decide⟩ (by decide)).1
    ⟨.inr ⟨[97], rfl⟩, by decide, ?_⟩ _
  rintro t ⟨es₁, es₂, hes, ht⟩
  rcases List.cons_eq_append_iff.mp hes with ⟨rfl, _⟩ | ⟨es₁, rfl, hnil⟩
  · rcases ht with rfl | rfl <;> decide
  · obtain rfl := (List.append_eq_nil_iff.mp hnil.symm).1
    rcases ht with rfl | rfl <;> decide

/-- A record of `ab` fails behind its first letter; the Ok record of `c` is read back as the
one record `ac`, and the token handed out between them misses it. -/
theorem torn_append_glues_records :
    let s := Journaled.start.run smallLimits [.failed ⟨[97, 98], by decide⟩ 1]
    let t := (s.fresh 0).currentToken
    let f := s.step smallLimits (.recorded ⟨[99], by decide⟩)
    f.dir.readLog = [[97, 99]] ∧ f.dir.readBase ≤ t.seq ∧
      (f.fresh 0).query t.encode = .changes (f.fresh 0).currentToken [] := by
  refine ⟨rfl, Nat.zero_le _, ?_⟩
  decide

end LazyMount
