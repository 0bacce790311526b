import LazyMount.HookRace
import LazyMount.Handlers

/-! What the journal of a projection tells the hook. -/

namespace LazyMount

theorem RepoPath.bytes_ne_nil {p : RepoPath} (h : p ≠ root) : p.bytes ≠ [] := by
  obtain ⟨bytes, hv⟩ := p
  rintro (rfl : bytes = [])
  exact h rfl

def Action.recorded : Action → List Bytes
  | .record path => [path.bytes]
  | _ => []

namespace World

variable {L : Limits} {u w v : World} {ps qs : List Bytes}

def journalDir (w : World) : JournalDir := (w.journal.map (·.2)).getD JournalDir.empty

/-- A hook query between two appends. -/
def hookQuery (w : World) (hash : UInt64) (prev : Bytes) : Query :=
  LazyMount.hookQuery hash w.journalDir w.journalDir prev

/-- A journal is attached, and its window and its files are those of one history. -/
def Journaled (L : Limits) (w : World) : Prop :=
  ∃ st dir h, w.journal = some (st, dir) ∧ Serve.Tracks L ⟨st, dir, none⟩ h

/-- From `w` to `v` the serve process appended these records. -/
def Appended (L : Limits) (w v : World) (ps : List Bytes) : Prop :=
  ∀ st dir, w.journal = some (st, dir) → ∃ st' dir' es, v.journal = some (st', dir') ∧
    Serve.run L ⟨st, dir, none⟩ es = some ⟨st', dir', none⟩ ∧ recordedPaths es = ps

theorem appended_of_eq (h : v.journal = w.journal) : Appended L w v [] :=
  fun st dir hj => ⟨st, dir, [], h.trans hj, rfl, rfl⟩

theorem Appended.trans (h : Appended L u w ps) (h' : Appended L w v qs) :
    Appended L u v (ps ++ qs) := by
  intro st dir hj
  obtain ⟨st₁, dir₁, es, hj₁, hr, rfl⟩ := h st dir hj
  obtain ⟨st₂, dir₂, es', hj₂, hr', rfl⟩ := h' st₁ dir₁ hj₁
  exact ⟨st₂, dir₂, es ++ es', hj₂, Machine.run_append.mpr ⟨_, hr, hr'⟩, List.flatMap_append⟩

theorem appended_record (w : World) (path : RepoPath) :
    Appended L w { w with journal := w.journal.map fun j => record L j.1 j.2 path.bytes }
      [path.bytes] := by
  intro st dir hj
  obtain ⟨es, hes, hr⟩ := Serve.run_record (L := L) st dir ⟨path.bytes, path.nul_notMem⟩
  exact ⟨_, _, es, by rw [hj]; rfl, hr, hes⟩

/-- Two queries that no append overlaps: the later one, given the earlier one's token, reports
what was recorded in between. -/
theorem Appended.reports (h : Appended L w v ps) (hw : w.Journaled L) {p : Bytes} (hp : p ∈ ps)
    (hne : p ≠ []) (hash : UInt64) (prev : Bytes) :
    (v.hookQuery hash (w.hookQuery hash prev).token.encode).Reports p := by
  obtain ⟨st, dir, hist, hj, ht⟩ := hw
  obtain ⟨st', dir', es, hj', hr, rfl⟩ := h st dir hj
  have hbase : dir.readBase = st.base := by simpa using ht.base
  simp only [hookQuery, journalDir, hj, hj', Option.map_some, Option.getD_some]
  exact hookQuery_reports (b := ⟨st, dir, none⟩) ht hbase hr (Machine.run_nil _) hp hne

theorem Journaled.appended (hw : w.Journaled L) (h : Appended L w v ps) : v.Journaled L := by
  obtain ⟨st, dir, hist, hj, ht⟩ := hw
  obtain ⟨st', dir', es, hj', hr, rfl⟩ := h st dir hj
  exact ⟨st', dir', _, hj', Serve.tracks_run ht hr⟩

def journaledFresh (pid : Nat) : World := fresh pid (some (⟨[], 0⟩, JournalDir.empty.createLog))

theorem journaled_fresh (pid : Nat) : (journaledFresh pid).Journaled L :=
  ⟨_, _, [], rfl, Serve.tracks_start⟩

end World

end LazyMount
