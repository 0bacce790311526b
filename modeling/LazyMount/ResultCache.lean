import LazyMount.Lib.Delimited
import LazyMount.Lib.Machine
import LazyMount.SearchPattern
import LazyMount.SourcegraphStream

/-! The on-disk cache of remote results: which searches share an entry, and what a process may find in
it while others write, fail or die. -/

namespace LazyMount

open Function (update)
open Delimited

/-- What the cache reads of the environment, with the directory that `cache_dir` makes of it. -/
structure CacheEnv where
  dir : Option Bytes
  token : Option Bytes
  endpoint : Option Bytes

/-- What `search_remote` is called with. -/
structure SearchRun where
  provider : Bytes
  noCache : Bool
  ttl : Nat
  env : CacheEnv
  query : SearchQuery

/-- The entry of a search, as it is stored. -/
structure CacheFile where
  created : Nat
  results : List Match
deriving DecidableEq

/-- SHA-256, and the reader of serde_json, which takes back what its writer wrote. -/
structure CacheCrates where
  digest : Bytes → Vector UInt8 32
  fromSlice : Bytes → Option CacheFile

def defaultEndpoint : Bytes := ascii "https://sourcegraph.com"

namespace CacheCrates

variable (C : CacheCrates)

def hexSha256 (bytes : Bytes) : Bytes := JsonText.hex (C.digest bytes).toList

def tokenHash (env : CacheEnv) : Bytes := ((env.token.filter (· ≠ [])).map C.hexSha256).getD []

end CacheCrates

def CacheEnv.endpointOrDefault (env : CacheEnv) : Bytes := (env.endpoint.filter (· ≠ [])).getD defaultEndpoint

/-- `Key`, as serde_json prints it. -/
def keyText (provider endpoint tokenHash : Bytes) (query : SearchQuery) : Bytes :=
  ascii "\x7b\"version\":1,\"provider\":" ++ (JsonText.string provider ++
    (ascii ",\"provider_endpoint\":" ++ (JsonText.string endpoint ++
    (ascii ",\"provider_token_hash\":" ++ (JsonText.string tokenHash ++
    (ascii ",\"repo\":" ++ (JsonText.string (Utf8.encode query.repo) ++
    (ascii ",\"rev\":" ++ (JsonText.nullable (query.rev.map Utf8.encode) ++
    (ascii ",\"pattern\":" ++ (JsonText.string (Utf8.encode query.pattern) ++
    (ascii ",\"file_filter\":" ++ (JsonText.nullable (query.fileFilter.map Utf8.encode) ++
    (ascii ",\"case_insensitive\":" ++ (JsonText.bool query.caseInsensitive ++
    (ascii ",\"literal\":" ++ (JsonText.bool query.literal ++
    (ascii ",\"max_results\":" ++ (Decimal.encode query.maxResults ++ ascii "\x7d")))))))))))))))))))

def cacheKey (C : CacheCrates) (run : SearchRun) : Bytes :=
  C.hexSha256 (keyText run.provider run.env.endpointOrDefault (C.tokenHash run.env) run.query)

def matchText (m : Match) : Bytes :=
  ascii "\x7b\"path\":" ++ (JsonText.string m.path ++ (ascii ",\"line\":" ++ (Decimal.encode m.line ++
    (ascii ",\"text\":" ++ (JsonText.string (Utf8.encode m.text) ++ ascii "\x7d")))))

def matchesText : List Match → Bytes
  | [] => ascii "[]"
  | m :: ms => ascii "[" ++ (matchText m ++ (ms.flatMap (fun m => ascii "," ++ matchText m) ++ ascii "]"))

/-- What `write_cache` writes: the payload and a newline. -/
def CacheFile.text (file : CacheFile) : Bytes :=
  ascii "\x7b\"created_unix_secs\":" ++ (Decimal.encode file.created ++
    (ascii ",\"matches\":" ++ (matchesText file.results ++ ascii "\x7d\n")))

def entryPath (dir key : Bytes) : Bytes := joinPath dir (key ++ ascii ".json")

/-- The entry's path with another extension. -/
def tmpPath (dir key : Bytes) (pid : Nat) : Bytes :=
  joinPath dir (key ++ ascii "." ++ Decimal.encode pid ++ ascii ".tmp")

def SearchRun.cacheable (run : SearchRun) : Bool :=
  run.provider = ascii "sourcegraph" && !run.noCache && run.ttl > 0

/-- Where the entry of a search is, if it has one. -/
def SearchRun.entryDir (run : SearchRun) : Option Bytes := if run.cacheable then run.env.dir else none

/-- What `search_remote` returns. -/
inductive SearchReply where
  | hit (results : List Match) (now : Nat)
  | miss (results : List Match)
  | off (results : List Match)
  | failed (e : SearchError)

inductive SearchStage where
  | reading
  | searching
  | answered (results : List Match)
  | writing (results : List Match) (rest : Bytes)
  | done (reply : SearchReply)

/-- The answer that a process has in hand. -/
def SearchStage.answer : SearchStage → Option (List Match)
  | .answered results | .writing results _ | .done (.miss results) | .done (.off results) => some results
  | .reading | .searching | .done (.hit _ _) | .done (.failed _) => none

/-- The files, the processes by pid, and for the record what providers have answered, what was put into
the cache, and what each process has been answered since it started. -/
structure ResultCache where
  files : Bytes → Option Bytes
  procs : Nat → Option (SearchRun × SearchStage)
  answers : List (SearchRun × List Match)
  stored : List (SearchRun × CacheFile)
  answered : Nat → Option (List Match)

/-- One system call of a process, its end at any point, or a file that someone else deletes. The clock
shows none before the epoch. -/
inductive CacheEvent where
  | start (pid : Nat) (run : SearchRun)
  | read (pid : Nat) (now : Option Nat)
  | answer (pid : Nat) (result : Except SearchError (List Match))
  | create (pid : Nat) (now : Option Nat)
  | write (pid n : Nat)
  | rename (pid : Nat)
  | fail (pid : Nat)
  | exit (pid : Nat)
  | evict (path : Bytes)

namespace ResultCache

def empty : ResultCache := ⟨fun _ => none, fun _ => none, [], [], fun _ => none⟩

def goto (s : ResultCache) (pid : Nat) (run : SearchRun) (stage : SearchStage) : ResultCache :=
  { s with procs := update s.procs pid (some (run, stage)) }

/-- `read_cache` -/
def readCache (C : CacheCrates) (s : ResultCache) (path : Bytes) (ttl : Nat) (now : Option Nat) :
    Option (List Match × Nat) := do
  let bytes ← s.files path
  let file ← C.fromSlice bytes
  let now ← now
  if now - file.created > ttl then none else some (file.results, now)

def afterRead (found : Option (List Match × Nat)) : SearchStage :=
  match found with
  | some (results, now) => .done (.hit results now)
  | none => .searching

def afterAnswer (run : SearchRun) (results : List Match) : SearchStage :=
  if run.entryDir.isSome then .answered results else .done (.off results)

def step (C : CacheCrates) (s : ResultCache) : CacheEvent → Option ResultCache
  | .start pid run =>
    match s.procs pid with
    | none =>
      some { s.goto pid run (if run.entryDir.isSome then .reading else .searching) with
        answered := update s.answered pid none }
    | some _ => none
  | .read pid now =>
    match s.procs pid with
    | some (run, .reading) =>
      run.entryDir.map fun dir =>
        s.goto pid run (afterRead (s.readCache C (entryPath dir (cacheKey C run)) run.ttl now))
    | _ => none
  | .answer pid result =>
    match s.procs pid with
    | some (run, .searching) =>
      match result with
      | .ok results =>
        some { s.goto pid run (afterAnswer run results) with
          answers := s.answers ++ [(run, results)]
          answered := update s.answered pid (some results) }
      | .error e => some (s.goto pid run (.done (.failed e)))
    | _ => none
  | .create pid now =>
    match s.procs pid with
    | some (run, .answered results) =>
      run.entryDir.map fun dir =>
        let file : CacheFile := ⟨now.getD 0, results⟩
        { s.goto pid run (.writing results file.text) with
          files := update s.files (tmpPath dir (cacheKey C run) pid) (some [])
          stored := s.stored ++ [(run, file)] }
    | _ => none
  | .write pid n =>
    match s.procs pid with
    | some (run, .writing results rest) =>
      run.entryDir.map fun dir =>
        let tmp := tmpPath dir (cacheKey C run) pid
        { s.goto pid run (.writing results (rest.drop n)) with
          files := update s.files tmp ((s.files tmp).map (· ++ rest.take n)) }
    | _ => none
  | .rename pid =>
    match s.procs pid with
    | some (run, .writing results []) => do
      let dir ← run.entryDir
      let tmp := tmpPath dir (cacheKey C run) pid
      let bytes ← s.files tmp
      some { s.goto pid run (.done (.miss results)) with
        files := update (update s.files tmp none) (entryPath dir (cacheKey C run)) (some bytes) }
    | _ => none
  | .fail pid =>
    match s.procs pid with
    | some (run, .answered results) | some (run, .writing results _) =>
      some (s.goto pid run (.done (.miss results)))
    | _ => none
  | .exit pid => some { s with procs := update s.procs pid none }
  | .evict path => some { s with files := update s.files path none }

end ResultCache

/-! Paths: an entry is told by its key, and a temporary file belongs to one process. -/

theorem joinPath_suffix (dir name : Bytes) : ∃ pre, joinPath dir name = pre ++ name := by
  rw [joinPath]
  split
  · exact ⟨[], rfl⟩
  · split
    · exact ⟨dir, rfl⟩
    · exact ⟨dir ++ [slash], by simp⟩

theorem entryPath_key {d d' k k' : Bytes} (h : entryPath d k = entryPath d' k') (hlen : k.length = k'.length) :
    k = k' := by
  obtain ⟨pre, hpre⟩ := joinPath_suffix d (k ++ ascii ".json")
  obtain ⟨pre', hpre'⟩ := joinPath_suffix d' (k' ++ ascii ".json")
  rw [entryPath, entryPath, hpre, hpre', ← List.append_assoc, ← List.append_assoc] at h
  exact (List.append_inj' (List.append_cancel_right h) hlen).2

theorem entryPath_ne_tmpPath (d k d' k' : Bytes) (pid : Nat) : entryPath d k ≠ tmpPath d' k' pid := by
  intro h
  obtain ⟨pre, hpre⟩ := joinPath_suffix d (k ++ ascii ".json")
  obtain ⟨pre', hpre'⟩ := joinPath_suffix d' (k' ++ ascii "." ++ Decimal.encode pid ++ ascii ".tmp")
  have hjson : ascii ".json" = [46, 106, 115, 111] ++ [110] := by decide
  have htmp : ascii ".tmp" = [46, 116, 109] ++ [112] := by decide
  have hlast := congrArg List.getLast? h
  rw [entryPath, tmpPath, hpre, hpre', hjson, htmp] at hlast
  simp at hlast

theorem append_cons_right {α : Type} [DecidableEq α] {x y a b : List α} {c : α} (h : x ++ c :: a = y ++ c :: b)
    (ha : c ∉ a) (hb : c ∉ b) : a = b := by
  have hpos : ∀ l : List α, c ∉ l → ∀ e ∈ l.reverse, decide (e ≠ c) = true := by
    intro l hl e he
    have hne : e ≠ c := fun heq => hl (heq ▸ List.mem_reverse.mp he)
    simpa using hne
  have hrev := congrArg (fun l => l.reverse.takeWhile fun e => decide (e ≠ c)) h
  simp only [List.reverse_append, List.reverse_cons, List.append_assoc,
    List.takeWhile_append_of_pos (hpos a ha), List.takeWhile_append_of_pos (hpos b hb)] at hrev
  simpa using hrev

theorem tmpPath_pid {d k d' k' : Bytes} {pid pid' : Nat} (h : tmpPath d k pid = tmpPath d' k' pid') :
    pid = pid' := by
  have hdot : ∀ n, (46 : UInt8) ∉ Decimal.encode n := fun n hn => by
    have hd := Decimal.isDigit_of_mem_encode hn
    simp [Decimal.isDigit] at hd
  obtain ⟨pre, hpre⟩ := joinPath_suffix d (k ++ ascii "." ++ Decimal.encode pid ++ ascii ".tmp")
  obtain ⟨pre', hpre'⟩ := joinPath_suffix d' (k' ++ ascii "." ++ Decimal.encode pid' ++ ascii ".tmp")
  have hascii : ascii "." = [46] := by decide
  rw [tmpPath, tmpPath, hpre, hpre', hascii] at h
  have hstem : (pre ++ k) ++ 46 :: Decimal.encode pid = (pre' ++ k') ++ 46 :: Decimal.encode pid' := by
    have htail : ((pre ++ k) ++ 46 :: Decimal.encode pid) ++ ascii ".tmp" =
        ((pre' ++ k') ++ 46 :: Decimal.encode pid') ++ ascii ".tmp" := by simpa using h
    exact List.append_cancel_right htail
  have hdec := append_cons_right hstem (hdot pid) (hdot pid')
  have hval := congrArg Decimal.decode hdec
  simpa using hval

theorem length_cacheKey (C : CacheCrates) (run : SearchRun) : (cacheKey C run).length = 64 := by
  simp [cacheKey, CacheCrates.hexSha256, JsonText.length_hex]

/-! What holds of the directory and the processes. -/

/-- The field types of the source: a path is a text, a number has 64 bits. -/
def Match.Fits (m : Match) : Prop := Utf8.Valid m.path ∧ m.line < UInt64.size

def CacheFile.Fits (file : CacheFile) : Prop := file.created < UInt64.size ∧ ∀ m ∈ file.results, m.Fits

/-- The reader of serde_json takes back what its writer wrote. -/
def CacheCrates.ReadsBack (C : CacheCrates) : Prop := ∀ file : CacheFile, file.Fits → C.fromSlice file.text = some file

def CacheEvent.Fits : CacheEvent → Prop
  | .answer _ (.ok results) => ∀ m ∈ results, m.Fits
  | .create _ (some now) => now < UInt64.size
  | _ => True

namespace ResultCache

variable {C : CacheCrates} {s t : ResultCache} {pid : Nat} {run : SearchRun} {stage : SearchStage}
  {results : List Match}

def Answered (s : ResultCache) (run : SearchRun) (results : List Match) : Prop :=
  (run, results) ∈ s.answers ∧ ∀ m ∈ results, m.Fits

/-- What a reply promises. -/
def Kept (C : CacheCrates) (s : ResultCache) (run : SearchRun) : SearchReply → Prop
  | .hit results now => ∃ run' file, (run', file) ∈ s.stored ∧ cacheKey C run' = cacheKey C run ∧
      file.results = results ∧ now - file.created ≤ run.ttl
  | .miss results | .off results => (run, results) ∈ s.answers
  | .failed _ => True

/-- What a process has reached. -/
def Holds (C : CacheCrates) (s : ResultCache) (pid : Nat) (run : SearchRun) : SearchStage → Prop
  | .reading | .searching => True
  | .answered results => s.Answered run results
  | .writing results rest => s.Answered run results ∧ ∃ file, (run, file) ∈ s.stored ∧
      file.results = results ∧ ∀ dir bytes, run.entryDir = some dir →
        s.files (tmpPath dir (cacheKey C run) pid) = some bytes → bytes ++ rest = file.text
  | .done reply => s.Kept C run reply

/-- Every entry is whole, and was stored for its key. -/
structure Sound (C : CacheCrates) (s : ResultCache) : Prop where
  entry : ∀ dir run bytes, s.files (entryPath dir (cacheKey C run)) = some bytes →
    ∃ run' file, (run', file) ∈ s.stored ∧ cacheKey C run' = cacheKey C run ∧ bytes = file.text
  stored : ∀ run file, (run, file) ∈ s.stored → (run, file.results) ∈ s.answers ∧ file.Fits
  holds : ∀ pid run stage, s.procs pid = some (run, stage) → s.Holds C pid run stage

theorem sound_empty (C : CacheCrates) : Sound C empty :=
  ⟨fun _ _ _ h => (nomatch h), fun _ _ h => (nomatch h), fun _ _ _ h => (nomatch h)⟩

/-- What others do leaves a process where it is, as long as it does not add to its temporary files. -/
theorem Holds.mono (h : s.Holds C pid run stage) (ha : s.answers ⊆ t.answers) (hs : s.stored ⊆ t.stored)
    (hf : ∀ dir key bytes, t.files (tmpPath dir key pid) = some bytes →
      s.files (tmpPath dir key pid) = some bytes) : t.Holds C pid run stage := by
  cases stage with
  | reading | searching => trivial
  | answered results => exact ⟨ha h.1, h.2⟩
  | writing results rest =>
    obtain ⟨⟨hans, hfits⟩, file, hstored, hres, hbytes⟩ := h
    exact ⟨⟨ha hans, hfits⟩, file, hs hstored, hres, fun dir bytes hd hb => hbytes dir bytes hd (hf _ _ _ hb)⟩
  | done reply =>
    cases reply with
    | hit results now =>
      obtain ⟨run', file, hstored, hrest⟩ := h
      exact ⟨run', file, hs hstored, hrest⟩
    | miss results | off results => exact ha h
    | failed => trivial

/-- A step of one process. -/
theorem Sound.act (h : Sound C s) {p : Option (SearchRun × SearchStage)}
    (ha : s.answers ⊆ t.answers) (hs : s.stored ⊆ t.stored) (hprocs : t.procs = update s.procs pid p)
    (hf : ∀ pid', pid' ≠ pid → ∀ dir key bytes, t.files (tmpPath dir key pid') = some bytes →
      s.files (tmpPath dir key pid') = some bytes)
    (hentry : ∀ dir run bytes, t.files (entryPath dir (cacheKey C run)) = some bytes →
      ∃ run' file, (run', file) ∈ t.stored ∧ cacheKey C run' = cacheKey C run ∧ bytes = file.text)
    (hstored : ∀ run file, (run, file) ∈ t.stored → (run, file.results) ∈ t.answers ∧ file.Fits)
    (hnew : ∀ run stage, p = some (run, stage) → t.Holds C pid run stage) : Sound C t := by
  refine ⟨hentry, hstored, fun pid' run stage hp => ?_⟩
  rw [hprocs] at hp
  by_cases hpid : pid' = pid
  · subst hpid
    rw [Function.update_self] at hp
    exact hnew run stage hp
  · rw [Function.update_of_ne hpid] at hp
    exact (h.holds pid' run stage hp).mono ha hs (hf pid' hpid)

/-- A step that touches no file and puts nothing into the cache. -/
theorem Sound.goto (h : Sound C s) (hnew : s.Holds C pid run stage) : Sound C (s.goto pid run stage) := by
  refine h.act (List.Subset.refl _) (List.Subset.refl _) rfl (fun _ _ _ _ _ hb => hb) h.entry h.stored
    fun run' stage' hp => ?_
  obtain ⟨rfl, rfl⟩ := Prod.mk.inj (Option.some.inj hp)
  exact hnew.mono (List.Subset.refl _) (List.Subset.refl _) fun _ _ _ hb => hb

theorem Sound.hit (h : Sound C s) (hC : C.ReadsBack) {dir : Bytes} {now : Option Nat} {now' : Nat}
    (hfound : s.readCache C (entryPath dir (cacheKey C run)) run.ttl now = some (results, now')) :
    s.Kept C run (.hit results now') := by
  simp only [readCache, Option.bind_eq_bind, Option.bind_eq_some_iff] at hfound
  obtain ⟨bytes, hbytes, file, hfile, n, -, hhit⟩ := hfound
  obtain ⟨run', file', hstored, hkey, rfl⟩ := h.entry dir run bytes hbytes
  rw [hC file' (h.stored run' file' hstored).2] at hfile
  obtain rfl := Option.some.inj hfile
  split at hhit
  · cases hhit
  · rename_i hfresh
    cases hhit
    exact ⟨run', file', hstored, hkey, rfl, Nat.le_of_not_gt hfresh⟩

theorem Sound.answer (h : Sound C s) (hfits : ∀ m ∈ results, m.Fits) :
    Sound C { s.goto pid run (afterAnswer run results) with
      answers := s.answers ++ [(run, results)]
      answered := update s.answered pid (some results) } := by
  have hold : s.answers ⊆ s.answers ++ [(run, results)] := List.subset_append_left _ _
  have hmem : (run, results) ∈ s.answers ++ [(run, results)] := by simp
  refine h.act hold (List.Subset.refl _) rfl (fun _ _ _ _ _ hb => hb) h.entry
    (fun run file hf => ⟨hold (h.stored run file hf).1, (h.stored run file hf).2⟩) fun run' stage hp => ?_
  obtain ⟨rfl, rfl⟩ := Prod.mk.inj (Option.some.inj hp)
  rw [afterAnswer]
  split
  · exact ⟨hmem, hfits⟩
  · exact hmem

theorem Sound.create (h : Sound C s) {dir : Bytes} {now : Nat} (hdir : run.entryDir = some dir)
    (hnow : now < UInt64.size) (hans : s.Answered run results) :
    let file : CacheFile := ⟨now, results⟩
    Sound C { s.goto pid run (.writing results file.text) with
      files := update s.files (tmpPath dir (cacheKey C run) pid) (some [])
      stored := s.stored ++ [(run, file)] } := by
  intro file
  have hold : s.stored ⊆ s.stored ++ [(run, file)] := List.subset_append_left _ _
  refine h.act (List.Subset.refl _) hold rfl (fun pid' hpid d k bytes hb => ?_) (fun d run' bytes hb => ?_)
    (fun run' file' hf => ?_) fun run' stage hp => ?_
  · exact (Function.update_of_ne (fun he => hpid (tmpPath_pid he)) _ _).symm.trans hb
  · have hb' := (Function.update_of_ne (entryPath_ne_tmpPath d _ dir _ pid) _ _).symm.trans hb
    obtain ⟨run'', file', hf, hrest⟩ := h.entry d run' bytes hb'
    exact ⟨run'', file', hold hf, hrest⟩
  · rcases List.mem_append.mp hf with hf | hf
    · exact h.stored run' file' hf
    · obtain ⟨rfl, rfl⟩ := Prod.mk.inj (List.mem_singleton.mp hf)
      exact ⟨hans.1, hnow, hans.2⟩
  · obtain ⟨rfl, rfl⟩ := Prod.mk.inj (Option.some.inj hp)
    refine ⟨hans, file, by simp, rfl, fun d bytes hd hb => ?_⟩
    obtain rfl : dir = d := Option.some.inj (hdir.symm.trans hd)
    replace hb : update s.files (tmpPath dir (cacheKey C run) pid) (some []) _ = some bytes := hb
    rw [Function.update_self] at hb
    obtain rfl := Option.some.inj hb
    rfl

theorem Sound.write (h : Sound C s) {dir rest : Bytes} (hdir : run.entryDir = some dir) (n : Nat)
    (hold : s.Holds C pid run (.writing results rest)) :
    let tmp := tmpPath dir (cacheKey C run) pid
    Sound C { s.goto pid run (.writing results (rest.drop n)) with
      files := update s.files tmp ((s.files tmp).map (· ++ rest.take n)) } := by
  intro tmp
  obtain ⟨hans, file, hfile, hres, hbytes⟩ := hold
  refine h.act (List.Subset.refl _) (List.Subset.refl _) rfl (fun pid' hpid d k bytes hb => ?_)
    (fun d run' bytes hb => ?_) h.stored fun run' stage hp => ?_
  · exact (Function.update_of_ne (fun he => hpid (tmpPath_pid he)) _ _).symm.trans hb
  · exact h.entry d run' bytes ((Function.update_of_ne (entryPath_ne_tmpPath d _ dir _ pid) _ _).symm.trans hb)
  · obtain ⟨rfl, rfl⟩ := Prod.mk.inj (Option.some.inj hp)
    refine ⟨hans, file, hfile, hres, fun d bytes hd hb => ?_⟩
    obtain rfl : dir = d := Option.some.inj (hdir.symm.trans hd)
    replace hb : update s.files tmp ((s.files tmp).map (· ++ rest.take n)) tmp = some bytes := hb
    rw [Function.update_self] at hb
    obtain ⟨before, hbefore, rfl⟩ := Option.map_eq_some_iff.mp hb
    rw [List.append_assoc, List.take_append_drop]
    exact hbytes dir before hdir hbefore

theorem Sound.rename (h : Sound C s) {dir bytes : Bytes} (hdir : run.entryDir = some dir)
    (hold : s.Holds C pid run (.writing results []))
    (hbytes : s.files (tmpPath dir (cacheKey C run) pid) = some bytes) :
    Sound C { s.goto pid run (.done (.miss results)) with
      files := update (update s.files (tmpPath dir (cacheKey C run) pid) none)
        (entryPath dir (cacheKey C run)) (some bytes) } := by
  obtain ⟨hans, file, hfile, hres, hwhole⟩ := hold
  have htext : bytes = file.text := by simpa using hwhole dir bytes hdir hbytes
  have hother : ∀ path bytes', path ≠ entryPath dir (cacheKey C run) →
      update (update s.files (tmpPath dir (cacheKey C run) pid) none) (entryPath dir (cacheKey C run)) (some bytes)
        path = some bytes' → s.files path = some bytes' := by
    intro path bytes' hne hb
    rw [Function.update_of_ne hne] at hb
    by_cases htmp : path = tmpPath dir (cacheKey C run) pid
    · subst htmp
      rw [Function.update_self] at hb
      cases hb
    · rwa [Function.update_of_ne htmp] at hb
  refine h.act (List.Subset.refl _) (List.Subset.refl _) rfl (fun pid' hpid d k bytes' hb => ?_)
    (fun d run' bytes' hb => ?_) h.stored fun run' stage hp => ?_
  · exact hother _ _ (entryPath_ne_tmpPath _ _ _ _ _).symm hb
  · by_cases hpath : entryPath d (cacheKey C run') = entryPath dir (cacheKey C run)
    · have hkey := entryPath_key hpath (by rw [length_cacheKey, length_cacheKey])
      replace hb : update (update s.files (tmpPath dir (cacheKey C run) pid) none)
        (entryPath dir (cacheKey C run)) (some bytes) (entryPath d (cacheKey C run')) = some bytes' := hb
      rw [hpath, Function.update_self] at hb
      obtain rfl := Option.some.inj hb
      exact ⟨run, file, hfile, hkey.symm, htext⟩
    · exact h.entry d run' bytes' (hother (entryPath d (cacheKey C run')) bytes' hpath hb)
  · obtain ⟨rfl, rfl⟩ := Prod.mk.inj (Option.some.inj hp)
    exact hans.1

theorem Sound.remove (h : Sound C s) (path : Bytes) : Sound C { s with files := update s.files path none } := by
  have hold : ∀ p bytes, update s.files path none p = some bytes → s.files p = some bytes := by
    intro p bytes hb
    by_cases hp : p = path
    · subst hp
      rw [Function.update_self] at hb
      cases hb
    · rwa [Function.update_of_ne hp] at hb
  exact ⟨fun dir run bytes hb => h.entry dir run bytes (hold _ _ hb), h.stored, fun pid run stage hp =>
    (h.holds pid run stage hp).mono (List.Subset.refl _) (List.Subset.refl _) fun _ _ _ hb => hold _ _ hb⟩

theorem Sound.step (h : Sound C s) (hC : C.ReadsBack) {e : CacheEvent} (he : e.Fits)
    (hstep : s.step C e = some t) : Sound C t := by
  cases e with
  | start pid run =>
    simp only [ResultCache.step] at hstep
    split at hstep
    · cases hstep
      have hnew : Sound C (s.goto pid run (if run.entryDir.isSome then .reading else .searching)) := by
        refine h.goto ?_
        split <;> trivial
      exact ⟨hnew.entry, hnew.stored, hnew.holds⟩
    · cases hstep
  | read pid now =>
    simp only [ResultCache.step] at hstep
    split at hstep
    · rename_i run hp
      obtain ⟨dir, -, rfl⟩ := Option.map_eq_some_iff.mp hstep
      refine h.goto ?_
      cases hfound : s.readCache C (entryPath dir (cacheKey C run)) run.ttl now with
      | none => trivial
      | some found => exact h.hit hC hfound
    · cases hstep
  | answer pid result =>
    simp only [ResultCache.step] at hstep
    split at hstep
    · split at hstep
      · cases hstep
        exact h.answer he
      · cases hstep
        exact h.goto trivial
    · cases hstep
  | create pid now =>
    simp only [ResultCache.step] at hstep
    split at hstep
    · rename_i run results hp
      obtain ⟨dir, hdir, rfl⟩ := Option.map_eq_some_iff.mp hstep
      refine h.create hdir ?_ (h.holds _ _ _ hp)
      cases now with
      | none => decide
      | some n => exact he
    · cases hstep
  | write pid n =>
    simp only [ResultCache.step] at hstep
    split at hstep
    · rename_i hp
      obtain ⟨dir, hdir, rfl⟩ := Option.map_eq_some_iff.mp hstep
      exact h.write hdir n (h.holds _ _ _ hp)
    · cases hstep
  | rename pid =>
    simp only [ResultCache.step] at hstep
    split at hstep
    · rename_i hp
      simp only [Option.bind_eq_bind, Option.bind_eq_some_iff] at hstep
      obtain ⟨dir, hdir, bytes, hbytes, ht⟩ := hstep
      cases ht
      exact h.rename hdir (h.holds _ _ _ hp) hbytes
    · cases hstep
  | fail pid =>
    simp only [ResultCache.step] at hstep
    split at hstep
    · rename_i hp
      cases hstep
      exact h.goto (h.holds _ _ _ hp).1
    · rename_i hp
      cases hstep
      exact h.goto (h.holds _ _ _ hp).1.1
    · cases hstep
  | exit pid =>
    cases hstep
    exact h.act (List.Subset.refl _) (List.Subset.refl _) rfl (fun _ _ _ _ _ hb => hb) h.entry h.stored
      fun _ _ hp => (nomatch hp)
  | evict path =>
    cases hstep
    exact h.remove path

theorem sound_run (hC : C.ReadsBack) {es : List CacheEvent} (hes : ∀ e ∈ es, e.Fits)
    (h : Machine.run (step C) empty es = some s) : Sound C s :=
  Machine.run_invariant (Sound C) CacheEvent.Fits (fun _ _ _ he hs hstep => hs.step hC he hstep) hes
    (sound_empty C) h

end ResultCache

/-! Which searches share an entry. -/

/-- Alike in all but the timeout; the environments name the same endpoint and the same token. -/
structure SearchRun.Alike (a b : SearchRun) : Prop where
  provider : a.provider = b.provider
  endpoint : a.env.endpointOrDefault = b.env.endpointOrDefault
  token : a.env.token.filter (· ≠ []) = b.env.token.filter (· ≠ [])
  query : { a.query with timeoutSecs := none } = { b.query with timeoutSecs := none }

/-- What the key of a search is hashed from. -/
def SearchRun.hashed (C : CacheCrates) (run : SearchRun) : List Bytes :=
  keyText run.provider run.env.endpointOrDefault (C.tokenHash run.env) run.query ::
    (run.env.token.filter (· ≠ [])).toList

def CacheEvent.hashed (C : CacheCrates) : CacheEvent → List Bytes
  | .start _ run => run.hashed C
  | _ => []

/-- No two texts that were hashed have the same digest. -/
def CacheCrates.Separates (C : CacheCrates) (es : List CacheEvent) : Prop :=
  Set.InjOn C.digest {x | ∃ e ∈ es, x ∈ e.hashed C}

theorem utf8_injective : Function.Injective Utf8.encode := by
  intro s t h
  have hdec := congrArg Utf8.decode h
  rw [Utf8.decode_encode, Utf8.decode_encode] at hdec
  exact Option.some.inj hdec

theorem keyText_injective {p p' e e' t t' : Bytes} {q q' : SearchQuery} (h : keyText p e t q = keyText p' e' t' q') :
    p = p' ∧ e = e' ∧ t = t' ∧ { q with timeoutSecs := none } = { q' with timeoutSecs := none } := by
  have htext : Delimits (JsonText.string ∘ Utf8.encode) := JsonText.delimits_string.comp utf8_injective
  have hnull : Delimits (JsonText.nullable ∘ Option.map Utf8.encode) :=
    JsonText.delimits_nullable.comp (Option.map_injective utf8_injective)
  have hnum : Delimits fun n => Decimal.encode n ++ ascii "\x7d" := delimits_decimal (by decide)
  obtain ⟨hp, h⟩ := JsonText.delimits_string _ _ _ _ (List.append_cancel_left h)
  obtain ⟨he, h⟩ := JsonText.delimits_string _ _ _ _ (List.append_cancel_left h)
  obtain ⟨ht, h⟩ := JsonText.delimits_string _ _ _ _ (List.append_cancel_left h)
  obtain ⟨hrepo, h⟩ := htext _ _ _ _ (List.append_cancel_left h)
  obtain ⟨hrev, h⟩ := hnull _ _ _ _ (List.append_cancel_left h)
  obtain ⟨hpattern, h⟩ := htext _ _ _ _ (List.append_cancel_left h)
  obtain ⟨hfilter, h⟩ := hnull _ _ _ _ (List.append_cancel_left h)
  obtain ⟨hcase, h⟩ := JsonText.delimits_bool _ _ _ _ (List.append_cancel_left h)
  obtain ⟨hliteral, h⟩ := JsonText.delimits_bool _ _ _ _ (List.append_cancel_left h)
  have hmax := hnum.injective (List.append_cancel_left h)
  refine ⟨hp, he, ht, ?_⟩
  cases q
  cases q'
  simp_all

theorem hexSha256_inj {C : CacheCrates} {S : Set Bytes} (hS : Set.InjOn C.digest S) {x y : Bytes} (hx : x ∈ S)
    (hy : y ∈ S) (h : C.hexSha256 x = C.hexSha256 y) : x = y :=
  hS hx hy (Vector.toList_inj.mp (JsonText.hex_injective h))

theorem hexSha256_ne_nil (C : CacheCrates) (x : Bytes) : C.hexSha256 x ≠ [] := by
  intro hx
  have hlen := congrArg List.length hx
  simp [CacheCrates.hexSha256, JsonText.length_hex] at hlen

theorem tokenHash_inj {C : CacheCrates} {S : Set Bytes} (hS : Set.InjOn C.digest S) {a b : CacheEnv}
    (ha : ∀ x ∈ a.token.filter (· ≠ []), x ∈ S) (hb : ∀ x ∈ b.token.filter (· ≠ []), x ∈ S)
    (h : C.tokenHash a = C.tokenHash b) : a.token.filter (· ≠ []) = b.token.filter (· ≠ []) := by
  simp only [CacheCrates.tokenHash] at h
  cases hta : a.token.filter (· ≠ []) with
  | none =>
    cases htb : b.token.filter (· ≠ []) with
    | none => rfl
    | some y =>
      rw [hta, htb] at h
      exact absurd h.symm (hexSha256_ne_nil C y)
  | some x =>
    cases htb : b.token.filter (· ≠ []) with
    | none =>
      rw [hta, htb] at h
      exact absurd h (hexSha256_ne_nil C x)
    | some y =>
      rw [hta, htb] at h
      exact congrArg some (hexSha256_inj hS (ha x hta) (hb y htb) h)

theorem alike_of_cacheKey {C : CacheCrates} {S : Set Bytes} (hS : Set.InjOn C.digest S) {a b : SearchRun}
    (ha : ∀ x ∈ a.hashed C, x ∈ S) (hb : ∀ x ∈ b.hashed C, x ∈ S) (h : cacheKey C a = cacheKey C b) :
    a.Alike b := by
  have htext := hexSha256_inj hS (ha _ List.mem_cons_self) (hb _ List.mem_cons_self) h
  obtain ⟨hprovider, hendpoint, hhash, hquery⟩ := keyText_injective htext
  refine ⟨hprovider, hendpoint, tokenHash_inj hS (fun x hx => ha x ?_) (fun x hx => hb x ?_) hhash, hquery⟩
  · exact List.mem_cons_of_mem _ (Option.mem_toList.mpr hx)
  · exact List.mem_cons_of_mem _ (Option.mem_toList.mpr hx)

namespace ResultCache

variable {C : CacheCrates} {s t : ResultCache} {R : SearchRun → Prop}

/-- Only such searches have been started. -/
structure Only (R : SearchRun → Prop) (s : ResultCache) : Prop where
  procs : ∀ pid run stage, s.procs pid = some (run, stage) → R run
  stored : ∀ run file, (run, file) ∈ s.stored → R run

theorem Only.update {pid : Nat} {p : Option (SearchRun × SearchStage)} (h : s.Only R)
    (hprocs : t.procs = update s.procs pid p) (hp : ∀ run stage, p = some (run, stage) → R run)
    (hstored : ∀ run file, (run, file) ∈ t.stored → (run, file) ∈ s.stored ∨ ∃ stage, p = some (run, stage)) :
    t.Only R := by
  constructor
  · intro pid' run stage hs
    rw [hprocs] at hs
    by_cases hpid : pid' = pid
    · subst hpid
      rw [Function.update_self] at hs
      exact hp run stage hs
    · rw [Function.update_of_ne hpid] at hs
      exact h.procs pid' run stage hs
  · intro run file hf
    rcases hstored run file hf with hf | ⟨stage, hs⟩
    · exact h.stored run file hf
    · exact hp run stage hs

theorem Only.step (h : s.Only R) {e : CacheEvent} (he : ∀ pid run, e = .start pid run → R run)
    (hstep : s.step C e = some t) : t.Only R := by
  have hgoto : ∀ {pid run stage stage'}, s.procs pid = some (run, stage) → (s.goto pid run stage').Only R := by
    intro pid run stage stage' hp
    refine h.update rfl (fun run' _ heq => ?_) fun _ _ hf => .inl hf
    rw [← (Prod.mk.inj (Option.some.inj heq)).1]
    exact h.procs pid run stage hp
  cases e <;> simp only [ResultCache.step] at hstep
  case start pid run =>
    split at hstep
    · cases hstep
      refine h.update rfl (fun run' _ heq => ?_) fun _ _ hf => .inl hf
      rw [← (Prod.mk.inj (Option.some.inj heq)).1]
      exact he pid run rfl
    · cases hstep
  case read =>
    split at hstep
    · rename_i hp
      obtain ⟨dir, -, rfl⟩ := Option.map_eq_some_iff.mp hstep
      exact hgoto hp
    · cases hstep
  case answer =>
    split at hstep
    · rename_i hp
      split at hstep
      · cases hstep
        exact ⟨(hgoto hp).procs, h.stored⟩
      · cases hstep
        exact hgoto hp
    · cases hstep
  case create pid now =>
    split at hstep
    · rename_i run results hp
      obtain ⟨dir, -, rfl⟩ := Option.map_eq_some_iff.mp hstep
      refine ⟨(hgoto hp).procs, fun run' file hf => ?_⟩
      rcases List.mem_append.mp hf with hf | hf
      · exact h.stored run' file hf
      · rw [(Prod.mk.inj (List.mem_singleton.mp hf)).1]
        exact h.procs pid run _ hp
    · cases hstep
  case write =>
    split at hstep
    · rename_i hp
      obtain ⟨dir, -, rfl⟩ := Option.map_eq_some_iff.mp hstep
      exact ⟨(hgoto hp).procs, h.stored⟩
    · cases hstep
  case rename =>
    split at hstep
    · rename_i hp
      simp only [Option.bind_eq_bind, Option.bind_eq_some_iff] at hstep
      obtain ⟨dir, -, bytes, -, ht⟩ := hstep
      cases ht
      exact ⟨(hgoto hp).procs, h.stored⟩
    · cases hstep
  case fail =>
    split at hstep
    · rename_i hp
      cases hstep
      exact hgoto hp
    · rename_i hp
      cases hstep
      exact hgoto hp
    · cases hstep
  case exit pid =>
    cases hstep
    exact h.update rfl (fun _ _ heq => (nomatch heq)) fun _ _ hf => .inl hf
  case evict =>
    cases hstep
    exact ⟨h.procs, h.stored⟩

def Own (s : ResultCache) : Prop :=
  ∀ pid run stage, s.procs pid = some (run, stage) → ∀ results, stage.answer = some results →
    s.answered pid = some results

theorem Own.update {pid : Nat} {p : Option (SearchRun × SearchStage)} (h : s.Own)
    (hprocs : t.procs = Function.update s.procs pid p)
    (hothers : ∀ pid', pid' ≠ pid → t.answered pid' = s.answered pid')
    (hown : ∀ run stage, p = some (run, stage) → ∀ results, stage.answer = some results →
      t.answered pid = some results) : t.Own := by
  intro pid' run stage hp results hans
  rw [hprocs] at hp
  by_cases hpid : pid' = pid
  · subst hpid
    rw [Function.update_self] at hp
    exact hown run stage hp results hans
  · rw [Function.update_of_ne hpid] at hp
    rw [hothers pid' hpid]
    exact h pid' run stage hp results hans

/-- A process goes on with the answer it has. -/
theorem Own.keep {pid : Nat} {run : SearchRun} {stage stage' : SearchStage} (h : s.Own)
    (hp : s.procs pid = some (run, stage)) (hprocs : t.procs = Function.update s.procs pid (some (run, stage')))
    (hanswer : stage'.answer = stage.answer) (hanswered : t.answered = s.answered) : t.Own := by
  refine h.update hprocs (fun _ _ => by rw [hanswered]) fun run' stage'' heq results hans => ?_
  obtain ⟨rfl, rfl⟩ := Prod.mk.inj (Option.some.inj heq)
  rw [hanswer] at hans
  rw [hanswered]
  exact h pid run stage hp results hans

/-- A process goes on without an answer. -/
theorem Own.drop {pid : Nat} {run : SearchRun} {stage : SearchStage} (h : s.Own) (hanswer : stage.answer = none) :
    (s.goto pid run stage).Own := by
  refine h.update rfl (fun _ _ => rfl) fun run' stage' heq results hans => ?_
  obtain ⟨rfl, rfl⟩ := Prod.mk.inj (Option.some.inj heq)
  rw [hanswer] at hans
  cases hans

theorem Own.step (h : s.Own) {e : CacheEvent} (hstep : s.step C e = some t) : t.Own := by
  cases e <;> simp only [ResultCache.step] at hstep
  case start pid run =>
    split at hstep
    · cases hstep
      refine h.update rfl (fun pid' hpid => Function.update_of_ne hpid _ _) fun run' stage hp results hans => ?_
      obtain ⟨rfl, rfl⟩ := Prod.mk.inj (Option.some.inj hp)
      split at hans <;> cases hans
    · cases hstep
  case read pid now =>
    split at hstep
    · rename_i run hp
      obtain ⟨dir, -, rfl⟩ := Option.map_eq_some_iff.mp hstep
      apply h.drop
      unfold afterRead
      split <;> rfl
    · cases hstep
  case answer pid result =>
    split at hstep
    · rename_i run hp
      split at hstep
      · cases hstep
        refine h.update rfl (fun pid' hpid => Function.update_of_ne hpid _ _) fun run' stage hp results hans => ?_
        obtain ⟨rfl, rfl⟩ := Prod.mk.inj (Option.some.inj hp)
        rw [afterAnswer] at hans
        split at hans <;> cases hans <;> exact Function.update_self ..
      · cases hstep
        exact h.drop rfl
    · cases hstep
  case create pid now =>
    split at hstep
    · rename_i run results hp
      obtain ⟨dir, -, rfl⟩ := Option.map_eq_some_iff.mp hstep
      exact h.keep hp rfl rfl rfl
    · cases hstep
  case write pid n =>
    split at hstep
    · rename_i run results rest hp
      obtain ⟨dir, -, rfl⟩ := Option.map_eq_some_iff.mp hstep
      exact h.keep hp rfl rfl rfl
    · cases hstep
  case rename pid =>
    split at hstep
    · rename_i run results hp
      simp only [Option.bind_eq_bind, Option.bind_eq_some_iff] at hstep
      obtain ⟨dir, -, bytes, -, ht⟩ := hstep
      cases ht
      exact h.keep hp rfl rfl rfl
    · cases hstep
  case fail pid =>
    split at hstep
    · rename_i hp
      cases hstep
      exact h.keep hp rfl rfl rfl
    · rename_i hp
      cases hstep
      exact h.keep hp rfl rfl rfl
    · cases hstep
  case exit pid =>
    cases hstep
    exact h.update rfl (fun _ _ => rfl) fun _ _ hp => nomatch hp
  case evict =>
    cases hstep
    exact h

theorem own_run {es : List CacheEvent} (h : Machine.run (step C) empty es = some s) : s.Own :=
  Machine.run_invariant Own (fun _ => True) (fun _ _ _ _ hs hstep => hs.step hstep) (fun _ _ => trivial)
    (by intro pid run stage hp; cases hp) h

theorem only_empty (R : SearchRun → Prop) : empty.Only R :=
  ⟨fun _ _ _ hp => (nomatch hp), fun _ _ hf => (nomatch hf)⟩

theorem only_run {es : List CacheEvent} (h : Machine.run (step C) empty es = some s) :
    s.Only fun run => ∃ pid, .start pid run ∈ es := by
  refine Machine.run_invariant (Only fun run => ∃ pid, .start pid run ∈ es) (· ∈ es)
    (fun u e v he hu hstep => hu.step (fun pid run heq => ⟨pid, heq ▸ he⟩) hstep) (fun _ he => he)
    (only_empty _) h

end ResultCache

/-- However searches run beside each other, fail, die or lose files, a hit is the whole answer that the
provider gave to a like search, stored no longer ago than the reader's time to live by the clock; and any
other reply is the provider's own. -/
theorem cache_hit_answers_like_search {C : CacheCrates} (hC : C.ReadsBack) {es : List CacheEvent}
    (hes : ∀ e ∈ es, e.Fits) (hdigest : C.Separates es) {s : ResultCache}
    (h : Machine.run (ResultCache.step C) .empty es = some s)
    {pid : Nat} {run : SearchRun} {reply : SearchReply} (hp : s.procs pid = some (run, .done reply)) :
    match reply with
    | .hit results now => ∃ run' created, SearchRun.Alike run' run ∧ (run', results) ∈ s.answers ∧
        (run', ⟨created, results⟩) ∈ s.stored ∧ now - created ≤ run.ttl
    | .miss results | .off results => (run, results) ∈ s.answers ∧ s.answered pid = some results
    | .failed _ => True := by
  have hs := ResultCache.sound_run hC hes h
  have honly := ResultCache.only_run h
  have hkept := hs.holds pid run _ hp
  have hhashed : ∀ run, (∃ pid, .start pid run ∈ es) → ∀ x ∈ run.hashed C, x ∈ {x | ∃ e ∈ es, x ∈ e.hashed C} := by
    rintro run ⟨pid, hstart⟩ x hx
    exact ⟨_, hstart, hx⟩
  cases reply with
  | hit results now =>
    obtain ⟨run', file, hstored, hkey, rfl, hfresh⟩ := hkept
    have halike := alike_of_cacheKey hdigest (hhashed run' (honly.stored run' file hstored))
      (hhashed run (honly.procs pid run _ hp)) hkey
    exact ⟨run', file.created, halike, (hs.stored run' file hstored).1, hstored, hfresh⟩
  | miss results | off results => exact ⟨hkept, ResultCache.own_run h pid run _ hp results rfl⟩
  | failed e => trivial

/-! A search that is stored by one process and found by another. -/

theorem delimits_matchText : Delimits matchText := by
  have htext : Delimits (JsonText.string ∘ Utf8.encode) := JsonText.delimits_string.comp utf8_injective
  have hnum : Delimits fun n => Decimal.encode n ++ [44] := delimits_decimal (by decide)
  have hcomma : ascii ",\"text\":" = [44] ++ ascii "\"text\":" := by decide
  intro m m' r s h
  simp only [matchText, hcomma, List.append_assoc] at h
  obtain ⟨hpath, h₁⟩ := JsonText.delimits_string _ _ _ _ (List.append_cancel_left h)
  have hline := List.append_cancel_left h₁
  rw [← List.append_assoc, ← List.append_assoc (Decimal.encode m'.line)] at hline
  obtain ⟨hnumber, h₂⟩ := hnum _ _ _ _ hline
  obtain ⟨htexts, h₃⟩ := htext _ _ _ _ (List.append_cancel_left h₂)
  refine ⟨?_, List.append_cancel_left h₃⟩
  cases m
  cases m'
  simp_all

theorem matchesText_head (m : Match) (ms : List Match) : ∃ t, matchesText (m :: ms) = 91 :: 123 :: t := ⟨_, rfl⟩

theorem delimits_matchesText : Delimits matchesText := by
  have hempty : matchesText [] = [91, 93] := by decide
  have hlist := (delimits_matchText.prefixed (ascii ",")).terminated 93
    fun m => ⟨44, _, rfl, by decide⟩
  intro ms ms' r s h
  cases ms with
  | nil =>
    cases ms' with
    | nil => exact ⟨rfl, List.append_cancel_left h⟩
    | cons m ms' =>
      obtain ⟨t, ht⟩ := matchesText_head m ms'
      rw [hempty, ht] at h
      simp at h
  | cons m ms =>
    cases ms' with
    | nil =>
      obtain ⟨t, ht⟩ := matchesText_head m ms
      rw [hempty, ht] at h
      simp at h
    | cons m' ms' =>
      simp only [matchesText, List.append_assoc (ascii "["), List.append_assoc (matchText _)] at h
      obtain ⟨rfl, h₁⟩ := delimits_matchText _ _ _ _ (List.append_cancel_left h)
      obtain ⟨rfl, h₂⟩ := hlist _ _ _ _ h₁
      exact ⟨rfl, h₂⟩

theorem text_injective : Function.Injective CacheFile.text := by
  intro f g h
  have hnum : Delimits fun n => Decimal.encode n ++ [44] := delimits_decimal (by decide)
  have hcomma : ascii ",\"matches\":" = [44] ++ ascii "\"matches\":" := by decide
  simp only [CacheFile.text, hcomma, List.append_assoc] at h
  have hcreated := List.append_cancel_left h
  rw [← List.append_assoc, ← List.append_assoc (Decimal.encode g.created)] at hcreated
  obtain ⟨hnow, h₁⟩ := hnum _ _ _ _ hcreated
  obtain ⟨hresults, -⟩ := delimits_matchesText _ _ _ _ (List.append_cancel_left h₁)
  cases f
  cases g
  simp_all

/-- SHA-256 of the key of `storedRun`, and a reader that takes back what was written. -/
noncomputable def storedCrates : CacheCrates where
  digest _ := #v[82, 97, 247, 38, 196, 47, 176, 113, 114, 207, 45, 81, 88, 230, 212, 142,
    205, 155, 255, 20, 136, 164, 4, 68, 141, 71, 143, 14, 166, 94, 31, 236]
  fromSlice bytes := open Classical in if h : ∃ file : CacheFile, file.text = bytes then some h.choose else none

theorem storedCrates_readsBack : storedCrates.ReadsBack := by
  intro file _
  have hex : ∃ f : CacheFile, f.text = file.text := ⟨file, rfl⟩
  rw [storedCrates]
  simp only [hex, dite_true]
  exact congrArg some (text_injective hex.choose_spec)

def storedRun : SearchRun where
  provider := ascii "sourcegraph"
  noCache := false
  ttl := 600
  env := ⟨some (ascii "/c"), none, none⟩
  query := ⟨"o/r".toList, none, "f".toList, none, false, true, 100, none⟩

def storedFile : CacheFile := ⟨1000, [⟨ascii "a.rs", 7, "fn f".toList⟩]⟩

/-- Process 7 misses, asks and stores in two writes; process 8 reads a minute later. -/
def storeThenHit : List CacheEvent :=
  [.start 7 storedRun, .read 7 (some 990), .answer 7 (.ok storedFile.results), .create 7 (some 1000),
    .write 7 20, .write 7 200, .rename 7, .start 8 storedRun, .read 8 (some 1060)]

theorem cache_hit_answers_like_search_stored : ∃ s : ResultCache,
    s.procs 8 = some (storedRun, .done (.hit storedFile.results 1060)) ∧
      ∃ run' created, SearchRun.Alike run' storedRun ∧ (run', storedFile.results) ∈ s.answers ∧
        (run', ⟨created, storedFile.results⟩) ∈ s.stored ∧ 1060 - created ≤ storedRun.ttl := by
  have hfits : storedFile.Fits := ⟨by decide, fun m hm => by
    rw [List.mem_singleton.mp hm]
    exact ⟨⟨"a.rs".toList, rfl⟩, by decide⟩⟩
  obtain ⟨s, hs, hfile, hproc⟩ : ∃ s : ResultCache,
      Machine.run (ResultCache.step storedCrates) .empty (storeThenHit.take 8) = some s ∧
      s.files (entryPath (ascii "/c") (cacheKey storedCrates storedRun)) = some storedFile.text ∧
      s.procs 8 = some (storedRun, .reading) := ⟨_, rfl, by decide +kernel, rfl⟩
  have hread : s.readCache storedCrates (entryPath (ascii "/c") (cacheKey storedCrates storedRun)) storedRun.ttl
      (some 1060) = some (storedFile.results, 1060) := by
    rw [ResultCache.readCache, hfile, Option.bind_eq_bind, Option.bind_some, storedCrates_readsBack storedFile hfits]
    rfl
  have hstep : s.step storedCrates (.read 8 (some 1060)) =
      some (s.goto 8 storedRun (.done (.hit storedFile.results 1060))) := by
    simp only [ResultCache.step, hproc]
    rw [show storedRun.entryDir = some (ascii "/c") by decide, Option.map_some, hread]
    rfl
  have hrun : Machine.run (ResultCache.step storedCrates) .empty storeThenHit =
      some (s.goto 8 storedRun (.done (.hit storedFile.results 1060))) :=
    Machine.run_append.mpr ⟨s, hs, Machine.run_cons.mpr ⟨_, hstep, rfl⟩⟩
  have hes : ∀ e ∈ storeThenHit, e.Fits := by
    simp only [storeThenHit, List.forall_mem_cons, CacheEvent.Fits, true_and]
    exact ⟨hfits.2, by decide, by simp⟩
  have hdone : (s.goto 8 storedRun (.done (.hit storedFile.results 1060))).procs 8 =
      some (storedRun, .done (.hit storedFile.results 1060)) := by simp [ResultCache.goto]
  have hsep : storedCrates.Separates storeThenHit := by
    have hone : ∀ x, (∃ e ∈ storeThenHit, x ∈ e.hashed storedCrates) → storedRun.hashed storedCrates = [x] := by
      simp [storeThenHit, CacheEvent.hashed, SearchRun.hashed, storedRun]
    intro x hx y hy _
    have heq := (hone x hx).symm.trans (hone y hy)
    simpa using heq
  exact ⟨_, hdone, cache_hit_answers_like_search storedCrates_readsBack hes hsep hrun hdone⟩

end LazyMount
