import LazyMount.Lib.Pieces
import LazyMount.SgrepOverlay
import Mathlib.Logic.Relation

/-! The response of a Sourcegraph search: server-sent events, read line by line with a cap on each line,
from a reader that has them in pieces. -/

namespace LazyMount

open Pieces

/-- `SearchError`, of a request that was sent. -/
inductive SearchError where
  | transport (text : Text)
  | protocol (text : Text)
deriving DecidableEq

def maxStreamBytes : Nat := 256 * 1024 * 1024

def maxLineBytes : Nat := 16 * 1024 * 1024

def newline : UInt8 := 10

/-- `saturating_add` of the 64-bit numbers. -/
def satAdd (a b : Nat) : Nat := min (a + b) (UInt64.size - 1)

/-- What `fill_buf` answers from now on; an error is its text. -/
abbrev Reader := List (Fill UInt8 Text)

/-- `consume`, of all but `rest` of the first piece. -/
def Reader.consume (rest : Bytes) (r : Reader) : Reader := if rest = [] then r else .chunk rest :: r

def lineTooLong : SearchError := .protocol "response line exceeds size limit".toList

/-- Read one `\n`-terminated line behind `buf`. -/
def readCappedLine (cap : Nat) : Reader → Bytes → Except SearchError Bytes × Reader
  | [], buf => (.ok buf, [])
  | .interrupted :: r, buf => readCappedLine cap r buf
  | .failed e :: r, _ => (.error (.transport e), r)
  | .chunk chunk :: r, buf =>
    if chunk = [] then (.ok buf, .chunk chunk :: r)
    else
      match chunk.idxOf? newline with
      | some i => (.ok (buf ++ chunk.take (i + 1)), Reader.consume (chunk.drop (i + 1)) r)
      | none =>
        if cap < (buf ++ chunk).length then (.error lineTooLong, r)
        else readCappedLine cap r (buf ++ chunk)

/-- `serde_json::Value`; of a number there is what `as_u64` makes of it. -/
inductive Json where
  | null
  | bool (b : Bool)
  | number (asU64 : Option Nat)
  | string (s : Text)
  | array (items : List Json)
  | object (fields : List (Text × Json))

namespace Json

def get (name : String) : Json → Option Json
  | object fields => fields.lookup name.toList
  | _ => none

def asU64 : Json → Option Nat
  | number n => n
  | _ => none

def asStr : Json → Option Text
  | string s => some s
  | _ => none

def asArray : Json → Option (List Json)
  | array items => some items
  | _ => none

end Json

def trimEol (t : Text) : Text := (t.reverse.dropWhile (· ∈ ['\r', '\n'])).reverse

def chunkMatches (path : Text) (cm : Json) : List Match :=
  let base := (((cm.get "contentStart").bind (Json.get "line")).bind Json.asU64).getD 0
  let content := ((cm.get "content").bind Json.asStr).getD []
  let lines := content.splitOn '\n'
  (((cm.get "ranges").bind Json.asArray).getD []).map fun r =>
    let abs := (((r.get "start").bind (Json.get "line")).bind Json.asU64).getD base
    ⟨Utf8.encode path, satAdd abs 1, trimEol (lines.getD (abs - base) [])⟩

def lineMatch (path : Text) (lm : Json) : Match :=
  let line := satAdd (((lm.get "lineNumber").bind Json.asU64).getD 0) 1
  let text := ((lm.get "line").bind Json.asStr).getD []
  ⟨Utf8.encode path, line, trimEol text⟩

def contentMatches (m : Json) : List Match :=
  if (m.get "type").bind Json.asStr ≠ some "content".toList then []
  else
    match (m.get "path").bind Json.asStr with
    | none => []
    | some path =>
      match (m.get "chunkMatches").bind Json.asArray with
      | some cms => cms.flatMap (chunkMatches path)
      | none => (((m.get "lineMatches").bind Json.asArray).getD []).map (lineMatch path)

/-- `serde_json::from_str`; an error is its text. -/
abbrev FromStr := Text → Except Text Json

/-- What `extract_matches` adds to the matches. -/
def extractMatches (fromStr : FromStr) (data : Text) : Except SearchError (List Match) :=
  match fromStr data with
  | .error e => .error (.protocol ("bad matches JSON: ".toList ++ e))
  | .ok arr => .ok ((arr.asArray.getD []).flatMap contentMatches)

/-- The locals of `parse_stream`. -/
structure Parser where
  out : List Match
  event : Text
  total : Nat

def Parser.start : Parser := ⟨[], [], 0⟩

/-- One turn of the loop ends with the next one, or with the result. -/
inductive Turn where
  | next (p : Parser)
  | stop (result : Except SearchError (List Match))

/-- A `data:` payload under the last event. -/
def payload (fromStr : FromStr) (event data : Text) : Except SearchError (List Match) :=
  if event = "matches".toList then extractMatches fromStr data
  else if event = "error".toList ∨ event = "alert".toList then .error (.protocol (Text.trim data))
  else .ok []

/-- The body of the loop behind its `read_capped_line`. -/
def turn (fromStr : FromStr) (max : Nat) (p : Parser) (buf : Bytes) : Turn :=
  if buf = [] then .stop (.ok p.out)
  else
    let total := satAdd p.total buf.length
    if maxStreamBytes < total then .stop (.error (.protocol "response exceeds size limit".toList))
    else
      let line := trimEol (lossyText buf)
      match "event: ".toList.isPrefixOf? line with
      | some ev => .next ⟨p.out, Text.trim ev, total⟩
      | none =>
        match "data: ".toList.isPrefixOf? line with
        | none => .next ⟨p.out, p.event, total⟩
        | some data =>
          match payload fromStr p.event data with
          | .error e => .stop (.error e)
          | .ok found =>
            if max ≤ (p.out ++ found).length then .stop (.ok ((p.out ++ found).take max))
            else .next ⟨p.out ++ found, p.event, total⟩

/-! Every turn takes something from the reader. -/

def Reader.weight : Reader → Nat
  | [] => 0
  | .chunk items :: r => items.length + 1 + weight r
  | .interrupted :: r | .failed _ :: r => 1 + weight r

variable {cap max : Nat} {r rest : Reader} {buf line : Bytes} {fromStr : FromStr} {p p' : Parser}

theorem ne_nil_of_turn (h : turn fromStr max p buf = .next p') : buf ≠ [] := by
  rintro rfl
  cases h

theorem Reader.weight_consume (items : Bytes) (r : Reader) :
    (Reader.consume items r).weight ≤ items.length + 1 + r.weight := by
  rw [Reader.consume]
  split
  · omega
  · exact le_rfl

theorem readCappedLine_weight (h : readCappedLine cap r buf = (.ok line, rest)) :
    rest.weight ≤ r.weight ∧ (line = buf ∨ rest.weight < r.weight) := by
  fun_induction readCappedLine cap r buf with
  | case1 buf =>
    cases h
    exact ⟨le_rfl, .inl rfl⟩
  | case2 r buf ih =>
    obtain ⟨hle, -⟩ := ih h
    rw [Reader.weight]
    omega
  | case3 e r => cases h
  | case4 r buf =>
    cases h
    exact ⟨le_rfl, .inl rfl⟩
  | case5 chunk r buf hne i hi =>
    cases h
    have hlt : i < chunk.length := (List.idxOf?_eq_some_iff.mp hi).1
    have hle := Reader.weight_consume (chunk.drop (i + 1)) r
    rw [List.length_drop] at hle
    rw [Reader.weight]
    omega
  | case6 => cases h
  | case7 chunk r buf hne hnone hcap ih =>
    obtain ⟨hle, -⟩ := ih h
    rw [Reader.weight]
    omega

theorem weight_lt_of_turn (hread : readCappedLine cap r [] = (.ok buf, rest))
    (hturn : turn fromStr max p buf = .next p') : rest.weight < r.weight :=
  (readCappedLine_weight hread).2.resolve_left (ne_nil_of_turn hturn)

/-- The loop of `parse_stream`. -/
def parseFrom (fromStr : FromStr) (max : Nat) (r : Reader) (p : Parser) : Except SearchError (List Match) :=
  match _ : readCappedLine maxLineBytes r [] with
  | (.error e, _) => .error e
  | (.ok buf, rest) =>
    match _ : turn fromStr max p buf with
    | .stop result => result
    | .next p' => parseFrom fromStr max rest p'
termination_by r.weight
decreasing_by exact weight_lt_of_turn ‹_› ‹_›

def parseStream (fromStr : FromStr) (max : Nat) (r : Reader) : Except SearchError (List Match) :=
  parseFrom fromStr max r .start

/-! What it is for: the lines of the stream, however it arrives. -/

/-- The first line of a stream, if the cap has room for it. -/
def cappedLine (cap : Nat) (s : Bytes) : Except SearchError Bytes :=
  if (Pieces.line newline s).length ≤ cap then .ok (Pieces.line newline s) else .error lineTooLong

theorem length_behindLine_lt {s : Bytes} (h : s ≠ []) : (behindLine newline s).length < s.length := by
  have hpos := List.length_pos_iff.mpr h
  rw [behindLine]
  split
  · rw [List.length_drop]
    omega
  · exact hpos

theorem ne_nil_of_cappedLine {s : Bytes} (h : cappedLine cap s = .ok buf) (hne : buf ≠ []) : s ≠ [] := by
  rintro rfl
  rw [cappedLine] at h
  cases h
  exact hne rfl

def parseLines (fromStr : FromStr) (max : Nat) (s : Bytes) (p : Parser) : Except SearchError (List Match) :=
  match _ : cappedLine maxLineBytes s with
  | .error e => .error e
  | .ok buf =>
    match _ : turn fromStr max p buf with
    | .stop result => result
    | .next p' => parseLines fromStr max (behindLine newline s) p'
termination_by s.length
decreasing_by exact length_behindLine_lt (ne_nil_of_cappedLine ‹_› (ne_nil_of_turn ‹_›))

/-! The size is looked at only where a piece has no newline. -/

/-- The line fits, or what comes before the piece with the newline is already too long. -/
def WellCut (cap : Nat) (r : Reader) : Prop :=
  (Pieces.line newline (stream r)).length ≤ cap ∨ cap < (lead newline r).length

instance : Decidable (WellCut cap r) := by
  unfold WellCut
  infer_instance

theorem not_whole_failed {e : Text} : ¬ Whole (.failed e :: r) := by
  intro hw
  rcases hw _ List.mem_cons_self with ⟨items, -, heq⟩ | heq <;> cases heq

theorem Reader.whole_consume {items : Bytes} (h : Whole r) : Whole (Reader.consume items r) := by
  rw [Reader.consume]
  split
  · exact h
  · exact h.cons ‹_›

theorem Reader.stream_consume (items : Bytes) (r : Reader) : stream (Reader.consume items r) = items ++ stream r := by
  rw [Reader.consume]
  split
  · rename_i hnil
    rw [hnil, List.nil_append]
  · rfl

theorem readCappedLine_whole (hw : Whole r) (hbuf : buf.length ≤ cap) :
    (cap < (buf ++ lead newline r).length → (readCappedLine cap r buf).1 = .error lineTooLong) ∧
    ((buf ++ lead newline r).length ≤ cap → ∃ rest, readCappedLine cap r buf =
      (.ok (buf ++ Pieces.line newline (stream r)), rest) ∧ Whole rest ∧
        stream rest = behindLine newline (stream r)) := by
  fun_induction readCappedLine cap r buf with
  | case1 buf =>
    refine ⟨fun hlt => ?_, fun _ => ⟨[], ?_, hw, rfl⟩⟩
    · rw [lead, List.append_nil] at hlt
      omega
    · rw [stream, line_of_notMem List.not_mem_nil, List.append_nil]
  | case2 r buf ih => exact ih hw.tail hbuf
  | case3 e r => exact (not_whole_failed hw).elim
  | case4 r buf =>
    rcases hw _ List.mem_cons_self with ⟨items, hne, heq⟩ | heq
    · cases heq
      exact (hne rfl).elim
    · cases heq
  | case5 chunk r buf hne i hi =>
    -- the piece with the newline: its size is not looked at
    have hmem : newline ∈ chunk := by
      by_contra hno
      rw [List.idxOf?_eq_none_iff.mpr hno] at hi
      cases hi
    obtain ⟨hline, hbehind⟩ := line_append_of_mem hmem (stream r)
    refine ⟨fun hlt => ?_, fun _ => ⟨Reader.consume (chunk.drop (i + 1)) r, ?_, Reader.whole_consume hw.tail, ?_⟩⟩
    · rw [lead, if_pos hmem, List.append_nil] at hlt
      omega
    · rw [stream, hline, Pieces.line, hi]
    · rw [Reader.stream_consume, stream, hbehind, behindLine, hi]
  | case6 chunk r buf hne hnone hcap =>
    have hmem := List.idxOf?_eq_none_iff.mp hnone
    refine ⟨fun _ => rfl, fun hle => ?_⟩
    rw [lead, if_neg hmem, ← List.append_assoc, List.length_append] at hle
    omega
  | case7 chunk r buf hne hnone hcap ih =>
    have hmem := List.idxOf?_eq_none_iff.mp hnone
    obtain ⟨hline, hbehind⟩ := line_append_of_notMem hmem (stream r)
    rw [stream, hline, hbehind, lead, if_neg hmem, ← List.append_assoc, ← List.append_assoc]
    exact ih hw.tail (Nat.le_of_not_lt hcap)

/-- One read gives the line or refuses it as it should exactly if the line is well cut. -/
theorem readCappedLine_eq_iff (hw : Whole r) :
    (readCappedLine cap r []).1 = cappedLine cap (stream r) ↔ WellCut cap r := by
  obtain ⟨herr, hok⟩ := readCappedLine_whole hw (show ([] : Bytes).length ≤ cap from Nat.zero_le _)
  have hle : (lead newline r).length ≤ (Pieces.line newline (stream r)).length := length_lead_le r
  rw [List.nil_append] at herr hok
  rw [WellCut, cappedLine]
  by_cases hlead : cap < (lead newline r).length
  · rw [herr hlead, if_neg (by omega)]
    exact iff_of_true rfl (.inr hlead)
  · obtain ⟨rest, hread, -⟩ := hok (Nat.le_of_not_lt hlead)
    rw [hread, List.nil_append]
    by_cases hline : (Pieces.line newline (stream r)).length ≤ cap
    · rw [if_pos hline]
      exact iff_of_true rfl (.inl hline)
    · rw [if_neg hline]
      exact iff_of_false (fun h => by cases h) (not_or.mpr ⟨hline, hlead⟩)

/-- All cuts of a stream are good ones if its line fits, or has no end. -/
theorem wellCut_iff {s : Bytes} :
    (∀ r, Whole r → stream r = s → WellCut cap r) ↔ (Pieces.line newline s).length ≤ cap ∨ newline ∉ s := by
  constructor
  · intro h
    by_contra hno
    obtain ⟨hlong, hmem⟩ := not_or.mp hno
    have hmem := not_not.mp hmem
    have hs : s ≠ [] := List.ne_nil_of_mem hmem
    have hwhole : Whole ([.chunk s] : Reader) := Whole.cons whole_nil hs
    rcases h [.chunk s] hwhole (List.append_nil s) with hfits | hlead
    · rw [stream, stream, List.append_nil] at hfits
      exact hlong hfits
    · rw [lead, if_pos hmem] at hlead
      exact absurd hlead (Nat.not_lt_zero _)
  · rintro (hfits | hmem) r hw rfl
    · exact .inl hfits
    · rw [WellCut, line_of_notMem hmem, lead_of_notMem hw hmem]
      exact Nat.lt_or_ge cap _ |>.symm

theorem readCappedLine_ok (hw : Whole r) (h : readCappedLine cap r [] = (.ok buf, rest)) :
    Whole rest ∧ stream rest = behindLine newline (stream r) := by
  obtain ⟨herr, hok⟩ := readCappedLine_whole hw (show ([] : Bytes).length ≤ cap from Nat.zero_le _)
  rw [h] at herr hok
  by_cases hlead : cap < ([] ++ lead newline r).length
  · cases herr hlead
  · obtain ⟨rest', heq, hrest⟩ := hok (Nat.le_of_not_lt hlead)
    cases heq
    exact hrest

/-- A turn that goes on, from the reader and the locals to those of the next one. -/
def NextTurn (fromStr : FromStr) (max : Nat) (c c' : Reader × Parser) : Prop :=
  ∃ buf, readCappedLine maxLineBytes c.1 [] = (.ok buf, c'.1) ∧ turn fromStr max c.2 buf = .next c'.2

/-- The readers from which `parse_stream` reads a line. -/
def ReadFrom (fromStr : FromStr) (max : Nat) (r r' : Reader) : Prop :=
  ∃ p, Relation.ReflTransGen (NextTurn fromStr max) (r, .start) (r', p)

theorem whole_run {c c' : Reader × Parser} (hrun : Relation.ReflTransGen (NextTurn fromStr max) c c')
    (hw : Whole c.1) : Whole c'.1 := by
  induction hrun with
  | refl => exact hw
  | tail _ hstep ih =>
    obtain ⟨buf, hread, -⟩ := hstep
    exact (readCappedLine_ok ih hread).1

theorem parseFrom_eq (fromStr : FromStr) (max : Nat) (r : Reader) (p : Parser) :
    parseFrom fromStr max r p =
      match readCappedLine maxLineBytes r [] with
      | (.error e, _) => .error e
      | (.ok buf, rest) =>
        match turn fromStr max p buf with
        | .stop result => result
        | .next p' => parseFrom fromStr max rest p' := by
  rw [parseFrom]
  split
  · simp_all
  · split <;> simp_all

theorem parseFrom_error {e : SearchError} (hread : readCappedLine maxLineBytes r [] = (.error e, rest)) :
    parseFrom fromStr max r p = .error e := by
  rw [parseFrom_eq, hread]

theorem parseFrom_stop {result : Except SearchError (List Match)}
    (hread : readCappedLine maxLineBytes r [] = (.ok buf, rest)) (hturn : turn fromStr max p buf = .stop result) :
    parseFrom fromStr max r p = result := by
  rw [parseFrom_eq, hread]
  simp only [hturn]

theorem parseFrom_next (hread : readCappedLine maxLineBytes r [] = (.ok buf, rest))
    (hturn : turn fromStr max p buf = .next p') :
    parseFrom fromStr max r p = parseFrom fromStr max rest p' := by
  rw [parseFrom_eq, hread]
  simp only [hturn]

theorem parseLines_eq (fromStr : FromStr) (max : Nat) (s : Bytes) (p : Parser) :
    parseLines fromStr max s p =
      match cappedLine maxLineBytes s with
      | .error e => .error e
      | .ok buf =>
        match turn fromStr max p buf with
        | .stop result => result
        | .next p' => parseLines fromStr max (behindLine newline s) p' := by
  rw [parseLines]
  split
  · simp_all
  · split <;> simp_all

/-- Where every line is well cut, `parse_stream` sees no more than the lines. -/
theorem parseFrom_eq_parseLines (hw : Whole r)
    (hcut : ∀ c, Relation.ReflTransGen (NextTurn fromStr max) (r, p) c → WellCut maxLineBytes c.1) :
    parseFrom fromStr max r p = parseLines fromStr max (stream r) p := by
  fun_induction parseFrom fromStr max r p with
  | case1 r p e rest hread =>
    have hline := (readCappedLine_eq_iff hw).mpr (hcut _ .refl)
    rw [hread] at hline
    rw [parseLines_eq, ← hline]
  | case2 r p buf rest hread result hturn =>
    have hline := (readCappedLine_eq_iff hw).mpr (hcut _ .refl)
    rw [hread] at hline
    simp only [parseLines_eq, ← hline, hturn]
  | case3 r p buf rest hread p' hturn ih =>
    have hline := (readCappedLine_eq_iff hw).mpr (hcut _ .refl)
    obtain ⟨hrest, hstream⟩ := readCappedLine_ok hw hread
    rw [hread] at hline
    have hfrom := ih hrest fun c hc => hcut c (.head ⟨buf, hread, hturn⟩ hc)
    rw [hfrom, hstream, parseLines_eq _ _ (stream r), ← hline]
    simp only [hturn]

/-- What is read is the next line, whatever the cut, if that line fits or has no end; else it depends on
the cut, and so does the result of the whole response where some line that it reads is badly cut. -/
theorem stream_chunking_iff (fromStr : FromStr) (cap max : Nat) {a b : Reader} (ha : Whole a) (hb : Whole b)
    (hab : stream a = stream b) :
    (((readCappedLine cap a []).1 = cappedLine cap (stream a) ∧
      (readCappedLine cap b []).1 = cappedLine cap (stream a)) ↔ WellCut cap a ∧ WellCut cap b) ∧
    ((∀ r, Whole r → stream r = stream a → (readCappedLine cap r []).1 = cappedLine cap (stream a)) ↔
      (Pieces.line newline (stream a)).length ≤ cap ∨ newline ∉ stream a) ∧
    (((∀ r, ReadFrom fromStr max a r ∨ ReadFrom fromStr max b r →
        (readCappedLine maxLineBytes r []).1 = cappedLine maxLineBytes (stream r)) ∧
      parseStream fromStr max a = parseStream fromStr max b) ↔
      ∀ r, ReadFrom fromStr max a r ∨ ReadFrom fromStr max b r → WellCut maxLineBytes r) := by
  have hwhole : ∀ r, ReadFrom fromStr max a r ∨ ReadFrom fromStr max b r → Whole r := by
    rintro r (⟨p, hrun⟩ | ⟨p, hrun⟩)
    · exact whole_run hrun ha
    · exact whole_run hrun hb
  refine ⟨?_, ?_, fun h r hr => (readCappedLine_eq_iff (hwhole r hr)).mp (h.1 r hr), fun h => ?_⟩
  · rw [readCappedLine_eq_iff ha, hab, readCappedLine_eq_iff hb]
  · rw [← wellCut_iff]
    refine forall_congr' fun r => forall_congr' fun hw => forall_congr' fun hs => ?_
    rw [← hs, readCappedLine_eq_iff hw]
  · refine ⟨fun r hr => (readCappedLine_eq_iff (hwhole r hr)).mpr (h r hr), ?_⟩
    rw [parseStream, parseFrom_eq_parseLines ha fun c hc => h c.1 (.inl ⟨c.2, hc⟩), hab, parseStream,
      parseFrom_eq_parseLines hb fun c hc => h c.1 (.inr ⟨c.2, hc⟩)]

/-- A line over the cap, in one piece and with its newline apart. -/
def onePiece (cap : Nat) : Reader := [.chunk (List.replicate (cap + 1) 97 ++ [newline])]

def twoPieces (cap : Nat) : Reader := [.chunk (List.replicate (cap + 1) 97), .chunk [newline]]

theorem newline_notMem (n : Nat) : newline ∉ List.replicate n (97 : UInt8) := by
  intro h
  exact absurd (List.eq_of_mem_replicate h) (by decide)

theorem readCappedLine_onePiece (cap : Nat) : readCappedLine cap (onePiece cap) [] =
    (.ok (List.replicate (cap + 1) 97 ++ [newline]), []) := by
  have hi : (List.replicate (cap + 1) (97 : UInt8) ++ [newline]).idxOf? newline = some (cap + 1) := by
    rw [idxOf?_append_of_notMem (newline_notMem _)]
    simp
  simp [onePiece, readCappedLine, hi, Reader.consume]

theorem readCappedLine_twoPieces (cap : Nat) :
    readCappedLine cap (twoPieces cap) [] = (.error lineTooLong, [.chunk [newline]]) := by
  have hi : (List.replicate (cap + 1) (97 : UInt8)).idxOf? newline = none :=
    List.idxOf?_eq_none_iff.mpr (newline_notMem _)
  simp [twoPieces, readCappedLine, hi]

theorem turn_letters (fromStr : FromStr) (max : Nat) {n : Nat} (h : n + 2 ≤ maxStreamBytes) :
    turn fromStr max .start (List.replicate (n + 1) 97 ++ [newline]) = .next ⟨[], [], n + 2⟩ := by
  have henc : List.replicate (n + 1) 97 ++ [newline] = Utf8.encode (List.replicate (n + 1) 'a' ++ ['\n']) := by
    rw [Utf8.encode_ascii]
    · rw [List.map_append, List.map_replicate]
      rfl
    · intro c hc
      rcases List.mem_append.mp hc with hc | hc
      · rw [List.eq_of_mem_replicate hc]
        decide
      · rw [List.mem_singleton.mp hc]
        decide
  have htrim : trimEol (List.replicate (n + 1) 'a' ++ ['\n']) = List.replicate (n + 1) 'a' := by
    rw [trimEol, List.reverse_append, List.reverse_replicate, List.replicate_succ]
    show ('a' :: List.replicate n 'a').reverse = _
    rw [← List.replicate_succ, List.reverse_replicate]
  have htotal : satAdd 0 (List.replicate (n + 1) 97 ++ [newline]).length = n + 2 := by
    rw [satAdd, List.length_append, List.length_replicate, List.length_singleton, Nat.zero_add]
    refine Nat.min_eq_left ?_
    have : maxStreamBytes ≤ UInt64.size - 1 := by decide
    omega
  rw [turn, if_neg (by simp), Parser.start]
  simp only [htotal, if_neg (Nat.not_lt.mpr h)]
  rw [henc, lossyText_encode, htrim]
  rfl

theorem whole_onePiece (cap : Nat) : Whole (onePiece cap) :=
  Whole.cons whole_nil (by simp)

theorem whole_twoPieces (cap : Nat) : Whole (twoPieces cap) :=
  (Whole.cons whole_nil (List.cons_ne_nil _ _)).cons (by simp)

/-- A line two bytes over the cap passes if it comes in one piece, and fails the response if its newline
comes after the rest. -/
theorem line_accepted_in_one_piece :
    ¬ (∀ (cap : Nat) (a b : Reader), Whole a → Whole b → stream a = stream b →
      (readCappedLine cap a []).1 = (readCappedLine cap b []).1) ∧
    stream (onePiece maxLineBytes) = stream (twoPieces maxLineBytes) ∧
    parseStream (fun _ => .error []) 1 (onePiece maxLineBytes) = .ok [] ∧
    parseStream (fun _ => .error []) 1 (twoPieces maxLineBytes) = .error lineTooLong := by
  have hstream : ∀ cap, stream (onePiece cap) = stream (twoPieces cap) := by
    intro cap
    simp [onePiece, twoPieces, stream]
  refine ⟨fun h => ?_, hstream _, ?_, ?_⟩
  · have hsame := h 2 _ _ (whole_onePiece 2) (whole_twoPieces 2) (hstream 2)
    rw [readCappedLine_onePiece, readCappedLine_twoPieces] at hsame
    cases hsame
  · have hturn := turn_letters (fun _ => .error []) 1 (show maxLineBytes + 2 ≤ maxStreamBytes by decide)
    rw [parseStream, parseFrom_next (readCappedLine_onePiece maxLineBytes) hturn]
    exact parseFrom_stop (readCappedLine.eq_1 _ _) rfl
  · exact parseFrom_error (readCappedLine_twoPieces maxLineBytes)

theorem stream_chunking_short : (readCappedLine 3 [.chunk (ascii "ab\n")] []).1 = cappedLine 3 (ascii "ab\n") ∧
    (readCappedLine 3 [.chunk (ascii "a"), .interrupted, .chunk (ascii "b\n")] []).1 =
      cappedLine 3 (ascii "ab\n") := by
  have hone : Whole ([.chunk (ascii "ab\n")] : Reader) :=
    Whole.cons whole_nil (by decide)
  have htwo : Whole ([.chunk (ascii "a"), .interrupted, .chunk (ascii "b\n")] : Reader) := by
    intro f hf
    simp only [List.mem_cons, List.not_mem_nil, or_false] at hf
    rcases hf with rfl | rfl | rfl
    · exact .inl ⟨_, by decide, rfl⟩
    · exact .inr rfl
    · exact .inl ⟨_, by decide, rfl⟩
  exact (stream_chunking_iff (fun _ => .error []) 3 1 hone htwo (by decide)).1.mpr (by decide)

end LazyMount
