import LazyMount.Lib.Pipe
import LazyMount.TreeObject

/-! Reading trees through one long-lived `git cat-file --batch-command` process: the session and
its pipe, the cache of parsed trees in front of it, and the one-shot read behind it. -/

namespace LazyMount

inductive ObjectKind where
  | blob
  | tree
  | commit
  | tag
deriving DecidableEq, Repr

def ObjectKind.text : ObjectKind → Bytes
  | .blob => ascii "blob"
  | .tree => ascii "tree"
  | .commit => ascii "commit"
  | .tag => ascii "tag"

/-- A store that does not change: the objects by name, the contents of the tree that a name
dereferences to, and what `cat-file tree` prints on its standard error where there is none. -/
structure GitRepo where
  objects : Bytes → Option (ObjectKind × Bytes)
  treeOf : Bytes → Option Bytes
  stderr : Bool → Bytes → Bytes
  treeOf_tree : ∀ {name contents}, objects name = some (.tree, contents) → treeOf name = some contents

structure Run where
  stdout : Bytes
  stderr : Bytes
  statusOk : Bool
deriving DecidableEq, Repr

namespace GitRepo

/-- The answer to `contents <name>`. -/
def reply (g : GitRepo) (name : Bytes) : Bytes :=
  match g.objects name with
  | some (kind, contents) =>
    name ++ 32 :: (kind.text ++ 32 :: (Decimal.encode contents.length ++ 10 :: (contents ++ [10])))
  | none => name ++ 32 :: (ascii "missing" ++ [10])

/-- `git cat-file tree <name>` -/
def catFileTree (g : GitRepo) (allowFetch : Bool) (name : Bytes) : Run :=
  match g.treeOf name with
  | some contents => ⟨contents, [], true⟩
  | none => ⟨[], g.stderr allowFetch name, false⟩

end GitRepo

/-- `str::to_lowercase`, for a search for ASCII letters that no other letter turns into. -/
def toLowercase (text : Bytes) : Bytes := text.map fun b => if 65 ≤ b && b ≤ 90 then b + 32 else b

def contains (text pattern : Bytes) : Bool := decide (pattern <:+: text)

def ObjectId.hexText (oid : ObjectId) : String := String.ofList (oid.toHex.map fun b => Char.ofNat b.toNat)

def missingOrOffline (oid : ObjectId) (allowFetch : Bool) (stderr : Bytes) : Error :=
  let text := toLowercase stderr
  if allowFetch then
    if contains text (ascii "could not resolve") || contains text (ascii "unable to access") ||
        contains text (ascii "connection") then
      ⟨.offlineMissingObject, "object " ++ oid.hexText ++ " unavailable: offline"⟩
    else ⟨.remoteMissingObject, "object " ++ oid.hexText ++ " not found locally or on the remote"⟩
  else ⟨.offlineMissingObject, "object " ++ oid.hexText ++ " not present locally and fetch not permitted"⟩

/-- The plain read: a process for this object alone. -/
def readTreeOneShot (g : GitRepo) (format : ObjectFormat) (oid : ObjectId) (allowFetch : Bool) :
    Except Error TreeObject :=
  let r := g.catFileTree allowFetch oid.toHex
  if !r.statusOk then .error (missingOrOffline oid allowFetch r.stderr)
  else parseTree oid r.stdout format

/-- What becomes of the process while it serves a request: it answers, it dies after `k` bytes of
the answer, or it is gone before the request is written. -/
inductive Fate where
  | answers
  | dies (k : Nat)
  | gone
deriving DecidableEq, Repr

/-- The errors of a session; its owner drops them. -/
inductive BatchError where
  | dead
  | write
  | terminated
  | badHeader (header : Bytes)
  | badSize (header : Bytes)
  | body
deriving DecidableEq, Repr

structure ObjectInfo where
  kind : Bytes
  size : Nat
deriving DecidableEq, Repr

/-- `<oid> <type> <size>` or `<oid> missing`. -/
def parseInfoHeader (header : Bytes) : Except BatchError (Option ObjectInfo) :=
  match header.splitOn 32 with
  | _ :: kind :: rest =>
    if kind = ascii "missing" then .ok none
    else match rest.head?.bind parseU64 with
      | some size => .ok (some ⟨kind, size⟩)
      | none => .error (.badSize header)
  | _ => .error (.badHeader header)

/-- The process holds its end of the pipe until it dies. -/
structure BatchSession where
  stdout : Pipe UInt8
  alive : Bool
deriving DecidableEq, Repr

namespace BatchSession

def spawn : BatchSession := ⟨⟨[], false⟩, true⟩

/-- The request is on its way, and `answer` is all the process has to say to it. -/
def send (answer : Bytes) (fate : Fate) (s : BatchSession) : Except BatchError Unit × BatchSession :=
  if !s.alive then (.error .dead, s)
  else if s.stdout.ended then (.error .write, s)
  else match fate with
    | .answers => (.ok (), { s with stdout := s.stdout.write answer false })
    | .dies k => (.ok (), { s with stdout := s.stdout.write (answer.take k) true })
    | .gone => (.error .write, { s with stdout := s.stdout.write [] true })

/-- Line feeds and carriage returns at the end go. -/
def trimLine (line : Bytes) : Bytes := (line.reverse.dropWhile fun b => b = 10 || b = 13).reverse

def readHeader (s : BatchSession) : Option (Except BatchError Bytes × BatchSession) :=
  match s.stdout.readUntil 10 with
  | none => none
  | some (line, stdout) =>
    if line = [] then some (.error .terminated, ⟨stdout, false⟩)
    else some (.ok (trimLine line), { s with stdout })

/-- The bytes behind the header, and the line feed that git adds. -/
def readBody (s : BatchSession) (info : ObjectInfo) :
    Option (Except BatchError (Option (ObjectInfo × Bytes)) × BatchSession) :=
  match s.stdout.readExact info.size with
  | none => none
  | some (none, stdout) => some (.error .body, { s with stdout })
  | some (some buf, stdout) =>
    match stdout.readExact 1 with
    | none => none
    | some (_, stdout) => some (.ok (some (info, buf)), { s with stdout })

/-- The answer to a request that was sent. -/
def receive (s : BatchSession) : Option (Except BatchError (Option (ObjectInfo × Bytes)) × BatchSession) :=
  match s.readHeader with
  | none => none
  | some (.error e, s) => some (.error e, s)
  | some (.ok header, s) =>
    match parseInfoHeader header with
    | .error e => some (.error e, s)
    | .ok none => some (.ok none, s)
    | .ok (some info) => s.readBody info

/-- `BatchSession::contents`; `none` if it waits for the process for ever. -/
def contents (g : GitRepo) (oid : ObjectId) (fate : Fate) (s : BatchSession) :
    Option (Except BatchError (Option (ObjectInfo × Bytes)) × BatchSession) :=
  match s.send (g.reply oid.toHex) fate with
  | (.error e, s) => some (.error e, s)
  | (.ok (), s) => s.receive

end BatchSession

/-- A call of `read_tree`: whether a session can be spawned, should it need one, and what becomes
of the process during the call. -/
structure TreeCall where
  oid : ObjectId
  allowFetch : Bool
  spawns : Bool
  fate : Fate
deriving DecidableEq, Repr

structure TreeReader where
  cache : ObjectId → Option TreeObject
  batch : Option BatchSession

namespace TreeReader

def fresh : TreeReader := ⟨fun _ => none, none⟩

def cacheTree (r : TreeReader) (oid : ObjectId) (tree : TreeObject) : TreeReader :=
  { r with cache := Function.update r.cache oid (some tree) }

def readTreeBatched (g : GitRepo) (format : ObjectFormat) (r : TreeReader) (c : TreeCall) :
    Option (Except Error (Option TreeObject) × TreeReader) :=
  match (r.batch.filter (·.alive)).or (if c.spawns then some .spawn else none) with
  | none => some (.ok none, { r with batch := none })
  | some session =>
    match session.contents g c.oid c.fate with
    | none => none
    | some (.ok (some (info, bytes)), session) =>
      if info.kind = ascii "tree" then
        some ((parseTree c.oid bytes format).map some, { r with batch := some session })
      else some (.ok none, { r with batch := some session })
    | some (.ok none, session) => some (.ok none, { r with batch := some session })
    | some (.error _, _) => some (.ok none, { r with batch := none })

def readTree (g : GitRepo) (format : ObjectFormat) (r : TreeReader) (c : TreeCall) :
    Option (Except Error TreeObject × TreeReader) :=
  match r.cache c.oid with
  | some tree => some (.ok tree, r)
  | none =>
    match r.readTreeBatched g format c with
    | none => none
    | some (.error e, r) => some (.error e, r)
    | some (.ok (some parsed), r) => some (.ok parsed, r.cacheTree c.oid parsed)
    | some (.ok none, r) =>
      match readTreeOneShot g format c.oid c.allowFetch with
      | .error e => some (.error e, r)
      | .ok parsed => some (.ok parsed, r.cacheTree c.oid parsed)

/-- One call after the other. -/
def run (g : GitRepo) (format : ObjectFormat) :
    TreeReader → List TreeCall → Option (List (Except Error TreeObject) × TreeReader)
  | r, [] => some ([], r)
  | r, c :: cs =>
    match r.readTree g format c with
    | none => none
    | some (answer, r) => (run g format r cs).map fun (answers, r) => (answer :: answers, r)

end TreeReader

/-! The header of an answer, whole and torn. -/

namespace GitRepo

/-- What git says of the object and what it holds. -/
def answer (g : GitRepo) (name : Bytes) : Option (ObjectInfo × Bytes) :=
  (g.objects name).map fun o => (⟨o.1.text, o.2.length⟩, o.2)

def header (g : GitRepo) (name : Bytes) : Bytes :=
  match g.objects name with
  | some (kind, contents) => name ++ 32 :: (kind.text ++ 32 :: Decimal.encode contents.length)
  | none => name ++ 32 :: ascii "missing"

def body (g : GitRepo) (name : Bytes) : Bytes :=
  match g.objects name with
  | some (_, contents) => contents ++ [10]
  | none => []

theorem reply_eq (g : GitRepo) (name : Bytes) : g.reply name = g.header name ++ 10 :: g.body name := by
  rw [reply, header, body]
  split
  · rename_i kind contents h
    simp
  · simp

end GitRepo

/-- Neither a space nor the end of a line. -/
def Plain (text : Bytes) : Prop := ∀ b ∈ text, b ≠ 32 ∧ b ≠ 10 ∧ b ≠ 13

instance (text : Bytes) : Decidable (Plain text) := inferInstanceAs (Decidable (∀ b ∈ text, _))

theorem plain_toHex (oid : ObjectId) : Plain oid.toHex := by
  have hall : ∀ n : Fin 16, hexDigit n ≠ 32 ∧ hexDigit n ≠ 10 ∧ hexDigit n ≠ 13 := by decide
  intro b hb
  obtain ⟨c, -, hc⟩ := List.mem_flatMap.mp hb
  have hlt := c.toNat_lt
  have hhigh : c.toNat / 16 < 16 := by omega
  have hlow : c.toNat % 16 < 16 := by omega
  rcases List.mem_pair.mp hc with rfl | rfl
  · exact hall ⟨c.toNat / 16, hhigh⟩
  · exact hall ⟨c.toNat % 16, hlow⟩

theorem plain_kind (kind : ObjectKind) : Plain kind.text := by
  cases kind <;> decide +kernel

theorem plain_missing : Plain (ascii "missing") := by decide +kernel

theorem plain_decimal (n : Nat) : Plain (Decimal.encode n) := by
  intro b hb
  have hd := Decimal.isDigit_of_mem_encode hb
  refine ⟨?_, ?_, ?_⟩
  all_goals
    rintro rfl
    revert hd
    decide

theorem Plain.space {text : Bytes} (h : Plain text) : (32 : UInt8) ∉ text := fun hm => (h 32 hm).1 rfl

theorem Plain.beginning {q text : Bytes} (h : Plain text) (hq : q <+: text) : Plain q :=
  fun b hb => h b (hq.subset hb)

theorem prefix_cons_cases {a b q : Bytes} {x : UInt8} (h : q <+: a ++ x :: b) :
    q <+: a ∨ ∃ t, t <+: b ∧ q = a ++ x :: t := by
  obtain ⟨r, hr⟩ := h
  rcases List.append_eq_append_iff.mp hr with ⟨c, rfl, -⟩ | ⟨c, rfl, hc⟩
  · exact .inl ⟨c, rfl⟩
  · cases c with
    | nil => exact .inl ⟨[], by simp⟩
    | cons y t =>
      obtain ⟨rfl, rfl⟩ := List.cons.inj hc
      exact .inr ⟨t, ⟨r, rfl⟩, rfl⟩

theorem parseInfoHeader_name {name : Bytes} (hname : Plain name) :
    parseInfoHeader name = .error (.badHeader name) := by
  rw [parseInfoHeader, List.splitOn_eq_singleton hname.space]

theorem parseInfoHeader_kind {name kind : Bytes} (hname : Plain name) (hkind : Plain kind) :
    parseInfoHeader (name ++ 32 :: kind) =
      if kind = ascii "missing" then .ok none else .error (.badSize (name ++ 32 :: kind)) := by
  rw [parseInfoHeader, List.splitOn_append_cons_self_of_not_mem hname.space,
    List.splitOn_eq_singleton hkind.space]
  rfl

theorem parseInfoHeader_size {name kind size : Bytes} (hname : Plain name) (hkind : Plain kind)
    (hsize : Plain size) (hne : kind ≠ ascii "missing") :
    parseInfoHeader (name ++ 32 :: (kind ++ 32 :: size)) =
      match parseU64 size with
      | some n => .ok (some ⟨kind, n⟩)
      | none => .error (.badSize (name ++ 32 :: (kind ++ 32 :: size))) := by
  rw [parseInfoHeader, List.splitOn_append_cons_self_of_not_mem hname.space,
    List.splitOn_append_cons_self_of_not_mem hkind.space, List.splitOn_eq_singleton hsize.space]
  simp only [if_neg hne, List.head?_cons, Option.bind_some]

theorem not_missing {kind : ObjectKind} {q : Bytes} (h : q <+: kind.text) : q ≠ ascii "missing" := by
  rintro rfl
  revert h
  cases kind <;> decide +kernel

theorem parseU64_beginning {n : Nat} {q : Bytes} (h : q <+: Decimal.encode n) (hq : parseU64 q = some 0) :
    n = 0 := by
  obtain ⟨t, ht⟩ := h
  have hplus : q.head? ≠ some 43 := by
    intro hhead
    obtain ⟨s, rfl⟩ := List.head?_eq_some_iff.mp hhead
    have hd : Decimal.isDigit 43 = true := Decimal.isDigit_of_mem_encode (n := n) (by rw [← ht]; simp)
    revert hd
    decide
  have hdigits : parseDigits q = some 0 := (Option.filter_eq_some_iff.mp hq).1
  rw [parseDigits, if_neg hplus] at hdigits
  exact Decimal.eq_zero_of_beginning ht.symm hdigits

variable {g : GitRepo} {name : Bytes}

/-- A whole header says what git says, or its size is no `u64`. -/
theorem parseInfoHeader_header (hname : Plain name) :
    parseInfoHeader (g.header name) = .ok ((g.answer name).map Prod.fst) ∨
      ∃ e, parseInfoHeader (g.header name) = .error e := by
  rw [GitRepo.header, GitRepo.answer]
  cases g.objects name with
  | none =>
    left
    rw [parseInfoHeader_kind hname plain_missing, if_pos rfl]
    rfl
  | some o =>
    obtain ⟨kind, contents⟩ := o
    have hne : kind.text ≠ ascii "missing" := not_missing (List.prefix_refl _)
    have hsize := parseInfoHeader_size hname (plain_kind kind) (plain_decimal contents.length) hne
    rw [parseU64_decimal] at hsize
    by_cases hlen : contents.length < 2 ^ 64
    · rw [if_pos hlen] at hsize
      exact .inl hsize
    · rw [if_neg hlen] at hsize
      exact .inr ⟨_, hsize⟩

/-- A header cut short is refused, or it says what the whole one says, or it promises bytes that
will not come. -/
theorem parseInfoHeader_torn (hname : Plain name) {q : Bytes} (hq : q <+: g.header name) :
    (∃ e, parseInfoHeader q = .error e) ∨ parseInfoHeader q = .ok none ∧ g.answer name = none ∨
      ∃ info, parseInfoHeader q = .ok (some info) ∧ (info.size = 0 → g.answer name = some (info, [])) := by
  rw [GitRepo.header] at hq
  rw [GitRepo.answer]
  generalize g.objects name = o at hq ⊢
  cases o with
  | none =>
    rcases prefix_cons_cases hq with hq | ⟨kq, hkq, rfl⟩
    · exact .inl ⟨_, parseInfoHeader_name (hname.beginning hq)⟩
    · rw [parseInfoHeader_kind hname (plain_missing.beginning hkq)]
      split
      · exact .inr (.inl ⟨rfl, rfl⟩)
      · exact .inl ⟨_, rfl⟩
  | some o =>
    obtain ⟨kind, contents⟩ := o
    rcases prefix_cons_cases hq with hq | ⟨kq, hkq, rfl⟩
    · exact .inl ⟨_, parseInfoHeader_name (hname.beginning hq)⟩
    rcases prefix_cons_cases hkq with hkq | ⟨dq, hdq, rfl⟩
    · rw [parseInfoHeader_kind hname ((plain_kind kind).beginning hkq), if_neg (not_missing hkq)]
      exact .inl ⟨_, rfl⟩
    · have hne : kind.text ≠ ascii "missing" := not_missing (List.prefix_refl _)
      rw [parseInfoHeader_size hname (plain_kind kind) ((plain_decimal _).beginning hdq) hne]
      cases hsize : parseU64 dq with
      | none => exact .inl ⟨_, rfl⟩
      | some n =>
        refine .inr (.inr ⟨_, rfl, fun hzero => ?_⟩)
        obtain rfl : n = 0 := hzero
        have hlen : contents.length = 0 := parseU64_beginning hdq hsize
        rw [List.length_eq_zero_iff.mp hlen]
        rfl

/-! One request: a session that answers is in step again; one that does not is dropped. -/

theorem no_eol_header (hname : Plain name) : ∀ b ∈ g.header name, b ≠ 10 ∧ b ≠ 13 := by
  have hspace : (32 : UInt8) ≠ 10 ∧ (32 : UInt8) ≠ 13 := by decide
  have hplain : ∀ {text : Bytes}, Plain text → ∀ b ∈ text, b ≠ 10 ∧ b ≠ 13 := fun h b hb => (h b hb).2
  intro b hb
  rw [GitRepo.header] at hb
  split at hb
  · rename_i kind contents _
    rcases List.mem_append.mp hb with hb | hb
    · exact hplain hname b hb
    rcases List.mem_cons.mp hb with rfl | hb
    · exact hspace
    rcases List.mem_append.mp hb with hb | hb
    · exact hplain (plain_kind kind) b hb
    rcases List.mem_cons.mp hb with rfl | hb
    · exact hspace
    · exact hplain (plain_decimal _) b hb
  · rcases List.mem_append.mp hb with hb | hb
    · exact hplain hname b hb
    rcases List.mem_cons.mp hb with rfl | hb
    · exact hspace
    · exact hplain plain_missing b hb

namespace BatchSession

theorem trimLine_of_no_eol {line : Bytes} (h : ∀ b ∈ line, b ≠ 10 ∧ b ≠ 13) : trimLine line = line := by
  rw [trimLine]
  cases hrev : line.reverse with
  | nil => simpa using hrev.symm
  | cons b rest =>
    have hb := h b (List.mem_reverse.mp (by rw [hrev]; exact List.mem_cons_self))
    have hstop : (decide (b = 10) || decide (b = 13)) = false := by simp [hb.1, hb.2]
    rw [List.dropWhile_cons, hstop, if_neg Bool.false_ne_true, ← hrev, List.reverse_reverse]

theorem trimLine_line {line : Bytes} (h : ∀ b ∈ line, b ≠ 10 ∧ b ≠ 13) : trimLine (line ++ [10]) = line := by
  have hline := trimLine_of_no_eol h
  rw [trimLine] at hline ⊢
  rw [List.reverse_append, List.reverse_singleton, List.singleton_append, List.dropWhile_cons]
  exact hline

theorem readHeader_line {line : Bytes} (h : ∀ b ∈ line, b ≠ 10 ∧ b ≠ 13) (rest : Bytes) (ended : Bool) :
    readHeader ⟨⟨line ++ 10 :: rest, ended⟩, true⟩ = some (.ok line, ⟨⟨rest, ended⟩, true⟩) := by
  have hsep : (10 : UInt8) ∉ line := fun hm => (h 10 hm).1 rfl
  have hread := Pipe.readUntil_line hsep rest ended
  simp only [readHeader, hread]
  rw [if_neg (by simp), trimLine_line h]

/-- A header that is whole decides what is answered; the bytes behind it may still be cut short. -/
theorem receive_header (hname : Plain name) {rest : Bytes} (ended : Bool)
    (hrest : rest <+: g.body name) (hend : ended = false → rest = g.body name) :
    ∃ r s, receive ⟨⟨g.header name ++ 10 :: rest, ended⟩, true⟩ = some (r, s) ∧
      ∀ a, r = .ok a → s.stdout.unread = [] ∧ a = g.answer name := by
  have hline := readHeader_line (no_eol_header (g := g) hname) rest ended
  rw [receive, hline]
  rcases parseInfoHeader_header (g := g) hname with hinfo | ⟨e, hinfo⟩
  swap
  · simp only [hinfo]
    exact ⟨.error e, _, rfl, fun a ha => nomatch ha⟩
  simp only [hinfo]
  rw [GitRepo.answer] at hinfo ⊢
  rw [GitRepo.body] at hrest hend
  generalize g.objects name = o at hrest hend ⊢
  cases o with
  | none =>
    obtain rfl : rest = [] := List.prefix_nil.mp hrest
    exact ⟨_, _, rfl, fun a ha => ⟨rfl, (Except.ok.inj ha).symm⟩⟩
  | some o =>
    obtain ⟨kind, contents⟩ := o
    simp only [Option.map_some]
    rcases prefix_cons_cases hrest with hshort | ⟨t, ht, rfl⟩
    · -- the contents, or a part of them, and no line feed
      by_cases hlen : contents.length ≤ rest.length
      · obtain rfl : rest = contents := hshort.eq_of_length_le hlen
        have hread := Pipe.readExact_append rest [] ended
        rw [List.append_nil] at hread
        have hended : ended = true := by
          cases ended with
          | true => rfl
          | false => exact absurd (congrArg List.length (hend rfl)) (by simp)
        subst hended
        have hnl : Pipe.readExact 1 (⟨[], true⟩ : Pipe UInt8) = some (none, ⟨[], true⟩) :=
          Pipe.readExact_short (by simp)
        refine ⟨.ok (some (⟨kind.text, rest.length⟩, rest)), ⟨⟨[], true⟩, true⟩, ?_, fun a ha => ⟨rfl, ?_⟩⟩
        · simp only [readBody, hread, hnl]
        · exact (Except.ok.inj ha).symm
      · have hended : ended = true := by
          cases ended with
          | true => rfl
          | false =>
            have hlen' := congrArg List.length (hend rfl)
            rw [List.length_append] at hlen'
            omega
        subst hended
        have hread := Pipe.readExact_short (show rest.length < contents.length by omega)
        refine ⟨.error .body, ⟨⟨[], true⟩, true⟩, ?_, fun a ha => nomatch ha⟩
        simp only [readBody, hread]
    · obtain rfl : t = [] := List.prefix_nil.mp ht
      have hread := Pipe.readExact_append contents [10] ended
      have hnl := Pipe.readExact_append [(10 : UInt8)] [] ended
      refine ⟨.ok (some (⟨kind.text, contents.length⟩, contents)), ⟨⟨[], ended⟩, true⟩, ?_,
        fun a ha => ⟨rfl, ?_⟩⟩
      · simp only [readBody, hread]
        exact congrArg _ rfl
      · exact (Except.ok.inj ha).symm

theorem receive_torn (hname : Plain name) {q : Bytes} (hq : q <+: g.header name) :
    ∃ r s, receive ⟨⟨q, true⟩, true⟩ = some (r, s) ∧
      ∀ a, r = .ok a → s.stdout.unread = [] ∧ a = g.answer name := by
  have heol : ∀ b ∈ q, b ≠ 10 ∧ b ≠ 13 := fun b hb => no_eol_header hname b (hq.subset hb)
  have hread : Pipe.readUntil 10 (⟨q, true⟩ : Pipe UInt8) = some (q, ⟨[], true⟩) :=
    Pipe.readUntil_torn fun hm => (heol 10 hm).1 rfl
  rw [receive, readHeader]
  simp only [hread, trimLine_of_no_eol heol]
  by_cases hnil : q = []
  · rw [if_pos hnil]
    exact ⟨.error .terminated, _, rfl, fun a ha => nomatch ha⟩
  rw [if_neg hnil]
  rcases parseInfoHeader_torn hname hq with ⟨e, he⟩ | ⟨hnone, hanswer⟩ | ⟨info, hinfo, hanswer⟩
  · simp only [he]
    exact ⟨.error e, _, rfl, fun a ha => nomatch ha⟩
  · simp only [hnone]
    exact ⟨.ok none, _, rfl, fun a ha => ⟨rfl, (Except.ok.inj ha).symm.trans hanswer.symm⟩⟩
  · simp only [hinfo, readBody]
    by_cases hsize : info.size = 0
    · have hempty := Pipe.readExact_append ([] : Bytes) [] true
      have hnl : Pipe.readExact 1 (⟨[], true⟩ : Pipe UInt8) = some (none, ⟨[], true⟩) :=
        Pipe.readExact_short (by simp)
      rw [List.length_nil, List.append_nil] at hempty
      refine ⟨.ok (some (info, [])), ⟨⟨[], true⟩, true⟩, ?_, fun a ha => ⟨rfl, ?_⟩⟩
      · simp only [hsize, hempty, hnl]
      · rw [← Except.ok.inj ha, hanswer hsize]
    · have hshort : Pipe.readExact info.size (⟨[], true⟩ : Pipe UInt8) = some (none, ⟨[], true⟩) :=
        Pipe.readExact_short (by rw [List.length_nil]; omega)
      refine ⟨.error .body, ⟨⟨[], true⟩, true⟩, ?_, fun a ha => nomatch ha⟩
      simp only [hshort]

/-- A session in step gives the right answer and is in step again, or it fails. -/
theorem contents_spec (g : GitRepo) (oid : ObjectId) (fate : Fate) {s : BatchSession} (hs : s.stdout.unread = []) :
    ∃ r t, s.contents g oid fate = some (r, t) ∧
      ∀ a, r = .ok a → t.stdout.unread = [] ∧ a = g.answer oid.toHex := by
  obtain ⟨⟨unread, ended⟩, alive⟩ := s
  obtain rfl : unread = [] := hs
  have hname := plain_toHex oid
  cases alive with
  | false => exact ⟨.error .dead, _, rfl, fun a ha => nomatch ha⟩
  | true =>
    cases ended with
    | true => exact ⟨.error .write, _, rfl, fun a ha => nomatch ha⟩
    | false =>
      cases fate with
      | gone => exact ⟨.error .write, _, rfl, fun a ha => nomatch ha⟩
      | answers =>
        obtain ⟨r, t, hr, hok⟩ := receive_header (g := g) hname false (List.prefix_refl _) fun _ => rfl
        refine ⟨r, t, ?_, hok⟩
        rw [← hr, ← GitRepo.reply_eq]
        rfl
      | dies k =>
        have htake : (g.reply oid.toHex).take k <+: g.reply oid.toHex := List.take_prefix _ _
        have hsend : contents g oid (.dies k) ⟨⟨[], false⟩, true⟩ =
          receive ⟨⟨(g.reply oid.toHex).take k, true⟩, true⟩ := rfl
        rw [hsend]
        generalize (g.reply oid.toHex).take k = q at htake
        rw [GitRepo.reply_eq] at htake
        rcases prefix_cons_cases htake with hq | ⟨rest, hrest, rfl⟩
        · exact receive_torn hname hq
        · exact receive_header (g := g) hname true hrest fun h => nomatch h

end BatchSession

/-! The reader over a whole run of calls. -/

/-- A tree in the cache is what the plain read returns, and nothing waits in the pipe. -/
structure TreeReader.Agrees (g : GitRepo) (format : ObjectFormat) (r : TreeReader) : Prop where
  cache : ∀ oid tree allowFetch, r.cache oid = some tree → readTreeOneShot g format oid allowFetch = .ok tree
  synced : ∀ s, r.batch = some s → s.stdout.unread = []

theorem readTreeOneShot_some {format : ObjectFormat} {oid : ObjectId} {contents : Bytes} (allowFetch : Bool)
    (h : g.treeOf oid.toHex = some contents) :
    readTreeOneShot g format oid allowFetch = parseTree oid contents format := by
  have hrun : g.catFileTree allowFetch oid.toHex = ⟨contents, [], true⟩ := by rw [GitRepo.catFileTree, h]
  rw [readTreeOneShot, hrun]
  rfl

theorem readTreeOneShot_none {format : ObjectFormat} {oid : ObjectId} (allowFetch : Bool)
    (h : g.treeOf oid.toHex = none) : readTreeOneShot g format oid allowFetch =
      .error (missingOrOffline oid allowFetch (g.stderr allowFetch oid.toHex)) := by
  have hrun : g.catFileTree allowFetch oid.toHex = ⟨[], g.stderr allowFetch oid.toHex, false⟩ := by
    rw [GitRepo.catFileTree, h]
  rw [readTreeOneShot, hrun]
  rfl

/-- Whether it may fetch only decides how the plain read fails. -/
theorem readTreeOneShot_ok {format : ObjectFormat} {oid : ObjectId} {tree : TreeObject} {allowFetch : Bool}
    (h : readTreeOneShot g format oid allowFetch = .ok tree) (allowFetch' : Bool) :
    readTreeOneShot g format oid allowFetch' = .ok tree := by
  cases hof : g.treeOf oid.toHex with
  | none =>
    rw [readTreeOneShot_none allowFetch hof] at h
    cases h
  | some contents =>
    rw [readTreeOneShot_some allowFetch hof] at h
    rw [readTreeOneShot_some allowFetch' hof, h]

theorem eq_tree_of_text {kind : ObjectKind} (h : kind.text = ascii "tree") : kind = .tree := by
  revert h
  cases kind <;> decide +kernel

namespace TreeReader

variable {format : ObjectFormat}

theorem agrees_fresh : Agrees g format fresh := by
  refine ⟨fun oid tree _ h => ?_, fun s h => ?_⟩
  · cases h
  · cases h

theorem Agrees.cacheTree {r : TreeReader} (hr : r.Agrees g format) {oid : ObjectId} {tree : TreeObject}
    (h : ∀ allowFetch, readTreeOneShot g format oid allowFetch = .ok tree) :
    (r.cacheTree oid tree).Agrees g format := by
  refine ⟨fun oid' tree' allowFetch hc => ?_, hr.synced⟩
  by_cases heq : oid' = oid
  · subst heq
    have hc' : some tree = some tree' := by simpa [TreeReader.cacheTree] using hc
    rw [h allowFetch, Option.some.inj hc']
  · exact hr.cache oid' tree' allowFetch (by simpa [TreeReader.cacheTree, heq] using hc)

/-- The session answers what the plain read does, or leaves the call to it. -/
theorem Agrees.readTreeBatched {r : TreeReader} (hr : r.Agrees g format) (c : TreeCall) :
    ∃ answer r', r.readTreeBatched g format c = some (answer, r') ∧ r'.Agrees g format ∧
      (answer = .ok none ∨ answer = (readTreeOneShot g format c.oid c.allowFetch).map some) := by
  have hkeep : ∀ batch, (∀ s, batch = some s → s.stdout.unread = []) →
      Agrees g format { r with batch := batch } := fun batch hbatch => ⟨hr.cache, hbatch⟩
  have hfound : ∀ s, (r.batch.filter (·.alive)).or (if c.spawns then some .spawn else none) = some s →
      s.stdout.unread = [] := by
    intro s hs
    rcases Option.or_eq_some_iff.mp hs with hs | ⟨-, hs⟩
    · exact hr.synced s (Option.filter_eq_some_iff.mp hs).1
    · split at hs
      · rw [← Option.some.inj hs]
        rfl
      · cases hs
  rw [TreeReader.readTreeBatched]
  generalize (r.batch.filter (·.alive)).or (if c.spawns then some .spawn else none) = session at hfound
  cases session with
  | none => exact ⟨.ok none, _, rfl, hkeep none (fun s hs => nomatch hs), .inl rfl⟩
  | some session =>
    obtain ⟨answer, session', hcontents, hanswer⟩ :=
      BatchSession.contents_spec g c.oid c.fate (hfound session rfl)
    simp only [hcontents]
    cases answer with
    | error e => exact ⟨.ok none, _, rfl, hkeep none (fun s hs => nomatch hs), .inl rfl⟩
    | ok answer =>
      have hsynced : ∀ s, some session' = some s → s.stdout.unread = [] :=
        fun s hs => Option.some.inj hs ▸ (hanswer answer rfl).1
      cases answer with
      | none => exact ⟨.ok none, _, rfl, hkeep _ hsynced, .inl rfl⟩
      | some answer =>
        obtain ⟨info, bytes⟩ := answer
        by_cases htree : info.kind = ascii "tree"
        · obtain ⟨o, ho, heq⟩ := Option.map_eq_some_iff.mp (hanswer _ rfl).2.symm
          obtain ⟨kind, contents⟩ := o
          obtain ⟨rfl, rfl⟩ := Prod.mk.inj heq
          obtain rfl := eq_tree_of_text htree
          simp only [if_pos htree]
          refine ⟨_, _, rfl, hkeep _ hsynced, .inr ?_⟩
          rw [readTreeOneShot_some c.allowFetch (g.treeOf_tree ho)]
        · simp only [if_neg htree]
          exact ⟨.ok none, _, rfl, hkeep _ hsynced, .inl rfl⟩

theorem Agrees.readTree {r : TreeReader} (hr : r.Agrees g format) (c : TreeCall) :
    ∃ r', r.readTree g format c = some (readTreeOneShot g format c.oid c.allowFetch, r') ∧
      r'.Agrees g format := by
  rw [TreeReader.readTree]
  cases hc : r.cache c.oid with
  | some tree => exact ⟨r, by rw [hr.cache c.oid tree c.allowFetch hc], hr⟩
  | none =>
    obtain ⟨answer, r', hbatched, hr', hanswer⟩ := hr.readTreeBatched c
    have hcached : ∀ tree, readTreeOneShot g format c.oid c.allowFetch = .ok tree →
        (r'.cacheTree c.oid tree).Agrees g format :=
      fun tree htree => hr'.cacheTree fun allowFetch => readTreeOneShot_ok htree allowFetch
    simp only [hbatched]
    rcases hanswer with rfl | rfl
    · cases hplain : readTreeOneShot g format c.oid c.allowFetch with
      | error e => exact ⟨r', rfl, hr'⟩
      | ok tree => exact ⟨_, rfl, hcached tree hplain⟩
    · cases hplain : readTreeOneShot g format c.oid c.allowFetch with
      | error e => exact ⟨r', rfl, hr'⟩
      | ok tree => exact ⟨_, rfl, hcached tree hplain⟩

theorem Agrees.run {r : TreeReader} (hr : r.Agrees g format) (calls : List TreeCall) :
    ∃ r', r.run g format calls =
        some (calls.map fun c => readTreeOneShot g format c.oid c.allowFetch, r') ∧
      r'.Agrees g format := by
  induction calls generalizing r with
  | nil => exact ⟨r, rfl, hr⟩
  | cons c calls ih =>
    obtain ⟨r₁, hread, hr₁⟩ := hr.readTree c
    obtain ⟨r₂, hrun, hr₂⟩ := ih hr₁
    refine ⟨r₂, ?_, hr₂⟩
    simp only [TreeReader.run, hread, hrun]
    rfl

end TreeReader

/-- Whatever is read in whatever order, and wherever the process dies: every call returns what the
plain read of its object returns, and between two calls nothing waits in the pipe. -/
theorem read_tree_agrees (g : GitRepo) (format : ObjectFormat) (calls : List TreeCall) :
    ∃ r, TreeReader.run g format .fresh calls =
        some (calls.map fun c => readTreeOneShot g format c.oid c.allowFetch, r) ∧
      ∀ s, r.batch = some s → s.stdout.unread = [] := by
  obtain ⟨r, hrun, hr⟩ := TreeReader.agrees_fresh.run calls
  exact ⟨r, hrun, hr.synced⟩

/-! A store of two trees, a blob, a commit and a tree that does not parse, each named by one byte. -/

def mixedTree (name : UInt8) : Bytes := ascii "100644 " ++ name :: 0 :: List.replicate 20 7

def mixedObjects : List (Bytes × ObjectKind × Bytes) :=
  [(ascii "01", .tree, mixedTree 97), (ascii "02", .blob, ascii "text"), (ascii "03", .commit, ascii "tree 01"),
    (ascii "04", .tree, mixedTree 98), (ascii "05", .tree, ascii "100644")]

/-- The commit dereferences to the first tree. -/
def mixedRepo : GitRepo where
  objects name := mixedObjects.lookup name
  treeOf name :=
    match mixedObjects.lookup name with
    | some (.tree, contents) => some contents
    | some (.commit, _) => some (mixedTree 97)
    | _ => none
  stderr _ _ := ascii "fatal: Not a valid object name"
  treeOf_tree h := by rw [h]

/-- The process dies within the second tree's contents, and there is none for the commit. -/
def mixedCalls : List TreeCall :=
  [⟨⟨[1]⟩, false, true, .answers⟩, ⟨⟨[2]⟩, true, true, .answers⟩, ⟨⟨[9]⟩, false, true, .answers⟩,
    ⟨⟨[4]⟩, false, true, .dies 20⟩, ⟨⟨[3]⟩, false, false, .gone⟩, ⟨⟨[5]⟩, false, true, .answers⟩,
    ⟨⟨[1]⟩, true, true, .gone⟩, ⟨⟨[2]⟩, false, true, .answers⟩]

theorem read_tree_agrees_mixed :
    let tree (oid name : UInt8) : TreeObject := ⟨⟨[oid]⟩, [⟨[name], .regular, ⟨List.replicate 20 7⟩⟩]⟩
    ∃ answers r, TreeReader.run mixedRepo .sha1 .fresh mixedCalls = some (answers, r) ∧
      answers.map Except.toOption = [some (tree 1 97), none, none, some (tree 4 98), some (tree 3 97), none,
        some (tree 1 97), none] ∧
      ∀ s, r.batch = some s → s.stdout.unread = [] := by
  obtain ⟨r, hrun, hunread⟩ := read_tree_agrees mixedRepo .sha1 mixedCalls
  exact ⟨_, r, hrun, by decide +kernel, hunread⟩

end LazyMount
