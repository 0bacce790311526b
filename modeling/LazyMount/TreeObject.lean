import LazyMount.Projection

/-! Raw tree objects: object names as text, and the entries that `parse_tree` reads from the bytes
of a tree. -/

namespace LazyMount

inductive ObjectFormat where
  | sha1
  | sha256
  | other (name : String)
deriving DecidableEq, Repr

namespace ObjectFormat

def name : ObjectFormat → String
  | .sha1 => "sha1"
  | .sha256 => "sha256"
  | .other name => name

def rawLen : ObjectFormat → Option Nat
  | .sha1 => some 20
  | .sha256 => some 32
  | .other _ => none

end ObjectFormat

/-- `hex::encode` -/
def ObjectId.toHex (oid : ObjectId) : Bytes :=
  oid.raw.flatMap fun b => [hexDigit (b.toNat / 16), hexDigit (b.toNat % 16)]

/-- `GitMode::parse_octal` -/
def GitMode.parseOctal (mode : List Char) : Option GitMode :=
  let digits := mode.dropWhile (· = '0')
  if digits = "100644".toList ∨ digits = "644".toList then some .regular
  else if digits = "100755".toList ∨ digits = "755".toList then some .executable
  else if digits = "120000".toList then some .symlink
  else if digits = "40000".toList ∨ digits = "040000".toList then some .tree
  else if digits = "160000".toList then some .gitlink
  else none

/-- The names of a tree are of the format of its store, so the digest stands for them. -/
structure TreeObject where
  id : ObjectId
  entries : List TreeEntry
deriving DecidableEq, Repr

def corrupt (msg : String) : Error := ⟨.localObjectCorruption, "malformed tree: " ++ msg⟩

/-- `.ok_or_else(|| corrupt(msg))?` -/
def orCorrupt {α : Type} (msg : String) : Option α → Except Error α
  | some a => .ok a
  | none => .error (corrupt msg)

/-- The loop of `parse_tree` from its position on. -/
def parseEntries (oidLen : Nat) (bytes : Bytes) : Except Error (List TreeEntry) :=
  if hne : bytes = [] then .ok [] else do
    let sp ← orCorrupt "missing space after mode" (bytes.idxOf? 32)
    let modeStr ← orCorrupt "non-ascii mode" (Utf8.decode (bytes.take sp))
    let mode ← orCorrupt ("unknown mode " ++ String.ofList modeStr) (GitMode.parseOctal modeStr)
    let rest := bytes.drop (sp + 1)
    let nul ← orCorrupt "missing NUL after name" (rest.idxOf? 0)
    let name := rest.take nul
    let rest := rest.drop (nul + 1)
    if rest.length < oidLen then .error (corrupt "truncated oid")
    else
      let entries ← parseEntries oidLen (rest.drop oidLen)
      .ok (⟨name, mode, ⟨rest.take oidLen⟩⟩ :: entries)
termination_by bytes.length
decreasing_by
  have hpos : 0 < bytes.length := List.length_pos_of_ne_nil hne
  simp only [List.length_drop]
  omega

def parseTree (id : ObjectId) (bytes : Bytes) (format : ObjectFormat) : Except Error TreeObject :=
  match format.rawLen with
  | none => .error ⟨.unsupportedOperation, "cannot parse trees for object format '" ++ format.name ++ "'"⟩
  | some oidLen => do
    let entries ← parseEntries oidLen bytes
    .ok ⟨id, entries⟩

end LazyMount
