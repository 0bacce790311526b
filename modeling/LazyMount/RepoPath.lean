import LazyMount.Bytes
import LazyMount.Lib.RecordLog

/-! Repository paths: byte strings that are empty or split at `/` into valid components. -/

namespace LazyMount

def slash : UInt8 := 47

def dot : UInt8 := 46

inductive PathError where
  | containsNul
  | absolute
  | emptyComponent
  | traversal
  | badEscape
deriving DecidableEq, Repr

def PathError.message : PathError → String
  | .containsNul => "path contains NUL"
  | .absolute => "path is absolute"
  | .emptyComponent => "path contains an empty component"
  | .traversal => "path contains a traversal component ('.' or '..')"
  | .badEscape => "invalid escaped path"

/-- A file name that can stand in a path. -/
def ValidComponent (c : Bytes) : Prop :=
  c ≠ [] ∧ 0 ∉ c ∧ slash ∉ c ∧ c ≠ [dot] ∧ c ≠ [dot, dot]

instance (c : Bytes) : Decidable (ValidComponent c) := inferInstanceAs (Decidable (_ ∧ _))

structure RepoPath where
  bytes : Bytes
  valid : bytes = [] ∨ ∀ c ∈ bytes.splitOn slash, ValidComponent c
deriving DecidableEq

def rposition (b : UInt8) (s : Bytes) : Option Nat :=
  (s.reverse.findIdx? (· == b)).map (fun i => s.length - 1 - i)

def intercalateSlash (cs : List Bytes) : Bytes := [slash].intercalate cs

theorem intercalateSlash_append {cs ds : List Bytes} (hcs : cs ≠ []) (hds : ds ≠ []) :
    intercalateSlash (cs ++ ds) = intercalateSlash cs ++ slash :: intercalateSlash ds := by
  induction cs with
  | nil => exact (hcs rfl).elim
  | cons c cs ih =>
    cases cs with
    | nil =>
      obtain ⟨d, ds, rfl⟩ := List.exists_cons_of_ne_nil hds
      simp [intercalateSlash, List.intercalate_cons_cons]
    | cons e cs =>
      have hh := ih (by simp)
      simp only [intercalateSlash, List.cons_append, List.intercalate_cons_cons,
        List.append_assoc] at hh ⊢
      rw [hh]

theorem intercalateSlash_concat {cs : List Bytes} (hcs : cs ≠ []) (c : Bytes) :
    intercalateSlash (cs ++ [c]) = intercalateSlash cs ++ slash :: c := by
  have hc : intercalateSlash [c] = c := List.intercalate_singleton
  rw [intercalateSlash_append hcs (by simp), hc]

theorem rposition_eq_none {b : UInt8} {s : Bytes} (h : b ∉ s) : rposition b s = none := by
  simp only [rposition, Option.map_eq_none_iff, List.findIdx?_eq_none_iff, List.mem_reverse]
  intro x hx
  simp only [beq_eq_false_iff_ne]
  intro heq
  subst heq
  exact h hx

theorem rposition_append {b : UInt8} {s t : Bytes} (h : b ∉ t) :
    rposition b (s ++ b :: t) = some s.length := by
  have hidx : (s ++ b :: t).reverse.findIdx? (· == b) = some t.length := by
    rw [List.reverse_append, List.reverse_cons, List.append_assoc, List.findIdx?_append]
    have hnone : t.reverse.findIdx? (· == b) = none := by
      simp only [List.findIdx?_eq_none_iff, List.mem_reverse, beq_eq_false_iff_ne]
      rintro x hx rfl
      exact h hx
    simp [hnone, List.findIdx?_cons]
  simp only [rposition, hidx, Option.map_some, List.length_append, List.length_cons]
  congr 1
  omega

theorem mem_of_mem_splitOn {x b : UInt8} {s c : Bytes} (hc : c ∈ s.splitOn x) (hb : b ∈ c) :
    b ∈ s := by
  induction s generalizing c with
  | nil => simp_all
  | cons y s ih =>
    rw [List.splitOn_cons_eq_if_modifyHead] at hc
    split at hc
    · rcases List.mem_cons.mp hc with rfl | hc
      · simp at hb
      · exact List.mem_cons_of_mem _ (ih hc hb)
    · cases hs : s.splitOn x with
      | nil => simp [hs] at hc
      | cons d ds =>
        rw [hs, List.modifyHead_cons] at hc
        rcases List.mem_cons.mp hc with rfl | hc
        · rcases List.mem_cons.mp hb with rfl | hb
          · simp
          · exact List.mem_cons_of_mem _ (ih (by simp [hs]) hb)
        · exact List.mem_cons_of_mem _ (ih (by simp [hs, hc]) hb)

theorem exists_mem_splitOn {α : Type} [DecidableEq α] {x b : α} {s : List α} (hb : b ∈ s) (hx : b ≠ x) :
    ∃ c ∈ s.splitOn x, b ∈ c := by
  induction s with
  | nil => simp at hb
  | cons y s ih =>
    rw [List.splitOn_cons_eq_if_modifyHead]
    by_cases hy : y = x
    · rw [if_pos (by simp [hy])]
      have hbs : b ∈ s := (List.mem_cons.mp hb).resolve_left fun h => hx (h.trans hy)
      obtain ⟨c, hc, hbc⟩ := ih hbs
      exact ⟨c, List.mem_cons_of_mem _ hc, hbc⟩
    · rw [if_neg (by simp [hy])]
      cases hs : s.splitOn x with
      | nil => exact (List.splitOn_ne_nil x s hs).elim
      | cons d ds =>
        rw [List.modifyHead_cons]
        rcases List.mem_cons.mp hb with rfl | hb
        · exact ⟨b :: d, by simp, by simp⟩
        · obtain ⟨c, hc, hbc⟩ := ih hb
          rw [hs] at hc
          rcases List.mem_cons.mp hc with rfl | hc
          · exact ⟨y :: c, by simp, by simp [hbc]⟩
          · exact ⟨c, by simp [hc], hbc⟩

theorem splitOn_intercalateSlash {cs : List Bytes} (hcs : cs ≠ [])
    (hv : ∀ c ∈ cs, ValidComponent c) : (intercalateSlash cs).splitOn slash = cs :=
  List.splitOn_intercalate slash (fun c hc => (hv c hc).2.2.1) hcs

namespace RepoPath

def root : RepoPath := ⟨[], .inl rfl⟩

def isRoot (p : RepoPath) : Bool := p.bytes.isEmpty

def componentError (c : Bytes) : Option PathError :=
  if c = [] then some .emptyComponent
  else if c = [dot] ∨ c = [dot, dot] then some .traversal
  else none

/-- The checks of `from_bytes`, in its order. -/
def validate (bytes : Bytes) : Option PathError :=
  if bytes = [] then none
  else if 0 ∈ bytes then some .containsNul
  else if bytes.head? = some slash then some .absolute
  else (bytes.splitOn slash).findSome? componentError

theorem valid_of_validate {bytes : Bytes} (h : validate bytes = none) :
    bytes = [] ∨ ∀ c ∈ bytes.splitOn slash, ValidComponent c := by
  simp only [validate] at h
  split at h
  · exact .inl ‹_›
  · split at h
    · simp at h
    · split at h
      · simp at h
      · refine .inr fun c hc => ?_
        have he := List.findSome?_eq_none_iff.mp h c hc
        have hnul : 0 ∉ c := fun h0 => absurd (mem_of_mem_splitOn hc h0) ‹_›
        have hslash := RecordLog.sep_notMem_of_mem_splitOn slash hc
        simp only [componentError] at he
        split at he
        · simp at he
        · split at he
          · simp at he
          · simp_all [ValidComponent]

def fromBytes (bytes : Bytes) : Except PathError RepoPath :=
  match h : validate bytes with
  | some e => .error e
  | none => .ok ⟨bytes, valid_of_validate h⟩

theorem componentError_of_valid {c : Bytes} (h : ValidComponent c) : componentError c = none := by
  obtain ⟨hne, _, _, hd, hdd⟩ := h
  simp [componentError, hne, hd, hdd]

theorem nul_notMem (p : RepoPath) : 0 ∉ p.bytes := by
  intro h0
  rcases p.valid with hnil | hall
  · rw [hnil] at h0
    cases h0
  · obtain ⟨c, hc, h0⟩ := exists_mem_splitOn h0 (show (0 : UInt8) ≠ slash by decide)
    exact (hall c hc).2.1 h0

theorem head_ne_slash (p : RepoPath) : p.bytes.head? ≠ some slash := by
  intro hhead
  obtain ⟨bs, hbs⟩ : ∃ bs, p.bytes = slash :: bs := by
    cases hb : p.bytes with
    | nil => simp [hb] at hhead
    | cons b bs => exact ⟨bs, by simp_all⟩
  have hempty : [] ∈ p.bytes.splitOn slash := by
    rw [hbs, List.splitOn_cons_eq_if_modifyHead, if_pos (by simp)]
    exact List.mem_cons_self
  rcases p.valid with hnil | hvalid
  · rw [hnil] at hhead
    cases hhead
  · exact (hvalid [] hempty).1 rfl

theorem fromBytes_bytes (p : RepoPath) : fromBytes p.bytes = .ok p := by
  have hv : validate p.bytes = none := by
    by_cases hp : p.bytes = []
    · simp [validate, hp]
    have hall := p.valid.resolve_left hp
    rw [validate, if_neg hp, if_neg p.nul_notMem, if_neg p.head_ne_slash, List.findSome?_eq_none_iff]
    exact fun c hc => componentError_of_valid (hall c hc)
  rw [fromBytes]
  split
  · rename_i e he
    rw [hv] at he
    simp at he
  · rfl

theorem fromBytes_ok {bytes : Bytes} {p : RepoPath} (h : fromBytes bytes = .ok p) : p.bytes = bytes := by
  rw [fromBytes] at h
  split at h
  · cases h
  · cases h
    rfl

def components (p : RepoPath) : List Bytes := (p.bytes.splitOn slash).filter (· ≠ [])

theorem components_of_ne {p : RepoPath} (hp : p.bytes ≠ []) :
    p.components = p.bytes.splitOn slash := by
  have hv := p.valid.resolve_left hp
  exact List.filter_eq_self.mpr fun c hc => by simpa using (hv c hc).1

@[simp] theorem components_root : root.components = [] := by
  simp [components, root]

theorem validComponent_of_mem {p : RepoPath} {c : Bytes} (hc : c ∈ p.components) :
    ValidComponent c := by
  obtain ⟨hc, hne⟩ := List.mem_filter.mp hc
  rcases p.valid with h | h
  · simp_all
  · exact h c hc

theorem bytes_eq (p : RepoPath) : p.bytes = intercalateSlash p.components := by
  by_cases hp : p.bytes = []
  · simp [components, hp, intercalateSlash, List.intercalate]
  · rw [components_of_ne hp, intercalateSlash, List.intercalate_splitOn]

@[ext] theorem ext_components {p q : RepoPath} (h : p.components = q.components) : p = q := by
  have hb : p.bytes = q.bytes := by rw [p.bytes_eq, q.bytes_eq, h]
  cases p
  cases q
  simp_all

def ofComponents (cs : List Bytes) (hv : ∀ c ∈ cs, ValidComponent c) : RepoPath :=
  ⟨intercalateSlash cs, by
    by_cases hcs : cs = []
    · exact .inl (by simp [hcs, intercalateSlash, List.intercalate])
    · exact .inr (by rwa [splitOn_intercalateSlash hcs hv])⟩

theorem components_ofComponents (cs : List Bytes) (hv : ∀ c ∈ cs, ValidComponent c) :
    (ofComponents cs hv).components = cs := by
  by_cases hcs : cs = []
  · simp [hcs, ofComponents, components, intercalateSlash, List.intercalate]
  · simp only [ofComponents, components, splitOn_intercalateSlash hcs hv]
    exact List.filter_eq_self.mpr fun c hc => by simpa using (hv c hc).1

theorem eq_root_or_concat (p : RepoPath) :
    p = root ∨ ∃ cs c, p.components = cs ++ [c] := by
  rcases List.eq_nil_or_concat p.components with h | ⟨cs, c, h⟩
  · exact .inl (ext_components (by rw [h, components_root]))
  · exact .inr ⟨cs, c, by simpa using h⟩

theorem rposition_bytes {p : RepoPath} {cs : List Bytes} {c : Bytes}
    (h : p.components = cs ++ [c]) :
    rposition slash p.bytes = if cs = [] then none else some (intercalateSlash cs).length := by
  have hc : slash ∉ c := (validComponent_of_mem (p := p) (by simp [h])).2.2.1
  rw [bytes_eq, h]
  split
  · rename_i hcs
    rw [hcs, List.nil_append, intercalateSlash, List.intercalate_singleton, rposition_eq_none hc]
  · rename_i hcs
    rw [intercalateSlash_concat hcs, rposition_append hc]

theorem valid_take {p : RepoPath} {idx : Nat} (h : rposition slash p.bytes = some idx) :
    p.bytes.take idx = [] ∨ ∀ c ∈ (p.bytes.take idx).splitOn slash, ValidComponent c := by
  rcases p.eq_root_or_concat with rfl | ⟨cs, c, hc⟩
  · simp [root]
  · have hv : ∀ d ∈ cs, ValidComponent d := fun d hd =>
      validComponent_of_mem (p := p) (by simp [hc, hd])
    rw [rposition_bytes hc] at h
    split at h
    · simp at h
    · rename_i hcs
      injection h with h
      have htake : p.bytes.take idx = intercalateSlash cs := by
        rw [bytes_eq, hc, intercalateSlash_concat hcs, ← h, List.take_left']
        rfl
      rw [htake]
      exact (ofComponents cs hv).valid

def fileName (p : RepoPath) : Option Bytes :=
  if p.bytes = [] then none
  else match rposition slash p.bytes with
    | some idx => some (p.bytes.drop (idx + 1))
    | none => some p.bytes

def parent (p : RepoPath) : Option RepoPath :=
  if p.bytes = [] then none
  else match h : rposition slash p.bytes with
    | some idx => some ⟨p.bytes.take idx, valid_take h⟩
    | none => some root

def joinError (c : Bytes) : Option PathError :=
  if c = [] then some .emptyComponent
  else if 0 ∈ c then some .containsNul
  else if slash ∈ c then some .emptyComponent
  else if c = [dot] ∨ c = [dot, dot] then some .traversal
  else none

theorem joinError_eq_none {c : Bytes} : joinError c = none ↔ ValidComponent c := by
  simp only [joinError, ValidComponent]
  grind

theorem bytes_ne_nil_iff {p : RepoPath} : p.bytes ≠ [] ↔ p.components ≠ [] := by
  constructor
  · intro h
    rw [components_of_ne h]
    exact List.splitOn_ne_nil _ _
  · rintro h hb
    exact h (by simp [components, hb])

/-- The bytes `join` builds: a slash only behind a parent that is not the root. -/
def joinBytes (p : RepoPath) (c : Bytes) : Bytes :=
  (if p.bytes = [] then [] else p.bytes ++ [slash]) ++ c

theorem joinBytes_eq (p : RepoPath) (c : Bytes) :
    p.joinBytes c = intercalateSlash (p.components ++ [c]) := by
  by_cases hp : p.bytes = []
  · have hc : p.components = [] := by simp [components, hp]
    simp [joinBytes, hp, hc, intercalateSlash]
  · rw [intercalateSlash_concat (bytes_ne_nil_iff.mp hp), ← bytes_eq]
    simp [joinBytes, hp]

theorem forall_components_concat {p : RepoPath} {c : Bytes} (hc : ValidComponent c) :
    ∀ d ∈ p.components ++ [c], ValidComponent d := by
  intro d hd
  rcases List.mem_append.mp hd with hd | hd
  · exact validComponent_of_mem hd
  · rwa [List.mem_singleton.mp hd]

theorem valid_joinBytes {p : RepoPath} {c : Bytes} (h : joinError c = none) :
    p.joinBytes c = [] ∨ ∀ d ∈ (p.joinBytes c).splitOn slash, ValidComponent d := by
  rw [joinBytes_eq]
  exact (ofComponents _ (forall_components_concat (joinError_eq_none.mp h))).valid

def join (p : RepoPath) (c : Bytes) : Except PathError RepoPath :=
  match h : joinError c with
  | some e => .error e
  | none => .ok ⟨p.joinBytes c, valid_joinBytes h⟩

def isPrefixOf (p q : RepoPath) : Bool :=
  p.bytes = [] || p.bytes = q.bytes ||
    (p.bytes.length < q.bytes.length && p.bytes.isPrefixOf q.bytes &&
      q.bytes[p.bytes.length]? = some slash)

/-! The operations on components. -/

theorem parent_root : root.parent = none := rfl

theorem parent_of_components {p : RepoPath} {cs : List Bytes} {c : Bytes}
    (h : p.components = cs ++ [c]) : ∃ q, p.parent = some q ∧ q.components = cs := by
  have hv : ∀ d ∈ cs, ValidComponent d := fun d hd =>
    validComponent_of_mem (p := p) (by simp [h, hd])
  have hne : p.bytes ≠ [] := bytes_ne_nil_iff.mpr (by simp [h])
  have hpos := rposition_bytes h
  rw [parent, if_neg hne]
  split
  · rename_i idx hidx
    rw [hidx] at hpos
    split at hpos
    · simp at hpos
    · rename_i hcs
      injection hpos with hpos
      refine ⟨_, rfl, ?_⟩
      have htake : p.bytes.take idx = intercalateSlash cs := by
        rw [bytes_eq, h, intercalateSlash_concat hcs, hpos, List.take_left']
        rfl
      rw [← components_ofComponents cs hv]
      exact congrArg components (by simp only [ofComponents, htake])
  · rename_i hidx
    rw [hidx] at hpos
    split at hpos
    · rename_i hcs
      exact ⟨root, rfl, by rw [components_root, hcs]⟩
    · simp at hpos

theorem fileName_of_components {p : RepoPath} {cs : List Bytes} {c : Bytes}
    (h : p.components = cs ++ [c]) : p.fileName = some c := by
  have hne : p.bytes ≠ [] := bytes_ne_nil_iff.mpr (by simp [h])
  rw [fileName, if_neg hne, rposition_bytes h]
  by_cases hcs : cs = []
  · rw [if_pos hcs]
    simp only [bytes_eq, h, hcs, List.nil_append, intercalateSlash, List.intercalate_singleton]
  · rw [if_neg hcs]
    simp only [bytes_eq p, h, intercalateSlash_concat hcs, List.drop_append, Option.some.injEq]
    simp

theorem join_ok_iff {p q : RepoPath} {c : Bytes} :
    p.join c = .ok q ↔ ValidComponent c ∧ q.components = p.components ++ [c] := by
  have hcomp : ∀ h, components ⟨p.joinBytes c, valid_joinBytes h⟩ = p.components ++ [c] := by
    intro h
    have hv := forall_components_concat (p := p) (joinError_eq_none.mp h)
    rw [← components_ofComponents _ hv]
    exact congrArg components (by simp only [ofComponents, joinBytes_eq])
  rw [join]
  split
  · rename_i e he
    have hno : ¬ ValidComponent c := fun hv => by simp [joinError_eq_none.mpr hv] at he
    simp [hno]
  · rename_i he
    constructor
    · intro hh
      obtain ⟨rfl⟩ := hh
      exact ⟨joinError_eq_none.mp he, hcomp he⟩
    · intro hh
      obtain ⟨_, hq⟩ := hh
      rw [ext_components ((hcomp he).trans hq.symm)]

theorem isPrefixOf_iff {p q : RepoPath} : p.isPrefixOf q = true ↔ p.components <+: q.components := by
  by_cases hp : p.bytes = []
  · simp [isPrefixOf, hp, components]
  by_cases hpq : p.bytes = q.bytes
  · have heq : p = q := ext_components (by simp only [components, hpq])
    simp [isPrefixOf, heq]
  simp only [isPrefixOf, hp, hpq, decide_false, Bool.false_or, Bool.and_eq_true, decide_eq_true_eq,
    List.isPrefixOf_iff_prefix]
  constructor
  · intro hh
    obtain ⟨⟨_, r, hr⟩, hslash⟩ := hh
    rw [← hr, List.getElem?_append_right le_rfl, Nat.sub_self] at hslash
    obtain ⟨r, rfl⟩ : ∃ t, r = slash :: t := by
      cases r with
      | nil => simp at hslash
      | cons b t => exact ⟨t, by simpa using hslash⟩
    have hq : q.bytes ≠ [] := by simp [← hr]
    rw [components_of_ne hp, components_of_ne hq, ← hr, List.splitOn_append_cons_self]
    exact List.prefix_append _ _
  · intro hh
    obtain ⟨ds, hds⟩ := hh
    have hne : ds ≠ [] := by
      intro heq
      subst heq
      rw [List.append_nil] at hds
      exact hpq (by rw [bytes_eq, bytes_eq, hds])
    have hq : q.bytes = p.bytes ++ slash :: intercalateSlash ds := by
      rw [q.bytes_eq, ← hds, intercalateSlash_append (bytes_ne_nil_iff.mp hp) hne, ← bytes_eq]
    simp [hq]

end RepoPath

def letter (b : UInt8) (h : ValidComponent [b] := by decide) : RepoPath :=
  RepoPath.ofComponents [[b]] (by simpa using h)

end LazyMount
