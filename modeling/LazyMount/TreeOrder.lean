import LazyMount.Lib.KeySort
import LazyMount.TreeGrammar

/-! Building tree objects: the order of their entries, in which a tree sorts as if its name ended in a
slash, and that what is built parses to the same entries. -/

namespace LazyMount

/-- `GitMode::as_octal` -/
def GitMode.asOctal : GitMode → List Char
  | .regular => "100644".toList
  | .executable => "100755".toList
  | .symlink => "120000".toList
  | .tree => "40000".toList
  | .gitlink => "160000".toList

def gitNameCmp (a : Bytes) (am : GitMode) (b : Bytes) (bm : GitMode) : Ordering :=
  let n := min a.length b.length
  match compare (a.take n) (b.take n) with
  | .eq =>
    let ac := a[n]?.or (if am = .tree then some 47 else none)
    let bc := b[n]?.or (if bm = .tree then some 47 else none)
    compare ac bc
  | other => other

def TreeEntry.cmp (a b : TreeEntry) : Ordering := gitNameCmp a.name a.mode b.name b.mode

def TreeEntry.bytes (e : TreeEntry) : Bytes :=
  Utf8.encode e.mode.asOctal ++ 32 :: (e.name ++ 0 :: e.oid.raw)

def buildTreeBytes (entries : List TreeEntry) : Bytes :=
  (KeySort.sortBy TreeEntry.cmp entries).flatMap TreeEntry.bytes

/-- A tree's name has a slash behind it. -/
def sortKey (name : Bytes) (mode : GitMode) : Bytes := if mode = .tree then name ++ [47] else name

def TreeEntry.key (e : TreeEntry) : Bytes := sortKey e.name e.mode

theorem gitNameCmp_cons (x y : UInt8) (a b : Bytes) (am bm : GitMode) :
    gitNameCmp (x :: a) am (y :: b) bm = (compare x y).then (gitNameCmp a am b bm) := by
  have hn : min (x :: a).length (y :: b).length = min a.length b.length + 1 := by
    simp only [List.length_cons]
    omega
  have hcons : compare (x :: a.take (min a.length b.length)) (y :: b.take (min a.length b.length))
      = (compare x y).then (compare (a.take (min a.length b.length)) (b.take (min a.length b.length))) :=
    List.compareLex_cons_cons
  simp only [gitNameCmp, hn, List.take_succ_cons, List.getElem?_cons_succ, hcons]
  cases compare x y <;> rfl

theorem sortKey_cons (x : UInt8) (name : Bytes) (m : GitMode) :
    sortKey (x :: name) m = x :: sortKey name m := by
  by_cases hm : m = .tree <;> simp [sortKey, hm]

theorem compare_cons (x y : UInt8) (a b : Bytes) :
    compare (x :: a) (y :: b) = (compare x y).then (compare a b) := List.compareLex_cons_cons

theorem then_of_ne_eq {o p : Ordering} (h : o ≠ .eq) : o.then p = o := by
  cases o with
  | eq => exact (h rfl).elim
  | lt => rfl
  | gt => rfl

/-- Without slashes in the names, the virtual byte behind the common prefix decides as the slash in the
key does. -/
theorem gitNameCmp_eq_compare {a b : Bytes} {am bm : GitMode} (ha : 47 ∉ a) (hb : 47 ∉ b) :
    gitNameCmp a am b bm = compare (sortKey a am) (sortKey b bm) := by
  induction a generalizing b with
  | nil =>
    cases b with
    | nil => cases am <;> cases bm <;> rfl
    | cons y b =>
      have hy : compare (47 : UInt8) y ≠ .eq := by
        intro he
        exact hb (List.mem_cons.2 (.inl (Std.LawfulEqCmp.eq_of_compare he)))
      rw [sortKey_cons]
      by_cases ham : am = .tree
      · subst ham
        have hkey : sortKey [] .tree = [47] := rfl
        have hcmp : gitNameCmp [] .tree (y :: b) bm = compare 47 y := rfl
        rw [hkey, hcmp, compare_cons, then_of_ne_eq hy]
      · cases am <;> first | rfl | exact (ham rfl).elim
  | cons x a ih =>
    cases b with
    | nil =>
      have hx : compare x (47 : UInt8) ≠ .eq := by
        intro he
        exact ha (List.mem_cons.2 (.inl (Std.LawfulEqCmp.eq_of_compare he).symm))
      rw [sortKey_cons]
      by_cases hbm : bm = .tree
      · subst hbm
        have hkey : sortKey [] .tree = [47] := rfl
        have hcmp : gitNameCmp (x :: a) am [] .tree = compare x 47 := rfl
        rw [hkey, hcmp, compare_cons, then_of_ne_eq hx]
      · cases bm <;> first | rfl | exact (hbm rfl).elim
    | cons y b =>
      rw [gitNameCmp_cons, ih (List.not_mem_of_not_mem_cons ha) (List.not_mem_of_not_mem_cons hb),
        sortKey_cons, sortKey_cons, compare_cons]

theorem compare_eq_lt_iff {a b : Bytes} : compare a b = .lt ↔ a < b := by
  induction a generalizing b with
  | nil => cases b <;> simp
  | cons x a ih =>
    cases b with
    | nil => simp
    | cons y b =>
      rw [compare_cons, Ordering.then_eq_lt, ih, List.cons_lt_cons_iff]
      rw [Std.LawfulEqCmp.compare_eq_iff_eq, Std.compare_eq_lt]

theorem name_eq_of_key {a b : TreeEntry} (ha : 47 ∉ a.name) (hb : 47 ∉ b.name) (h : a.key = b.key) :
    a.name = b.name := by
  have hlast (name : Bytes) (other : Bytes) (h : name ++ [47] = other) : 47 ∈ other := by
    rw [← h]
    simp
  by_cases ham : a.mode = .tree <;> by_cases hbm : b.mode = .tree <;>
    simp only [TreeEntry.key, sortKey, ham, hbm, if_true, if_false] at h
  · exact List.append_cancel_right h
  · exact (hb (hlast _ _ h)).elim
  · exact (ha (hlast _ _ h.symm)).elim
  · exact h

theorem parseOctal_asOctal (m : GitMode) : GitMode.parseOctal m.asOctal = some m := by
  cases m <;> decide

theorem space_notMem_asOctal (m : GitMode) : 32 ∉ Utf8.encode m.asOctal := by
  cases m <;> decide

theorem treeItem_bytes {oidLen : Nat} {e : TreeEntry} (hnul : 0 ∉ e.name)
    (hoid : e.oid.raw.length = oidLen) : TreeItem oidLen e e.bytes :=
  .intro (space_notMem_asOctal e.mode) (Utf8.decode_encode _) (parseOctal_asOctal e.mode) hnul hoid

theorem items_bytes {oidLen : Nat} {es : List TreeEntry} (hnul : ∀ e ∈ es, 0 ∉ e.name)
    (hoid : ∀ e ∈ es, e.oid.raw.length = oidLen) :
    Items.Many (TreeItem oidLen) es (es.flatMap TreeEntry.bytes) := by
  induction es with
  | nil => exact .nil
  | cons e es ih =>
    rw [List.forall_mem_cons] at hnul hoid
    rw [List.flatMap_cons]
    exact .cons (treeItem_bytes hnul.1 hoid.1) (ih hnul.2 hoid.2)

section Buildable

variable {es : List TreeEntry}

theorem follows_key (hslash : ∀ e ∈ es, 47 ∉ e.name) : KeySort.Follows TreeEntry.cmp TreeEntry.key es :=
  fun a ha b hb => gitNameCmp_eq_compare (hslash a ha) (hslash b hb)

theorem nodup_key (hslash : ∀ e ∈ es, 47 ∉ e.name) (hnames : (es.map (·.name)).Nodup) :
    (es.map TreeEntry.key).Nodup := by
  rw [List.nodup_map_iff_inj_on hnames.of_map]
  intro a ha b hb he
  exact List.inj_on_of_nodup_map hnames ha hb (name_eq_of_key (hslash a ha) (hslash b hb) he)

end Buildable

/-- What is built parses to the same entries, sorted by key; the comparison that sorts is the strict
order of the keys; and the order in which the entries come makes no difference. -/
theorem parseTree_buildTreeBytes (id : ObjectId) (format : ObjectFormat) (oidLen : Nat)
    (es : List TreeEntry) (hformat : format.rawLen = some oidLen)
    (hnames : (es.map (·.name)).Nodup)
    (hchars : ∀ e ∈ es, e.name ≠ [] ∧ 0 ∉ e.name ∧ 47 ∉ e.name)
    (hoid : ∀ e ∈ es, e.oid.raw.length = oidLen) :
    (∃ sorted, parseTree id (buildTreeBytes es) format = .ok ⟨id, sorted⟩ ∧ sorted.Perm es ∧
      sorted.Pairwise fun a b => a.key < b.key) ∧
    ((∀ a ∈ es, ∀ b ∈ es, a.cmp b = .lt ↔ a.key < b.key) ∧
      (∀ a ∈ es, a.cmp a ≠ .lt) ∧
      (∀ a ∈ es, ∀ b ∈ es, ∀ c ∈ es, a.cmp b = .lt → b.cmp c = .lt → a.cmp c = .lt) ∧
      (∀ a ∈ es, ∀ b ∈ es, a.cmp b = .lt ∨ a = b ∨ b.cmp a = .lt)) ∧
    ∀ es' : List TreeEntry, es'.Perm es → buildTreeBytes es' = buildTreeBytes es := by
  have hslash : ∀ e ∈ es, 47 ∉ e.name := fun e he => (hchars e he).2.2
  have hfollows := follows_key hslash
  have hkeys := nodup_key hslash hnames
  have hperm := KeySort.sortBy_perm TreeEntry.cmp es
  refine ⟨⟨KeySort.sortBy TreeEntry.cmp es, ?_, hperm, ?_⟩, ⟨?_, ?_, ?_, ?_⟩, ?_⟩
  · rw [parseTree_eq_ok_iff hformat]
    exact ⟨rfl, items_bytes (fun e he => (hchars e (hperm.mem_iff.1 he)).2.1)
      (fun e he => hoid e (hperm.mem_iff.1 he))⟩
  · exact (KeySort.pairwise_sortBy hfollows hkeys).imp compare_eq_lt_iff.1
  · intro a ha b hb
    rw [hfollows a ha b hb, compare_eq_lt_iff]
  · intro a ha
    rw [hfollows a ha a ha, ne_eq, compare_eq_lt_iff]
    exact List.lt_irrefl _
  · intro a ha b hb c hc hab hbc
    rw [hfollows a ha b hb] at hab
    rw [hfollows b hb c hc] at hbc
    rw [hfollows a ha c hc]
    exact Std.TransCmp.lt_trans hab hbc
  · intro a ha b hb
    rw [hfollows a ha b hb, hfollows b hb a ha]
    cases hcmp : compare a.key b.key with
    | lt => exact .inl rfl
    | eq =>
      have hab := List.inj_on_of_nodup_map hkeys ha hb (Std.LawfulEqCmp.eq_of_compare hcmp)
      exact .inr (.inl hab)
    | gt =>
      have hswap : compare b.key a.key = (compare a.key b.key).swap := Std.OrientedCmp.eq_swap
      exact .inr (.inr (by rw [hswap, hcmp]; rfl))
  · intro es' hes'
    rw [buildTreeBytes, buildTreeBytes, KeySort.sortBy_eq_of_perm hfollows hkeys hes']

/-- A file `a.b`, a directory `a` and a program `a b`: the directory comes last. -/
theorem parseTree_buildTreeBytes_three :
    let oid : ObjectId := ⟨List.replicate 20 32⟩
    let es : List TreeEntry :=
      [⟨ascii "a.b", .regular, oid⟩, ⟨ascii "a", .tree, oid⟩, ⟨ascii "a b", .executable, oid⟩]
    (∃ sorted, parseTree oid (buildTreeBytes es) .sha1 = .ok ⟨oid, sorted⟩ ∧ sorted.Perm es ∧
      sorted.Pairwise fun a b => a.key < b.key) ∧
    ((∀ a ∈ es, ∀ b ∈ es, a.cmp b = .lt ↔ a.key < b.key) ∧
      (∀ a ∈ es, a.cmp a ≠ .lt) ∧
      (∀ a ∈ es, ∀ b ∈ es, ∀ c ∈ es, a.cmp b = .lt → b.cmp c = .lt → a.cmp c = .lt) ∧
      (∀ a ∈ es, ∀ b ∈ es, a.cmp b = .lt ∨ a = b ∨ b.cmp a = .lt)) ∧
    ∀ es' : List TreeEntry, es'.Perm es → buildTreeBytes es' = buildTreeBytes es :=
  parseTree_buildTreeBytes _ .sha1 20 _ rfl (by decide) (by decide) (by decide)

end LazyMount
