import LazyMount.Lib.Items
import LazyMount.TreeObject

/-! What `parse_tree` accepts. The loop over an index into the bytes, with every access checked, and
the grammar of tree objects: an item ends where its mode, its name and the length of its object name
say. -/

namespace LazyMount

/-- A computation that returns a result or an error, or has nothing to return because it accessed the
bytes out of range. -/
abbrev Checked := ExceptT Error Option

/-- `&bytes[i..j]` -/
def slice (bytes : Bytes) (i j : Nat) : Checked Bytes :=
  if i ≤ j ∧ j ≤ bytes.length then pure ((bytes.drop i).take (j - i)) else ExceptT.mk none

def checked {α : Type} (r : Except Error α) : Checked α := ExceptT.mk (some r)

/-- The loop of `parse_tree` over the index `i`. -/
def parseTreeLoop (oidLen : Nat) (bytes : Bytes) (i : Nat) (entries : List TreeEntry) :
    Checked (List TreeEntry) :=
  if hi : i < bytes.length then do
    let fromMode ← slice bytes i bytes.length
    let sp ← checked (orCorrupt "missing space after mode" (fromMode.idxOf? 32))
    let modeBytes ← slice bytes i (i + sp)
    let modeStr ← checked (orCorrupt "non-ascii mode" (Utf8.decode modeBytes))
    let mode ← checked (orCorrupt ("unknown mode " ++ String.ofList modeStr) (GitMode.parseOctal modeStr))
    let fromName ← slice bytes (i + (sp + 1)) bytes.length
    let nul ← checked (orCorrupt "missing NUL after name" (fromName.idxOf? 0))
    let name ← slice bytes (i + (sp + 1)) (i + (sp + 1) + nul)
    if i + (sp + 1) + (nul + 1) + oidLen > bytes.length then checked (.error (corrupt "truncated oid"))
    else do
      let oidBytes ← slice bytes (i + (sp + 1) + (nul + 1)) (i + (sp + 1) + (nul + 1) + oidLen)
      parseTreeLoop oidLen bytes (i + (sp + 1) + (nul + 1) + oidLen) (entries ++ [⟨name, mode, ⟨oidBytes⟩⟩])
  else pure entries
termination_by bytes.length - i
decreasing_by omega

/-- `parse_tree` with its index arithmetic. -/
def parseTreeIndexed (id : ObjectId) (bytes : Bytes) (format : ObjectFormat) : Checked TreeObject :=
  match format.rawLen with
  | none => checked
      (.error ⟨.unsupportedOperation, "cannot parse trees for object format '" ++ format.name ++ "'"⟩)
  | some oidLen => do
    let entries ← parseTreeLoop oidLen bytes 0 []
    pure ⟨id, entries⟩

/-- `mode SP name NUL oid` -/
inductive TreeItem (oidLen : Nat) : TreeEntry → Bytes → Prop
  | intro {modeBytes name oid : Bytes} {modeStr : List Char} {mode : GitMode}
      (hsp : 32 ∉ modeBytes) (hdecode : Utf8.decode modeBytes = some modeStr)
      (hmode : GitMode.parseOctal modeStr = some mode) (hnul : 0 ∉ name) (hoid : oid.length = oidLen) :
      TreeItem oidLen ⟨name, mode, ⟨oid⟩⟩ (modeBytes ++ 32 :: (name ++ 0 :: oid))

/-- The first space ends the mode, the next NUL the name, and the object name has its length. -/
theorem selfDelimiting_treeItem (oidLen : Nat) : Items.SelfDelimiting (TreeItem oidLen) := by
  constructor
  · rintro e u ⟨hsp, hdecode, hmode, hnul, hoid⟩
    simp
  · rintro e e' u v s t ⟨hsp, hdecode, hmode, hnul, hoid⟩ ⟨hsp', hdecode', hmode', hnul', hoid'⟩ htext
    simp only [List.append_assoc, List.cons_append] at htext
    obtain ⟨hmodeBytes, htext⟩ := Items.split_unique hsp hsp' htext
    obtain ⟨hname, htext⟩ := Items.split_unique hnul hnul' htext
    obtain ⟨hoids, -⟩ := List.append_inj htext (hoid.trans hoid'.symm)
    subst hmodeBytes hname hoids
    have hmodes := hdecode.symm.trans hdecode'
    cases hmodes
    have hmodes := hmode.symm.trans hmode'
    cases hmodes
    exact ⟨rfl, rfl⟩

theorem parseEntries_item {oidLen : Nat} {e : TreeEntry} {u : Bytes} (h : TreeItem oidLen e u)
    (bytes : Bytes) : parseEntries oidLen (u ++ bytes) = (parseEntries oidLen bytes).map (e :: ·) := by
  obtain ⟨hsp, hdecode, hmode, hnul, hoid⟩ := h
  rename_i modeBytes name oid modeStr mode
  have hne : modeBytes ++ 32 :: (name ++ 0 :: (oid ++ bytes)) ≠ [] := by simp
  have hspAt := Items.idxOf?_append_cons hsp (name ++ 0 :: (oid ++ bytes))
  have hnulAt := Items.idxOf?_append_cons hnul (oid ++ bytes)
  have hname : (modeBytes ++ 32 :: (name ++ 0 :: (oid ++ bytes))).drop (modeBytes.length + 1)
      = name ++ 0 :: (oid ++ bytes) := by simp [List.drop_append]
  have hrest : (name ++ 0 :: (oid ++ bytes)).drop (name.length + 1) = oid ++ bytes := by
    simp [List.drop_append]
  have hlen : ¬(oid ++ bytes).length < oidLen := by rw [List.length_append]; omega
  simp only [List.append_assoc, List.cons_append]
  rw [parseEntries, dif_neg hne]
  simp only [hspAt, orCorrupt, bind, Except.bind, List.take_left, hdecode, hmode, hname, hnulAt, hrest,
    if_neg hlen]
  subst hoid
  rw [List.drop_left, List.take_left]
  cases parseEntries oid.length bytes <;> rfl

theorem orCorrupt_bind_eq_ok {α β : Type} {msg : String} {o : Option α} {f : α → Except Error β} {b : β}
    (h : (orCorrupt msg o >>= f) = .ok b) : ∃ a, o = some a ∧ f a = .ok b := by
  cases o with
  | none => cases h
  | some a => exact ⟨a, rfl, h⟩

theorem items_parseEntries {oidLen : Nat} {bytes : Bytes} {entries : List TreeEntry}
    (h : parseEntries oidLen bytes = .ok entries) : Items.Many (TreeItem oidLen) entries bytes := by
  induction hn : bytes.length using Nat.strongRecOn generalizing bytes entries with
  | ind n ih =>
    rw [parseEntries] at h
    by_cases hne : bytes = []
    · rw [dif_pos hne] at h
      cases h
      subst hne
      exact .nil
    · rw [dif_neg hne] at h
      obtain ⟨sp, hsp, h⟩ := orCorrupt_bind_eq_ok h
      obtain ⟨modeBytes, rest, hmodeBytes, rfl, rfl⟩ := Items.split_of_idxOf? hsp
      obtain ⟨modeStr, hdecode, h⟩ := orCorrupt_bind_eq_ok h
      obtain ⟨mode, hmode, h⟩ := orCorrupt_bind_eq_ok h
      have hrest : (modeBytes ++ 32 :: rest).drop (modeBytes.length + 1) = rest := by
        simp [List.drop_append]
      rw [hrest] at h
      obtain ⟨nul, hnul, h⟩ := orCorrupt_bind_eq_ok h
      obtain ⟨name, tail, hname, rfl, rfl⟩ := Items.split_of_idxOf? hnul
      have htail : (name ++ 0 :: tail).drop (name.length + 1) = tail := by simp [List.drop_append]
      rw [List.take_left] at hdecode
      rw [htail, List.take_left] at h
      by_cases hlen : tail.length < oidLen
      · rw [if_pos hlen] at h
        cases h
      · rw [if_neg hlen] at h
        cases hes : parseEntries oidLen (tail.drop oidLen) with
        | error err => rw [hes] at h; cases h
        | ok es =>
          rw [hes] at h
          cases h
          have hoid : (tail.take oidLen).length = oidLen := List.length_take_of_le (by omega)
          have hshorter : (tail.drop oidLen).length < n := by
            simp only [List.length_append, List.length_cons, List.length_drop] at hn ⊢
            omega
          have hmany := ih _ hshorter hes rfl
          have hcons := Items.Many.cons (.intro hmodeBytes hdecode hmode hname hoid) hmany
          simpa only [List.append_assoc, List.cons_append, List.take_append_drop] using hcons

theorem parseEntries_eq_ok_iff {oidLen : Nat} {bytes : Bytes} {entries : List TreeEntry} :
    parseEntries oidLen bytes = .ok entries ↔ Items.Many (TreeItem oidLen) entries bytes := by
  constructor
  · exact items_parseEntries
  · intro h
    induction h with
    | nil => rw [parseEntries, dif_pos rfl]
    | cons head _ ih => rw [parseEntries_item head, ih]; rfl

theorem slice_of_le {bytes : Bytes} {i j : Nat} (hij : i ≤ j) (hj : j ≤ bytes.length) :
    slice bytes i j = pure ((bytes.drop i).take (j - i)) := by
  rw [slice, if_pos ⟨hij, hj⟩]

/-- One step of the loop and one step of its reading from a position on: where the step succeeds the
two go on alike. -/
theorem checked_orCorrupt_bind {α β γ : Type} {msg : String} {o : Option α} {f : α → Checked β}
    {g : α → Except Error γ} {k : γ → β} (h : ∀ a, o = some a → f a = checked ((g a).map k)) :
    (checked (orCorrupt msg o) >>= f) = checked ((orCorrupt msg o >>= g).map k) := by
  cases o with
  | none => rfl
  | some a => exact h a rfl

/-- Every index that the loop comes to is within the bytes. -/
theorem parseTreeLoop_eq {oidLen : Nat} {bytes : Bytes} {i : Nat} (entries : List TreeEntry)
    (hi : i ≤ bytes.length) :
    parseTreeLoop oidLen bytes i entries
      = checked ((parseEntries oidLen (bytes.drop i)).map (entries ++ ·)) := by
  induction hn : bytes.length - i using Nat.strongRecOn generalizing i entries with
  | ind n ih =>
    rw [parseTreeLoop, parseEntries]
    by_cases hlt : i < bytes.length
    · have hne : bytes.drop i ≠ [] := by rw [ne_eq, List.drop_eq_nil_iff]; omega
      have hall : ∀ j, (bytes.drop j).take (bytes.length - j) = bytes.drop j :=
        fun j => List.take_of_length_le (by rw [List.length_drop])
      rw [dif_pos hlt, dif_neg hne, slice_of_le hi (Nat.le_refl _), hall, pure_bind]
      apply checked_orCorrupt_bind
      intro sp hsp
      have hspLt := (List.idxOf?_eq_some_iff.1 hsp).1
      rw [List.length_drop] at hspLt
      rw [slice_of_le (by omega) (by omega), Nat.add_sub_cancel_left, pure_bind]
      apply checked_orCorrupt_bind
      intro modeStr _
      apply checked_orCorrupt_bind
      intro mode _
      rw [slice_of_le (by omega) (Nat.le_refl _), hall, pure_bind, List.drop_drop]
      apply checked_orCorrupt_bind
      intro nul hnul
      have hnulLt := (List.idxOf?_eq_some_iff.1 hnul).1
      rw [List.length_drop] at hnulLt
      rw [slice_of_le (by omega) (by omega), Nat.add_sub_cancel_left, pure_bind, List.drop_drop]
      dsimp only
      rw [List.length_drop]
      by_cases hlen : i + (sp + 1) + (nul + 1) + oidLen > bytes.length
      · rw [if_pos hlen, if_pos (by omega)]
        rfl
      · rw [if_neg hlen, if_neg (by omega), slice_of_le (by omega) (by omega), Nat.add_sub_cancel_left,
          pure_bind, List.drop_drop, ih _ (by omega) _ (by omega) rfl]
        cases parseEntries oidLen (bytes.drop (i + (sp + 1) + (nul + 1) + oidLen)) with
        | error err => rfl
        | ok es => exact congrArg (checked <| .ok ·) (by simp)
    · have hnil : bytes.drop i = [] := List.drop_eq_nil_iff.2 (by omega)
      rw [dif_neg hlt, dif_pos hnil]
      simp only [Except.map, List.append_nil]
      rfl

theorem parseTreeIndexed_eq (id : ObjectId) (bytes : Bytes) (format : ObjectFormat) :
    parseTreeIndexed id bytes format = checked (parseTree id bytes format) := by
  rw [parseTreeIndexed, parseTree]
  cases format.rawLen with
  | none => rfl
  | some oidLen =>
    simp only [parseTreeLoop_eq [] (Nat.zero_le _), List.drop_zero, List.nil_append]
    cases parseEntries oidLen bytes <;> rfl

theorem parseTree_eq_ok_iff {id : ObjectId} {bytes : Bytes} {format : ObjectFormat} {oidLen : Nat}
    {t : TreeObject} (hformat : format.rawLen = some oidLen) :
    parseTree id bytes format = .ok t ↔ t.id = id ∧ Items.Many (TreeItem oidLen) t.entries bytes := by
  obtain ⟨id', entries⟩ := t
  rw [parseTree, hformat, ← parseEntries_eq_ok_iff]
  cases hes : parseEntries oidLen bytes with
  | error err => simp [hes, bind, Except.bind]
  | ok es => simp [hes, bind, Except.bind, eq_comm]

/-- `parse_tree` never reads out of range, and what it accepts is the language of the grammar, each
text with its one decomposition. -/
theorem parseTree_accepts_grammar (id : ObjectId) (bytes : Bytes) (format : ObjectFormat) (oidLen : Nat)
    (hformat : format.rawLen = some oidLen) :
    ∃ result, parseTreeIndexed id bytes format = checked result ∧
      (∀ t, result = .ok t ↔ t.id = id ∧ Items.Many (TreeItem oidLen) t.entries bytes) ∧
      (∀ es es', Items.Many (TreeItem oidLen) es bytes → Items.Many (TreeItem oidLen) es' bytes →
        es = es') ∧
      ((∀ es, ¬Items.Many (TreeItem oidLen) es bytes) → ∃ err, result = .error err) ∧
      (∀ es e front before behind, Items.Many (TreeItem oidLen) es front →
        TreeItem oidLen e (before ++ behind) → before ≠ [] → behind ≠ [] → bytes = front ++ before →
        ∃ err, result = .error err) := by
  have hitem := selfDelimiting_treeItem oidLen
  have hok (t : TreeObject) :
      parseTree id bytes format = .ok t ↔ t.id = id ∧ Items.Many (TreeItem oidLen) t.entries bytes :=
    parseTree_eq_ok_iff hformat
  have herr (hnone : ∀ es, ¬Items.Many (TreeItem oidLen) es bytes) :
      ∃ err, parseTree id bytes format = .error err := by
    cases hparse : parseTree id bytes format with
    | error err => exact ⟨err, rfl⟩
    | ok t => exact (hnone t.entries ((hok t).1 hparse).2).elim
  refine ⟨parseTree id bytes format, parseTreeIndexed_eq id bytes format, hok, ?_, herr, ?_⟩
  · intro es es' hes hes'
    exact hes.unique hitem hes'
  · rintro es e front before behind hes he hbefore hbehind rfl
    exact herr fun es' => hes.not_truncated hitem he hbefore hbehind

/-- A tree with one file, whose name is `a b`. -/
theorem parseTree_accepts_grammar_file :
    let bytes := ascii "100644 a b" ++ 0 :: List.replicate 20 7
    ∃ result, parseTreeIndexed ⟨[]⟩ bytes .sha1 = checked result ∧
      (∀ t, result = .ok t ↔ t.id = ⟨[]⟩ ∧ Items.Many (TreeItem 20) t.entries bytes) ∧
      (∀ es es', Items.Many (TreeItem 20) es bytes → Items.Many (TreeItem 20) es' bytes → es = es') ∧
      ((∀ es, ¬Items.Many (TreeItem 20) es bytes) → ∃ err, result = .error err) ∧
      (∀ es e front before behind, Items.Many (TreeItem 20) es front →
        TreeItem 20 e (before ++ behind) → before ≠ [] → behind ≠ [] → bytes = front ++ before →
        ∃ err, result = .error err) :=
  parseTree_accepts_grammar ⟨[]⟩ _ .sha1 20 rfl

end LazyMount
