import Mathlib.Data.List.Basic

/-! Reading a list from a server window by window, each window from where the last one ended, while
other things go on at the server. -/

namespace PagedRead

variable {σ α : Type*}

/-- Up to `room` items from the offset on. -/
def window (l : List α) (offset room : Nat) : List α := (l.drop offset).take room

theorem take_append_window (l : List α) (offset room : Nat) :
    l.take offset ++ window l offset room = l.take (offset + (window l offset room).length) := by
  have hlen : (window l offset room).length = min room (l.drop offset).length := List.length_take
  rw [List.take_add, hlen, window, ← List.take_take, List.take_length]

theorem length_window_le (l : List α) {offset : Nat} (room : Nat) (h : offset ≤ l.length) :
    offset + (window l offset room).length ≤ l.length := by
  simp only [window, List.length_take, List.length_drop]
  omega

theorem window_eq_nil {l : List α} {offset room : Nat} (h : window l offset room = []) (hroom : 0 < room) :
    l.length ≤ offset := by
  have hlen := congrArg List.length h
  simp only [window, List.length_take, List.length_drop, List.length_nil] at hlen
  omega

/-- What a client has read, and the offset at which it goes on. -/
inductive Reading (serve : σ → Nat → Nat → List α → σ → Prop) (idle : σ → σ → Prop)
    (next : Nat → List α → Nat) : σ → List α → Nat → σ → Prop
  | start (s : σ) : Reading serve idle next s [] 0 s
  | idle {s t u : σ} {xs : List α} {k : Nat} (h : Reading serve idle next s xs k t) (hstep : idle t u) :
      Reading serve idle next s xs k u
  | page {s t u : σ} {xs items : List α} {k room : Nat} (h : Reading serve idle next s xs k t)
      (hstep : serve t k room items u) : Reading serve idle next s (xs ++ items) (next k items) u

/-- As long as the assertion holds, every answer is a window of the list. -/
structure Serves (serve : σ → Nat → Nat → List α → σ → Prop) (idle : σ → σ → Prop)
    (next : Nat → List α → Nat) (l : List α) (I : σ → Prop) : Prop where
  idle : ∀ s t, I s → idle s t → I t
  page : ∀ s k room items t, I s → serve s k room items t → I t ∧ items = window l k room
  next : ∀ k room, k ≤ l.length → next k (window l k room) = k + (window l k room).length

variable {serve : σ → Nat → Nat → List α → σ → Prop} {idle : σ → σ → Prop} {next : Nat → List α → Nat}
  {l xs : List α} {I : σ → Prop} {s t u : σ} {k room : Nat}

/-- What has been read is what comes before the offset, in order. -/
theorem Reading.eq_take (h : Reading serve idle next s xs k t) (hs : Serves serve idle next l I) (hI : I s) :
    I t ∧ k ≤ l.length ∧ xs = l.take k := by
  induction h with
  | start => exact ⟨hI, by simp, by simp⟩
  | idle _ hstep ih =>
    obtain ⟨ht, hk, hxs⟩ := ih
    exact ⟨hs.idle _ _ ht hstep, hk, hxs⟩
  | @page t u xs items k room _ hstep ih =>
    obtain ⟨ht, hk, hxs⟩ := ih
    obtain ⟨hu, hitems⟩ := hs.page _ _ _ _ _ ht hstep
    rw [hitems, hs.next k room hk, hxs]
    exact ⟨hu, length_window_le l room hk, take_append_window l k room⟩

/-- Once a window comes back empty, the list has been read once through. -/
theorem Reading.eq_of_empty (h : Reading serve idle next s xs k t) (hs : Serves serve idle next l I) (hI : I s)
    (hend : serve t k room [] u) (hroom : 0 < room) : xs = l := by
  obtain ⟨ht, -, hxs⟩ := h.eq_take hs hI
  obtain ⟨-, hempty⟩ := hs.page _ _ _ _ _ ht hend
  have hk := window_eq_nil hempty.symm hroom
  rw [hxs, List.take_of_length_le hk]

end PagedRead
