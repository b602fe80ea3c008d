/-! # Pieces between separators

A list cut at every occurrence of a separator: `n` separators give `n + 1` pieces, the
first of which always exists.
-/

namespace ConfigRender.Text

variable {α : Type} [DecidableEq α]

/-- The first piece and the ones after it. -/
def cut (sep : α) : List α → List α × List (List α)
  | [] => ([], [])
  | x :: xs =>
    let (first, more) := cut sep xs
    if x = sep then ([], first :: more) else (x :: first, more)

/-- All pieces. -/
def pieces (sep : α) (xs : List α) : List (List α) := (cut sep xs).1 :: (cut sep xs).2

/-- The pieces with a separator between neighbours. -/
def join (sep : α) : List (List α) → List α
  | [] => []
  | [piece] => piece
  | piece :: more => piece ++ sep :: join sep more

/-- Everything before and after the first separator. -/
def cutFirst? (sep : α) : List α → Option (List α × List α)
  | [] => none
  | x :: xs =>
    if x = sep then some ([], xs) else (cutFirst? sep xs).map fun (a, b) => (x :: a, b)

@[simp] theorem pieces_nil (sep : α) : pieces sep [] = [[]] := rfl

omit [DecidableEq α] in
theorem join_cons {sep : α} (piece : List α) {more : List (List α)} (h : more ≠ []) :
    join sep (piece :: more) = piece ++ sep :: join sep more := by
  cases more with
  | nil => exact absurd rfl h
  | cons p ps => rfl

/-- Cutting loses nothing. -/
theorem join_pieces (sep : α) (xs : List α) : join sep (pieces sep xs) = xs := by
  induction xs with
  | nil => rfl
  | cons x xs ih =>
    by_cases h : x = sep
    · subst h
      have : pieces x (x :: xs) = [] :: pieces x xs := by simp [pieces, cut]
      rw [this, join_cons _ (by simp [pieces]), ih]
      rfl
    · have hp : pieces sep (x :: xs) = (x :: (cut sep xs).1) :: (cut sep xs).2 := by
        simp [pieces, cut, h]
      rw [hp]
      cases hm : (cut sep xs).2 with
      | nil => simpa [pieces, hm, join] using ih
      | cons p ps =>
        have : join sep (pieces sep xs) = xs := ih
        rw [pieces, hm, join_cons _ (by simp)] at this
        rw [join_cons _ (by simp), List.cons_append, this]

/-- No piece holds the separator. -/
theorem not_mem_pieces (sep : α) (xs : List α) : ∀ piece ∈ pieces sep xs, sep ∉ piece := by
  induction xs with
  | nil => simp [pieces, cut]
  | cons x xs ih =>
    simp only [pieces, cut, List.mem_cons] at ih ⊢
    by_cases h : x = sep
    · simp only [h, if_true]
      rintro piece (rfl | hp)
      · simp
      · exact ih piece (List.mem_cons.1 hp)
    · simp only [h, if_false]
      rintro piece (rfl | hp)
      · have := ih (cut sep xs).1 (.inl rfl)
        simpa [Ne.symm h] using this
      · exact ih piece (.inr hp)

/-- The segments of a text between its dots; there is always one. -/
def segments (text : String) : List String := (pieces '.' text.toList).map String.ofList

end ConfigRender.Text
