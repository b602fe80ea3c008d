import ConfigRender.Proofs.Equality
import ConfigRender.Proofs.Groups

/-! # Nesting along a path

A block is flattened by nesting its body under one segment of the path after the other.
Main statement: the segments lead back to the body and nowhere else, and the nesting tells
blocks apart that have as many segments.
-/

namespace ConfigRender

namespace Text

theorem pieces_cons_of_ne {α : Type} [DecidableEq α] {sep x : α} (h : x ≠ sep) (xs : List α) :
    pieces sep (x :: xs) = (pieces sep xs).modifyHead (x :: ·) := by
  simp [pieces, cut, h]

theorem pieces_eq_splitOn {α : Type} [DecidableEq α] (sep : α) (xs : List α) :
    pieces sep xs = xs.splitOn sep := by
  induction xs with
  | nil => rfl
  | cons x xs ih =>
    rw [List.splitOn_cons_eq_if_modifyHead]
    by_cases h : x = sep
    · subst h
      rw [← ih]
      simp [pieces, cut]
    · rw [pieces_cons_of_ne h, ih]
      simp [h]

/-- The segments are the pieces that the library splits a text into. -/
theorem segments_eq_split (text : String) :
    segments text = (text.split '.').toList.map String.Slice.copy := by
  rw [String.toList_split_char, segments, pieces_eq_splitOn]

theorem segments_ne_nil (text : String) : segments text ≠ [] := by
  simp [segments, pieces]

/-- A text is the only one with its segments. -/
theorem segments_inj {first second : String} : segments first = segments second ↔ first = second := by
  constructor
  · intro h
    have hpieces : pieces '.' first.toList = pieces '.' second.toList :=
      List.map_injective_iff.2 (fun _ _ => String.ofList_inj.1) h
    apply String.toList_inj.1
    rw [← join_pieces '.' first.toList, hpieces, join_pieces]
  · rintro rfl
    rfl

end Text

namespace Entries

theorem paired_singleton {α β : Type} {r : α → β → Prop} {key other : String} {a : α} {b : β} :
    Paired r [(key, a)] [(other, b)] ↔ key = other ∧ r a b := by
  by_cases h : key = other
  · subst h
    simp [Paired]
  · have hlookup : List.lookup key [(other, b)] = none := by
      simp [List.lookup_cons, beq_false_of_ne h]
    simp [Paired, hlookup, h]

end Entries

namespace Value

/-- The value that stands below objects under keys, one key after the other. -/
def descend? : Value → List String → Option Value
  | v, [] => some v
  | .object fields, key :: keys => (List.lookup key fields).bind fun v => v.descend? keys
  | _, _ :: _ => none
termination_by structural _ keys => keys

end Value

namespace Block

open Value (descend?)

variable {segments above below : List String} {body body' : Mapping}

theorem nest_append (above below : List String) (body : Mapping) :
    nest (above ++ below) body = nest above (nest below body) := by
  induction above with
  | nil => rfl
  | cons segment above ih => simp only [List.cons_append, nest, ih]

/-- The mappings are made from the inside out: the innermost holds the body, and each of the
others the one before it. -/
theorem nest_eq_foldl (segments : List String) (body : Mapping) :
    nest segments body =
      segments.reverse.foldl (fun inner segment => [(segment, .object inner)]) body := by
  induction segments with
  | nil => rfl
  | cons segment segments ih => simp [nest, ih]

theorem descend?_nest (above : List String) (inner : Mapping) :
    (Value.object (nest above inner)).descend? above = some (.object inner) := by
  induction above with
  | nil => rfl
  | cons segment above ih => simpa [nest, descend?] using ih

/-- Below the first segments stands a mapping with one key, which is the next segment. -/
theorem descend?_nest_take {k : ℕ} (hk : k < segments.length) (body : Mapping) :
    (Value.object (nest segments body)).descend? (segments.take k) =
      some (.object [(segments[k], .object (nest (segments.drop (k + 1)) body))]) := by
  have hsplit : nest segments body =
      nest (segments.take k) (nest (segments[k] :: segments.drop (k + 1)) body) := by
    rw [← List.drop_eq_getElem_cons hk, ← nest_append, List.take_append_drop]
  rw [hsplit, descend?_nest]
  rfl

/-- Nested mappings of the same depth are equal if they are nested under the same segments and
hold the same body. -/
theorem nest_inj (hlength : below.length = above.length) :
    nest above body = nest below body' ↔ above = below ∧ body = body' := by
  induction above generalizing below with
  | nil =>
    obtain rfl := List.eq_nil_of_length_eq_zero hlength
    simp [nest]
  | cons segment above ih =>
    obtain ⟨other, below, rfl⟩ := List.exists_cons_of_length_eq_add_one hlength
    simp only [List.length_cons, Nat.add_right_cancel_iff] at hlength
    simp [nest, ih hlength, and_assoc]

theorem eqv_nest (hlength : below.length = above.length) :
    (Value.object (nest above body)).eqv (.object (nest below body')) = true ↔
      above = below ∧ (Value.object body).eqv (.object body') = true := by
  induction above generalizing below with
  | nil =>
    obtain rfl := List.eq_nil_of_length_eq_zero hlength
    simp [nest]
  | cons segment above ih =>
    obtain ⟨other, below, rfl⟩ := List.exists_cons_of_length_eq_add_one hlength
    simp only [List.length_cons, Nat.add_right_cancel_iff] at hlength
    rw [nest, nest, Value.eqv_object, Entries.paired_singleton, ih hlength, List.cons.injEq,
      and_assoc]

/-- The last segment is the label. -/
theorem getLast?_segments (b : Block) : b.segments.getLast? = some b.label := by
  cases hlast : b.segments.getLast? with
  | none => exact absurd (List.getLast?_eq_none_iff.1 hlast) (Text.segments_ne_nil b.path)
  | some last => rw [label, hlast, Option.getD_some]

theorem segments_inj {b other : Block} : b.segments = other.segments ↔ b.path = other.path :=
  Text.segments_inj

/-- A flattened block is made from the inside out.  The segments of its path lead from it to
the body, through mappings with one key each; the last segment is the label.  Of blocks whose
paths have as many segments, no two are flattened to the same mapping, nor to mappings that count
as equal unless the blocks do. -/
theorem flatten_nests (b : Block) :
    b.segments = (b.path.split '.').toList.map String.Slice.copy ∧
      b.flatten =
        b.segments.reverse.foldl (fun inner segment => [(segment, .object inner)]) b.body ∧
      (Value.object b.flatten).descend? b.segments = some (.object b.body) ∧
      (∀ k (hk : k < b.segments.length), ∃ v,
        (Value.object b.flatten).descend? (b.segments.take k) =
          some (.object [(b.segments[k], v)])) ∧
      b.segments.getLast? = some b.label ∧
      ∀ other : Block, other.segments.length = b.segments.length →
        (b.flatten = other.flatten ↔ b.path = other.path ∧ b.body = other.body) ∧
        (Value.object b.flatten).eqv (.object other.flatten) =
          (Value.block b).eqv (.block other) := by
  refine ⟨Text.segments_eq_split b.path, nest_eq_foldl b.segments b.body,
    descend?_nest b.segments b.body, ?_, getLast?_segments b, ?_⟩
  · intro k hk
    exact ⟨_, descend?_nest_take hk b.body⟩
  · intro other hlength
    constructor
    · rw [flatten, flatten, nest_inj hlength, segments_inj]
    · obtain ⟨path, body⟩ := b
      obtain ⟨path', body'⟩ := other
      rw [Bool.eq_iff_iff, flatten, flatten, eqv_nest hlength, segments_inj, Value.eqv_object,
        Value.eqv_block]

/-- A block with an empty segment, and a body that looks like more segments. -/
def lookalike : Block := ⟨"a..b", [("", .object [("b", .null)])]⟩

/-- The same body under as many segments, the empty one last. -/
def trailing : Block := ⟨"a.b.", lookalike.body⟩

theorem flatten_nests_lookalike :
    (1 < lookalike.segments.length ∧ ∃ v,
      (Value.object lookalike.flatten).descend? ["a"] = some (.object [("", v)])) ∧
      trailing.segments.length = lookalike.segments.length ∧
      lookalike.flatten ≠ trailing.flatten ∧
      (Value.object lookalike.flatten).eqv (.object trailing.flatten) = false := by
  have hsegments : lookalike.segments = ["a", "", "b"] := by decide
  have hone : 1 < lookalike.segments.length := by decide
  have hlength : trailing.segments.length = lookalike.segments.length := by decide
  obtain ⟨-, -, -, hkeys, -, hequal⟩ := flatten_nests lookalike
  obtain ⟨hflatten, heqv⟩ := hequal trailing hlength
  obtain ⟨v, hv⟩ := hkeys 1 hone
  refine ⟨⟨hone, v, ?_⟩, hlength, ?_, ?_⟩
  · simp only [hsegments] at hv
    exact hv
  · rw [Ne, hflatten]
    rintro ⟨hpath, -⟩
    exact absurd hpath (by decide)
  · rw [heqv]
    rfl

end Block

end ConfigRender
