import Mathlib.Data.List.Induction
import Mathlib.Data.String.Basic
import ConfigRender.Block

/-! # Comparing references with texts

The path is cut out of the text by octet positions, once the size of the text and its ends agree
with the reference.  Main statement: such a cut never fails, and the comparison says whether the
text is that of the reference.
-/

namespace ConfigRender

namespace Text

open String (utf8Len utf8Len_cons)

theorem splitOctets?_append (before after : List Char) :
    splitOctets? (utf8Len before) (before ++ after) = some (before, after) := by
  induction before with
  | nil => simp [splitOctets?]
  | cons c before ih =>
    obtain ⟨n, hn⟩ : ∃ n, utf8Len (c :: before) = n + 1 := by
      have hc := c.utf8Size_pos
      exact Nat.exists_eq_add_one.2 (by rw [utf8Len_cons]; omega)
    have hle : c.utf8Size ≤ n + 1 := by
      rw [← hn, utf8Len_cons]
      omega
    have hrest : n + 1 - c.utf8Size = utf8Len before := by
      rw [← hn, utf8Len_cons]
      omega
    rw [hn, List.cons_append, splitOctets?, if_pos hle, hrest, ih]
    · rfl
    · simp

theorem eq_of_splitOctets? {octets : ℕ} {cs before after : List Char}
    (h : splitOctets? octets cs = some (before, after)) :
    cs = before ++ after ∧ utf8Len before = octets := by
  fun_induction splitOctets? octets cs generalizing before with
  | case1 cs =>
    cases h
    exact ⟨rfl, rfl⟩
  | case2 => cases h
  | case3 octets c rest _ hle ih =>
    obtain ⟨⟨first, second⟩, hsplit, heq⟩ := Option.map_eq_some_iff.1 h
    cases heq
    obtain ⟨hrest, hsize⟩ := ih hsplit
    constructor
    · rw [hrest, List.cons_append]
    · rw [utf8Len_cons]
      omega
  | case4 => cases h

theorem splitOctets?_toList_append (text : String) (after : List Char) :
    splitOctets? text.utf8ByteSize (text.toList ++ after) = some (text.toList, after) := by
  rw [← String.utf8Len_toList, splitOctets?_append]

/-- A slice is what stands between a part of the one size and a part of the other. -/
theorem slice?_eq_some_iff {text middle : String} {first last : ℕ} :
    slice? text first last = some middle ↔ ∃ before after, text = before ++ middle ++ after ∧
      before.utf8ByteSize = first ∧ (before ++ middle).utf8ByteSize = last := by
  constructor
  · intro h
    unfold slice? at h
    by_cases hlt : last < first
    · simp [hlt] at h
    · simp only [hlt, if_false, Option.bind_eq_bind, Option.bind_eq_some_iff] at h
      obtain ⟨⟨before, rest⟩, hbefore, ⟨middle', after⟩, hmiddle, heq⟩ := h
      cases heq
      dsimp only at hmiddle ⊢
      obtain ⟨htext, hfirst⟩ := eq_of_splitOctets? hbefore
      obtain ⟨rfl, hlast⟩ := eq_of_splitOctets? hmiddle
      refine ⟨String.ofList before, String.ofList after, ?_, ?_, ?_⟩
      · rw [← String.toList_inj, htext]
        simp
      · rw [String.utf8ByteSize_ofList, hfirst]
      · rw [String.utf8ByteSize_append, String.utf8ByteSize_ofList, String.utf8ByteSize_ofList]
        omega
  · rintro ⟨before, after, rfl, rfl, rfl⟩
    have hle : ¬(before ++ middle).utf8ByteSize < before.utf8ByteSize := by
      rw [String.utf8ByteSize_append]
      omega
    have hsize : (before ++ middle).utf8ByteSize - before.utf8ByteSize = middle.utf8ByteSize := by
      rw [String.utf8ByteSize_append]
      omega
    rw [slice?, if_neg hle, hsize]
    simp [splitOctets?_toList_append]

theorem exists_eq_append_of_size_le {before rest upto after : String}
    (h : before ++ rest = upto ++ after) (hle : before.utf8ByteSize ≤ upto.utf8ByteSize) :
    ∃ middle, upto = before ++ middle := by
  rw [← String.toList_inj, String.toList_append, String.toList_append,
    List.append_eq_append_iff] at h
  obtain ⟨middle, hupto, -⟩ | ⟨excess, hbefore, -⟩ := h
  · refine ⟨String.ofList middle, ?_⟩
    rw [← String.toList_inj, hupto]
    simp
  · have hsize : before.utf8ByteSize = upto.utf8ByteSize + utf8Len excess := by
      rw [← String.utf8Len_toList, hbefore, String.utf8Len_append, String.utf8Len_toList]
    have hnone : excess = [] := String.utf8Len_eq_zero.1 (by omega)
    refine ⟨"", ?_⟩
    rw [← String.toList_inj, String.append_empty, hbefore, hnone, List.append_nil]

/-- A slice exists between two positions of which neither lies outside the text or within a
character. -/
theorem isSome_slice?_iff {text : String} {first last : ℕ} :
    (slice? text first last).isSome ↔ first ≤ last ∧
      (String.Pos.Raw.mk first).IsValid text ∧ (String.Pos.Raw.mk last).IsValid text := by
  simp only [Option.isSome_iff_exists, slice?_eq_some_iff, String.Pos.Raw.isValid_iff_exists_append,
    String.Pos.Raw.ext_iff, String.byteIdx_rawEndPos]
  constructor
  · rintro ⟨middle, before, after, rfl, rfl, rfl⟩
    refine ⟨?_, ⟨before, middle ++ after, ?_, rfl⟩, before ++ middle, after, rfl, rfl⟩
    · rw [String.utf8ByteSize_append]
      omega
    · rw [String.append_assoc]
  · rintro ⟨hle, ⟨before, rest, rfl, rfl⟩, upto, after, htext, rfl⟩
    obtain ⟨middle, rfl⟩ := exists_eq_append_of_size_le htext hle
    exact ⟨middle, before, after, htext, rfl, rfl⟩

end Text

namespace Reference

variable {r : Reference} {text : String}

/-- The tests before the cut: the size is that of the reference's text, and so are the ends. -/
def Framed (r : Reference) (text : String) : Prop :=
  text.utf8ByteSize = r.path.utf8ByteSize + 3 ∧
    ['$', '\x7b'].isPrefixOf text.toList ∧ text.toList.getLast? = some '\x7d'

/-- Attributes of attributes. -/
def chain (path : String) (names : List String) : Reference := names.foldl attr ⟨path⟩

theorem chain_path (path : String) (names : List String) :
    (chain path names).path = ".".intercalate (path :: names) := by
  induction names generalizing path with
  | nil => simp [chain]
  | cons name names ih =>
    have hstep : chain path (name :: names) = chain (path ++ "." ++ name) names := rfl
    rw [hstep, ih, String.intercalate_cons_append]
    simp

theorem framed_display (r : Reference) : r.Framed r.display := by
  refine ⟨?_, ?_, ?_⟩
  · simp only [display, String.utf8ByteSize_append]
    have hfront : "$\x7b".utf8ByteSize = 2 := by decide
    have hback : "\x7d".utf8ByteSize = 1 := by decide
    omega
  · simp [display]
  · rw [List.getLast?_eq_some_iff]
    exact ⟨('$' :: '\x7b' :: r.path.toList), by simp [display]⟩

/-- What stands between the ends of a text. -/
theorem Framed.exists_middle (h : r.Framed text) :
    ∃ middle, text = "$\x7b" ++ middle ++ "\x7d" := by
  obtain ⟨-, hfront, hback⟩ := h
  obtain ⟨rest, hrest⟩ := List.isPrefixOf_iff_prefix.1 hfront
  rw [← hrest] at hback
  -- The front ends in another character than the back, so that the two do not overlap.
  cases rest using List.reverseRecOn with
  | nil => simp at hback
  | append_singleton middle last =>
    rw [← List.append_assoc, List.getLast?_concat, Option.some_inj] at hback
    refine ⟨String.ofList middle, ?_⟩
    rw [← String.toList_inj, ← hrest, hback]
    simp

/-- The positions of the cut are those between which the path stands. -/
theorem Framed.exists_slice?_eq (h : r.Framed text) : ∃ middle,
    text = "$\x7b" ++ middle ++ "\x7d" ∧
      Text.slice? text 2 (text.utf8ByteSize - 1) = some middle := by
  obtain ⟨middle, rfl⟩ := h.exists_middle
  refine ⟨middle, rfl, Text.slice?_eq_some_iff.2 ⟨"$\x7b", "\x7d", rfl, by decide, ?_⟩⟩
  have hback : "\x7d".utf8ByteSize = 1 := by decide
  rw [String.utf8ByteSize_append (s := "$\x7b" ++ middle), hback]
  omega

theorem equalsText?_eq_display (r : Reference) (text : String) :
    r.equalsText? text = some (decide (text = r.display)) := by
  unfold equalsText?
  split
  · next h =>
    obtain ⟨middle, htext, hslice⟩ := Framed.exists_slice?_eq h
    rw [hslice, Option.map_some, htext, display, Option.some_inj, Bool.eq_iff_iff]
    simp
  · next h =>
    have hne : text ≠ r.display := by
      rintro rfl
      exact h r.framed_display
    simp [hne]

/-- A reference to any attribute, at any depth, agrees with exactly one text, which is its own; and
comparing it with any text gives an answer.  Where the comparison comes to the cut, the positions
that it cuts at are in order, and none lies outside the text or within a character. -/
theorem chain_equalsText? (path : String) (names : List String) (text : String) :
    (chain path names).display = "$\x7b" ++ ".".intercalate (path :: names) ++ "\x7d" ∧
      (chain path names).equalsText? text = some (decide (text = (chain path names).display)) ∧
      ((chain path names).Framed text →
        (chain path names).equalsText? text =
            (Text.slice? text 2 (text.utf8ByteSize - 1)).map (· == (chain path names).path) ∧
          0 < text.utf8ByteSize ∧ 2 ≤ text.utf8ByteSize - 1 ∧
          (String.Pos.Raw.mk 2).IsValid text ∧
            (String.Pos.Raw.mk (text.utf8ByteSize - 1)).IsValid text) := by
  refine ⟨?_, equalsText?_eq_display _ text, ?_⟩
  · rw [display, chain_path]
  · intro h
    obtain ⟨middle, -, hslice⟩ := h.exists_slice?_eq
    obtain ⟨hle, hfirst, hlast⟩ := Text.isSome_slice?_iff.1 (Option.isSome_of_eq_some hslice)
    exact ⟨if_pos h, by omega, hle, hfirst, hlast⟩

/-- A text of the right size whose ends are right, with wide characters at the cuts. -/
theorem chain_equalsText?_wide :
    (chain "é" ["名"]).Framed "$\x7bö.あ\x7d" ∧
      (chain "é" ["名"]).equalsText? "$\x7bö.あ\x7d" = some false ∧
      (String.Pos.Raw.mk 2).IsValid "$\x7bö.あ\x7d" ∧
      (String.Pos.Raw.mk 8).IsValid "$\x7bö.あ\x7d" := by
  have hframed : (chain "é" ["名"]).Framed "$\x7bö.あ\x7d" :=
    ⟨by decide, by decide, by decide⟩
  obtain ⟨-, hanswer, hcut⟩ := chain_equalsText? "é" ["名"] "$\x7bö.あ\x7d"
  obtain ⟨-, -, -, hfirst, hlast⟩ := hcut hframed
  exact ⟨hframed, by rw [hanswer]; decide, hfirst, hlast⟩

end Reference

end ConfigRender
