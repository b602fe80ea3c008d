import Mathlib.Data.List.Induction
import Mathlib.Data.String.Basic
import ConfigRender.FileName

/-! # ASCII in octets

Octets below 128 are characters of their own and never part of another one, also where octets
cannot be read.  Main statement: a text that is made of octets ends in an ASCII text exactly if the
octets end in those of that text.
-/

namespace ConfigRender.Text.Utf8

namespace Partial

/-- The first code point that a partial character can become. -/
def first (p : Partial) : ℕ := (p.value * 64 + p.low.toNat % 64) * 64 ^ (p.missing - 1)

/-- The code point after the last one that a partial character can become. -/
def limit (p : Partial) : ℕ := (p.value * 64 + p.high.toNat % 64 + 1) * 64 ^ (p.missing - 1)

/-- A partial character goes on with no ASCII octet, and becomes a character that is not ASCII. -/
structure Wide (p : Partial) : Prop where
  missing : 0 < p.missing
  low : 0x80 ≤ p.low.toNat
  high : p.high.toNat ≤ 0xbf
  first : 0x80 ≤ p.first
  limit : p.limit ≤ 0xd800 ∨ 0xe000 ≤ p.first ∧ p.limit ≤ 0x110000

end Partial

/-- What an octet gives that is not ASCII. -/
structure WideResult (result : List (Option Char) × Option Partial) : Prop where
  pending : ∀ p ∈ result.2, p.Wide
  found : ∀ read ∈ result.1, ∀ c ∈ read, 0x80 ≤ c.toNat
  ended : result.2 = none → result.1 ≠ []

theorem wideResult_unreadable : WideResult ([none], none) := ⟨by simp, by simp, by simp⟩

theorem Partial.Wide.result {p : Partial} (h : p.Wide) : WideResult ([], some p) :=
  ⟨by simpa using h, by simp, by simp⟩

theorem toNat_charOfNat {n : ℕ} (h : n < 0xd800 ∨ 0xe000 ≤ n ∧ n < 0x110000) :
    (Char.ofNat n).toNat = n := by
  rw [Char.ofNat, dif_pos]
  · rfl
  · unfold Nat.isValidChar
    omega

theorem wideResult_char {n : ℕ} (hn : 0x80 ≤ n)
    (hvalid : n < 0xd800 ∨ 0xe000 ≤ n ∧ n < 0x110000) :
    WideResult ([some (Char.ofNat n)], none) :=
  ⟨by simp, by simpa [toNat_charOfNat hvalid] using hn, by simp⟩

theorem start_of_ascii {a : UInt8} (ha : a.toNat < 0x80) :
    start a = ([some (Char.ofNat a.toNat)], none) := by
  have hlt : a < 0x80 := UInt8.lt_iff_toNat_lt.2 ha
  rw [start, if_pos hlt]

theorem start_wide {a : UInt8} (ha : 0x80 ≤ a.toNat) : WideResult (start a) := by
  have heq (b : UInt8) : a = b ↔ a.toNat = b.toNat := UInt8.toNat_inj.symm
  unfold start
  simp only [UInt8.lt_iff_toNat_lt, heq, UInt8.reduceToNat]
  -- one range after the other, of which the last, moved to the front, begins no character
  repeat' refine iteInduction (fun _ => ?_) fun _ => ?_
  · omega
  · exact wideResult_unreadable
  rotate_right
  · exact wideResult_unreadable
  all_goals
    refine Partial.Wide.result ⟨?_, ?_, ?_, ?_, ?_⟩ <;>
      simp only [Partial.first, Partial.limit, UInt8.reduceToNat] <;> omega

/-- Where any octets may follow, the code points are those that begin with the ones read. -/
theorem Partial.first_eq (value missing : ℕ) :
    (⟨value, missing + 1, 0x80, 0xbf⟩ : Partial).first = value * 64 ^ (missing + 1) := by
  simp only [first, UInt8.reduceToNat, Nat.reduceMod, Nat.add_zero, Nat.add_sub_cancel]
  rw [Nat.pow_succ', Nat.mul_assoc]

theorem Partial.limit_eq (value missing : ℕ) :
    (⟨value, missing + 1, 0x80, 0xbf⟩ : Partial).limit = (value + 1) * 64 ^ (missing + 1) := by
  have hblock : value * 64 + 63 + 1 = (value + 1) * 64 := by omega
  simp only [limit, UInt8.reduceToNat, Nat.reduceMod, hblock, Nat.add_sub_cancel]
  rw [Nat.pow_succ', Nat.mul_assoc]

/-- What a partial character can become once it goes on, it could become before. -/
theorem Partial.Wide.step {p : Partial} (h : p.Wide) {a : UInt8} (hlow : p.low ≤ a)
    (hhigh : a ≤ p.high) : WideResult (step (some p) a) := by
  obtain ⟨hmissing, hlow', hhigh', hfirst, hlimit⟩ := h
  have hin : p.low ≤ a ∧ a ≤ p.high := ⟨hlow, hhigh⟩
  rw [UInt8.le_iff_toNat_le] at hlow hhigh
  simp only [Utf8.step, if_pos hin]
  simp only [Partial.first, Partial.limit] at hfirst hlimit
  obtain ⟨missing, hm⟩ : ∃ missing, p.missing = missing + 1 :=
    Nat.exists_eq_add_one.2 hmissing
  rw [hm, Nat.add_sub_cancel] at hfirst hlimit ⊢
  cases missing with
  | zero => exact wideResult_char (by omega) (by omega)
  | succ missing =>
    -- the octet picks one block of the code points that were possible
    rw [if_neg (by omega)]
    have hfrom : (p.value * 64 + p.low.toNat % 64) * 64 ^ (missing + 1) ≤
        (p.value * 64 + a.toNat % 64) * 64 ^ (missing + 1) :=
      Nat.mul_le_mul_right _ (by omega)
    have hupto : (p.value * 64 + a.toNat % 64 + 1) * 64 ^ (missing + 1) ≤
        (p.value * 64 + p.high.toNat % 64 + 1) * 64 ^ (missing + 1) :=
      Nat.mul_le_mul_right _ (by omega)
    refine Partial.Wide.result ⟨Nat.succ_pos _, le_rfl, le_rfl, ?_, ?_⟩
    · rw [Partial.first_eq]
      omega
    · rw [Partial.first_eq, Partial.limit_eq]
      omega

/-- An octet that does not go on with a partial character begins another one. -/
theorem step_of_not {p : Partial} {a : UInt8} (h : ¬(p.low ≤ a ∧ a ≤ p.high)) :
    step (some p) a = (none :: (start a).1, (start a).2) := by
  rw [step, if_neg h]

theorem WideResult.unreadable {found : List (Option Char)} {next : Option Partial}
    (h : WideResult (found, next)) : WideResult (none :: found, next) :=
  ⟨h.pending, by simpa using h.found, by simp⟩

variable {pending : Option Partial} {a : UInt8}

theorem step_wide (hp : ∀ p ∈ pending, p.Wide) (ha : 0x80 ≤ a.toNat) :
    WideResult (step pending a) := by
  cases pending with
  | none => exact start_wide ha
  | some p =>
    by_cases h : p.low ≤ a ∧ a ≤ p.high
    · exact (hp p rfl).step h.1 h.2
    · rw [step_of_not h]
      exact (start_wide ha).unreadable

/-- An ASCII octet gives its character and leaves what was partial unreadable. -/
theorem step_of_ascii (hp : ∀ p ∈ pending, p.Wide) (ha : a.toNat < 0x80) :
    step pending a = (decodeFrom pending [] ++ [some (Char.ofNat a.toNat)], none) := by
  cases pending with
  | none => exact start_of_ascii ha
  | some p =>
    have hlow := (hp p rfl).low
    have hout : ¬(p.low ≤ a ∧ a ≤ p.high) := by
      rw [UInt8.le_iff_toNat_le]
      omega
    rw [step_of_not hout, start_of_ascii ha]
    rfl

theorem step_pending_wide (hp : ∀ p ∈ pending, p.Wide) (a : UInt8) :
    ∀ p ∈ (step pending a).2, p.Wide := by
  by_cases ha : a.toNat < 0x80
  · simp [step_of_ascii hp ha]
  · exact (step_wide hp (Nat.le_of_not_lt ha)).pending

theorem decodeFrom_cons (pending : Option Partial) (a : UInt8) (rest : List UInt8) :
    decodeFrom pending (a :: rest) =
      (step pending a).1 ++ decodeFrom (step pending a).2 rest := by
  rw [decodeFrom]

/-- An ASCII octet stands for its character, whatever is around it. -/
theorem decodeFrom_append_ascii (hp : ∀ p ∈ pending, p.Wide) (ha : a.toNat < 0x80)
    (before after : List UInt8) :
    decodeFrom pending (before ++ a :: after) =
      decodeFrom pending before ++ some (Char.ofNat a.toNat) :: decodeFrom none after := by
  induction before generalizing pending with
  | nil => simp [decodeFrom_cons, step_of_ascii hp ha]
  | cons b before ih =>
    rw [List.cons_append, decodeFrom_cons, decodeFrom_cons, ih (step_pending_wide hp b),
      List.append_assoc]

/-- Another octet at the end stands for a character that is not ASCII, or for none. -/
theorem decodeFrom_concat_wide (hp : ∀ p ∈ pending, p.Wide) (ha : 0x80 ≤ a.toNat)
    (before : List UInt8) :
    ∃ reads last, decodeFrom pending (before ++ [a]) = reads ++ [last] ∧
      ∀ c ∈ last, 0x80 ≤ c.toNat := by
  induction before generalizing pending with
  | nil =>
    obtain ⟨-, hfound, hended⟩ := step_wide hp ha
    rw [List.nil_append, decodeFrom_cons]
    cases hnext : (step pending a).2 with
    | some p => exact ⟨_, none, rfl, by simp⟩
    | none =>
      obtain ⟨reads, last, hreads⟩ :=
        (List.eq_nil_or_concat' (step pending a).1).resolve_left (hended hnext)
      exact ⟨reads, last, by simp [hreads, decodeFrom], hfound last (by simp [hreads])⟩
  | cons b before ih =>
    obtain ⟨reads, last, hreads, hlast⟩ := ih (step_pending_wide hp b)
    exact ⟨_, last, by rw [List.cons_append, decodeFrom_cons, hreads, List.append_assoc], hlast⟩

variable {octets : List UInt8}

theorem wide_none : ∀ p ∈ (none : Option Partial), p.Wide := by simp

theorem toList_lossy_concat_ascii (ha : a.toNat < 0x80) (octets : List UInt8) :
    (lossy (octets ++ [a])).toList = (lossy octets).toList ++ [Char.ofNat a.toNat] := by
  rw [lossy, decodeFrom_append_ascii wide_none ha]
  simp [lossy, decodeFrom]

theorem exists_toList_lossy_concat (ha : 0x80 ≤ a.toNat) (octets : List UInt8) :
    ∃ cs c, (lossy (octets ++ [a])).toList = cs ++ [c] ∧ 0x80 ≤ c.toNat := by
  obtain ⟨reads, last, hreads, hlast⟩ := decodeFrom_concat_wide wide_none ha octets
  refine ⟨reads.map (·.getD '\ufffd'), last.getD '\ufffd', ?_, ?_⟩
  · rw [lossy, hreads]
    simp
  · cases last with
    | none => decide
    | some c => exact hlast c rfl

theorem utf8EncodeChar_of_ascii {c : Char} (hc : c.toNat < 0x80) :
    String.utf8EncodeChar c = [UInt8.ofNat c.toNat] := by
  have hle : c.val.toNat ≤ 0x7f := Nat.le_of_lt_succ hc
  simp only [String.utf8EncodeChar, hle, if_true]
  rfl

/-- One octet is the same as an ASCII character if they have the same number. -/
theorem ofNat_toNat_eq_iff {c : Char} (hc : c.toNat < 0x80) :
    UInt8.ofNat c.toNat = a ↔ c.toNat = a.toNat := by
  have hsize : (UInt8.ofNat c.toNat).toNat = c.toNat :=
    UInt8.toNat_ofNat_of_lt' (hc.trans (by decide))
  rw [← UInt8.toNat_inj, hsize]

theorem suffix_lossy_iff {cs : List Char} (hcs : ∀ c ∈ cs, c.toNat < 0x80) :
    cs <:+ (lossy octets).toList ↔ cs.flatMap String.utf8EncodeChar <:+ octets := by
  induction cs using List.reverseRecOn generalizing octets with
  | nil => simp
  | append_singleton cs c ih =>
    obtain ⟨hinit, hlast⟩ := List.forall_mem_append.1 hcs
    have hc : c.toNat < 0x80 := hlast c (List.mem_singleton_self c)
    rw [List.flatMap_append, List.flatMap_singleton, utf8EncodeChar_of_ascii hc]
    -- the last octet alone decides whether the last character is `c`
    cases octets using List.reverseRecOn with
    | nil => simp [lossy, decodeFrom]
    | append_singleton octets a =>
      by_cases ha : a.toNat < 0x80
      · have hchar : c = Char.ofNat a.toNat ↔ c.toNat = a.toNat := by
          rw [← Char.toNat_inj, toNat_charOfNat (by omega)]
        rw [toList_lossy_concat_ascii ha]
        simp [List.suffix_concat_iff, ih hinit, hchar, ofNat_toNat_eq_iff hc]
      · obtain ⟨before, d, hlossy, hd⟩ :=
          exists_toList_lossy_concat (Nat.le_of_not_lt ha) octets
        have hchar : c ≠ d := by
          rintro rfl
          omega
        have hoctet : c.toNat ≠ a.toNat := by omega
        rw [hlossy]
        simp [List.suffix_concat_iff, hchar, ofNat_toNat_eq_iff hc, hoctet]

/-- A text of octets ends in an ASCII text if the octets do. -/
theorem endsIn_lossy_iff {ending : String} (h : ∀ c ∈ ending.toList, c.toNat < 0x80) :
    endsIn (lossy octets) ending = true ↔ encode ending <:+ octets := by
  rw [endsIn, List.isSuffixOf_iff_suffix, suffix_lossy_iff h, encode]

end ConfigRender.Text.Utf8
