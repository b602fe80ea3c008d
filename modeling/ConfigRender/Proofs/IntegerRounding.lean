import Mathlib.Tactic.Positivity
import ConfigRender.Number.Binary64

/-! # Integers as binary64 numbers

Main statements: the number nearest to an integer of 64 bits is never a NaN, and below 2 ^ 53 it
is the nearest one of no other integer.
-/

namespace ConfigRender

theorem Number.roundHalfEven_bounds (num den : Nat) :
    num / den ≤ roundHalfEven num den ∧ roundHalfEven num den ≤ num / den + 1 := by
  unfold roundHalfEven
  dsimp only
  split <;> omega

theorem Number.roundHalfEven_one (num : Nat) : roundHalfEven num 1 = num := by
  simp [roundHalfEven, Nat.mod_one]

namespace Binary64

/-- How often a positive natural number counts the last of its first fifty-three binary places. -/
def places (k : Nat) : Nat :=
  if k.log2 ≤ 52 then k * 2 ^ (52 - k.log2) else Number.roundHalfEven k (2 ^ (k.log2 - 52))

/-- The lower bits of the number nearest to a positive natural number. -/
def lower (k : Nat) : Nat := (k.log2 + 1022) * 2 ^ 52 + places k

section

variable {k : Nat}

theorem le_places (hk : k ≠ 0) : 2 ^ 52 ≤ places k := by
  have hlow : 2 ^ k.log2 ≤ k := Nat.log2_self_le hk
  unfold places
  split
  case isTrue h =>
    calc 2 ^ 52 = 2 ^ k.log2 * 2 ^ (52 - k.log2) := by rw [← Nat.pow_add]; congr 1; omega
      _ ≤ k * 2 ^ (52 - k.log2) := Nat.mul_le_mul_right _ hlow
  case isFalse h =>
    refine le_trans ?_ (Number.roundHalfEven_bounds _ _).1
    rw [Nat.le_div_iff_mul_le (by positivity), ← Nat.pow_add]
    exact (Nat.pow_le_pow_right (by norm_num) (by omega)).trans hlow

theorem places_of_lt (hk : k ≠ 0) (h : k < 2 ^ 53) : places k = k * 2 ^ (52 - k.log2) :=
  if_pos (by have := (Nat.log2_lt hk).2 h; omega)

theorem places_lt (hk : k ≠ 0) (h : k < 2 ^ 53) : places k < 2 ^ 53 := by
  have hlog : k.log2 < 53 := (Nat.log2_lt hk).2 h
  rw [places_of_lt hk h]
  calc k * 2 ^ (52 - k.log2) < 2 ^ (k.log2 + 1) * 2 ^ (52 - k.log2) :=
        Nat.mul_lt_mul_of_pos_right Nat.lt_log2_self (by positivity)
    _ = 2 ^ 53 := by rw [← Nat.pow_add]; congr 1; omega

theorem places_le (hk : k ≠ 0) : places k ≤ 2 ^ 53 := by
  by_cases h : k < 2 ^ 53
  · exact (places_lt hk h).le
  · have hlog : 53 ≤ k.log2 := (Nat.le_log2 hk).2 (by omega)
    rw [places, if_neg (by omega)]
    refine (Number.roundHalfEven_bounds _ _).2.trans (Nat.div_lt_of_lt_mul ?_)
    rw [← Nat.pow_add]
    exact Nat.lt_log2_self.trans_le (Nat.pow_le_pow_right (by norm_num) (by omega))

theorem unitOf_one (hk : k ≠ 0) : unitOf k 1 = (k.log2 : Int) - 52 := by
  have hlow : 2 ^ k.log2 ≤ k := Nat.log2_self_le hk
  have hlog : Nat.log2 1 = 0 := rfl
  unfold unitOf
  simp only [hlog, Nat.pow_eq, Nat.one_mul, Nat.div_one, Nat.cast_zero, sub_zero]
  have hwhole : ¬ (if (0 : Int) ≤ (k.log2 : Int) - 53 then k / 2 ^ ((k.log2 : Int) - 53).toNat
      else k * 2 ^ (-((k.log2 : Int) - 53)).toNat) < 2 ^ 53 := by
    rw [not_lt]
    split
    case isTrue h =>
      rw [Nat.le_div_iff_mul_le (by positivity), ← Nat.pow_add]
      exact (Nat.pow_le_pow_right (by norm_num) (by omega)).trans hlow
    case isFalse h =>
      calc 2 ^ 53 = 2 ^ k.log2 * 2 ^ (-((k.log2 : Int) - 53)).toNat := by
            rw [← Nat.pow_add]; congr 1; omega
        _ ≤ _ := Nat.mul_le_mul_right _ hlow
  rw [if_neg hwhole]
  omega

end

/-- The number nearest to an integer other than zero, by its sign and its lower bits. -/
theorem ofInt_eq_ofWord {n : Int} (hn : n ≠ 0) (hb : n.natAbs ≤ 2 ^ 63) :
    ofInt n = ofWord (n < 0) (lower n.natAbs) := by
  have hk : n.natAbs ≠ 0 := Int.natAbs_ne_zero.2 hn
  have hlog : n.natAbs.log2 < 64 := (Nat.log2_lt hk).2 (by omega)
  have hcount : (if (0 : Int) ≤ (n.natAbs.log2 : Int) - 52
        then Number.roundHalfEven n.natAbs (2 ^ ((n.natAbs.log2 : Int) - 52).toNat)
        else Number.roundHalfEven (n.natAbs * 2 ^ (-((n.natAbs.log2 : Int) - 52)).toNat) 1) =
      places n.natAbs := by
    unfold places
    rw [show ((n.natAbs.log2 : Int) - 52).toNat = n.natAbs.log2 - 52 by omega,
      show (-((n.natAbs.log2 : Int) - 52)).toNat = 52 - n.natAbs.log2 by omega,
      Number.roundHalfEven_one]
    rcases lt_trichotomy n.natAbs.log2 52 with h | h | h
    · rw [if_neg (by omega), if_pos h.le]
    · simp [h, Number.roundHalfEven_one]
    · rw [if_pos (by omega), if_neg (by omega)]
  unfold ofInt ofRatio
  simp only [hk, if_false, unitOf_one hk, Nat.pow_eq, Nat.one_mul]
  rw [hcount, lower]
  have := places_le hk
  congr 1
  omega

theorem lower_bounds {k : Nat} (hk : k ≠ 0) (hb : k ≤ 2 ^ 63) :
    1023 * 2 ^ 52 ≤ lower k ∧ lower k < 2047 * 2 ^ 52 := by
  have hlog : k.log2 < 64 := (Nat.log2_lt hk).2 (by omega)
  have hlow := le_places hk
  have hhigh := places_le hk
  unfold lower
  omega

theorem word_ofWord {negative : Bool} {l : Nat} (hl : l < 2 ^ 63) :
    (ofWord negative l).word = if negative then 2 ^ 63 + l else l := by
  cases negative <;> simp [word, ofWord, Nat.pow_eq] <;> omega

theorem ofWord_injective {a b : Bool} {k l : Nat} (hk : k < 2 ^ 63) (hl : l < 2 ^ 63)
    (h : ofWord a k = ofWord b l) : a = b ∧ k = l := by
  have hword := congrArg word h
  rw [word_ofWord hk, word_ofWord hl] at hword
  cases a <;> cases b <;> simp at hword ⊢ <;> omega

/-- The number nearest to an integer of 64 bits is not a NaN. -/
theorem ofInt_isNaN {n : Int} (hb : n.natAbs ≤ 2 ^ 63) : (ofInt n).isNaN = false := by
  by_cases hn : n = 0
  · subst hn
    decide
  · obtain ⟨hlow, hhigh⟩ := lower_bounds (Int.natAbs_ne_zero.2 hn) hb
    have hfield : (ofInt n).exponentField ≠ 2047 := by
      rw [ofInt_eq_ofWord hn hb, exponentField, word_ofWord (by omega)]
      simp only [Nat.pow_eq]
      split <;> omega
    simp [isNaN, hfield]

theorem ofInt_isZero {n : Int} (hb : n.natAbs ≤ 2 ^ 63) : (ofInt n).isZero = decide (n = 0) := by
  by_cases hn : n = 0
  · subst hn
    decide
  · obtain ⟨hlow, hhigh⟩ := lower_bounds (Int.natAbs_ne_zero.2 hn) hb
    have hword : (ofInt n).word % 2 ^ 63 ≠ 0 := by
      rw [ofInt_eq_ofWord hn hb, word_ofWord (by omega)]
      split <;> omega
    simp only [isZero, Nat.pow_eq, hword, hn]

/-- Below 2 ^ 53 the lower bits tell a natural number from every other one. -/
theorem lower_injective {k l : Nat} (hk : k ≠ 0) (hl : l ≠ 0) (hlt : k < 2 ^ 53)
    (h : lower k = lower l) : k = l := by
  have hk₁ := le_places hk
  have hk₂ := places_lt hk hlt
  have hl₁ := le_places hl
  have hl₂ := places_le hl
  -- only from 2 ^ 53 on can rounding carry into the exponent
  have hsmall : l < 2 ^ 53 := by
    by_contra hbig
    have hklog : k.log2 < 53 := (Nat.log2_lt hk).2 hlt
    have hllog : 53 ≤ l.log2 := (Nat.le_log2 hl).2 (by omega)
    unfold lower at h
    omega
  have hl₃ := places_lt hl hsmall
  have hlog : k.log2 = l.log2 := by
    unfold lower at h
    omega
  have hplaces : k * 2 ^ (52 - l.log2) = l * 2 ^ (52 - l.log2) := by
    have hsame : places k = places l := by
      unfold lower at h
      omega
    rwa [places_of_lt hk hlt, places_of_lt hl hsmall, hlog] at hsame
  exact Nat.eq_of_mul_eq_mul_right (by positivity) hplaces

/-- Integers of 64 bits with one nearest number are equal, unless both reach 2 ^ 53. -/
theorem ofInt_injective {m n : Int} (hm : m.natAbs < 2 ^ 53) (hn : n.natAbs ≤ 2 ^ 63)
    (h : (ofInt m).eqv (ofInt n) = true) : m = n := by
  have hm' : m.natAbs ≤ 2 ^ 63 := by omega
  have hzero : (ofInt m).isZero = (ofInt n).isZero := by
    simp only [eqv, Bool.and_eq_true, Bool.or_eq_true, beq_iff_eq] at h
    rcases h with ⟨-, h | ⟨h₁, h₂⟩⟩
    · rw [h]
    · rw [h₁, h₂]
  rw [ofInt_isZero hm', ofInt_isZero hn, decide_eq_decide] at hzero
  by_cases hm0 : m = 0
  · rw [hm0, hzero.1 hm0]
  · have hn0 : n ≠ 0 := fun hn0 => hm0 (hzero.2 hn0)
    have hword : ofInt m = ofInt n := by
      simpa [eqv, ofInt_isNaN hm', ofInt_isNaN hn, ofInt_isZero hm', hm0] using h
    have hkm := Int.natAbs_ne_zero.2 hm0
    have hkn := Int.natAbs_ne_zero.2 hn0
    obtain ⟨-, hlm⟩ := lower_bounds hkm hm'
    obtain ⟨-, hln⟩ := lower_bounds hkn hn
    rw [ofInt_eq_ofWord hm0 hm', ofInt_eq_ofWord hn0 hn] at hword
    obtain ⟨hsign, hlower⟩ := ofWord_injective (by omega) (by omega) hword
    have habs : m.natAbs = n.natAbs := lower_injective hkm hkn hm hlower
    rw [decide_eq_decide] at hsign
    omega

theorem natAbs_toInt_le (n : Int64) : n.toInt.natAbs ≤ 2 ^ 63 := by
  have := n.le_toInt
  have := n.toInt_lt
  omega

/-- Different integers that are rounded to one number reach 2 ^ 53. -/
theorem le_natAbs_of_eqv_ofInt {m n : Int64} (hne : m ≠ n)
    (h : (ofInt m.toInt).eqv (ofInt n.toInt) = true) : 2 ^ 53 ≤ m.toInt.natAbs := by
  by_contra hlt
  exact hne (Int64.toInt_inj.1 (ofInt_injective (not_le.1 hlt) (natAbs_toInt_le n) h))

end Binary64

end ConfigRender
