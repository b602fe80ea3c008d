import Mathlib.Data.String.Basic
import ConfigRender.Text.Utf8

/-! # The order of octets

A character of a greater code point has octets that come later.  Main statement: texts compare by
their octets as they do by their characters.
-/

namespace ConfigRender

namespace Text.Utf8

/-- How many octets follow the first one of a code point. -/
def followers (n : ℕ) : ℕ :=
  if n ≤ 0x7f then 0 else if n ≤ 0x7ff then 1 else if n ≤ 0xffff then 2 else 3

/-- What the first octet is raised by if so many octets follow. -/
def marker : ℕ → ℕ
  | 0 => 0
  | 1 => 0xc0
  | 2 => 0xe0
  | _ => 0xf0

/-- What the first octet holds of a code point if so many octets follow, with six bits each. -/
def lead : ℕ → ℕ → ℕ
  | 0, n => n
  | k + 1, n => lead k (n / 64)

/-- The octets that follow the first one. -/
def trail : ℕ → ℕ → List UInt8
  | 0, _ => []
  | k + 1, n => trail k (n / 64) ++ [UInt8.ofNat (n % 64 + 0x80)]

theorem toNat_lt (c : Char) : c.toNat < 0x110000 := by
  have hvalid := c.valid
  simp only [UInt32.isValidChar, Nat.isValidChar] at hvalid
  change c.val.toNat < 0x110000
  omega

theorem utf8EncodeChar_eq (c : Char) : String.utf8EncodeChar c =
    UInt8.ofNat (lead (followers c.toNat) c.toNat + marker (followers c.toNat)) ::
      trail (followers c.toNat) c.toNat := by
  have hlt := toNat_lt c
  have hval : c.val.toNat = c.toNat := rfl
  unfold String.utf8EncodeChar followers
  simp only [hval]
  generalize c.toNat = n at *
  split_ifs with h₁ h₂ h₃
  · rfl
  · have hfirst : n / 64 % 32 = n / 64 := by omega
    rw [hfirst]
    rfl
  · have hfirst : n / 4096 % 16 = n / 64 / 64 := by omega
    rw [hfirst]
    rfl
  · have hfirst : n / 262144 % 8 = n / 64 / 64 / 64 := by omega
    have hsecond : n / 4096 % 64 = n / 64 / 64 % 64 := by omega
    rw [hfirst, hsecond]
    rfl

theorem ofNat_lt {m n : ℕ} (h : m < n) (hn : n < 256) : UInt8.ofNat m < UInt8.ofNat n := by
  rw [UInt8.lt_iff_toNat_lt, UInt8.toNat_ofNat', UInt8.toNat_ofNat']
  omega

/-- Of code points with as many octets the greater one has the later octets. -/
theorem lead_trail_lt {m n base : ℕ} (k : ℕ) (h : m < n) (hn : lead k n + base < 256)
    (u v : List UInt8) :
    UInt8.ofNat (lead k m + base) :: (trail k m ++ u) <
      UInt8.ofNat (lead k n + base) :: (trail k n ++ v) := by
  induction k generalizing m n u v with
  | zero =>
    simp only [lead] at hn ⊢
    exact List.cons_lt_cons_iff.2 (.inl (ofNat_lt (by omega) hn))
  | succ k ih =>
    simp only [lead, trail, List.append_assoc] at hn ⊢
    by_cases hquotient : m / 64 < n / 64
    · exact ih hquotient hn _ _
    · have hequal : m / 64 = n / 64 := by omega
      have hlast : UInt8.ofNat (m % 64 + 0x80) < UInt8.ofNat (n % 64 + 0x80) :=
        ofNat_lt (by omega) (by omega)
      rw [hequal, ← List.cons_append, ← List.cons_append]
      exact List.append_left_lt (List.cons_lt_cons_iff.2 (.inl hlast))

/-- Where more octets follow, the first one is greater. -/
theorem lead_marker_lt {m n : ℕ} (h : followers m < followers n) (hn : n < 0x110000) :
    lead (followers m) m + marker (followers m) < lead (followers n) n + marker (followers n) := by
  unfold followers at *
  split_ifs at * <;> simp only [lead, marker] <;> omega

theorem lead_marker_lt_size {n : ℕ} (hn : n < 0x110000) :
    lead (followers n) n + marker (followers n) < 256 := by
  unfold followers
  split_ifs <;> simp only [lead, marker] <;> omega

theorem followers_mono {m n : ℕ} (h : m ≤ n) : followers m ≤ followers n := by
  unfold followers
  split_ifs <;> omega

/-- The octets of a lesser character come earlier, whatever follows them. -/
theorem utf8EncodeChar_append_lt {c d : Char} (h : c < d) (u v : List UInt8) :
    String.utf8EncodeChar c ++ u < String.utf8EncodeChar d ++ v := by
  have hlt : c.toNat < d.toNat := h
  have hd := toNat_lt d
  rw [utf8EncodeChar_eq, utf8EncodeChar_eq, List.cons_append, List.cons_append]
  by_cases hmore : followers c.toNat < followers d.toNat
  · have hfirst := lead_marker_lt hmore hd
    exact List.cons_lt_cons_iff.2 (.inl (ofNat_lt hfirst (lead_marker_lt_size hd)))
  · have hsame : followers c.toNat = followers d.toNat := by
      have hmono := followers_mono hlt.le
      omega
    rw [hsame]
    exact lead_trail_lt _ hlt (lead_marker_lt_size hd) u v

theorem encode_lt {s t : String} (h : s < t) : encode s < encode t := by
  rw [String.lt_iff_toList_lt] at h
  unfold encode
  generalize s.toList = cs at *
  generalize t.toList = ds at *
  induction cs generalizing ds with
  | nil =>
    cases ds with
    | nil => exact absurd h (List.lt_irrefl [])
    | cons d ds =>
      rw [List.flatMap_cons, utf8EncodeChar_eq]
      exact List.nil_lt_cons ..
  | cons c cs ih =>
    cases ds with
    | nil => exact absurd h (by simp)
    | cons d ds =>
      rw [List.flatMap_cons, List.flatMap_cons]
      rcases List.cons_lt_cons_iff.1 h with hlt | ⟨rfl, hlt⟩
      · exact utf8EncodeChar_append_lt hlt _ _
      · exact List.append_left_lt (ih ds hlt)

/-- Texts are in the order of their octets. -/
theorem encode_lt_encode_iff {s t : String} : encode s < encode t ↔ s < t := by
  constructor
  · intro h
    by_contra hge
    rcases lt_or_eq_of_le (not_lt.1 hge) with hlt | rfl
    · exact List.lt_asymm h (encode_lt hlt)
    · exact List.lt_irrefl _ h
  · exact encode_lt

end Text.Utf8

end ConfigRender
