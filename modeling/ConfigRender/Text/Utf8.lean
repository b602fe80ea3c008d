/-! # UTF-8 octets

Reading octets that need not be UTF-8: a sequence that is cut short or cannot begin a
character counts as one unreadable place, up to the octet that rules it out.
-/

namespace ConfigRender.Text.Utf8

/-- The octets of a text. -/
def encode (text : String) : List UInt8 := text.toList.flatMap String.utf8EncodeChar

/-- A character of which some octets have been read: the code point so far, how many
octets are missing, and the range of the next one. -/
structure Partial where
  value : Nat
  missing : Nat
  low : UInt8
  high : UInt8

/-- What a first octet gives: a character, the start of one, or an unreadable place. -/
def start (a : UInt8) : List (Option Char) × Option Partial :=
  if a < 0x80 then ([some (Char.ofNat a.toNat)], none)
  else if a < 0xC2 then ([none], none)
  else if a < 0xE0 then ([], some ⟨a.toNat % 32, 1, 0x80, 0xBF⟩)
  else if a = 0xE0 then ([], some ⟨a.toNat % 16, 2, 0xA0, 0xBF⟩)
  else if a = 0xED then ([], some ⟨a.toNat % 16, 2, 0x80, 0x9F⟩)
  else if a < 0xF0 then ([], some ⟨a.toNat % 16, 2, 0x80, 0xBF⟩)
  else if a = 0xF0 then ([], some ⟨a.toNat % 8, 3, 0x90, 0xBF⟩)
  else if a < 0xF4 then ([], some ⟨a.toNat % 8, 3, 0x80, 0xBF⟩)
  else if a = 0xF4 then ([], some ⟨a.toNat % 8, 3, 0x80, 0x8F⟩)
  else ([none], none)

/-- What one more octet gives; one that does not continue a character starts another. -/
def step (pending : Option Partial) (a : UInt8) : List (Option Char) × Option Partial :=
  match pending with
  | none => start a
  | some p =>
    if p.low ≤ a ∧ a ≤ p.high then
      let value := p.value * 64 + a.toNat % 64
      if p.missing = 1 then ([some (Char.ofNat value)], none)
      else ([], some ⟨value, p.missing - 1, 0x80, 0xBF⟩)
    else
      let (found, next) := start a
      (none :: found, next)

/-- The characters of octets from a state on; `none` stands for an unreadable place. -/
def decodeFrom : Option Partial → List UInt8 → List (Option Char)
  | none, [] => []
  | some _, [] => [none]
  | pending, a :: rest =>
    let (found, next) := step pending a
    found ++ decodeFrom next rest

/-- The text, with the replacement character at each unreadable place. -/
def lossy (octets : List UInt8) : String :=
  String.ofList ((decodeFrom none octets).map (·.getD '\ufffd'))

/-- The text, if every place is readable. -/
def decode? (octets : List UInt8) : Option String :=
  ((decodeFrom none octets).mapM id).map String.ofList

end ConfigRender.Text.Utf8
