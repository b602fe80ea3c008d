/-! # Control sequences

A text may hold control characters and the sequences that instruct a terminal.  What is
left without them is what a terminal shows that ignores every instruction.
-/

namespace ConfigRender.Text

/-- A control character that moves to another column or line. -/
def isLayout (c : Char) : Bool := c = '\t' ∨ c = '\n' ∨ c = '\x0c' ∨ c = '\r'

/-- Whether a character is shown in plain text. -/
def isShown (c : Char) : Bool := isLayout c ∨ (0x20 ≤ c.toNat ∧ c ≠ '\x7f')

/-- What the next character of a text belongs to. -/
inductive Passage where
  | text
  /-- A sequence of which only the escape character has been read. -/
  | escape
  /-- A sequence that ends with its next letter, digit or mark. -/
  | selector
  /-- A sequence with parameters, which ends with a letter. -/
  | parameters
  /-- A string for a device, before its parameters. -/
  | device
  | deviceParameters
  | deviceSelector
  /-- A string that goes on up to the octet 0x9C. -/
  | payload
  /-- A command that goes on up to a bell. -/
  | command
deriving DecidableEq

namespace Passage

def isSelector (c : Char) : Bool := ' ' ≤ c ∧ c ≤ '/'

def isParameter (c : Char) : Bool := '0' ≤ c ∧ c ≤ '?'

def isFinal (c : Char) : Bool := '@' ≤ c ∧ c ≤ '~'

/-- Whether one of the octets of a character ends a payload. -/
def endsPayload (c : Char) : Bool := (String.utf8EncodeChar c).contains 0x9C

/-- The passage after a character that is not shown. -/
def after (p : Passage) (c : Char) : Passage :=
  if c = '\x1b' then .escape
  else if c = '\x18' ∨ c = '\x1a' then .text
  else match p with
    | .text => .text
    | .escape =>
      if c = '[' then .parameters
      else if c = ']' then .command
      else if c = 'P' then .device
      else if c = 'X' ∨ c = '^' ∨ c = '_' then .payload
      else if isSelector c then .selector
      else if isParameter c ∨ isFinal c then .text
      else .escape
    | .selector => if isParameter c ∨ isFinal c then .text else .selector
    | .parameters => if isFinal c then .text else .parameters
    | .device =>
      if isSelector c then .deviceSelector
      else if isParameter c then .deviceParameters
      else if isFinal c then .payload
      else .device
    | .deviceParameters =>
      if isSelector c then .deviceSelector
      else if '<' ≤ c ∧ c ≤ '~' then .payload
      else .deviceParameters
    | .deviceSelector => if isParameter c ∨ isFinal c then .payload else .deviceSelector
    | .payload => if endsPayload c then .text else .payload
    | .command => if c = '\x07' then .text else .command

/-- Whether layout within the passage is shown; strings swallow it. -/
def showsLayout : Passage → Bool
  | .text | .escape | .selector | .parameters => true
  | _ => false

end Passage

/-- The characters that are shown from a passage on.  Layout interrupts a sequence: what
follows is read as text, and the sequence goes on with the first character that is not
shown, unless a character beyond ASCII has ended it. -/
def shownFrom : Passage → (interrupted : Bool) → List Char → List Char
  | _, _, [] => []
  | p, interrupted, c :: rest =>
    if (p = .text ∨ interrupted) ∧ isShown c then
      c :: shownFrom (if c.toNat < 0x80 then p else .text) interrupted rest
    else if p.showsLayout ∧ isLayout c then c :: shownFrom p true rest
    else shownFrom (p.after c) false rest

/-- The text without control characters and control sequences. -/
def withoutControls (text : String) : String :=
  String.ofList (shownFrom .text false text.toList)

/-- Whatever is left is shown in plain text. -/
theorem isShown_of_mem_shownFrom {p : Passage} {interrupted : Bool} {cs : List Char} {c : Char}
    (h : c ∈ shownFrom p interrupted cs) : isShown c = true := by
  fun_induction shownFrom p interrupted cs with
  | case1 => simp at h
  | case2 p interrupted d rest hd ih =>
    rcases List.mem_cons.1 h with rfl | h
    · exact hd.2
    · exact ih h
  | case3 p interrupted d rest _ hd ih =>
    rcases List.mem_cons.1 h with rfl | h
    · simp [isShown, hd.2]
    · exact ih h
  | case4 p interrupted d rest _ _ ih => exact ih h

/-- Plain text stays as it is. -/
theorem shownFrom_text {cs : List Char} (h : ∀ c ∈ cs, isShown c = true) :
    shownFrom .text false cs = cs := by
  induction cs with
  | nil => rfl
  | cons c rest ih =>
    rw [shownFrom, if_pos ⟨.inl rfl, h c (List.mem_cons_self ..)⟩, ite_self,
      ih fun d hd => h d (List.mem_cons_of_mem c hd)]

end ConfigRender.Text
