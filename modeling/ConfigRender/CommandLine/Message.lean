/-! # Messages about arguments

Parts of a message stand out by sequences around them, so a sequence that an argument
leaves unfinished ends with the argument.  Where no terminal reads the message, it is
left without all of them.
-/

namespace ConfigRender.CommandLine.Message

/-- Text that stands out in the manner of numbered styles. -/
def styled (styles : List String) (text : String) : String :=
  String.join (styles.map fun style => "\x1b[" ++ style ++ "m") ++ text ++ "\x1b[0m"

/-- The word that begins a message. -/
def heading (text : String) : String := styled ["1", "31"] text

/-- What the message is about. -/
def subject (text : String) : String := styled ["33"] text

/-- Something that can be typed as it stands. -/
def literal (text : String) : String := styled ["1"] text

/-- A message with what stands around it. -/
def complete (message : String) : String :=
  heading "error:" ++ " " ++ message ++ "\n\nFor more information, try '" ++
    literal "--help" ++ "'.\n"

end ConfigRender.CommandLine.Message
