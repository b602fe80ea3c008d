import ConfigRender.PathName

/-! # File names

Rendered files end in `.json`.  A values file, whose name ends in `.tfvars.json`, holds
plain values of variables; some of them the provisioning tool loads by itself.
-/

namespace ConfigRender

/-- Whether a text ends in another. -/
def Text.endsIn (text ending : String) : Bool := ending.toList.isSuffixOf text.toList

namespace FileName

/-- A file of plain values, by its output name. -/
def isValues (name : String) : Bool := Text.endsIn name ".tfvars.json"

/-- A values file that is loaded without being asked for. -/
def isAutoLoaded (name : String) : Bool :=
  name = "terraform.tfvars.json" ∨ Text.endsIn name ".auto.tfvars.json"

end FileName

namespace PathName

/-- The octets of `.json`. -/
def jsonEnding : List UInt8 := Text.Utf8.encode ".json"

/-- The file that a source path is rendered to: `.json` is added unless it is there. -/
def output (source : PathName) : PathName :=
  if jsonEnding.isSuffixOf source.octets then source else ⟨source.octets ++ jsonEnding⟩

/-- The name of the file that a source path is rendered to. -/
def outputName (source : PathName) : String := source.output.fileName

theorem output_output (source : PathName) : source.output.output = source.output := by
  unfold output
  by_cases h : jsonEnding.isSuffixOf source.octets = true
  · simp [h]
  · have : jsonEnding.isSuffixOf (source.octets ++ jsonEnding) = true := by
      simp [List.isSuffixOf_iff_suffix]
    simp [h, this]

end PathName

end ConfigRender
