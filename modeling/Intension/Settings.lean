import Intension.Width

namespace Intension

/-- What a caller gets who asks for nothing else. -/
structure Settings where
  shortCircuit : Bool := true
  /-- How many tuples are classified before one side is dropped. -/
  sampleLimit : Nat := 1000
  /-- What results have to fit. -/
  width : Width := .bits32

end Intension
