import Intension.Extension.Side

namespace Intension.Program

/-- The sides of the parts of a product that have one value each in the first position. -/
def parts (p : Program) (first : List Word) (rest : List (List Word)) (supports : Bool) :
    List (Except ExtensionError (List Tuple)) :=
  first.map fun v => p.tuplesOn ([v] :: rest) supports

/-- A way to gather the results of parts that are worked out side by side. -/
abbrev Gathering := List (Except ExtensionError (List Tuple)) → Except ExtensionError (List (List Tuple))

/-- All results in order, or the leftmost error. -/
def leftmost : Gathering
  | [] => .ok []
  | part :: rest => do
    let tuples ← part
    let others ← leftmost rest
    return tuples :: others

/-- A side put together from parts that do not depend on one another. -/
def splitSide (gather : Gathering) (p : Program) (domains : List (List Word)) (supports : Bool) :
    Except ExtensionError (List Tuple) :=
  if domains.length ≠ p.arity then .error (.domainCount p.arity domains.length)
  else
    match domains with
    | [] => p.tuplesOn [] supports
    | first :: rest => (gather (p.parts first rest supports)).map List.flatten

def splitSupports (p : Program) (domains : List (List Word)) :
    Except ExtensionError (List Tuple) := splitSide leftmost p domains true

def splitConflicts (p : Program) (domains : List (List Word)) :
    Except ExtensionError (List Tuple) := splitSide leftmost p domains false

end Intension.Program
