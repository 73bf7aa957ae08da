import Intension.Extension.Basic

namespace Intension.Program

def insertValue (v : Word) : List Word → List Word
  | [] => [v]
  | w :: ws =>
    if v < w then v :: w :: ws
    else if v = w then w :: ws
    else w :: insertValue v ws

/-- The values a program takes on a product, ascending. A predicate is given both truth values
    without evaluation. -/
def image (p : Program) (domains : List (List Word)) (width : Width) :
    Except ExtensionError (List Word) :=
  if p.result = .boolean then .ok [0, 1]
  else
    p.visitProduct domains
      (fun values _ value =>
        if width.contains value then .ok (.yield (insertValue value values))
        else .error (.range value width)) []

/-- The tuples whose value is wanted, each with its value at the end. Only wanted values have to
    fit the width. -/
def graph (p : Program) (domains : List (List Word)) (wanted? : Option (List Word))
    (width : Width) : Except ExtensionError (List Tuple) :=
  (p.visitProduct domains
    (fun rows tuple value =>
      if wanted?.all (·.contains value) then
        if width.contains value then .ok (.yield (rows.push (tuple ++ [value])))
        else .error (.range value width)
      else .ok (.yield rows)) #[]).map Array.toList

end Intension.Program
