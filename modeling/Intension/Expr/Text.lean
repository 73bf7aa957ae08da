import Intension.Expr.Basic

namespace Intension

def Leaf.text : Leaf → String
  | .var v => v.name
  | .const k => k.toInt.repr
  | .param i => "%" ++ i.repr
  | .wild w => w.name

namespace Expr

mutual

/-- Functional notation, as in `eq(x,add(y,1))`. -/
def text : Expr → String
  | .leaf l => l.text
  | .node op args => op.name ++ "(" ++ textList args ++ ")"

def textList : List Expr → String
  | [] => ""
  | [e] => e.text
  | e :: f :: es => e.text ++ "," ++ textList (f :: es)

end

end Expr

end Intension
