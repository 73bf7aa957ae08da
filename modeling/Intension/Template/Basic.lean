import Intension.Expr.Text

namespace Intension

/-- A pattern of expressions. A special node stands for any operator that meets a demand of the
    caller. -/
inductive Template where
  | leaf (l : Leaf)
  | special (args : List Template)
  | node (op : Operator) (args : List Template)

namespace Template

theorem induction {motive : Template → Prop} (leaf : ∀ l, motive (.leaf l))
    (special : ∀ args, (∀ arg ∈ args, motive arg) → motive (.special args))
    (node : ∀ op args, (∀ arg ∈ args, motive arg) → motive (.node op args)) (t : Template) : motive t := by
  apply Template.rec (motive_1 := motive) (motive_2 := fun args => ∀ arg ∈ args, motive arg)
  · exact leaf
  · exact special
  · exact node
  · intro arg member
    contradiction
  · intro head tail valid rest arg member
    rcases List.mem_cons.mp member with rfl | member
    · exact valid
    · exact rest _ member

def wild (w : Wildcard) : Template := .leaf (.wild w)

def varTimesConst : Template := .node .mul [wild .var, wild .val]

def varTimesVar : Template := .node .mul [wild .var, wild .var]

mutual

def text : Template → String
  | .leaf l => l.text
  | .special args => "special(" ++ textList args ++ ")"
  | .node op args => op.name ++ "(" ++ textList args ++ ")"

def textList : List Template → String
  | [] => ""
  | [t] => t.text
  | t :: u :: ts => t.text ++ "," ++ textList (u :: ts)

end

end Template

end Intension
