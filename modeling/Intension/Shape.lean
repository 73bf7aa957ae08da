import Intension.Template.Fit

namespace Intension

inductive Shape where
  | unaryRelation
  | binaryRelation
  | arithmeticRelation
  | membership
  | logicalOfVariables
  | linearSum
  | sumOfProducts
  | extremum
  deriving DecidableEq

namespace Shape

def name : Shape → String
  | unaryRelation => "unary relation"
  | binaryRelation => "binary relation"
  | arithmeticRelation => "arithmetic relation"
  | membership => "membership"
  | logicalOfVariables => "logical of variables"
  | linearSum => "linear sum"
  | sumOfProducts => "sum of products"
  | extremum => "extremum"

open Template (wild)

/-- The templates of relations with one of the given sides in front, then of those with it behind. -/
def relation (shape : Shape) (sides : List Template) (other : Template) : List (Shape × Template) :=
  sides.map (fun side => (shape, .special [side, other])) ++
    sides.map (fun side => (shape, .special [other, side]))

/-- The templates of the shapes. An expression has the shape of the first that it fits. -/
def catalogue : List (Shape × Template) :=
  relation unaryRelation [wild .var] (wild .val) ++
  [(binaryRelation, .special [wild .var, wild .var])] ++
  relation arithmeticRelation [.special [wild .var, wild .varOrVal]] (wild .varOrVal) ++
  [(membership, .node .mem [wild .var, wild .setOfConstants]),
    (membership, .node .notMem [wild .var, wild .setOfConstants]),
    (logicalOfVariables, wild .logicalOfVars)] ++
  relation linearSum [wild .sumOfVarOrVarTimesConst] (wild .varOrVal) ++
  relation sumOfProducts [wild .sumOfVarTimesVar] (wild .varOrVal) ++
  relation extremum [wild .minOfVars, wild .maxOfVars] (wild .varOrVal)

end Shape

/-- The shape of an expression, which is expected in canonical form. -/
def Expr.shape? (e : Expr) : Option Shape :=
  (Shape.catalogue.find? (fun entry => entry.2.fits .standard e 0)).map Prod.fst

end Intension
