namespace Intension

/-- The leaves a template has in place of subtrees it leaves open. -/
inductive Wildcard where
  | any
  | anyCond
  | var
  | val
  | varOrVal
  | anyAddVal
  | varAddVal
  | sub
  | not
  | setOfConstants
  | minOfVars
  | maxOfVars
  | logicalOfVars
  | sumOfVars
  | sumOfVarOrVarTimesConst
  | sumOfVarTimesVar
  deriving DecidableEq

namespace Wildcard

def all : List Wildcard :=
  [any, anyCond, var, val, varOrVal, anyAddVal, varAddVal, sub, not, setOfConstants, minOfVars,
    maxOfVars, logicalOfVars, sumOfVars, sumOfVarOrVarTimesConst, sumOfVarTimesVar]

def ordinal (w : Wildcard) : Nat := w.ctorIdx

def name : Wildcard → String
  | any => "any"
  | anyCond => "anyc"
  | var => "var"
  | val => "val"
  | varOrVal => "var_or_val"
  | anyAddVal => "any_add_val"
  | varAddVal => "var_add_val"
  | sub => "sub"
  | not => "not"
  | setOfConstants => "set_of_constants"
  | minOfVars => "min_of_vars"
  | maxOfVars => "max_of_vars"
  | logicalOfVars => "logical_of_vars"
  | sumOfVars => "sum_of_vars"
  | sumOfVarOrVarTimesConst => "sum_of_var_or_var_times_const"
  | sumOfVarTimesVar => "sum_of_var_times_var"

def ofName? (word : String) : Option Wildcard := all.find? (fun w => w.name == word)

end Wildcard

end Intension
