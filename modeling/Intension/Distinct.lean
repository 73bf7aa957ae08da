namespace Intension

/-- The members of a list whose key no earlier member has, in order. -/
def distinctBy {α β : Type} [DecidableEq β] (key : α → β) : List α → List α
  | [] => []
  | a :: as => a :: (distinctBy key as).filter (fun b => key b ≠ key a)

end Intension
