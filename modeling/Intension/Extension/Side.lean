import Intension.Extension.Basic

namespace Intension

/-- A tuple is a support when its value is not zero and a conflict otherwise. One side of the
    product is all its supports or all its conflicts. -/
structure Side where
  supports : Bool
  tuples : List Tuple
  deriving DecidableEq

/-- Tuples of both sides until one side is chosen, then of that side. -/
structure Sample where
  supports : Array Tuple
  conflicts : Array Tuple
  chosen? : Option Bool
  /-- How many tuples were added before the choice. -/
  seen : Nat

namespace Sample

def start (chosen? : Option Bool) : Sample := ⟨#[], #[], chosen?, 0⟩

def store (s : Sample) (tuple : Tuple) (value : Word) : Sample :=
  if value ≠ 0 then
    if s.chosen? = some false then s else { s with supports := s.supports.push tuple }
  else
    if s.chosen? = some true then s else { s with conflicts := s.conflicts.push tuple }

def prefersSupports (s : Sample) : Bool := decide (s.supports.size ≤ s.conflicts.size)

/-- Chooses a side once more tuples than the limit were seen, and drops the other. -/
def choose (s : Sample) (limit : Nat) : Sample :=
  if s.chosen?.isSome then s
  else if s.seen + 1 ≤ limit then { s with seen := s.seen + 1 }
  else if s.prefersSupports then ⟨s.supports, #[], some true, s.seen + 1⟩
  else ⟨#[], s.conflicts, some false, s.seen + 1⟩

def add (s : Sample) (limit : Nat) (tuple : Tuple) (value : Word) : Sample :=
  (s.store tuple value).choose limit

def side (s : Sample) : Side :=
  let supports := s.chosen?.getD s.prefersSupports
  ⟨supports, if supports then s.supports.toList else s.conflicts.toList⟩

end Sample

namespace Program

/-- The chosen side of the product. Without a choice, it is the side that is smaller after one
    tuple more than the sample limit. -/
def side (p : Program) (domains : List (List Word)) (chosen? : Option Bool) (sampleLimit : Nat) :
    Except ExtensionError Side :=
  (p.visitProduct domains (fun s tuple value => .ok (.yield (s.add sampleLimit tuple value)))
    (Sample.start chosen?)).map Sample.side

/-- The tuples on a given side of the product. -/
def tuplesOn (p : Program) (domains : List (List Word)) (supports : Bool) :
    Except ExtensionError (List Tuple) :=
  (p.side domains (some supports) 0).map Side.tuples

def supports (p : Program) (domains : List (List Word)) : Except ExtensionError (List Tuple) :=
  p.tuplesOn domains true

def conflicts (p : Program) (domains : List (List Word)) : Except ExtensionError (List Tuple) :=
  p.tuplesOn domains false

def supportCount (p : Program) (domains : List (List Word)) : Except ExtensionError Nat :=
  p.visitProduct domains
    (fun count _ value => .ok (.yield (if value ≠ 0 then count + 1 else count))) 0

inductive ConflictSearch where
  | none
  | one (tuple : Tuple)
  | many

def ConflictSearch.sole? : ConflictSearch → Option Tuple
  | one tuple => some tuple
  | _ => Option.none

/-- The conflict of a product that has exactly one. The second conflict ends the walk. -/
def soleConflict? (p : Program) (domains : List (List Word)) :
    Except ExtensionError (Option Tuple) :=
  (p.visitProduct domains
    (fun found tuple value =>
      if value ≠ 0 then .ok (.yield found)
      else
        match found with
        | .none => .ok (.yield (.one tuple))
        | _ => .ok (.done .many))
    ConflictSearch.none).map ConflictSearch.sole?

end Program

end Intension
