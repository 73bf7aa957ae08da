import Intension.Word

namespace Intension

inductive Width where
  | bits8
  | bits16
  | bits32
  | bits64
  deriving DecidableEq

namespace Width

def all : List Width := [bits8, bits16, bits32, bits64]

def name : Width → String
  | bits8 => "i8"
  | bits16 => "i16"
  | bits32 => "i32"
  | bits64 => "i64"

def ofName? (word : String) : Option Width := all.find? (fun w => w.name == word)

def lowest : Width → Int
  | bits8 => Int8.minValue.toInt
  | bits16 => Int16.minValue.toInt
  | bits32 => Int32.minValue.toInt
  | bits64 => Int64.minValue.toInt

def highest : Width → Int
  | bits8 => Int8.maxValue.toInt
  | bits16 => Int16.maxValue.toInt
  | bits32 => Int32.maxValue.toInt
  | bits64 => Int64.maxValue.toInt

def contains (w : Width) (v : Word) : Bool := decide (w.lowest ≤ v.toInt ∧ v.toInt ≤ w.highest)

end Width

end Intension
