/-!
# Operators
-/

namespace TypedCore

inductive BinaryOp where
  | add
  | sub
  | mul
  | div
  | mod
  | logicalAnd
  | logicalOr
  | equal
  | notEqual
  | less
  | greater
  | lessEqual
  | greaterEqual
  | assign
  | addAssign
  | subAssign
  | mulAssign
  | divAssign
  | modAssign
  | index
deriving DecidableEq, Inhabited

namespace BinaryOp

def isAssignment : BinaryOp → Bool
  | assign | addAssign | subAssign | mulAssign | divAssign | modAssign => true
  | _ => false

def isComparison : BinaryOp → Bool
  | equal | notEqual | less | greater | lessEqual | greaterEqual => true
  | _ => false

def isLogical : BinaryOp → Bool
  | logicalAnd | logicalOr => true
  | _ => false

/-- The operator that a compound assignment applies. -/
def compoundBase? : BinaryOp → Option BinaryOp
  | addAssign => some add
  | subAssign => some sub
  | mulAssign => some mul
  | divAssign => some div
  | modAssign => some mod
  | _ => none

def text : BinaryOp → String
  | add => "+"
  | sub => "-"
  | mul => "*"
  | div => "/"
  | mod => "%"
  | logicalAnd => "&&"
  | logicalOr => "||"
  | equal => "=="
  | notEqual => "!="
  | less => "<"
  | greater => ">"
  | lessEqual => "<="
  | greaterEqual => ">="
  | assign => "="
  | addAssign => "+="
  | subAssign => "-="
  | mulAssign => "*="
  | divAssign => "/="
  | modAssign => "%="
  | index => "[]"

end BinaryOp

inductive UnaryOp where
  | minus
  | logicalNot
  | dereference
  | addressOf
  | preIncrement
  | postIncrement
  | preDecrement
  | postDecrement
  /-- a conversion that a rule inserts -/
  | cast
  /-- a conversion that the program asks for -/
  | explicitCast
deriving DecidableEq, Inhabited

namespace UnaryOp

def isIncrement : UnaryOp → Bool
  | preIncrement | postIncrement => true
  | _ => false

def isDecrement : UnaryOp → Bool
  | preDecrement | postDecrement => true
  | _ => false

def isPostfix : UnaryOp → Bool
  | postIncrement | postDecrement => true
  | _ => false

def isCast : UnaryOp → Bool
  | cast | explicitCast => true
  | _ => false

def text : UnaryOp → String
  | minus => "-"
  | logicalNot => "!"
  | dereference => "*"
  | addressOf => "&"
  | preIncrement | postIncrement => "++"
  | preDecrement | postDecrement => "--"
  | cast | explicitCast => "cast"

end UnaryOp

end TypedCore
