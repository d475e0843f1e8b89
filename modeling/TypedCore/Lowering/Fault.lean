import TypedCore.Failure
import TypedCore.Ir.Builder

/-!
# Faults

Why code cannot be generated.
-/

namespace TypedCore

/-- Types and expressions are given as they are written. -/
inductive Fault where
  | notAConstant (expr : String)
  | notAddressable (expr : String)
  | unsupportedType (ty : String)
  /-- The type contains itself other than by a pointer to a struct. -/
  | unboundedType (ty : String)
  | unsupportedCast (source target : String)
  | nestedFunction (name current : String)
  | noFunction
  | missingReturn (function : String)
  | undefinedVariable (name : String)
  | builder (error : Ir.BuildError)
deriving DecidableEq, Inhabited

namespace Fault

def message : Fault → String
  | notAConstant expr => s!"'{expr}' is not a constant expression"
  | notAddressable expr => s!"'{expr}' has no address"
  | unsupportedType ty => s!"type '{ty}' has no machine representation"
  | unboundedType ty => s!"type '{ty}' has no finite machine representation"
  | unsupportedCast source target => s!"no conversion from '{source}' to '{target}'"
  | nestedFunction name current => s!"function '{name}' started while '{current}' is being built"
  | noFunction => "no function is being built"
  | missingReturn function => s!"missing return in function '{function}'"
  | undefinedVariable name => s!"undefined variable '{name}'"
  | builder error => s!"IR builder: {error.message}"

def toFailure (f : Fault) : Failure := .codegen f.message none

end Fault

end TypedCore
