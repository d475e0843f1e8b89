import TypedCore.Failure
import TypedCore.Types.Shape

/-!
# Rejections

Why a construct is no part of a program, and where.
-/

namespace TypedCore

/-- Types and expressions are given as they are written. -/
inductive Cause where
  | invalidOperands (op left right : String)
  | invalidOperand (op operand : String)
  | readOnlyAssignment (expr : String)
  | readOnlyIncrement (expr : String)
  | readOnlyDecrement (expr : String)
  | notAnLvalue (expr : String)
  | notAddressable (expr : String)
  | integerExpected
  | nullDereference
  | notAFunction (expr ty : String)
  | tooFewArguments
  | tooManyArguments
  | undeclaredIdentifier (name : String)
  | redeclaration (name : String) (previous : Span)
  | invalidConversion (source target : String)
  | invalidCast (source target : String)
  | incompleteType (ty : String)
  | notAStruct (ty : String)
  | tooManyInitializers (ty : String)
  | divisionByZero
  | type (error : TypeError)
deriving DecidableEq, Inhabited

def Cause.message : Cause → String
  | invalidOperands op left right =>
    s!"operator '{op}' can not be applied to operand types '{left}' and '{right}'"
  | invalidOperand op operand =>
    s!"operator '{op}' can not be applied to operand of type '{operand}'"
  | readOnlyAssignment expr => s!"assignment of read-only variable '{expr}'"
  | readOnlyIncrement expr => s!"increment of read-only variable '{expr}'"
  | readOnlyDecrement expr => s!"decrement of read-only variable '{expr}'"
  | notAnLvalue expr => s!"'{expr}' is not an lvalue"
  | notAddressable expr => s!"cannot take the address of '{expr}'"
  | integerExpected => "integer expression expected"
  | nullDereference => "dereferencing nullptr"
  | notAFunction expr ty => s!"'{expr}' is not a function (type '{ty}')"
  | tooFewArguments => "too few arguments to function"
  | tooManyArguments => "too many arguments to function"
  | undeclaredIdentifier name => s!"undeclared identifier '{name}'"
  | redeclaration name _ => s!"redeclaration of '{name}'"
  | invalidConversion source target => s!"invalid conversion from '{source}' to '{target}'"
  | invalidCast source target => s!"invalid cast from '{source}' to '{target}'"
  | incompleteType ty => s!"use of incomplete type '{ty}'"
  | notAStruct ty => s!"member access on non-struct type '{ty}'"
  | tooManyInitializers ty => s!"too many initializers for '{ty}'"
  | divisionByZero => "division by zero"
  | type error => error.message

structure Rejection where
  cause : Cause
  span : Span
deriving DecidableEq, Inhabited

def Rejection.message (r : Rejection) : String := r.cause.message

def Rejection.toFailure (r : Rejection) : Failure := .semantic r.message r.span

end TypedCore
