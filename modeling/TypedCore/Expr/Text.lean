import TypedCore.Decimal.Layout
import TypedCore.Expr.Basic
import TypedCore.Text.Quoted
import TypedCore.Types.Query

/-!
# Expressions as text

Expressions on one line, as messages quote them. Conversions that rules inserted are not shown, and
an operand is in parentheses if it is an operation on two or three operands.
-/

namespace TypedCore

/-- Floating point numbers in listings are written without exponent from 1e-4 up to 1e16. -/
def listingLayout : Decimal.Layout where
  plainFrom := -4
  plainBelow := 16
  exponentPlus := false
  tie := .up

def floatText (x : Float) : String :=
  if x.isNaN then "NaN"
  else if x.isInf then (if x < 0 then "-inf" else "inf")
  else listingLayout.finite x

def Literal.text : Literal → String
  | .integer value => toString value.toInt
  | .float value => floatText value
  | .bool value => if value then "true" else "false"
  | .nullptr => "nullptr"
  | .string text => Text.quoted text

namespace Expr

/-- An operation that joins several operands without brackets of its own. -/
def isCompound : Expr → Bool
  | binary op _ _ _ => op != .index
  | conditional .. => true
  | _ => false

/-- Whether an expression is put in parentheses as an operand. -/
def needsParens (e : Expr) : Bool :=
  match e.resolve with
  | unary .cast child _ => child.resolve.isCompound
  | e => e.isCompound

def inParens (b : Bool) (text : String) : String :=
  if b then "(" ++ text ++ ")" else text

mutual

def text (t : TypeTable) : Expr → String
  | literal value _ => value.text
  | identifier name _ _ _ _ => name
  | proxy target _ => target.text t
  | unary .cast child _ => child.text t
  | unary .explicitCast child note =>
    "(" ++ t.name note.ty ++ ")" ++ inParens child.needsParens (child.text t)
  | unary op child _ =>
    let operand := inParens child.needsParens (child.text t)
    if op.isPostfix then operand ++ op.text else op.text ++ operand
  | binary .index left right _ =>
    inParens left.needsParens (left.text t) ++ "[" ++ right.text t ++ "]"
  | binary op left right _ =>
    inParens left.needsParens (left.text t) ++ " " ++ op.text ++ " "
      ++ inParens right.needsParens (right.text t)
  | conditional cond thenExpr elseExpr _ =>
    inParens cond.needsParens (cond.text t) ++ " ? "
      ++ inParens thenExpr.needsParens (thenExpr.text t) ++ " : "
      ++ inParens elseExpr.needsParens (elseExpr.text t)
  | call callee args _ =>
    inParens callee.needsParens (callee.text t) ++ "(" ++ ", ".intercalate (texts t args) ++ ")"
  | member object name _ _ =>
    match pointerText? t object with
    | some pointer => pointer ++ "->" ++ name
    | none => inParens object.needsParens (object.text t) ++ "." ++ name
  | aggregate elements _ => "\x7b" ++ ", ".intercalate (texts t elements) ++ "\x7d"

/-- The pointer that an object is reached through, if it is the target of one. -/
def pointerText? (t : TypeTable) : Expr → Option String
  | proxy target _ => pointerText? t target
  | unary .dereference pointer _ => some (inParens pointer.needsParens (pointer.text t))
  | _ => none

def texts (t : TypeTable) : List Expr → List String
  | [] => []
  | e :: rest => e.text t :: texts t rest

end

end Expr

end TypedCore
