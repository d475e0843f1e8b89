import TypedCore.Expr.Op
import TypedCore.Source.Span
import TypedCore.Scope
import TypedCore.Types.Shape

/-!
# Expressions

Typed expression trees. Every node carries its type and its place in the source (`Note`).
-/

namespace TypedCore

/-- Where the object lives that a name denotes. -/
inductive Storage where
  | global
  | automatic
  | function
deriving DecidableEq, Inhabited

inductive Literal where
  | integer (value : Int64)
  | float (value : Float)
  | bool (value : Bool)
  | nullptr
  /-- The text without the zero byte that ends it in storage. -/
  | string (text : String)
deriving Inhabited

/-- What every node of an expression carries. -/
structure Note where
  ty : TypeId
  span : Span
deriving DecidableEq, Inhabited

inductive Expr where
  | literal (value : Literal) (note : Note)
  /-- A read-only variable whose value is known carries its initializer as `bound`. -/
  | identifier (name : String) (symbol : SymbolId) (storage : Storage) (bound : Option Expr)
      (note : Note)
  /-- A second use of `target`, which is evaluated again. -/
  | proxy (target : Expr) (note : Note)
  | unary (op : UnaryOp) (child : Expr) (note : Note)
  | binary (op : BinaryOp) (left right : Expr) (note : Note)
  | conditional (cond thenExpr elseExpr : Expr) (note : Note)
  | call (callee : Expr) (args : List Expr) (note : Note)
  | member (object : Expr) (name : String) (index : Nat) (note : Note)
  | aggregate (elements : List Expr) (note : Note)
deriving Inhabited

namespace Expr

def note : Expr → Note
  | literal _ note => note
  | identifier _ _ _ _ note => note
  | proxy _ note => note
  | unary _ _ note => note
  | binary _ _ _ note => note
  | conditional _ _ _ note => note
  | call _ _ note => note
  | member _ _ _ note => note
  | aggregate _ note => note

def ty (e : Expr) : TypeId := e.note.ty

def span (e : Expr) : Span := e.note.span

/-- Whether the value of an expression is found in storage. -/
def hasAddress : Expr → Bool
  | identifier .. => true
  | literal (.string _) _ => true
  | proxy target _ => target.hasAddress
  | unary op _ _ => op == .dereference
  | binary op _ _ _ => op == .index
  | member object _ _ _ => object.hasAddress
  | _ => false

/-- Whether an expression may stand on the left of an assignment, const or not. -/
def isLvalue : Expr → Bool
  | identifier _ _ storage _ _ => storage != .function
  | proxy target _ => target.isLvalue
  | unary op _ _ => op == .dereference
  | binary op _ _ _ => op == .index
  | member object _ _ _ => object.isLvalue
  | _ => false

/-- The expression behind any number of proxies. -/
def resolve : Expr → Expr
  | proxy target _ => target.resolve
  | e => e

end Expr

end TypedCore
