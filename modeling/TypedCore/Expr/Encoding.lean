import TypedCore.Expr.Constant
import TypedCore.Expr.Text
import TypedCore.Json.Basic

/-!
# Expressions as JSON

A node is an object with its kind, what is special to the kind, and its type; places in the source
are given where they are known. Integers are decimal text and floating point numbers the sixteen
digits of their bits, so that no reader rounds them.
-/

namespace TypedCore

open Json (str nat obj option)

/-! ### Operators -/

def BinaryOp.tag : BinaryOp → String
  | add => "Add"
  | sub => "Sub"
  | mul => "Mul"
  | div => "Div"
  | mod => "Mod"
  | logicalAnd => "LogicalAnd"
  | logicalOr => "LogicalOr"
  | equal => "Equal"
  | notEqual => "NotEqual"
  | less => "Less"
  | greater => "Greater"
  | lessEqual => "LessEqual"
  | greaterEqual => "GreaterEqual"
  | assign => "Assign"
  | addAssign => "AddAssign"
  | subAssign => "SubAssign"
  | mulAssign => "MulAssign"
  | divAssign => "DivAssign"
  | modAssign => "ModAssign"
  | index => "Index"

def BinaryOp.all : List BinaryOp :=
  [.add, .sub, .mul, .div, .mod, .logicalAnd, .logicalOr, .equal, .notEqual, .less, .greater,
    .lessEqual, .greaterEqual, .assign, .addAssign, .subAssign, .mulAssign, .divAssign, .modAssign,
    .index]

def BinaryOp.ofTag? (tag : String) : Option BinaryOp := BinaryOp.all.find? fun op => op.tag == tag

def UnaryOp.tag : UnaryOp → String
  | minus => "Minus"
  | logicalNot => "LogicalNot"
  | dereference => "Dereference"
  | addressOf => "AddressOf"
  | preIncrement => "PreIncrement"
  | postIncrement => "PostIncrement"
  | preDecrement => "PreDecrement"
  | postDecrement => "PostDecrement"
  | cast => "Cast"
  | explicitCast => "ExplicitCast"

def UnaryOp.all : List UnaryOp :=
  [.minus, .logicalNot, .dereference, .addressOf, .preIncrement, .postIncrement, .preDecrement,
    .postDecrement, .cast, .explicitCast]

def UnaryOp.ofTag? (tag : String) : Option UnaryOp := UnaryOp.all.find? fun op => op.tag == tag

def Storage.tag : Storage → String
  | global => "global"
  | automatic => "local"
  | function => "function"

def Storage.ofTag? : String → Option Storage
  | "global" => some global
  | "local" => some automatic
  | "function" => some function
  | _ => none

/-! ### Numbers -/

/-- The bits of a number in sixteen hexadecimal digits. -/
def floatBits (x : Float) : String :=
  if x.isNaN then "nan"
  else
    let digits := Nat.toDigits 16 x.toBits.toNat
    String.ofList (List.replicate (16 - digits.length) '0' ++ digits)

def hexDigit? (c : Char) : Option Nat :=
  if c.isDigit then some (c.toNat - '0'.toNat)
  else if 'a' ≤ c && c ≤ 'f' then some (c.toNat - 'a'.toNat + 10)
  else none

def floatOfBits? (text : String) : Option Float := do
  let digits ← text.toList.mapM hexDigit?
  if digits.length = 16 then
    some (Float.ofBits (UInt64.ofNat (digits.foldl (fun n d => 16 * n + d) 0)))
  else
    none

/-! ### Constants -/

namespace Constant

mutual

def json : Constant → Json
  | integer value => str ("int:" ++ toString value.toInt)
  | float value => str ("float:" ++ floatBits value)
  | null => str "null"
  | aggregate items => .array (jsons items)

def jsons : List Constant → List Json
  | [] => []
  | c :: rest => c.json :: jsons rest

end

end Constant

/-! ### Nodes -/

def Literal.fields : Literal → List (String × Json)
  | integer value => [("k", str "int"), ("v", str (toString value.toInt))]
  | float value => [("k", str "float"), ("v", str (floatBits value))]
  | bool value => [("k", str "bool"), ("v", .bool value)]
  | nullptr => [("k", str "null")]
  | string text => [("k", str "str"), ("v", str text)]

namespace Expr

/-- A node of the given fields, with what every node has. -/
def nodeJson (t : TypeTable) (note : Note) (fields : List (String × Json)) : Json :=
  let place := if note.span.isNowhere then [] else [("at", str note.span.text)]
  obj (fields ++ ("ty", str (t.name note.ty)) :: place)

mutual

def json (t : TypeTable) : Expr → Json
  | literal value note => nodeJson t note value.fields
  | identifier name symbol storage bound note =>
    nodeJson t note [("k", str "id"), ("name", str name), ("symbol", nat symbol),
      ("storage", str storage.tag), ("value", option (fun e => str (e.text t)) bound)]
  | proxy target note => nodeJson t note [("k", str "proxy"), ("c", .array [target.json t])]
  | unary op child note =>
    nodeJson t note [("k", str "un"), ("op", str op.tag), ("c", .array [child.json t])]
  | binary op left right note =>
    nodeJson t note [("k", str "bin"), ("op", str op.tag), ("c", .array [left.json t, right.json t])]
  | conditional cond thenExpr elseExpr note =>
    nodeJson t note [("k", str "cond"),
      ("c", .array [cond.json t, thenExpr.json t, elseExpr.json t])]
  | call callee args note =>
    nodeJson t note [("k", str "call"), ("c", .array (callee.json t :: jsons t args))]
  | member object name index note =>
    nodeJson t note [("k", str "member"), ("name", str name), ("index", nat index),
      ("c", .array [object.json t])]
  | aggregate elements note =>
    nodeJson t note [("k", str "agg"), ("c", .array (jsons t elements))]

def jsons (t : TypeTable) : List Expr → List Json
  | [] => []
  | e :: rest => e.json t :: jsons t rest

end

end Expr

end TypedCore
