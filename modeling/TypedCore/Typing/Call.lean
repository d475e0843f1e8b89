import TypedCore.Typing.Convert

/-!
# Calls

An argument is converted to the type of its parameter. Arguments beyond the parameters of a variadic
function only decay.
-/

namespace TypedCore.Typing

open Session

/-- A call through a pointer to a function is a call of what it points to. -/
def calledFunction (t : TypeTable) (callee : Expr) : Expr :=
  match t.shape callee.ty with
  | .pointer (some target) =>
    if t.isFunction target then .unary .dereference callee ⟨target, callee.span⟩ else callee
  | _ => callee

/-- The arguments after conversion. -/
def convertArgs : List TypeId → List Expr → RuleM (List Expr)
  | _, [] => return []
  | [], arg :: args => do
    let arg ← if (← currentTypes).isArray arg.ty then decay arg else pure arg
    return arg :: (← convertArgs [] args)
  | param :: params, arg :: args => do
    let arg ← implicitCast arg param
    return arg :: (← convertArgs params args)

/-- The parts of a call, and the type of its result. -/
structure Applied where
  callee : Expr
  args : List Expr
  ty : TypeId

def call (callee : Expr) (args : List Expr) (span : Span) : RuleM Applied := do
  let t ← currentTypes
  let callee := calledFunction t callee
  match t.shape callee.ty with
  | .function ret params variadic =>
    if args.length < params.length then
      throw ⟨.tooFewArguments, span⟩
    else if args.length > params.length && !variadic then
      throw ⟨.tooManyArguments, span⟩
    else
      return ⟨callee, ← convertArgs params args, ret⟩
  | _ => throw ⟨.notAFunction (callee.text t) (t.name callee.ty), callee.span⟩

end TypedCore.Typing
