import TypedCore.Typing.Convert

/-!
# Declarations

Names and struct tags enter the scopes of a session. Functions are always declared in the root
scope, everything else in the innermost one.
-/

namespace TypedCore

/-- A declared variable. -/
structure Declaration where
  symbol : SymbolId
  name : String
  ty : TypeId
  storage : Storage
  /-- The initializer, converted to the declared type. -/
  init : Option Expr
deriving Inhabited

namespace Session

/-- Declare a name for a binding. -/
def bind (name : String) (binding : Binding) (span : Span) (target : Target) :
    SessionM SymbolId := do
  let s ← get
  match s.symbols.declare name binding span target with
  | .error e => reject ⟨.redeclaration e.name e.previous, span⟩
  | .ok (id, symbols) =>
    set { s with symbols }
    return id

/-- A variable of the root scope is global, every other one local. An array without bound takes it
from its initializer, and a const variable with a known initializer is bound to it. -/
def declareVariable (name : String) (ty : TypeId) (init : Option Expr) (span : Span) :
    SessionM Declaration := do
  let storage := if (← get).depth = 0 then Storage.global else .automatic
  let init ← match init with
    | some e => some <$> check (Typing.implicitCast e ty)
    | none => pure none
  let ty := match init with
    | some e => e.ty
    | none => ty
  let t ← currentTypes
  if !t.hasSize ty then
    reject ⟨.incompleteType (t.name ty), span⟩
  else
    let value := if t.isConst ty then init.filter (·.isConstant t) else none
    let symbol ← bind name ⟨ty, storage, value⟩ span .innermost
    return ⟨symbol, name, ty, storage, init⟩

/-- Declaring a function again with the same type gives its symbol. -/
def declareFunction (name : String) (ty : TypeId) (span : Span) : SessionM SymbolId := do
  let s ← get
  let existing := (s.symbols.lookup name .root).filter fun symbol =>
    symbol.value.storage == .function && s.types.equals symbol.value.ty ty
  match existing with
  | some symbol => return symbol.id
  | none => bind name ⟨ty, .function, none⟩ span .root

def declareParameter (name : String) (ty : TypeId) (span : Span) : SessionM SymbolId :=
  bind name ⟨ty, .automatic, none⟩ span .innermost

/-- Declare a struct tag, or find the one that the innermost scope has. -/
def declareStruct (name : String) (span : Span) : SessionM TypeId := do
  match (← get).tags.lookup name .innermost with
  | some tag => return tag.value
  | none =>
    let ty ← onTypes (.incompleteStruct name)
    let s ← get
    match s.tags.declare name ty span .innermost with
    | .error e => reject ⟨.redeclaration e.name e.previous, span⟩
    | .ok (_, tags) =>
      set { s with tags }
      return ty

def completeStruct (ty : TypeId) (members : List Member) (span : Span) : SessionM Unit := do
  match ← onTypes (TypeM.completeStruct ty (members.map (·.name)) (members.map (·.ty))).run with
  | .error error => reject ⟨.type error, span⟩
  | .ok _ => return

end Session

end TypedCore
