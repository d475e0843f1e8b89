import TypedCore.Source.Span

/-!
# Scopes

A `SymbolTable` is a stack of scopes over a root scope that is always open. A scope lists its
symbols in the order of their declaration, and a name is declared at most once in it. The table
numbers the symbols, and a number is never given twice.
-/

namespace TypedCore

abbrev SymbolId := Nat

structure Symbol (α : Type) where
  id : SymbolId
  name : String
  value : α
  span : Span
  /-- Depth of the scope that holds the symbol; the root scope has depth 0. -/
  level : Nat

abbrev Scope (α : Type) := List (Symbol α)

def Scope.find? {α : Type} (scope : Scope α) (name : String) : Option (Symbol α) :=
  List.find? (fun s => s.name == name) scope

/-- Where a declaration goes. -/
inductive Target where
  /-- the innermost open scope -/
  | innermost
  | root
deriving DecidableEq

/-- Where a name is looked for. -/
inductive Reach where
  /-- the innermost open scope only -/
  | innermost
  | root
  /-- every open scope, the innermost first -/
  | all
deriving DecidableEq

/-- A name that its scope already has, with the place of the earlier declaration. -/
structure Redeclared where
  name : String
  previous : Span
deriving DecidableEq

def Redeclared.message (e : Redeclared) : String :=
  s!"redeclaration of '{e.name}'"

structure SymbolTable (α : Type) where
  root : Scope α := []
  /-- The scopes opened inside the root scope, the innermost first. -/
  inner : List (Scope α) := []
  nextId : SymbolId := 0
deriving Inhabited

namespace SymbolTable

variable {α : Type}

def depth (t : SymbolTable α) : Nat := t.inner.length

/-- All open scopes, the innermost first. -/
def scopes (t : SymbolTable α) : List (Scope α) := t.inner ++ [t.root]

def innermost (t : SymbolTable α) : Scope α := t.inner.headD t.root

def openScope (t : SymbolTable α) : SymbolTable α :=
  { t with inner := [] :: t.inner }

/-- Leave the innermost scope and give its symbols. The root scope stays. -/
def closeScope (t : SymbolTable α) : Scope α × SymbolTable α :=
  match t.inner with
  | [] => ([], t)
  | scope :: inner => (scope, { t with inner })

def lookup (t : SymbolTable α) (name : String) : Reach → Option (Symbol α)
  | .innermost => t.innermost.find? name
  | .root => t.root.find? name
  | .all => t.scopes.findSome? fun scope => scope.find? name

/-- Add a symbol to the scope that `target` means. -/
def insert (t : SymbolTable α) (name : String) (value : α) (span : Span) (target : Target) :
    SymbolTable α :=
  let nextId := t.nextId + 1
  match target, t.inner with
  | .innermost, scope :: inner =>
    { t with inner := (scope ++ [⟨t.nextId, name, value, span, t.depth⟩]) :: inner, nextId }
  | _, _ => { t with root := t.root ++ [⟨t.nextId, name, value, span, 0⟩], nextId }

/-- Declare a name that its scope does not have yet. -/
def declare (t : SymbolTable α) (name : String) (value : α) (span : Span) (target : Target) :
    Except Redeclared (SymbolId × SymbolTable α) :=
  let reach : Reach := match target with
    | .innermost => .innermost
    | .root => .root
  match t.lookup name reach with
  | some previous => .error ⟨name, previous.span⟩
  | none => .ok (t.nextId, t.insert name value span target)

end SymbolTable

end TypedCore
