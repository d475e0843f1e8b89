import TypedCore.Diagnostic
import TypedCore.Expr.Basic
import TypedCore.Session.Options
import TypedCore.Session.Rejection
import TypedCore.Types.Update

/-!
# Sessions

A session holds all that one compilation knows: its types, the names and struct tags in scope and
the diagnostics so far. Rules run in `RuleM` and reject with a cause; operations of the session run
in `SessionM`, where a rejection has been reported and the failure policy applied. In both, what was
done before a rejection stays done.
-/

namespace TypedCore

/-- What a name stands for. -/
structure Binding where
  ty : TypeId
  storage : Storage
  /-- The initializer of a const variable whose value is known. -/
  value : Option Expr := none
deriving Inhabited

structure Session where
  types : TypeTable := .empty 64
  log : Log := {}
  symbols : SymbolTable Binding := {}
  tags : SymbolTable TypeId := {}
  options : Options := {}
deriving Inhabited

/-- How an operation of a session ends without a result. -/
inductive Stop where
  /-- The construct is rejected and the session goes on. -/
  | rejected (failure : Failure)
  /-- The session is over; `transcript` is its last word. -/
  | aborted (transcript : String)
deriving DecidableEq, Inhabited

abbrev RuleM := ExceptT Rejection (StateM Session)

abbrev SessionM := ExceptT Stop (StateM Session)

namespace Session

def new (options : Options) (source : Option String) : Session where
  types := .empty options.sizeBits
  log := { source }
  options := options

variable {ε α : Type}

/-- The types as they are now. -/
def currentTypes : ExceptT ε (StateM Session) TypeTable := return (← get).types

/-- Work on the type table. -/
def onTypes (x : TypeM α) : ExceptT ε (StateM Session) α :=
  modifyGet fun s =>
    let (a, types) := x s.types
    (a, { s with types })

/-- Report something that does not stop the compilation. -/
def warn (message : String) (span : Span) : ExceptT ε (StateM Session) Unit :=
  modify fun s => { s with log := s.log.warning message span }

/-- Report a rejection, with a note on the earlier place of a name declared twice. -/
def logRejection (r : Rejection) (log : Log) : Log :=
  let log := log.error r.message r.span
  match r.cause with
  | .redeclaration name previous =>
    if previous.isNowhere then log
    else log.note s!"previous declaration of '{name}' is here" previous
  | _ => log

def reject (r : Rejection) : SessionM α := do
  modify fun s => { s with log := logRejection r s.log }
  let s ← get
  match s.options.failurePolicy with
  | .abort => throw (.aborted s.log.transcript)
  | .collect => throw (.rejected r.toFailure)

/-- Run rules, reporting their rejection. -/
def check (rules : RuleM α) : SessionM α := ExceptT.mk do
  match ← rules.run with
  | .ok a => return .ok a
  | .error r => (reject r).run

/-! ### Scopes -/

def depth (s : Session) : Nat := s.symbols.depth

def openScope (s : Session) : Session :=
  { s with symbols := s.symbols.openScope, tags := s.tags.openScope }

/-- Leave the innermost scope; the structs declared in it are removed. -/
def closeScope (s : Session) : Session :=
  let (_, symbols) := s.symbols.closeScope
  let (dropped, tags) := s.tags.closeScope
  { s with
    symbols, tags
    types := dropped.foldl (fun types tag => types.removeStruct tag.value) s.types }

def lookup (s : Session) (name : String) : Option (Symbol Binding) := s.symbols.lookup name .all

def lookupStruct (s : Session) (name : String) : Option TypeId :=
  (s.tags.lookup name .all).map (·.value)

end Session

end TypedCore
