import TypedCore.Types.Query

/-!
# Changing types

Operations on the table that need to ask it first: the const flag of a type, the bound of an array,
and the life of a struct.
-/

namespace TypedCore.TypeM

open TypeTable

/-- `ty` with the given const flag. The flag of a name is that of the type it stands for, so the
result is the same name for the changed type. -/
def withConst (ty : TypeId) (isConst : Bool) : TypeM TypeId := do
  let t ← get
  let base := t.unalias ty
  let changed ←
    if (t.entry base).isConst = isConst then pure base else intern (t.entry base).shape isConst
  (t.aliasNames ty).foldrM named changed

def const (ty : TypeId) : TypeM TypeId := withConst ty true

def constRemoved (ty : TypeId) : TypeM TypeId := withConst ty false

/-- Give an array without bound the dimension `dim`. -/
def bindArray (ty : TypeId) (dim : Nat) : TypeM TypeId := do
  let t ← get
  match t.shape ty with
  | .array element 0 =>
    let bound ← array element dim
    withConst bound (t.isConst ty)
  | _ => pure ty

/-- Equality apart from the const flags of the two types themselves. -/
def equalsUnqualified (a b : TypeId) : TypeM Bool := do
  let a ← constRemoved a
  let b ← constRemoved b
  return (← get).equals a b

end TypedCore.TypeM

namespace TypedCore.TypeTable

variable (t : TypeTable)

def modifyStruct (id : StructId) (f : StructInfo → StructInfo) : TypeTable :=
  { t with structs := t.structs.modify id.index f }

/-- Why `members` cannot follow the members `before` in a struct, if they cannot: names are distinct
and every member has a size. -/
def memberFault? (struct : String) (before : List Member) : List Member → Option TypeError
  | [] => none
  | m :: rest =>
    if before.any fun b => b.name == m.name then
      some (.duplicateMember struct m.name)
    else if !t.hasSize m.ty then
      some (.incompleteMember struct m.name)
    else
      memberFault? struct (before ++ [m]) rest

/-- Retire a struct whose scope is closed. Its types stay valid, but they are not listed any more, so that
interning the struct again enters a new type. -/
def removeStruct (ty : TypeId) : TypeTable :=
  match t.structId? ty with
  | none => t
  | some id =>
    { t.modifyStruct id fun info => { info with removed := true } with
      structTypes := (t.structTypes.erase (id, false)).erase (id, true) }

end TypedCore.TypeTable

namespace TypedCore

/-- Give a struct its members, once. -/
def TypeM.completeStruct (ty : TypeId) (names : List String) (types : List TypeId) :
    ExceptT TypeError TypeM Unit := do
  let t ← get
  match t.structId? ty with
  | none => throw (.notAStruct (t.name ty))
  | some id =>
    let info := t.struct id
    let members := List.zipWith Member.mk names types
    if info.members.isSome then
      throw (.duplicateCompletion info.name)
    if names.length ≠ types.length then
      throw (.memberCountMismatch info.name names.length types.length)
    match t.memberFault? info.name [] members with
    | some fault => throw fault
    | none => modify fun t => t.modifyStruct id fun info => { info with members := some members }

/-- The table in which a struct has its members. -/
def TypeTable.completeStruct (t : TypeTable) (ty : TypeId) (names : List String) (types : List TypeId) :
    Except TypeError TypeTable :=
  match (TypeM.completeStruct ty names types).run.run t with
  | (.ok _, t') => .ok t'
  | (.error e, _) => .error e

end TypedCore
