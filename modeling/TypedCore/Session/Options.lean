import TypedCore.Json.Reader

/-!
# Options

How a session behaves, and the JSON form in which options are given.
-/

namespace TypedCore

/-- What happens when a construct is rejected. -/
inductive FailurePolicy where
  /-- The compilation ends. -/
  | abort
  /-- The rejection is recorded and handed back. -/
  | collect
deriving DecidableEq, Inhabited

structure Options where
  failurePolicy : FailurePolicy := .abort
  sizeBits : Nat := 64
  warnNarrowing : Bool := true
  filename : String := "<input>"
deriving DecidableEq, Inhabited

namespace Options

def policyNamed? : String → Option FailurePolicy
  | "abort" => some .abort
  | "collect" => some .collect
  | _ => none

/-- A policy is given by its name, or by an object whose one field has that name and is null. -/
def policy? : Json → Option FailurePolicy
  | .string (some name) => policyNamed? name
  | .object [(some name, .null)] => policyNamed? name
  | _ => none

/-- Widths are natural numbers below 2^16. -/
def width? (j : Json) : Option Nat := do
  let n ← j.nat?
  if n < 65536 then some n else none

/-- Fields by key. A key that is not that of an option is passed over, and the key of an option may
come once; `seen` holds those that came. -/
def ofFields? (seen : List String) (o : Options) : List (Json.Text × Json) → Option Options
  | [] => some o
  | (key, value) :: rest => do
    let key ← key
    let o' ← match key with
      | "failure_policy" => (policy? value).map fun p => { o with failurePolicy := p }
      | "size_type_bits" => (width? value).map fun n => { o with sizeBits := n }
      | "warn_narrowing" => value.bool?.map fun b => { o with warnNarrowing := b }
      | "filename" => value.string?.map fun s => { o with filename := s }
      | _ => some o
    let known := ["failure_policy", "size_type_bits", "warn_narrowing", "filename"].contains key
    if known && seen.contains key then none
    else ofFields? (if known then key :: seen else seen) o' rest

/-- Fields by position; those at the end may be left out. -/
def ofItems? : List Json → Option Options
  | [] => some {}
  | [p] => do return { failurePolicy := ← policy? p }
  | [p, n] => do return { failurePolicy := ← policy? p, sizeBits := ← width? n }
  | [p, n, w] => do
    return { failurePolicy := ← policy? p, sizeBits := ← width? n, warnNarrowing := ← w.bool? }
  | [p, n, w, f] => do
    return { failurePolicy := ← policy? p, sizeBits := ← width? n, warnNarrowing := ← w.bool?,
             filename := ← f.string? }
  | _ => none

def ofJson? : Json → Option Options
  | .object fields => ofFields? [] {} fields
  | .array items => ofItems? items
  | _ => none

/-- Options from JSON text; what is not given keeps its default. -/
def parse? (text : String) : Option Options := do ofJson? (← Json.parse? text)

end Options

end TypedCore
