import TypedCore.Source.Span

/-!
# Failures

What a compilation can fail with: a construct that is no program, code that cannot be generated,
or options that cannot be read.
-/

namespace TypedCore

inductive Failure where
  | semantic (message : String) (span : Span)
  | codegen (message : String) (span : Option Span)
  | config (message : String)
deriving DecidableEq, Inhabited

namespace Failure

/-- The message alone, without its place. -/
def message : Failure → String
  | semantic message _ => message
  | codegen message _ => message
  | config message => message

def span? : Failure → Option Span
  | semantic _ span => some span
  | codegen _ span => span
  | config _ => none

def text : Failure → String
  | semantic message span => s!"{span.text}: error: {message}"
  | codegen message _ => s!"code generation error: {message}"
  | config message => s!"configuration error: {message}"

end Failure

end TypedCore
