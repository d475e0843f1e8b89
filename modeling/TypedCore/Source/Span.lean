/-!
# Source positions

A `Location` is a point of a named source text and a `Span` runs from one location to another, both
ends included. Things that come from no source text carry `Span.nowhere`, recognised by its line 0.
-/

namespace TypedCore

/-- A point of a source text. Lines and columns count from 1. -/
structure Location where
  file : String
  line : Nat
  column : Nat
deriving DecidableEq, Inhabited

namespace Location

def nowhere : Location := ⟨"<unknown>", 0, 0⟩

/-- A point of the unnamed input text. -/
def inInput (line column : Nat) : Location := ⟨"<input>", line, column⟩

def text (l : Location) : String :=
  s!"{l.file}:{l.line}:{l.column}"

end Location

/-- The source text from `start` to `stop`, both included. -/
structure Span where
  start : Location
  stop : Location
deriving DecidableEq, Inhabited

namespace Span

def point (l : Location) : Span := ⟨l, l⟩

def nowhere : Span := point .nowhere

/-- Columns `first` to `last` of one line of the unnamed input text. -/
def onLine (line first last : Nat) : Span :=
  ⟨.inInput line first, .inInput line last⟩

def isNowhere (s : Span) : Bool := s.start.line == 0

/-- A span names its file once, and its line once if it stays on one line. -/
def text (s : Span) : String :=
  if s.start.file ≠ s.stop.file then
    s!"{s.start.text} to {s.stop.text}"
  else if s.start.line ≠ s.stop.line then
    s!"{s.start.text}-{s.stop.line}:{s.stop.column}"
  else if s.start.column ≠ s.stop.column then
    s!"{s.start.text}-{s.stop.column}"
  else
    s.start.text

end Span

end TypedCore
