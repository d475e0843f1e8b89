import TypedCore.Source.Span

/-!
# Source excerpts

The lines that a span covers, each followed by a line of carets under the covered columns.
-/

namespace TypedCore

/-- The lines of a text given as characters, `line` holding the current one backwards. A line ends
at a line feed, and a carriage return before the line feed belongs to the line end. Text after the
last line feed is a line only if there is any. -/
def splitLines (line : List Char) : List Char → List String
  | [] => if line.isEmpty then [] else [String.ofList line.reverse]
  | '\n' :: rest =>
    let body := match line with
      | '\r' :: body => body
      | body => body
    String.ofList body.reverse :: splitLines [] rest
  | c :: rest => splitLines (c :: line) rest

/-- The lines of a source text, without their line ends. -/
def sourceLines (source : String) : List String :=
  splitLines [] source.toList

/-- `n` copies of a character. -/
def replicateChar (n : Nat) (c : Char) : String :=
  String.ofList (List.replicate n c)

/-- `text` with blanks in front, up to `width` characters. -/
def padLeft (width : Nat) (text : String) : String :=
  replicateChar (width - text.length) ' ' ++ text

namespace Span

/-- First line that the excerpt shows. -/
def firstLine (s : Span) : Nat := s.start.line

/-- Last line that the excerpt shows: a span that ends before it starts is shown at its start. -/
def lastLine (s : Span) : Nat := max s.stop.line s.start.line

/-- Columns of line `n` that the span covers, the line being `length` characters long. At least one
column is underlined. -/
def columnsOn (s : Span) (n length : Nat) : Nat × Nat :=
  let first := max (if n = s.firstLine then s.start.column else 1) 1
  let last := if n = s.lastLine then s.stop.column else length
  (first, max last first)

/-- The covered lines of `source`, numbered, with carets below. Lines that the source does not have
are left out. -/
def excerpt (s : Span) (source : String) : String :=
  if s.isNowhere then
    ""
  else
    let width := (toString s.lastLine).length
    let shown := (sourceLines source).zipIdx 1 |>.filter fun (_, n) =>
      s.firstLine ≤ n && n ≤ s.lastLine
    String.join <| shown.map fun (line, n) =>
      let (first, last) := s.columnsOn n line.length
      padLeft width (toString n) ++ " | " ++ line ++ "\n"
        ++ padLeft width "" ++ " | " ++ replicateChar (first - 1) ' '
        ++ replicateChar (last - first + 1) '^' ++ "\n"

end Span

end TypedCore
