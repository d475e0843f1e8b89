import TypedCore.Source.Excerpt

/-!
# Diagnostics

A `Diagnostic` is a message about a span. A `Log` collects the diagnostics of one compilation in
the order in which they were reported and keeps the tally of its errors and warnings.
-/

namespace TypedCore

inductive Severity where
  | error
  | warning
  | note
deriving DecidableEq, Inhabited

def Severity.text : Severity → String
  | .error => "error"
  | .warning => "warning"
  | .note => "note"

structure Diagnostic where
  severity : Severity
  message : String
  span : Span
deriving DecidableEq, Inhabited

/-- One line for a diagnostic; the span is left out when there is none. -/
def Diagnostic.text (d : Diagnostic) : String :=
  if d.span.isNowhere then
    s!"{d.severity.text}: {d.message}"
  else
    s!"{d.span.text}: {d.severity.text}: {d.message}"

/-- The diagnostics reported so far, oldest first. `source` is the text that excerpts are cut from,
if it is known. -/
structure Log where
  entries : List Diagnostic := []
  errorCount : Nat := 0
  warningCount : Nat := 0
  source : Option String := none
deriving Inhabited

namespace Log

def report (log : Log) (d : Diagnostic) : Log :=
  { log with
    entries := log.entries ++ [d]
    errorCount := if d.severity = .error then log.errorCount + 1 else log.errorCount
    warningCount := if d.severity = .warning then log.warningCount + 1 else log.warningCount }

def error (log : Log) (message : String) (span : Span) : Log :=
  log.report ⟨.error, message, span⟩

def warning (log : Log) (message : String) (span : Span) : Log :=
  log.report ⟨.warning, message, span⟩

def note (log : Log) (message : String) (span : Span) : Log :=
  log.report ⟨.note, message, span⟩

/-- Add `suffix` to the message of the newest diagnostic. -/
def amendLast (log : Log) (suffix : String) : Log :=
  match log.entries.getLast? with
  | none => log
  | some d =>
    { log with entries := log.entries.dropLast ++ [{ d with message := d.message ++ suffix }] }

def hasErrors (log : Log) : Bool := log.errorCount > 0

def warnings (log : Log) : List Diagnostic :=
  log.entries.filter fun d => d.severity = .warning

/-- A diagnostic below the excerpt of the source that it is about. -/
def render (log : Log) (d : Diagnostic) : String :=
  (match log.source with
    | some source => d.span.excerpt source
    | none => "") ++ d.text

/-- A count with its noun, in the plural unless it is one. -/
def counted (n : Nat) (noun : String) : String :=
  if n = 1 then s!"{n} {noun}" else s!"{n} {noun}s"

def summary (log : Log) : String :=
  match log.errorCount, log.warningCount with
  | 0, 0 => "No errors or warnings"
  | 0, w => counted w "warning"
  | e, 0 => counted e "error"
  | e, w => counted e "error" ++ " and " ++ counted w "warning"

/-- Every diagnostic and then the tally, one below the other. -/
def transcript (log : Log) : String :=
  String.join (log.entries.map fun d => log.render d ++ "\n") ++ log.summary ++ "\n"

end Log

end TypedCore
