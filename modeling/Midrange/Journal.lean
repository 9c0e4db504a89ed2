namespace Midrange

/-- How much a message matters, from the least on. -/
inductive Severity where
  | debug
  | info
  | warning
  | error
  deriving DecidableEq, Repr

namespace Severity

def rank : Severity → Nat
  | debug => 10
  | info => 20
  | warning => 30
  | error => 40

def text : Severity → String
  | debug => "DEBUG"
  | info => "INFO"
  | warning => "WARNING"
  | error => "ERROR"

end Severity

/-- The part of the program that reports something. -/
inductive Reporter where
  | session
  | disassembly
  | hints
  | sweep
  | depth
  | commandLine
  deriving DecidableEq, Repr

/-- The name under which a part reports in a log file. -/
def Reporter.text : Reporter → String
  | session => "pic16_disasm"
  | disassembly => "pic16_disasm"
  | hints => "pic16_disasm.hints"
  | sweep => "pic16_disasm.scanner"
  | depth => "pic16_disasm.analyzer"
  | commandLine => "pic16_disasm.cli"

/-- One message of a run. -/
structure Report where
  severity : Severity
  reporter : Reporter
  text : String
  deriving DecidableEq, Repr

/-- The messages of a run in the order in which they were given. -/
abbrev Journal := List Report

end Midrange
