import StackMachine.CommandLine.Scan

namespace StackMachine

structure Outcome where
  exitCode : Nat
  stdout : ByteArray
  stderr : String

namespace Application

def versionText : String := "stackvm 0.1.0\n"

def usageLine : String := "Usage: stackvm [OPTIONS] [PROGRAM]\n"

def helpText : String :=
  "Run stack machine programs\n\n" ++ usageLine ++
  "\nArguments:\n" ++
  "  [PROGRAM]  Program listing to run\n" ++
  "\nOptions:\n" ++
  "  -f, --file <FILE>        Program listing to run (same as the positional argument)\n" ++
  "  -e, --eval <LISTING>     Inline program listing, e.g. \"PUSH 2 PUSH 3 ADD OUT\"\n" ++
  "  -d, --disassemble        Print the disassembly before running\n" ++
  "  -t, --trace              Log every machine cycle\n" ++
  "      --dump-state         Print the final machine state as JSON\n" ++
  "      --log-level <LEVEL>  Default log filter when RUST_LOG is unset [default: warn]\n" ++
  "  -h, --help               Print help\n" ++
  "  -V, --version            Print version\n"

def filter (arguments : Arguments) (environment : Option String) : Filter where
  threshold := Level.ofName? (environment.getD arguments.logLevel)
  steps := arguments.options.trace

def earlyOutcome : EarlyExit → Outcome
  | .help => ⟨0, helpText.toUTF8, ""⟩
  | .version => ⟨0, versionText.toUTF8, ""⟩
  | .usage error => ⟨2, ByteArray.empty, "error: " ++ error.message ++ "\n\n" ++ usageLine⟩

def failureText : Failure → String
  | .machine fault state =>
    "Error: " ++ fault.report state ++ "\nState at failure:\n" ++ state.json ++ "\n"
  | failure => "Error: " ++ failure.message ++ "\n"

def session (fuel : Nat) (arguments : Arguments) (files : Files) (environment : Option String) :
    Option Outcome :=
  let start : Session := { writer := {}, journal := { filter := filter arguments environment } }
  ((arguments.source.execute files arguments.options fuel).run.run start).map fun (result, left) =>
    let log := String.join (left.journal.events.map Event.line)
    match result with
    | .ok _ => ⟨0, left.writer.accepted, log⟩
    | .error failure => ⟨1, left.writer.accepted, log ++ failureText failure⟩

def run (fuel : Nat) (words : List RawText) (files : Files) (environment : Option String) :
    Option Outcome :=
  match Arguments.parse words with
  | .error reason => some (earlyOutcome reason)
  | .ok arguments => session fuel arguments files environment

end Application

end StackMachine
