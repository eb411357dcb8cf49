import StackMachine.Machine.Run
import StackMachine.Program.Disassembly
import StackMachine.Program.Listing

namespace StackMachine

inductive ReadError where
  | missing
  | directory
  | notText
  | other (reason : String)

def ReadError.message : ReadError → String
  | missing => "No such file or directory (os error 2)"
  | directory => "Is a directory (os error 21)"
  | notText => "stream did not contain valid UTF-8"
  | other reason => reason

abbrev Files := RawText → Except ReadError ByteArray

inductive Source where
  | file (path : RawText)
  | inline (listing : String)
  | demo

structure Options where
  disassemble : Bool := false
  trace : Bool := false
  dumpState : Bool := false

inductive Failure where
  | machine (fault : Fault) (state : State)
  | unreadable (path : RawText) (error : ReadError)
  | output (error : WriteError)

def Fault.report (fault : Fault) (state : State) : String :=
  fault.message ++ " (pc " ++ toString state.pc ++ ")"

def Failure.message : Failure → String
  | machine fault state => "machine fault: " ++ fault.report state
  | unreadable path error => "could not read '" ++ path.display ++ "': " ++ error.message
  | output error => "output error: " ++ error.message

structure Session where
  writer : Writer
  journal : Journal

/-- A part of a session. It gives nothing when a run in it does not stop with the fuel it has. -/
abbrev SessionM := ExceptT Failure (StateT Session Option)

namespace Session

def record (e : Event) : SessionM Unit :=
  modify fun s => { s with journal := s.journal.record e }

def output (action : EStateM WriteError Writer Unit) : SessionM Unit := do
  let s ← get
  match action s.writer with
  | .ok _ writer => set { s with writer }
  | .error error writer =>
    set { s with writer }
    throw (.output error)

def write (text : String) : SessionM Unit := output (Writer.write text)

def flush : SessionM Unit := output Writer.flush

def run (options : Options) (fuel : Nat) (program : Program) : SessionM State := do
  let s ← get
  let machine := Machine.start program ({ writer := s.writer } : LineSink) s.journal
  let ending : Ending LineSink ← liftM
    (if options.trace then machine.runTraced fuel else machine.run fuel)
  let left := ending.machine
  set ({ writer := left.output.writer, journal := left.journal } : Session)
  record (.programFinished left.output.emitted)
  match ending with
  | .ok .. => return left.state
  | .error fault _ => throw (.machine fault left.state)

def program (files : Files) : Source → SessionM Program
  | .file path =>
    match files path with
    | .error error => throw (.unreadable path error)
    | .ok bytes =>
      match String.fromUTF8? bytes with
      | none => throw (.unreadable path .notText)
      | some listing => do
        record (.listingLoaded path.display bytes.size)
        return Program.ofListing listing
  | .inline listing => return Program.ofListing listing
  | .demo => do
    record .demoChosen
    return Demo.program

def execute (options : Options) (fuel : Nat) (program : Program) : SessionM State := do
  record (.programStarted program.size)
  if options.disassemble then
    write program.disassemble
    write "\n"
  let state ← run options fuel program
  if options.dumpState then
    write (state.json ++ "\n")
  flush
  return state

end Session

def Source.execute (source : Source) (files : Files) (options : Options) (fuel : Nat) : SessionM State := do
  let program ← Session.program files source
  Session.execute options fuel program

end StackMachine
