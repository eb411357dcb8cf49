import StackMachine.CommandLine.Application

namespace StackMachine

def readListing (path : String) : IO (Except ReadError ByteArray) := do
  try
    return .ok (← IO.FS.readBinFile path)
  catch
    | .noFileOrDirectory .. => return .error .missing
    | .inappropriateType .. => return .error .directory
    | error => return .error (.other (toString error))

def namedFile (words : List RawText) : IO (Except ReadError ByteArray) :=
  match Arguments.parse words with
  | .ok arguments =>
    match arguments.source with
    | .file path => readListing path.display
    | _ => return .error .missing
  | .error _ => return .error .missing

end StackMachine

open StackMachine in
def main (args : List String) : IO UInt32 := do
  let words := args.map RawText.ofText
  let file ← namedFile words
  let environment ← IO.getEnv "RUST_LOG"
  match Application.run 0x4000000000000000 words (fun _ => file) environment with
  | none => return 1
  | some outcome =>
    let stdout ← IO.getStdout
    stdout.write outcome.stdout
    stdout.flush
    IO.eprint outcome.stderr
    return outcome.exitCode.toUInt32
