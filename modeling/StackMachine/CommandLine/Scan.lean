import StackMachine.CommandLine.Arguments

namespace StackMachine

inductive Pending where
  | nothing
  | awaiting (argument : Argument)
  | item (i : Item)

structure Scan where
  given : List Item := []
  pending : Pending := .nothing
  /-- Whether the rest is paths, whatever it looks like. -/
  trailing : Bool := false

namespace Scan

def resolve (s : Scan) : Except EarlyExit Scan := do
  let given ← match s.pending with
    | .nothing => pure s.given
    | .awaiting _ => throw (.usage .invalidValue)
    | .item i => Item.add s.given i
  return { s with given, pending := .nothing }

def take (s : Scan) (i : Item) : Except EarlyExit Scan := do
  let s ← s.resolve
  return { s with given := ← Item.add s.given i }

def await (s : Scan) (argument : Argument) : Except EarlyExit Scan := do
  return { ← s.resolve with pending := .awaiting argument }

def exit (s : Scan) (reason : EarlyExit) : Except EarlyExit Scan := do
  let _ ← s.resolve
  throw reason

def hasProgram (s : Scan) : Bool :=
  s.given.any (·.argument == .program) || match s.pending with
    | .item i => i.argument == .program
    | _ => false

def programPath (s : Scan) (raw : RawText) : Except EarlyExit Scan := do
  if s.hasProgram then throw (.usage .unknownArgument)
  else return { ← s.resolve with pending := .item ⟨.program, some raw⟩ }

def plain (s : Scan) (raw : RawText) : Except EarlyExit Scan :=
  match s.pending with
  | .awaiting argument => return { s with pending := .item ⟨argument, some raw⟩ }
  | _ => s.programPath raw

def long (s : Scan) (name : RawText) (attached : Option RawText) : Except EarlyExit Scan :=
  match name.text?.bind Argument.ofName? with
  | none => throw (.usage .unknownArgument)
  | some argument =>
    match argument.use, attached with
    | .value _, some raw => s.take ⟨argument, some raw⟩
    | .value _, none => s.await argument
    | _, some _ => throw (.usage .tooManyValues)
    | .flag, none => s.take ⟨argument, none⟩
    | .exit reason, none => s.exit reason

/-- Options by their letters; the first that takes a value takes the rest for it. -/
def letters (s : Scan) : List UInt8 → Except EarlyExit Scan
  | [] => return s
  | byte :: rest =>
    match Argument.ofLetter? byte with
    | none => throw (.usage .unknownArgument)
    | some argument =>
      match argument.use with
      | .exit reason => s.exit reason
      | .flag => do
        let s ← s.take ⟨argument, none⟩
        s.letters rest
      | .value _ =>
        match rest with
        | [] => s.await argument
        | 0x3D :: value => s.take ⟨argument, some ⟨value⟩⟩
        | value => s.take ⟨argument, some ⟨value⟩⟩

-- `0x2D` is the dash and `0x3D` the equals sign.
def word (s : Scan) (raw : RawText) : Except EarlyExit Scan :=
  if s.trailing then s.programPath raw
  else match raw.bytes with
    | [0x2D, 0x2D] => return { s with trailing := true }
    | 0x2D :: 0x2D :: option =>
      let name := option.takeWhile (· != 0x3D)
      let attached := match option.dropWhile (· != 0x3D) with
        | [] => none
        | _ :: value => some ⟨value⟩
      s.long ⟨name⟩ attached
    | 0x2D :: byte :: rest => s.letters (byte :: rest)
    | _ => s.plain raw

end Scan

def Arguments.parse (words : List RawText) : Except EarlyExit Arguments := do
  let s ← words.foldlM Scan.word {}
  let s ← s.resolve
  Item.checkConflicts s.given
  return ofItems s.given

end StackMachine
