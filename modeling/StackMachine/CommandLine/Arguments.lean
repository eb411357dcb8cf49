import StackMachine.Session

namespace StackMachine

inductive UsageError where
  | unknownArgument
  | invalidValue
  | invalidText
  | tooManyValues
  | argumentConflict
deriving DecidableEq

def UsageError.message : UsageError → String
  | unknownArgument => "unexpected argument"
  | invalidValue => "a value is missing or empty"
  | invalidText => "a value is not text"
  | tooManyValues => "a value where none is taken"
  | argumentConflict => "arguments that cannot be used together"

inductive EarlyExit where
  | help
  | version
  | usage (error : UsageError)
deriving DecidableEq

inductive Argument where
  | program
  | file
  | eval
  | disassemble
  | trace
  | dumpState
  | logLevel
  | help
  | version
deriving DecidableEq

inductive ValueKind where
  | path
  | text

inductive Use where
  | flag
  | value (kind : ValueKind)
  | exit (reason : EarlyExit)

/-- What is declared of an argument. One that has neither a letter nor a name stands by itself. -/
structure Declaration where
  letter : Option Char := none
  name : Option String := none
  use : Use := .flag
  conflicts : List Argument := []

namespace Argument

def all : List Argument := [program, file, eval, disassemble, trace, dumpState, logLevel, help, version]

def declaration : Argument → Declaration
  | program => { use := .value .path, conflicts := [file, eval] }
  | file => { letter := 'f', name := "file", use := .value .path, conflicts := [eval] }
  | eval => { letter := 'e', name := "eval", use := .value .text }
  | disassemble => { letter := 'd', name := "disassemble" }
  | trace => { letter := 't', name := "trace" }
  | dumpState => { name := "dump-state" }
  | logLevel => { name := "log-level", use := .value .text }
  | help => { letter := 'h', name := "help", use := .exit .help }
  | version => { letter := 'V', name := "version", use := .exit .version }

def letter (a : Argument) : Option Char := a.declaration.letter

def name (a : Argument) : Option String := a.declaration.name

def use (a : Argument) : Use := a.declaration.use

/-- A conflict that either of two arguments declares holds between them. -/
def excludes (a b : Argument) : Bool := a.declaration.conflicts.contains b || b.declaration.conflicts.contains a

def ofName? (name : String) : Option Argument := all.find? fun a => a.name == some name

/-- All letters are ASCII, so that a byte is one if it is that of a character by itself. -/
def ofLetter? (byte : UInt8) : Option Argument :=
  if byte < 0x80 then all.find? fun a => a.letter == some (Char.ofUInt8 byte) else none

end Argument

structure Item where
  argument : Argument
  value : Option RawText := none
deriving DecidableEq

namespace Item

def check (i : Item) : Except EarlyExit Unit :=
  match i.argument.use, i.value with
  | .value .path, some raw => if raw.isEmpty then throw (.usage .invalidValue) else return ()
  | .value .text, some raw => if raw.text?.isNone then throw (.usage .invalidText) else return ()
  | _, _ => return ()

def add (given : List Item) (i : Item) : Except EarlyExit (List Item) := do
  if given.any (·.argument == i.argument) then throw (.usage .argumentConflict)
  i.check
  return given ++ [i]

def checkConflicts (given : List Item) : Except EarlyExit Unit :=
  if given.any fun i => given.any fun j => i.argument.excludes j.argument then throw (.usage .argumentConflict)
  else return ()

end Item

structure Arguments where
  program : Option RawText := none
  file : Option RawText := none
  eval : Option String := none
  options : Options := {}
  level : Option String := none

namespace Arguments

def ofItems (given : List Item) : Arguments :=
  let has (a : Argument) := given.any (·.argument == a)
  let raw? (a : Argument) := (given.find? (·.argument == a)).bind Item.value
  { program := raw? .program
    file := raw? .file
    eval := (raw? .eval).bind RawText.text?
    options := { disassemble := has .disassemble, trace := has .trace, dumpState := has .dumpState }
    level := (raw? .logLevel).bind RawText.text? }

def logLevel (a : Arguments) : String := a.level.getD "warn"

def source (a : Arguments) : Source :=
  match a.program <|> a.file, a.eval with
  | some path, _ => .file path
  | none, some listing => .inline listing
  | none, none => .demo

end Arguments

end StackMachine
