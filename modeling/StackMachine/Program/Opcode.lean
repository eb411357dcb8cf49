import StackMachine.Number.Arithmetic

namespace StackMachine

inductive Opcode where
  | nop | push | drop | dup | dupSecond | swap
  | load | store
  | jmp | jz | jnz | je | jg | jl | halt
  | out
  | add | sub | mul | div | mod | not | and | or
deriving DecidableEq

namespace Opcode

def all : List Opcode :=
  [nop, push, drop, dup, dupSecond, swap, load, store, jmp, jz, jnz, je, jg, jl, halt, out,
    add, sub, mul, div, mod, not, and, or]

def code : Opcode → Nat
  | nop => 0x00
  | push => 0x01
  | drop => 0x02
  | dup => 0x03
  | dupSecond => 0x04
  | swap => 0x05
  | load => 0x06
  | store => 0x07
  | jmp => 0x08
  | jz => 0x09
  | jnz => 0x0A
  | je => 0x0B
  | jg => 0x0C
  | jl => 0x0D
  | halt => 0x0E
  | out => 0x0F
  | add => 0x10
  | sub => 0x11
  | mul => 0x12
  | div => 0x13
  | mod => 0x14
  | not => 0x15
  | and => 0x16
  | or => 0x17

theorem all_code (op : Opcode) : all[op.code]? = some op := by cases op <;> rfl

def mnemonic : Opcode → String
  | nop => "NOP"
  | push => "PUSH"
  | drop => "DROP"
  | dup => "DUP"
  | dupSecond => "OVER"
  | swap => "SWAP"
  | load => "LOAD"
  | store => "STORE"
  | jmp => "JMP"
  | jz => "JZ"
  | jnz => "JNZ"
  | je => "JE"
  | jg => "JG"
  | jl => "JL"
  | halt => "HALT"
  | out => "OUT"
  | add => "ADD"
  | sub => "SUB"
  | mul => "MUL"
  | div => "DIV"
  | mod => "MOD"
  | not => "NOT"
  | and => "AND"
  | or => "OR"

def ofMnemonic? (letters : List Char) : Option Opcode :=
  let upper := letters.map Char.toUpper
  all.find? fun op => op.mnemonic.toList == upper

theorem ofMnemonic?_mnemonic (op : Opcode) : ofMnemonic? op.mnemonic.toList = some op := by
  cases op <;> rfl

def literalCount : Opcode → Nat
  | push => 1
  | _ => 0

def number (op : Opcode) : Number := Number.ofNat op.code

def ofNumber? (x : Number) : Option Opcode := x.toIndex?.bind fun i => all[i]?

theorem ofNumber?_number (op : Opcode) : ofNumber? op.number = some op := by
  cases op <;> decide +kernel

end Opcode

end StackMachine
