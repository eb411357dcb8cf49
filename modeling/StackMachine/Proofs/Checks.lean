import StackMachine.Proofs.Layout
import StackMachine.Proofs.Sweep

/-!
Evaluation with checks. To take an element of a list, to cut a list or a text, to fill a buffer of fixed room and to
count in words are operations that have a condition. Here they check it, and trap where it fails: the instructions are
found by their place in a table and find their operands by position, and comments are cut off at byte offsets. No check
fails, so that what is computed is what the definitions without checks compute.
-/

namespace StackMachine

inductive Trap where
  | index (i size : Nat)
  | capacity (size : Nat)
  | overflow (value : Nat)
  | negative (a b : Nat)
  | boundary (offset : Nat)

abbrev Checked := Except Trap

namespace Checked

variable {α : Type}

def index (values : List α) (i : Nat) : Checked α :=
  match values[i]? with
  | some a => .ok a
  | none => .error (.index i values.length)

def suffix (values : List α) (i : Nat) : Checked (List α) :=
  if i ≤ values.length then .ok (values.drop i) else .error (.index i values.length)

def word (limit n : Nat) : Checked Nat := if n ≤ limit then .ok n else .error (.overflow n)

def difference (a b : Nat) : Checked Nat := if b ≤ a then .ok (a - b) else .error (.negative a b)

def operandRoom : Nat := 3

def buffer (values : List α) : Checked (List α) :=
  if values.length ≤ operandRoom then .ok values else .error (.capacity values.length)

def upTo (text : String) (stop : Nat) : Checked String :=
  if h : stop ≤ text.utf8ByteSize ∧ (text.toByteArray.extract 0 stop).IsValidUTF8 then
    .ok (String.fromUTF8 (text.toByteArray.extract 0 stop) h.2)
  else .error (.boundary stop)

theorem index_of_getElem? {values : List α} {i : Nat} {a : α} (h : values[i]? = some a) : index values i = .ok a := by
  rw [index, h]

theorem suffix_of_le {values : List α} {i : Nat} (h : i ≤ values.length) : suffix values i = .ok (values.drop i) :=
  if_pos h

theorem word_of_le {limit n : Nat} (h : n ≤ limit) : word limit n = .ok n := if_pos h

theorem difference_of_le {a b : Nat} (h : b ≤ a) : difference a b = .ok (a - b) := if_pos h

theorem buffer_of_le {values : List α} (h : values.length ≤ operandRoom) : buffer values = .ok values := if_pos h

theorem upTo_append (before after : String) : upTo (before ++ after) before.utf8ByteSize = .ok before := by
  have hb : (before ++ after).toByteArray.extract 0 before.utf8ByteSize = before.toByteArray := by
    rw [String.toByteArray_append, ← String.size_toByteArray, ByteArray.extract_append_eq_left rfl]
  have hle : before.utf8ByteSize ≤ (before ++ after).utf8ByteSize := by
    rw [String.utf8ByteSize_append]
    exact Nat.le_add_right _ _
  rw [upTo, dif_pos ⟨hle, hb ▸ before.isValidUTF8⟩]
  exact congrArg Except.ok (String.toByteArray_inj.mp hb)

structure Operation where
  arity : Nat
  results : Nat
  apply : List Number → Checked (List Number)

structure Condition where
  arity : Nat
  test : List Number → Checked Bool

namespace Operation

def drop : Operation := ⟨1, 0, fun _ => buffer []⟩

def dup : Operation := ⟨1, 2, fun v => do buffer [← index v 0, ← index v 0]⟩

def dupSecond : Operation := ⟨2, 3, fun v => do buffer [← index v 0, ← index v 1, ← index v 0]⟩

def swap : Operation := ⟨2, 2, fun v => do buffer [← index v 1, ← index v 0]⟩

def unary (f : Number → Number) : Operation := ⟨1, 1, fun v => do buffer [f (← index v 0)]⟩

def binary (f : Number → Number → Number) : Operation := ⟨2, 1, fun v => do buffer [f (← index v 0) (← index v 1)]⟩

structure Implements (c : Operation) (operation : StackMachine.Operation) : Prop where
  arity : c.arity = operation.arity
  results : c.results = operation.results
  arity_le : operation.arity ≤ operandRoom
  results_le : operation.results ≤ operandRoom
  apply : ∀ operands : List Number, operands.length = operation.arity →
    c.apply operands = .ok (operation.apply operands) ∧ (operation.apply operands).length = operation.results

variable {c : Operation} {operation : StackMachine.Operation}

theorem implements_of_one (hc : c.arity = 1) (ho : operation.arity = 1) (hr : c.results = operation.results)
    (hle : operation.results ≤ operandRoom)
    (h : ∀ a, c.apply [a] = .ok (operation.apply [a]) ∧ (operation.apply [a]).length = operation.results) :
    c.Implements operation where
  arity := hc.trans ho.symm
  results := hr
  arity_le := by rw [ho]; decide
  results_le := hle
  apply := by
    intro operands hl
    obtain ⟨a, rfl⟩ := List.length_eq_one_iff.mp (hl.trans ho)
    exact h a

theorem implements_of_two (hc : c.arity = 2) (ho : operation.arity = 2) (hr : c.results = operation.results)
    (hle : operation.results ≤ operandRoom)
    (h : ∀ a b, c.apply [a, b] = .ok (operation.apply [a, b]) ∧ (operation.apply [a, b]).length = operation.results) :
    c.Implements operation where
  arity := hc.trans ho.symm
  results := hr
  arity_le := by rw [ho]; decide
  results_le := hle
  apply := by
    intro operands hl
    obtain ⟨a, b, rfl⟩ := List.length_eq_two.mp (hl.trans ho)
    exact h a b

theorem drop_implements : drop.Implements .drop := implements_of_one rfl rfl rfl (by decide) fun _ => ⟨rfl, rfl⟩

theorem dup_implements : dup.Implements .dup := implements_of_one rfl rfl rfl (by decide) fun _ => ⟨rfl, rfl⟩

theorem dupSecond_implements : dupSecond.Implements .dupSecond :=
  implements_of_two rfl rfl rfl (by decide) fun _ _ => ⟨rfl, rfl⟩

theorem swap_implements : swap.Implements .swap := implements_of_two rfl rfl rfl (by decide) fun _ _ => ⟨rfl, rfl⟩

theorem unary_implements (f : Number → Number) : (unary f).Implements (.unary f) :=
  implements_of_one rfl rfl rfl (show 1 ≤ 3 by decide) fun _ => ⟨rfl, rfl⟩

theorem binary_implements (f : Number → Number → Number) : (binary f).Implements (.binary f) :=
  implements_of_two rfl rfl rfl (show 1 ≤ 3 by decide) fun _ _ => ⟨rfl, rfl⟩

end Operation

namespace Condition

def always : Condition := ⟨0, fun _ => .ok true⟩

def unary (p : Number → Bool) : Condition := ⟨1, fun v => do return p (← index v 0)⟩

def binary (p : Number → Number → Bool) : Condition := ⟨2, fun v => do return p (← index v 0) (← index v 1)⟩

structure Implements (c : Condition) (condition : StackMachine.Condition) : Prop where
  arity : c.arity = condition.arity
  -- The offset of the branch needs room too.
  arity_lt : condition.arity < operandRoom
  test : ∀ operands : List Number, operands.length = condition.arity → c.test operands = .ok (condition.test operands)

theorem always_implements : always.Implements .always where
  arity := rfl
  arity_lt := by decide
  test _ _ := rfl

theorem unary_implements (p : Number → Bool) : (unary p).Implements (.unary p) where
  arity := rfl
  arity_lt := show 1 < 3 by decide
  test := by
    intro operands h
    obtain ⟨a, rfl⟩ := List.length_eq_one_iff.mp h
    rfl

theorem binary_implements (p : Number → Number → Bool) : (binary p).Implements (.binary p) where
  arity := rfl
  arity_lt := show 2 < 3 by decide
  test := by
    intro operands h
    obtain ⟨a, b, rfl⟩ := List.length_eq_two.mp h
    rfl

end Condition

inductive Instruction where
  | nop
  | push
  | load
  | store
  | halt
  | out
  | operate (operation : Operation)
  | branch (condition : Condition)

inductive Instruction.Implements : Instruction → StackMachine.Instruction → Prop
  | nop : Implements .nop .nop
  | push : Implements .push .push
  | load : Implements .load .load
  | store : Implements .store .store
  | halt : Implements .halt .halt
  | out : Implements .out .out
  | operate {c : Operation} {operation : StackMachine.Operation} (h : c.Implements operation) :
      Implements (.operate c) (.operate operation)
  | branch {c : Condition} {condition : StackMachine.Condition} (h : c.Implements condition) :
      Implements (.branch c) (.branch condition)

def table : List Instruction :=
  [.nop, .push, .operate .drop, .operate .dup, .operate .dupSecond, .operate .swap,
    .load, .store,
    .branch .always, .branch (.unary (·.isZero)), .branch (.unary (!·.isZero)),
    .branch (.binary Number.equal), .branch (.binary Number.greater), .branch (.binary Number.less),
    .halt, .out,
    .operate (.binary (· + ·)), .operate (.binary (· - ·)), .operate (.binary (· * ·)), .operate (.binary (· / ·)),
    .operate (.binary (· % ·)), .operate (.unary Number.bitNot), .operate (.binary Number.bitAnd),
    .operate (.binary Number.bitOr)]

theorem exists_implements (op : Opcode) : ∃ i, index table op.code = .ok i ∧ i.Implements op.instruction := by
  cases op with
  | nop => exact ⟨_, rfl, .nop⟩
  | push => exact ⟨_, rfl, .push⟩
  | load => exact ⟨_, rfl, .load⟩
  | store => exact ⟨_, rfl, .store⟩
  | halt => exact ⟨_, rfl, .halt⟩
  | out => exact ⟨_, rfl, .out⟩
  | drop => exact ⟨_, rfl, .operate Operation.drop_implements⟩
  | dup => exact ⟨_, rfl, .operate Operation.dup_implements⟩
  | dupSecond => exact ⟨_, rfl, .operate Operation.dupSecond_implements⟩
  | swap => exact ⟨_, rfl, .operate Operation.swap_implements⟩
  | jmp => exact ⟨_, rfl, .branch Condition.always_implements⟩
  | jz | jnz => exact ⟨_, rfl, .branch (Condition.unary_implements _)⟩
  | je | jg | jl => exact ⟨_, rfl, .branch (Condition.binary_implements _)⟩
  | not => exact ⟨_, rfl, .operate (Operation.unary_implements _)⟩
  | add | sub | mul | div | mod | and | or => exact ⟨_, rfl, .operate (Operation.binary_implements _)⟩

def sweep (limit : Nat) (p : Program) (address : Nat) : Checked (List Disassembly.Entry) :=
  if address < p.size then do
    let cell ← index p.cells.toList address
    let entry := Disassembly.entryAt p address cell
    -- The addresses of the literals lie before the end of the entry.
    let _ ← word limit (address + entry.width)
    return entry :: (← sweep limit p (address + entry.width))
  else .ok []
termination_by p.size - address
decreasing_by
  have := Disassembly.entryAt_width_pos p address cell
  omega

def disassemble (limit : Nat) (p : Program) : Checked String := do
  return String.join ((← sweep limit p 0).map Disassembly.Entry.line)

theorem entryAt_width_le (p : Program) (address : Nat) (cell : Cell) :
    (Disassembly.entryAt p address cell).width ≤ 2 := by
  have hl : ∀ op : Opcode, op.literalCount ≤ 1 := by
    intro op
    cases op <;> decide
  unfold Disassembly.entryAt
  split
  · rename_i op _
    have := hl op
    simp only [Disassembly.Entry.width]
    omega
  · exact Nat.le_succ 1

theorem sweep_eq {limit : Nat} {p : Program} (h : p.size < limit) (address : Nat) :
    sweep limit p address = .ok (Disassembly.entriesFrom p address) := by
  induction hn : p.size - address using Nat.strongRecOn generalizing address with
  | ind n ih =>
    rw [sweep]
    split
    · rename_i hlt
      obtain ⟨cell, hc⟩ : ∃ cell, p.cell? address = some cell := ⟨_, Array.getElem?_eq_getElem hlt⟩
      have hi : index p.cells.toList address = .ok cell :=
        index_of_getElem? (Array.getElem?_toList.trans hc)
      have hpos := Disassembly.entryAt_width_pos p address cell
      have hle := entryAt_width_le p address cell
      have hw := word_of_le (show address + (Disassembly.entryAt p address cell).width ≤ limit by omega)
      rw [hi, Disassembly.entriesFrom_of_cell? hc]
      simp only [bind, Except.bind, hw, ih _ (by omega) (address + (Disassembly.entryAt p address cell).width) rfl]
      rfl
    · rename_i hge
      rw [Disassembly.entriesFrom_of_size_le (Nat.not_lt.mp hge)]

theorem disassemble_eq {limit : Nat} {p : Program} (h : p.size < limit) : disassemble limit p = .ok p.disassemble := by
  rw [disassemble, sweep_eq h]
  rfl

section Listing

def find? (pattern : List Char) : List Char → Option Nat
  | [] => none
  | c :: text => if pattern <+: c :: text then some 0 else (find? pattern text).map (c.utf8Size + ·)

def codeEnd (line : List Char) : Nat :=
  ([find? ['/', '/'] line, find? ['#'] line].filterMap id).min?.getD (String.ofList line).utf8ByteSize

def code (line : List Char) : Checked (List Char) := do
  return (← upTo (String.ofList line) (codeEnd line)).toList

def tokens (line : List Char) : Checked (List (List Char)) := do
  return (Listing.pieces Listing.isSeparator (← code line)).filter (!·.isEmpty)

def ofListing (source : String) : Checked Program := do
  let words ← (Listing.lines source.toList).mapM tokens
  return Program.ofCells (words.flatten.map Listing.cell)

theorem utf8ByteSize_ofList_cons (c : Char) (text : List Char) :
    (String.ofList (c :: text)).utf8ByteSize = c.utf8Size + (String.ofList text).utf8ByteSize := by
  rw [String.ofList_cons, String.utf8ByteSize_append, String.utf8ByteSize_singleton]

theorem codeEnd_of_comment {c : Char} {text : List Char} (h : c = '#' ∨ (c = '/' ∧ text.head? = some '/')) :
    codeEnd (c :: text) = 0 := by
  have hf : find? ['/', '/'] (c :: text) = some 0 ∨ find? ['#'] (c :: text) = some 0 := by
    rcases h with rfl | h
    · exact .inr (if_pos (List.prefix_append ['#'] text))
    · exact .inl (if_pos ((Listing.pair_prefix_cons_iff c text).mpr h))
  rw [codeEnd]
  rcases hf with hf | hf <;> rw [hf]
  · cases find? ['#'] (c :: text) <;> simp
  · cases find? ['/', '/'] (c :: text) <;> simp

theorem codeEnd_of_not_comment {c : Char} {text : List Char} (h : ¬ (c = '#' ∨ (c = '/' ∧ text.head? = some '/'))) :
    codeEnd (c :: text) = c.utf8Size + codeEnd text := by
  have hslash : ¬ ['/', '/'] <+: c :: text := fun hp => h (.inr ((Listing.pair_prefix_cons_iff c text).mp hp))
  have hhash : ¬ ['#'] <+: c :: text := fun hp => h (.inl (List.cons_prefix_cons.mp hp).1.symm)
  rw [codeEnd, codeEnd, find?, find?, if_neg hslash, if_neg hhash, utf8ByteSize_ofList_cons]
  cases find? ['/', '/'] text <;> cases find? ['#'] text <;> simp

theorem codeEnd_eq (line : List Char) : codeEnd line = (String.ofList (Listing.code line)).utf8ByteSize := by
  induction line with
  | nil => rfl
  | cons c text ih =>
    rw [Listing.code_cons]
    split
    · rename_i h
      exact codeEnd_of_comment h
    · rename_i h
      rw [codeEnd_of_not_comment h, ih, utf8ByteSize_ofList_cons]

theorem code_eq (line : List Char) : code line = .ok (Listing.code line) := by
  obtain ⟨comment, hc⟩ := Listing.code_prefix line
  have hs : String.ofList line = String.ofList (Listing.code line) ++ String.ofList comment := by
    rw [← String.ofList_append, hc]
  rw [code, codeEnd_eq, hs, upTo_append]
  exact congrArg Except.ok String.toList_ofList

theorem tokens_eq (line : List Char) : tokens line = .ok (Listing.tokens line) := by
  rw [tokens, code_eq]
  rfl

theorem ofListing_eq (source : String) : ofListing source = .ok (Program.ofListing source) := by
  have ht : tokens = fun line => pure (Listing.tokens line) := funext tokens_eq
  rw [ofListing, ht, List.mapM_pure]
  rfl

end Listing

end Checked

end StackMachine
