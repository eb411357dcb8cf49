import Mathlib.Data.List.Induction
import Mathlib.Tactic.IntervalCases
import StackMachine.Decimal.Literal
import StackMachine.Program.Disassembly
import StackMachine.Proofs.FaultFrame

namespace StackMachine

theorem Opcode.literalCount_of_ne_push {op : Opcode} (h : op ≠ .push) : op.literalCount = 0 := by
  cases op with
  | push => exact absurd rfl h
  | _ => rfl

namespace Literal

theorem hexDigit?_digitChar {d : Nat} (h : d < 16) : hexDigit? d.digitChar = some d := by
  interval_cases d <;> rfl

theorem hexValue?_concat (digits : List Char) (c : Char) :
    hexValue? (digits ++ [c]) = (hexValue? digits).bind fun n => (hexDigit? c).map (16 * n + ·) := by
  simp only [hexValue?, List.foldlM_append, List.foldlM_cons, List.foldlM_nil, bind_pure]
  rfl

theorem hexDigit?_of_mem {digits : List Char} {n : Nat} (h : hexValue? digits = some n) {c : Char} (hc : c ∈ digits) :
    ∃ d, hexDigit? c = some d := by
  induction digits using List.reverseRecOn generalizing n with
  | nil => cases hc
  | append_singleton digits last ih =>
    rw [hexValue?_concat] at h
    obtain ⟨m, hm, hlast⟩ := Option.bind_eq_some_iff.mp h
    obtain ⟨d, hd, _⟩ := Option.map_eq_some_iff.mp hlast
    rcases List.mem_append.mp hc with hc | hc
    · exact ih hm hc
    · rw [List.mem_singleton.mp hc]
      exact ⟨d, hd⟩

theorem hexValue?_toDigits (n : Nat) : hexValue? (Nat.toDigits 16 n) = some n := by
  induction n using Nat.strongRecOn with
  | ind n ih =>
    rw [Nat.toDigits_eq_if (by decide)]
    split
    · rename_i h
      simp [hexValue?, hexDigit?_digitChar h]
    · rename_i h
      rw [hexValue?_concat, ih (n / 16) (by omega), hexDigit?_digitChar (Nat.mod_lt n (by decide))]
      exact congrArg some (Nat.div_add_mod n 16)

theorem hexValue?_zeros_append (k : Nat) (digits : List Char) :
    hexValue? (List.replicate k '0' ++ digits) = hexValue? digits := by
  induction k with
  | zero => rfl
  | succ k ih => exact ih

end Literal

namespace Disassembly

theorem addressText_toList (address : Nat) : (addressText address).toList =
    List.replicate (4 - (Nat.toDigits 16 address).length) '0' ++ Nat.toDigits 16 address :=
  String.toList_ofList

theorem hexValue?_addressText (address : Nat) : Literal.hexValue? (addressText address).toList = some address := by
  rw [addressText_toList, Literal.hexValue?_zeros_append, Literal.hexValue?_toDigits]

theorem four_le_length_addressText (address : Nat) : 4 ≤ (addressText address).length := by
  rw [← String.length_toList, addressText_toList, List.length_append, List.length_replicate]
  omega

theorem line_instruction (address : Nat) (op : Opcode) : Entry.line ⟨address, .instruction op []⟩ =
    addressText address ++ "  " ++ op.mnemonic ++ "\n" := rfl

theorem line_literal (address : Nat) (op : Opcode) (cell : Cell) :
    Entry.line ⟨address, .instruction op [some cell]⟩ =
      addressText address ++ "  " ++ op.mnemonic ++ " " ++ cell.text ++ "\n" := by
  simp only [Entry.line, Content.text, List.foldl_cons, List.foldl_nil, Option.map_some, Option.getD_some,
    String.append_assoc]

def entriesFrom (p : Program) (address : Nat) : List Entry := (sweep p address #[]).toList

theorem disassembly_eq (p : Program) : p.disassembly = entriesFrom p 0 := rfl

theorem sweep_toList (p : Program) (address : Nat) (done : Array Entry) :
    (sweep p address done).toList = done.toList ++ entriesFrom p address := by
  induction hn : p.size - address using Nat.strongRecOn generalizing address done with
  | ind n ih =>
    rw [entriesFrom, sweep]
    conv => rhs; rw [sweep]
    split
    · have hw := entryAt_width_pos p address p.cells[address]
      rw [ih _ (by omega) _ (done.push _) rfl, ih _ (by omega) _ (#[].push _) rfl]
      simp
    · simp

theorem entriesFrom_of_cell? {p : Program} {address : Nat} {cell : Cell} (h : p.cell? address = some cell) :
    entriesFrom p address =
      entryAt p address cell :: entriesFrom p (address + (entryAt p address cell).width) := by
  have hlt := Program.lt_size_of_cell? h
  obtain ⟨_, rfl⟩ := Array.getElem?_eq_some_iff.mp h
  rw [entriesFrom, sweep, dif_pos hlt, sweep_toList]
  rfl

theorem entriesFrom_of_size_le {p : Program} {address : Nat} (h : p.size ≤ address) :
    entriesFrom p address = [] := by
  rw [entriesFrom, sweep, dif_neg (Nat.not_lt.mpr h)]

theorem entriesFrom_of_opcode {p : Program} {address : Nat} {op : Opcode}
    (h : (p.cell? address).bind Cell.opcode? = some op) (hop : op ≠ .push) :
    entriesFrom p address = ⟨address, .instruction op []⟩ :: entriesFrom p (address + 1) := by
  obtain ⟨cell, hc, ho⟩ := Option.bind_eq_some_iff.mp h
  have hl := Opcode.literalCount_of_ne_push hop
  have he : entryAt p address cell = ⟨address, .instruction op []⟩ := by
    simp only [entryAt, ho, hl, List.range_zero, List.map_nil]
  rw [entriesFrom_of_cell? hc, he]
  simp only [Entry.width, hl, Nat.add_zero]

theorem entriesFrom_of_push {p : Program} {address : Nat} (h : (p.cell? address).bind Cell.opcode? = some .push) :
    entriesFrom p address =
      ⟨address, .instruction .push [p.cell? (address + 1)]⟩ :: entriesFrom p (address + 2) := by
  obtain ⟨cell, hc, ho⟩ := Option.bind_eq_some_iff.mp h
  have he : entryAt p address cell = ⟨address, .instruction .push [p.cell? (address + 1)]⟩ := by
    simp only [entryAt, ho]
    rfl
  rw [entriesFrom_of_cell? hc, he]
  rfl

theorem entriesFrom_of_data {p : Program} {address : Nat} {cell : Cell} (hc : p.cell? address = some cell)
    (h : cell.opcode? = none) :
    entriesFrom p address = ⟨address, .data cell⟩ :: entriesFrom p (address + 1) := by
  have he : entryAt p address cell = ⟨address, .data cell⟩ := by
    simp only [entryAt, h]
  rw [entriesFrom_of_cell? hc, he]
  rfl

theorem sweep_induction {p : Program} {motive : Nat → Prop}
    (past : ∀ address, p.size ≤ address → motive address)
    (plain : ∀ address cell op, p.cell? address = some cell → cell.opcode? = some op → op ≠ .push →
      motive (address + 1) → motive address)
    (push : ∀ address cell, p.cell? address = some cell → cell.opcode? = some .push →
      motive (address + 2) → motive address)
    (data : ∀ address cell, p.cell? address = some cell → cell.opcode? = none →
      motive (address + 1) → motive address) (address : Nat) : motive address := by
  induction hn : p.size - address using Nat.strongRecOn generalizing address with
  | ind n ih =>
    cases hc : p.cell? address with
    | none => exact past address ((p.cell?_eq_none_iff address).mp hc)
    | some cell =>
      have hlt := Program.lt_size_of_cell? hc
      cases ho : cell.opcode? with
      | none => exact data address cell hc ho (ih _ (by omega) _ rfl)
      | some op =>
        by_cases hp : op = .push
        · subst hp
          exact push address cell hc ho (ih _ (by omega) _ rfl)
        · exact plain address cell op hc ho hp (ih _ (by omega) _ rfl)

end Disassembly

end StackMachine
