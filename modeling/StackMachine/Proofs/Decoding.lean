import StackMachine.Proofs.Cycles
import StackMachine.Proofs.Exactness

namespace StackMachine

namespace Number

theorem isWhole_iff_value (x : Number) (n : Int) : x.IsWhole n ↔ x.isFinite ∧ x.value = n := by
  apply and_congr_right
  intro _
  rw [value, div_eq_iff unitsPerOne_cast_pos.ne']
  exact_mod_cast Iff.rfl

theorem toIndex?_eq_some_iff_value (x : Number) (k : Nat) :
    x.toIndex? = some k ↔ x.isFinite ∧ x.value = k ∧ k < 2 ^ 64 := by
  rw [toIndex?_eq_some_iff, isWhole_iff_value, Int.cast_natCast, and_assoc]
  rfl

theorem isFinite_of_equal {a b : Number} (h : a.equal b) (hb : b.isFinite) : a.isFinite := by
  obtain ⟨_, _, hk⟩ := equal_iff.mp h
  have hm : a.magnitude = b.magnitude := by
    simp only [key] at hk
    split at hk <;> split at hk <;> omega
  rwa [isFinite, hm]

theorem equal_iff_isWhole {a b : Number} {n : Int} (hb : b.IsWhole n) : a.equal b ↔ a.IsWhole n := by
  constructor
  · intro h
    have ha := isFinite_of_equal h hb.1
    exact ⟨ha, ((equal_iff_units ha hb.1).mp h).trans hb.2⟩
  · intro h
    rw [equal_iff_units h.1 hb.1, h.2, hb.2]

end Number

namespace Opcode

theorem all_nodup : all.Nodup := by decide

theorem code_lt (op : Opcode) : op.code < all.length := (List.getElem?_eq_some_iff.mp op.all_code).1

theorem getElem?_all_eq_some_iff (i : Nat) (op : Opcode) : all[i]? = some op ↔ i = op.code := by
  constructor
  · intro h
    have hlt := (List.getElem?_eq_some_iff.mp h).1
    exact (List.getElem?_inj hlt all_nodup).mp (h.trans op.all_code.symm)
  · rintro rfl
    exact op.all_code

theorem number_isWhole (op : Opcode) : op.number.IsWhole op.code := by
  have hlt : op.code < 24 := op.code_lt
  apply Number.natCast_isWhole
  rw [Number.binade]
  omega

theorem ofNumber?_eq_some_iff_isWhole (x : Number) (op : Opcode) : ofNumber? x = some op ↔ x.IsWhole op.code := by
  rw [ofNumber?, Option.bind_eq_some_iff]
  constructor
  · rintro ⟨i, hi, ho⟩
    obtain rfl := (getElem?_all_eq_some_iff i op).mp ho
    exact ((Number.toIndex?_eq_some_iff x op.code).mp hi).1
  · intro h
    have hlt : op.code < Number.indexCount := op.code_lt.trans (by decide)
    exact ⟨op.code, (Number.toIndex?_eq_some_iff x op.code).mpr ⟨h, hlt⟩, op.all_code⟩

theorem ofNumber?_eq_some_iff_equal (x : Number) (op : Opcode) : ofNumber? x = some op ↔ x.equal op.number := by
  rw [ofNumber?_eq_some_iff_isWhole, Number.equal_iff_isWhole op.number_isWhole]

theorem exists_code {k : Nat} (h : k < all.length) : ∃ op : Opcode, op.code = k := by
  have hk := List.getElem?_eq_getElem h
  exact ⟨all[k], ((getElem?_all_eq_some_iff k _).mp hk).symm⟩

theorem exists_ofNumber?_iff (x : Number) :
    (∃ op, ofNumber? x = some op) ↔ x.isFinite ∧ ∃ k : Nat, k < all.length ∧ x.value = k := by
  simp only [ofNumber?_eq_some_iff_isWhole, Number.isWhole_iff_value, Int.cast_natCast]
  constructor
  · rintro ⟨op, hf, hv⟩
    exact ⟨hf, op.code, op.code_lt, hv⟩
  · rintro ⟨hf, k, hk, hv⟩
    obtain ⟨op, rfl⟩ := exists_code hk
    exact ⟨op, hf, hv⟩

theorem fetchOpcode_decodes {s : State} {x : Number} (h : s.rom.cell? s.pc = some (.number x)) :
    (∃ op, x.equal op.number ∧ Action.fetchOpcode s = .ok op s.advance) ∨
      ((∀ op : Opcode, ¬ x.equal op.number) ∧ Action.fetchOpcode s = .error (.illegalOpcode x) s.advance) := by
  cases ho : ofNumber? x with
  | some op =>
    have hnext := (s.nextOpcode?_eq_some_iff op).mpr ⟨x, h, ho⟩
    exact .inl ⟨op, (ofNumber?_eq_some_iff_equal x op).mp ho, Action.fetchOpcode_some hnext⟩
  | none =>
    refine .inr ⟨?_, Action.fetchOpcode_none h ho⟩
    intro op heq
    cases ho.symm.trans ((ofNumber?_eq_some_iff_equal x op).mpr heq)

theorem decoding_inverts_encoding (x : Number) :
    (∀ op, ofNumber? x = some op ↔ x.equal op.number) ∧
      (ofNumber? x = some .nop ↔ x.isZero) ∧
      ((∃ op, ofNumber? x = some op) ↔ x.isFinite ∧ ∃ k : Nat, k < 24 ∧ x.value = k) ∧
      (∀ s : State, s.rom.cell? s.pc = some (.number x) →
        (∃ op, x.equal op.number ∧ Action.fetchOpcode s = .ok op s.advance) ∨
          ((∀ op : Opcode, ¬ x.equal op.number) ∧ Action.fetchOpcode s = .error (.illegalOpcode x) s.advance)) ∧
      ∀ k : Nat, x.toIndex? = some k ↔ x.isFinite ∧ x.value = k ∧ k < 2 ^ 64 := by
  refine ⟨ofNumber?_eq_some_iff_equal x, ?_, exists_ofNumber?_iff x, fun _ => fetchOpcode_decodes,
    x.toIndex?_eq_some_iff_value⟩
  have hzero : nop.number = Number.zero := by decide +kernel
  rw [ofNumber?_eq_some_iff_equal, hzero, x.isZero_iff_equal_zero]

def almostTableEnd : Number := Number.ofBits 0x4037FFFFFFFFFFFF

theorem decoding_inverts_encoding_almostTableEnd :
    ofNumber? (Number.signedZero true) = some .nop ∧
      Action.fetchOpcode (State.initial (Program.ofNumbers [almostTableEnd])) =
        .error (.illegalOpcode almostTableEnd) (State.initial (Program.ofNumbers [almostTableEnd])).advance := by
  obtain ⟨_, hzero, _⟩ := decoding_inverts_encoding (Number.signedZero true)
  obtain ⟨hdecode, _, _, hfetch, _⟩ := decoding_inverts_encoding almostTableEnd
  refine ⟨hzero.mpr rfl, ?_⟩
  rcases hfetch (State.initial (Program.ofNumbers [almostTableEnd])) rfl with ⟨op, heq, _⟩ | ⟨_, hf⟩
  · have hnone : ofNumber? almostTableEnd = none := by decide +kernel
    cases hnone.symm.trans ((hdecode op).mpr heq)
  · exact hf

end Opcode

end StackMachine
