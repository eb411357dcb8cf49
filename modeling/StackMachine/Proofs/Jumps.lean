import Mathlib.Tactic.Linarith
import StackMachine.Proofs.Exactness
import StackMachine.Proofs.Lockstep

namespace StackMachine

namespace Number

theorem RoundsToWhole.eq_of_exact {k n : Nat} (h : RoundsToWhole (k * unitsPerOne) n) (hn : n ≤ 2 ^ 52) : n = k := by
  obtain ⟨hlo, hhi⟩ := h.bounds
  have hplace := h.place_le hn
  have hpos := unitsPerOne_pos
  rcases Nat.lt_trichotomy n k with hlt | heq | hgt
  · have hmul := Nat.mul_le_mul_right unitsPerOne (Nat.succ_le_of_lt hlt)
    rw [Nat.succ_mul] at hmul
    omega
  · exact heq
  · have hmul := Nat.mul_le_mul_right unitsPerOne (Nat.succ_le_of_lt hgt)
    rw [Nat.succ_mul] at hmul
    omega

theorem RoundsToWhole.shift_lt {units n : Nat} (h : RoundsToWhole units n) (hn : n < 2 ^ 52) :
    roundingShift units 1 < fractionBits := by
  apply Nat.lt_of_le_of_ne (h.shift_le hn.le)
  intro heq
  obtain ⟨_, hhi⟩ := h.bounds
  rw [heq, ← unitsPerOne_eq] at hhi
  have hge := le_of_le_roundingShift heq.ge
  have hmul := Nat.mul_le_mul_right unitsPerOne (Nat.succ_le_of_lt hn)
  have hpos := unitsPerOne_pos
  rw [Nat.succ_mul] at hmul
  omega

theorem RoundsToWhole.quarter {units n : Nat} (h : RoundsToWhole units n) (hn : n < 2 ^ 52) :
    4 * (n * unitsPerOne) ≤ 4 * units + unitsPerOne ∧ 4 * units ≤ 4 * (n * unitsPerOne) + unitsPerOne := by
  obtain ⟨hlo, hhi⟩ := h.bounds
  have hpow : 2 * 2 ^ roundingShift units 1 ≤ unitsPerOne := by
    rw [unitsPerOne_eq, ← pow_succ']
    exact Nat.pow_le_pow_right (by decide) (h.shift_lt hn)
  omega

end Number

namespace Program

variable {p : Program} {pc i : Nat} {offset : Number}

theorem HasIndex.isFinite_offset (h : p.HasIndex (Number.ofNat pc + offset) i) : offset.isFinite :=
  (Number.isFinite_of_add h.1.1).2

theorem hasIndex_sum_iff (hpc : pc ≤ 2 ^ 52) (hsize : p.size ≤ 2 ^ 52) (hf : offset.isFinite) :
    p.HasIndex (Number.ofNat pc + offset) i ↔ i < p.size ∧ 0 ≤ pc * Number.unitsPerOne + offset.units ∧
      Number.RoundsToWhole (pc * Number.unitsPerOne + offset.units).natAbs i := by
  obtain ⟨hfinite, hunits⟩ := Number.ofNat_isWhole hpc
  rw [HasIndex, Number.add_isWhole_iff hfinite hf, hunits]
  constructor
  · rintro ⟨hw, hi, _⟩
    exact ⟨hi, hw⟩
  · rintro ⟨hi, hw⟩
    have hcount : i < Number.indexCount := by
      rw [Number.indexCount]
      omega
    exact ⟨hw, hi, hcount⟩

theorem hasIndex_whole_iff (hpc : pc ≤ 2 ^ 52) (hsize : p.size ≤ 2 ^ 52) {n : Int} (hw : offset.IsWhole n) :
    p.HasIndex (Number.ofNat pc + offset) i ↔ i < p.size ∧ (i : Int) = pc + n := by
  have hone : (0 : Int) < Number.unitsPerOne := Int.natCast_pos.mpr Number.unitsPerOne_pos
  rw [hasIndex_sum_iff hpc hsize hw.1, hw.2, ← Int.add_mul, Int.natAbs_mul, Int.natAbs_natCast,
    Int.mul_nonneg_iff_of_pos_right hone]
  apply and_congr_right
  intro hi
  constructor
  · rintro ⟨hnonneg, hround⟩
    have heq := hround.eq_of_exact (by omega)
    omega
  · intro heq
    have habs : ((pc : Int) + n).natAbs = i := by omega
    rw [habs]
    exact ⟨by omega, Number.roundsToWhole_exact (by omega)⟩

theorem HasIndex.near (hpc : pc ≤ 2 ^ 52) (hsize : p.size ≤ 2 ^ 52) (h : p.HasIndex (Number.ofNat pc + offset) i) :
    |(i : ℚ) - (pc + offset.value)| ≤ 1 / 4 := by
  obtain ⟨hi, hnonneg, hround⟩ := (hasIndex_sum_iff hpc hsize h.isFinite_offset).mp h
  obtain ⟨sum, hsum⟩ := Int.eq_ofNat_of_zero_le hnonneg
  rw [hsum, Int.natAbs_natCast] at hround
  obtain ⟨hlo, hhi⟩ := hround.quarter (hi.trans_le hsize)
  have hone := Number.unitsPerOne_cast_pos
  have hdiv : (i : ℚ) - (pc + offset.value) = (i * Number.unitsPerOne - sum) / Number.unitsPerOne := by
    have hcast : (pc * Number.unitsPerOne + offset.units : ℚ) = sum := by exact_mod_cast hsum
    rw [Number.value, ← hcast]
    field_simp
  have hlo' : (4 * (i * Number.unitsPerOne) : ℚ) ≤ 4 * sum + Number.unitsPerOne := by exact_mod_cast hlo
  have hhi' : (4 * sum : ℚ) ≤ 4 * (i * Number.unitsPerOne) + Number.unitsPerOne := by exact_mod_cast hhi
  rw [hdiv, abs_div, abs_of_pos hone, div_le_iff₀ hone, abs_le]
  constructor <;> linarith

end Program

namespace Action

theorem jump_cases (offset : Number) (s : State) :
    (∃ i, s.rom.HasIndex (Number.ofNat s.pc + offset) i ∧ jump offset s = .ok () { s with pc := i }) ∨
      (∀ i, ¬ s.rom.HasIndex (Number.ofNat s.pc + offset) i) ∧
        jump offset s = .error (.illegalJumpTarget (Number.ofNat s.pc + offset) s.rom.size) s := by
  by_cases h : ∃ i, s.rom.HasIndex (Number.ofNat s.pc + offset) i
  · obtain ⟨i, hi⟩ := h
    exact .inl ⟨i, hi, jump_index hi⟩
  · rw [not_exists] at h
    exact .inr ⟨h, jump_no_index h⟩

theorem jump_ok {offset : Number} {s next : State} (h : jump offset s = .ok () next) :
    s.rom.HasIndex (Number.ofNat s.pc + offset) next.pc ∧ next = { s with pc := next.pc } := by
  rcases jump_cases offset s with ⟨i, hi, hj⟩ | ⟨_, hj⟩
  · cases h.symm.trans hj
    exact ⟨hi, rfl⟩
  · cases h.symm.trans hj

theorem jump_error {offset : Number} {s next : State} {fault : Fault} (h : jump offset s = .error fault next) :
    fault = .illegalJumpTarget (Number.ofNat s.pc + offset) s.rom.size ∧ next = s := by
  rcases jump_cases offset s with ⟨i, _, hj⟩ | ⟨_, hj⟩
  · cases h.symm.trans hj
  · cases h.symm.trans hj
    exact ⟨rfl, rfl⟩

theorem jump_exact (s : State) (offset : Number) (hpc : s.pc ≤ s.rom.size) (hsize : s.rom.size ≤ 2 ^ 52) :
    (∀ n : Int, offset.IsWhole n →
        ((∃ next, jump offset s = .ok () next) ↔ 0 ≤ s.pc + n ∧ s.pc + n < s.rom.size) ∧
          ∀ next, jump offset s = .ok () next → (next.pc : Int) = s.pc + n) ∧
      (offset.isFinite = false → ∃ fault next, jump offset s = .error fault next) ∧
      (∀ next, jump offset s = .ok () next → |(next.pc : ℚ) - (s.pc + offset.value)| ≤ 1 / 4) ∧
      (∀ fault next, jump offset s = .error fault next →
        fault = .illegalJumpTarget (Number.ofNat s.pc + offset) s.rom.size ∧ next = s) ∧
      ∀ next, jump offset s = .ok () next → next = { s with pc := next.pc } := by
  have hpc' := hpc.trans hsize
  refine ⟨?_, ?_, ?_, fun _ _ => jump_error, fun _ h => (jump_ok h).2⟩
  · intro n hw
    have hiff (i : Nat) := Program.hasIndex_whole_iff (i := i) hpc' hsize hw
    refine ⟨⟨?_, ?_⟩, ?_⟩
    · rintro ⟨next, h⟩
      have hi := (hiff next.pc).mp (jump_ok h).1
      omega
    · rintro ⟨hlo, hhi⟩
      exact ⟨_, jump_index ((hiff (s.pc + n).toNat).mpr (by omega))⟩
    · intro next h
      exact ((hiff next.pc).mp (jump_ok h).1).2
  · intro hf
    rcases jump_cases offset s with ⟨i, hi, _⟩ | ⟨_, hj⟩
    · exact absurd hi.isFinite_offset (by simp [hf])
    · exact ⟨_, _, hj⟩
  · intro next h
    exact (jump_ok h).1.near hpc' hsize

def onLastCell : State := { State.initial (((Program.empty.emit .nop).emit .nop).emit .nop) with pc := 2 }

theorem jump_exact_onLastCell : (∃ next, jump (Number.ofInt (-2)) onLastCell = .ok () next) ∧
    (∀ next, jump (Number.ofBits 1) onLastCell = .ok () next → |(next.pc : ℚ) - (2 + (Number.ofBits 1).value)| ≤ 1 / 4) ∧
    ∃ fault next, jump Number.nan onLastCell = .error fault next := by
  have hpc : onLastCell.pc ≤ onLastCell.rom.size := by decide
  have hsize : onLastCell.rom.size ≤ 2 ^ 52 := by decide
  obtain ⟨hwhole, _⟩ := jump_exact onLastCell (Number.ofInt (-2)) hpc hsize
  obtain ⟨_, _, hnear, _⟩ := jump_exact onLastCell (Number.ofBits 1) hpc hsize
  obtain ⟨_, hnan, _⟩ := jump_exact onLastCell Number.nan hpc hsize
  obtain ⟨hiff, _⟩ := hwhole (-2) (Number.ofInt_isWhole (by decide))
  exact ⟨hiff.mpr (by decide), hnear, hnan (by decide)⟩

end Action

end StackMachine
