import Mathlib.Data.List.Induction
import StackMachine.Proofs.Cycles

namespace StackMachine

namespace Writer

def Fits (w : Writer) (text : String) : Prop := ∀ room, w.room = some room → text.utf8ByteSize ≤ room

def kept (w : Writer) (text : String) : ByteArray :=
  match w.room with
  | none => text.toUTF8
  | some room => text.toUTF8.extract 0 room

def taking (w : Writer) (text : String) : Writer :=
  { w with accepted := w.accepted ++ w.kept text, room := w.room.map (· - text.utf8ByteSize) }

theorem fits_of_unlimited {w : Writer} (h : w.room = none) (text : String) : w.Fits text := by
  intro room hr
  cases h.symm.trans hr

theorem fits_iff {w : Writer} {room : Nat} (h : w.room = some room) (text : String) :
    w.Fits text ↔ text.utf8ByteSize ≤ room := by
  constructor
  · intro hf
    exact hf room h
  · intro hle room' hr
    cases h.symm.trans hr
    exact hle

instance (w : Writer) (text : String) : Decidable (w.Fits text) :=
  match h : w.room with
  | none => isTrue (fits_of_unlimited h text)
  | some _ => decidable_of_iff _ (fits_iff h text).symm

theorem kept_of_room {w : Writer} {room : Nat} (h : w.room = some room) (text : String) :
    w.kept text = text.toUTF8.extract 0 (min room text.utf8ByteSize) := by
  rw [kept, h]
  calc text.toUTF8.extract 0 room
      = (text.toUTF8.extract 0 text.toUTF8.size).extract 0 room := by rw [ByteArray.extract_zero_size]
    _ = text.toUTF8.extract 0 (min room text.utf8ByteSize) := by simp [ByteArray.extract_extract]

theorem write_of_fits {w : Writer} {text : String} (h : w.Fits text) : write text w = .ok () (w.taking text) := by
  obtain ⟨accepted, room, flushable⟩ := w
  cases room with
  | none => rfl
  | some room =>
    have hle : text.toUTF8.size ≤ room := h room rfl
    have hkept : text.toUTF8.extract 0 room = text.toUTF8 := by
      rw [← Nat.max_eq_left hle, ByteArray.extract_zero_max_size]
    simp only [write, taking, kept, if_pos hle, hkept]
    rfl

theorem write_of_not_fits {w : Writer} {text : String} (h : ¬ w.Fits text) :
    write text w = .error .closed (w.taking text) := by
  obtain ⟨accepted, room, flushable⟩ := w
  cases room with
  | none => exact absurd (fits_of_unlimited rfl text) h
  | some room =>
    have hlt : ¬ text.toUTF8.size ≤ room := fun hle => h ((fits_iff rfl text).mpr hle)
    have hfull : room - text.toUTF8.size = 0 := by omega
    simp only [write, taking, kept, if_neg hlt, Option.map_some, ← hfull]
    rfl

theorem taking_empty (w : Writer) : w.taking "" = w := by
  obtain ⟨accepted, room, flushable⟩ := w
  cases room with
  | none => simp [taking, kept]
  | some room =>
    have hempty : ByteArray.empty.extract 0 room = ByteArray.empty := by simp [ByteArray.extract_eq_empty_iff]
    simp [taking, kept, hempty]

theorem taking_taking (w : Writer) (a b : String) : (w.taking a).taking b = w.taking (a ++ b) := by
  obtain ⟨accepted, room, flushable⟩ := w
  cases room with
  | none => simp [taking, kept, ByteArray.append_assoc]
  | some room => simp [taking, kept, ByteArray.extract_append, ByteArray.append_assoc, Nat.sub_sub]

theorem taking_of_full {w : Writer} (h : w.room = some 0) (text : String) : w.taking text = w := by
  obtain ⟨accepted, room, flushable⟩ := w
  cases h
  simp [taking, kept]

theorem full_of_not_fits {w : Writer} {text : String} (h : ¬ w.Fits text) : (w.taking text).room = some 0 := by
  obtain ⟨accepted, room, flushable⟩ := w
  cases room with
  | none => exact absurd (fits_of_unlimited rfl text) h
  | some room =>
    rw [fits_iff rfl] at h
    simp only [taking, Option.map_some, Option.some.injEq]
    omega

theorem fits_append_iff {w : Writer} {a b : String} : w.Fits (a ++ b) ↔ w.Fits a ∧ (w.taking a).Fits b := by
  obtain ⟨accepted, room, flushable⟩ := w
  cases room with
  | none => simp [fits_of_unlimited, taking]
  | some room =>
    let w : Writer := ⟨accepted, some room, flushable⟩
    have hw : w.room = some room := rfl
    have hleft : (w.taking a).room = some (room - a.utf8ByteSize) := rfl
    rw [fits_iff hw, fits_iff hw, fits_iff hleft, String.utf8ByteSize_append]
    omega

theorem taking_fits_iff {w : Writer} {a b : String} (hb : b ≠ "") : (w.taking a).Fits b ↔ w.Fits (a ++ b) := by
  refine fits_append_iff.trans (and_iff_right_of_imp ?_) |>.symm
  intro hf
  by_contra ha
  have hle := hf 0 (full_of_not_fits ha)
  exact hb (String.utf8ByteSize_eq_zero_iff.mp (Nat.le_zero.mp hle))

theorem write_append (a b : String) : write (a ++ b) = (do write a; write b) := by
  funext w
  by_cases ha : w.Fits a
  · rw [bind_ok (write_of_fits ha)]
    by_cases hb : (w.taking a).Fits b
    · rw [write_of_fits hb, write_of_fits (fits_append_iff.mpr ⟨ha, hb⟩), taking_taking]
    · have hab : ¬ w.Fits (a ++ b) := fun h => hb (fits_append_iff.mp h).2
      rw [write_of_not_fits hb, write_of_not_fits hab, taking_taking]
  · have hab : ¬ w.Fits (a ++ b) := fun h => ha (fits_append_iff.mp h).1
    rw [bind_error (write_of_not_fits ha), write_of_not_fits hab, ← taking_taking,
      taking_of_full (full_of_not_fits ha)]

end Writer

namespace Number

def line (x : Number) : String := x.text ++ "\n"

def lines (values : List Number) : String := String.join (values.map line)

theorem lines_concat (values : List Number) (x : Number) : lines (values ++ [x]) = lines values ++ x.line := by
  simp [lines]

theorem line_ne_empty (x : Number) : x.line ≠ "" := by
  simp [line]

end Number

theorem Sink.accept_concat {σ : Type} [Sink σ] (output : σ) (values : List Number) (x : Number) :
    accept output (values ++ [x]) = (emit (accept output values) x).1 := by
  rw [accept, List.foldl_append]
  rfl

namespace LineSink

theorem emit_eq (sink : LineSink) (x : Number) : (Sink.emit sink x).1 =
    { writer := sink.writer.taking x.line, emitted := sink.emitted + if sink.writer.Fits x.line then 1 else 0 } := by
  by_cases h : sink.writer.Fits x.line
  · have hw : Writer.write (x.text ++ "\n") sink.writer = _ := Writer.write_of_fits h
    simp only [Sink.emit, hw, if_pos h]
    rfl
  · have hw : Writer.write (x.text ++ "\n") sink.writer = _ := Writer.write_of_not_fits h
    simp only [Sink.emit, hw, if_neg h, Nat.add_zero]
    rfl

def wholeLines (w : Writer) (values : List Number) : Nat :=
  (List.range values.length).countP fun i => w.Fits (Number.lines (values.take (i + 1)))

theorem wholeLines_concat (w : Writer) (values : List Number) (x : Number) : wholeLines w (values ++ [x]) =
    wholeLines w values + if (w.taking (Number.lines values)).Fits x.line then 1 else 0 := by
  have hinit : (List.range values.length).countP (fun i => w.Fits (Number.lines ((values ++ [x]).take (i + 1)))) =
      wholeLines w values := by
    apply List.countP_congr
    intro i hi
    rw [List.take_append_of_le_length (List.mem_range.mp hi)]
  have hlast : (values ++ [x]).take (values.length + 1) = values ++ [x] := List.take_of_length_le (by simp)
  rw [wholeLines, List.length_append, List.length_singleton, List.range_succ, List.countP_append, hinit,
    List.countP_singleton, hlast, Number.lines_concat]
  simp only [decide_eq_true_eq, Writer.taking_fits_iff x.line_ne_empty]

theorem accept_eq (sink : LineSink) (values : List Number) : Sink.accept sink values =
    { writer := sink.writer.taking (Number.lines values),
      emitted := sink.emitted + wholeLines sink.writer values } := by
  induction values using List.reverseRecOn with
  | nil =>
    have hempty : Number.lines [] = "" := rfl
    rw [hempty, Writer.taking_empty]
    rfl
  | append_singleton values x ih =>
    rw [Sink.accept_concat, ih, emit_eq, Writer.taking_taking, ← Number.lines_concat, wholeLines_concat, Nat.add_assoc]

end LineSink

end StackMachine
