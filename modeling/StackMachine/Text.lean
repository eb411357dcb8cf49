namespace StackMachine

namespace Text

/-- First and last code points of the runs with the Unicode property White_Space, in increasing order. -/
def blankRanges : List (Nat × Nat) :=
  [(0x09, 0x0D), (0x20, 0x20), (0x85, 0x85), (0xA0, 0xA0), (0x1680, 0x1680), (0x2000, 0x200A),
    (0x2028, 0x2029), (0x202F, 0x202F), (0x205F, 0x205F), (0x3000, 0x3000)]

def isBlank (c : Char) : Bool :=
  blankRanges.any fun (first, last) => first ≤ c.toNat && c.toNat ≤ last

/-- The lines of a text. Each keeps the line feed that ends it, and there is no line after the last line feed. -/
def lines (text : List Char) : List (List Char) :=
  text.foldr (fun c rest =>
    if c = '\n' then [c] :: rest
    else match rest with
      | [] => [[c]]
      | line :: rest => (c :: line) :: rest) []

theorem lines_cons (c : Char) (text : List Char) :
    lines (c :: text) = if c = '\n' then [c] :: lines text
      else match lines text with
        | [] => [[c]]
        | line :: rest => (c :: line) :: rest := rfl

theorem flatten_lines (text : List Char) : (lines text).flatten = text := by
  induction text with
  | nil => rfl
  | cons c text ih =>
    rw [lines_cons]
    split
    · simp [ih]
    · split <;> simp_all

def lastLines (count : Nat) (text : List Char) : List Char :=
  let all := lines text
  (all.drop (all.length - count)).flatten

def stripEnd? (c : Char) (line : List Char) : Option (List Char) :=
  if line.getLast? = some c then some line.dropLast else none

/-- A line without its line feed, and without the carriage return that stands before a line feed. -/
def chomp (line : List Char) : List Char :=
  match stripEnd? '\n' line with
  | none => line
  | some line => (stripEnd? '\r' line).getD line

end Text

/-- A text of the operating system: bytes, which need not be the encoding of characters. -/
structure RawText where
  bytes : List UInt8
deriving DecidableEq

namespace RawText

instance : Append RawText := ⟨fun a b => ⟨a.bytes ++ b.bytes⟩⟩

def ofText (text : String) : RawText := ⟨text.toByteArray.data.toList⟩

instance : Coe String RawText := ⟨ofText⟩

def text? (raw : RawText) : Option String := String.fromUTF8? raw.bytes.toByteArray

def isEmpty (raw : RawText) : Bool := raw.bytes.isEmpty

/-- What the bytes of a character after its first may be, by the first. -/
def continuations (first : UInt8) : List (UInt8 × UInt8) :=
  let any : UInt8 × UInt8 := (0x80, 0xBF)
  if first < 0xC2 then []
  else if first < 0xE0 then [any]
  else if first = 0xE0 then [(0xA0, 0xBF), any]
  else if first = 0xED then [(0x80, 0x9F), any]
  else if first < 0xF0 then [any, any]
  else if first = 0xF0 then [(0x90, 0xBF), any, any]
  else if first < 0xF4 then [any, any, any]
  else if first = 0xF4 then [(0x80, 0x8F), any, any]
  else []

def brokenCount (first : UInt8) (rest : List UInt8) : Nat :=
  ((rest.zip (continuations first)).takeWhile fun (byte, least, last) => least ≤ byte && byte ≤ last).length

/-- The characters of the bytes that are left after the first `skip`; what is broken off shows as one mark. -/
def shown : Nat → List UInt8 → List Char
  | _, [] => []
  | skip + 1, _ :: rest => shown skip rest
  | 0, first :: rest =>
    match (first :: rest).toByteArray.utf8DecodeChar? 0 with
    | some c => c :: shown (c.utf8Size - 1) rest
    | none => '\uFFFD' :: shown (brokenCount first rest) rest

def display (raw : RawText) : String := String.ofList (shown 0 raw.bytes)

theorem bytes_append (a b : RawText) : (a ++ b).bytes = a.bytes ++ b.bytes := rfl

theorem ofText_append (a b : String) : ofText (a ++ b) = ofText a ++ ofText b := by
  simp only [ofText, String.toByteArray_append, ByteArray.data_append, Array.toList_append]
  rfl

theorem bytes_ofText (text : String) : (ofText text).bytes = text.toList.flatMap String.utf8EncodeChar := by
  have h : text.toByteArray = text.toList.utf8Encode := by
    rw [← String.toByteArray_ofList, String.ofList_toList]
  rw [ofText, h, List.utf8Encode, List.data_toByteArray]

theorem toByteArray_bytes_ofText (text : String) : (ofText text).bytes.toByteArray = text.toByteArray := by
  apply ByteArray.ext
  rw [ofText, List.data_toByteArray, Array.toArray_toList]

theorem text?_eq_some_iff {raw : RawText} {text : String} : raw.text? = some text ↔ raw = ofText text := by
  rw [text?, String.fromUTF8?]
  constructor
  · intro h
    split at h
    · have htext : text.toByteArray = raw.bytes.toByteArray := by
        rw [← Option.some.inj h]
        rfl
      rw [ofText, htext, List.data_toByteArray]
    · cases h
  · rintro rfl
    rw [toByteArray_bytes_ofText, dif_pos text.isValidUTF8]
    rfl

theorem ofText_inj {a b : String} : ofText a = ofText b ↔ a = b := by
  constructor
  · intro h
    exact Option.some.inj ((text?_eq_some_iff.mpr rfl).symm.trans (text?_eq_some_iff.mpr h))
  · exact congrArg ofText

theorem shown_append (skipped rest : List UInt8) : shown skipped.length (skipped ++ rest) = shown 0 rest := by
  induction skipped with
  | nil => rfl
  | cons byte skipped ih => exact ih

theorem shown_char (c : Char) (rest : List UInt8) :
    shown 0 (String.utf8EncodeChar c ++ rest) = c :: shown 0 rest := by
  have hdecode : (String.utf8EncodeChar c ++ rest).toByteArray.utf8DecodeChar? 0 = some c := by
    rw [List.toByteArray_append]
    exact ByteArray.utf8DecodeChar?_utf8EncodeChar_append
  have hlength := String.length_utf8EncodeChar c
  obtain ⟨first, others, he⟩ := List.exists_cons_of_ne_nil (String.utf8EncodeChar_ne_nil (c := c))
  rw [he, List.length_cons] at hlength
  rw [he, List.cons_append] at hdecode ⊢
  rw [shown, hdecode]
  simp only
  rw [← hlength, Nat.add_sub_cancel, shown_append]

theorem display_ofText (text : String) : (ofText text).display = text := by
  have h (chars : List Char) : shown 0 (chars.flatMap String.utf8EncodeChar) = chars := by
    induction chars with
    | nil => rfl
    | cons c chars ih => rw [List.flatMap_cons, shown_char, ih]
  rw [display, bytes_ofText, h, String.ofList_toList]

end RawText

end StackMachine
