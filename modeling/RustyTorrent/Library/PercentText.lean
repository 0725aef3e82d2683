import RustyTorrent.Library.Numerals

/- Texts as they stand in URLs: hexadecimal digits, `%XX` escapes, and parameters that are
   cut at `&` and at the first `=`. Characters are kept as lists. -/
namespace PercentText
open RustExec Numerals

/-- `char::to_digit(16)` -/
def hexValue (c : Char) : Option Nat :=
  if '0' ≤ c ∧ c ≤ '9' then some (c.toNat - 48)
  else if 'a' ≤ c ∧ c ≤ 'f' then some (c.toNat - 87)
  else if 'A' ≤ c ∧ c ≤ 'F' then some (c.toNat - 55)
  else none

inductive ParseIntError where
  | empty
  | invalidDigit
  | posOverflow
  deriving DecidableEq, Repr

def ParseIntError.text : ParseIntError → String
  | .empty => "cannot parse integer from empty string"
  | .invalidDigit => "invalid digit found in string"
  | .posOverflow => "number too large to fit in target type"

def hexDigitsValue : Nat → List Char → Except ParseIntError Nat
  | acc, [] => .ok acc
  | acc, c :: rest =>
      match hexValue c with
      | none => .error .invalidDigit
      | some d => if acc * 16 + d < 256 then hexDigitsValue (acc * 16 + d) rest
          else .error .posOverflow

/-- `u8::from_str_radix` with radix 16, which takes a leading plus sign. -/
def byteFromHex (s : List Char) : Except ParseIntError UInt8 :=
  match s with
  | [] => .error .empty
  | c :: rest =>
      if (c = '+' ∨ c = '-') ∧ rest = [] then .error .invalidDigit
      else (hexDigitsValue 0 (if c = '+' then rest else c :: rest)).map UInt8.ofNat

/-- `{:02x}` -/
def lowerHex (b : UInt8) : List Char := [Nat.digitChar (b.toNat / 16), Nat.digitChar (b.toNat % 16)]

def upperHex (b : UInt8) : List Char := (lowerHex b).map Char.toUpper

def percentByte (b : UInt8) : List Char := '%' :: upperHex b

def decimalText (n : Nat) : List Char := (decimal n).map Char.ofUInt8

def splitFirst (separator : Char) : List Char → List Char × Option (List Char)
  | [] => ([], none)
  | c :: rest =>
      if c = separator then ([], some rest)
      else ((c :: (splitFirst separator rest).1), (splitFirst separator rest).2)

def percentDecode : List Char → Option Bytes
  | [] => some []
  | c :: rest =>
      if c = '%' then
        match rest with
        | high :: low :: rest =>
            match hexValue high, hexValue low with
            | some h, some l => (percentDecode rest).map (UInt8.ofNat (h * 16 + l) :: ·)
            | _, _ => none
        | _ => none
      else if c.toNat < 128 then (percentDecode rest).map (UInt8.ofNat c.toNat :: ·)
      else none

theorem hexValue_digitChar : ∀ d < 16, hexValue (Nat.digitChar d) = some d := by decide

theorem hexValue_upper : ∀ d < 16, hexValue (Nat.digitChar d).toUpper = some d := by decide

theorem hexValue_lt {c : Char} {d : Nat} (digit : hexValue c = some d) : d < 16 := by
  have tops : '0'.val.toNat = 48 ∧ '9'.val.toNat = 57 ∧ 'a'.val.toNat = 97 ∧ 'f'.val.toNat = 102 ∧
      'A'.val.toNat = 65 ∧ 'F'.val.toNat = 70 := by decide
  simp only [hexValue, Char.le_def, UInt32.le_iff_toNat_le] at digit
  change (if _ ∧ _ then some (c.val.toNat - 48) else if _ ∧ _ then some (c.val.toNat - 87)
    else if _ ∧ _ then some (c.val.toNat - 55) else none) = some d at digit
  split_ifs at digit <;> simp only [Option.some.injEq] at digit <;> omega

theorem hex_digit_chars {c : Char} {d : Nat} (digit : hexValue c = some d) :
    c.toNat < 128 ∧ c ≠ '+' ∧ c ≠ '-' ∧ c ≠ '&' := by
  have small : c.toNat < 128 := by
    simp only [hexValue, Char.le_def, UInt32.le_iff_toNat_le] at digit
    change c.val.toNat < 128
    have tops : ('9'.val.toNat < 128 ∧ 'f'.val.toNat < 128 ∧ 'F'.val.toNat < 128) := by decide
    split at digit
    · omega
    · split at digit
      · omega
      · split at digit
        · omega
        · cases digit
  refine ⟨small, ?_, ?_, ?_⟩ <;> rintro rfl <;> simp [hexValue] at digit

theorem byteFromHex_one {c : Char} {b : UInt8} :
    byteFromHex [c] = .ok b ↔ ∃ d, hexValue c = some d ∧ b = UInt8.ofNat d := by
  have plus : hexValue '+' = none := by decide
  have minus : hexValue '-' = none := by decide
  by_cases sign : c = '+' ∨ c = '-'
  · rcases sign with rfl | rfl <;> simp [byteFromHex, plus, minus]
  · rw [not_or] at sign
    cases digit : hexValue c with
    | none => simp [byteFromHex, sign, hexDigitsValue, digit, Except.map]
    | some d =>
      have fits : d < 256 := Nat.lt_trans (hexValue_lt digit) (by decide)
      simp [byteFromHex, sign, hexDigitsValue, digit, fits, Except.map, eq_comm]

theorem byteFromHex_two {high low : Char} {b : UInt8} :
    byteFromHex [high, low] = .ok b ↔ ∃ l, hexValue low = some l ∧
      (high = '+' ∧ b = UInt8.ofNat l ∨
        ∃ h, hexValue high = some h ∧ b = UInt8.ofNat (h * 16 + l)) := by
  have plus : hexValue '+' = none := by decide
  by_cases sign : high = '+'
  · subst sign
    cases second : hexValue low with
    | none => simp [byteFromHex, hexDigitsValue, second, Except.map]
    | some l =>
      have fits : l < 256 := Nat.lt_trans (hexValue_lt second) (by decide)
      simp [byteFromHex, hexDigitsValue, second, fits, plus, Except.map, eq_comm]
  · cases first : hexValue high with
    | none => simp [byteFromHex, sign, hexDigitsValue, first, Except.map]
    | some h =>
      have inside := hexValue_lt first
      have fits : h < 256 := by omega
      cases second : hexValue low with
      | none => simp [byteFromHex, sign, hexDigitsValue, first, second, fits, Except.map]
      | some l =>
        have last := hexValue_lt second
        have both : h * 16 + l < 256 := by omega
        simp [byteFromHex, sign, hexDigitsValue, first, second, fits, both, Except.map, eq_comm]

theorem byte_halves (b : UInt8) :
    b.toNat / 16 < 16 ∧ b.toNat % 16 < 16 ∧ b.toNat / 16 * 16 + b.toNat % 16 = b.toNat := by
  have small := b.toNat_lt
  omega

theorem splitFirst_found {separator : Char} {key value : List Char} (absent : separator ∉ key) :
    splitFirst separator (key ++ separator :: value) = (key, some value) := by
  induction key with
  | nil => simp [splitFirst]
  | cons c key ih =>
    rw [List.mem_cons, not_or] at absent
    simp [splitFirst, ih absent.2, Ne.symm absent.1]

theorem splitFirst_none {separator : Char} {text : List Char} (absent : separator ∉ text) :
    splitFirst separator text = (text, none) := by
  induction text with
  | nil => rfl
  | cons c text ih =>
    rw [List.mem_cons, not_or] at absent
    simp [splitFirst, ih absent.2, Ne.symm absent.1]

theorem splitFirst_absent (separator : Char) (text : List Char) :
    separator ∉ (splitFirst separator text).1 := by
  induction text with
  | nil => simp [splitFirst]
  | cons c text ih =>
    unfold splitFirst
    split_ifs with here
    · simp
    · simp [ih, Ne.symm here]

theorem splitOn_absent {separator : Char} {text piece : List Char}
    (member : piece ∈ text.splitOn separator) : separator ∉ piece := by
  induction text generalizing piece with
  | nil =>
    rw [List.splitOn_nil, List.mem_singleton] at member
    simp [member]
  | cons c text ih =>
    rw [List.splitOn_cons_eq_if_modifyHead] at member
    split at member
    · rcases List.mem_cons.mp member with rfl | later
      · simp
      · exact ih later
    · rename_i other
      obtain ⟨first, later, pieces⟩ :=
        List.exists_cons_of_ne_nil (List.splitOn_ne_nil separator text)
      rw [beq_iff_eq] at other
      rw [pieces] at member ih
      rcases List.mem_cons.mp member with rfl | behind
      · simp [ih List.mem_cons_self, Ne.symm other]
      · exact ih (List.mem_cons_of_mem _ behind)

theorem percentDecode_byte (b : UInt8) (rest : List Char) :
    percentDecode (percentByte b ++ rest) = (percentDecode rest).map (b :: ·) := by
  obtain ⟨high, low, sum⟩ := byte_halves b
  simp only [percentByte, upperHex, lowerHex, List.map_cons, List.map_nil, List.cons_append,
    List.nil_append, percentDecode, ↓reduceIte, hexValue_upper _ high, hexValue_upper _ low, sum,
    UInt8.ofNat_toNat]

theorem percentDecode_bytes (bytes : Bytes) :
    percentDecode (bytes.flatMap percentByte) = some bytes := by
  induction bytes with
  | nil => rfl
  | cons b bytes ih => rw [List.flatMap_cons, percentDecode_byte, ih, Option.map_some]

theorem percentDecode_plain {c : Char} (plain : c ≠ '%') (ascii : c.toNat < 128)
    (rest : List Char) :
    percentDecode (c :: rest) = (percentDecode rest).map (UInt8.ofNat c.toNat :: ·) := by
  rw [percentDecode.eq_def (c :: rest)]
  simp only [plain, ↓reduceIte, ascii]

theorem percentDecode_ascii (bytes : Bytes) (plain : ∀ b ∈ bytes, b.toNat < 128 ∧ b ≠ 0x25) :
    percentDecode (bytes.map Char.ofUInt8) = some bytes := by
  induction bytes with
  | nil => rfl
  | cons b bytes ih =>
    obtain ⟨ascii, other⟩ := plain b (by simp)
    have value : (Char.ofUInt8 b).toNat = b.toNat := UInt8.toNat_toUInt32 b
    have differs : Char.ofUInt8 b ≠ '%' := by
      intro same
      apply other
      rw [← UInt8.toNat_inj, ← value, same]
      rfl
    rw [List.map_cons, percentDecode_plain differs (by omega), value, UInt8.ofNat_toNat,
      ih fun x h => plain x (by simp [h]), Option.map_some]

theorem percentDecode_decimal (n : Nat) : percentDecode (decimalText n) = some (decimal n) := by
  apply percentDecode_ascii
  intro b member
  have digit := decimal_digits n b member
  rw [is_digit_iff] at digit
  constructor
  · omega
  · rintro rfl
    simp at digit

end PercentText
