import RustyTorrent.Library.RustExec

/- Rust strings are UTF-8 byte vectors, and so are Lean's. These are the two directions of
   `str::from_utf8` and `as_bytes` on byte lists. -/
namespace Utf8Text
open RustExec

/-- `str::from_utf8`, with the position of the first bad byte dropped. -/
def fromUtf8 (b : Bytes) : Option String := String.fromUTF8? ⟨b.toArray⟩

def utf8Bytes (s : String) : Bytes := s.toByteArray.data.toList

theorem fromUtf8_utf8Bytes (s : String) : fromUtf8 (utf8Bytes s) = some s := by
  have same : (⟨(utf8Bytes s).toArray⟩ : ByteArray) = s.toByteArray := by
    simp [utf8Bytes]
  have valid : s.toByteArray.IsValidUTF8 := s.isValidUTF8
  simp only [fromUtf8, same, String.fromUTF8?, valid, ↓reduceDIte]
  rfl

theorem utf8Bytes_of_fromUtf8 {b : Bytes} {s : String} (h : fromUtf8 b = some s) :
    utf8Bytes s = b := by
  unfold fromUtf8 String.fromUTF8? at h
  split at h
  · have := Option.some.inj h
    subst this
    simp [utf8Bytes, String.fromUTF8]
  · simp at h

theorem fromUtf8_iff (b : Bytes) (s : String) : fromUtf8 b = some s ↔ utf8Bytes s = b := by
  constructor
  · exact utf8Bytes_of_fromUtf8
  · rintro rfl
    exact fromUtf8_utf8Bytes s

theorem utf8Bytes_injective {s t : String} (same : utf8Bytes s = utf8Bytes t) : s = t := by
  have h := fromUtf8_utf8Bytes s
  rw [same, fromUtf8_utf8Bytes] at h
  exact (Option.some.inj h).symm

@[simp] theorem utf8Bytes_inj {s t : String} : utf8Bytes s = utf8Bytes t ↔ s = t :=
  ⟨utf8Bytes_injective, congrArg utf8Bytes⟩

theorem utf8Bytes_ofList (l : List Char) :
    utf8Bytes (String.ofList l) = l.flatMap String.utf8EncodeChar := by
  simp [utf8Bytes, List.utf8Encode]

theorem utf8EncodeChar_ascii {x : UInt8} (small : x.toNat < 0x80) :
    String.utf8EncodeChar (Char.ofUInt8 x) = [x] := by
  have value : (Char.ofUInt8 x).val.toNat = x.toNat := UInt8.toNat_toUInt32 x
  have le : x.toNat ≤ 0x7f := by omega
  simp [String.utf8EncodeChar, value, le]

theorem ofUInt8_ofNat {c : Char} (ascii : c.toNat < 0x80) :
    Char.ofUInt8 (UInt8.ofNat c.toNat) = c := by
  apply Char.ext
  apply UInt32.toNat_inj.mp
  change (UInt8.ofNat c.toNat).toUInt32.toNat = c.toNat
  rw [UInt8.toNat_toUInt32, UInt8.toNat_ofNat_of_lt' (by change c.toNat < 256; omega)]

theorem utf8Size_one {c : Char} : c.utf8Size = 1 ↔ c.toNat < 0x80 := by
  rw [Char.utf8Size_eq_one_iff, UInt32.le_iff_toNat_le]
  change c.toNat ≤ 127 ↔ c.toNat < 128
  omega

theorem ascii_bytes {s : List Char} (ascii : ∀ c ∈ s, c.toNat < 0x80) :
    (s.flatMap String.utf8EncodeChar).map Char.ofUInt8 = s := by
  induction s with
  | nil => rfl
  | cons c s ih =>
    have small := ascii c (by simp)
    have value : (UInt8.ofNat c.toNat).toNat = c.toNat :=
      UInt8.toNat_ofNat_of_lt' (by change c.toNat < 256; omega)
    have one : String.utf8EncodeChar c = [UInt8.ofNat c.toNat] := by
      have encoded := @utf8EncodeChar_ascii (UInt8.ofNat c.toNat) (by omega)
      rwa [ofUInt8_ofNat small] at encoded
    rw [List.flatMap_cons, one, List.map_append, ih fun x h => ascii x (by simp [h]),
      List.map_singleton, ofUInt8_ofNat small, List.singleton_append]

theorem length_le_bytes (s : List Char) : s.length ≤ (s.flatMap String.utf8EncodeChar).length := by
  induction s with
  | nil => simp
  | cons c s ih =>
    have positive := c.utf8Size_pos
    rw [List.flatMap_cons, List.length_append, String.length_utf8EncodeChar, List.length_cons]
    omega

theorem ascii_of_length {s : List Char}
    (same : (s.flatMap String.utf8EncodeChar).length = s.length) : ∀ c ∈ s, c.toNat < 0x80 := by
  induction s with
  | nil => simp
  | cons c s ih =>
    have positive := c.utf8Size_pos
    have further := length_le_bytes s
    rw [List.flatMap_cons, List.length_append, String.length_utf8EncodeChar,
      List.length_cons] at same
    rw [List.forall_mem_cons]
    exact ⟨utf8Size_one.mp (by omega), ih (by omega)⟩

theorem ascii_encoded {b : Bytes} (ascii : ∀ x ∈ b, x.toNat < 0x80) :
    (b.map Char.ofUInt8).flatMap String.utf8EncodeChar = b := by
  rw [List.flatMap_map]
  induction b with
  | nil => rfl
  | cons x rest ih =>
    rw [List.flatMap_cons, utf8EncodeChar_ascii (ascii x (by simp)),
      ih fun y h => ascii y (by simp [h])]
    rfl

theorem fromUtf8_ascii (b : Bytes) (ascii : ∀ x ∈ b, x.toNat < 0x80) :
    ∃ s, fromUtf8 b = some s := by
  refine ⟨String.ofList (b.map Char.ofUInt8), ?_⟩
  rw [fromUtf8_iff, utf8Bytes_ofList, ascii_encoded ascii]

theorem encoded_ascii_iff {s : List Char} {b : Bytes} (ascii : ∀ x ∈ b, x.toNat < 0x80) :
    s.flatMap String.utf8EncodeChar = b ↔ s = b.map Char.ofUInt8 := by
  constructor
  · intro encoded
    rw [← ascii_encoded ascii, ← utf8Bytes_ofList, ← utf8Bytes_ofList] at encoded
    exact String.ofList_inj.mp (utf8Bytes_injective encoded)
  · rintro rfl
    exact ascii_encoded ascii

def replacement : Char := Char.ofNat 0xfffd

def isContinuation (b : UInt8) : Bool := 0x80 ≤ b && b ≤ 0xbf

def secondFits (first second : UInt8) : Bool :=
  if first = 0xe0 then 0xa0 ≤ second && second ≤ 0xbf
  else if first = 0xed then 0x80 ≤ second && second ≤ 0x9f
  else if first = 0xf0 then 0x90 ≤ second && second ≤ 0xbf
  else if first = 0xf4 then 0x80 ≤ second && second ≤ 0x8f
  else isContinuation second

def scalar (lead : Nat) (following : Bytes) : Char :=
  Char.ofNat (following.foldl (fun n b => n * 64 + (b.toNat - 0x80)) lead)

/-- The first character of a text and how many bytes after the first one it takes. Of a
    broken sequence the longest part that could still become valid is replaced as one. -/
def lossyFirst (b : UInt8) (rest : Bytes) : Char × Nat :=
  if b < 0x80 then (Char.ofUInt8 b, 0)
  else if 0xc2 ≤ b ∧ b ≤ 0xdf then
    match rest with
    | c :: _ => if isContinuation c then (scalar (b.toNat - 0xc0) [c], 1) else (replacement, 0)
    | [] => (replacement, 0)
  else if 0xe0 ≤ b ∧ b ≤ 0xef then
    match rest with
    | c :: d :: _ =>
        if secondFits b c then
          if isContinuation d then (scalar (b.toNat - 0xe0) [c, d], 2) else (replacement, 1)
        else (replacement, 0)
    | [c] => (replacement, if secondFits b c then 1 else 0)
    | [] => (replacement, 0)
  else if 0xf0 ≤ b ∧ b ≤ 0xf4 then
    match rest with
    | c :: d :: e :: _ =>
        if secondFits b c then
          if isContinuation d then
            if isContinuation e then (scalar (b.toNat - 0xf0) [c, d, e], 3) else (replacement, 2)
          else (replacement, 1)
        else (replacement, 0)
    | [c, d] => (replacement, if secondFits b c then if isContinuation d then 2 else 1 else 0)
    | [c] => (replacement, if secondFits b c then 1 else 0)
    | [] => (replacement, 0)
  else (replacement, 0)

def lossyChars : Nat → Bytes → List Char
  | 0, _ => []
  | _, [] => []
  | fuel + 1, b :: rest =>
      (lossyFirst b rest).1 :: lossyChars fuel (rest.drop (lossyFirst b rest).2)

/-- `String::from_utf8_lossy` -/
def fromUtf8Lossy (b : Bytes) : String := String.ofList (lossyChars b.length b)

end Utf8Text
