import Mathlib.Data.List.Forall2
import RustyTorrent.Bencode.CanonicalEncoding

/- What an accepted text without dictionaries can add to the canonical encoding of its value.
   `str::parse` takes a plus sign, leading zeros and `-0`, so numerals need not be canonical;
   nothing else of the text is free. -/
namespace RedundantNumerals
open RustExec OrderedMaps Utf8Text Numerals BencodeValue BencodeDecoder BencodeGrammar
  BencodeRecognition CanonicalEncoding

variable {p : Profile}

mutual

def dictFree : Value → Bool
  | .integer _ => true
  | .bytes _ => true
  | .list items => itemsFree items
  | .dict _ => false

def itemsFree : List Value → Bool
  | [] => true
  | item :: items => dictFree item && itemsFree items

end

/-- The encoding of a value in pieces: numerals, and what stands between them. -/
inductive Piece where
  | mark (b : Bytes)
  | integer (n : Int64)
  | length (n : Nat)

mutual

def pieces : Value → List Piece
  | .integer n => [.mark [letterI], .integer n, .mark [letterE]]
  | .bytes b => [.length b.length, .mark (colon :: b)]
  | .list items => .mark [letterL] :: itemPieces items ++ [.mark [letterE]]
  | .dict map => [.mark (enc (.dict map))]

def itemPieces : List Value → List Piece
  | [] => []
  | item :: items => pieces item ++ itemPieces items

end

def canonical : Piece → Bytes
  | .mark b => b
  | .integer n => decimalInt n.toInt
  | .length n => decimal n

/-- A text of a piece. A numeral can have a redundant sign and leading zeros. -/
def Writes (text : Bytes) : Piece → Prop
  | .mark b => text = b
  | .integer n => ∃ sign zeros, SignFor n.toInt sign ∧
      text = sign ++ (List.replicate zeros zeroDigit ++ decimal n.toInt.natAbs)
  | .length n => ∃ zeros, text = List.replicate zeros zeroDigit ++ decimal n

mutual

theorem enc_pieces : (v : Value) → enc v = ((pieces v).map canonical).flatten
  | .integer n => by simp [enc, pieces, canonical]
  | .bytes b => by simp [enc, encBytes, pieces, canonical]
  | .list items => by
      have inner := encItems_pieces items
      simp [enc, pieces, canonical, inner]
  | .dict map => by simp [pieces, canonical]

theorem encItems_pieces :
    (items : List Value) → encItems items = ((itemPieces items).map canonical).flatten
  | [] => by simp [encItems, itemPieces]
  | item :: items => by
      have first := enc_pieces item
      have rest := encItems_pieces items
      simp [encItems, itemPieces, first, rest]

end

def Written : Phrase → Bytes → Prop
  | .value v, s => dictFree v = true → ∃ texts, List.Forall₂ Writes texts (pieces v) ∧
      s = texts.flatten
  | .items vs, s => itemsFree vs = true → ∃ texts, List.Forall₂ Writes texts (itemPieces vs) ∧
      s = texts.flatten
  | .pairs _, _ => True

theorem spelled_written {ph : Phrase} {s : Bytes} (spelled : Spells ph s) : Written ph s := by
  induction spelled with
  | @integer n raw reads =>
    intro _
    obtain ⟨sign, zeros, signed, shape⟩ := parseI64_iff.mp reads
    refine ⟨[[letterI], raw, [letterE]], ?_, by simp⟩
    exact .cons rfl (.cons ⟨sign, zeros, signed, shape⟩ (.cons rfl .nil))
  | @bytes b c raw first reads =>
    intro _
    obtain ⟨-, zeros, shape⟩ := (parseUsize_digit_iff first).mp reads
    exact ⟨[c :: raw, colon :: b], .cons ⟨zeros, shape⟩ (.cons rfl .nil), by simp⟩
  | list items ih =>
    intro free
    obtain ⟨texts, written, rfl⟩ := ih free
    refine ⟨[letterL] :: (texts ++ [[letterE]]), ?_, by simp⟩
    exact .cons rfl (List.rel_append written (.cons rfl .nil))
  | dict pairs ih =>
    intro free
    simp [dictFree] at free
  | noItems => exact fun _ => ⟨[], .nil, rfl⟩
  | item first rest ihv ihs =>
    intro free
    simp only [itemsFree, Bool.and_eq_true] at free
    obtain ⟨texts, written, rfl⟩ := ihv free.1
    obtain ⟨others, later, rfl⟩ := ihs free.2
    exact ⟨texts ++ others, List.rel_append written later, by simp⟩
  | noPairs => trivial
  | pair key value rest ihk ihv ihs => trivial

theorem written_append {texts : List Bytes} {one other : List Piece}
    (written : List.Forall₂ Writes texts (one ++ other)) :
    ∃ first later, texts = first ++ later ∧ List.Forall₂ Writes first one ∧
      List.Forall₂ Writes later other :=
  ⟨texts.take one.length, texts.drop one.length, (List.take_append_drop _ _).symm,
    List.forall₂_take_append _ _ _ written, List.forall₂_drop_append _ _ _ written⟩

theorem integer_spelled {n : Int64} {texts : List Bytes}
    (written : List.Forall₂ Writes texts (pieces (.integer n))) :
    Spells (.value (.integer n)) texts.flatten := by
  simp only [pieces, List.forall₂_cons_right_iff, List.forall₂_nil_right_iff] at written
  obtain ⟨_, _, rfl, ⟨raw, _, ⟨sign, zeros, signed, shape⟩, ⟨_, _, rfl, rfl, rfl⟩, rfl⟩, rfl⟩ :=
    written
  have reads := parseI64_iff.mpr ⟨sign, zeros, signed, shape⟩
  simpa using Spells.integer reads

theorem bytes_spelled {b : Bytes} {texts : List Bytes}
    (written : List.Forall₂ Writes texts (pieces (.bytes b)))
    (fits : texts.flatten.length < 2 ^ 63) : Spells (.value (.bytes b)) texts.flatten := by
  simp only [pieces, List.forall₂_cons_right_iff, List.forall₂_nil_right_iff] at written
  obtain ⟨text, _, ⟨zeros, shape⟩, ⟨_, _, rfl, rfl, rfl⟩, rfl⟩ := written
  have small : b.length < 2 ^ 64 := by
    simp only [List.flatten_cons, List.flatten_nil, List.length_append, List.length_cons] at fits
    omega
  have digits := numeral_digits zeros b.length
  cases text with
  | nil => exact absurd shape.symm (numeral_ne_nil zeros b.length)
  | cons c raw =>
    rw [← shape] at digits
    have first := digits c (by simp)
    have reads := (parseUsize_digit_iff first).mpr ⟨small, zeros, shape⟩
    simpa using Spells.bytes first reads

mutual

theorem written_spells : (v : Value) → {texts : List Bytes} → dictFree v = true →
    List.Forall₂ Writes texts (pieces v) → texts.flatten.length < 2 ^ 63 →
    Spells (.value v) texts.flatten
  | .integer n, _, _, written, _ => integer_spelled written
  | .bytes b, _, _, written, fits => bytes_spelled written fits
  | .list items, texts, free, written, fits => by
      simp only [pieces, List.cons_append, List.forall₂_cons_right_iff] at written
      obtain ⟨_, _, rfl, written, rfl⟩ := written
      obtain ⟨inner, close, rfl, one, closed⟩ := written_append written
      simp only [List.forall₂_cons_right_iff, List.forall₂_nil_right_iff] at closed
      obtain ⟨_, _, rfl, rfl, rfl⟩ := closed
      have small : inner.flatten.length < 2 ^ 63 := by
        simp only [List.flatten_cons, List.flatten_append, List.length_append] at fits
        omega
      have items := written_items items free one small
      simpa using Spells.list items
  | .dict _, _, free, _, _ => by simp [dictFree] at free

theorem written_items : (vs : List Value) → {texts : List Bytes} → itemsFree vs = true →
    List.Forall₂ Writes texts (itemPieces vs) → texts.flatten.length < 2 ^ 63 →
    Spells (.items vs) texts.flatten
  | [], _, _, written, _ => by
      obtain rfl := List.forall₂_nil_right_iff.mp written
      exact .noItems
  | v :: vs, _, free, written, fits => by
      simp only [itemsFree, Bool.and_eq_true] at free
      obtain ⟨first, later, rfl, one, others⟩ := written_append written
      rw [List.flatten_append, List.length_append] at fits
      rw [List.flatten_append]
      exact .item (written_spells v free.1 one (by omega))
        (written_items vs free.2 others (by omega))

end

def Shortest (short long : Bytes) : Prop :=
  short.length ≤ long.length ∧ (long.length = short.length → long = short)

theorem shortest_without_zeros (sign d : Bytes) (zeros : Nat) :
    Shortest (sign ++ d) (sign ++ (List.replicate zeros zeroDigit ++ d)) := by
  simp only [Shortest, List.length_append, List.length_replicate]
  constructor
  · omega
  · intro same
    have none : zeros = 0 := by omega
    simp [none]

theorem shortest_without_sign (sign : UInt8) (d : Bytes) (zeros : Nat) :
    Shortest d ([sign] ++ (List.replicate zeros zeroDigit ++ d)) := by
  simp only [Shortest, List.length_append, List.length_singleton, List.length_replicate]
  constructor <;> omega

theorem canonical_nonneg {n : Int64} (nonneg : 0 ≤ n.toInt) :
    canonical (.integer n) = decimal n.toInt.natAbs := by
  simp only [canonical, decimalInt]
  rw [if_neg (by omega)]

theorem canonical_negative {n : Int64} (negative : n.toInt < 0) :
    canonical (.integer n) = [minus] ++ decimal n.toInt.natAbs := by
  simp only [canonical, decimalInt]
  rw [if_pos negative]
  rfl

theorem canonical_shortest {text : Bytes} {piece : Piece} (written : Writes text piece) :
    Shortest (canonical piece) text := by
  cases piece with
  | mark b =>
    obtain rfl := written
    exact ⟨Nat.le_refl _, fun _ => rfl⟩
  | length n =>
    obtain ⟨zeros, rfl⟩ := written
    exact shortest_without_zeros [] (decimal n) zeros
  | integer n =>
    obtain ⟨sign, zeros, signed, rfl⟩ := written
    rcases signed with ⟨nonneg, rfl | rfl⟩ | ⟨nonpos, rfl⟩
    · rw [canonical_nonneg nonneg]
      exact shortest_without_zeros [] _ zeros
    · rw [canonical_nonneg nonneg]
      exact shortest_without_sign plus _ zeros
    · by_cases negative : n.toInt < 0
      · rw [canonical_negative negative]
        exact shortest_without_zeros [minus] _ zeros
      · rw [canonical_nonneg (by omega)]
        exact shortest_without_sign minus _ zeros

theorem all_canonical_of_length {texts : List Bytes} {qs : List Piece}
    (written : List.Forall₂ Writes texts qs) :
    (qs.map canonical).flatten.length ≤ texts.flatten.length ∧
      (texts.flatten.length = (qs.map canonical).flatten.length → texts = qs.map canonical) := by
  induction written with
  | nil => simp
  | cons first rest ih =>
    obtain ⟨shorter, only⟩ := canonical_shortest first
    obtain ⟨le, all⟩ := ih
    simp only [List.map_cons, List.flatten_cons, List.length_append, List.cons.injEq]
    constructor
    · omega
    · intro same
      exact ⟨only (by omega), all (by omega)⟩

/-- The accepted texts of a value without dictionaries are its encoding with redundant
    numerals, and the encoding itself is the one where no numeral is. -/
theorem decodes_with_redundant_numerals {data : ByteSeq} {v : Value} (free : dictFree v = true) :
    Returns (decode p data) () v () ↔ ∃ texts, List.Forall₂ Writes texts (pieces v) ∧
      data.bytes = texts.flatten ∧ (data.bytes = enc v ↔ texts = (pieces v).map canonical) := by
  constructor
  · intro accepted
    obtain ⟨texts, written, whole⟩ := spelled_written (decodes_value.mp accepted) free
    refine ⟨texts, written, whole, ?_⟩
    rw [whole, enc_pieces]
    constructor
    · intro same
      exact (all_canonical_of_length written).2 (congrArg List.length same)
    · intro canon
      rw [canon]
  · intro parts
    obtain ⟨texts, written, whole, -⟩ := parts
    apply decodes_value.mpr
    rw [whole]
    exact written_spells v free written (whole ▸ data.fits)

theorem decodes_with_redundant_numerals_padded :
    Returns (decode .release ⟨utf8Bytes "li+05e03:abce", by decide +kernel⟩) ()
        (.list [.integer 5, .bytes [0x61, 0x62, 0x63]]) () ↔
      ∃ texts, List.Forall₂ Writes texts (pieces (.list [.integer 5, .bytes [0x61, 0x62, 0x63]])) ∧
        utf8Bytes "li+05e03:abce" = texts.flatten ∧
        (utf8Bytes "li+05e03:abce" = enc (.list [.integer 5, .bytes [0x61, 0x62, 0x63]]) ↔
          texts = (pieces (.list [.integer 5, .bytes [0x61, 0x62, 0x63]])).map canonical) :=
  decodes_with_redundant_numerals (by decide)

theorem plus_sign_decodes_alike :
    let plain : ByteSeq := ⟨utf8Bytes "i5e", by decide +kernel⟩
    let signed : ByteSeq := ⟨utf8Bytes "i+5e", by decide +kernel⟩
    plain ≠ signed ∧ dictFree (.integer 5) = true ∧
      Returns (decode .release plain) () (.integer 5) () ∧
      Returns (decode .release signed) () (.integer 5) () ∧
      enc (.integer 5) ≠ signed.bytes := by
  decide +kernel

end RedundantNumerals
