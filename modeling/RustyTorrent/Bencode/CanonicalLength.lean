import Mathlib.Order.Bounds.Basic
import RustyTorrent.Bencode.RedundantNumerals

/- The canonical encoding as the shortest text of a value, whatever stands in the value. Repeated
   keys and redundant numerals only make a text longer, so the encoding of what was decoded
   always fits and decodes to the same value. -/
namespace CanonicalLength
open RustExec OrderedMaps Numerals BencodeValue BencodeDecoder BencodeGrammar BencodeRecognition
  CanonicalEncoding RedundantNumerals

def canonicalLength : Phrase → Nat
  | .value v => (enc v).length
  | .items vs => (encItems vs).length
  | .pairs ps => (ps.map fun pair => (encPair pair).length).sum

theorem dict_length (map : OrderedMap Bytes Value) : (enc (.dict map)).length =
    2 + (map.toList.map fun pair => (encPair pair).length).sum := by
  simp only [enc, encEntries_eq, List.length_append, List.length_cons, List.length_nil,
    List.length_flatMap]
  omega

theorem integer_shorter {n : Int64} {raw : Bytes} (reads : parseI64 raw = some n) :
    (decimalInt n.toInt).length ≤ raw.length := by
  have written : Writes raw (.integer n) := parseI64_iff.mp reads
  exact (canonical_shortest written).1

theorem length_shorter {c : UInt8} {raw : Bytes} {n : Nat} (first : isDigit c = true)
    (reads : parseUsize (c :: raw) = some n) : (decimal n).length ≤ (c :: raw).length := by
  have written : Writes (c :: raw) (.length n) := ((parseUsize_digit_iff first).mp reads).2
  exact (canonical_shortest written).1

theorem spelling_longer {ph : Phrase} {s : Bytes} (spelled : Spells ph s) :
    canonicalLength ph ≤ s.length := by
  induction spelled with
  | integer reads =>
    have shorter := integer_shorter reads
    simp only [canonicalLength, enc, List.length_append, List.length_cons]
    omega
  | bytes first reads =>
    have shorter := length_shorter first reads
    simp only [canonicalLength, enc, encBytes, List.length_append, List.length_cons] at shorter ⊢
    omega
  | list items ih =>
    simp only [canonicalLength] at ih
    simp only [canonicalLength, enc, List.length_append, List.length_cons]
    omega
  | @dict ps s pairs ih =>
    -- a repeated key leaves one of its pairs out of the map
    have fewer := sum_ofPairs_le (fun pair : Bytes × Value => (encPair pair).length) ps
    simp only [canonicalLength] at ih
    simp only [canonicalLength, dict_length, List.length_append, List.length_cons]
    omega
  | noItems => exact Nat.le_refl _
  | item first rest ihv ihs =>
    simp only [canonicalLength] at ihv ihs
    simp only [canonicalLength, encItems, List.length_append]
    omega
  | noPairs => exact Nat.le_refl _
  | @pair k v ps s t u key value rest ihk ihv ihs =>
    simp only [canonicalLength, enc] at ihk ihv ihs
    have entry : (encPair (k, v)).length = (encBytes k).length + (enc v).length :=
      List.length_append
    simp only [canonicalLength, List.map_cons, List.sum_cons, List.length_append]
    omega

/-- A value has a text exactly if its canonical text fits, and that one is the shortest. -/
theorem canonical_least (p : Profile) (v : Value) :
    ((∃ data, Returns (decode p data) () v ()) ↔ (enc v).length < 2 ^ 63) ∧
      ∀ data, Returns (decode p data) () v () →
        IsLeast {n | ∃ text, Returns (decode p text) () v () ∧ text.bytes.length = n}
          (enc v).length := by
  have shorter : ∀ data, Returns (decode p data) () v () → (enc v).length ≤ data.bytes.length :=
    fun data read => spelling_longer (decodes_value.mp read)
  have fits : ∀ data, Returns (decode p data) () v () → (enc v).length < 2 ^ 63 :=
    fun data read => Nat.lt_of_le_of_lt (shorter data read) data.fits
  refine ⟨⟨?_, ?_⟩, ?_⟩
  · intro readable
    obtain ⟨data, read⟩ := readable
    exact fits data read
  · intro small
    exact ⟨⟨enc v, small⟩, decodes_value.mpr (enc_spelled v small)⟩
  · intro data read
    refine ⟨⟨⟨enc v, fits data read⟩, decodes_value.mpr (enc_spelled v (fits data read)), rfl⟩,
      ?_⟩
    intro n longer
    obtain ⟨text, reads, rfl⟩ := longer
    exact shorter text reads

end CanonicalLength
