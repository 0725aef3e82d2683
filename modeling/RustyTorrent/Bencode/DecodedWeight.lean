import RustyTorrent.Bencode.BencodeRecognition

/- What a decoded value weighs against the text it was read from: two bytes for each of its
   nodes, besides the bytes of its strings. A repeated key only makes the value lighter. -/
namespace DecodedWeight
open RustExec OrderedMaps BencodeValue BencodeDecoder BencodeGrammar BencodeRecognition

mutual

def nodes : Value → Nat
  | .integer _ => 1
  | .bytes _ => 1
  | .list items => 1 + itemNodes items
  | .dict map => 1 + entryNodes map

def itemNodes : List Value → Nat
  | [] => 0
  | item :: items => nodes item + itemNodes items

def entryNodes : {low : Option Bytes} → Entries Bytes Value low → Nat
  | _, .nil => 0
  | _, .cons _ value _ rest => 1 + nodes value + entryNodes rest

end

mutual

def payload : Value → Nat
  | .integer _ => 0
  | .bytes b => b.length
  | .list items => itemPayload items
  | .dict map => entryPayload map

def itemPayload : List Value → Nat
  | [] => 0
  | item :: items => payload item + itemPayload items

def entryPayload : {low : Option Bytes} → Entries Bytes Value low → Nat
  | _, .nil => 0
  | _, .cons key value _ rest => key.length + payload value + entryPayload rest

end

def weight (v : Value) : Nat := 2 * nodes v + payload v

def pairWeight (pair : Bytes × Value) : Nat := 2 + pair.1.length + weight pair.2

theorem entries_weight {low : Option Bytes} (entries : Entries Bytes Value low) :
    2 * entryNodes entries + entryPayload entries = (entries.toList.map pairWeight).sum := by
  induction entries with
  | nil => simp [entryNodes, entryPayload, Entries.toList]
  | cons key value above rest ih =>
    simp only [entryNodes, entryPayload, Entries.toList, List.map_cons, List.sum_cons, pairWeight,
      weight, ← ih]
    omega

theorem dict_weight (map : OrderedMap Bytes Value) :
    weight (.dict map) = 2 + (map.toList.map pairWeight).sum := by
  have entries := entries_weight map
  simp only [weight, nodes, payload]
  omega

theorem items_weight (items : List Value) :
    2 * itemNodes items + itemPayload items = (items.map weight).sum := by
  induction items with
  | nil => simp [itemNodes, itemPayload]
  | cons item items ih =>
    simp only [itemNodes, itemPayload, List.map_cons, List.sum_cons, weight, ← ih]
    omega

theorem list_weight (items : List Value) :
    weight (.list items) = 2 + (items.map weight).sum := by
  have entries := items_weight items
  simp only [weight, nodes, payload]
  omega

def phraseWeight : Phrase → Nat
  | .value v => weight v
  | .items vs => (vs.map weight).sum
  | .pairs ps => (ps.map pairWeight).sum

theorem spelling_pays {ph : Phrase} {s : Bytes} (spelled : Spells ph s) :
    phraseWeight ph ≤ s.length := by
  induction spelled with
  | integer reads =>
    simp only [phraseWeight, weight, nodes, payload, List.length_append, List.length_cons]
    omega
  | bytes first reads =>
    -- the length field, at least one digit, and the colon pay for the node
    simp only [phraseWeight, weight, nodes, payload, List.length_append, List.length_cons]
    omega
  | list items ih =>
    simp only [phraseWeight] at ih
    simp only [phraseWeight, list_weight, List.length_append, List.length_cons]
    omega
  | @dict ps s pairs ih =>
    have lighter := sum_ofPairs_le pairWeight ps
    simp only [phraseWeight] at ih
    simp only [phraseWeight, dict_weight, List.length_append, List.length_cons]
    omega
  | noItems => simp [phraseWeight]
  | item first rest ihv ihs =>
    simp only [phraseWeight] at ihv ihs
    simp only [phraseWeight, List.map_cons, List.sum_cons, List.length_append]
    omega
  | noPairs => simp [phraseWeight]
  | pair key value rest ihk ihv ihs =>
    simp only [phraseWeight, weight, nodes, payload] at ihk
    simp only [phraseWeight, weight] at ihv
    simp only [phraseWeight] at ihs
    simp only [phraseWeight, List.map_cons, List.sum_cons, pairWeight, weight,
      List.length_append]
    omega

theorem decoding_never_amplifies {p : Profile} {data : ByteSeq} {v : Value} {n : Nat}
    (accepted : Returns (decodePartial p data) () (v, n) ()) :
    2 * nodes v + payload v ≤ n ∧ n ≤ data.bytes.length := by
  obtain ⟨s, suf, whole, rfl, spelled⟩ := decodes_leading.mp accepted
  have paid := spelling_pays spelled
  constructor
  · exact paid
  · rw [whole, List.length_append]
    omega

/-- `d1:ai1e1:a2:xye` and one byte more: of the repeated key only the second value stays. -/
theorem decoding_never_amplifies_repeated_key :
    let v := Value.dict (OrderedMap.ofPairs [([0x61], .bytes [0x78, 0x79])])
    2 * nodes v + payload v ≤ 15 ∧ 15 ≤ 16 :=
  @decoding_never_amplifies .release
    ⟨[0x64, 0x31, 0x3a, 0x61, 0x69, 0x31, 0x65, 0x31, 0x3a, 0x61, 0x32, 0x3a, 0x78, 0x79, 0x65,
      0x58], by decide⟩ _ 15 (by decide +kernel)

end DecodedWeight
