import Mathlib.Data.List.Induction
import RustyTorrent.Bencode.BencodeRecognition

/- Where the decoder parses the values of the top-level dictionary: the loop of parse_dict
   with the cursor noted before and after every value. -/
namespace EntrySpans
open RustExec OrderedMaps Numerals BencodeValue BencodeDecoder DecoderCursor BencodeGrammar
  BencodeRecognition

structure Span where
  key : Bytes
  start : Nat
  stop : Nat
  deriving DecidableEq, Repr

def parseEntrySpans (p : Profile) : Nat → OrderedMap Bytes Value → List Span →
    Exec Decoder DecodeError (OrderedMap Bytes Value × List Span)
  | 0, _, _ => exhaust
  | fuel + 1, map, spans => do
      let byte ← peek
      if byte ≠ letterE then do
        let self ← readState
        let keyPos := self.pos
        let keyVal ← parseValueFuel p fuel
        match keyVal with
        | .bytes key => do
            let before ← readState
            let value ← parseValueFuel p fuel
            let after ← readState
            parseEntrySpans p fuel (map.insert key value) (spans ++ [⟨key, before.pos, after.pos⟩])
        | _ => fail (.invalidDictKey keyPos)
      else return (map, spans)

def parseDictSpans (p : Profile) (fuel : Nat) :
    Exec Decoder DecodeError (OrderedMap Bytes Value × List Span) := do
  let self ← readState
  enter self.pos self.data.length
  expect p letterD
  let found ← parseEntrySpans p fuel OrderedMap.empty []
  expect p letterE
  return found

/-- decode for a text that holds a dictionary, with the spans of its values. -/
def decodeSpans (p : Profile) (data : ByteSeq) :
    Exec Unit DecodeError (OrderedMap Bytes Value × List Span) := do
  let (found, decoder) ← within (Decoder.new data.bytes)
    (parseDictSpans p (fuelFor data.bytes.length - 2))
  if decoder.pos ≠ data.bytes.length then fail (.trailingData decoder.pos)
  else return found

def spanOf (key : Bytes) (spans : List Span) : Option Span :=
  spans.reverse.find? fun span => span.key = key

variable {p : Profile}

theorem parseEntries_eq_map {fuel : Nat} (map : OrderedMap Bytes Value) (spans : List Span) :
    parseEntries p fuel map = Prod.fst <$> parseEntrySpans p fuel map spans := by
  induction fuel generalizing map spans with
  | zero => rfl
  | succ fuel ih =>
    simp only [parseEntries, parseEntrySpans, map_bind]
    congr 1
    funext byte
    split
    · simp only [map_bind]
      congr 1
      funext self
      congr 1
      funext keyVal
      cases keyVal with
      | bytes key => simp only [map_bind, ← ih, readState_bind_unused]
      | integer n => rfl
      | list items => rfl
      | dict m => rfl
    · rfl

theorem parseDict_eq_map (fuel : Nat) :
    parseDictFuel p (fuel + 1) = (fun found => Value.dict found.1) <$> parseDictSpans p fuel := by
  simp only [parseDictFuel, parseDictSpans, parseEntries_eq_map _ [], map_bind, bind_map_left]
  rfl

theorem returns_parseValue_dict {fuel : Nat} {pre rest : Bytes} {c : UInt8}
    {m : OrderedMap Bytes Value} {d : Decoder} (fits : (pre ++ c :: rest).length < 2 ^ 63) :
    Returns (parseValueFuel p (fuel + 2)) (between pre (c :: rest)) (.dict m) d ↔
      ∃ spans, Returns (parseDictSpans p fuel) (between pre (c :: rest)) (m, spans) d := by
  rw [returns_parseValue_cons]
  constructor
  · intro run
    split_ifs at run with isI isL isD digit
    · obtain ⟨_, _, _, _, _, same, _⟩ := (returns_parseInteger fits).mp run
      cases same
    · obtain ⟨_, _, _, _, _, _, same⟩ := (returns_bracketed fits).mp run
      cases same
    · rw [parseDict_eq_map, returns_map] at run
      obtain ⟨⟨m', spans⟩, run, same⟩ := run
      cases same
      exact ⟨spans, run⟩
    · obtain ⟨_, _, _, _, _, same, _⟩ := (returns_parseBytes fits).mp run
      cases same
    · exact absurd run returns_fail
  · intro both
    obtain ⟨spans, run⟩ := both
    unfold parseDictSpans at run
    obtain ⟨tail, _, _, same, _⟩ := (returns_bracketed fits).mp run
    obtain ⟨rfl, rfl⟩ := List.cons.inj same
    rw [if_neg (by decide), if_neg (by decide), if_pos rfl, parseDict_eq_map, returns_map]
    exact ⟨_, run, rfl⟩

theorem parse_dict_iff {data : Bytes} {root : OrderedMap Bytes Value} {d : Decoder}
    (fits : data.length < 2 ^ 63) :
    Returns (parseValue p) (between [] data) (.dict root) d ↔
      ∃ spans, Returns (parseDictSpans p (fuelFor data.length - 2)) (between [] data)
        (root, spans) d := by
  rw [parseValue, returns_readState_bind]
  cases data with
  | nil =>
    constructor
    · intro run
      exact absurd run returns_parseValue_nil
    · intro both
      obtain ⟨spans, run⟩ := both
      unfold parseDictSpans at run
      obtain ⟨_, _, _, same, _⟩ := (returns_bracketed fits).mp run
      cases same
  | cons c rest =>
    have fuel : fuelFor (c :: rest).length = (fuelFor (c :: rest).length - 2) + 2 := by
      simp only [fuelFor, List.length_cons]
      omega
    rw [between_data, List.nil_append, fuel, returns_parseValue_dict fits]
    rfl

theorem decode_dict_iff {data : ByteSeq} {root : OrderedMap Bytes Value} {u : Unit} :
    Returns (decode p data) () (.dict root) u ↔
      ∃ spans, Returns (decodeSpans p data) () (root, spans) u := by
  simp only [decode, decodeSpans, returns_bind, Prod.exists, returns_within, and_true,
    new_eq_between]
  constructor
  · intro parts
    obtain ⟨v, d, _, run, check⟩ := parts
    split_ifs at check with more
    · exact absurd check returns_fail
    · obtain ⟨rfl, _⟩ := returns_pure.mp check
      obtain ⟨spans, run⟩ := (parse_dict_iff data.fits).mp run
      refine ⟨spans, root, spans, d, (), run, ?_⟩
      rw [if_neg more]
      exact returns_value _ _
  · intro parts
    obtain ⟨spans, m, found, d, _, run, check⟩ := parts
    split_ifs at check with more
    · exact absurd check returns_fail
    · obtain ⟨same, _⟩ := returns_pure.mp check
      cases same
      refine ⟨.dict root, d, (), (parse_dict_iff data.fits).mpr ⟨_, run⟩, ?_⟩
      rw [if_neg more]
      exact returns_value _ _

structure Entry where
  key : Bytes
  value : Value
  keyText : Bytes
  valueText : Bytes
  keySpelled : Spells (.value (.bytes key)) keyText
  valueSpelled : Spells (.value value) valueText

namespace Entry

def pair (entry : Entry) : Bytes × Value := (entry.key, entry.value)

def text (entry : Entry) : Bytes := entry.keyText ++ entry.valueText

end Entry

def textOf (entries : List Entry) : Bytes := entries.flatMap Entry.text

def spansFrom : Nat → List Entry → List Span
  | _, [] => []
  | start, entry :: rest =>
      ⟨entry.key, start + entry.keyText.length, start + entry.text.length⟩ ::
        spansFrom (start + entry.text.length) rest

theorem spansFrom_append (start : Nat) (before after : List Entry) :
    spansFrom start (before ++ after) =
      spansFrom start before ++ spansFrom (start + (textOf before).length) after := by
  induction before generalizing start with
  | nil => simp [spansFrom, textOf]
  | cons entry rest ih => simp [spansFrom, textOf, ih, Nat.add_assoc]

theorem spansFrom_keys (start : Nat) (entries : List Entry) {span : Span}
    (member : span ∈ spansFrom start entries) : ∃ entry ∈ entries, span.key = entry.key := by
  induction entries generalizing start with
  | nil => simp [spansFrom] at member
  | cons entry rest ih =>
    simp only [spansFrom, List.mem_cons] at member
    rcases member with here | later
    · exact ⟨entry, by simp, by rw [here]⟩
    · obtain ⟨other, found, same⟩ := ih _ later
      exact ⟨other, List.mem_cons_of_mem _ found, same⟩

theorem recovers_spans {fuel : Nat} {pre rest : Bytes} {map m : OrderedMap Bytes Value}
    {spans out : List Span} {d : Decoder} (fits : (pre ++ rest).length < 2 ^ 63)
    (run : Returns (parseEntrySpans p fuel map spans) (between pre rest) (m, out) d) :
    ∃ entries suf, rest = textOf entries ++ letterE :: suf ∧
      d = between (pre ++ textOf entries) (letterE :: suf) ∧
      m = map.insertAll (entries.map Entry.pair) ∧
      out = spans ++ spansFrom pre.length entries := by
  induction fuel generalizing pre rest map spans with
  | zero => simp [parseEntrySpans] at run
  | succ fuel ih =>
    obtain ⟨c, s, first, run⟩ := returns_bind.mp run
    obtain ⟨head, rfl⟩ := returns_peek.mp first
    obtain ⟨tail, rfl⟩ := List.head?_eq_some_iff.mp head
    split at run
    · rw [returns_readState_bind] at run
      obtain ⟨keyVal, s, atKey, run⟩ := returns_bind.mp run
      obtain ⟨kt, suf, same, rfl, keySpelled⟩ := (run_recovers p fuel).value fits atKey
      rw [same] at fits ⊢
      cases keyVal with
      | bytes key =>
        rw [returns_readState_bind] at run
        obtain ⟨v, s, atValue, run⟩ := returns_bind.mp run
        rw [← List.append_assoc] at fits
        obtain ⟨vt, suf, rfl, rfl, valueSpelled⟩ := (run_recovers p fuel).value fits atValue
        rw [returns_readState_bind] at run
        rw [← List.append_assoc] at fits
        obtain ⟨entries, suf, rfl, rfl, rfl, rfl⟩ := ih fits run
        refine ⟨⟨key, v, kt, vt, keySpelled, valueSpelled⟩ :: entries, suf, ?_, ?_, rfl, ?_⟩
        · simp [textOf, Entry.text]
        · simp [textOf, Entry.text]
        · simp [spansFrom, Entry.text]
      | integer n => exact absurd run returns_fail
      | list items => exact absurd run returns_fail
      | dict m => exact absurd run returns_fail
    · rename_i last
      obtain rfl := not_not.mp last
      obtain ⟨same, rfl⟩ := returns_pure.mp run
      obtain ⟨rfl, rfl⟩ := Prod.mk.inj same
      exact ⟨[], tail, rfl, by simp [textOf], rfl, by simp [spansFrom]⟩

theorem decodeSpans_entries {data : ByteSeq} {root : OrderedMap Bytes Value} {spans : List Span}
    {u : Unit} (run : Returns (decodeSpans p data) () (root, spans) u) :
    ∃ entries, data.bytes = letterD :: textOf entries ++ [letterE] ∧
      root = OrderedMap.ofPairs (entries.map Entry.pair) ∧ spans = spansFrom 1 entries := by
  obtain ⟨⟨⟨map, found⟩, d⟩, _, inner, check⟩ := returns_bind.mp run
  obtain ⟨inner, -⟩ := returns_within.mp inner
  have fits : ([] ++ data.bytes).length < 2 ^ 63 := data.fits
  rw [new_eq_between] at inner
  unfold parseDictSpans at inner
  obtain ⟨tail, a, d', start, loop, close, rfl⟩ := (returns_bracketed fits).mp inner
  rw [start] at fits
  obtain ⟨entries, suf, rfl, rfl, rfl, rfl⟩ := recovers_spans (by simpa using fits) loop
  obtain ⟨suf', same, rfl⟩ := (returns_expect (by simpa using fits)).mp close
  obtain rfl : suf = suf' := List.cons_injective.eq_iff.mp same
  dsimp only at check
  split_ifs at check with more
  · exact absurd check returns_fail
  · obtain ⟨same, -⟩ := returns_pure.mp check
    obtain ⟨rfl, rfl⟩ := Prod.mk.inj same
    have whole : suf = [] := by
      rw [start] at more
      simp only [between_pos, List.length_append, List.length_cons, not_not] at more
      exact List.length_eq_zero_iff.mp (by simp at more; omega)
    refine ⟨entries, by rw [start, whole]; simp, rfl, by simp⟩

theorem last_entry {entries : List Entry} {key : Bytes} {v : Value}
    (found : (OrderedMap.ofPairs (entries.map Entry.pair)).get key = some v) :
    ∃ before entry after, entries = before ++ entry :: after ∧ entry.key = key ∧
      entry.value = v ∧ ∀ other ∈ after, other.key ≠ key := by
  induction entries using List.reverseRecOn with
  | nil => simp [OrderedMap.ofPairs, OrderedMap.insertAll, OrderedMap.empty, Entries.get] at found
  | append_singleton entries last ih =>
    rw [List.map_append, OrderedMap.ofPairs, insertAll_append] at found
    change (OrderedMap.insert last.key last.value _).get key = some v at found
    rw [get_insert] at found
    split at found
    · rename_i same
      exact ⟨entries, last, [], rfl, same.symm, Option.some.inj found, by simp⟩
    · rename_i other
      obtain ⟨before, entry, after, rfl, here, value, absent⟩ := ih found
      refine ⟨before, entry, after ++ [last], by simp, here, value, ?_⟩
      intro e member
      rcases List.mem_append.mp member with early | late
      · exact absent e early
      · obtain rfl := List.mem_singleton.mp late
        exact Ne.symm other

theorem spanOf_last (before : List Entry) {after : List Entry} {entry : Entry} (start : Nat)
    (last : ∀ other ∈ after, other.key ≠ entry.key) :
    spanOf entry.key (spansFrom start (before ++ entry :: after)) =
      some ⟨entry.key, start + (textOf before).length + entry.keyText.length,
        start + (textOf before).length + entry.text.length⟩ := by
  rw [spanOf, spansFrom_append, spansFrom, List.reverse_append, List.reverse_cons,
    List.append_assoc, List.find?_append]
  have none : (spansFrom (start + (textOf before).length + entry.text.length) after).reverse.find?
      (fun span => span.key = entry.key) = none := by
    rw [List.find?_eq_none]
    intro span member
    obtain ⟨other, found, same⟩ := spansFrom_keys _ after (List.mem_reverse.mp member)
    simpa [same] using last other found
  simp [none]

end EntrySpans
