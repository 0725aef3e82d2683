import RustyTorrent.Bencode.DecoderCursor

/- The language that the decoder accepts, as a grammar without positions, and the proof
   that the cursor decoder recognises exactly this grammar. Numerals are those of
   `str::parse`, so the grammar is wider than canonical bencode. -/
namespace BencodeGrammar
open RustExec OrderedMaps Numerals BencodeValue BencodeDecoder DecoderCursor

/-- What a stretch of text can denote: a value, the items of a list, or the pairs of a
    dictionary in the order of the text. -/
inductive Phrase where
  | value (v : Value)
  | items (vs : List Value)
  | pairs (ps : List (Bytes × Value))

inductive Spells : Phrase → Bytes → Prop where
  | integer {n : Int64} {raw : Bytes} (reads : parseI64 raw = some n) :
      Spells (.value (.integer n)) (letterI :: raw ++ [letterE])
  | bytes {b : Bytes} {c : UInt8} {raw : Bytes} (first : isDigit c = true)
      (reads : parseUsize (c :: raw) = some b.length) :
      Spells (.value (.bytes b)) (c :: raw ++ colon :: b)
  | list {vs : List Value} {s : Bytes} (items : Spells (.items vs) s) :
      Spells (.value (.list vs)) (letterL :: s ++ [letterE])
  | dict {ps : List (Bytes × Value)} {s : Bytes} (pairs : Spells (.pairs ps) s) :
      Spells (.value (.dict (OrderedMap.ofPairs ps))) (letterD :: s ++ [letterE])
  | noItems : Spells (.items []) []
  | item {v : Value} {vs : List Value} {s t : Bytes} (first : Spells (.value v) s)
      (rest : Spells (.items vs) t) : Spells (.items (v :: vs)) (s ++ t)
  | noPairs : Spells (.pairs []) []
  | pair {k : Bytes} {v : Value} {ps : List (Bytes × Value)} {s t u : Bytes}
      (key : Spells (.value (.bytes k)) s) (value : Spells (.value v) t)
      (rest : Spells (.pairs ps) u) : Spells (.pairs ((k, v) :: ps)) (s ++ t ++ u)

theorem digit_not_letter {c : UInt8} (digit : isDigit c = true) :
    c ≠ letterI ∧ c ≠ letterL ∧ c ≠ letterD ∧ c ≠ letterE := by
  rw [is_digit_iff] at digit
  refine ⟨?_, ?_, ?_, ?_⟩ <;> rintro rfl <;>
    simp [letterI, letterL, letterD, letterE] at digit

theorem value_first_byte {v : Value} {s : Bytes} (spelled : Spells (.value v) s) :
    ∃ c tail, s = c :: tail ∧ c ≠ letterE := by
  cases spelled with
  | integer reads => exact ⟨_, _, rfl, by decide⟩
  | bytes first reads => exact ⟨_, _, rfl, (digit_not_letter first).2.2.2⟩
  | list items => exact ⟨_, _, rfl, by decide⟩
  | dict pairs => exact ⟨_, _, rfl, by decide⟩

theorem value_length {v : Value} {s : Bytes} (spelled : Spells (.value v) s) : 2 ≤ s.length := by
  cases spelled <;> (simp only [List.length_append, List.length_cons]; omega)

theorem items_snoc {vs : List Value} {v : Value} {s t : Bytes} (items : Spells (.items vs) s)
    (last : Spells (.value v) t) : Spells (.items (vs ++ [v])) (s ++ t) := by
  induction vs generalizing s with
  | nil =>
    cases items
    simpa using Spells.item last .noItems
  | cons w vs ih =>
    cases items with
    | item first rest => simpa using Spells.item first (ih rest)

theorem pairs_snoc {ps : List (Bytes × Value)} {k : Bytes} {v : Value} {s t u : Bytes}
    (pairs : Spells (.pairs ps) s) (key : Spells (.value (.bytes k)) t)
    (value : Spells (.value v) u) : Spells (.pairs (ps ++ [(k, v)])) (s ++ (t ++ u)) := by
  induction ps generalizing s with
  | nil =>
    cases pairs
    simpa using Spells.pair key value .noPairs
  | cons pair ps ih =>
    cases pairs with
    | pair key' value' rest => simpa using Spells.pair key' value' (ih rest)

variable {p : Profile}

def Decodes (p : Profile) (s : Bytes) : Phrase → Prop
  | .value v => ∀ pre suf fuel, (pre ++ (s ++ suf)).length < 2 ^ 63 → 3 * s.length ≤ fuel →
      Returns (parseValueFuel p fuel) (between pre (s ++ suf)) v (between (pre ++ s) suf)
  | .items vs => ∀ pre suf fuel acc, (pre ++ (s ++ letterE :: suf)).length < 2 ^ 63 →
      3 * s.length < fuel →
      Returns (parseItems p fuel acc) (between pre (s ++ letterE :: suf)) (acc ++ vs)
        (between (pre ++ s) (letterE :: suf))
  | .pairs ps => ∀ pre suf fuel map, (pre ++ (s ++ letterE :: suf)).length < 2 ^ 63 →
      3 * s.length < fuel →
      Returns (parseEntries p fuel map) (between pre (s ++ letterE :: suf))
        (map.insertAll ps) (between (pre ++ s) (letterE :: suf))

theorem returns_parseValue_cons {fuel : Nat} {pre rest : Bytes} {c : UInt8} {v : Value}
    {d : Decoder} :
    Returns (parseValueFuel p (fuel + 1)) (between pre (c :: rest)) v d ↔
      Returns (if c = letterI then parseInteger p
        else if c = letterL then parseListFuel p fuel
        else if c = letterD then parseDictFuel p fuel
        else if isDigit c then parseBytes p
        else fail (.unexpectedByte c pre.length)) (between pre (c :: rest)) v d := by
  have read := peek_first pre rest c
  simp only [parseValueFuel, returns_readState_bind, returns_enter_bind, returns_bind_step read,
    between_pos]

theorem returns_parseValue_nil {fuel : Nat} {pre : Bytes} {v : Value} {d : Decoder} :
    ¬ Returns (parseValueFuel p fuel) (between pre []) v d := by
  cases fuel with
  | zero => simp [parseValueFuel]
  | succ fuel => simp [parseValueFuel, returns_bind, returns_peek]

theorem returns_parseItems_cons {fuel : Nat} {pre rest : Bytes} {c : UInt8}
    {acc items : List Value} {d : Decoder} :
    Returns (parseItems p (fuel + 1) acc) (between pre (c :: rest)) items d ↔
      Returns (if c ≠ letterE then do
          let item ← parseValueFuel p fuel
          parseItems p fuel (acc ++ [item])
        else return acc) (between pre (c :: rest)) items d := by
  have read := peek_first pre rest c
  simp only [parseItems, returns_bind_step read]

theorem returns_parseEntries_cons {fuel : Nat} {pre rest : Bytes} {c : UInt8}
    {acc map : OrderedMap Bytes Value} {d : Decoder} :
    Returns (parseEntries p (fuel + 1) acc) (between pre (c :: rest)) map d ↔
      Returns (if c ≠ letterE then do
          let keyVal ← parseValueFuel p fuel
          match keyVal with
          | .bytes key => do
              let value ← parseValueFuel p fuel
              parseEntries p fuel (acc.insert key value)
          | _ => fail (.invalidDictKey pre.length)
        else return acc) (between pre (c :: rest)) map d := by
  have read := peek_first pre rest c
  simp only [parseEntries, returns_bind_step read]
  by_cases last : c = letterE
  · simp only [last, ne_eq, not_true_eq_false, ↓reduceIte]
  · simp only [last, ne_eq, not_false_eq_true, ↓reduceIte]
    exact returns_readState_bind

theorem returns_bracketed {α β : Type} {o : UInt8} {loop : Exec Decoder DecodeError α}
    {wrap : α → β} {pre rest : Bytes} {v : β} {d : Decoder}
    (fits : (pre ++ rest).length < 2 ^ 63) :
    Returns (do
        let self ← readState
        enter self.pos self.data.length
        expect p o
        let a ← loop
        expect p letterE
        return wrap a) (between pre rest) v d ↔
      ∃ tail a d', rest = o :: tail ∧ Returns loop (between (pre ++ [o]) tail) a d' ∧
        Returns (expect p letterE) d' () d ∧ v = wrap a := by
  simp only [returns_readState_bind, returns_enter_bind]
  constructor
  · intro run
    obtain ⟨_, _, first, run⟩ := returns_bind.mp run
    obtain ⟨tail, rfl, rfl⟩ := (returns_expect fits).mp first
    obtain ⟨a, d', body, run⟩ := returns_bind.mp run
    obtain ⟨_, _, last, run⟩ := returns_bind.mp run
    obtain ⟨rfl, rfl⟩ := returns_pure.mp run
    exact ⟨tail, a, d', rfl, body, last, rfl⟩
  · intro parts
    obtain ⟨tail, a, d', rfl, body, last, rfl⟩ := parts
    rw [returns_bind_step ((returns_expect (u := ()) fits).mpr ⟨tail, rfl, rfl⟩),
      returns_bind_step body, returns_bind_step last]
    exact returns_value _ _

theorem bracketed_text (o : UInt8) (s suf : Bytes) :
    o :: s ++ [letterE] ++ suf = o :: (s ++ letterE :: suf) := by simp

theorem returns_bracketed_phrase {α : Type} {o : UInt8} {loop : Exec Decoder DecodeError α}
    {wrap : α → Value} {pre s suf : Bytes} {a : α}
    (fits : (pre ++ (o :: s ++ [letterE] ++ suf)).length < 2 ^ 63)
    (body : Returns loop (between (pre ++ [o]) (s ++ letterE :: suf)) a
      (between (pre ++ [o] ++ s) (letterE :: suf))) :
    Returns (do
        let self ← readState
        enter self.pos self.data.length
        expect p o
        let a ← loop
        expect p letterE
        return wrap a) (between pre (o :: s ++ [letterE] ++ suf)) (wrap a)
      (between (pre ++ (o :: s ++ [letterE])) suf) := by
  refine (returns_bracketed fits).mpr ⟨_, a, _, bracketed_text o s suf, body, ?_, rfl⟩
  refine (returns_expect (by simpa using fits)).mpr ⟨suf, rfl, by simp⟩

theorem decodes_integer {n : Int64} {raw : Bytes} (reads : parseI64 raw = some n) :
    Decodes p (letterI :: raw ++ [letterE]) (.value (.integer n)) := by
  intro pre suf fuel fits enough
  obtain ⟨fuel, rfl⟩ : ∃ f, fuel = f + 1 := ⟨fuel - 1, by simp at enough; omega⟩
  rw [bracketed_text] at fits ⊢
  rw [returns_parseValue_cons, if_pos rfl, returns_parseInteger fits]
  exact ⟨raw, suf, n, rfl, reads, rfl, by simp⟩

theorem decodes_bytes {b : Bytes} {c : UInt8} {raw : Bytes} (first : isDigit c = true)
    (reads : parseUsize (c :: raw) = some b.length) :
    Decodes p (c :: raw ++ colon :: b) (.value (.bytes b)) := by
  intro pre suf fuel fits enough
  obtain ⟨fuel, rfl⟩ : ∃ f, fuel = f + 1 := ⟨fuel - 1, by simp at enough; omega⟩
  obtain ⟨notI, notL, notD, _⟩ := digit_not_letter first
  rw [List.cons_append, List.cons_append, returns_parseValue_cons, if_neg notI, if_neg notL,
    if_neg notD, if_pos first, returns_parseBytes (by simpa using fits)]
  exact ⟨c :: raw, b, suf, by simp, reads, rfl, by simp⟩

theorem decodes_list {vs : List Value} {s : Bytes} (items : Decodes p s (.items vs)) :
    Decodes p (letterL :: s ++ [letterE]) (.value (.list vs)) := by
  intro pre suf fuel fits enough
  simp only [List.length_append, List.length_cons, List.length_nil] at enough
  obtain ⟨fuel, rfl⟩ : ∃ f, fuel = f + 2 := ⟨fuel - 2, by omega⟩
  have body := items (pre ++ [letterL]) suf fuel [] (by simpa using fits) (by omega)
  rw [List.cons_append, List.cons_append, returns_parseValue_cons, if_neg (by decide),
    if_pos rfl]
  exact returns_bracketed_phrase fits body

theorem decodes_dict {ps : List (Bytes × Value)} {s : Bytes} (pairs : Decodes p s (.pairs ps)) :
    Decodes p (letterD :: s ++ [letterE]) (.value (.dict (OrderedMap.ofPairs ps))) := by
  intro pre suf fuel fits enough
  simp only [List.length_append, List.length_cons, List.length_nil] at enough
  obtain ⟨fuel, rfl⟩ : ∃ f, fuel = f + 2 := ⟨fuel - 2, by omega⟩
  have body := pairs (pre ++ [letterD]) suf fuel OrderedMap.empty (by simpa using fits) (by omega)
  rw [List.cons_append, List.cons_append, returns_parseValue_cons, if_neg (by decide),
    if_neg (by decide), if_pos rfl]
  exact returns_bracketed_phrase fits body

theorem decodes_item {v : Value} {vs : List Value} {s t : Bytes}
    (spelled : Spells (.value v) s) (first : Decodes p s (.value v))
    (rest : Decodes p t (.items vs)) : Decodes p (s ++ t) (.items (v :: vs)) := by
  intro pre suf fuel acc fits enough
  have long := value_length spelled
  obtain ⟨c, tail, rfl, notE⟩ := value_first_byte spelled
  simp only [List.length_append] at enough
  obtain ⟨fuel, rfl⟩ : ∃ f, fuel = f + 1 := ⟨fuel - 1, by omega⟩
  have here := first pre (t ++ letterE :: suf) fuel (by simpa using fits) (by omega)
  have later := rest (pre ++ (c :: tail)) suf fuel (acc ++ [v]) (by simpa using fits) (by omega)
  rw [List.append_assoc, List.cons_append, returns_parseItems_cons, if_pos notE,
    ← List.cons_append, returns_bind_step here]
  simpa using later

theorem decodes_pair {k : Bytes} {v : Value} {ps : List (Bytes × Value)} {s t u : Bytes}
    (spelled : Spells (.value (.bytes k)) s) (spelled' : Spells (.value v) t)
    (key : Decodes p s (.value (.bytes k))) (value : Decodes p t (.value v))
    (rest : Decodes p u (.pairs ps)) : Decodes p (s ++ t ++ u) (.pairs ((k, v) :: ps)) := by
  intro pre suf fuel map fits enough
  have long := value_length spelled
  have long' := value_length spelled'
  obtain ⟨c, tail, rfl, notE⟩ := value_first_byte spelled
  simp only [List.length_append] at enough
  obtain ⟨fuel, rfl⟩ : ∃ f, fuel = f + 1 := ⟨fuel - 1, by omega⟩
  have atKey := key pre (t ++ (u ++ letterE :: suf)) fuel (by simpa using fits) (by omega)
  have atValue := value (pre ++ (c :: tail)) (u ++ letterE :: suf) fuel (by simpa using fits)
    (by omega)
  have later := rest (pre ++ (c :: tail) ++ t) suf fuel (map.insert k v) (by simpa using fits)
    (by omega)
  rw [List.append_assoc, List.append_assoc, List.cons_append, returns_parseEntries_cons,
    if_pos notE, ← List.cons_append, returns_bind_step atKey]
  simp only [returns_bind_step atValue]
  simpa [OrderedMap.insertAll] using later

theorem spells_decodes {ph : Phrase} {s : Bytes} (spelled : Spells ph s) : Decodes p s ph := by
  induction spelled with
  | integer reads => exact decodes_integer reads
  | bytes first reads => exact decodes_bytes first reads
  | list items ih => exact decodes_list ih
  | dict pairs ih => exact decodes_dict ih
  | noItems =>
    intro pre suf fuel acc fits enough
    obtain ⟨fuel, rfl⟩ : ∃ f, fuel = f + 1 := ⟨fuel - 1, by omega⟩
    simp [returns_parseItems_cons]
  | item first rest ihv ihs => exact decodes_item first ihv ihs
  | noPairs =>
    intro pre suf fuel map fits enough
    obtain ⟨fuel, rfl⟩ : ∃ f, fuel = f + 1 := ⟨fuel - 1, by omega⟩
    simp [returns_parseEntries_cons, OrderedMap.insertAll]
  | pair key value rest ihk ihv ihs => exact decodes_pair key value ihk ihv ihs

end BencodeGrammar
