import RustyTorrent.Bencode.BencodeGrammar

/- The decoder accepts nothing beyond the grammar, so that the text a successful parse
   consumed determines the run. Locality and self-delimitation follow. -/
namespace BencodeRecognition
open RustExec OrderedMaps Numerals BencodeValue BencodeDecoder DecoderCursor BencodeGrammar

variable {p : Profile}

structure Recovers (p : Profile) (fuel : Nat) : Prop where
  value : ∀ {pre rest : Bytes} {v : Value} {d : Decoder}, (pre ++ rest).length < 2 ^ 63 →
    Returns (parseValueFuel p fuel) (between pre rest) v d →
    ∃ s suf, rest = s ++ suf ∧ d = between (pre ++ s) suf ∧ Spells (.value v) s
  items : ∀ {pre rest : Bytes} {acc out : List Value} {d : Decoder},
    (pre ++ rest).length < 2 ^ 63 →
    Returns (parseItems p fuel acc) (between pre rest) out d →
    ∃ vs s suf, rest = s ++ letterE :: suf ∧ d = between (pre ++ s) (letterE :: suf) ∧
      out = acc ++ vs ∧ Spells (.items vs) s
  pairs : ∀ {pre rest : Bytes} {acc out : OrderedMap Bytes Value} {d : Decoder},
    (pre ++ rest).length < 2 ^ 63 →
    Returns (parseEntries p fuel acc) (between pre rest) out d →
    ∃ ps s suf, rest = s ++ letterE :: suf ∧ d = between (pre ++ s) (letterE :: suf) ∧
      out = acc.insertAll ps ∧ Spells (.pairs ps) s

theorem recovers_list {fuel : Nat} {pre rest : Bytes} {v : Value} {d : Decoder}
    (below : ∀ g < fuel, Recovers p g) (fits : (pre ++ rest).length < 2 ^ 63)
    (run : Returns (parseListFuel p fuel) (between pre rest) v d) :
    ∃ s suf, rest = s ++ suf ∧ d = between (pre ++ s) suf ∧ Spells (.value v) s := by
  cases fuel with
  | zero => simp [parseListFuel] at run
  | succ fuel =>
    obtain ⟨tail, out, d', rfl, body, last, rfl⟩ := (returns_bracketed fits).mp run
    have moved : (pre ++ [letterL] ++ tail).length < 2 ^ 63 := by simpa using fits
    obtain ⟨vs, s, suf, rfl, rfl, rfl, spelled⟩ := (below fuel (by omega)).items moved body
    obtain ⟨suf', same, rfl⟩ := (returns_expect (by simpa using fits)).mp last
    obtain rfl : suf = suf' := List.cons_injective.eq_iff.mp same
    exact ⟨letterL :: s ++ [letterE], suf, by simp, by simp, .list spelled⟩

theorem recovers_dict {fuel : Nat} {pre rest : Bytes} {v : Value} {d : Decoder}
    (below : ∀ g < fuel, Recovers p g) (fits : (pre ++ rest).length < 2 ^ 63)
    (run : Returns (parseDictFuel p fuel) (between pre rest) v d) :
    ∃ s suf, rest = s ++ suf ∧ d = between (pre ++ s) suf ∧ Spells (.value v) s := by
  cases fuel with
  | zero => simp [parseDictFuel] at run
  | succ fuel =>
    obtain ⟨tail, out, d', rfl, body, last, rfl⟩ := (returns_bracketed fits).mp run
    have moved : (pre ++ [letterD] ++ tail).length < 2 ^ 63 := by simpa using fits
    obtain ⟨ps, s, suf, rfl, rfl, rfl, spelled⟩ := (below fuel (by omega)).pairs moved body
    obtain ⟨suf', same, rfl⟩ := (returns_expect (by simpa using fits)).mp last
    obtain rfl : suf = suf' := List.cons_injective.eq_iff.mp same
    exact ⟨letterD :: s ++ [letterE], suf, by simp, by simp, .dict spelled⟩

theorem recovers_value {fuel : Nat} {pre rest : Bytes} {v : Value} {d : Decoder}
    (below : ∀ g < fuel, Recovers p g) (fits : (pre ++ rest).length < 2 ^ 63)
    (run : Returns (parseValueFuel p fuel) (between pre rest) v d) :
    ∃ s suf, rest = s ++ suf ∧ d = between (pre ++ s) suf ∧ Spells (.value v) s := by
  cases fuel with
  | zero => simp [parseValueFuel] at run
  | succ fuel =>
    cases rest with
    | nil => exact absurd run returns_parseValue_nil
    | cons c tail =>
      rw [returns_parseValue_cons] at run
      split_ifs at run with isI isL isD digit
      · obtain ⟨raw, suf, n, same, reads, rfl, rfl⟩ := (returns_parseInteger fits).mp run
        exact ⟨letterI :: raw ++ [letterE], suf, by simpa using same, by simp, .integer reads⟩
      · exact recovers_list (fun g lt => below g (by omega)) fits run
      · exact recovers_dict (fun g lt => below g (by omega)) fits run
      · obtain ⟨raw, b, suf, same, reads, rfl, rfl⟩ := (returns_parseBytes fits).mp run
        cases raw with
        | nil =>
          obtain ⟨rfl, -⟩ := List.cons.inj same
          exact absurd digit (by decide)
        | cons c' raw =>
          obtain ⟨rfl, rfl⟩ := List.cons.inj same
          exact ⟨c :: raw ++ colon :: b, suf, by simp, by simp, .bytes digit reads⟩
      · exact absurd run returns_fail

theorem recovers_items {fuel : Nat} {pre rest : Bytes} {acc out : List Value} {d : Decoder}
    (below : ∀ g < fuel, Recovers p g) (fits : (pre ++ rest).length < 2 ^ 63)
    (run : Returns (parseItems p fuel acc) (between pre rest) out d) :
    ∃ vs s suf, rest = s ++ letterE :: suf ∧ d = between (pre ++ s) (letterE :: suf) ∧
      out = acc ++ vs ∧ Spells (.items vs) s := by
  cases fuel with
  | zero => simp [parseItems] at run
  | succ fuel =>
    cases rest with
    | nil => simp [parseItems, returns_bind, returns_peek] at run
    | cons c tail =>
      rw [returns_parseItems_cons] at run
      split_ifs at run with last
      · obtain ⟨v, d', first, later⟩ := returns_bind.mp run
        obtain ⟨s, suf, same, rfl, spelled⟩ := (below fuel (by omega)).value fits first
        rw [same] at fits ⊢
        obtain ⟨vs, t, suf', rfl, rfl, rfl, others⟩ :=
          (below fuel (by omega)).items (by simpa using fits) later
        exact ⟨v :: vs, s ++ t, suf', by simp, by simp, by simp, .item spelled others⟩
      · obtain rfl := not_not.mp last
        obtain ⟨rfl, rfl⟩ := returns_pure.mp run
        exact ⟨[], [], tail, rfl, by simp, by simp, .noItems⟩

theorem recovers_pairs {fuel : Nat} {pre rest : Bytes} {acc out : OrderedMap Bytes Value}
    {d : Decoder} (below : ∀ g < fuel, Recovers p g) (fits : (pre ++ rest).length < 2 ^ 63)
    (run : Returns (parseEntries p fuel acc) (between pre rest) out d) :
    ∃ ps s suf, rest = s ++ letterE :: suf ∧ d = between (pre ++ s) (letterE :: suf) ∧
      out = acc.insertAll ps ∧ Spells (.pairs ps) s := by
  cases fuel with
  | zero => simp [parseEntries] at run
  | succ fuel =>
    cases rest with
    | nil => simp [parseEntries, returns_bind, returns_peek] at run
    | cons c tail =>
      rw [returns_parseEntries_cons] at run
      split_ifs at run with last
      · obtain ⟨keyVal, d', atKey, run⟩ := returns_bind.mp run
        obtain ⟨s, suf, same, rfl, key⟩ := (below fuel (by omega)).value fits atKey
        rw [same] at fits ⊢
        cases keyVal with
        | bytes k =>
          obtain ⟨v, d', atValue, later⟩ := returns_bind.mp run
          have moved : (pre ++ s ++ suf).length < 2 ^ 63 := by simpa using fits
          obtain ⟨t, suf', rfl, rfl, value⟩ := (below fuel (by omega)).value moved atValue
          obtain ⟨ps, u, suf'', rfl, rfl, rfl, others⟩ :=
            (below fuel (by omega)).pairs (by simpa using moved) later
          exact ⟨(k, v) :: ps, s ++ t ++ u, suf'', by simp, by simp, rfl,
            .pair key value others⟩
        | integer n => exact absurd run returns_fail
        | list items => exact absurd run returns_fail
        | dict map => exact absurd run returns_fail
      · obtain rfl := not_not.mp last
        obtain ⟨rfl, rfl⟩ := returns_pure.mp run
        exact ⟨[], [], tail, rfl, by simp, rfl, .noPairs⟩

theorem run_recovers (p : Profile) (fuel : Nat) : Recovers p fuel := by
  induction fuel using Nat.strong_induction_on with
  | _ fuel below =>
    -- a list or a dictionary spends two units before its loop, so plain induction is too weak
    exact ⟨recovers_value below, recovers_items below, recovers_pairs below⟩

theorem returns_parseValue {pre rest : Bytes} {v : Value} {d : Decoder}
    (fits : (pre ++ rest).length < 2 ^ 63) :
    Returns (parseValue p) (between pre rest) v d ↔
      ∃ s suf, rest = s ++ suf ∧ d = between (pre ++ s) suf ∧ Spells (.value v) s := by
  simp only [parseValue, returns_readState_bind, between_data]
  constructor
  · exact (run_recovers p _).value fits
  · intro parts
    obtain ⟨s, suf, rfl, rfl, spelled⟩ := parts
    apply spells_decodes spelled pre suf _ fits
    simp only [fuelFor, List.length_append]
    omega

theorem decodes_value {data : ByteSeq} {v : Value} {u : Unit} :
    Returns (decode p data) () v u ↔ Spells (.value v) data.bytes := by
  have fits : ([] ++ data.bytes).length < 2 ^ 63 := data.fits
  simp only [decode, returns_bind, Prod.exists, returns_within, new_eq_between,
    returns_parseValue fits, and_true]
  constructor
  · intro parts
    obtain ⟨_, d, _, ⟨s, suf, same, rfl, spelled⟩, run⟩ := parts
    split at run
    · exact absurd run returns_fail
    · rename_i atEnd
      obtain ⟨rfl, -⟩ := returns_pure.mp run
      have whole : suf = [] := by
        simp only [same, between_pos, List.nil_append, List.length_append, ne_eq, not_not]
          at atEnd
        exact List.length_eq_zero_iff.mp (by omega)
      rw [same, whole, List.append_nil]
      exact spelled
  · intro spelled
    refine ⟨v, _, (), ⟨data.bytes, [], by simp, rfl, spelled⟩, ?_⟩
    simp

theorem decodes_leading {data : ByteSeq} {v : Value} {n : Nat} {u : Unit} :
    Returns (decodePartial p data) () (v, n) u ↔
      ∃ s suf, data.bytes = s ++ suf ∧ n = s.length ∧ Spells (.value v) s := by
  have fits : ([] ++ data.bytes).length < 2 ^ 63 := data.fits
  simp only [decodePartial, returns_bind, Prod.exists, returns_within, new_eq_between,
    returns_parseValue fits, and_true]
  constructor
  · intro parts
    obtain ⟨_, d, _, ⟨s, suf, same, rfl, spelled⟩, run⟩ := parts
    obtain ⟨same', -⟩ := returns_pure.mp run
    obtain ⟨rfl, rfl⟩ := Prod.mk.inj same'
    exact ⟨s, suf, same, rfl, spelled⟩
  · intro parts
    obtain ⟨s, suf, same, rfl, spelled⟩ := parts
    exact ⟨v, between s suf, (), ⟨s, suf, same, rfl, spelled⟩, by simp⟩

theorem spelling_unique {v w : Value} {s s' t t' : Bytes} (fits : (s ++ t).length < 2 ^ 63)
    (one : Spells (.value v) s) (other : Spells (.value w) s') (same : s ++ t = s' ++ t') :
    v = w ∧ s = s' ∧ t = t' := by
  have whole : ([] ++ (s ++ t)).length < 2 ^ 63 := fits
  have first : Returns (parseValue .release) (between [] (s ++ t)) v (between ([] ++ s) t) :=
    (returns_parseValue whole).mpr ⟨s, t, rfl, rfl, one⟩
  have second : Returns (parseValue .release) (between [] (s ++ t)) w (between ([] ++ s') t') :=
    (returns_parseValue whole).mpr ⟨s', t', same, rfl, other⟩
  obtain ⟨values, cursors⟩ := returns_unique first second
  exact ⟨values, between_inj.mp cursors⟩

theorem accepted_prefix_eq {one other : ByteSeq} {v w : Value} {u u' : Unit}
    (first : Returns (decode p one) () v u) (second : Returns (decode p other) () w u')
    (starts : one.bytes <+: other.bytes) : one = other ∧ v = w := by
  obtain ⟨t, same⟩ := starts
  have fits : (one.bytes ++ t).length < 2 ^ 63 := same ▸ other.fits
  have whole : one.bytes ++ t = other.bytes ++ [] := by rw [same, List.append_nil]
  obtain ⟨values, texts, -⟩ := spelling_unique fits (decodes_value.mp first)
    (decodes_value.mp second) whole
  exact ⟨ByteSeq.ext texts, values⟩

theorem parsing_local_and_delimited {body : ByteSeq} {pre suf : Bytes} {v : Value} {n : Nat}
    (fits : pre.length + body.bytes.length + suf.length < 2 ^ 63)
    (accepted : Returns (decodePartial p body) () (v, n) ()) :
    n ≤ body.bytes.length ∧
      Returns (parseValue p) ⟨pre ++ body.bytes.take n ++ suf, pre.length⟩ v
        ⟨pre ++ body.bytes.take n ++ suf, pre.length + n⟩ ∧
      Returns (decode p (body.take n)) () v () ∧
      ∀ (one other : ByteSeq) (w w' : Value), Returns (decode p one) () w () →
        Returns (decode p other) () w' () → one.bytes <+: other.bytes →
        one.bytes = other.bytes := by
  obtain ⟨s, rest, same, rfl, spelled⟩ := decodes_leading.mp accepted
  have taken : body.bytes.take s.length = s := by rw [same, List.take_left' rfl]
  have lengths : body.bytes.length = s.length + rest.length := by rw [same, List.length_append]
  refine ⟨by omega, ?_, ?_, ?_⟩
  · have room : (pre ++ (s ++ suf)).length < 2 ^ 63 := by
      simp only [List.length_append]
      omega
    have run := (returns_parseValue (p := p) room).mpr ⟨s, suf, rfl, rfl, spelled⟩
    simpa [between, taken] using run
  · apply decodes_value.mpr
    change Spells _ (body.bytes.take s.length)
    rw [taken]
    exact spelled
  · intro one other w w' first second starts
    rw [(accepted_prefix_eq first second starts).1]

theorem parsing_local_and_delimited_integer :
    3 ≤ 4 ∧ Returns (parseValue .debug) ⟨[0x6c] ++ [0x69, 0x31, 0x65] ++ [0x65], 1⟩ (.integer 1)
      ⟨[0x6c] ++ [0x69, 0x31, 0x65] ++ [0x65], 4⟩ ∧
      Returns (decode .debug ⟨[0x69, 0x31, 0x65], by decide⟩) () (.integer 1) () := by
  have accepted : Returns (decodePartial .debug ⟨[0x69, 0x31, 0x65, 0x58], by decide⟩) ()
      (.integer 1, 3) () := by decide +kernel
  obtain ⟨inside, here, alone, -⟩ :=
    @parsing_local_and_delimited _ _ [0x6c] [0x65] _ _ (by decide) accepted
  exact ⟨inside, here, alone⟩

end BencodeRecognition
