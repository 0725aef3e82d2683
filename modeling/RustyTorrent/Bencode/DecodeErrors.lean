import RustyTorrent.Bencode.CursorErrors

/- The errors of the decoder, read off the text: the first thing that goes wrong in a text is what
   the decoder reports, and nothing else is. -/
namespace DecodeErrors
open RustExec ErrorRuns OrderedMaps Utf8Text Numerals BencodeValue BencodeDecoder DecoderCursor
  BencodeGrammar BencodeRecognition DecoderSafety CursorErrors

/-- The first thing that goes wrong in a text. A byte `e` is wrong where a value has to come: at
    the root, and behind a key. -/
inductive Breaks : Bytes → DecodeError → Prop where
  | value {s rest : Bytes} {e : DecodeError} (opened : OpenAt s)
      (goesOn : rest.head? ≠ some letterE) (stop : Stop s.length rest e) : Breaks (s ++ rest) e
  | noRoot {rest : Bytes} : Breaks (letterE :: rest) (.unexpectedByte letterE 0)
  | noValue {s t u rest k : Bytes} {ps : List (Bytes × Value)} (opened : OpenAt s)
      (pairs : Spells (.pairs ps) t) (key : Spells (.value (.bytes k)) u) :
      Breaks (s ++ letterD :: (t ++ u) ++ letterE :: rest)
        (.unexpectedByte letterE (s ++ letterD :: (t ++ u)).length)
  | key {s t u rest : Bytes} {ps : List (Bytes × Value)} {v : Value} (opened : OpenAt s)
      (pairs : Spells (.pairs ps) t) (spelled : Spells (.value v) u) (other : v.asBytes = none) :
      Breaks (s ++ letterD :: (t ++ u) ++ rest) (.invalidDictKey (s ++ letterD :: t).length)
  | trailing {s rest : Bytes} {v : Value} (spelled : Spells (.value v) s) (more : rest ≠ []) :
      Breaks (s ++ rest) (.trailingData s.length)

variable {p : Profile} {e : DecodeError}

structure Explains (p : Profile) (fuel : Nat) : Prop where
  value : ∀ {pre rest : Bytes} {e : DecodeError}, (pre ++ rest).length < 2 ^ 63 → OpenAt pre →
    (∀ tail, rest = letterE :: tail →
      Breaks (pre ++ rest) (.unexpectedByte letterE pre.length)) →
    Fails (parseValueFuel p fuel) (between pre rest) e → Breaks (pre ++ rest) e
  items : ∀ {pre t rest : Bytes} {vs acc : List Value} {e : DecodeError},
    (pre ++ letterL :: t ++ rest).length < 2 ^ 63 → OpenAt pre → Spells (.items vs) t →
    Fails (parseItems p fuel acc) (between (pre ++ letterL :: t) rest) e →
    Breaks (pre ++ letterL :: t ++ rest) e
  pairs : ∀ {pre t rest : Bytes} {ps : List (Bytes × Value)} {acc : OrderedMap Bytes Value}
    {e : DecodeError},
    (pre ++ letterD :: t ++ rest).length < 2 ^ 63 → OpenAt pre → Spells (.pairs ps) t →
    Fails (parseEntries p fuel acc) (between (pre ++ letterD :: t) rest) e →
    Breaks (pre ++ letterD :: t ++ rest) e

section Explanations
variable {fuel : Nat} (below : ∀ g < fuel, Explains p g)
include below

theorem explains_list {pre tail : Bytes} (fits : (pre ++ letterL :: tail).length < 2 ^ 63)
    (outer : OpenAt pre) (failed : Fails (parseListFuel p fuel) (between pre (letterL :: tail)) e) :
    Breaks (pre ++ letterL :: tail) e := by
  cases fuel with
  | zero => exact absurd failed fails_exhaust
  | succ fuel =>
    rw [fails_parseList fits] at failed
    have moved : (pre ++ [letterL] ++ tail).length < 2 ^ 63 := by simpa using fits
    simpa using (below fuel (Nat.lt_succ_self fuel)).items moved outer .noItems failed

theorem explains_dict {pre tail : Bytes} (fits : (pre ++ letterD :: tail).length < 2 ^ 63)
    (outer : OpenAt pre) (failed : Fails (parseDictFuel p fuel) (between pre (letterD :: tail)) e) :
    Breaks (pre ++ letterD :: tail) e := by
  cases fuel with
  | zero => exact absurd failed fails_exhaust
  | succ fuel =>
    rw [fails_parseDict fits] at failed
    have moved : (pre ++ [letterD] ++ tail).length < 2 ^ 63 := by simpa using fits
    simpa using (below fuel (Nat.lt_succ_self fuel)).pairs moved outer .noPairs failed

theorem explains_value {pre rest : Bytes} (fits : (pre ++ rest).length < 2 ^ 63)
    (outer : OpenAt pre) (missing : ∀ tail, rest = letterE :: tail →
      Breaks (pre ++ rest) (.unexpectedByte letterE pre.length))
    (failed : Fails (parseValueFuel p fuel) (between pre rest) e) : Breaks (pre ++ rest) e := by
  cases fuel with
  | zero => exact absurd failed fails_exhaust
  | succ fuel =>
    have inner : ∀ g < fuel, Explains p g := fun g lt => below g (by omega)
    cases rest with
    | nil =>
      obtain rfl := fails_parseValue_nil.mp failed
      exact .value outer (by simp) .ended
    | cons c tail =>
      rw [fails_parseValue_cons] at failed
      split_ifs at failed with isI isL isD digit
      · subst isI
        have goesOn : (letterI :: tail).head? ≠ some letterE := by
          rw [List.head?_cons]
          decide
        exact .value outer goesOn ((fails_parseInteger fits).mp failed)
      · subst isL
        exact explains_list inner fits outer failed
      · subst isD
        exact explains_dict inner fits outer failed
      · have notE := (digit_not_letter digit).2.2.2
        exact .value outer (by simpa using notE) ((fails_parseBytes digit fits).mp failed)
      · obtain rfl := fails_fail.mp failed
        by_cases last : c = letterE
        · subst last
          exact missing tail rfl
        · exact .value outer (by simpa using last) (.stray isI isL isD digit)

theorem explains_items {pre t rest : Bytes} {vs acc : List Value}
    (fits : (pre ++ letterL :: t ++ rest).length < 2 ^ 63) (outer : OpenAt pre)
    (items : Spells (.items vs) t)
    (failed : Fails (parseItems p fuel acc) (between (pre ++ letterL :: t) rest) e) :
    Breaks (pre ++ letterL :: t ++ rest) e := by
  cases fuel with
  | zero =>
    rw [parseItems] at failed
    exact absurd failed fails_exhaust
  | succ fuel =>
    have opened := OpenAt.item outer items
    cases rest with
    | nil =>
      obtain rfl := fails_parseItems_nil.mp failed
      exact .value opened (by simp) .ended
    | cons c tail =>
      by_cases last : c = letterE
      · rw [parseItems, fails_bind_step (peek_first _ _ _), if_neg (not_not.mpr last)] at failed
        exact absurd failed fails_pure
      · rcases (fails_parseItems_cons last).mp failed with failed | ⟨v, d, read, failed⟩
        · refine (below fuel (Nat.lt_succ_self fuel)).value fits opened ?_ failed
          intro after same
          exact absurd (List.cons.inj same).1 last
        · obtain ⟨s, suf, same, rfl, spelled⟩ := (run_recovers p fuel).value fits read
          rw [same] at fits ⊢
          have later : Breaks (pre ++ letterL :: (t ++ s) ++ suf) e :=
            (below fuel (Nat.lt_succ_self fuel)).items (by simpa using fits) outer
              (items_snoc items spelled) (by simpa using failed)
          simpa using later

theorem explains_pairs {pre t rest : Bytes} {ps : List (Bytes × Value)}
    {acc : OrderedMap Bytes Value} (fits : (pre ++ letterD :: t ++ rest).length < 2 ^ 63)
    (outer : OpenAt pre) (pairs : Spells (.pairs ps) t)
    (failed : Fails (parseEntries p fuel acc) (between (pre ++ letterD :: t) rest) e) :
    Breaks (pre ++ letterD :: t ++ rest) e := by
  cases fuel with
  | zero =>
    rw [parseEntries] at failed
    exact absurd failed fails_exhaust
  | succ fuel =>
    have inner := below fuel (Nat.lt_succ_self fuel)
    cases rest with
    | nil =>
      obtain rfl := fails_parseEntries_nil.mp failed
      exact .value (.key outer pairs) (by simp) .ended
    | cons c tail =>
      by_cases last : c = letterE
      · rw [parseEntries, fails_bind_step (peek_first _ _ _), if_neg (not_not.mpr last)] at failed
        exact absurd failed fails_pure
      · rcases (fails_parseEntries_cons last).mp failed with failed | ⟨v, d, read, failed⟩
        · refine inner.value fits (.key outer pairs) ?_ failed
          intro after same
          exact absurd (List.cons.inj same).1 last
        · obtain ⟨s, suf, same, rfl, spelled⟩ := (run_recovers p fuel).value fits read
          rw [same] at fits ⊢
          rcases failed with ⟨other, rfl⟩ | ⟨k, rfl, failed | ⟨w, d', read', failed⟩⟩
          · simpa using @Breaks.key _ _ _ suf _ _ outer pairs spelled other
          · have atValue : Breaks (pre ++ letterD :: (t ++ s) ++ suf) e := by
              refine inner.value (by simpa using fits) (.value outer pairs spelled) ?_
                (by simpa using failed)
              intro after next
              subst next
              exact .noValue outer pairs spelled
            simpa using atValue
          · obtain ⟨s', suf', rfl, rfl, spelled'⟩ :=
              (run_recovers p fuel).value (by simpa using fits) read'
            have later : Breaks (pre ++ letterD :: (t ++ (s ++ s')) ++ suf') e :=
              inner.pairs (by simpa using fits) outer (pairs_snoc pairs spelled spelled')
                (by simpa using failed)
            simpa using later

end Explanations

theorem run_explains (p : Profile) (fuel : Nat) : Explains p fuel := by
  induction fuel using Nat.strong_induction_on with
  | _ fuel below => exact ⟨explains_value below, explains_items below, explains_pairs below⟩

theorem stop_fails {pre rest : Bytes} (fits : (pre ++ rest).length < 2 ^ 63)
    (stop : Stop pre.length rest e) : HaltsAt p (.error e) pre rest := by
  intro fuel enough
  obtain ⟨fuel, rfl⟩ : ∃ f, fuel = f + 1 := ⟨fuel - 1, by omega⟩
  change Fails (parseValueFuel p (fuel + 1)) (between pre rest) e
  cases rest with
  | nil =>
    cases stop
    exact fails_parseValue_nil.mpr rfl
  | cons c tail =>
    rw [fails_parseValue_cons]
    split_ifs with isI isL isD digit
    · subst isI
      exact (fails_parseInteger fits).mpr stop
    · subst isL
      cases stop with
      | stray _ notL => exact absurd rfl notL
      | length digit => exact absurd digit (by decide)
      | openLength digit => exact absurd digit (by decide)
      | short digit => exact absurd digit (by decide)
    · subst isD
      cases stop with
      | stray _ _ notD => exact absurd rfl notD
      | length digit => exact absurd digit (by decide)
      | openLength digit => exact absurd digit (by decide)
      | short digit => exact absurd digit (by decide)
    · exact (fails_parseBytes digit fits).mpr stop
    · cases stop with
      | stray => exact fails_fail.mpr rfl
      | integer => exact absurd rfl isI
      | openInteger => exact absurd rfl isI
      | length yes => exact absurd yes digit
      | openLength yes => exact absurd yes digit
      | short yes => exact absurd yes digit

theorem stray_end_fails {pre tail : Bytes} :
    HaltsAt p (.error (.unexpectedByte letterE pre.length)) pre (letterE :: tail) := by
  intro fuel enough
  obtain ⟨fuel, rfl⟩ : ∃ f, fuel = f + 1 := ⟨fuel - 1, by omega⟩
  rw [halts_parseValue_cons, if_neg (by decide), if_neg (by decide), if_neg (by decide),
    if_neg (by decide)]
  exact fails_fail.mpr rfl

theorem fails_for_key {pre t u rest : Bytes} {ps : List (Bytes × Value)} {v : Value}
    (pairs : Spells (.pairs ps) t) (spelled : Spells (.value v) u) (other : v.asBytes = none)
    (fits : (pre ++ letterD :: (t ++ (u ++ rest))).length < 2 ^ 63) :
    HaltsAt p (.error (.invalidDictKey (pre ++ letterD :: t).length)) pre
      (letterD :: (t ++ (u ++ rest))) := by
  refine halts_in_dict fits fun acc fuel enough => ?_
  refine halts_pairs pairs (by simpa using fits) (fun acc' fuel' enough' => ?_) enough
  obtain ⟨fuel', rfl⟩ : ∃ f, fuel' = f + 1 := ⟨fuel' - 1, by omega⟩
  obtain ⟨b, rest', start, notE⟩ := value_first_byte spelled
  simp only [List.length_append] at enough'
  have read := spells_decodes (p := p) spelled (pre ++ [letterD] ++ t) rest fuel'
    (by simpa using fits) (by omega)
  rw [start] at read ⊢
  simp only [List.cons_append] at read ⊢
  exact (fails_parseEntries_cons notE).mpr (Or.inr ⟨v, _, read, Or.inl ⟨other, by simp⟩⟩)

theorem fails_decode {data : ByteSeq} : Fails (decode p data) () e ↔
    Fails (parseValue p) (Decoder.new data.bytes) e ∨
      ∃ s rest v, data.bytes = s ++ rest ∧ Spells (.value v) s ∧ rest ≠ [] ∧
        e = .trailingData s.length := by
  have fits : ([] ++ data.bytes).length < 2 ^ 63 := data.fits
  unfold decode
  rw [fails_bind, fails_within]
  refine or_congr_right ?_
  simp only [Prod.exists, returns_within, new_eq_between, returns_parseValue fits]
  constructor
  · intro failed
    obtain ⟨v, d, u, ⟨⟨s, rest, same, rfl, spelled⟩, -⟩, failed⟩ := failed
    split at failed
    · rename_i goesOn
      refine ⟨s, rest, v, same, spelled, ?_, (fails_fail.mp failed).symm⟩
      rintro rfl
      rw [List.append_nil] at same
      exact goesOn (by rw [same]; rfl)
    · exact absurd failed fails_pure
  · intro trails
    obtain ⟨s, rest, v, same, spelled, more, rfl⟩ := trails
    refine ⟨v, _, (), ⟨⟨s, rest, same, rfl, spelled⟩, trivial⟩, ?_⟩
    have goesOn : (between ([] ++ s) rest).pos ≠ data.bytes.length := by
      rw [same, between_pos, List.nil_append, List.length_append]
      have := List.length_pos_iff.mpr more
      omega
    rw [if_pos goesOn]
    exact fails_fail.mpr rfl

theorem decode_fails_iff {data : ByteSeq} : Fails (decode p data) () e ↔ Breaks data.bytes e := by
  have fits : ([] ++ data.bytes).length < 2 ^ 63 := data.fits
  rw [fails_decode]
  constructor
  · intro failed
    rcases failed with failed | ⟨s, rest, v, same, spelled, more, rfl⟩
    · unfold parseValue at failed
      rw [fails_readState_bind, new_eq_between] at failed
      refine (run_explains p _).value fits .root ?_ failed
      intro tail same
      rw [same]
      exact .noRoot
    · rw [same]
      exact .trailing spelled more
  · have goesOn : ∀ {tail}, (letterD :: tail : Bytes).head? ≠ some letterE := by
      intro tail
      rw [List.head?_cons]
      decide
    obtain ⟨bytes, fits'⟩ := data
    intro breaks
    cases breaks with
    | value opened inside stop =>
      exact Or.inl (halts_parseValue
        (halt_reaches_root opened inside fits' (stop_fails fits' stop)))
    | noRoot => exact Or.inl (halts_parseValue stray_end_fails)
    | @noValue s t u rest k ps opened pairs key =>
      have moved : (s ++ letterD :: (t ++ (u ++ letterE :: rest))).length < 2 ^ 63 := by
        simpa using fits'
      have here := halts_behind_key (p := p) pairs key moved stray_end_fails
      have root := halts_parseValue (halt_reaches_root opened goesOn moved here)
      exact Or.inl (by simpa [Halts] using root)
    | @key s t u rest ps v opened pairs spelled other =>
      have moved : (s ++ letterD :: (t ++ (u ++ rest))).length < 2 ^ 63 := by simpa using fits'
      have here := fails_for_key (p := p) pairs spelled other moved
      have root := halts_parseValue (halt_reaches_root opened goesOn moved here)
      exact Or.inl (by simpa [Halts] using root)
    | trailing spelled more => exact Or.inr ⟨_, _, _, rfl, spelled, more, rfl⟩

theorem safe_decode {data : ByteSeq} (sums : LengthsFit data.bytes) :
    Safe (decode p data) () := by
  apply safe_bind (safe_within.mpr (safe_parseValue data.fits sums))
  intro parsed u _
  dsimp only
  split
  · exact safe_fail _ _
  · exact safe_pure _ _

theorem decode_panics_iff {data : ByteSeq} :
    Panics (decode p data) () ↔ ¬ LengthsFit data.bytes := by
  constructor
  · intro panic sums
    exact panic_not_safe panic (safe_decode sums)
  · intro violated
    exact panics_bind_first (panics_within (panics_parseValue data.fits violated))

/-- The three ends of a decode, each by the text alone. -/
theorem decode_outcomes (p : Profile) (data : ByteSeq) :
    (∀ v, Returns (decode p data) () v () ↔ Spells (.value v) data.bytes) ∧
    (∀ e, Fails (decode p data) () e ↔ Breaks data.bytes e) ∧
    (Panics (decode p data) () ↔ ¬ LengthsFit data.bytes) :=
  ⟨fun _ => decodes_value, fun _ => decode_fails_iff, decode_panics_iff⟩

/-- `d1:ae`, a key without a value. -/
example : Fails (decode .debug ⟨utf8Bytes "d1:ae", by decide +kernel⟩) ()
    (.unexpectedByte letterE 4) := by
  unfold Fails
  decide +kernel

end DecodeErrors
