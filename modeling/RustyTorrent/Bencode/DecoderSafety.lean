import RustyTorrent.Bencode.BencodeRecognition
import RustyTorrent.Library.ErrorRuns

/- Which inputs the decoder handles without a panic. The cursor stays in bounds on every
   path; the only check that can fail is the sum of the cursor and a byte string length
   that the text spells. -/
namespace DecoderSafety
open RustExec ErrorRuns OrderedMaps Utf8Text Numerals BencodeValue BencodeDecoder DecoderCursor
  BencodeGrammar BencodeRecognition

variable {p : Profile}

/-- The texts after which the decoder is about to parse a value: at the root, behind the
    items of an open list, at a key or behind a key of an open dictionary. -/
inductive OpenAt : Bytes → Prop where
  | root : OpenAt []
  | item {s t : Bytes} {vs : List Value} (outer : OpenAt s) (items : Spells (.items vs) t) :
      OpenAt (s ++ letterL :: t)
  | key {s t : Bytes} {ps : List (Bytes × Value)} (outer : OpenAt s)
      (pairs : Spells (.pairs ps) t) : OpenAt (s ++ letterD :: t)
  | value {s t u : Bytes} {ps : List (Bytes × Value)} {k : Bytes} (outer : OpenAt s)
      (pairs : Spells (.pairs ps) t) (key : Spells (.value (.bytes k)) u) :
      OpenAt (s ++ letterD :: (t ++ u))

/-- Wherever a byte string can start, its length and its place sum to a usize. -/
def LengthsFit (data : Bytes) : Prop :=
  ∀ s c raw rest length, data = s ++ (c :: raw ++ colon :: rest) → OpenAt s →
    isDigit c = true → parseUsize (c :: raw) = some length →
    (s ++ c :: raw ++ [colon]).length + length < 2 ^ 64

theorem safe_peek (d : Decoder) : Safe peek d :=
  safe_readState_bind (safe_okOr _ _ _)

theorem safe_advance {pre rest : Bytes} (fits : (pre ++ rest).length < 2 ^ 63) :
    Safe (advance p) (between pre rest) := by
  apply safe_bind (safe_peek _)
  intro c d read
  obtain ⟨-, rfl⟩ := returns_peek.mp read
  have small : (between pre rest).pos + 1 < 2 ^ 64 := by
    simp only [List.length_append] at fits
    simp only [between_pos]
    omega
  refine safe_readState_bind (safe_usizeAdd_bind small ?_)
  exact safe_bind (safe_writeState _ _) fun _ _ _ => safe_pure _ _

theorem safe_expect {pre rest : Bytes} {c : UInt8} (fits : (pre ++ rest).length < 2 ^ 63) :
    Safe (expect p c) (between pre rest) := by
  apply safe_bind (safe_advance fits)
  intro byte d read
  obtain ⟨tail, rfl, rfl⟩ := (returns_advance fits).mp read
  split
  · have lengths : pre.length + (tail.length + 1) < 2 ^ 63 := by simpa using fits
    refine safe_readState_bind (safe_bind (safe_usizeSub _ ?_ ?_) fun _ _ _ => safe_fail _ _)
    · simp
    · simp only [between_pos, List.length_append, List.length_singleton]
      omega
  · exact safe_pure _ _

theorem safe_scanUntil {stop : UInt8} {fuel : Nat} {pre rest : Bytes}
    (fits : (pre ++ rest).length < 2 ^ 63) (enough : rest.length < fuel) :
    Safe (scanUntil p stop fuel) (between pre rest) := by
  induction fuel generalizing pre rest with
  | zero => omega
  | succ fuel ih =>
    apply safe_readState_bind
    split
    · rename_i inside
      apply safe_bind (safe_index _ inside)
      intro c d read
      obtain ⟨here, rfl⟩ := returns_index.mp read
      split
      · obtain ⟨tail, rfl⟩ : ∃ tail, rest = c :: tail := by
          rw [between_pos, between_data, next_byte] at here
          exact List.head?_eq_some_iff.mp here
        have small : (between pre (c :: tail)).pos + 1 < 2 ^ 64 := by
          simp only [List.length_append] at fits
          simp only [between_pos]
          omega
        refine safe_usizeAdd_bind small (safe_bind (safe_writeState _ _) ?_)
        intro u d moved
        obtain rfl := returns_writeState.mp moved
        simp only [between_data, between_pos, between_step]
        exact ih (by simpa using fits) (by simp only [List.length_cons] at enough; omega)
      · exact safe_pure _ _
    · exact safe_pure _ _

theorem safe_scanned {α β : Type} {stop : UInt8} {pre tail : Bytes} {e : DecodeError}
    {parse : Bytes → Option α} {next : α → Exec Decoder DecodeError β}
    (fits : (pre ++ tail).length < 2 ^ 63)
    (later : ∀ a, parse (tail.takeWhile (· ≠ stop)) = some a → Safe (next a)
      (between (pre ++ tail.takeWhile (· ≠ stop)) (tail.dropWhile (· ≠ stop)))) :
    Safe (do
        scanUntil p stop ((pre ++ tail).length + 1)
        let self ← readState
        let raw ← slice self.data pre.length self.pos
        let str ← okOr (fromUtf8 raw) e
        let a ← okOr (parse (utf8Bytes str)) e
        next a) (between pre tail) := by
  have enough : tail.length < (pre ++ tail).length + 1 := by
    simp only [List.length_append]
    omega
  apply safe_bind (safe_scanUntil fits enough)
  intro u d scan
  obtain rfl := (returns_scanUntil fits enough).mp scan
  refine safe_readState_bind (safe_bind (safe_slice _ ?_ ?_) ?_)
  · simp
  · simp only [between_data, between_pos, List.length_append]
    omega
  · intro raw d sliced
    obtain ⟨-, rfl, rfl⟩ := returns_slice.mp sliced
    rw [between_data, between_pos, slice_between]
    apply safe_bind (safe_okOr _ _ _)
    intro str d read
    obtain ⟨text, rfl⟩ := returns_okOr.mp read
    apply safe_bind (safe_okOr _ _ _)
    intro a d parsed
    obtain ⟨reads, rfl⟩ := returns_okOr.mp parsed
    rw [utf8Bytes_of_fromUtf8 text] at reads
    exact later a reads

theorem scan_fits {stop : UInt8} {pre tail : Bytes} (fits : (pre ++ tail).length < 2 ^ 63) :
    (pre ++ tail.takeWhile (· ≠ stop) ++ tail.dropWhile (· ≠ stop)).length < 2 ^ 63 := by
  rw [List.append_assoc, List.takeWhile_append_dropWhile]
  exact fits

theorem pos_le_length (pre rest : Bytes) :
    (between pre rest).pos ≤ (between pre rest).data.length := by simp

theorem safe_parseInteger {pre rest : Bytes} (fits : (pre ++ rest).length < 2 ^ 63) :
    Safe (parseInteger p) (between pre rest) := by
  refine safe_readState_bind (safe_enter_bind (pos_le_length _ _) ?_)
  apply safe_bind (safe_expect fits)
  intro u d first
  obtain ⟨tail, rfl, rfl⟩ := (returns_expect fits).mp first
  have moved : (pre ++ [letterI] ++ tail).length < 2 ^ 63 := by simpa using fits
  refine safe_readState_bind (safe_scanned moved ?_)
  intro n _
  exact safe_bind (safe_expect (scan_fits moved)) fun _ _ _ => safe_pure _ _

theorem safe_takeBytes {pre rest : Bytes} {length : Nat} (sum : pre.length + length < 2 ^ 64) :
    Safe (takeBytes p length) (between pre rest) := by
  refine safe_readState_bind (safe_usizeAdd_bind sum ?_)
  split
  · exact safe_fail _ _
  · rename_i inside
    apply safe_usizeAdd_bind sum
    apply safe_bind (safe_slice _ (Nat.le_add_right _ _) (not_lt.mp inside))
    intro bytes d sliced
    obtain ⟨-, -, rfl⟩ := returns_slice.mp sliced
    exact safe_usizeAdd_bind sum (safe_bind (safe_writeState _ _) fun _ _ _ => safe_pure _ _)

theorem safe_parseBytes {pre rest : Bytes} (fits : (pre ++ rest).length < 2 ^ 63)
    (sums : ∀ raw tail length, rest = raw ++ colon :: tail → parseUsize raw = some length →
      (pre ++ raw ++ [colon]).length + length < 2 ^ 64) :
    Safe (parseBytes p) (between pre rest) := by
  refine safe_readState_bind (safe_enter_bind (pos_le_length _ _) (safe_scanned fits ?_))
  intro length reads
  apply safe_bind (safe_expect (scan_fits fits))
  intro u d last
  obtain ⟨tail, stopped, rfl⟩ := (returns_expect (scan_fits fits)).mp last
  refine safe_takeBytes (sums _ tail length ?_ reads)
  rw [← stopped, List.takeWhile_append_dropWhile]

structure SafeFor (p : Profile) (fuel : Nat) : Prop where
  value : ∀ {pre rest : Bytes}, (pre ++ rest).length < 2 ^ 63 → LengthsFit (pre ++ rest) →
    OpenAt pre → 3 * rest.length + 1 ≤ fuel → Safe (parseValueFuel p fuel) (between pre rest)
  items : ∀ {pre t rest : Bytes} {vs acc : List Value},
    (pre ++ letterL :: t ++ rest).length < 2 ^ 63 → LengthsFit (pre ++ letterL :: t ++ rest) →
    OpenAt pre → Spells (.items vs) t → 3 * rest.length + 2 ≤ fuel →
    Safe (parseItems p fuel acc) (between (pre ++ letterL :: t) rest)
  pairs : ∀ {pre t rest : Bytes} {ps : List (Bytes × Value)} {acc : OrderedMap Bytes Value},
    (pre ++ letterD :: t ++ rest).length < 2 ^ 63 → LengthsFit (pre ++ letterD :: t ++ rest) →
    OpenAt pre → Spells (.pairs ps) t → 3 * rest.length + 2 ≤ fuel →
    Safe (parseEntries p fuel acc) (between (pre ++ letterD :: t) rest)

theorem safe_list {fuel : Nat} {pre rest : Bytes} (below : ∀ g < fuel, SafeFor p g)
    (fits : (pre ++ rest).length < 2 ^ 63) (sums : LengthsFit (pre ++ rest)) (outer : OpenAt pre)
    (enough : 3 * rest.length ≤ fuel) (positive : 0 < fuel) :
    Safe (parseListFuel p fuel) (between pre rest) := by
  obtain ⟨fuel, rfl⟩ : ∃ f, fuel = f + 1 := ⟨fuel - 1, by omega⟩
  refine safe_readState_bind (safe_enter_bind (pos_le_length _ _) ?_)
  apply safe_bind (safe_expect fits)
  intro u d first
  obtain ⟨tail, rfl, rfl⟩ := (returns_expect fits).mp first
  have moved : (pre ++ [letterL] ++ tail).length < 2 ^ 63 := by simpa using fits
  refine safe_bind ?_ ?_
  · simp only [List.length_cons] at enough
    exact (below fuel (by omega)).items moved (by simpa using sums) outer .noItems (by omega)
  · intro items d body
    obtain ⟨vs, s, suf, rfl, rfl, rfl, spelled⟩ := (run_recovers p fuel).items moved body
    exact safe_bind (safe_expect (by simpa using moved)) fun _ _ _ => safe_pure _ _

theorem safe_dict {fuel : Nat} {pre rest : Bytes} (below : ∀ g < fuel, SafeFor p g)
    (fits : (pre ++ rest).length < 2 ^ 63) (sums : LengthsFit (pre ++ rest)) (outer : OpenAt pre)
    (enough : 3 * rest.length ≤ fuel) (positive : 0 < fuel) :
    Safe (parseDictFuel p fuel) (between pre rest) := by
  obtain ⟨fuel, rfl⟩ : ∃ f, fuel = f + 1 := ⟨fuel - 1, by omega⟩
  refine safe_readState_bind (safe_enter_bind (pos_le_length _ _) ?_)
  apply safe_bind (safe_expect fits)
  intro u d first
  obtain ⟨tail, rfl, rfl⟩ := (returns_expect fits).mp first
  have moved : (pre ++ [letterD] ++ tail).length < 2 ^ 63 := by simpa using fits
  refine safe_bind ?_ ?_
  · simp only [List.length_cons] at enough
    exact (below fuel (by omega)).pairs moved (by simpa using sums) outer .noPairs (by omega)
  · intro map d body
    obtain ⟨ps, s, suf, rfl, rfl, rfl, spelled⟩ := (run_recovers p fuel).pairs moved body
    exact safe_bind (safe_expect (by simpa using moved)) fun _ _ _ => safe_pure _ _

theorem safe_value {fuel : Nat} {pre rest : Bytes} (below : ∀ g < fuel, SafeFor p g)
    (fits : (pre ++ rest).length < 2 ^ 63) (sums : LengthsFit (pre ++ rest)) (outer : OpenAt pre)
    (enough : 3 * rest.length + 1 ≤ fuel) : Safe (parseValueFuel p fuel) (between pre rest) := by
  obtain ⟨fuel, rfl⟩ : ∃ f, fuel = f + 1 := ⟨fuel - 1, by omega⟩
  refine safe_readState_bind (safe_enter_bind (pos_le_length _ _) ?_)
  apply safe_bind (safe_peek _)
  intro c d read
  obtain ⟨here, rfl⟩ := returns_peek.mp read
  obtain ⟨tail, rfl⟩ := List.head?_eq_some_iff.mp here
  simp only [List.length_cons] at enough
  have inner : ∀ g < fuel, SafeFor p g := fun g lt => below g (by omega)
  split_ifs with isI isL isD digit
  · exact safe_parseInteger fits
  · exact safe_list inner fits sums outer (by simp only [List.length_cons]; omega) (by omega)
  · exact safe_dict inner fits sums outer (by simp only [List.length_cons]; omega) (by omega)
  · apply safe_parseBytes fits
    intro raw rest length split reads
    cases raw with
    | nil => simp [parseUsize] at reads
    | cons b raw =>
      obtain ⟨rfl, rfl⟩ := List.cons.inj split
      exact sums pre c raw rest length (by simp) outer digit reads
  · exact safe_fail _ _

theorem safe_items {fuel : Nat} {pre t rest : Bytes} {vs acc : List Value}
    (below : ∀ g < fuel, SafeFor p g) (fits : (pre ++ letterL :: t ++ rest).length < 2 ^ 63)
    (sums : LengthsFit (pre ++ letterL :: t ++ rest)) (outer : OpenAt pre)
    (items : Spells (.items vs) t) (enough : 3 * rest.length + 2 ≤ fuel) :
    Safe (parseItems p fuel acc) (between (pre ++ letterL :: t) rest) := by
  obtain ⟨fuel, rfl⟩ : ∃ f, fuel = f + 1 := ⟨fuel - 1, by omega⟩
  apply safe_bind (safe_peek _)
  intro c d read
  obtain ⟨-, rfl⟩ := returns_peek.mp read
  split
  · apply safe_bind ((below fuel (by omega)).value fits sums (.item outer items) (by omega))
    intro v d first
    obtain ⟨s, suf, rfl, rfl, spelled⟩ := (run_recovers p fuel).value fits first
    have long := value_length spelled
    simp only [List.length_append] at enough
    have next : Safe (parseItems p fuel (acc ++ [v])) (between (pre ++ letterL :: (t ++ s)) suf) :=
      (below fuel (by omega)).items (by simpa using fits) (by simpa using sums) outer
        (items_snoc items spelled) (by omega)
    simpa using next
  · exact safe_pure _ _

theorem safe_pairs {fuel : Nat} {pre t rest : Bytes} {ps : List (Bytes × Value)}
    {acc : OrderedMap Bytes Value} (below : ∀ g < fuel, SafeFor p g)
    (fits : (pre ++ letterD :: t ++ rest).length < 2 ^ 63)
    (sums : LengthsFit (pre ++ letterD :: t ++ rest)) (outer : OpenAt pre)
    (pairs : Spells (.pairs ps) t) (enough : 3 * rest.length + 2 ≤ fuel) :
    Safe (parseEntries p fuel acc) (between (pre ++ letterD :: t) rest) := by
  obtain ⟨fuel, rfl⟩ : ∃ f, fuel = f + 1 := ⟨fuel - 1, by omega⟩
  apply safe_bind (safe_peek _)
  intro c d read
  obtain ⟨-, rfl⟩ := returns_peek.mp read
  split
  · apply safe_readState_bind
    apply safe_bind ((below fuel (by omega)).value fits sums (.key outer pairs) (by omega))
    intro keyVal d atKey
    obtain ⟨s, suf, rfl, rfl, spelled⟩ := (run_recovers p fuel).value fits atKey
    have long := value_length spelled
    simp only [List.length_append] at enough
    split
    · rename_i key
      have moved : (pre ++ letterD :: (t ++ s) ++ suf).length < 2 ^ 63 := by simpa using fits
      have sums' : LengthsFit (pre ++ letterD :: (t ++ s) ++ suf) := by simpa using sums
      have atValue := (below fuel (by omega)).value moved sums' (.value outer pairs spelled)
        (by omega)
      apply safe_bind (by simpa using atValue)
      intro v d read
      obtain ⟨s', suf', rfl, rfl, spelled'⟩ :=
        (run_recovers p fuel).value (by simpa using fits) read
      simp only [List.length_append] at enough
      have next : Safe (parseEntries p fuel (acc.insert key v))
          (between (pre ++ letterD :: (t ++ (s ++ s'))) suf') :=
        (below fuel (by omega)).pairs (by simpa using moved) (by simpa using sums') outer
          (pairs_snoc pairs spelled spelled') (by omega)
      simpa using next
    · exact safe_fail _ _
  · exact safe_pure _ _

theorem safe_for (p : Profile) (fuel : Nat) : SafeFor p fuel := by
  induction fuel using Nat.strong_induction_on with
  | _ fuel below => exact ⟨safe_value below, safe_items below, safe_pairs below⟩

theorem panics_takeBytes {pre rest : Bytes} {length : Nat} (fits : (pre ++ rest).length < 2 ^ 63)
    (bound : length < 2 ^ 64) (exceeds : 2 ^ 64 ≤ pre.length + length) :
    Panics (takeBytes p length) (between pre rest) := by
  have lengths := fits
  simp only [List.length_append] at lengths
  apply panics_readState_bind
  have sum := @usizeAdd_overflow Decoder DecodeError p pre.length length (between pre rest)
    (by omega) bound exceeds
  rcases sum with panic | wrapped
  · exact panics_bind_first panic
  · apply panics_bind_after wrapped
    have short : ¬ pre.length + length - 2 ^ 64 > (pre ++ rest).length := by
      simp only [List.length_append]
      omega
    simp only [between_data, short, ↓reduceIte]
    -- the wrapped end lies before the cursor
    refine panics_bind_after wrapped (panics_bind_first ⟨.bounds, ?_⟩)
    have backwards : ¬ (pre.length ≤ pre.length + length - 2 ^ 64 ∧
        pre.length + length - 2 ^ 64 ≤ (pre ++ rest).length) := by omega
    simp only [slice, between_pos, backwards, ↓reduceIte]

theorem panics_parseBytes {pre raw rest : Bytes} {length : Nat}
    (fits : (pre ++ (raw ++ colon :: rest)).length < 2 ^ 63) (reads : parseUsize raw = some length)
    (exceeds : 2 ^ 64 ≤ (pre ++ raw ++ [colon]).length + length) :
    Panics (parseBytes p) (between pre (raw ++ colon :: rest)) := by
  obtain ⟨body, stopped⟩ := @takeWhile_before colon raw rest fun b h =>
    numeral_not_colon (parseUsize_bytes reads b h)
  have enough : (raw ++ colon :: rest).length < (pre ++ (raw ++ colon :: rest)).length + 1 := by
    simp only [List.length_append]
    omega
  have scan : Returns (scanUntil p colon ((pre ++ (raw ++ colon :: rest)).length + 1))
      (between pre (raw ++ colon :: rest)) () (between (pre ++ raw) (colon :: rest)) := by
    rw [returns_scanUntil fits enough, body, stopped]
  have moved : (pre ++ raw ++ colon :: rest).length < 2 ^ 63 := by simpa using fits
  obtain ⟨text, valid⟩ := fromUtf8_ascii raw fun b member => by
    have := numeral_byte_ascii (parseUsize_bytes reads b member)
    omega
  refine panics_readState_bind (panics_enter_bind (panics_bind_after scan ?_))
  refine panics_readState_bind (panics_bind_after (returns_slice.mpr ⟨⟨?_, ?_⟩, rfl, rfl⟩) ?_)
  · simp
  · simp only [between_data, between_pos, List.length_append]
    omega
  · simp only [between_data, between_pos, slice_between]
    apply panics_okOr_bind valid
    rw [utf8Bytes_of_fromUtf8 valid]
    apply panics_okOr_bind reads
    apply panics_bind_after ((returns_expect (u := ()) moved).mpr ⟨rest, rfl, rfl⟩)
    exact panics_takeBytes (by simpa using moved) (parseUsize_lt reads) exceeds

/-- A value that halts the run so whenever it is reached, from fuel for the text that is left
    on. -/
def HaltsAt (p : Profile) (h : Halt DecodeError) (pre rest : Bytes) : Prop :=
  ∀ fuel, 3 * rest.length + 1 ≤ fuel → Halts (parseValueFuel p fuel) (between pre rest) h

section Reached
variable {h : Halt DecodeError} {pre tail rest : Bytes} {fuel : Nat}

theorem halts_parseValue_cons {c : UInt8} :
    Halts (parseValueFuel p (fuel + 1)) (between pre (c :: tail)) h ↔
      Halts (if c = letterI then parseInteger p
        else if c = letterL then parseListFuel p fuel
        else if c = letterD then parseDictFuel p fuel
        else if isDigit c then parseBytes p
        else fail (.unexpectedByte c pre.length)) (between pre (c :: tail)) h := by
  rw [parseValueFuel, halts_readState_bind, halts_enter_bind,
    halts_bind_step (peek_first pre tail c)]
  rfl

theorem halts_in_list (fits : (pre ++ letterL :: tail).length < 2 ^ 63)
    (body : ∀ acc fuel, 3 * tail.length + 2 ≤ fuel →
      Halts (parseItems p fuel acc) (between (pre ++ [letterL]) tail) h) :
    HaltsAt p h pre (letterL :: tail) := by
  intro fuel enough
  simp only [List.length_cons] at enough
  obtain ⟨fuel, rfl⟩ : ∃ f, fuel = f + 2 := ⟨fuel - 2, by omega⟩
  have first := (returns_expect (p := p) (u := ()) fits).mpr ⟨tail, rfl, rfl⟩
  rw [halts_parseValue_cons, if_neg (by decide), if_pos rfl, parseListFuel, halts_readState_bind,
    halts_enter_bind, halts_bind_step first]
  exact halts_bind_first (body [] fuel (by omega))

theorem halts_in_dict (fits : (pre ++ letterD :: tail).length < 2 ^ 63)
    (body : ∀ acc fuel, 3 * tail.length + 2 ≤ fuel →
      Halts (parseEntries p fuel acc) (between (pre ++ [letterD]) tail) h) :
    HaltsAt p h pre (letterD :: tail) := by
  intro fuel enough
  simp only [List.length_cons] at enough
  obtain ⟨fuel, rfl⟩ : ∃ f, fuel = f + 2 := ⟨fuel - 2, by omega⟩
  have first := (returns_expect (p := p) (u := ()) fits).mpr ⟨tail, rfl, rfl⟩
  rw [halts_parseValue_cons, if_neg (by decide), if_neg (by decide), if_pos rfl, parseDictFuel,
    halts_readState_bind, halts_enter_bind, halts_bind_step first]
  exact halts_bind_first (body OrderedMap.empty fuel (by omega))

theorem halts_peek_nil (halted : HaltsAt p h pre []) : Halts peek (between pre []) h := by
  have run : Halts (parseValueFuel p 1) (between pre []) h := halted 1 (Nat.le_refl 1)
  rw [parseValueFuel, halts_readState_bind, halts_enter_bind] at run
  rcases halts_bind.mp run with early | ⟨c, d, read, -⟩
  · exact early
  · simp [returns_peek] at read

theorem halts_item {acc : List Value} (goesOn : rest.head? ≠ some letterE)
    (halted : HaltsAt p h pre rest) (enough : 3 * rest.length + 2 ≤ fuel) :
    Halts (parseItems p fuel acc) (between pre rest) h := by
  obtain ⟨fuel, rfl⟩ : ∃ f, fuel = f + 1 := ⟨fuel - 1, by omega⟩
  cases rest with
  | nil => exact halts_bind_first (halts_peek_nil halted)
  | cons c tail =>
    have other : c ≠ letterE := by simpa using goesOn
    rw [parseItems, halts_bind_step (peek_first pre tail c), if_pos other]
    exact halts_bind_first (halted fuel (by omega))

theorem halts_key {acc : OrderedMap Bytes Value} (goesOn : rest.head? ≠ some letterE)
    (halted : HaltsAt p h pre rest) (enough : 3 * rest.length + 2 ≤ fuel) :
    Halts (parseEntries p fuel acc) (between pre rest) h := by
  obtain ⟨fuel, rfl⟩ : ∃ f, fuel = f + 1 := ⟨fuel - 1, by omega⟩
  cases rest with
  | nil => exact halts_bind_first (halts_peek_nil halted)
  | cons c tail =>
    have other : c ≠ letterE := by simpa using goesOn
    rw [parseEntries, halts_bind_step (peek_first pre tail c), if_pos other, halts_readState_bind]
    exact halts_bind_first (halted fuel (by omega))

theorem halts_items {vs acc : List Value} {t : Bytes} (items : Spells (.items vs) t)
    (fits : (pre ++ (t ++ rest)).length < 2 ^ 63)
    (halted : ∀ acc' fuel', 3 * rest.length + 2 ≤ fuel' →
      Halts (parseItems p fuel' acc') (between (pre ++ t) rest) h)
    (enough : 3 * (t ++ rest).length + 2 ≤ fuel) :
    Halts (parseItems p fuel acc) (between pre (t ++ rest)) h := by
  induction vs generalizing pre t acc fuel with
  | nil =>
    cases items
    rw [List.append_nil] at halted
    exact halted acc fuel enough
  | cons v vs ih =>
    cases items with
    | @item _ _ s t first others =>
      obtain ⟨fuel, rfl⟩ : ∃ f, fuel = f + 1 := ⟨fuel - 1, by omega⟩
      have long := value_length first
      obtain ⟨b, tail, start, notE⟩ := value_first_byte first
      simp only [List.length_append] at enough
      have read := spells_decodes (p := p) first pre (t ++ rest) fuel (by simpa using fits)
        (by omega)
      have later : Halts (parseItems p fuel (acc ++ [v])) (between (pre ++ s) (t ++ rest)) h :=
        ih others (by simpa using fits) (by simpa using halted)
          (by simp only [List.length_append]; omega)
      have next : Returns peek (between pre (s ++ (t ++ rest))) b _ :=
        returns_peek.mpr ⟨by rw [start]; rfl, rfl⟩
      rw [List.append_assoc, parseItems, halts_bind_step next, if_pos notE, halts_bind_step read]
      exact later

theorem halts_pairs {ps : List (Bytes × Value)} {acc : OrderedMap Bytes Value} {t : Bytes}
    (pairs : Spells (.pairs ps) t) (fits : (pre ++ (t ++ rest)).length < 2 ^ 63)
    (halted : ∀ acc' fuel', 3 * rest.length + 2 ≤ fuel' →
      Halts (parseEntries p fuel' acc') (between (pre ++ t) rest) h)
    (enough : 3 * (t ++ rest).length + 2 ≤ fuel) :
    Halts (parseEntries p fuel acc) (between pre (t ++ rest)) h := by
  induction ps generalizing pre t acc fuel with
  | nil =>
    cases pairs
    rw [List.append_nil] at halted
    exact halted acc fuel enough
  | cons pair ps ih =>
    cases pairs with
    | @pair k v _ s t u key value others =>
      obtain ⟨fuel, rfl⟩ : ∃ f, fuel = f + 1 := ⟨fuel - 1, by omega⟩
      have long := value_length key
      obtain ⟨b, tail, start, notE⟩ := value_first_byte key
      simp only [List.length_append] at enough
      have atKey := spells_decodes (p := p) key pre (t ++ (u ++ rest)) fuel (by simpa using fits)
        (by omega)
      have atValue := spells_decodes (p := p) value (pre ++ s) (u ++ rest) fuel
        (by simpa using fits) (by omega)
      have later : Halts (parseEntries p fuel (acc.insert k v))
          (between (pre ++ s ++ t) (u ++ rest)) h :=
        ih others (by simpa using fits) (by simpa using halted)
          (by simp only [List.length_append]; omega)
      have next : Returns peek (between pre (s ++ (t ++ (u ++ rest)))) b _ :=
        returns_peek.mpr ⟨by rw [start]; rfl, rfl⟩
      rw [List.append_assoc, List.append_assoc, parseEntries, halts_bind_step next, if_pos notE,
        halts_readState_bind, halts_bind_step atKey]
      exact (halts_bind_step atValue).mpr later

theorem halts_behind_key {t u k : Bytes} {ps : List (Bytes × Value)}
    (pairs : Spells (.pairs ps) t) (key : Spells (.value (.bytes k)) u)
    (fits : (pre ++ letterD :: (t ++ (u ++ rest))).length < 2 ^ 63)
    (halted : HaltsAt p h (pre ++ letterD :: (t ++ u)) rest) :
    HaltsAt p h pre (letterD :: (t ++ (u ++ rest))) := by
  refine halts_in_dict fits fun acc fuel enough => ?_
  refine halts_pairs pairs (by simpa using fits) (fun acc' fuel' enough' => ?_) enough
  obtain ⟨fuel', rfl⟩ : ∃ f, fuel' = f + 1 := ⟨fuel' - 1, by omega⟩
  obtain ⟨b, tail, start, notE⟩ := value_first_byte key
  simp only [List.length_append] at enough'
  have read := spells_decodes (p := p) key (pre ++ [letterD] ++ t) rest fuel'
    (by simpa using fits) (by omega)
  have next : Returns peek (between (pre ++ [letterD] ++ t) (u ++ rest)) b _ :=
    returns_peek.mpr ⟨by rw [start]; rfl, rfl⟩
  rw [parseEntries, halts_bind_step next, if_pos notE, halts_readState_bind, halts_bind_step read]
  have atValue := halted fuel' (by omega)
  exact halts_bind_first (by simpa using atValue)

theorem halt_reaches_root {s : Bytes} (opened : OpenAt s) (goesOn : rest.head? ≠ some letterE)
    (fits : (s ++ rest).length < 2 ^ 63) (halted : HaltsAt p h s rest) :
    HaltsAt p h [] (s ++ rest) := by
  have bracket : ∀ {o tail}, o ≠ letterE → (o :: tail : Bytes).head? ≠ some letterE := by
    intro o tail other
    simpa using other
  induction opened generalizing rest with
  | root => exact halted
  | @item s t vs outer items ih =>
    rw [List.append_assoc, List.cons_append] at fits ⊢
    refine ih (bracket (by decide)) fits (halts_in_list fits fun acc fuel enough => ?_)
    refine halts_items items (by simpa using fits) (fun acc' fuel' enough' => ?_) enough
    exact halts_item goesOn (by simpa using halted) enough'
  | @key s t ps outer pairs ih =>
    rw [List.append_assoc, List.cons_append] at fits ⊢
    refine ih (bracket (by decide)) fits (halts_in_dict fits fun acc fuel enough => ?_)
    refine halts_pairs pairs (by simpa using fits) (fun acc' fuel' enough' => ?_) enough
    exact halts_key goesOn (by simpa using halted) enough'
  | @value s t u ps k outer pairs key ih =>
    rw [List.append_assoc, List.cons_append, List.append_assoc] at fits ⊢
    exact ih (bracket (by decide)) fits (halts_behind_key pairs key fits halted)

theorem halts_parseValue {data : Bytes} (halted : HaltsAt p h [] data) :
    Halts (parseValue p) (Decoder.new data) h := by
  unfold parseValue
  rw [new_eq_between, halts_readState_bind, between_data, List.nil_append]
  refine halted _ ?_
  simp only [fuelFor, Nat.le_refl]

end Reached

theorem panics_at_length {pre raw rest : Bytes} {c : UInt8} {length : Nat}
    (fits : (pre ++ (c :: raw ++ colon :: rest)).length < 2 ^ 63) (digit : isDigit c = true)
    (reads : parseUsize (c :: raw) = some length)
    (exceeds : 2 ^ 64 ≤ (pre ++ c :: raw ++ [colon]).length + length) :
    HaltsAt p .panic pre (c :: raw ++ colon :: rest) := by
  intro fuel enough
  obtain ⟨fuel, rfl⟩ : ∃ f, fuel = f + 1 := ⟨fuel - 1, by omega⟩
  obtain ⟨notI, notL, notD, -⟩ := digit_not_letter digit
  rw [List.cons_append, halts_parseValue_cons, if_neg notI, if_neg notL, if_neg notD, if_pos digit]
  have panic := panics_parseBytes (p := p) fits reads exceeds
  exact panic

theorem safe_parseValue {data : Bytes} (fits : data.length < 2 ^ 63) (sums : LengthsFit data) :
    Safe (parseValue p) (Decoder.new data) := by
  rw [new_eq_between]
  exact safe_readState_bind ((safe_for p _).value fits sums .root (by simp [fuelFor]))

theorem panics_parseValue {data : Bytes} (fits : data.length < 2 ^ 63)
    (violated : ¬ LengthsFit data) : Panics (parseValue p) (Decoder.new data) := by
  unfold LengthsFit at violated
  push Not at violated
  obtain ⟨s, c, raw, rest, length, rfl, opened, digit, reads, exceeds⟩ := violated
  have here := panics_at_length (p := p) fits digit reads exceeds
  have goesOn : (c :: raw ++ colon :: rest).head? ≠ some letterE := by
    simpa using (digit_not_letter digit).2.2.2
  exact halts_parseValue (halt_reaches_root opened goesOn fits here)

/-- Neither entry point panics, overflows or leaves the text, and what is no bencode is an
    error. -/
structure Settles (p : Profile) (data : ByteSeq) : Prop where
  whole : Safe (decode p data) ()
  start : Safe (decodePartial p data) ()
  malformed : (∀ v, ¬ Spells (.value v) data.bytes) → ∃ e, Fails (decode p data) () e
  malformedStart : (∀ v s, s <+: data.bytes → ¬ Spells (.value v) s) →
    ∃ e, Fails (decodePartial p data) () e

theorem settles_iff_lengths_fit (p : Profile) (data : ByteSeq) :
    Settles p data ↔ LengthsFit data.bytes := by
  constructor
  · intro settles
    by_contra violated
    have panic := panics_parseValue (p := p) data.fits violated
    exact panic_not_safe (panics_bind_first (panics_within panic)) settles.start
  · intro sums
    have parse := safe_parseValue (p := p) data.fits sums
    have whole : Safe (decode p data) () := by
      apply safe_bind (safe_within.mpr parse)
      rintro ⟨v, d⟩ u _
      dsimp only
      split
      · exact safe_fail _ _
      · exact safe_pure _ _
    have start : Safe (decodePartial p data) () :=
      safe_bind (safe_within.mpr parse) fun _ _ _ => safe_pure _ _
    refine ⟨whole, start, ?_, ?_⟩
    · intro malformed
      exact safe_fails whole fun v u run => malformed v (decodes_value.mp run)
    · intro malformed
      refine safe_fails start fun result u run => ?_
      obtain ⟨s, suf, same, -, spelled⟩ := decodes_leading.mp run
      exact malformed result.1 s ⟨suf, same.symm⟩ spelled

/-- `18446744073709551615:`, a length of 2^64 - 1 and no contents. -/
def hugeLength : ByteSeq := ⟨utf8Bytes "18446744073709551615:", by decide +kernel⟩

theorem huge_length_panics :
    (decode .debug hugeLength ()).outcome = .panic .overflow ∧
      (decode .release hugeLength ()).outcome = .panic .bounds ∧
      (decodePartial .debug hugeLength ()).outcome = .panic .overflow ∧
      (decodePartial .release hugeLength ()).outcome = .panic .bounds ∧
      ¬ Settles .debug hugeLength ∧ ¬ Settles .release hugeLength := by
  have debug : (decode .debug hugeLength ()).outcome = .panic .overflow := by decide +kernel
  have release : (decode .release hugeLength ()).outcome = .panic .bounds := by decide +kernel
  exact ⟨debug, release, by decide +kernel, by decide +kernel,
    fun settles => panic_not_safe ⟨_, debug⟩ settles.whole,
    fun settles => panic_not_safe ⟨_, release⟩ settles.whole⟩

end DecoderSafety
