import Mathlib.Data.List.TakeWhile
import RustyTorrent.Bencode.DecoderSafety
import RustyTorrent.Library.ErrorRuns

/- The errors of the cursor operations, of the scalar parsers and of one round of the loops. -/
namespace CursorErrors
open RustExec ErrorRuns OrderedMaps Utf8Text Numerals BencodeValue BencodeDecoder DecoderCursor
  BencodeGrammar BencodeRecognition DecoderSafety

/-- The text behind the place `pos` has no value at its start, and this error says why. Lists and
    dictionaries are not of interest here: they stop where one of their values does. -/
inductive Stop (pos : Nat) : Bytes → DecodeError → Prop where
  | ended : Stop pos [] (.unexpectedEof pos)
  | stray {c : UInt8} {tail : Bytes} (notI : c ≠ letterI) (notL : c ≠ letterL) (notD : c ≠ letterD)
      (notDigit : ¬ isDigit c = true) : Stop pos (c :: tail) (.unexpectedByte c pos)
  | integer {tail : Bytes} (bad : parseI64 (tail.takeWhile (· ≠ letterE)) = none) :
      Stop pos (letterI :: tail) (.invalidInteger (pos + 1))
  | openInteger {n : Int64} {raw : Bytes} (reads : parseI64 raw = some n) :
      Stop pos (letterI :: raw) (.unexpectedEof (pos + 1 + raw.length))
  | length {c : UInt8} {tail : Bytes} (digit : isDigit c = true)
      (bad : parseUsize ((c :: tail).takeWhile (· ≠ colon)) = none) :
      Stop pos (c :: tail) (.invalidStringLength pos)
  | openLength {c : UInt8} {raw : Bytes} {n : Nat} (digit : isDigit c = true)
      (reads : parseUsize (c :: raw) = some n) :
      Stop pos (c :: raw) (.unexpectedEof (pos + (c :: raw).length))
  | short {c : UInt8} {raw rest : Bytes} {n : Nat} (digit : isDigit c = true)
      (reads : parseUsize (c :: raw) = some n) (missing : rest.length < n)
      (sum : pos + (c :: raw).length + 1 + n < 2 ^ 64) :
      Stop pos (c :: (raw ++ colon :: rest)) (.unexpectedEof (pos + (c :: raw).length + 1))

variable {p : Profile} {e : DecodeError}

section Cursor
variable {pre rest : Bytes}

theorem fails_peek : Fails peek (between pre rest) e ↔
    rest = [] ∧ e = .unexpectedEof pre.length := by
  unfold peek
  rw [fails_readState_bind, fails_okOr, between_data, between_pos, next_byte,
    List.head?_eq_none_iff, eq_comm (a := e)]

theorem fails_advance : Fails (advance p) (between pre rest) e ↔
    rest = [] ∧ e = .unexpectedEof pre.length := by
  unfold advance
  rw [fails_bind, fails_peek, or_iff_left]
  intro later
  obtain ⟨c, d, -, failed⟩ := later
  rw [fails_readState_bind, fails_bind] at failed
  rcases failed with failed | ⟨pos, d', -, failed⟩
  · exact absurd failed fails_usizeAdd
  · rw [fails_writeState_bind] at failed
    exact absurd failed fails_pure

theorem fails_expect {c : UInt8} (fits : (pre ++ rest).length < 2 ^ 63) :
    Fails (expect p c) (between pre rest) e ↔ (rest = [] ∧ e = .unexpectedEof pre.length) ∨
      ∃ b tail, rest = b :: tail ∧ b ≠ c ∧ e = .unexpectedByte b pre.length := by
  unfold expect
  rw [fails_bind, fails_advance]
  refine or_congr_right ?_
  simp only [returns_advance fits]
  constructor
  · intro later
    obtain ⟨b, d, ⟨tail, rfl, rfl⟩, failed⟩ := later
    split at failed
    · rename_i other
      rw [fails_readState_bind, fails_bind] at failed
      rcases failed with failed | ⟨before, d', subtracted, failed⟩
      · exact absurd failed fails_usizeSub
      · have long : (between (pre ++ [b]) tail).pos < 2 ^ 64 := by
          simp only [between_pos, List.length_append, List.length_cons, List.length_nil] at fits ⊢
          omega
        obtain ⟨rfl, -⟩ := (returns_usizeSub (by simp) long).mp subtracted
        rw [fails_fail] at failed
        exact ⟨b, tail, rfl, other, by rw [← failed]; simp⟩
    · exact absurd failed fails_pure
  · intro other
    obtain ⟨b, tail, rfl, different, rfl⟩ := other
    refine ⟨b, _, ⟨tail, rfl, rfl⟩, ?_⟩
    have long : (between (pre ++ [b]) tail).pos < 2 ^ 64 := by
      simp only [between_pos, List.length_append, List.length_cons, List.length_nil] at fits ⊢
      omega
    have before : Returns (usizeSub p (between (pre ++ [b]) tail).pos 1 :
        Exec Decoder DecodeError Nat) (between (pre ++ [b]) tail) pre.length
        (between (pre ++ [b]) tail) := (returns_usizeSub (by simp) long).mpr ⟨by simp, rfl⟩
    rw [if_pos different, fails_readState_bind, fails_bind_step before, fails_fail]

theorem fails_numeral {α β : Type} {parse : Bytes → Option α} {raw : Bytes} {bad : DecodeError}
    {next : α → Exec Decoder DecodeError β} {d : Decoder}
    (ascii : ∀ a, parse raw = some a → ∀ b ∈ raw, NumeralByte b) :
    Fails (do
        let str ← okOr (fromUtf8 raw) bad
        let a ← okOr (parse (utf8Bytes str)) bad
        next a) d e ↔
      (parse raw = none ∧ e = bad) ∨ ∃ a, parse raw = some a ∧ Fails (next a) d e := by
  cases read : parse raw with
  | none =>
    have bad' : Fails (do
        let str ← okOr (fromUtf8 raw) bad
        let a ← okOr (parse (utf8Bytes str)) bad
        next a) d bad := by
      rw [fails_bind, fails_okOr]
      cases text : fromUtf8 raw with
      | none => exact Or.inl ⟨rfl, rfl⟩
      | some str =>
        refine Or.inr ⟨str, d, returns_okOr.mpr ⟨rfl, rfl⟩, ?_⟩
        rw [utf8Bytes_of_fromUtf8 text, read]
        exact fails_bind_first (fails_okOr.mpr ⟨rfl, rfl⟩)
    constructor
    · intro failed
      exact Or.inl ⟨rfl, fails_unique failed bad'⟩
    · intro same
      rcases same with ⟨-, rfl⟩ | ⟨a, none, -⟩
      · exact bad'
      · cases none
  | some a =>
    obtain ⟨str, text⟩ := fromUtf8_ascii raw fun b member => by
      have := numeral_byte_ascii (ascii a read b member)
      omega
    have valid : Returns (okOr (fromUtf8 raw) bad : Exec Decoder DecodeError String) d str d :=
      returns_okOr.mpr ⟨text, rfl⟩
    have value : Returns (okOr (parse (utf8Bytes str)) bad : Exec Decoder DecodeError α) d a d :=
      returns_okOr.mpr ⟨by rw [utf8Bytes_of_fromUtf8 text, read], rfl⟩
    rw [fails_bind_step valid, fails_bind_step value]
    simp

theorem fails_scanned {α : Type} {stop : UInt8} {next : Bytes → Exec Decoder DecodeError α}
    (fits : (pre ++ rest).length < 2 ^ 63) :
    Fails (do
        scanUntil p stop ((pre ++ rest).length + 1)
        let self ← readState
        let raw ← slice self.data pre.length self.pos
        next raw) (between pre rest) e ↔
      Fails (next (rest.takeWhile (· ≠ stop)))
        (between (pre ++ rest.takeWhile (· ≠ stop)) (rest.dropWhile (· ≠ stop))) e := by
  have scan : Returns (scanUntil p stop ((pre ++ rest).length + 1)) (between pre rest) ()
      (between (pre ++ rest.takeWhile (· ≠ stop)) (rest.dropWhile (· ≠ stop))) :=
    (returns_scanUntil fits (by simp only [List.length_append]; omega)).mpr rfl
  have inside : (pre ++ rest.takeWhile (· ≠ stop)).length ≤
      (pre ++ rest.takeWhile (· ≠ stop) ++ rest.dropWhile (· ≠ stop)).length := by
    simp only [List.length_append]
    omega
  rw [fails_bind_step scan, fails_readState_bind, between_data, between_pos]
  exact fails_bind_step (returns_slice.mpr
    ⟨⟨by simp, inside⟩, (slice_between pre (rest.takeWhile (· ≠ stop)) _).symm, rfl⟩)

theorem fails_takeBytes {n : Nat} (fits : (pre ++ rest).length < 2 ^ 63) (bound : n < 2 ^ 64) :
    Fails (takeBytes p n) (between pre rest) e ↔
      pre.length + n < 2 ^ 64 ∧ rest.length < n ∧ e = .unexpectedEof pre.length := by
  have lengths := fits
  simp only [List.length_append] at lengths
  have bounded : ∀ m d d', Returns (usizeAdd p pre.length n : Exec Decoder DecodeError Nat) d m d' →
      (pre.length + n < 2 ^ 64 → m = pre.length + n) ∧
        (¬ pre.length + n < 2 ^ 64 → m < pre.length) := by
    intro m d d' added
    constructor
    · intro sum
      exact ((returns_usizeAdd sum).mp added).1
    · intro wraps
      have := (returns_usizeAdd_cases (by omega) bound added).2
      omega
  unfold takeBytes
  rw [fails_readState_bind, between_pos, between_data, fails_bind, or_iff_right fails_usizeAdd]
  constructor
  · intro failed
    obtain ⟨m, d, added, failed⟩ := failed
    obtain ⟨exact, wrapped⟩ := bounded m _ d added
    split at failed
    · rename_i beyond
      rw [List.length_append] at beyond
      have sum : pre.length + n < 2 ^ 64 := by
        by_contra wraps
        have := wrapped wraps
        omega
      have := exact sum
      exact ⟨sum, by omega, (fails_fail.mp failed).symm⟩
    · simp only [fails_bind, fails_usizeAdd, fails_slice, fails_writeState, fails_pure, and_false,
        exists_false, or_false] at failed
  · intro short
    obtain ⟨sum, missing, rfl⟩ := short
    refine ⟨_, _, (returns_usizeAdd sum).mpr ⟨rfl, rfl⟩, ?_⟩
    rw [if_pos (by rw [List.length_append]; omega)]
    exact fails_fail.mpr rfl

theorem whole_scan {stop : UInt8} (ended : rest.dropWhile (· ≠ stop) = []) :
    rest.takeWhile (· ≠ stop) = rest := by
  have all := List.takeWhile_append_dropWhile (p := (· ≠ stop)) (l := rest)
  rwa [ended, List.append_nil] at all

theorem no_stop {stop : UInt8} (clear : ∀ b ∈ rest, b ≠ stop) :
    rest.dropWhile (· ≠ stop) = [] :=
  List.dropWhile_eq_nil_iff.mpr fun b member => decide_eq_true (clear b member)

theorem fails_expect_stop {stop : UInt8} (fits : (pre ++ rest).length < 2 ^ 63) :
    Fails (expect p stop) (between (pre ++ rest.takeWhile (· ≠ stop)) (rest.dropWhile (· ≠ stop)))
        e ↔ rest.dropWhile (· ≠ stop) = [] ∧ e = .unexpectedEof (pre.length + rest.length) := by
  rw [fails_expect (scan_fits fits)]
  constructor
  · intro failed
    rcases failed with ⟨none, rfl⟩ | ⟨b, tail, next, other, -⟩
    · rw [whole_scan none, List.length_append]
      exact ⟨none, rfl⟩
    · have last := List.head?_dropWhile_not (fun b : UInt8 => decide (b ≠ stop)) rest
      rw [next] at last
      exact absurd other (by simpa using last)
  · intro ended
    obtain ⟨none, rfl⟩ := ended
    rw [whole_scan none, List.length_append]
    exact Or.inl ⟨none, rfl⟩

theorem fails_parseInteger (fits : (pre ++ letterI :: rest).length < 2 ^ 63) :
    Fails (parseInteger p) (between pre (letterI :: rest)) e ↔
      Stop pre.length (letterI :: rest) e := by
  have moved : (pre ++ [letterI] ++ rest).length < 2 ^ 63 := by simpa using fits
  have first := (@returns_expect p pre _ letterI _ () fits).mpr ⟨rest, rfl, rfl⟩
  unfold parseInteger
  rw [fails_readState_bind, fails_enter_bind, fails_bind_step first, fails_readState_bind,
    between_pos]
  rw [between_data, fails_scanned moved, fails_numeral fun n => parseI64_bytes]
  simp only [fails_bind_pure, fails_expect_stop moved, List.length_append, List.length_singleton]
  constructor
  · intro failed
    rcases failed with ⟨bad, rfl⟩ | ⟨n, reads, ended, rfl⟩
    · exact .integer bad
    · rw [whole_scan ended] at reads
      exact .openInteger reads
  · intro stops
    cases stops with
    | stray notI => exact absurd rfl notI
    | integer bad => exact Or.inl ⟨bad, rfl⟩
    | @openInteger n _ reads =>
      have ended := no_stop fun b member => numeral_not_letterE (parseI64_bytes reads b member)
      exact Or.inr ⟨n, by rw [whole_scan ended]; exact reads, ended, rfl⟩
    | length digit => exact absurd digit (by decide)
    | openLength digit => exact absurd digit (by decide)
    | short digit => exact absurd digit (by decide)

theorem fails_parseBytes {c : UInt8} (digit : isDigit c = true)
    (fits : (pre ++ c :: rest).length < 2 ^ 63) :
    Fails (parseBytes p) (between pre (c :: rest)) e ↔ Stop pre.length (c :: rest) e := by
  obtain ⟨notI, notL, notD, -⟩ := digit_not_letter digit
  unfold parseBytes
  rw [fails_readState_bind, fails_enter_bind, between_pos, between_data, fails_scanned fits,
    fails_numeral fun n => parseUsize_bytes]
  constructor
  · intro failed
    rcases failed with ⟨bad, rfl⟩ | ⟨n, reads, failed⟩
    · exact .length digit bad
    · rw [fails_bind, fails_expect_stop fits] at failed
      rcases failed with ⟨ended, rfl⟩ | ⟨u, d, passed, failed⟩
      · rw [whole_scan ended] at reads
        exact .openLength digit reads
      · obtain ⟨after, colonNext, rfl⟩ := (returns_expect (scan_fits fits)).mp passed
        have split := List.takeWhile_append_dropWhile (p := (· ≠ colon)) (l := c :: rest)
        rw [colonNext] at split
        have moved : (pre ++ (c :: rest).takeWhile (· ≠ colon) ++ [colon] ++ after).length <
            2 ^ 63 := by
          rw [List.append_assoc, List.append_assoc, List.singleton_append, split]
          exact fits
        obtain ⟨sum, missing, rfl⟩ := (fails_takeBytes moved (parseUsize_lt reads)).mp failed
        obtain ⟨raw, scanned⟩ : ∃ raw, (c :: rest).takeWhile (· ≠ colon) = c :: raw := by
          cases read : (c :: rest).takeWhile (· ≠ colon) with
          | nil =>
            rw [read] at reads
            simp [parseUsize] at reads
          | cons b raw =>
            rw [read] at split
            exact ⟨raw, by rw [(List.cons.inj split).1]⟩
        rw [scanned] at split sum reads ⊢
        rw [← split]
        simp only [List.length_append, List.length_singleton] at sum ⊢
        exact .short digit reads missing sum
  · intro stops
    cases stops with
    | stray _ _ _ notDigit => exact absurd digit notDigit
    | integer => exact absurd rfl notI
    | openInteger => exact absurd rfl notI
    | length _ bad => exact Or.inl ⟨bad, rfl⟩
    | openLength _ reads =>
      have ended := no_stop fun b member => numeral_not_colon (parseUsize_bytes reads b member)
      refine Or.inr ⟨_, by rw [whole_scan ended]; exact reads, ?_⟩
      exact fails_bind_first ((fails_expect_stop fits).mpr ⟨ended, rfl⟩)
    | @short _ raw after n _ reads missing sum =>
      obtain ⟨body, stopped⟩ := @takeWhile_before colon (c :: raw) after fun b member =>
        numeral_not_colon (parseUsize_bytes reads b member)
      have moved : (pre ++ c :: raw ++ colon :: after).length < 2 ^ 63 := by simpa using fits
      have passed := (@returns_expect p _ _ colon _ () moved).mpr ⟨after, rfl, rfl⟩
      rw [← List.cons_append, body, stopped]
      refine Or.inr ⟨n, reads, (fails_bind_step passed).mpr ?_⟩
      rw [fails_takeBytes (by simpa using moved) (parseUsize_lt reads)]
      simp only [List.length_append, List.length_singleton]
      exact ⟨sum, missing, trivial⟩

end Cursor

section Frames
variable {pre tail : Bytes} {c : UInt8} {fuel : Nat}

theorem fails_parseValue_cons : Fails (parseValueFuel p (fuel + 1)) (between pre (c :: tail)) e ↔
    Fails (if c = letterI then parseInteger p
      else if c = letterL then parseListFuel p fuel
      else if c = letterD then parseDictFuel p fuel
      else if isDigit c then parseBytes p
      else fail (.unexpectedByte c pre.length)) (between pre (c :: tail)) e :=
  halts_parseValue_cons (h := .error e)

theorem fails_parseValue_nil : Fails (parseValueFuel p (fuel + 1)) (between pre []) e ↔
    e = .unexpectedEof pre.length := by
  unfold parseValueFuel
  rw [fails_readState_bind, fails_enter_bind, fails_bind, fails_peek, or_iff_left]
  · exact and_iff_right rfl
  · intro later
    obtain ⟨c, d, read, -⟩ := later
    exact absurd (returns_peek.mp read).1 (by simp)

theorem fails_bracketed {α β : Type} {o : UInt8} {loop : Exec Decoder DecodeError α}
    {wrap : α → β} (fits : (pre ++ o :: tail).length < 2 ^ 63)
    (stops : ∀ {a d}, Returns loop (between (pre ++ [o]) tail) a d →
      ∃ s suf, tail = s ++ letterE :: suf ∧ d = between (pre ++ [o] ++ s) (letterE :: suf)) :
    Fails (do
        let self ← readState
        enter self.pos self.data.length
        expect p o
        let a ← loop
        expect p letterE
        return wrap a) (between pre (o :: tail)) e ↔ Fails loop (between (pre ++ [o]) tail) e := by
  have first := (@returns_expect p pre _ o _ () fits).mpr ⟨tail, rfl, rfl⟩
  rw [fails_readState_bind, fails_enter_bind, fails_bind_step first, fails_bind, or_iff_left]
  intro later
  obtain ⟨a, d, looped, failed⟩ := later
  obtain ⟨s, suf, rfl, rfl⟩ := stops looped
  rw [fails_bind_pure, fails_expect (by simpa using fits)] at failed
  rcases failed with ⟨none, -⟩ | ⟨b, after, next, other, -⟩
  · cases none
  · exact other (List.cons.inj next).1.symm

theorem fails_parseList (fits : (pre ++ letterL :: tail).length < 2 ^ 63) :
    Fails (parseListFuel p (fuel + 1)) (between pre (letterL :: tail)) e ↔
      Fails (parseItems p fuel []) (between (pre ++ [letterL]) tail) e := by
  have moved : (pre ++ [letterL] ++ tail).length < 2 ^ 63 := by simpa using fits
  refine fails_bracketed fits fun looped => ?_
  obtain ⟨vs, s, suf, same, state, -⟩ := (run_recovers p fuel).items moved looped
  exact ⟨s, suf, same, state⟩

theorem fails_parseDict (fits : (pre ++ letterD :: tail).length < 2 ^ 63) :
    Fails (parseDictFuel p (fuel + 1)) (between pre (letterD :: tail)) e ↔
      Fails (parseEntries p fuel OrderedMap.empty) (between (pre ++ [letterD]) tail) e := by
  have moved : (pre ++ [letterD] ++ tail).length < 2 ^ 63 := by simpa using fits
  refine fails_bracketed fits fun looped => ?_
  obtain ⟨ps, s, suf, same, state, -⟩ := (run_recovers p fuel).pairs moved looped
  exact ⟨s, suf, same, state⟩

theorem fails_parseItems_nil {acc : List Value} :
    Fails (parseItems p (fuel + 1) acc) (between pre []) e ↔ e = .unexpectedEof pre.length := by
  unfold parseItems
  rw [fails_bind, fails_peek, or_iff_left]
  · exact and_iff_right rfl
  · intro later
    obtain ⟨c, d, read, -⟩ := later
    exact absurd (returns_peek.mp read).1 (by simp)

theorem fails_parseItems_cons {acc : List Value} (goesOn : c ≠ letterE) :
    Fails (parseItems p (fuel + 1) acc) (between pre (c :: tail)) e ↔
      Fails (parseValueFuel p fuel) (between pre (c :: tail)) e ∨
        ∃ v d, Returns (parseValueFuel p fuel) (between pre (c :: tail)) v d ∧
          Fails (parseItems p fuel (acc ++ [v])) d e := by
  rw [parseItems, fails_bind_step (peek_first pre tail c), if_pos goesOn, fails_bind]

theorem fails_parseEntries_nil {acc : OrderedMap Bytes Value} :
    Fails (parseEntries p (fuel + 1) acc) (between pre []) e ↔
      e = .unexpectedEof pre.length := by
  unfold parseEntries
  rw [fails_bind, fails_peek, or_iff_left]
  · exact and_iff_right rfl
  · intro later
    obtain ⟨c, d, read, -⟩ := later
    exact absurd (returns_peek.mp read).1 (by simp)

theorem fails_parseEntries_cons {acc : OrderedMap Bytes Value} (goesOn : c ≠ letterE) :
    Fails (parseEntries p (fuel + 1) acc) (between pre (c :: tail)) e ↔
      Fails (parseValueFuel p fuel) (between pre (c :: tail)) e ∨
        ∃ v d, Returns (parseValueFuel p fuel) (between pre (c :: tail)) v d ∧
          ((v.asBytes = none ∧ e = .invalidDictKey pre.length) ∨
            ∃ k, v = .bytes k ∧ (Fails (parseValueFuel p fuel) d e ∨
              ∃ w d', Returns (parseValueFuel p fuel) d w d' ∧
                Fails (parseEntries p fuel (acc.insert k w)) d' e)) := by
  rw [parseEntries, fails_bind_step (peek_first pre tail c), if_pos goesOn, fails_readState_bind,
    fails_bind]
  refine or_congr_right (exists_congr fun v => exists_congr fun d => and_congr_right fun _ => ?_)
  cases v with
  | bytes k => simp [fails_bind, Value.asBytes]
  | integer n => simp [Value.asBytes, eq_comm]
  | list vs => simp [Value.asBytes, eq_comm]
  | dict map => simp [Value.asBytes, eq_comm]

end Frames

end CursorErrors
