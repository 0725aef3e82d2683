import RustyTorrent.Bencode.BencodeDecoder

/- Exact results of the decoder's cursor operations and scalar parsers. A cursor is
   written as the text before it and the text after it. -/
namespace DecoderCursor
open RustExec OrderedMaps Utf8Text Numerals BencodeValue BencodeDecoder

/-- The decoder over `pre ++ rest` that stands at the end of `pre`. -/
def between (pre rest : Bytes) : Decoder := ⟨pre ++ rest, pre.length⟩

@[simp] theorem between_data (pre rest : Bytes) : (between pre rest).data = pre ++ rest := rfl

@[simp] theorem between_pos (pre rest : Bytes) : (between pre rest).pos = pre.length := rfl

theorem new_eq_between (data : Bytes) : Decoder.new data = between [] data := rfl

theorem between_step (pre rest : Bytes) (c : UInt8) :
    (⟨pre ++ c :: rest, pre.length + 1⟩ : Decoder) = between (pre ++ [c]) rest := by
  simp [between]

theorem between_inj {pre pre' rest rest' : Bytes} :
    between pre rest = between pre' rest' ↔ pre = pre' ∧ rest = rest' := by
  constructor
  · intro same
    simp only [between, Decoder.mk.injEq] at same
    exact List.append_inj same.1 same.2
  · intro both
    obtain ⟨rfl, rfl⟩ := both
    rfl

theorem next_byte (pre rest : Bytes) : (pre ++ rest)[pre.length]? = rest.head? := by
  rw [List.getElem?_append_right (Nat.le_refl _), Nat.sub_self, List.head?_eq_getElem?]

theorem returns_peek {pre rest : Bytes} {c : UInt8} {d : Decoder} :
    Returns peek (between pre rest) c d ↔ rest.head? = some c ∧ d = between pre rest := by
  simp [peek, next_byte]

theorem peek_first (pre rest : Bytes) (c : UInt8) :
    Returns peek (between pre (c :: rest)) c (between pre (c :: rest)) :=
  returns_peek.mpr ⟨rfl, rfl⟩

variable {p : Profile}

theorem returns_advance {pre rest : Bytes} {c : UInt8} {d : Decoder}
    (fits : (pre ++ rest).length < 2 ^ 63) :
    Returns (advance p) (between pre rest) c d ↔
      ∃ tail, rest = c :: tail ∧ d = between (pre ++ [c]) tail := by
  have small : pre.length + 1 < 2 ^ 64 := by
    simp only [List.length_append] at fits
    omega
  cases rest with
  | nil => simp [advance, returns_bind, returns_peek]
  | cons b tail =>
    have read := peek_first pre tail b
    simp only [advance, returns_bind_step read, returns_readState_bind, between_pos, between_data,
      returns_usizeAdd_bind small, returns_writeState_bind, returns_pure, between_step]
    constructor
    · intro both
      obtain ⟨rfl, rfl⟩ := both
      exact ⟨tail, rfl, rfl⟩
    · intro parts
      obtain ⟨_, same, rfl⟩ := parts
      obtain ⟨rfl, rfl⟩ := List.cons.inj same
      exact ⟨rfl, rfl⟩

theorem returns_expect {pre rest : Bytes} {c : UInt8} {d : Decoder} {u : Unit}
    (fits : (pre ++ rest).length < 2 ^ 63) :
    Returns (expect p c) (between pre rest) u d ↔
      ∃ tail, rest = c :: tail ∧ d = between (pre ++ [c]) tail := by
  simp only [expect, returns_bind, returns_advance fits]
  constructor
  · intro parts
    obtain ⟨b, _, ⟨tail, rfl, rfl⟩, rest⟩ := parts
    split at rest
    · simp [returns_bind] at rest
    · rename_i same
      simp only [ne_eq, not_not] at same
      subst same
      exact ⟨tail, rfl, (returns_pure.mp rest).2.symm⟩
  · intro parts
    obtain ⟨tail, rfl, rfl⟩ := parts
    exact ⟨c, _, ⟨tail, rfl, rfl⟩, by simp⟩

theorem returns_scanUntil {stop : UInt8} {fuel : Nat} {pre rest : Bytes} {d : Decoder} {u : Unit}
    (fits : (pre ++ rest).length < 2 ^ 63) (enough : rest.length < fuel) :
    Returns (scanUntil p stop fuel) (between pre rest) u d ↔
      d = between (pre ++ rest.takeWhile (· ≠ stop)) (rest.dropWhile (· ≠ stop)) := by
  induction fuel generalizing pre rest with
  | zero => omega
  | succ fuel ih =>
    cases rest with
    | nil => simp [scanUntil, eq_comm]
    | cons c tail =>
      have later := @ih (pre ++ [c]) tail (by simpa using fits)
        (by simp only [List.length_cons] at enough; omega)
      have small : pre.length + 1 < 2 ^ 64 := by
        simp only [List.length_append] at fits
        omega
      have inside : pre.length < (pre ++ c :: tail).length := by simp
      simp only [scanUntil, returns_readState_bind, between_pos, between_data, inside, ↓reduceIte,
        returns_index_bind, next_byte, List.head?_cons, Option.some.injEq, exists_eq_left']
      by_cases last : c = stop
      · simp [last, eq_comm]
      · simp only [ne_eq, last, not_false_eq_true, ↓reduceIte, returns_usizeAdd_bind small,
          returns_writeState_bind, between_step, later, List.append_assoc, List.takeWhile_cons,
          List.dropWhile_cons, decide_true, List.singleton_append]

theorem returns_numeral {α β : Type} {parse : Bytes → Option α} {raw : Bytes} {e : DecodeError}
    {next : α → Exec Decoder DecodeError β} {s s' : Decoder} {v : β}
    (ascii : ∀ a, parse raw = some a → ∀ b ∈ raw, NumeralByte b) :
    Returns (do
        let str ← okOr (fromUtf8 raw) e
        let a ← okOr (parse (utf8Bytes str)) e
        next a) s v s' ↔ ∃ a, parse raw = some a ∧ Returns (next a) s v s' := by
  simp only [returns_okOr_bind]
  constructor
  · intro parts
    obtain ⟨str, text, a, parsed, run⟩ := parts
    rw [utf8Bytes_of_fromUtf8 text] at parsed
    exact ⟨a, parsed, run⟩
  · intro parts
    obtain ⟨a, parsed, run⟩ := parts
    obtain ⟨str, text⟩ := fromUtf8_ascii raw fun b member => by
      have := numeral_byte_ascii (ascii a parsed b member)
      omega
    exact ⟨str, text, a, (utf8Bytes_of_fromUtf8 text).symm ▸ parsed, run⟩

theorem slice_between (pre mid rest : Bytes) :
    ((pre ++ mid ++ rest).take (pre ++ mid).length).drop pre.length = mid := by
  rw [List.take_left', List.drop_left'] <;> rfl

theorem takeWhile_before {stop : UInt8} {raw suf : Bytes} (clear : ∀ b ∈ raw, b ≠ stop) :
    (raw ++ stop :: suf).takeWhile (· ≠ stop) = raw ∧
      (raw ++ stop :: suf).dropWhile (· ≠ stop) = stop :: suf := by
  have clear' : ∀ b ∈ raw, (decide (b ≠ stop)) = true := fun b h => decide_eq_true (clear b h)
  rw [List.takeWhile_append_of_pos clear', List.dropWhile_append_of_pos clear']
  simp

theorem numeral_not_letterE {b : UInt8} (h : NumeralByte b) : b ≠ letterE := by
  have small := numeral_byte_ascii h
  rintro rfl
  simp [letterE] at small

theorem numeral_not_colon {b : UInt8} (h : NumeralByte b) : b ≠ colon := by
  have small := numeral_byte_ascii h
  rintro rfl
  simp [colon] at small

theorem returns_scanned {α : Type} {stop : UInt8} {pre tail : Bytes} {v : α} {d : Decoder}
    {next : Bytes → Exec Decoder DecodeError α} (fits : (pre ++ tail).length < 2 ^ 63) :
    Returns (do
        scanUntil p stop ((pre ++ tail).length + 1)
        let self ← readState
        let raw ← slice self.data pre.length self.pos
        next raw) (between pre tail) v d ↔
      Returns (next (tail.takeWhile (· ≠ stop)))
        (between (pre ++ tail.takeWhile (· ≠ stop)) (tail.dropWhile (· ≠ stop))) v d := by
  have scan : Returns (scanUntil p stop ((pre ++ tail).length + 1)) (between pre tail) ()
      (between (pre ++ tail.takeWhile (· ≠ stop)) (tail.dropWhile (· ≠ stop))) :=
    (returns_scanUntil fits (by simp only [List.length_append]; omega)).mpr rfl
  have order : pre.length ≤ (pre ++ tail.takeWhile (· ≠ stop)).length := by simp
  have inside : (pre ++ tail.takeWhile (· ≠ stop)).length ≤
      (pre ++ tail.takeWhile (· ≠ stop) ++ tail.dropWhile (· ≠ stop)).length := by
    simp only [List.length_append]
    omega
  simp only [returns_bind_step scan, returns_readState_bind, returns_slice_bind, between_data,
    between_pos, order, inside, slice_between, and_self, true_and]

theorem returns_parseInteger {pre rest : Bytes} {v : Value} {d : Decoder}
    (fits : (pre ++ rest).length < 2 ^ 63) :
    Returns (parseInteger p) (between pre rest) v d ↔
      ∃ raw suf n, rest = letterI :: raw ++ letterE :: suf ∧ parseI64 raw = some n ∧
        v = .integer n ∧ d = between (pre ++ letterI :: raw ++ [letterE]) suf := by
  simp only [parseInteger, returns_readState_bind, returns_enter_bind]
  constructor
  · intro run
    obtain ⟨_, _, first, run⟩ := returns_bind.mp run
    obtain ⟨tail, rfl, rfl⟩ := (returns_expect fits).mp first
    have moved : (pre ++ [letterI] ++ tail).length < 2 ^ 63 := by simpa using fits
    simp only [returns_readState_bind, between_data, between_pos] at run
    rw [returns_scanned moved, returns_numeral fun n => parseI64_bytes] at run
    obtain ⟨n, reads, run⟩ := run
    obtain ⟨_, _, last, run⟩ := returns_bind.mp run
    have moved' : (pre ++ [letterI] ++ tail.takeWhile (· ≠ letterE) ++
        tail.dropWhile (· ≠ letterE)).length < 2 ^ 63 := by
      rw [List.append_assoc, List.takeWhile_append_dropWhile]
      exact moved
    obtain ⟨suf, stopped, rfl⟩ := (returns_expect moved').mp last
    obtain ⟨rfl, rfl⟩ := returns_pure.mp run
    refine ⟨tail.takeWhile (· ≠ letterE), suf, n, ?_, reads, rfl, by simp⟩
    rw [← stopped, List.cons_append, List.takeWhile_append_dropWhile]
  · intro parts
    obtain ⟨raw, suf, n, rfl, reads, rfl, rfl⟩ := parts
    obtain ⟨body, stopped⟩ := @takeWhile_before letterE raw suf fun b h =>
      numeral_not_letterE (parseI64_bytes reads b h)
    have moved : (pre ++ [letterI] ++ (raw ++ letterE :: suf)).length < 2 ^ 63 := by
      simpa using fits
    have moved' : (pre ++ [letterI] ++ raw ++ letterE :: suf).length < 2 ^ 63 := by
      simpa using fits
    rw [returns_bind_step ((returns_expect (u := ()) fits).mpr ⟨raw ++ letterE :: suf, rfl, rfl⟩)]
    simp only [returns_readState_bind, between_data, between_pos]
    rw [returns_scanned moved, returns_numeral fun n => parseI64_bytes, body, stopped]
    refine ⟨n, reads, ?_⟩
    rw [returns_bind_step ((returns_expect (u := ()) moved').mpr ⟨suf, rfl, rfl⟩)]
    exact returns_pure.mpr ⟨rfl, by simp⟩

/-- The sum wraps, if it does not panic, and the slice is then taken backwards. -/
theorem takeBytes_wrapped {pre rest : Bytes} {length : Nat} {v : Value} {d : Decoder}
    (fits : (pre ++ rest).length < 2 ^ 63) (bound : length < 2 ^ 64)
    (wraps : ¬ pre.length + length < 2 ^ 64) :
    ¬ Returns (takeBytes p length) (between pre rest) v d := by
  intro run
  simp only [List.length_append] at fits
  simp only [takeBytes, returns_readState_bind, between_pos, between_data] at run
  obtain ⟨n, _, add, run⟩ := returns_bind.mp run
  obtain ⟨rfl, wrapped⟩ := returns_usizeAdd_cases (by omega) bound add
  have short : ¬ n > (pre ++ rest).length := by
    simp only [List.length_append]
    omega
  simp only [short, ↓reduceIte] at run
  obtain ⟨m, _, again, run⟩ := returns_bind.mp run
  obtain ⟨rfl, wrapped'⟩ := returns_usizeAdd_cases (by omega) bound again
  simp only [returns_slice_bind] at run
  omega

theorem returns_takeBytes {pre rest : Bytes} {length : Nat} {v : Value} {d : Decoder}
    (fits : (pre ++ rest).length < 2 ^ 63) (bound : length < 2 ^ 64) :
    Returns (takeBytes p length) (between pre rest) v d ↔
      ∃ b suf, rest = b ++ suf ∧ b.length = length ∧ v = .bytes b ∧ d = between (pre ++ b) suf := by
  have lengths := fits
  simp only [List.length_append] at lengths
  by_cases sum : pre.length + length < 2 ^ 64
  · simp only [takeBytes, returns_readState_bind, between_pos, between_data,
      returns_usizeAdd_bind sum]
    by_cases outside : pre.length + length > (pre ++ rest).length
    · simp only [outside, ↓reduceIte, returns_fail, false_iff]
      intro parts
      obtain ⟨b, suf, rfl, rfl, _⟩ := parts
      simp only [List.length_append] at outside
      omega
    · have inside : pre.length + length ≤ (pre ++ rest).length := by omega
      simp only [outside, ↓reduceIte, returns_usizeAdd_bind sum, returns_slice_bind, inside,
        Nat.le_add_right, and_self, true_and, returns_writeState_bind, returns_pure]
      constructor
      · intro both
        obtain ⟨rfl, rfl⟩ := both
        refine ⟨rest.take length, rest.drop length, by simp, ?_, ?_, ?_⟩
        · simp only [List.length_append] at inside
          simp only [List.length_take]
          omega
        · rw [List.take_append, List.take_of_length_le (by omega), Nat.add_sub_cancel_left,
            List.drop_left' rfl]
        · rw [List.length_append] at inside
          have taken : (rest.take length).length = length := by
            rw [List.length_take]
            omega
          simp only [between, List.length_append, taken, List.append_assoc, List.take_append_drop]
      · intro parts
        obtain ⟨b, suf, rfl, rfl, rfl, rfl⟩ := parts
        have slice := slice_between pre b suf
        simp only [List.length_append, List.append_assoc] at slice
        simp [between, slice]
  · refine iff_of_false (takeBytes_wrapped fits bound sum) ?_
    intro parts
    obtain ⟨b, suf, rfl, rfl, _⟩ := parts
    simp only [List.length_append] at lengths
    omega

theorem returns_parseBytes {pre rest : Bytes} {v : Value} {d : Decoder}
    (fits : (pre ++ rest).length < 2 ^ 63) :
    Returns (parseBytes p) (between pre rest) v d ↔
      ∃ raw b suf, rest = raw ++ colon :: b ++ suf ∧ parseUsize raw = some b.length ∧
        v = .bytes b ∧ d = between (pre ++ raw ++ colon :: b) suf := by
  simp only [parseBytes, returns_readState_bind, returns_enter_bind, between_data, between_pos]
  rw [returns_scanned fits, returns_numeral fun n => parseUsize_bytes]
  have moved : (pre ++ rest.takeWhile (· ≠ colon) ++ rest.dropWhile (· ≠ colon)).length <
      2 ^ 63 := by
    rw [List.append_assoc, List.takeWhile_append_dropWhile]
    exact fits
  constructor
  · intro parts
    obtain ⟨length, reads, run⟩ := parts
    obtain ⟨_, _, last, run⟩ := returns_bind.mp run
    obtain ⟨tail, stopped, rfl⟩ := (returns_expect moved).mp last
    rw [stopped] at moved
    obtain ⟨b, suf, rfl, rfl, rfl, rfl⟩ :=
      (returns_takeBytes (by simpa using moved) (parseUsize_lt reads)).mp run
    refine ⟨rest.takeWhile (· ≠ colon), b, suf, ?_, reads, rfl, by simp⟩
    conv => lhs; rw [← List.takeWhile_append_dropWhile (p := (· ≠ colon)) (l := rest), stopped]
    simp
  · intro parts
    obtain ⟨raw, b, suf, rfl, reads, rfl, rfl⟩ := parts
    obtain ⟨body, stopped⟩ := @takeWhile_before colon raw (b ++ suf) fun c h =>
      numeral_not_colon (parseUsize_bytes reads c h)
    have split : raw ++ colon :: b ++ suf = raw ++ colon :: (b ++ suf) := by simp
    rw [split, body, stopped] at moved ⊢
    refine ⟨b.length, reads, ?_⟩
    rw [returns_bind_step ((returns_expect (u := ()) moved).mpr ⟨b ++ suf, rfl, rfl⟩)]
    exact (returns_takeBytes (by simpa using moved) (parseUsize_lt reads)).mpr
      ⟨b, suf, rfl, rfl, rfl, by simp⟩

end DecoderCursor
