import RustyTorrent.Bencode.DecodeErrors

/- Errors as a text grows or is cut off. A byte that is wrong stays wrong whatever follows it, and
   so the front part of a good text is reported as unfinished. -/
namespace TruncatedTexts
open RustExec ErrorRuns Numerals Utf8Text BencodeValue BencodeDecoder BencodeGrammar
  BencodeRecognition DecoderSafety CursorErrors DecodeErrors

/-- The errors that no further byte can mend. -/
def Final : DecodeError → Prop
  | .unexpectedByte _ _ | .invalidDictKey _ | .trailingData _ => True
  | _ => False

variable {p : Profile} {e : DecodeError} {data more : Bytes}

theorem breaks_extend (breaks : Breaks data e) (final : Final e) : Breaks (data ++ more) e := by
  cases breaks with
  | value opened goesOn stop =>
    rw [List.append_assoc]
    cases stop with
    | stray notI notL notD notDigit => exact .value opened goesOn (.stray notI notL notD notDigit)
    | ended => cases final
    | integer => cases final
    | openInteger => cases final
    | length => cases final
    | openLength => cases final
    | short => cases final
  | noRoot => exact .noRoot
  | noValue opened pairs key =>
    rw [List.append_assoc]
    exact .noValue opened pairs key
  | key opened pairs spelled other =>
    rw [List.append_assoc]
    exact .key opened pairs spelled other
  | trailing spelled some =>
    rw [List.append_assoc]
    exact .trailing spelled (List.append_ne_nil_of_left_ne_nil some more)

theorem lengthsFit_front (sums : LengthsFit (data ++ more)) : LengthsFit data := by
  intro s c raw rest length same opened digit reads
  refine sums s c raw (rest ++ more) length ?_ opened digit reads
  rw [same]
  simp

theorem scan_append {stop : UInt8} (tail more : Bytes) :
    (tail ++ more).takeWhile (· ≠ stop) = tail.takeWhile (· ≠ stop) ∨
      tail.takeWhile (· ≠ stop) = tail ∧
        (tail ++ more).takeWhile (· ≠ stop) = tail ++ more.takeWhile (· ≠ stop) := by
  rw [List.takeWhile_append]
  split
  · rename_i all
    exact Or.inr ⟨(List.takeWhile_prefix _).eq_of_length all, rfl⟩
  · exact Or.inl rfl

theorem front_breaks (whole : ∀ e, ¬ Breaks (data ++ more) e) (breaks : Breaks data e) :
    (∃ pos ≤ data.length, e = .unexpectedEof pos) ∨
      ∃ s sign, data = s ++ letterI :: sign ∧ OpenAt s ∧ Unbegun sign ∧
        e = .invalidInteger (s.length + 1) := by
  have notFinal : ¬ Final e := fun final => whole e (breaks_extend breaks final)
  cases breaks with
  | @value s rest e opened goesOn stop =>
    cases stop with
    | ended => exact Or.inl ⟨_, by simp, rfl⟩
    | openInteger =>
      refine Or.inl ⟨_, ?_, rfl⟩
      rw [List.length_append, List.length_cons]
      omega
    | openLength => exact Or.inl ⟨_, by simp, rfl⟩
    | short =>
      refine Or.inl ⟨_, ?_, rfl⟩
      simp only [List.length_append, List.length_cons]
      omega
    | stray => exact absurd trivial notFinal
    | @integer tail bad =>
      cases read : parseI64 ((tail ++ more).takeWhile (· ≠ letterE)) with
      | none =>
        refine absurd (Breaks.value opened ?_ (.integer read)) ?_
        · exact goesOn
        · simpa using whole _
      | some n =>
        rcases scan_append tail more with same | ⟨all, scanned⟩
        · rw [same, bad] at read
          cases read
        · rw [scanned] at read
          rcases parseI64_prefix read with ⟨m, begun⟩ | unbegun
          · rw [all, begun] at bad
            cases bad
          · exact Or.inr ⟨s, tail, rfl, opened, unbegun, rfl⟩
    | @length c tail digit bad =>
      cases read : parseUsize ((c :: tail ++ more).takeWhile (· ≠ colon)) with
      | none =>
        refine absurd (Breaks.value opened ?_ (.length digit read)) ?_
        · exact goesOn
        · simpa using whole _
      | some n =>
        rcases scan_append (c :: tail) more with same | ⟨all, scanned⟩
        · rw [same, bad] at read
          cases read
        · rw [scanned] at read
          obtain ⟨m, begun⟩ := parseUsize_prefix digit read
          rw [all, begun] at bad
          cases bad
  | noRoot => exact absurd trivial notFinal
  | noValue => exact absurd trivial notFinal
  | key => exact absurd trivial notFinal
  | trailing => exact absurd trivial notFinal

/-- A text that is accepted, cut off at any place: the error says that the text ends too early,
    unless the cut is in front of the first digit of an integer, which is then called invalid. -/
theorem truncated_unfinished (p : Profile) {data : ByteSeq} {v : Value}
    (accepted : Returns (decode p data) () v ()) {n : Nat} (shorter : n < data.bytes.length) :
    ∃ e, Fails (decode p (data.take n)) () e ∧
      ((∃ pos ≤ n, e = .unexpectedEof pos) ∨
        ∃ s sign, data.bytes.take n = s ++ letterI :: sign ∧ OpenAt s ∧ Unbegun sign ∧
          e = .invalidInteger (s.length + 1)) := by
  have whole : data.bytes.take n ++ data.bytes.drop n = data.bytes := List.take_append_drop _ _
  have sums : LengthsFit (data.bytes.take n) := by
    refine @lengthsFit_front _ (data.bytes.drop n) ?_
    rw [whole]
    by_contra violated
    exact panics_not_returns (decode_panics_iff.mpr violated) accepted
  have unbroken : ∀ e, ¬ Breaks (data.bytes.take n ++ data.bytes.drop n) e := by
    intro e breaks
    rw [whole] at breaks
    exact fails_not_returns (decode_fails_iff.mpr breaks) accepted
  have unread : ∀ w u, ¬ Returns (decode p (data.take n)) () w u := by
    intro w u read
    have same := (accepted_prefix_eq read accepted (List.take_prefix _ _)).1
    have lengths := congrArg (fun text : ByteSeq => text.bytes.length) same
    simp only [ByteSeq.take, List.length_take] at lengths
    omega
  obtain ⟨e, failed⟩ := safe_fails (@safe_decode p (data.take n) sums) unread
  refine ⟨e, failed, ?_⟩
  rcases front_breaks unbroken (decode_fails_iff.mp failed) with ⟨pos, inside, rfl⟩ | begun
  · rw [List.length_take] at inside
    exact Or.inl ⟨pos, by omega, rfl⟩
  · exact Or.inr begun

def minusFive : ByteSeq := ⟨utf8Bytes "i-5e", by decide +kernel⟩

theorem truncated_unfinished_sign : Fails (decode .debug (minusFive.take 2)) ()
    (.invalidInteger 1) := by
  have accepted : Returns (decode .debug minusFive) () (.integer (-5)) () := by decide +kernel
  obtain ⟨e, failed, -⟩ := truncated_unfinished .debug accepted (n := 2) (by decide)
  have invalid : Fails (decode .debug (minusFive.take 2)) () (.invalidInteger 1) := by
    unfold Fails
    decide +kernel
  rwa [fails_unique failed invalid] at failed

/-- An error at a byte that is wrong is the error of every longer text. -/
theorem errors_final (p : Profile) {front data : ByteSeq} (longer : front.bytes <+: data.bytes)
    {e : DecodeError} (final : Final e) (failed : Fails (decode p front) () e) :
    Fails (decode p data) () e := by
  obtain ⟨more, same⟩ := longer
  rw [decode_fails_iff] at failed ⊢
  rw [← same]
  exact breaks_extend failed final

theorem errors_final_missing :
    Fails (decode .debug ⟨utf8Bytes "d1:aee", by decide +kernel⟩) ()
      (.unexpectedByte letterE 4) := by
  have failed : Fails (decode .debug ⟨utf8Bytes "d1:ae", by decide +kernel⟩) ()
      (.unexpectedByte letterE 4) := by
    unfold Fails
    decide +kernel
  exact errors_final .debug ⟨[letterE], by decide +kernel⟩ trivial failed

end TruncatedTexts
