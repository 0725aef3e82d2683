import RustyTorrent.Torrent.MagnetUri

/- Escapes that are not followed by two hexadecimal digits. The decoder takes what is there
   behind a percent sign, up to two characters, and reads a single digit as a byte too. -/
namespace MalformedEscapes
open PercentText MagnetUri

/-- No percent sign has two hexadecimal digits behind it. -/
def NoEscape (s : List Char) : Prop :=
  ∀ before high low after, s = before ++ '%' :: high :: low :: after →
    hexValue high = none ∨ hexValue low = none

theorem noEscape_nil : NoEscape [] := by
  intro before high low after split
  simp at split

theorem noEscape_cons {c : Char} {s : List Char} : NoEscape (c :: s) ↔
    (c = '%' → ∀ high low rest, s = high :: low :: rest →
      hexValue high = none ∨ hexValue low = none) ∧ NoEscape s := by
  constructor
  · intro none
    constructor
    · rintro rfl high low rest rfl
      exact none [] high low rest rfl
    · intro before high low after split
      exact none (c :: before) high low after (by rw [split, List.cons_append])
  · rintro ⟨here, later⟩ before high low after split
    cases before with
    | nil =>
      rw [List.nil_append, List.cons.injEq] at split
      exact here split.1 high low after split.2
    | cons first before =>
      rw [List.cons_append, List.cons.injEq] at split
      exact later before high low after split.2

theorem NoEscape.tail {c : Char} {s : List Char} (none : NoEscape (c :: s)) : NoEscape s :=
  (noEscape_cons.mp none).2

/-- Read from the left, where a percent sign takes the two characters behind it, the text ends
    in one with a single hexadecimal digit. -/
def endsHalfEscaped : List Char → Bool
  | [] => false
  | c :: rest =>
      if c = '%' then
        match rest with
        | _ :: _ :: rest => endsHalfEscaped rest
        | [digit] => (hexValue digit).isSome
        | [] => false
      else endsHalfEscaped rest

theorem unescape_two {high low : Char} {rest : List Char} (notPlus : high ≠ '+')
    (none : NoEscape ('%' :: high :: low :: rest)) : unescape [high, low] = ['%', high, low] := by
  unfold unescape
  cases read : byteFromHex [high, low] with
  | error e => rfl
  | ok b =>
    obtain ⟨l, second, ⟨plus, -⟩ | ⟨h, first, -⟩⟩ := byteFromHex_two.mp read
    · exact absurd plus notPlus
    · rcases none [] high low rest rfl with missing | missing
      · rw [first] at missing
        cases missing
      · rw [second] at missing
        cases missing

theorem unescape_one (c : Char) : unescape [c] = ['%', c] ↔ (hexValue c).isSome = false := by
  unfold unescape
  cases digit : hexValue c with
  | none =>
    cases read : byteFromHex [c] with
    | error e => simp
    | ok b =>
      obtain ⟨d, found, -⟩ := byteFromHex_one.mp read
      rw [digit] at found
      cases found
  | some d =>
    rw [byteFromHex_one.mpr ⟨d, digit, rfl⟩]
    simp

/-- Malformed escapes are kept, except for a digit that stands alone at the end. -/
theorem malformed_kept_iff {s : List Char} (plain : '+' ∉ s) (none : NoEscape s) :
    urlDecode s = s ↔ endsHalfEscaped s = false := by
  induction s using urlDecode.induct with
  | case1 => simp [urlDecode, endsHalfEscaped]
  | case2 high low rest ih =>
    simp only [List.mem_cons, not_or] at plain
    obtain ⟨-, notPlus, -, later⟩ := plain
    have kept := unescape_two (Ne.symm notPlus) none
    have further := ih later none.tail.tail.tail
    simp only [urlDecode, endsHalfEscaped, ↓reduceIte, kept, List.cons_append, List.nil_append,
      List.cons.injEq, true_and]
    exact further
  | case3 short two =>
    rcases short with _ | ⟨digit, _ | ⟨low, rest⟩⟩
    · simp [urlDecode, endsHalfEscaped, unescape, byteFromHex]
    · simp only [urlDecode, endsHalfEscaped, ↓reduceIte]
      exact unescape_one digit
    · exact absurd rfl (two digit low rest)
  | case4 => exact absurd (List.mem_cons_self) plain
  | case5 c rest notPercent notPlus ih =>
    rw [List.mem_cons, not_or] at plain
    have further := ih plain.2 none.tail
    rw [urlDecode_plain notPercent notPlus, endsHalfEscaped.eq_def]
    simp only [notPercent, ↓reduceIte, List.cons.injEq, true_and]
    exact further

theorem malformed_kept_iff_mixed :
    urlDecode ['%', '%', '4', 'g', '%', 'é', '1', '%'] =
      ['%', '%', '4', 'g', '%', 'é', '1', '%'] := by
  refine (malformed_kept_iff (by simp) ?_).mpr rfl
  simp [noEscape_cons, noEscape_nil, hexValue]

/-- A percent sign and one digit at the end are read as the character U+0004. -/
theorem half_escape_decoded :
    '+' ∉ ['%', '4'] ∧ NoEscape ['%', '4'] ∧ urlDecode ['%', '4'] = [Char.ofUInt8 4] ∧
      urlDecode ['%', '4'] ≠ ['%', '4'] := by
  refine ⟨by simp, ?_, rfl, ?_⟩
  · simp [noEscape_cons, noEscape_nil]
  · simp [urlDecode, unescape_one, hexValue]

end MalformedEscapes
