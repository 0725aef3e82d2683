import RustyTorrent.Library.Utf8Text
import RustyTorrent.Torrent.MagnetUri

/- The hash of a magnet link, read two bytes at a time, for texts of any characters. -/
namespace MagnetHash
open RustExec PercentText StrSlices Utf8Text MagnetUri

inductive NextTwo : List Char → Prop where
  | pair {c d : Char} {rest : List Char} (first : c.utf8Size = 1) (second : d.utf8Size = 1) :
      NextTwo (c :: d :: rest)
  | whole {c : Char} {rest : List Char} (two : c.utf8Size = 2) : NextTwo (c :: rest)
  | wide {c : Char} {rest : List Char} (more : 3 ≤ c.utf8Size) : NextTwo (c :: rest)
  | straddled {c d : Char} {rest : List Char} (first : c.utf8Size = 1)
      (more : 2 ≤ d.utf8Size) : NextTwo (c :: d :: rest)

theorem nextTwo {text : List Char} (enough : 2 ≤ byteLength text) : NextTwo text := by
  match text, enough with
  | [], enough => simp at enough
  | [c], enough =>
    rw [byteLength_cons, byteLength_nil] at enough
    by_cases two : c.utf8Size = 2
    · exact .whole two
    · exact .wide (by omega)
  | c :: d :: rest, _ =>
    have positive := c.utf8Size_pos
    have further := d.utf8Size_pos
    by_cases one : c.utf8Size = 1
    · by_cases same : d.utf8Size = 1
      · exact .pair one same
      · exact .straddled one (by omega)
    · by_cases two : c.utf8Size = 2
      · exact .whole two
      · exact .wide (by omega)

theorem cut_wide {c : Char} {rest : List Char} (more : 3 ≤ c.utf8Size) :
    cutBytes 2 (c :: rest) = none := by
  rw [cutBytes, if_neg (by omega)]

theorem cut_straddled {c d : Char} {rest : List Char} (first : c.utf8Size = 1)
    (more : 2 ≤ d.utf8Size) : cutBytes 2 (c :: d :: rest) = none := by
  have past : ¬ d.utf8Size ≤ 1 := by omega
  simp [cutBytes, first, past]

section Turns
variable {before after : List Char} {c d : Char} {i remaining : Nat} {acc : Vector UInt8 20}

theorem turn_of_cut {digits rest : List Char} (start : byteLength before = i * 2)
    (cut : cutBytes 2 after = some (digits, rest)) :
    hashLoop (before ++ after) i (remaining + 1) acc =
      match byteFromHex digits with
      | .ok byte => hashLoop (before ++ after) (i + 1) remaining (acc.setIfInBounds i byte)
      | .error e => fail (.hexDecode e.text) := by
  have width : i * 2 + 2 - i * 2 = 2 := by omega
  rw [hashLoop, sliceStr_behind start (by omega), width, cut]
  simp only [pure_bind]
  cases byteFromHex digits <;> rfl

theorem turn_pair (start : byteLength before = i * 2) (first : c.utf8Size = 1)
    (second : d.utf8Size = 1) :
    hashLoop (before ++ c :: d :: after) i (remaining + 1) acc =
      match byteFromHex [c, d] with
      | .ok byte =>
          hashLoop (before ++ c :: d :: after) (i + 1) remaining (acc.setIfInBounds i byte)
      | .error e => fail (.hexDecode e.text) := by
  have cut : cutBytes 2 (c :: d :: after) = some ([c, d], after) := by
    simp [cutBytes, first, second]
  exact turn_of_cut start cut

theorem turn_whole (start : byteLength before = i * 2) (two : c.utf8Size = 2) :
    ∃ e, hashLoop (before ++ c :: after) i (remaining + 1) acc = fail e := by
  have cut : cutBytes 2 (c :: after) = some ([c], after) := by
    simp [cutBytes, two]
  rw [turn_of_cut start cut]
  cases read : byteFromHex [c] with
  | error e => exact ⟨_, rfl⟩
  | ok b =>
    obtain ⟨v, digit, -⟩ := byteFromHex_one.mp read
    have one := utf8Size_one.mpr (hex_digit_chars digit).1
    omega

theorem turn_panics (start : byteLength before = i * 2) (cut : cutBytes 2 after = none) :
    Panics (hashLoop (before ++ after) i (remaining + 1) acc) () := by
  have width : i * 2 + 2 - i * 2 = 2 := by omega
  rw [hashLoop, sliceStr_behind start (by omega), width, cut]
  exact panics_bind_first ⟨_, rfl⟩

end Turns

def pairBytes : List Char → Option Bytes
  | [] => some []
  | [_] => none
  | c :: d :: rest =>
      match byteFromHex [c, d] with
      | .ok byte => (pairBytes rest).map (byte :: ·)
      | .error _ => none

theorem pairBytes_cons {c d : Char} {rest : List Char} {bytes : Bytes} :
    pairBytes (c :: d :: rest) = some bytes ↔ ∃ byte later, byteFromHex [c, d] = .ok byte ∧
      pairBytes rest = some later ∧ bytes = byte :: later := by
  rw [pairBytes]
  cases byteFromHex [c, d] <;> simp [eq_comm]

theorem accepted_ascii {c d : Char} {byte : UInt8} (read : byteFromHex [c, d] = .ok byte) :
    c.utf8Size = 1 ∧ d.utf8Size = 1 := by
  obtain ⟨l, second, ⟨rfl, -⟩ | ⟨h, first, -⟩⟩ := byteFromHex_two.mp read
  · exact ⟨by decide, utf8Size_one.mpr (hex_digit_chars second).1⟩
  · exact ⟨utf8Size_one.mpr (hex_digit_chars first).1, utf8Size_one.mpr (hex_digit_chars second).1⟩

theorem pairBytes_first {c : Char} {rest : List Char} {bytes : Bytes}
    (read : pairBytes (c :: rest) = some bytes) :
    c.utf8Size = 1 ∧ ∃ d later, rest = d :: later ∧ d.utf8Size = 1 := by
  cases rest with
  | nil => simp [pairBytes] at read
  | cons d later =>
    obtain ⟨byte, -, pair, -⟩ := pairBytes_cons.mp read
    obtain ⟨first, second⟩ := accepted_ascii pair
    exact ⟨first, d, later, rfl, second⟩

theorem pairBytes_wide {c : Char} {rest : List Char} (more : 2 ≤ c.utf8Size) :
    pairBytes (c :: rest) = none := by
  rw [Option.eq_none_iff_forall_ne_some]
  intro bytes read
  have one := (pairBytes_first read).1
  omega

theorem pairBytes_straddled {c d : Char} {rest : List Char} (more : 2 ≤ d.utf8Size) :
    pairBytes (c :: d :: rest) = none := by
  rw [Option.eq_none_iff_forall_ne_some]
  intro bytes read
  obtain ⟨-, d', later, same, one⟩ := pairBytes_first read
  cases same
  omega

theorem placed_byte {i : Nat} (acc : Vector UInt8 20) (byte : UInt8) (inside : i < 20) :
    (acc.setIfInBounds i byte).toList.take (i + 1) = acc.toList.take i ++ [byte] := by
  have room : i < acc.toList.length := by simpa using inside
  rw [Vector.toList_setIfInBounds, List.take_add_one, List.take_set_of_le (Nat.le_refl _),
    List.getElem?_set_self room, Option.toList_some]

theorem hashLoop_returns_iff {before after : List Char} {i remaining : Nat}
    {acc infoHash : Vector UInt8 20} (turns : i + remaining = 20)
    (start : byteLength before = i * 2) (width : byteLength after = remaining * 2) :
    Returns (hashLoop (before ++ after) i remaining acc) () infoHash () ↔
      ∃ bytes, pairBytes after = some bytes ∧
        infoHash.toList = acc.toList.take i ++ bytes := by
  induction remaining generalizing i before after acc with
  | zero =>
    rw [Nat.zero_mul, byteLength_eq_zero] at width
    subst width
    have all : acc.toList.take i = acc.toList := List.take_of_length_le (by simp; omega)
    rw [hashLoop, returns_pure, all]
    simp [pairBytes, Vector.toList_inj, eq_comm]
  | succ remaining ih =>
    cases @nextTwo after (by omega) with
    | @pair c d rest first second =>
      rw [turn_pair start first second]
      cases read : byteFromHex [c, d] with
      | error e => simp [pairBytes, read]
      | ok byte =>
        have split : before ++ c :: d :: rest = (before ++ [c, d]) ++ rest := by simp
        have further : byteLength (before ++ [c, d]) = (i + 1) * 2 := by
          simp [start, first, second]
          omega
        have left : byteLength rest = remaining * 2 := by
          rw [byteLength_cons, byteLength_cons, first, second] at width
          omega
        dsimp only
        rw [split, ih (by omega) further left, placed_byte acc byte (by omega)]
        simp [pairBytes, read]
    | @whole c rest two =>
      obtain ⟨e, fails⟩ := @turn_whole before rest c i remaining acc start two
      rw [fails, pairBytes_wide two.ge]
      exact iff_of_false returns_fail (by simp)
    | @wide c rest more =>
      rw [pairBytes_wide (by omega)]
      exact iff_of_false (panics_not_returns (turn_panics start (cut_wide more))) (by simp)
    | @straddled c d rest first more =>
      rw [pairBytes_straddled more]
      exact iff_of_false (panics_not_returns (turn_panics start (cut_straddled first more)))
        (by simp)

theorem isPrefixOf?_eq_some {start text rest : List Char} :
    start.isPrefixOf? text = some rest ↔ text = start ++ rest := by
  induction start generalizing text with
  | nil => simp [List.isPrefixOf?, eq_comm]
  | cons c start ih =>
    cases text with
    | nil => simp [List.isPrefixOf?]
    | cons d text =>
      by_cases same : c = d
      · simp [List.isPrefixOf?, same, ih]
      · simp [List.isPrefixOf?, same, Ne.symm same]

theorem parseXt_returns_iff {xt : List Char} {infoHash : Vector UInt8 20} :
    Returns (parseXt xt) () infoHash () ↔ ∃ digits, xt = urn ++ digits ∧
      byteLength digits = 40 ∧ pairBytes digits = some infoHash.toList := by
  unfold parseXt
  rw [returns_okOr_bind]
  simp only [isPrefixOf?_eq_some]
  refine exists_congr fun digits => and_congr_right fun _ => ?_
  split_ifs with other
  · exact iff_of_false returns_fail fun told => other told.1
  · rw [not_not] at other
    have loop := @hashLoop_returns_iff [] digits 0 20 (.replicate 20 0) infoHash rfl rfl other
    rw [List.nil_append] at loop
    rw [loop]
    simp [other, eq_comm]

def xtValue (query : List Char) : Option (List Char) :=
  (((query.splitOn '&').map splitParam).find? fun param => param.1 = keyXt).map Prod.snd

def linkOf (query : List Char) (infoHash : Vector UInt8 20) : MagnetLink where
  infoHash := infoHash
  displayName := (((query.splitOn '&').map splitParam).find? fun param => param.1 = keyDn).map
    fun param => String.ofList (urlDecode param.2)
  trackers := (((query.splitOn '&').map splitParam).filter fun param => param.1 = keyTr).map
    fun param => String.ofList (urlDecode param.2)

theorem parse_scheme (query : List Char) :
    parse (scheme ++ query) = okOr (xtValue query) .missingInfoHash >>= fun xt =>
      parseXt xt >>= fun infoHash => pure (linkOf query infoHash) := by
  have eight : byteLength scheme = 8 := by decide
  have width : byteLength (scheme ++ query) - 8 = byteLength query := by
    rw [byteLength_append, eight, Nat.add_sub_cancel_left]
  have whole := cutBytes_append query []
  rw [List.append_nil] at whole
  unfold parse
  rw [if_neg (by simp), sliceStr_behind eight (by rw [byteLength_append]; omega), width, whole]
  rfl

theorem returns_parse_iff {query : List Char} {link : MagnetLink} :
    Returns (parse (scheme ++ query)) () link () ↔ ∃ xt, xtValue query = some xt ∧
      ∃ infoHash, Returns (parseXt xt) () infoHash () ∧ link = linkOf query infoHash := by
  rw [parse_scheme, returns_okOr_bind]
  refine exists_congr fun xt => and_congr_right fun _ => ?_
  rw [returns_bind]
  constructor
  · intro parts
    obtain ⟨infoHash, _, run, rest⟩ := parts
    exact ⟨infoHash, run, (returns_pure.mp rest).1.symm⟩
  · intro parts
    obtain ⟨infoHash, run, rfl⟩ := parts
    exact ⟨infoHash, (), run, returns_value _ _⟩

end MagnetHash
