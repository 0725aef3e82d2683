import RustyTorrent.Torrent.MagnetHash

/- The slices of the magnet parser. Twenty pairs of bytes are sliced out of a text of which only
   the length in bytes was checked. -/
namespace MagnetSlices
open RustExec PercentText StrSlices MagnetUri MagnetHash

/-- Behind pairs that are read as bytes, two bytes end inside a character. -/
inductive CutsCharacter : List Char → Prop where
  | wide {c : Char} {rest : List Char} (more : 3 ≤ c.utf8Size) : CutsCharacter (c :: rest)
  | straddled {c d : Char} {rest : List Char} (first : c.utf8Size = 1)
      (more : 2 ≤ d.utf8Size) : CutsCharacter (c :: d :: rest)
  | later {c d : Char} {rest : List Char} {byte : UInt8} (read : byteFromHex [c, d] = .ok byte)
      (cuts : CutsCharacter rest) : CutsCharacter (c :: d :: rest)

/-- The first hash of the link has forty bytes and cuts a character. -/
def CutsHash (uri : List Char) : Prop :=
  ∃ query digits, uri = scheme ++ query ∧ xtValue query = some (urn ++ digits) ∧
    byteLength digits = 40 ∧ CutsCharacter digits

theorem pair_start {before : List Char} {c d : Char} {i : Nat} (start : byteLength before = i * 2)
    (first : c.utf8Size = 1) (second : d.utf8Size = 1) :
    byteLength (before ++ [c, d]) = (i + 1) * 2 := by
  simp only [byteLength_append, byteLength_cons, byteLength_nil, start, first, second]
  omega

theorem hashLoop_panics {after : List Char} (cuts : CutsCharacter after) {before : List Char}
    {i remaining : Nat} {acc : Vector UInt8 20} (start : byteLength before = i * 2)
    (width : byteLength after = remaining * 2) :
    Panics (hashLoop (before ++ after) i remaining acc) () := by
  induction cuts generalizing before i remaining acc with
  | @wide c rest more =>
    rw [byteLength_cons] at width
    obtain ⟨turns, rfl⟩ := Nat.exists_eq_add_one.mpr (show 0 < remaining by omega)
    exact turn_panics start (cut_wide more)
  | @straddled c d rest first more =>
    rw [byteLength_cons] at width
    obtain ⟨turns, rfl⟩ := Nat.exists_eq_add_one.mpr (show 0 < remaining by omega)
    exact turn_panics start (cut_straddled first more)
  | @later c d rest byte read cuts ih =>
    obtain ⟨first, second⟩ := accepted_ascii read
    rw [byteLength_cons, byteLength_cons, first, second] at width
    obtain ⟨turns, rfl⟩ := Nat.exists_eq_add_one.mpr (show 0 < remaining by omega)
    have split : before ++ c :: d :: rest = (before ++ [c, d]) ++ rest := by simp
    rw [turn_pair start first second, read]
    dsimp only
    rw [split]
    exact ih (pair_start start first second) (by omega)

theorem hashLoop_safe {before after : List Char} {i remaining : Nat} {acc : Vector UInt8 20}
    (start : byteLength before = i * 2) (width : byteLength after = remaining * 2)
    (whole : ¬ CutsCharacter after) : Safe (hashLoop (before ++ after) i remaining acc) () := by
  induction remaining generalizing before after i acc with
  | zero => exact safe_pure _ _
  | succ remaining ih =>
    cases @nextTwo after (by omega) with
    | @pair c d rest first second =>
      rw [turn_pair start first second]
      cases read : byteFromHex [c, d] with
      | error e => exact safe_fail _ _
      | ok byte =>
        have split : before ++ c :: d :: rest = (before ++ [c, d]) ++ rest := by simp
        rw [byteLength_cons, byteLength_cons, first, second] at width
        dsimp only
        rw [split]
        exact ih (pair_start start first second) (by omega) fun cuts => whole (.later read cuts)
    | @whole c rest two =>
      obtain ⟨e, fails⟩ := @turn_whole before rest c i remaining acc start two
      rw [fails]
      exact safe_fail _ _
    | wide more => exact absurd (.wide more) whole
    | straddled first more => exact absurd (.straddled first more) whole

theorem parseXt_safe {xt : List Char}
    (whole : ∀ digits, xt = urn ++ digits → byteLength digits = 40 → ¬ CutsCharacter digits) :
    Safe (parseXt xt) () := by
  unfold parseXt
  refine safe_bind (safe_okOr _ _ _) ?_
  intro digits _ found
  have behind := isPrefixOf?_eq_some.mp (returns_okOr.mp found).1
  split_ifs with other
  · exact safe_fail _ _
  · rw [not_not] at other
    exact @hashLoop_safe [] digits 0 20 _ rfl other (whole digits behind other)

theorem parseXt_panics {digits : List Char} (length : byteLength digits = 40)
    (cuts : CutsCharacter digits) : Panics (parseXt (urn ++ digits)) () := by
  have behind : urn.isPrefixOf? (urn ++ digits) = some digits := isPrefixOf?_eq_some.mpr rfl
  unfold parseXt
  refine panics_okOr_bind behind ?_
  rw [if_neg (not_not.mpr length)]
  exact @hashLoop_panics digits cuts [] 0 20 _ rfl length

/-- The parser ends in a link or an error exactly if no slice cuts a character. -/
theorem parse_safe_iff (uri : List Char) : Safe (parse uri) () ↔ ¬ CutsHash uri := by
  constructor
  · rintro safe ⟨query, digits, rfl, found, length, cuts⟩
    rw [parse_scheme] at safe
    have panic := panics_bind_first (f := fun infoHash => pure (linkOf query infoHash))
      (parseXt_panics length cuts)
    exact panic_not_safe (panics_okOr_bind found panic) safe
  · intro whole
    by_cases starts : scheme.isPrefixOf uri
    · obtain ⟨query, rfl⟩ := List.isPrefixOf_iff_prefix.mp starts
      rw [parse_scheme]
      refine safe_bind (safe_okOr _ _ _) ?_
      intro xt _ found
      refine safe_bind (parseXt_safe ?_) fun infoHash _ _ => safe_pure _ _
      rintro digits rfl length cuts
      exact whole ⟨query, digits, rfl, (returns_okOr.mp found).1, length, cuts⟩
    · rw [parse, if_pos starts]
      exact safe_fail _ _

/-- A letter, nineteen letters of two bytes and a letter are forty bytes, too. -/
theorem accents_panic :
    let uri := scheme ++ ['x', 't', '='] ++ urn ++ 'a' :: (List.replicate 19 'é' ++ ['a'])
    Panics (parse uri) () ∧ ¬ Safe (parse uri) () := by
  intro uri
  have panic : Panics (parse uri) () := ⟨.bounds, by decide +kernel⟩
  exact ⟨panic, panic_not_safe panic⟩

end MagnetSlices
