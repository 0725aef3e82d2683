import Mathlib.Data.List.Forall2
import RustyTorrent.Torrent.MagnetHash

/- Magnet links with further characters of their values escaped. The name and the trackers are
   decoded before they are read, and the hash is read as it stands. -/
namespace MagnetEscaping
open RustExec PercentText StrSlices Utf8Text MagnetUri MagnetHash

/-- Every percent sign begins an escape, which is kept. Any other ASCII character but a plus
    sign may be replaced by its own escape, with hexadecimal digits of either case. -/
inductive Escapes : List Char → List Char → Prop where
  | done : Escapes [] []
  | plain {c : Char} {s t : List Char} (notPercent : c ≠ '%') (rest : Escapes s t) :
      Escapes (c :: s) (c :: t)
  | kept {high low : Char} {h l : Nat} {s t : List Char} (first : hexValue high = some h)
      (second : hexValue low = some l) (rest : Escapes s t) :
      Escapes ('%' :: high :: low :: s) ('%' :: high :: low :: t)
  | replaced {c high low : Char} {s t : List Char} (notPercent : c ≠ '%') (notPlus : c ≠ '+')
      (ascii : c.toNat < 128) (first : hexValue high = some (c.toNat / 16))
      (second : hexValue low = some (c.toNat % 16)) (rest : Escapes s t) :
      Escapes (c :: s) ('%' :: high :: low :: t)

/-- A parameter stays as it is, or is an `xt`, `dn` or `tr` with more of its value escaped. -/
inductive EscapesParam : List Char → List Char → Prop where
  | kept (text : List Char) : EscapesParam text text
  | value {key s t : List Char} (known : key ∈ [keyXt, keyDn, keyTr]) (escapes : Escapes s t) :
      EscapesParam (key ++ '=' :: s) (key ++ '=' :: t)

def EscapesUri (uri uri' : List Char) : Prop :=
  ∃ query params, uri = scheme ++ query ∧
    List.Forall₂ EscapesParam (query.splitOn '&') params ∧
    uri' = scheme ++ ['&'].intercalate params

def firstXt (uri : List Char) : Option (List Char) := xtValue (uri.drop scheme.length)

theorem urlDecode_other {c : Char} {rest : List Char} (notPercent : c ≠ '%') :
    urlDecode (c :: rest) = (if c = '+' then ' ' else c) :: urlDecode rest := by
  rw [urlDecode.eq_def]
  by_cases plus : c = '+' <;> simp [notPercent, plus]

theorem escapes_decode {s t : List Char} (escapes : Escapes s t) : urlDecode t = urlDecode s := by
  induction escapes with
  | done => rfl
  | plain notPercent rest ih => rw [urlDecode_other notPercent, urlDecode_other notPercent, ih]
  | kept first second rest ih => rw [urlDecode_pair first second, urlDecode_pair first second, ih]
  | @replaced c high low s t notPercent notPlus ascii first second rest ih =>
    have value : c.toNat / 16 * 16 + c.toNat % 16 = c.toNat := Nat.div_add_mod' _ _
    rw [urlDecode_pair first second, urlDecode_plain notPercent notPlus, value,
      ofUInt8_ofNat ascii, ih]

theorem escapes_longer {s t : List Char} (escapes : Escapes s t) :
    t = s ∨ byteLength s < byteLength t := by
  induction escapes with
  | done => exact Or.inl rfl
  | plain notPercent rest ih =>
    rcases ih with rfl | longer
    · exact Or.inl rfl
    · right
      simp only [byteLength_cons]
      omega
  | kept first second rest ih =>
    rcases ih with rfl | longer
    · exact Or.inl rfl
    · right
      simp only [byteLength_cons]
      omega
  | @replaced c high low s t notPercent notPlus ascii first second rest ih =>
    right
    have one := utf8Size_one.mpr ascii
    have sign := ('%').utf8Size_pos
    have digit := high.utf8Size_pos
    have positive := low.utf8Size_pos
    have rest : byteLength s ≤ byteLength t := by
      rcases ih with rfl | longer
      · exact Nat.le_refl _
      · exact Nat.le_of_lt longer
    simp only [byteLength_cons]
    omega

theorem escapes_no_ampersand {s t : List Char} (escapes : Escapes s t) (alone : '&' ∉ s) :
    '&' ∉ t := by
  induction escapes with
  | done => exact alone
  | plain notPercent rest ih =>
    rw [List.mem_cons, not_or] at alone ⊢
    exact ⟨alone.1, ih alone.2⟩
  | kept first second rest ih =>
    simp only [List.mem_cons, not_or] at alone ⊢
    exact ⟨alone.1, alone.2.1, alone.2.2.1, ih alone.2.2.2⟩
  | replaced notPercent notPlus ascii first second rest ih =>
    rw [List.mem_cons, not_or] at alone
    obtain ⟨-, -, -, high⟩ := hex_digit_chars first
    obtain ⟨-, -, -, low⟩ := hex_digit_chars second
    simp [ih alone.2, Ne.symm high, Ne.symm low]

structure SameMeaning (param param' : List Char × List Char) : Prop where
  key : param'.1 = param.1
  decoded : urlDecode param'.2 = urlDecode param.2
  longer : param'.2 = param.2 ∨ byteLength param.2 < byteLength param'.2

theorem split_known {key value : List Char} (known : key ∈ [keyXt, keyDn, keyTr]) :
    splitParam (key ++ '=' :: value) = (key, value) := by
  have plain : '=' ∉ key := by
    simp only [List.mem_cons, List.not_mem_nil, or_false] at known
    rcases known with rfl | rfl | rfl <;> decide
  rw [splitParam, splitFirst_found plain]
  rfl

theorem escaped_same_meaning {text text' : List Char} (escapes : EscapesParam text text') :
    SameMeaning (splitParam text) (splitParam text') := by
  cases escapes with
  | kept => exact ⟨rfl, rfl, Or.inl rfl⟩
  | value known escapes =>
    rw [split_known known, split_known known]
    exact ⟨rfl, escapes_decode escapes, escapes_longer escapes⟩

theorem param_no_ampersand {text text' : List Char} (escapes : EscapesParam text text')
    (alone : '&' ∉ text) : '&' ∉ text' := by
  cases escapes with
  | kept => exact alone
  | value known escapes =>
    rw [List.mem_append, List.mem_cons, not_or, not_or] at alone ⊢
    exact ⟨alone.1, alone.2.1, escapes_no_ampersand escapes alone.2.2⟩

section Lists
variable {params params' : List (List Char × List Char)}

theorem same_under_key (same : List.Forall₂ SameMeaning params params') (key : List Char) :
    List.Forall₂ SameMeaning (params.filter fun param => param.1 = key)
      (params'.filter fun param => param.1 = key) := by
  apply List.rel_filter _ same
  intro param param' meaning
  simp [meaning.key]

theorem same_decoded (same : List.Forall₂ SameMeaning params params') :
    params'.map (fun param => String.ofList (urlDecode param.2)) =
      params.map fun param => String.ofList (urlDecode param.2) := by
  induction same with
  | nil => rfl
  | cons meaning rest ih => rw [List.map_cons, List.map_cons, meaning.decoded, ih]

theorem first_longer (same : List.Forall₂ SameMeaning params params') {value value' : List Char}
    (first : params.head?.map Prod.snd = some value)
    (first' : params'.head?.map Prod.snd = some value') :
    value' = value ∨ byteLength value < byteLength value' := by
  cases same with
  | nil => cases first
  | cons meaning rest =>
    cases first
    cases first'
    exact meaning.longer

end Lists

theorem params_alone {texts params : List (List Char)}
    (escapes : List.Forall₂ EscapesParam texts params) (alone : ∀ text ∈ texts, '&' ∉ text) :
    ∀ param ∈ params, '&' ∉ param := by
  induction escapes with
  | nil => simp
  | cons first rest ih =>
    rw [List.forall_mem_cons] at alone ⊢
    exact ⟨param_no_ampersand first alone.1, ih alone.2⟩

section Queries
variable {query : List Char} {params : List (List Char)}

theorem rewritten_split (escapes : List.Forall₂ EscapesParam (query.splitOn '&') params) :
    (['&'].intercalate params).splitOn '&' = params := by
  apply List.splitOn_intercalate '&'
  · exact params_alone escapes fun text member => splitOn_absent member
  · intro none
    have count := escapes.length_eq
    rw [none, List.length_nil, List.length_eq_zero_iff] at count
    exact List.splitOn_ne_nil '&' query count

theorem rewritten_meaning (escapes : List.Forall₂ EscapesParam (query.splitOn '&') params) :
    List.Forall₂ SameMeaning ((query.splitOn '&').map splitParam)
      (((['&'].intercalate params).splitOn '&').map splitParam) := by
  rw [rewritten_split escapes]
  exact List.rel_map (fun _ _ first => escaped_same_meaning first) escapes

theorem rewritten_link (escapes : List.Forall₂ EscapesParam (query.splitOn '&') params)
    (infoHash : Vector UInt8 20) :
    linkOf (['&'].intercalate params) infoHash = linkOf query infoHash := by
  have same := rewritten_meaning escapes
  have names := same_decoded (same_under_key same keyDn)
  have trackers := same_decoded (same_under_key same keyTr)
  have name := congrArg List.head? names
  rw [List.head?_map, List.head?_map, List.head?_filter, List.head?_filter] at name
  rw [linkOf, linkOf, name, trackers]

theorem rewritten_xt (escapes : List.Forall₂ EscapesParam (query.splitOn '&') params)
    {xt xt' : List Char} (first : xtValue query = some xt)
    (first' : xtValue (['&'].intercalate params) = some xt') :
    xt' = xt ∨ byteLength xt < byteLength xt' := by
  rw [xtValue, ← List.head?_filter] at first first'
  exact first_longer (same_under_key (rewritten_meaning escapes) keyXt) first first'

theorem returns_query_iff (escapes : List.Forall₂ EscapesParam (query.splitOn '&') params)
    {link : MagnetLink} (accepted : Returns (parse (scheme ++ query)) () link ()) :
    Returns (parse (scheme ++ ['&'].intercalate params)) () link () ↔
      xtValue (['&'].intercalate params) = xtValue query := by
  obtain ⟨xt, first, infoHash, hashed, rfl⟩ := returns_parse_iff.mp accepted
  rw [returns_parse_iff]
  constructor
  · intro reads
    obtain ⟨xt', first', infoHash', hashed', -⟩ := reads
    obtain ⟨digits, rfl, forty, -⟩ := parseXt_returns_iff.mp hashed
    obtain ⟨digits', rfl, forty', -⟩ := parseXt_returns_iff.mp hashed'
    rcases rewritten_xt escapes first first' with same | longer
    · rw [first', first, same]
    · rw [byteLength_append, byteLength_append, forty, forty'] at longer
      omega
  · intro same
    exact ⟨xt, by rw [same, first], infoHash, hashed, (rewritten_link escapes infoHash).symm⟩

end Queries

/-- Escaping keeps an accepted link what it is exactly as long as it leaves the hash alone. -/
theorem escaping_kept_iff {uri uri' : List Char} {link : MagnetLink}
    (accepted : Returns (parse uri) () link ()) (escapes : EscapesUri uri uri') :
    Returns (parse uri') () link () ↔ firstXt uri' = firstXt uri := by
  obtain ⟨query, params, rfl, escapes, rfl⟩ := escapes
  rw [firstXt, firstXt, List.drop_left, List.drop_left]
  exact returns_query_iff escapes accepted

theorem escapes_plain {s : List Char} (plain : ∀ c ∈ s, c ≠ '%') : Escapes s s := by
  induction s with
  | nil => exact .done
  | cons c s ih =>
    rw [List.forall_mem_cons] at plain
    exact .plain plain.1 (ih plain.2)

def zeroLink : List Char := scheme ++ keyXt ++ '=' :: (urn ++ List.replicate 40 '0')

theorem escaping_kept_iff_name :
    Returns (parse (zeroLink ++ ['&', 'd', 'n', '=', '%', '6', '1'])) ()
        ⟨.replicate 20 0, some "a", []⟩ () ↔
      firstXt (zeroLink ++ ['&', 'd', 'n', '=', '%', '6', '1']) =
        firstXt (zeroLink ++ ['&', 'd', 'n', '=', 'a']) := by
  refine @escaping_kept_iff (zeroLink ++ ['&', 'd', 'n', '=', 'a']) _ _ (by decide +kernel) ?_
  have name : Escapes ['a'] ['%', '6', '1'] :=
    .replaced (by decide) (by decide) (by decide) rfl rfl .done
  have params : List.Forall₂ EscapesParam
      [keyXt ++ '=' :: (urn ++ List.replicate 40 '0'), keyDn ++ ['=', 'a']]
      [keyXt ++ '=' :: (urn ++ List.replicate 40 '0'), keyDn ++ ['=', '%', '6', '1']] :=
    .cons (.kept _) (.cons (.value (by simp) name) .nil)
  exact ⟨_, _, rfl, params, rfl⟩

/-- urn%3Abtih%3A in front of the hash is refused. -/
theorem escaped_urn_refused :
    let escaped := scheme ++ keyXt ++ '=' :: (['u', 'r', 'n', '%', '3', 'A', 'b', 't', 'i', 'h',
      '%', '3', 'A'] ++ List.replicate 40 '0')
    Returns (parse zeroLink) () ⟨.replicate 20 0, none, []⟩ () ∧ EscapesUri zeroLink escaped ∧
      Fails (parse escaped) () .invalidUrn ∧
      ¬ Returns (parse escaped) () ⟨.replicate 20 0, none, []⟩ () := by
  intro escaped
  have zeros : Escapes (List.replicate 40 '0') (List.replicate 40 '0') := by
    apply escapes_plain
    intro c member
    rw [List.eq_of_mem_replicate member]
    decide
  have tail : Escapes (['b', 't', 'i', 'h', ':'] ++ List.replicate 40 '0')
      (['b', 't', 'i', 'h', '%', '3', 'A'] ++ List.replicate 40 '0') :=
    .plain (by decide) (.plain (by decide) (.plain (by decide) (.plain (by decide)
      (.replaced (by decide) (by decide) (by decide) rfl rfl zeros))))
  have value : Escapes (urn ++ List.replicate 40 '0')
      (['u', 'r', 'n', '%', '3', 'A', 'b', 't', 'i', 'h', '%', '3', 'A'] ++
        List.replicate 40 '0') :=
    .plain (by decide) (.plain (by decide) (.plain (by decide)
      (.replaced (by decide) (by decide) (by decide) rfl rfl tail)))
  have params : List.Forall₂ EscapesParam [keyXt ++ '=' :: (urn ++ List.replicate 40 '0')]
      [keyXt ++ '=' :: (['u', 'r', 'n', '%', '3', 'A', 'b', 't', 'i', 'h', '%', '3', 'A'] ++
        List.replicate 40 '0')] :=
    .cons (.value (by simp) value) .nil
  refine ⟨by decide +kernel, ⟨_, _, rfl, params, rfl⟩, ?_, by decide +kernel⟩
  unfold Fails
  decide +kernel

end MagnetEscaping
