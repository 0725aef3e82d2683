import RustyTorrent.Torrent.MagnetHash

/- Magnet links that are put together from their parts are read back whole, in whatever order
   the parameters stand and whatever other parameters stand between them. -/
namespace MagnetRoundTrip
open RustExec PercentText StrSlices Utf8Text MagnetUri MagnetHash

def Unreserved (c : Char) : Prop := c.isAlphanum = true ∨ c ∈ ['-', '.', '_', '~']

instance (c : Char) : Decidable (Unreserved c) := inferInstanceAs (Decidable (_ ∨ _))

def encodeChar (c : Char) : List Char :=
  if Unreserved c then [c] else percentByte (UInt8.ofNat c.toNat)

/-- A percent-encoding of an ASCII text: unreserved characters as they are, any other as the
    escape of its byte, with hexadecimal digits of either case. -/
inductive Encodes : List Char → List Char → Prop where
  | done : Encodes [] []
  | plain {c : Char} {s t : List Char} (free : Unreserved c) (rest : Encodes s t) :
      Encodes (c :: s) (c :: t)
  | escaped {c high low : Char} {s t : List Char} (reserved : ¬ Unreserved c)
      (ascii : c.toNat < 128) (first : hexValue high = some (c.toNat / 16))
      (second : hexValue low = some (c.toNat % 16)) (rest : Encodes s t) :
      Encodes (c :: s) ('%' :: high :: low :: t)

inductive EscapedBytes : Bytes → List Char → Prop where
  | done : EscapedBytes [] []
  | plain {b : UInt8} {bytes : Bytes} {t : List Char} (free : Unreserved (Char.ofUInt8 b))
      (rest : EscapedBytes bytes t) : EscapedBytes (b :: bytes) (Char.ofUInt8 b :: t)
  | escaped {b : UInt8} {high low : Char} {bytes : Bytes} {t : List Char}
      (reserved : ¬ Unreserved (Char.ofUInt8 b)) (first : hexValue high = some (b.toNat / 16))
      (second : hexValue low = some (b.toNat % 16)) (rest : EscapedBytes bytes t) :
      EscapedBytes (b :: bytes) ('%' :: high :: low :: t)

/-- A parameter of a link: its hash, its name or one of its trackers, each with the encoding
    that is used, or anything else. -/
inductive Param where
  | xt
  | dn (name encoded : List Char)
  | tr (url encoded : List Char)
  | other (text : List Char)

def Param.isHash : Param → Option Unit
  | .xt => some ()
  | _ => none

def Param.name : Param → Option (List Char)
  | .dn name _ => some name
  | _ => none

def Param.tracker : Param → Option (List Char)
  | .tr url _ => some url
  | _ => none

def Param.text (link : MagnetLink) : Param → List Char
  | .xt => keyXt ++ '=' :: (urn ++ link.infoHashHex)
  | .dn _ encoded => keyDn ++ '=' :: encoded
  | .tr _ encoded => keyTr ++ '=' :: encoded
  | .other text => text

def Param.Sound : Param → Prop
  | .xt => True
  | .dn name encoded => Encodes name encoded
  | .tr url encoded => Encodes url encoded
  | .other text => '&' ∉ text ∧ (splitFirst '=' text).1 ∉ [keyXt, keyDn, keyTr]

def uriOf (link : MagnetLink) (params : List Param) : List Char :=
  scheme ++ ['&'].intercalate (params.map (Param.text link))

/-- The parameters make up the link: one hash, its name if it has one, and its trackers in
    order, with sound parameters everywhere. -/
structure Arranged (link : MagnetLink) (params : List Param) : Prop where
  hash : params.filterMap Param.isHash = [()]
  name : params.filterMap Param.name = (link.displayName.map String.toList).toList
  trackers : params.filterMap Param.tracker = link.trackers.map String.toList
  sound : ∀ param ∈ params, param.Sound

theorem unreserved_chars {c : Char} (free : Unreserved c) :
    c.toNat < 128 ∧ c ≠ '%' ∧ c ≠ '+' ∧ c ≠ '&' := by
  rcases free with alphanum | mark
  · have small : c.toNat < 128 := by
      change (decide (c.val ≥ 'A'.val ∧ c.val ≤ 'Z'.val) ||
        decide (c.val ≥ 'a'.val) && decide (c.val ≤ 'z'.val) ||
        decide (c.val ≥ '0'.val) && decide (c.val ≤ '9'.val)) = true at alphanum
      simp only [Bool.or_eq_true, Bool.and_eq_true, decide_eq_true_eq, ge_iff_le,
        UInt32.le_iff_toNat_le] at alphanum
      change c.val.toNat < 128
      have tops : ('Z'.val.toNat < 128 ∧ 'z'.val.toNat < 128 ∧ '9'.val.toNat < 128) := by decide
      omega
    refine ⟨small, ?_, ?_, ?_⟩ <;> rintro rfl <;> simp at alphanum
  · simp only [List.mem_cons, List.not_mem_nil, or_false] at mark
    rcases mark with rfl | rfl | rfl | rfl <;> decide

theorem byteFromHex_lower (b : UInt8) : byteFromHex (lowerHex b) = .ok b := by
  obtain ⟨high, low, sum⟩ := byte_halves b
  refine byteFromHex_two.mpr
    ⟨_, hexValue_digitChar _ low, Or.inr ⟨_, hexValue_digitChar _ high, ?_⟩⟩
  rw [sum, UInt8.ofNat_toNat]

theorem urlDecode_escaped {bytes : Bytes} {t : List Char} (encoded : EscapedBytes bytes t) :
    urlDecode t = bytes.map Char.ofUInt8 := by
  induction encoded with
  | done => rfl
  | plain free rest ih =>
    obtain ⟨-, notPercent, notPlus, -⟩ := unreserved_chars free
    rw [urlDecode_plain notPercent notPlus, ih, List.map_cons]
  | @escaped b high low bytes t reserved first second rest ih =>
    obtain ⟨-, -, sum⟩ := byte_halves b
    rw [urlDecode_pair first second, ih, sum, UInt8.ofNat_toNat, List.map_cons]

theorem escaped_no_ampersand {bytes : Bytes} {t : List Char} (encoded : EscapedBytes bytes t) :
    '&' ∉ t := by
  induction encoded with
  | done => simp
  | plain free rest ih =>
    obtain ⟨-, -, -, notJoint⟩ := unreserved_chars free
    simp [ih, Ne.symm notJoint]
  | escaped reserved first second rest ih =>
    obtain ⟨-, -, -, high⟩ := hex_digit_chars first
    obtain ⟨-, -, -, low⟩ := hex_digit_chars second
    simp [ih, Ne.symm high, Ne.symm low]

theorem encodes_small {s t : List Char} (encoded : Encodes s t) : ∀ c ∈ s, c.toNat < 128 := by
  induction encoded with
  | done => simp
  | plain free rest ih => exact List.forall_mem_cons.mpr ⟨(unreserved_chars free).1, ih⟩
  | escaped reserved ascii first second rest ih => exact List.forall_mem_cons.mpr ⟨ascii, ih⟩

theorem escaped_of_encodes {s t : List Char} (encoded : Encodes s t) :
    EscapedBytes (s.map fun c => UInt8.ofNat c.toNat) t := by
  induction encoded with
  | done => exact .done
  | @plain c s t free rest ih =>
    have same := ofUInt8_ofNat (unreserved_chars free).1
    have step := @EscapedBytes.plain (UInt8.ofNat c.toNat) _ _ (by rwa [same]) ih
    rwa [same] at step
  | @escaped c high low s t reserved ascii first second rest ih =>
    have value : (UInt8.ofNat c.toNat).toNat = c.toNat :=
      UInt8.toNat_ofNat_of_lt' (by change c.toNat < 256; omega)
    exact .escaped (by rwa [ofUInt8_ofNat ascii]) (by rwa [value]) (by rwa [value]) ih

theorem urlDecode_encoded {s t : List Char} (encoded : Encodes s t) : urlDecode t = s := by
  have small := encodes_small encoded
  have same : s.map (fun c => Char.ofUInt8 (UInt8.ofNat c.toNat)) = s.map id :=
    List.map_congr_left fun c member => ofUInt8_ofNat (small c member)
  rw [List.map_id] at same
  rw [urlDecode_escaped (escaped_of_encodes encoded), List.map_map]
  exact same

theorem encodes_ascii {s : List Char} (ascii : ∀ c ∈ s, c.toNat < 128) :
    Encodes s (s.flatMap encodeChar) := by
  induction s with
  | nil => exact .done
  | cons c s ih =>
    have rest := ih fun x h => ascii x (by simp [h])
    have small := ascii c (by simp)
    rw [List.flatMap_cons, encodeChar]
    by_cases free : Unreserved c
    · rw [if_pos free]
      exact .plain free rest
    · have value : (UInt8.ofNat c.toNat).toNat = c.toNat :=
        UInt8.toNat_ofNat_of_lt' (by change c.toNat < 256; omega)
      rw [if_neg free]
      apply Encodes.escaped free small _ _ rest
      · rw [value]
        exact hexValue_upper _ (by omega)
      · rw [value]
        exact hexValue_upper _ (by omega)

theorem lowerHex_digits (b : UInt8) : ∀ c ∈ lowerHex b, ∃ d, hexValue c = some d := by
  obtain ⟨high, low, -⟩ := byte_halves b
  intro c member
  simp only [lowerHex, List.mem_cons, List.not_mem_nil, or_false] at member
  rcases member with rfl | rfl
  · exact ⟨_, hexValue_digitChar _ high⟩
  · exact ⟨_, hexValue_digitChar _ low⟩

theorem hex_digits (bytes : Bytes) : ∀ c ∈ bytes.flatMap lowerHex, ∃ d, hexValue c = some d := by
  intro c member
  obtain ⟨b, -, inside⟩ := List.mem_flatMap.mp member
  exact lowerHex_digits b c inside

theorem hex_byteLength (bytes : Bytes) :
    byteLength (bytes.flatMap lowerHex) = bytes.length * 2 := by
  rw [byteLength_ascii]
  · simp [List.length_flatMap, lowerHex]
  · intro c member
    obtain ⟨d, digit⟩ := hex_digits bytes c member
    exact (hex_digit_chars digit).1

theorem pairBytes_lowerHex (bytes : Bytes) :
    pairBytes (bytes.flatMap lowerHex) = some bytes := by
  induction bytes with
  | nil => rfl
  | cons b bytes ih => exact pairBytes_cons.mpr ⟨b, bytes, byteFromHex_lower b, ih, rfl⟩

theorem parseXt_returns (infoHash : Vector UInt8 20) :
    Returns (parseXt (urn ++ infoHash.toList.flatMap lowerHex)) () infoHash () := by
  have length : byteLength (infoHash.toList.flatMap lowerHex) = 40 := by
    simp [hex_byteLength]
  exact parseXt_returns_iff.mpr ⟨_, rfl, length, pairBytes_lowerHex _⟩

def Param.pair (link : MagnetLink) : Param → List Char × List Char
  | .xt => (keyXt, urn ++ link.infoHashHex)
  | .dn _ encoded => (keyDn, encoded)
  | .tr _ encoded => (keyTr, encoded)
  | .other text => splitParam text

theorem splitParam_text (link : MagnetLink) (param : Param) :
    splitParam (param.text link) = param.pair link := by
  have keyed {key value : List Char} (plain : '=' ∉ key) :
      splitParam (key ++ '=' :: value) = (key, value) := by
    rw [splitParam, splitFirst_found plain]
    rfl
  cases param with
  | xt => exact keyed (by decide)
  | dn name encoded => exact keyed (by decide)
  | tr url encoded => exact keyed (by decide)
  | other text => rfl

def Param.Delimited : Param → Prop
  | .xt => True
  | .dn _ encoded => '&' ∉ encoded
  | .tr _ encoded => '&' ∉ encoded
  | .other text => '&' ∉ text ∧ (splitFirst '=' text).1 ∉ [keyXt, keyDn, keyTr]

theorem Param.Sound.delimited {param : Param} (sound : param.Sound) : param.Delimited := by
  cases param with
  | xt => trivial
  | dn name encoded => exact escaped_no_ampersand (escaped_of_encodes sound)
  | tr url encoded => exact escaped_no_ampersand (escaped_of_encodes sound)
  | other text => exact sound

theorem text_no_ampersand {link : MagnetLink} {param : Param} (delimited : param.Delimited) :
    '&' ∉ param.text link := by
  have keyed {key value : List Char} (inKey : '&' ∉ key) (inValue : '&' ∉ value) :
      '&' ∉ key ++ '=' :: value := by
    simp [inKey, inValue]
  cases param with
  | xt =>
    apply keyed (by decide)
    rw [List.mem_append, not_or]
    refine ⟨by decide, ?_⟩
    intro member
    obtain ⟨d, digit⟩ := hex_digits _ _ member
    exact (hex_digit_chars digit).2.2.2 rfl
  | dn name encoded => exact keyed (by decide) delimited
  | tr url encoded => exact keyed (by decide) delimited
  | other text => exact delimited.1

theorem params_split {link : MagnetLink} {params : List Param} (some : params ≠ [])
    (delimited : ∀ param ∈ params, param.Delimited) :
    ((['&'].intercalate (params.map (Param.text link))).splitOn '&').map splitParam =
      params.map (Param.pair link) := by
  rw [List.splitOn_intercalate]
  · simp [splitParam_text]
  · intro text member
    obtain ⟨param, inside, rfl⟩ := List.mem_map.mp member
    exact text_no_ampersand (delimited param inside)
  · simpa using some

section Selection
variable {link : MagnetLink} {params : List Param}

theorem values_picked {α : Type} {key : List Char} (value : List Char → α)
    {pick : Param → Option α}
    (agree : ∀ param ∈ params, pick param =
      if (param.pair link).1 = key then some (value (param.pair link).2) else none) :
    ((params.map (Param.pair link)).filter fun param => param.1 = key).map
      (fun param => value param.2) = params.filterMap pick := by
  induction params with
  | nil => rfl
  | cons param params ih =>
    have rest := ih fun other h => agree other (by simp [h])
    have first := agree param (by simp)
    by_cases same : (param.pair link).1 = key
    · rw [if_pos same] at first
      simp [same, first, rest]
    · rw [if_neg same] at first
      simp [same, first, rest]

theorem first_picked {α : Type} {key : List Char} (value : List Char → α)
    {pick : Param → Option α}
    (agree : ∀ param ∈ params, pick param =
      if (param.pair link).1 = key then some (value (param.pair link).2) else none) :
    ((params.map (Param.pair link)).find? fun param => param.1 = key).map
      (fun param => value param.2) = (params.filterMap pick).head? := by
  rw [← List.head?_filter, ← List.head?_map, values_picked value agree]

theorem other_key {text : List Char} (delimited : (Param.other text).Delimited)
    {key : List Char} (known : key ∈ [keyXt, keyDn, keyTr]) : (splitParam text).1 ≠ key := by
  rintro rfl
  exact delimited.2 known

def Param.decodedName : Param → Option String
  | .dn _ encoded => some (String.ofList (urlDecode encoded))
  | _ => none

def Param.decodedTracker : Param → Option String
  | .tr _ encoded => some (String.ofList (urlDecode encoded))
  | _ => none

theorem hash_found (delimited : ∀ param ∈ params, param.Delimited)
    (hash : params.filterMap Param.isHash = [()]) :
    ((params.map (Param.pair link)).find? fun param => param.1 = keyXt).map Prod.snd =
      some (urn ++ link.infoHashHex) := by
  have agree : ∀ param ∈ params, (param.isHash.map fun _ => urn ++ link.infoHashHex) =
      if (param.pair link).1 = keyXt then some (id (param.pair link).2) else none := by
    intro param member
    cases param with
    | other text => exact (if_neg (other_key (delimited _ member) (by simp))).symm
    | _ => rfl
  have picked := first_picked id agree
  rw [← List.map_filterMap, hash] at picked
  simpa using picked

theorem name_found (delimited : ∀ param ∈ params, param.Delimited) :
    ((params.map (Param.pair link)).find? fun param => param.1 = keyDn).map
      (fun param => String.ofList (urlDecode param.2)) =
        (params.filterMap Param.decodedName).head? := by
  apply first_picked fun encoded => String.ofList (urlDecode encoded)
  intro param member
  cases param with
  | other text => exact (if_neg (other_key (delimited _ member) (by simp))).symm
  | _ => rfl

theorem trackers_found (delimited : ∀ param ∈ params, param.Delimited) :
    ((params.map (Param.pair link)).filter fun param => param.1 = keyTr).map
      (fun param => String.ofList (urlDecode param.2)) =
        params.filterMap Param.decodedTracker := by
  apply values_picked fun encoded => String.ofList (urlDecode encoded)
  intro param member
  cases param with
  | other text => exact (if_neg (other_key (delimited _ member) (by simp))).symm
  | _ => rfl

theorem parse_uriOf (delimited : ∀ param ∈ params, param.Delimited)
    (hash : params.filterMap Param.isHash = [()]) :
    Returns (parse (uriOf link params)) ()
      { infoHash := link.infoHash
        displayName := (params.filterMap Param.decodedName).head?
        trackers := params.filterMap Param.decodedTracker } () := by
  have nonempty : params ≠ [] := by
    rintro rfl
    simp at hash
  have found := @hash_found link _ delimited hash
  have name := @name_found link _ delimited
  have trackers := @trackers_found link _ delimited
  rw [← params_split nonempty delimited] at found name trackers
  refine returns_parse_iff.mpr ⟨_, found, _, parseXt_returns link.infoHash, ?_⟩
  rw [linkOf, name, trackers]

theorem sound_decodedName {param : Param} (sound : param.Sound) :
    param.decodedName = param.name.map String.ofList := by
  cases param with
  | dn name encoded => simp [Param.decodedName, Param.name, urlDecode_encoded sound]
  | _ => rfl

theorem sound_decodedTracker {param : Param} (sound : param.Sound) :
    param.decodedTracker = param.tracker.map String.ofList := by
  cases param with
  | tr url encoded => simp [Param.decodedTracker, Param.tracker, urlDecode_encoded sound]
  | _ => rfl

/-- Whatever the order of the parameters, a link is read back as it was. -/
theorem magnet_round_trip (arranged : Arranged link params) :
    Returns (parse (uriOf link params)) () link () := by
  have run := @parse_uriOf link _ (fun param member => (arranged.sound param member).delimited)
    arranged.hash
  have name : (params.filterMap Param.decodedName).head? = link.displayName := by
    rw [List.filterMap_congr fun param member => sound_decodedName (arranged.sound param member),
      ← List.map_filterMap, arranged.name]
    cases link.displayName <;> simp
  have trackers : params.filterMap Param.decodedTracker = link.trackers := by
    rw [List.filterMap_congr fun param member =>
      sound_decodedTracker (arranged.sound param member), ← List.map_filterMap, arranged.trackers]
    simp
  rw [name, trackers] at run
  exact run

end Selection

theorem magnet_round_trip_mixed :
    let link : MagnetLink := ⟨.replicate 20 0xaf, some "a b&c", ["udp://a:1", "http://b/?x=%"]⟩
    ∃ first name second, Returns (parse (uriOf link
      [.other ['x', 'l', '=', '5', '=', '6'], .tr "udp://a:1".toList first, .xt,
        .tr "http://b/?x=%".toList second, .dn "a b&c".toList name, .other ['x'], .other []]))
      () link () := by
  refine ⟨"udp://a:1".toList.flatMap encodeChar, "a b&c".toList.flatMap encodeChar,
    "http://b/?x=%".toList.flatMap encodeChar, magnet_round_trip ⟨rfl, rfl, rfl, ?_⟩⟩
  simp only [List.mem_cons, List.not_mem_nil, or_false, forall_eq_or_imp, forall_eq, Param.Sound,
    true_and]
  exact ⟨by decide, encodes_ascii (by simp), encodes_ascii (by simp), encodes_ascii (by simp),
    by decide, by decide⟩

end MagnetRoundTrip
