import RustyTorrent.Torrent.MagnetRoundTrip

/- Percent-encoded texts beyond ASCII. An encoding works on the bytes of a text, and the
   decoder makes a character of its own out of every byte. -/
namespace MagnetDecoding
open RustExec PercentText Utf8Text MagnetUri MagnetRoundTrip

/-- A percent-encoding of a text, byte by byte of its UTF-8 form. -/
def PercentEncodes (s t : List Char) : Prop := EscapedBytes (s.flatMap String.utf8EncodeChar) t

def AsciiText (s : List Char) : Prop := ∀ c ∈ s, c.toNat < 128

def encodeByte (b : UInt8) : List Char :=
  if Unreserved (Char.ofUInt8 b) then [Char.ofUInt8 b] else percentByte b

theorem escaped_encodeByte (bytes : Bytes) : EscapedBytes bytes (bytes.flatMap encodeByte) := by
  induction bytes with
  | nil => exact .done
  | cons b bytes ih =>
    obtain ⟨high, low, -⟩ := byte_halves b
    rw [List.flatMap_cons, encodeByte]
    by_cases free : Unreserved (Char.ofUInt8 b)
    · rw [if_pos free]
      exact .plain free ih
    · rw [if_neg free]
      exact .escaped free (hexValue_upper _ high) (hexValue_upper _ low) ih

theorem urlDecode_encodes_iff {s t : List Char} (encoded : PercentEncodes s t) :
    urlDecode t = s ↔ AsciiText s := by
  rw [urlDecode_escaped encoded]
  constructor
  · intro same
    apply ascii_of_length
    rw [← List.length_map, same]
  · exact ascii_bytes

def Param.Encoded : Param → Prop
  | .xt => True
  | .dn name encoded => PercentEncodes name encoded
  | .tr url encoded => PercentEncodes url encoded
  | .other text => '&' ∉ text ∧ (splitFirst '=' text).1 ∉ [keyXt, keyDn, keyTr]

/-- The parameters make up the link, in any order and with other parameters between them. -/
structure Written (link : MagnetLink) (params : List Param) : Prop where
  hash : params.filterMap Param.isHash = [()]
  name : params.filterMap Param.name = (link.displayName.map String.toList).toList
  trackers : params.filterMap Param.tracker = link.trackers.map String.toList
  encoded : ∀ param ∈ params, Param.Encoded param

theorem encoded_delimited {param : Param} (encoded : Param.Encoded param) : param.Delimited := by
  cases param with
  | xt => trivial
  | dn name text => exact escaped_no_ampersand encoded
  | tr url text => exact escaped_no_ampersand encoded
  | other text => exact encoded

theorem decoded_iff {params : List Param} {pick : Param → Option (List Char)}
    {decoded : Param → Option String}
    (agree : ∀ param ∈ params, pick param = none ∧ decoded param = none ∨
      ∃ s t, PercentEncodes s t ∧ pick param = some s ∧
        decoded param = some (String.ofList (urlDecode t))) :
    (params.filterMap decoded).length = (params.filterMap pick).length ∧
      (params.filterMap decoded = (params.filterMap pick).map String.ofList ↔
        ∀ s ∈ params.filterMap pick, AsciiText s) := by
  induction params with
  | nil => simp
  | cons param params ih =>
    obtain ⟨lengths, rest⟩ := ih fun other h => agree other (by simp [h])
    obtain ⟨left, out⟩ | ⟨s, t, encoded, text, read⟩ := agree param (by simp)
    · rw [List.filterMap_cons_none left, List.filterMap_cons_none out]
      exact ⟨lengths, rest⟩
    · rw [List.filterMap_cons_some text, List.filterMap_cons_some read, List.map_cons,
        List.cons.injEq, List.forall_mem_cons, rest, String.ofList_inj,
        urlDecode_encodes_iff encoded]
      exact ⟨by simp [lengths], Iff.rfl⟩

section Links
variable {link : MagnetLink} {params : List Param}

theorem trackers_read_iff (written : Written link params) :
    params.filterMap Param.decodedTracker = link.trackers ↔
      ∀ url ∈ link.trackers, AsciiText url.toList := by
  obtain ⟨-, read⟩ := @decoded_iff params Param.tracker Param.decodedTracker (by
    intro param member
    have encoded := written.encoded param member
    cases param with
    | tr url text => exact Or.inr ⟨url, text, encoded, rfl, rfl⟩
    | _ => exact Or.inl ⟨rfl, rfl⟩)
  simpa [written.trackers] using read

theorem name_read_iff (written : Written link params) :
    (params.filterMap Param.decodedName).head? = link.displayName ↔
      ∀ name, link.displayName = some name → AsciiText name.toList := by
  obtain ⟨lengths, read⟩ := @decoded_iff params Param.name Param.decodedName (by
    intro param member
    have encoded := written.encoded param member
    cases param with
    | dn name text => exact Or.inr ⟨name, text, encoded, rfl, rfl⟩
    | _ => exact Or.inl ⟨rfl, rfl⟩)
  rw [written.name] at lengths read
  cases shown : link.displayName with
  | none =>
    rw [shown, Option.map_none, Option.toList_none, List.length_nil,
      List.length_eq_zero_iff] at lengths
    simp [lengths]
  | some name =>
    rw [shown, Option.map_some, Option.toList_some, List.length_singleton,
      List.length_eq_one_iff] at lengths
    obtain ⟨only, one⟩ := lengths
    simpa [shown, one] using read

/-- Percent-encodings are decoded to the text itself, and links are read back with their name
    and trackers, exactly where these texts are ASCII. -/
theorem decoding_inverts_iff {s t : List Char} (encoded : PercentEncodes s t)
    (written : Written link params) :
    (urlDecode t = s ↔ AsciiText s) ∧
      (Returns (parse (uriOf link params)) () link () ↔
        (∀ name, link.displayName = some name → AsciiText name.toList) ∧
          ∀ url ∈ link.trackers, AsciiText url.toList) := by
  refine ⟨urlDecode_encodes_iff encoded, ?_⟩
  have run := @parse_uriOf link _
    (fun param member => encoded_delimited (written.encoded param member)) written.hash
  rw [← name_read_iff written, ← trackers_read_iff written]
  constructor
  · intro back
    obtain ⟨same, -⟩ := returns_unique run back
    exact ⟨congrArg MagnetLink.displayName same, congrArg MagnetLink.trackers same⟩
  · intro both
    obtain ⟨name, trackers⟩ := both
    rw [name, trackers] at run
    exact run

end Links

theorem decoding_inverts_iff_ascii :
    let link : MagnetLink := ⟨.replicate 20 0xaf, some "a b", ["udp://a:1"]⟩
    ∃ name tracker, urlDecode name = "a b".toList ∧
      Returns (parse (uriOf link [.xt, .dn "a b".toList name, .tr "udp://a:1".toList tracker])) ()
        link () := by
  intro link
  have name := escaped_encodeByte ("a b".toList.flatMap String.utf8EncodeChar)
  have tracker := escaped_encodeByte ("udp://a:1".toList.flatMap String.utf8EncodeChar)
  have written : Written link [.xt, .dn "a b".toList _, .tr "udp://a:1".toList _] :=
    ⟨rfl, rfl, rfl, by
      simp only [List.mem_cons, List.not_mem_nil, or_false, forall_eq_or_imp, forall_eq]
      exact ⟨trivial, name, tracker⟩⟩
  obtain ⟨decoded, read⟩ := decoding_inverts_iff name written
  refine ⟨_, _, decoded.mpr (by simp [AsciiText]), read.mpr ⟨?_, ?_⟩⟩
  · simp [link, AsciiText]
  · simp [link, AsciiText]

/-- "é" is encoded as %C3%A9 and decoded as "Ã©", alone and as the name of a link. -/
theorem accent_garbled :
    let link : MagnetLink := ⟨.replicate 20 0xaf, some "é", []⟩
    let garbled : MagnetLink := ⟨.replicate 20 0xaf, some "Ã©", []⟩
    PercentEncodes ['é'] ['%', 'C', '3', '%', 'A', '9'] ∧
      urlDecode ['%', 'C', '3', '%', 'A', '9'] = ['Ã', '©'] ∧
      Returns (parse (uriOf link [.xt, .dn ['é'] ['%', 'C', '3', '%', 'A', '9']])) () garbled () ∧
      ¬ Returns (parse (uriOf link [.xt, .dn ['é'] ['%', 'C', '3', '%', 'A', '9']])) () link
        () := by
  intro link garbled
  have encoded : PercentEncodes ['é'] ['%', 'C', '3', '%', 'A', '9'] :=
    escaped_encodeByte (['é'].flatMap String.utf8EncodeChar)
  have decoded : urlDecode ['%', 'C', '3', '%', 'A', '9'] = ['Ã', '©'] := by
    rw [urlDecode_escaped encoded]
    rfl
  have delimited : ∀ param ∈ [Param.xt, .dn ['é'] ['%', 'C', '3', '%', 'A', '9']],
      param.Delimited := by
    simp only [List.mem_cons, List.not_mem_nil, or_false, forall_eq_or_imp, forall_eq]
    exact ⟨trivial, escaped_no_ampersand encoded⟩
  have run := @parse_uriOf link _ delimited rfl
  have name : [Param.xt, .dn ['é'] ['%', 'C', '3', '%', 'A', '9']].filterMap Param.decodedName =
      ["Ã©"] := by
    simp only [List.filterMap_cons, List.filterMap_nil, Param.decodedName, decoded]
  rw [name] at run
  refine ⟨encoded, decoded, run, ?_⟩
  intro back
  obtain ⟨same, -⟩ := returns_unique run back
  have names : some "Ã©" = some "é" := congrArg MagnetLink.displayName same
  exact absurd names (by simp)

end MagnetDecoding
