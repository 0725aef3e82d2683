import RustyTorrent.Tracker.HttpTracker
import RustyTorrent.Tracker.UdpExchange

/- The same facts in both announces: in the query of the HTTP announce, and in the datagram
   of the UDP announce under the layout of BEP 15. The readers here are the trackers'. -/
namespace AnnounceReports
open RustExec BigEndian Numerals PercentText TrackerAnnounce HttpTracker UdpTracker UdpExchange

/-- What a tracker reads off an announce. -/
structure Reported where
  infoHash : Bytes
  peerId : Bytes
  port : Nat
  uploaded : Nat
  downloaded : Nat
  left : Nat
  deriving DecidableEq, Repr

def reported (facts : AnnounceFacts) : Reported where
  infoHash := facts.infoHash.toList
  peerId := facts.peerId.toList
  port := facts.port.toNat
  uploaded := facts.uploaded.toNat
  downloaded := facts.downloaded.toNat
  left := facts.left.toNat

theorem reported_injective {one other : AnnounceFacts} (same : reported one = reported other) :
    one = other := by
  cases one
  cases other
  simp only [reported, Reported.mk.injEq, Vector.toList_inj, UInt16.toNat_inj,
    UInt64.toNat_inj] at same
  simp [same]

def queryParams (query : List Char) : List (String × Option Bytes) :=
  (query.splitOn '&').map fun param =>
    (String.ofList (splitFirst '=' param).1, percentDecode ((splitFirst '=' param).2.getD []))

def paramValue (key : String) (params : List (String × Option Bytes)) : Option Bytes :=
  (params.find? fun param => param.1 = key).bind Prod.snd

def readQuery (query : List Char) : Option Reported := do
  let params := queryParams query
  let infoHash ← paramValue "info_hash" params
  let peerId ← paramValue "peer_id" params
  let port ← (paramValue "port" params).bind (digitsValue 0)
  let uploaded ← (paramValue "uploaded" params).bind (digitsValue 0)
  let downloaded ← (paramValue "downloaded" params).bind (digitsValue 0)
  let left ← (paramValue "left" params).bind (digitsValue 0)
  return { infoHash, peerId, port, uploaded, downloaded, left }

/-- The announce request of BEP 15. -/
def readRequest (datagram : Bytes) : Reported where
  infoHash := (datagram.drop 16).take 20
  peerId := (datagram.drop 36).take 20
  port := beField 96 2 datagram
  uploaded := beField 72 8 datagram
  downloaded := beField 56 8 datagram
  left := beField 64 8 datagram

def param (key : String) (value : List Char) : List Char := key.toList ++ '=' :: value

def queryParts (facts : AnnounceFacts) : List (List Char) :=
  [param "info_hash" (facts.infoHash.toList.flatMap percentByte),
    param "peer_id" (facts.peerId.toList.flatMap percentByte),
    param "port" (decimalText facts.port.toNat),
    param "uploaded" (decimalText facts.uploaded.toNat),
    param "downloaded" (decimalText facts.downloaded.toNat),
    param "compact" ['1'],
    param "left" (decimalText facts.left.toNat)]

theorem query_joined (hash peer port up down left : List Char) :
    "info_hash=".toList ++ hash ++ "&peer_id=".toList ++ peer ++ "&port=".toList ++ port ++
        "&uploaded=".toList ++ up ++ "&downloaded=".toList ++ down ++ "&compact=1".toList ++
        "&left=".toList ++ left =
      ['&'].intercalate [param "info_hash" hash, param "peer_id" peer, param "port" port,
        param "uploaded" up, param "downloaded" down, param "compact" ['1'],
        param "left" left] := by
  simp only [param, List.intercalate_cons_cons, List.intercalate_singleton, String.reduceToList,
    List.cons_append, List.nil_append, List.append_assoc]

theorem announceQuery_eq (facts : AnnounceFacts) :
    announceQuery facts = ['&'].intercalate (queryParts facts) :=
  query_joined _ _ _ _ _ _

def ValueChar (c : Char) : Prop := c = '%' ∨ c.isAlphanum = true

theorem value_char_not_separator {c : Char} (value : ValueChar c) : c ≠ '&' ∧ c ≠ '=' := by
  rcases value with percent | plain
  · subst percent
    decide
  · constructor <;> rintro rfl <;> simp at plain

theorem hex_upper_alphanum : ∀ d < 16, (Nat.digitChar d).toUpper.isAlphanum = true := by decide

theorem percentByte_chars (b : UInt8) : ∀ c ∈ percentByte b, ValueChar c := by
  obtain ⟨high, low, -⟩ := byte_halves b
  intro c member
  simp only [percentByte, upperHex, lowerHex, List.map_cons, List.map_nil, List.mem_cons,
    List.not_mem_nil, or_false] at member
  rcases member with percent | first | second
  · exact Or.inl percent
  · subst first
    exact Or.inr (hex_upper_alphanum _ high)
  · subst second
    exact Or.inr (hex_upper_alphanum _ low)

theorem escaped_chars (bytes : Bytes) : ∀ c ∈ bytes.flatMap percentByte, ValueChar c := by
  intro c member
  obtain ⟨b, _, inside⟩ := List.mem_flatMap.mp member
  exact percentByte_chars b c inside

theorem decimal_chars (n : Nat) : ∀ c ∈ decimalText n, ValueChar c := by
  intro c member
  obtain ⟨b, inside, rfl⟩ := List.mem_map.mp member
  have digit := decimal_digits n b inside
  rw [is_digit_iff] at digit
  have value : (Char.ofUInt8 b).val.toNat = b.toNat := UInt8.toNat_toUInt32 b
  have isDigit : (Char.ofUInt8 b).isDigit = true := by
    simp only [Char.isDigit, Bool.and_eq_true, decide_eq_true_eq, ge_iff_le,
      UInt32.le_iff_toNat_le, value]
    exact digit
  exact Or.inr (by simp [Char.isAlphanum, isDigit])

theorem param_read {key : String} {value : List Char} (plain : '=' ∉ key.toList) :
    splitFirst '=' (param key value) = (key.toList, some value) :=
  splitFirst_found plain

theorem param_no_ampersand {key : String} {value : List Char} (plain : '&' ∉ key.toList)
    (chars : ∀ c ∈ value, ValueChar c) : '&' ∉ param key value := by
  simp only [param, List.mem_append, List.mem_cons, not_or]
  refine ⟨plain, by decide, ?_⟩
  intro member
  exact (value_char_not_separator (chars _ member)).1 rfl

theorem queryParts_split (facts : AnnounceFacts) :
    (announceQuery facts).splitOn '&' = queryParts facts := by
  rw [announceQuery_eq]
  refine List.splitOn_intercalate '&' ?_ (by simp [queryParts])
  intro part member
  simp only [queryParts, List.mem_cons, List.not_mem_nil, or_false] at member
  rcases member with rfl | rfl | rfl | rfl | rfl | rfl | rfl
  · exact param_no_ampersand (by decide) (escaped_chars _)
  · exact param_no_ampersand (by decide) (escaped_chars _)
  · exact param_no_ampersand (by decide) (decimal_chars _)
  · exact param_no_ampersand (by decide) (decimal_chars _)
  · exact param_no_ampersand (by decide) (decimal_chars _)
  · exact param_no_ampersand (by decide) (by simp [ValueChar])
  · exact param_no_ampersand (by decide) (decimal_chars _)

theorem queryParams_announce (facts : AnnounceFacts) :
    queryParams (announceQuery facts) =
      [("info_hash", some facts.infoHash.toList), ("peer_id", some facts.peerId.toList),
        ("port", some (decimal facts.port.toNat)),
        ("uploaded", some (decimal facts.uploaded.toNat)),
        ("downloaded", some (decimal facts.downloaded.toNat)), ("compact", some [0x31]),
        ("left", some (decimal facts.left.toNat))] := by
  have one : percentDecode ['1'] = some [0x31] := by decide
  have plain : ∀ key ∈ ["info_hash", "peer_id", "port", "uploaded", "downloaded", "compact",
      "left"], '=' ∉ key.toList := by decide
  simp only [List.mem_cons, List.not_mem_nil, or_false, forall_eq_or_imp, forall_eq] at plain
  obtain ⟨infoHash, peerId, port, uploaded, downloaded, compact, left⟩ := plain
  simp only [queryParams, queryParts_split, queryParts, List.map_cons, List.map_nil,
    param_read infoHash, param_read peerId, param_read port, param_read uploaded,
    param_read downloaded, param_read compact, param_read left, Option.getD_some,
    percentDecode_bytes, percentDecode_decimal, one, String.ofList_toList]

theorem values_found {hash peer port up down compact left : Bytes}
    {params : List (String × Option Bytes)}
    (all : params = [("info_hash", some hash), ("peer_id", some peer), ("port", some port),
      ("uploaded", some up), ("downloaded", some down), ("compact", some compact),
      ("left", some left)]) :
    paramValue "info_hash" params = some hash ∧ paramValue "peer_id" params = some peer ∧
      paramValue "port" params = some port ∧ paramValue "uploaded" params = some up ∧
      paramValue "downloaded" params = some down ∧ paramValue "left" params = some left := by
  subst all
  simp [paramValue]

theorem readQuery_announce (facts : AnnounceFacts) :
    readQuery (announceQuery facts) = some (reported facts) := by
  obtain ⟨infoHash, peerId, port, uploaded, downloaded, left⟩ :=
    values_found (queryParams_announce facts)
  simp only [readQuery, infoHash, peerId, port, uploaded, downloaded, left,
    Option.bind_eq_bind, Option.bind_some, digitsValue_decimal]
  rfl

section Layout
variable (connectionId : UInt64) (transactionId key : UInt32) (facts : AnnounceFacts)

theorem announceRequest_length :
    (announceRequest connectionId transactionId key facts).length = 98 := by
  simp [announceRequest]

theorem request_hash :
    ((announceRequest connectionId transactionId key facts).drop 16).take 20 =
      facts.infoHash.toList := by
  simp [announceRequest, List.drop_append, List.drop_eq_nil_of_le]

theorem request_peer :
    ((announceRequest connectionId transactionId key facts).drop 36).take 20 =
      facts.peerId.toList := by
  simp [announceRequest, List.drop_append, List.drop_eq_nil_of_le]

theorem request_counters :
    beField 56 8 (announceRequest connectionId transactionId key facts) = facts.downloaded.toNat ∧
      beField 64 8 (announceRequest connectionId transactionId key facts) = facts.left.toNat ∧
      beField 72 8 (announceRequest connectionId transactionId key facts) =
        facts.uploaded.toNat := by
  have down : ofBe (toBe 8 facts.downloaded.toNat) = _ := ofBe_toBe facts.downloaded.toNat_lt
  have left : ofBe (toBe 8 facts.left.toNat) = _ := ofBe_toBe facts.left.toNat_lt
  have up : ofBe (toBe 8 facts.uploaded.toNat) = _ := ofBe_toBe facts.uploaded.toNat_lt
  simp [beField, announceRequest, List.drop_append, List.drop_eq_nil_of_le, down, left, up]

theorem request_port :
    beField 96 2 (announceRequest connectionId transactionId key facts) = facts.port.toNat := by
  have port : ofBe (toBe 2 facts.port.toNat) = _ := ofBe_toBe facts.port.toNat_lt
  have last : (toBe 2 facts.port.toNat).take 2 = toBe 2 facts.port.toNat :=
    List.take_of_length_le (by simp)
  simp [beField, announceRequest, List.drop_append, List.drop_eq_nil_of_le, last, port]

theorem readRequest_announce :
    readRequest (announceRequest connectionId transactionId key facts) = reported facts := by
  obtain ⟨downloaded, left, uploaded⟩ := request_counters connectionId transactionId key facts
  simp only [readRequest, reported, request_hash, request_peer, request_port, downloaded, left,
    uploaded]

end Layout

def QueryChar (c : Char) : Prop := c.isAlphanum = true ∨ c ∈ ['%', '&', '=', '_']

/-- `Url::set_query` leaves a query of plain characters as it is. -/
def KeepsQuery (pkg : UrlPackage) : Prop :=
  ∀ url query, (∀ c ∈ query.toList, QueryChar c) →
    pkg.query (pkg.setQuery url (some query)) = some query

theorem value_char_allowed {c : Char} (value : ValueChar c) : QueryChar c := by
  rcases value with percent | plain
  · exact Or.inr (by simp [percent])
  · exact Or.inl plain

instance (c : Char) : Decidable (QueryChar c) := inferInstanceAs (Decidable (_ ∨ _))

theorem param_chars {key : String} {value : List Char} (plain : ∀ c ∈ key.toList, QueryChar c)
    (chars : ∀ c ∈ value, ValueChar c) : ∀ c ∈ param key value, QueryChar c := by
  intro c member
  rcases List.mem_append.mp member with inKey | rest
  · exact plain c inKey
  · rcases List.mem_cons.mp rest with equals | inValue
    · subst equals
      decide
    · exact value_char_allowed (chars c inValue)

theorem joined_chars {parts : List (List Char)} (chars : ∀ part ∈ parts, ∀ c ∈ part, QueryChar c) :
    ∀ c ∈ ['&'].intercalate parts, QueryChar c := by
  induction parts with
  | nil => simp
  | cons part parts ih =>
    have rest := ih fun other h => chars other (by simp [h])
    cases parts with
    | nil => simpa using chars part
    | cons next parts =>
      rw [List.intercalate_cons_cons]
      intro c member
      rcases List.mem_append.mp member with first | later
      · rcases List.mem_append.mp first with inPart | separator
        · exact chars part (by simp) c inPart
        · rw [List.mem_singleton] at separator
          subst separator
          decide
      · exact rest c later

theorem announceQuery_chars (facts : AnnounceFacts) : ∀ c ∈ announceQuery facts, QueryChar c := by
  have plain : ∀ key ∈ ["info_hash", "peer_id", "port", "uploaded", "downloaded", "compact",
      "left"], ∀ c ∈ key.toList, QueryChar c := by simp [QueryChar]
  simp only [List.mem_cons, List.not_mem_nil, or_false, forall_eq_or_imp, forall_eq] at plain
  obtain ⟨infoHash, peerId, port, uploaded, downloaded, compact, left⟩ := plain
  rw [announceQuery_eq]
  apply joined_chars
  intro part member
  simp only [queryParts, List.mem_cons, List.not_mem_nil, or_false] at member
  rcases member with rfl | rfl | rfl | rfl | rfl | rfl | rfl
  · exact param_chars infoHash (escaped_chars _)
  · exact param_chars peerId (escaped_chars _)
  · exact param_chars port (decimal_chars _)
  · exact param_chars uploaded (decimal_chars _)
  · exact param_chars downloaded (decimal_chars _)
  · exact param_chars compact (by simp [ValueChar])
  · exact param_chars left (decimal_chars _)

theorem announceQuery_injective {one other : AnnounceFacts}
    (same : announceQuery one = announceQuery other) : one = other := by
  have read := readQuery_announce one
  rw [same, readQuery_announce] at read
  exact (reported_injective (Option.some.inj read)).symm

theorem announceRequest_injective {connectionId connectionId' : UInt64}
    {transactionId transactionId' key key' : UInt32} {one other : AnnounceFacts}
    (same : announceRequest connectionId transactionId key one =
      announceRequest connectionId' transactionId' key' other) : one = other := by
  apply reported_injective
  rw [← readRequest_announce connectionId transactionId key, same, readRequest_announce]

/-- Behind its connect request, the exchange sends only an announce of the facts, and it returns
    only once this has been sent. -/
theorem announce_sent (draws : Draws) (net : Network) (facts : AnnounceFacts) :
    ∃ sent, (connectAndAnnounce draws facts net).state.sent = net.sent ++ sent ∧
      (∀ datagram ∈ sent.drop 1, datagram.length = 98 ∧ readRequest datagram = reported facts) ∧
      ∀ r net', Returns (connectAndAnnounce draws facts) net r net' → sent.length = 2 := by
  obtain ⟨connectionId, sent, state, start⟩ := sent_by_exchange draws facts net
  refine ⟨sent, state, ?_, ?_⟩
  · intro datagram member
    have last : sent.drop 1 <+: [announceRequest connectionId draws.announceTransactionId
        draws.key facts] := start.drop 1
    rw [List.mem_singleton.mp (last.subset member)]
    exact ⟨announceRequest_length _ _ _ _, readRequest_announce _ _ _ _⟩
  · intro r net' run
    obtain ⟨first, second, sending, arriving, -, -, -, -, -, -, rfl⟩ :=
      returns_connectAndAnnounce.mp run
    have both := run.2
    rw [both] at state
    exact congrArg List.length (List.append_cancel_left state.symm)

theorem announces_report_same_facts {pkg : UrlPackage} (keeps : KeepsQuery pkg)
    {announce text : String} {facts : AnnounceFacts}
    (built : buildAnnounceUrl pkg announce facts = .ok text)
    (connectionId : UInt64) (transactionId key : UInt32) :
    (∃ url query, text = pkg.toText url ∧ pkg.query url = some query ∧
      readQuery query.toList = some (reported facts) ∧
      (queryParams query.toList).map Prod.fst =
        ["info_hash", "peer_id", "port", "uploaded", "downloaded", "compact", "left"]) ∧
    (announceRequest connectionId transactionId key facts).length = 98 ∧
    readRequest (announceRequest connectionId transactionId key facts) = reported facts ∧
    (∀ other, announceQuery other = announceQuery facts → other = facts) ∧
    (∀ connectionId' transactionId' key' other,
      announceRequest connectionId' transactionId' key' other =
        announceRequest connectionId transactionId key facts → other = facts) ∧
    ∀ draws net, ∃ sent, (connectAndAnnounce draws facts net).state.sent = net.sent ++ sent ∧
      (∀ datagram ∈ sent.drop 1, datagram.length = 98 ∧ readRequest datagram = reported facts) ∧
      ∀ r net', Returns (connectAndAnnounce draws facts) net r net' → sent.length = 2 := by
  refine ⟨?_, announceRequest_length _ _ _ _, readRequest_announce _ _ _ _,
    fun _ => announceQuery_injective, fun _ _ _ _ => announceRequest_injective,
    fun draws net => announce_sent draws net facts⟩
  unfold buildAnnounceUrl at built
  split at built
  · cases built
  · rename_i url parsed
    have kept := keeps url (String.ofList (announceQuery facts))
      (by simpa using announceQuery_chars facts)
    refine ⟨_, _, (Except.ok.inj built).symm, kept, ?_, ?_⟩
    · rw [String.toList_ofList, readQuery_announce]
    · rw [String.toList_ofList, queryParams_announce]
      rfl

def plainPackage : UrlPackage where
  Url := String × Option String
  parse text := .ok (text, none)
  setQuery url query := (url.1, query)
  query url := url.2
  toText url := match url.2 with
    | some query => url.1 ++ "?" ++ query
    | none => url.1

theorem announces_report_same_facts_plain :
    let facts : AnnounceFacts := ⟨.replicate 20 0x26, .replicate 20 0x25, 6881, 1, 2, 3⟩
    ∃ url query, plainPackage.query url = some query ∧
      readQuery query.toList = some (reported facts) ∧
      readRequest (announceRequest 0 0 0 facts) = reported facts := by
  intro facts
  have built : buildAnnounceUrl plainPackage "http://a/announce" facts =
      .ok ("http://a/announce" ++ "?" ++ String.ofList (announceQuery facts)) := rfl
  obtain ⟨⟨url, query, -, kept, read, -⟩, -, request, -⟩ :=
    announces_report_same_facts (fun _ _ _ => rfl) built 0 0 0
  exact ⟨url, query, kept, read, request⟩

end AnnounceReports
