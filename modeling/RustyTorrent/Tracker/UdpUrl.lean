import RustyTorrent.Library.Numerals
import RustyTorrent.Library.PercentText
import RustyTorrent.Library.StrSlices
import RustyTorrent.Tracker.UdpTracker

/- The tracker URL of src/tracker/udp.rs and the texts that its parser accepts. A `&str` is the
   list of its characters, and every slice is checked for character boundaries. -/
namespace UdpUrl
open RustExec Numerals PercentText StrSlices Utf8Text UdpTracker

/-- "udp://" -/
def udpScheme : List Char := ['u', 'd', 'p', ':', '/', '/']

def parseUdpUrl (url : List Char) : Exec Unit UdpTrackerError (String × UInt16) :=
  if ¬ udpScheme.isPrefixOf url then fail (.invalidUrl "URL must start with udp://")
  else do
    let rest ← sliceStr url 6 (byteLength url)
    let hostPort := (rest.splitOn '/').head?.getD rest
    match rfind ':' hostPort with
    | some colonPos => do
        let host ← sliceStr hostPort 0 colonPos
        let portStr ← sliceStr hostPort (colonPos + 1) (byteLength hostPort)
        let port ← okOr (parseU16 (portStr.flatMap String.utf8EncodeChar))
          (.invalidUrl "Invalid port")
        return (String.ofList host, port)
    | none => fail (.invalidUrl "Missing port number")

/-- `format!("{}:{}", host, tracker_port)` -/
def addrStr (host : String) (trackerPort : UInt16) : String :=
  String.ofList (host.toList ++ ':' :: decimalText trackerPort.toNat)

/-- The start of `announce`: the address of the tracker, by a resolver that gives the addresses
    of a text or the text of an error. -/
def trackerAddr {Addr : Type} (lookupHost : String → Except String (List Addr))
    (trackerUrl : List Char) : Exec Unit UdpTrackerError Addr := do
  let (host, trackerPort) ← parseUdpUrl trackerUrl
  let addrs ← ofExcept ((lookupHost (addrStr host trackerPort)).mapError fun e =>
    .invalidUrl ("DNS lookup failed: " ++ e))
  okOr addrs.head? (.invalidUrl "No addresses found")

def PathTail (tail : List Char) : Prop := tail = [] ∨ ∃ path, tail = '/' :: path

/-- An optional plus sign, then decimal digits of the port. -/
def PortText (text : List Char) (port : UInt16) : Prop :=
  ∃ sign digits, (sign = [] ∨ sign = ['+']) ∧ text = sign ++ digits.map Char.ofUInt8 ∧
    digits ≠ [] ∧ digitsValue 0 digits = some port.toNat

inductive UrlShape : List Char → Prop where
  | foreign {url : List Char} (other : ¬ udpScheme.isPrefixOf url) : UrlShape url
  | bare {host tail : List Char} (noSlash : '/' ∉ host) (noColon : ':' ∉ host)
      (path : PathTail tail) : UrlShape (udpScheme ++ (host ++ tail))
  | ported {host port tail : List Char} (hostSlash : '/' ∉ host) (portSlash : '/' ∉ port)
      (last : ':' ∉ port) (path : PathTail tail) :
      UrlShape (udpScheme ++ ((host ++ ':' :: port) ++ tail))

theorem cut_at_slash (rest : List Char) : ∃ hostPort tail, rest = hostPort ++ tail ∧
    '/' ∉ hostPort ∧ PathTail tail := by
  by_cases slash : '/' ∈ rest
  · obtain ⟨before, after, rfl, first⟩ := List.eq_append_cons_of_mem slash
    exact ⟨before, '/' :: after, rfl, first, Or.inr ⟨after, rfl⟩⟩
  · exact ⟨rest, [], (List.append_nil rest).symm, slash, Or.inl rfl⟩

theorem cut_at_last_colon {hostPort : List Char} (colon : ':' ∈ hostPort) :
    ∃ host port, hostPort = host ++ ':' :: port ∧ ':' ∉ port := by
  obtain ⟨after, before, reversed, last⟩ :=
    List.eq_append_cons_of_mem (List.mem_reverse.mpr colon)
  refine ⟨before.reverse, after.reverse, ?_, by simpa using last⟩
  rw [← List.reverse_reverse hostPort, reversed]
  simp

theorem urlShape (url : List Char) : UrlShape url := by
  by_cases starts : udpScheme.isPrefixOf url
  · obtain ⟨rest, rfl⟩ := List.isPrefixOf_iff_prefix.mp starts
    obtain ⟨hostPort, tail, rfl, noSlash, path⟩ := cut_at_slash rest
    by_cases colon : ':' ∈ hostPort
    · obtain ⟨host, port, rfl, last⟩ := cut_at_last_colon colon
      simp only [List.mem_append, List.mem_cons, not_or] at noSlash
      exact .ported noSlash.1 noSlash.2.2 last path
    · exact .bare noSlash colon path
  · exact .foreign starts

theorem first_piece {hostPort tail : List Char} (noSlash : '/' ∉ hostPort)
    (path : PathTail tail) : (((hostPort ++ tail).splitOn '/').head?).getD (hostPort ++ tail) =
      hostPort := by
  rcases path with rfl | ⟨rest, rfl⟩
  · rw [List.append_nil, List.splitOn_eq_singleton noSlash]
    rfl
  · rw [List.splitOn_append_cons_self_of_not_mem noSlash]
    rfl

theorem slice_scheme (rest : List Char) :
    (sliceStr (udpScheme ++ rest) 6 (byteLength (udpScheme ++ rest)) :
      Exec Unit UdpTrackerError (List Char)) = pure rest := by
  have whole := @sliceStr_between Unit UdpTrackerError udpScheme rest []
  rwa [List.append_nil, ← byteLength_append] at whole

theorem parse_bare {host tail : List Char} (noSlash : '/' ∉ host) (noColon : ':' ∉ host)
    (path : PathTail tail) :
    parseUdpUrl (udpScheme ++ (host ++ tail)) = fail (.invalidUrl "Missing port number") := by
  unfold parseUdpUrl
  rw [if_neg (by simp), slice_scheme, pure_bind, first_piece noSlash path]
  simp only [rfind_none noColon]

theorem parse_ported {host port tail : List Char} (hostSlash : '/' ∉ host)
    (portSlash : '/' ∉ port) (last : ':' ∉ port) (path : PathTail tail) :
    parseUdpUrl (udpScheme ++ ((host ++ ':' :: port) ++ tail)) =
      okOr (parseU16 (port.flatMap String.utf8EncodeChar)) (.invalidUrl "Invalid port") >>=
        fun p => pure (String.ofList host, p) := by
  have noSlash : '/' ∉ host ++ ':' :: port := by simp [hostSlash, portSlash]
  have before := @sliceStr_between Unit UdpTrackerError [] host (':' :: port)
  have behind := @sliceStr_between Unit UdpTrackerError (host ++ [':']) port []
  have colon : byteLength host + 1 = byteLength (host ++ [':']) := by
    rw [byteLength_append]
    rfl
  have ends : byteLength (host ++ ':' :: port) =
      byteLength (host ++ [':']) + byteLength port := by
    rw [← byteLength_append, List.append_assoc]
    rfl
  simp only [List.append_nil, List.append_assoc, List.singleton_append, List.nil_append,
    byteLength_nil, Nat.zero_add] at before behind
  unfold parseUdpUrl
  rw [if_neg (by simp), slice_scheme, pure_bind, first_piece noSlash path]
  simp only [rfind_last last, before, pure_bind, colon, ends, behind]

theorem port_text_iff {text : List Char} {port : UInt16} :
    parseU16 (text.flatMap String.utf8EncodeChar) = some port ↔ PortText text port := by
  have small : ∀ digits, digitsValue 0 digits = some port.toNat → ∀ b ∈ digits, b.toNat < 0x80 := by
    intro digits value b member
    have digit := digitsValue_digits value b member
    rw [is_digit_iff] at digit
    omega
  have sign : Char.ofUInt8 plus = '+' := by decide
  rw [parseU16_iff]
  constructor
  · intro read
    obtain ⟨digits, same | same, some, value⟩ := read
    · rw [encoded_ascii_iff (small digits value)] at same
      exact ⟨[], digits, Or.inl rfl, same, some, value⟩
    · rw [encoded_ascii_iff (List.forall_mem_cons.mpr ⟨by decide, small digits value⟩),
        List.map_cons, sign] at same
      exact ⟨['+'], digits, Or.inr rfl, same, some, value⟩
  · intro written
    obtain ⟨_, digits, rfl | rfl, rfl, some, value⟩ := written
    · exact ⟨digits, Or.inl (ascii_encoded (small digits value)), some, value⟩
    · refine ⟨digits, Or.inr ?_, some, value⟩
      rw [encoded_ascii_iff (List.forall_mem_cons.mpr ⟨by decide, small digits value⟩),
        List.map_cons, sign]
      rfl

theorem digit_chars {b : UInt8} (digit : isDigit b = true) :
    Char.ofUInt8 b ≠ '/' ∧ Char.ofUInt8 b ≠ ':' := by
  have value : (Char.ofUInt8 b).toNat = b.toNat := UInt8.toNat_toUInt32 b
  rw [is_digit_iff] at digit
  constructor
  · intro slash
    rw [slash] at value
    simp at value
    omega
  · intro colon
    rw [colon] at value
    simp at value
    omega

theorem PortText.plain {text : List Char} {port : UInt16} (written : PortText text port) :
    '/' ∉ text ∧ ':' ∉ text := by
  obtain ⟨sign, digits, signs, rfl, -, value⟩ := written
  have inSign : '/' ∉ sign ∧ ':' ∉ sign := by
    rcases signs with rfl | rfl <;> decide
  have inDigits : '/' ∉ digits.map Char.ofUInt8 ∧ ':' ∉ digits.map Char.ofUInt8 := by
    constructor
    all_goals
      intro member
      obtain ⟨b, here, same⟩ := List.mem_map.mp member
      have other := digit_chars (digitsValue_digits value b here)
    · exact other.1 same
    · exact other.2 same
  simp only [List.mem_append, not_or]
  exact ⟨⟨inSign.1, inDigits.1⟩, ⟨inSign.2, inDigits.2⟩⟩

theorem decimal_port (port : UInt16) : PortText (decimalText port.toNat) port :=
  ⟨[], decimal port.toNat, Or.inl rfl, rfl, decimal_ne_nil _, digitsValue_decimal _⟩

theorem parse_port_text {host text tail : List Char} {port : UInt16} (noSlash : '/' ∉ host)
    (written : PortText text port) (path : PathTail tail) :
    Returns (parseUdpUrl (udpScheme ++ ((host ++ ':' :: text) ++ tail))) ()
      (String.ofList host, port) () := by
  rw [parse_ported noSlash written.plain.1 written.plain.2 path]
  exact returns_okOr_bind.mpr ⟨port, port_text_iff.mpr written, returns_value _ _⟩

theorem parsed_port_text {url : List Char} {host : String} {port : UInt16}
    (run : Returns (parseUdpUrl url) () (host, port) ()) :
    ∃ text tail, url = udpScheme ++ ((host.toList ++ ':' :: text) ++ tail) ∧
      '/' ∉ host.toList ∧ PortText text port ∧ PathTail tail := by
  cases urlShape url with
  | foreign other =>
    rw [parseUdpUrl, if_pos other] at run
    exact absurd run returns_fail
  | bare noSlash noColon path =>
    rw [parse_bare noSlash noColon path] at run
    exact absurd run returns_fail
  | @ported written text tail hostSlash portSlash last path =>
    rw [parse_ported hostSlash portSlash last path] at run
    obtain ⟨p, read, run⟩ := returns_okOr_bind.mp run
    obtain ⟨same, -⟩ := returns_pure.mp run
    cases same
    rw [String.toList_ofList]
    exact ⟨text, tail, rfl, hostSlash, port_text_iff.mp read, path⟩

theorem safe_parseUdpUrl (url : List Char) : Safe (parseUdpUrl url) () := by
  cases urlShape url with
  | foreign other =>
    rw [parseUdpUrl, if_pos other]
    exact safe_fail _ _
  | bare noSlash noColon path =>
    rw [parse_bare noSlash noColon path]
    exact safe_fail _ _
  | ported hostSlash portSlash last path =>
    rw [parse_ported hostSlash portSlash last path]
    exact safe_bind (safe_okOr _ _ _) fun _ _ _ => safe_pure _ _

theorem trackerAddr_asks {Addr : Type} {lookupHost : String → Except String (List Addr)}
    {host text tail : List Char} {port : UInt16} (noSlash : '/' ∉ host)
    (written : PortText text port) (path : PathTail tail) {addr : Addr} {u : Unit} :
    Returns (trackerAddr lookupHost (udpScheme ++ ((host ++ ':' :: text) ++ tail))) () addr u ↔
      ∃ later, lookupHost (addrStr (String.ofList host) port) = .ok (addr :: later) := by
  unfold trackerAddr
  rw [returns_bind_step (parse_port_text noSlash written path)]
  simp only [returns_bind, returns_ofExcept, returns_okOr]
  constructor
  · intro found
    obtain ⟨addrs, _, ⟨answer, -⟩, first, -⟩ := found
    obtain ⟨later, rfl⟩ := List.head?_eq_some_iff.mp first
    cases asked : lookupHost (addrStr (String.ofList host) port) with
    | error e =>
      rw [asked] at answer
      cases answer
    | ok found =>
      rw [asked] at answer
      cases answer
      exact ⟨later, rfl⟩
  · intro answers
    obtain ⟨later, asked⟩ := answers
    refine ⟨addr :: later, (), ⟨?_, trivial⟩, rfl, trivial⟩
    rw [asked]
    rfl

/-- The parser takes built URLs apart, and a URL that it takes apart was built like this but
    for a plus sign and leading zeros. -/
theorem parseUdpUrl_inverts :
    (∀ host tail (port : UInt16), '/' ∉ host → PathTail tail →
      Returns (parseUdpUrl (udpScheme ++ ((host ++ ':' :: decimalText port.toNat) ++ tail))) ()
        (String.ofList host, port) ()) ∧
    ∀ url host port, Returns (parseUdpUrl url) () (host, port) () →
      ∃ text tail, url = udpScheme ++ ((host.toList ++ ':' :: text) ++ tail) ∧
        '/' ∉ host.toList ∧ ('/' ∉ text ∧ ':' ∉ text) ∧ PortText text port ∧ PathTail tail := by
  refine ⟨fun host tail port noSlash path => parse_port_text noSlash (decimal_port port) path, ?_⟩
  intro url host port run
  obtain ⟨text, tail, same, noSlash, written, path⟩ := parsed_port_text run
  exact ⟨text, tail, same, noSlash, written.plain, written, path⟩

theorem parseUdpUrl_inverts_ipv6 :
    let url := "udp://[::1]:80/a:1".toList
    Returns (parseUdpUrl url) () ("[::1]", 80) () ∧
      ∃ text tail, url = udpScheme ++ (("[::1]".toList ++ ':' :: text) ++ tail) ∧
        PortText text 80 ∧ PathTail tail := by
  intro url
  have built : udpScheme ++ (("[::1]".toList ++ ':' :: decimalText (80 : UInt16).toNat) ++
      "/a:1".toList) = url := by decide +kernel
  have path : PathTail "/a:1".toList := Or.inr ⟨"a:1".toList, by decide +kernel⟩
  have run := parseUdpUrl_inverts.1 "[::1]".toList "/a:1".toList 80 (by decide +kernel) path
  rw [built, String.ofList_toList] at run
  obtain ⟨text, tail, same, -, -, written, rest⟩ := parseUdpUrl_inverts.2 _ _ _ run
  exact ⟨run, text, tail, same, written, rest⟩

end UdpUrl
