import RustyTorrent.Torrent.MagnetHash

/- The digits of a hash. The number reader of the standard library takes a plus sign in front of
   a digit, so not every text of forty characters that is accepted is hexadecimal. -/
namespace MagnetDigits
open RustExec PercentText StrSlices MagnetUri MagnetHash

def HexDigits (digits : List Char) : Prop := ∀ c ∈ digits, (hexValue c).isSome = true

def WellFormed (xt digits : List Char) : Prop :=
  xt = urn ++ digits ∧ digits.length = 40 ∧ HexDigits digits

def SignedPairs : List Char → Prop
  | [] => True
  | [_] => False
  | c :: d :: rest =>
      (c = '+' ∨ (hexValue c).isSome = true) ∧ (hexValue d).isSome = true ∧ SignedPairs rest

/-- A hash of twenty pairs with a plus sign in some of them. -/
def SignedHash (xt : List Char) : Prop :=
  ∃ digits, xt = urn ++ digits ∧ digits.length = 40 ∧ SignedPairs digits ∧ '+' ∈ digits

/-- A link is accepted exactly if its hash is well formed, and then shows the hash. -/
structure HashFaithful (uri xt : List Char) : Prop where
  accepted : (∃ link, Returns (parse uri) () link ()) ↔ ∃ digits, WellFormed xt digits
  shown : ∀ link digits, Returns (parse uri) () link () → WellFormed xt digits →
    link.infoHashHex = digits.map Char.toLower

theorem pairBytes_signed {digits : List Char} :
    (∃ bytes, pairBytes digits = some bytes) ↔ SignedPairs digits := by
  induction digits using SignedPairs.induct with
  | case1 => simp [pairBytes, SignedPairs]
  | case2 c => simp [pairBytes, SignedPairs]
  | case3 c d rest ih =>
    rw [SignedPairs, ← ih]
    constructor
    · intro both
      obtain ⟨bytes, read⟩ := both
      obtain ⟨byte, later, pair, further, -⟩ := pairBytes_cons.mp read
      obtain ⟨l, second, ⟨plus, -⟩ | ⟨h, first, -⟩⟩ := byteFromHex_two.mp pair
      · exact ⟨Or.inl plus, by simp [second], later, further⟩
      · exact ⟨Or.inr (by simp [first]), by simp [second], later, further⟩
    · intro parts
      obtain ⟨first, second, later, further⟩ := parts
      obtain ⟨l, second⟩ := Option.isSome_iff_exists.mp second
      rcases first with plus | first
      · have pair := byteFromHex_two.mpr ⟨l, second, Or.inl ⟨plus, rfl⟩⟩
        exact ⟨_, pairBytes_cons.mpr ⟨_, later, pair, further, rfl⟩⟩
      · obtain ⟨h, first⟩ := Option.isSome_iff_exists.mp first
        have pair := byteFromHex_two.mpr ⟨l, second, Or.inr ⟨h, first, rfl⟩⟩
        exact ⟨_, pairBytes_cons.mpr ⟨_, later, pair, further, rfl⟩⟩

theorem pairBytes_length {digits : List Char} {bytes : Bytes}
    (read : pairBytes digits = some bytes) : digits.length = bytes.length * 2 := by
  induction digits using SignedPairs.induct generalizing bytes with
  | case1 =>
    cases read
    rfl
  | case2 c => cases read
  | case3 c d rest ih =>
    obtain ⟨byte, later, -, further, rfl⟩ := pairBytes_cons.mp read
    rw [List.length_cons, List.length_cons, List.length_cons, ih further]
    omega

theorem digitChar_hexValue {c : Char} {d : Nat} (digit : hexValue c = some d) :
    Nat.digitChar d = c.toLower := by
  have table : ∀ n < 128, ∀ d, hexValue (Char.ofNat n) = some d →
      Nat.digitChar d = (Char.ofNat n).toLower := by
    have all : ∀ n < 128, (hexValue (Char.ofNat n)).all
        (fun d => Nat.digitChar d = (Char.ofNat n).toLower) = true := by decide
    intro n small d found
    have here := all n small
    rw [found] at here
    simpa using here
  have named := table c.toNat (hex_digit_chars digit).1 d
  rw [Char.ofNat_toNat] at named
  exact named digit

theorem lowerHex_pair {c d : Char} {h l : Nat} (first : hexValue c = some h)
    (second : hexValue d = some l) :
    lowerHex (UInt8.ofNat (h * 16 + l)) = [c.toLower, d.toLower] := by
  have high := hexValue_lt first
  have low := hexValue_lt second
  have value : (UInt8.ofNat (h * 16 + l)).toNat = h * 16 + l :=
    UInt8.toNat_ofNat_of_lt' (by change h * 16 + l < 256; omega)
  have top : (h * 16 + l) / 16 = h := by omega
  have bottom : (h * 16 + l) % 16 = l := by omega
  rw [lowerHex, value, top, bottom, digitChar_hexValue first, digitChar_hexValue second]

theorem lowerHex_pairBytes {digits : List Char} {bytes : Bytes} (hex : HexDigits digits)
    (read : pairBytes digits = some bytes) : bytes.flatMap lowerHex = digits.map Char.toLower := by
  induction digits using SignedPairs.induct generalizing bytes with
  | case1 =>
    cases read
    rfl
  | case2 c => cases read
  | case3 c d rest ih =>
    obtain ⟨byte, later, pair, further, rfl⟩ := pairBytes_cons.mp read
    rw [HexDigits, List.forall_mem_cons, List.forall_mem_cons] at hex
    obtain ⟨h, first⟩ := Option.isSome_iff_exists.mp hex.1
    obtain ⟨l, second⟩ := Option.isSome_iff_exists.mp hex.2.1
    rw [byteFromHex_two.mpr ⟨l, second, Or.inr ⟨h, first, rfl⟩⟩] at pair
    cases pair
    rw [List.flatMap_cons, lowerHex_pair first second, ih hex.2.2 further]
    rfl

theorem signed_of_hex {digits : List Char} (hex : HexDigits digits) {n : Nat}
    (even : digits.length = n * 2) : SignedPairs digits := by
  induction digits using SignedPairs.induct generalizing n with
  | case1 => trivial
  | case2 c =>
    rw [List.length_singleton] at even
    omega
  | case3 c d rest ih =>
    rw [HexDigits, List.forall_mem_cons, List.forall_mem_cons] at hex
    rw [List.length_cons, List.length_cons] at even
    exact ⟨Or.inr hex.1, hex.2.1, ih hex.2.2 (n := n - 1) (by omega)⟩

theorem hex_of_signed {digits : List Char} (signed : SignedPairs digits) (plain : '+' ∉ digits) :
    HexDigits digits := by
  induction digits using SignedPairs.induct with
  | case1 => simp [HexDigits]
  | case2 c => exact signed.elim
  | case3 c d rest ih =>
    simp only [List.mem_cons, not_or] at plain
    obtain ⟨first, second, later⟩ := signed
    rw [HexDigits, List.forall_mem_cons, List.forall_mem_cons]
    exact ⟨first.resolve_left (Ne.symm plain.1), second, ih later plain.2.2⟩

section Accepted
variable {query xt : List Char}

theorem accepted_iff (found : xtValue query = some xt) (ascii : ∀ c ∈ xt, c.toNat < 128) :
    (∃ link, Returns (parse (scheme ++ query)) () link ()) ↔
      ∃ digits, xt = urn ++ digits ∧ digits.length = 40 ∧ SignedPairs digits := by
  constructor
  · intro both
    obtain ⟨link, run⟩ := both
    obtain ⟨other, found', infoHash, hash, -⟩ := returns_parse_iff.mp run
    rw [found] at found'
    cases found'
    obtain ⟨digits, rfl, length, read⟩ := parseXt_returns_iff.mp hash
    rw [byteLength_ascii fun c member => ascii c (by simp [member])] at length
    exact ⟨digits, rfl, length, pairBytes_signed.mp ⟨_, read⟩⟩
  · intro parts
    obtain ⟨digits, rfl, length, signed⟩ := parts
    obtain ⟨bytes, read⟩ := pairBytes_signed.mpr signed
    have twenty : bytes.toArray.size = 20 := by
      have sizes := pairBytes_length read
      rw [List.size_toArray]
      omega
    have whole : byteLength digits = 40 := by
      rw [byteLength_ascii fun c member => ascii c (by simp [member]), length]
    have hash : Returns (parseXt (urn ++ digits)) () ⟨bytes.toArray, twenty⟩ () :=
      parseXt_returns_iff.mpr ⟨digits, rfl, whole, by simpa using read⟩
    exact ⟨_, returns_parse_iff.mpr ⟨_, found, _, hash, rfl⟩⟩

theorem shown_of_wellFormed (found : xtValue query = some xt) {digits : List Char}
    (formed : WellFormed xt digits) {link : MagnetLink}
    (run : Returns (parse (scheme ++ query)) () link ()) :
    link.infoHashHex = digits.map Char.toLower := by
  obtain ⟨rfl, -, hex⟩ := formed
  obtain ⟨other, found', infoHash, hash, rfl⟩ := returns_parse_iff.mp run
  rw [found] at found'
  cases found'
  obtain ⟨digits', same, -, read⟩ := parseXt_returns_iff.mp hash
  rw [List.append_cancel_left_eq] at same
  subst same
  exact lowerHex_pairBytes hex read

/-- A hash is accepted exactly if it is well formed, unless it has plus signs for digits. -/
theorem hash_faithful_iff (found : xtValue query = some xt) (ascii : ∀ c ∈ xt, c.toNat < 128) :
    HashFaithful (scheme ++ query) xt ↔ ¬ SignedHash xt := by
  constructor
  · rintro faithful ⟨digits, rfl, length, signed, plus⟩
    have taken := (accepted_iff found ascii).mpr ⟨digits, rfl, length, signed⟩
    obtain ⟨digits', same, -, hex⟩ := faithful.accepted.mp taken
    rw [List.append_cancel_left_eq] at same
    subst same
    exact absurd (hex '+' plus) (by decide)
  · intro plain
    refine ⟨?_, fun link digits run formed => shown_of_wellFormed found formed run⟩
    rw [accepted_iff found ascii]
    constructor
    · intro parts
      obtain ⟨digits, rfl, length, signed⟩ := parts
      have noPlus : '+' ∉ digits := fun plus => plain ⟨digits, rfl, length, signed, plus⟩
      exact ⟨digits, rfl, length, hex_of_signed signed noPlus⟩
    · intro parts
      obtain ⟨digits, rfl, length, hex⟩ := parts
      exact ⟨digits, rfl, length, signed_of_hex hex (n := 20) length⟩

end Accepted

theorem hash_faithful_iff_mixed :
    let digits := (List.replicate 10 ['a', 'F', '0', '9']).flatten
    ∃ link, Returns (parse (scheme ++ (keyXt ++ '=' :: (urn ++ digits)))) () link () ∧
      link.infoHashHex = (List.replicate 10 ['a', 'f', '0', '9']).flatten := by
  intro digits
  have found : xtValue (keyXt ++ '=' :: (urn ++ digits)) = some (urn ++ digits) := by decide
  have ascii : (urn ++ digits).all (fun c => c.toNat < 128) = true := by decide
  have hex : digits.all (fun c => (hexValue c).isSome) = true := by decide
  have small : ∀ c ∈ urn ++ digits, c.toNat < 128 := fun c member =>
    of_decide_eq_true (List.all_eq_true.mp ascii c member)
  have faithful := (hash_faithful_iff found small).mpr (by
    intro parts
    obtain ⟨digits', same, -, -, plus⟩ := parts
    rw [List.append_cancel_left_eq] at same
    subst same
    exact absurd plus (by decide))
  have formed : WellFormed (urn ++ digits) digits := ⟨rfl, rfl, List.all_eq_true.mp hex⟩
  obtain ⟨link, run⟩ := faithful.accepted.mpr ⟨digits, formed⟩
  refine ⟨link, run, ?_⟩
  rw [faithful.shown link digits run formed]
  decide

/-- Twenty pairs "+1" are taken for the hash of twenty bytes 1. -/
theorem signed_hash_accepted :
    let digits := (List.replicate 20 ['+', '1']).flatten
    let uri := scheme ++ (keyXt ++ '=' :: (urn ++ digits))
    xtValue (keyXt ++ '=' :: (urn ++ digits)) = some (urn ++ digits) ∧
      Returns (parse uri) () ⟨.replicate 20 1, none, []⟩ () ∧
      ¬ HashFaithful uri (urn ++ digits) := by
  intro digits uri
  have run : Returns (parse uri) () ⟨.replicate 20 1, none, []⟩ () := by decide +kernel
  refine ⟨by decide, run, ?_⟩
  intro faithful
  obtain ⟨digits', same, -, hex⟩ := faithful.accepted.mp ⟨_, run⟩
  rw [List.append_cancel_left_eq] at same
  subst same
  exact absurd (hex '+' (by decide)) (by decide)

end MagnetDigits
