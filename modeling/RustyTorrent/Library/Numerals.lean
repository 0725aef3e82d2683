import Mathlib.Data.Nat.Digits.Lemmas
import RustyTorrent.Library.RustExec

/- Decimal numerals as byte strings: the printer, and the readers that Rust's `str::parse`
   uses for i64 and for 64-bit usize. The readers accept a leading plus sign and leading
   zeros, which the printer never writes. -/
namespace Numerals
open RustExec

def isDigit (b : UInt8) : Bool := 0x30 ≤ b && b ≤ 0x39

def digitByte (d : Nat) : UInt8 := UInt8.ofNat (0x30 + d)

def plus : UInt8 := 0x2b
def minus : UInt8 := 0x2d

def digitsValue : Nat → Bytes → Option Nat
  | acc, [] => some acc
  | acc, b :: rest =>
      if isDigit b then digitsValue (acc * 10 + (b.toNat - 0x30)) rest else none

/-- `str::parse::<usize>`: an optional plus sign, then digits of a value below 2^64. -/
def parseUsize : Bytes → Option Nat
  | [] => none
  | b :: rest =>
      if b = plus ∧ rest ≠ [] then (digitsValue 0 rest).filter (· < 2 ^ 64)
      else (digitsValue 0 (b :: rest)).filter (· < 2 ^ 64)

/-- `str::parse::<u16>`: an optional plus sign, then digits of a value below 2^16. -/
def parseU16 : Bytes → Option UInt16
  | [] => none
  | b :: rest =>
      if b = plus ∧ rest ≠ [] then ((digitsValue 0 rest).filter (· < 2 ^ 16)).map UInt16.ofNat
      else ((digitsValue 0 (b :: rest)).filter (· < 2 ^ 16)).map UInt16.ofNat

/-- `str::parse::<i64>`: an optional sign, then digits of a value in range. -/
def parseI64 : Bytes → Option Int64
  | [] => none
  | b :: rest =>
      if b = minus ∧ rest ≠ [] then
        ((digitsValue 0 rest).filter (· ≤ 2 ^ 63)).map fun n : Nat => Int64.ofInt (-(n : Int))
      else if b = plus ∧ rest ≠ [] then
        ((digitsValue 0 rest).filter (· < 2 ^ 63)).map fun n : Nat => Int64.ofInt (n : Int)
      else
        ((digitsValue 0 (b :: rest)).filter (· < 2 ^ 63)).map fun n : Nat => Int64.ofInt (n : Int)

def decimal (n : Nat) : Bytes :=
  if n = 0 then [digitByte 0] else ((Nat.digits 10 n).reverse).map digitByte

def decimalInt (n : Int) : Bytes :=
  if n < 0 then minus :: decimal n.natAbs else decimal n.natAbs

theorem digitByte_toNat {d : Nat} (small : d < 10) : (digitByte d).toNat = 0x30 + d := by
  simp only [digitByte, UInt8.toNat_ofNat']
  omega

theorem is_digit_iff (b : UInt8) : isDigit b = true ↔ 0x30 ≤ b.toNat ∧ b.toNat ≤ 0x39 := by
  simp [isDigit, UInt8.le_iff_toNat_le]

theorem is_digit_digitByte {d : Nat} (small : d < 10) : isDigit (digitByte d) = true := by
  rw [is_digit_iff, digitByte_toNat small]
  omega

theorem digitsValue_map (ds : List Nat) (small : ∀ d ∈ ds, d < 10) (acc : Nat) :
    digitsValue acc (ds.map digitByte) = some (ds.foldl (fun a d => a * 10 + d) acc) := by
  induction ds generalizing acc with
  | nil => rfl
  | cons d ds ih =>
    have head : d < 10 := small d (by simp)
    have tail := ih (fun x h => small x (by simp [h])) (acc * 10 + d)
    simp only [List.map_cons, digitsValue, is_digit_digitByte head, ↓reduceIte,
      digitByte_toNat head, Nat.add_sub_cancel_left, tail, List.foldl_cons]

theorem foldl_eq_ofDigits (ds : List Nat) :
    ds.foldl (fun a d => a * 10 + d) 0 = Nat.ofDigits 10 ds.reverse := by
  rw [Nat.ofDigits_eq_foldr, List.foldr_reverse]
  congr 1
  funext a d
  simp
  omega

theorem foldl_digits (n : Nat) :
    (Nat.digits 10 n).reverse.foldl (fun a d => a * 10 + d) 0 = n := by
  rw [foldl_eq_ofDigits, List.reverse_reverse, Nat.ofDigits_digits]

theorem digitsValue_decimal (n : Nat) : digitsValue 0 (decimal n) = some n := by
  unfold decimal
  split
  · rename_i zero
    subst zero
    decide
  · rw [digitsValue_map _ (fun d h => Nat.digits_lt_base (by decide) (List.mem_reverse.mp h)),
      foldl_digits]

theorem decimal_digits (n : Nat) : ∀ b ∈ decimal n, isDigit b = true := by
  intro b member
  unfold decimal at member
  split at member
  · simp only [List.mem_singleton] at member
    subst member
    decide
  · obtain ⟨d, present, same⟩ := List.mem_map.mp member
    subst same
    exact is_digit_digitByte (Nat.digits_lt_base (by decide) (List.mem_reverse.mp present))

theorem decimal_ne_nil (n : Nat) : decimal n ≠ [] := by
  unfold decimal
  split
  · simp
  · rename_i positive
    simpa [Nat.digits_eq_nil_iff_eq_zero] using positive

theorem digit_not_sign {b : UInt8} (h : isDigit b = true) : b ≠ plus ∧ b ≠ minus := by
  rw [is_digit_iff] at h
  constructor <;> rintro rfl <;> simp [plus, minus] at h

theorem parseUsize_of_digit {b : UInt8} {rest : Bytes} (first : isDigit b = true) :
    parseUsize (b :: rest) = (digitsValue 0 (b :: rest)).filter (· < 2 ^ 64) := by
  simp [parseUsize, (digit_not_sign first).1]

theorem parseI64_of_digit {b : UInt8} {rest : Bytes} (first : isDigit b = true) :
    parseI64 (b :: rest) =
      ((digitsValue 0 (b :: rest)).filter (· < 2 ^ 63)).map
        fun n : Nat => Int64.ofInt (n : Int) := by
  simp [parseI64, (digit_not_sign first).1, (digit_not_sign first).2]

theorem parseUsize_decimal {n : Nat} (fits : n < 2 ^ 64) : parseUsize (decimal n) = some n := by
  have value := digitsValue_decimal n
  have digits := decimal_digits n
  cases h : decimal n with
  | nil => exact absurd h (decimal_ne_nil n)
  | cons b rest =>
    rw [h] at value digits
    rw [parseUsize_of_digit (digits b (by simp)), value]
    simpa using fits

theorem parseI64_decimalInt (n : Int64) : parseI64 (decimalInt n.toInt) = some n := by
  have low := n.le_toInt
  have high := n.toInt_lt
  have value := digitsValue_decimal n.toInt.natAbs
  unfold decimalInt
  split
  · rename_i negative
    have bound : n.toInt.natAbs ≤ 2 ^ 63 := by omega
    have back : -((n.toInt.natAbs : Nat) : Int) = n.toInt := by omega
    simp only [parseI64, decimal_ne_nil, ne_eq, not_false_eq_true, and_self, ↓reduceIte, value,
      Option.filter_some, decide_eq_true bound, Option.map_some, back, Int64.ofInt_toInt]
  · rename_i nonneg
    have bound : n.toInt.natAbs < 2 ^ 63 := by omega
    have back : ((n.toInt.natAbs : Nat) : Int) = n.toInt := by omega
    have digits := decimal_digits n.toInt.natAbs
    cases h : decimal n.toInt.natAbs with
    | nil => exact absurd h (decimal_ne_nil _)
    | cons b rest =>
      rw [h] at value digits
      simp only [parseI64_of_digit (digits b (by simp)), value, Option.filter_some,
        decide_eq_true bound, ↓reduceIte, Option.map_some, back, Int64.ofInt_toInt]

def NumeralByte (b : UInt8) : Prop := isDigit b = true ∨ b = plus ∨ b = minus

theorem digitsValue_digits {s : Bytes} {acc n : Nat} (value : digitsValue acc s = some n) :
    ∀ b ∈ s, isDigit b = true := by
  induction s generalizing acc with
  | nil => simp
  | cons c rest ih =>
    simp only [digitsValue] at value
    split at value
    · rename_i digit
      intro b member
      rcases List.mem_cons.mp member with first | later
      · subst b
        exact digit
      · exact ih value b later
    · simp at value

theorem plus_not_digits {acc n : Nat} {rest : Bytes} : digitsValue acc (plus :: rest) ≠ some n := by
  intro value
  exact (digit_not_sign (digitsValue_digits value plus List.mem_cons_self)).1 rfl

theorem u16_digits_iff {digits : Bytes} {n : UInt16} :
    ((digitsValue 0 digits).filter (· < 2 ^ 16)).map UInt16.ofNat = some n ↔
      digitsValue 0 digits = some n.toNat := by
  have fits := n.toNat_lt
  cases value : digitsValue 0 digits with
  | none => simp
  | some m =>
    by_cases below : m < 2 ^ 16
    · simp only [Option.filter_some, decide_eq_true below, ↓reduceIte, Option.map_some,
        Option.some.injEq, ← UInt16.toNat_inj, UInt16.toNat_ofNat']
      omega
    · simp only [Option.filter_some, below, decide_false, Bool.false_eq_true, ↓reduceIte,
        Option.map_none, reduceCtorEq, Option.some.injEq, false_iff]
      omega

theorem parseU16_iff {s : Bytes} {n : UInt16} :
    parseU16 s = some n ↔ ∃ digits, (s = digits ∨ s = plus :: digits) ∧ digits ≠ [] ∧
      digitsValue 0 digits = some n.toNat := by
  cases s with
  | nil => simp [parseU16]
  | cons b rest =>
    rw [parseU16]
    split
    · rename_i sign
      obtain ⟨rfl, some⟩ := sign
      rw [u16_digits_iff]
      constructor
      · intro value
        exact ⟨rest, Or.inr rfl, some, value⟩
      · intro read
        obtain ⟨digits, rfl | same, -, value⟩ := read
        · exact absurd value plus_not_digits
        · cases same
          exact value
    · rename_i unsigned
      rw [u16_digits_iff]
      constructor
      · intro value
        exact ⟨b :: rest, Or.inl rfl, by simp, value⟩
      · intro read
        obtain ⟨digits, rfl | same, some, value⟩ := read
        · exact value
        · cases same
          exact absurd ⟨rfl, some⟩ unsigned

theorem parseUsize_bytes {s : Bytes} {n : Nat} (value : parseUsize s = some n) :
    ∀ b ∈ s, NumeralByte b := by
  intro b member
  cases s with
  | nil => simp at member
  | cons c rest =>
    simp only [parseUsize] at value
    split at value
    · rename_i sign
      rcases List.mem_cons.mp member with first | later
      · exact Or.inr (Or.inl (first.trans sign.1))
      · exact Or.inl (digitsValue_digits (Option.filter_eq_some_iff.mp value).1 b later)
    · exact Or.inl (digitsValue_digits (Option.filter_eq_some_iff.mp value).1 b member)

theorem parseI64_bytes {s : Bytes} {n : Int64} (value : parseI64 s = some n) :
    ∀ b ∈ s, NumeralByte b := by
  intro b member
  cases s with
  | nil => simp at member
  | cons c rest =>
    simp only [parseI64] at value
    split at value
    · rename_i sign
      obtain ⟨m, read, _⟩ := Option.map_eq_some_iff.mp value
      rcases List.mem_cons.mp member with first | later
      · exact Or.inr (Or.inr (first.trans sign.1))
      · exact Or.inl (digitsValue_digits (Option.filter_eq_some_iff.mp read).1 b later)
    · split at value
      · rename_i sign
        obtain ⟨m, read, _⟩ := Option.map_eq_some_iff.mp value
        rcases List.mem_cons.mp member with first | later
        · exact Or.inr (Or.inl (first.trans sign.1))
        · exact Or.inl (digitsValue_digits (Option.filter_eq_some_iff.mp read).1 b later)
      · obtain ⟨m, read, _⟩ := Option.map_eq_some_iff.mp value
        exact Or.inl (digitsValue_digits (Option.filter_eq_some_iff.mp read).1 b member)

theorem numeral_byte_ascii {b : UInt8} (h : NumeralByte b) : b.toNat < 0x3a := by
  rcases h with digit | sign | sign
  · rw [is_digit_iff] at digit
    omega
  · subst sign
    decide
  · subst sign
    decide

theorem parseUsize_lt {s : Bytes} {n : Nat} (value : parseUsize s = some n) : n < 2 ^ 64 := by
  cases s with
  | nil => simp [parseUsize] at value
  | cons b rest =>
    simp only [parseUsize] at value
    split at value <;> simpa using (Option.filter_eq_some_iff.mp value).2

theorem digitsValue_last {init : Bytes} {b : UInt8} {acc n : Nat}
    (value : digitsValue acc (init ++ [b]) = some n) : n % 10 = b.toNat - 0x30 := by
  induction init generalizing acc with
  | nil =>
    simp only [List.nil_append, digitsValue] at value
    split at value
    · rename_i digit
      rw [is_digit_iff] at digit
      have := Option.some.inj value
      omega
    · simp at value
  | cons c rest ih =>
    simp only [List.cons_append, digitsValue] at value
    split at value
    · exact ih value
    · simp at value

def zeroDigit : UInt8 := 0x30

theorem digitsValue_zeros (zeros : Nat) (s : Bytes) :
    digitsValue 0 (List.replicate zeros zeroDigit ++ s) = digitsValue 0 s := by
  induction zeros with
  | zero => simp
  | succ zeros ih =>
    rw [List.replicate_succ, List.cons_append]
    simpa [digitsValue, zeroDigit, isDigit] using ih

theorem digits_of_bytes {s : Bytes} (digits : ∀ b ∈ s, isDigit b = true) :
    ∃ ds : List Nat, s = ds.map digitByte ∧ ∀ d ∈ ds, d < 10 := by
  refine ⟨s.map fun b => b.toNat - 0x30, ?_, ?_⟩
  · rw [List.map_map]
    symm
    apply (List.map_congr_left ?_).trans (List.map_id s)
    intro b member
    have range := (is_digit_iff b).mp (digits b member)
    rw [← UInt8.toNat_inj, Function.comp_apply, digitByte_toNat (by omega), id_eq]
    omega
  · intro d member
    obtain ⟨b, inside, rfl⟩ := List.mem_map.mp member
    have range := (is_digit_iff b).mp (digits b inside)
    omega

theorem decimal_of_leading {d : Nat} {ds : List Nat} (nonzero : d ≠ 0)
    (small : ∀ x ∈ d :: ds, x < 10) :
    decimal ((d :: ds).foldl (fun a d => a * 10 + d) 0) = (d :: ds).map digitByte := by
  have back : Nat.digits 10 (Nat.ofDigits 10 (d :: ds).reverse) = (d :: ds).reverse := by
    apply Nat.digits_ofDigits 10 (by decide)
    · intro x member
      exact small x (List.mem_reverse.mp member)
    · intro nonempty
      simpa using nonzero
  have positive : Nat.ofDigits 10 (d :: ds).reverse ≠ 0 := by
    intro zero
    rw [zero] at back
    simp at back
  rw [foldl_eq_ofDigits, decimal, if_neg positive, back, List.reverse_reverse]

theorem digitsValue_iff {s : Bytes} {n : Nat} (nonempty : s ≠ []) :
    digitsValue 0 s = some n ↔ ∃ zeros, s = List.replicate zeros zeroDigit ++ decimal n := by
  constructor
  · intro value
    induction s with
    | nil => exact absurd rfl nonempty
    | cons b rest ih =>
      obtain ⟨ds, same, small⟩ := digits_of_bytes (digitsValue_digits value)
      cases ds with
      | nil => simp at same
      | cons d ds =>
        have read : digitsValue 0 (b :: rest) = some n := value
        by_cases zero : d = 0
        · obtain ⟨first, tail⟩ := List.cons.inj same
          rw [zero] at first
          have isZero : b = zeroDigit := first
          subst isZero
          by_cases last : rest = []
          · subst last
            have none : n = 0 := by simpa [digitsValue, zeroDigit, isDigit, eq_comm] using read
            subst none
            exact ⟨0, by decide⟩
          · have later : digitsValue 0 rest = some n := by
              simpa [digitsValue, zeroDigit, isDigit] using read
            obtain ⟨zeros, shape⟩ := ih last later
            exact ⟨zeros + 1, by rw [List.replicate_succ, List.cons_append, ← shape]⟩
        · rw [same, digitsValue_map _ small] at read
          obtain rfl := Option.some.inj read
          exact ⟨0, by rw [same, decimal_of_leading zero small]; simp⟩
  · intro both
    obtain ⟨zeros, rfl⟩ := both
    rw [digitsValue_zeros, digitsValue_decimal]

def SignFor (n : Int) (sign : Bytes) : Prop :=
  (0 ≤ n ∧ (sign = [] ∨ sign = [plus])) ∨ (n ≤ 0 ∧ sign = [minus])

theorem numeral_ne_nil (zeros n : Nat) : List.replicate zeros zeroDigit ++ decimal n ≠ [] := by
  simp [decimal_ne_nil]

theorem numeral_digits (zeros n : Nat) :
    ∀ b ∈ List.replicate zeros zeroDigit ++ decimal n, isDigit b = true := by
  intro b member
  rcases List.mem_append.mp member with zero | digit
  · rw [(List.mem_replicate.mp zero).2]
    decide
  · exact decimal_digits n b digit

theorem parseUsize_digit_iff {c : UInt8} {raw : Bytes} {n : Nat} (first : isDigit c = true) :
    parseUsize (c :: raw) = some n ↔
      n < 2 ^ 64 ∧ ∃ zeros, c :: raw = List.replicate zeros zeroDigit ++ decimal n := by
  rw [parseUsize_of_digit first, Option.filter_eq_some_iff, digitsValue_iff (by simp),
    decide_eq_true_eq, and_comm]

theorem numeral_of_read {α : Type} {s : Bytes} {bound : Nat → Bool} {f : Nat → α} {a : α}
    (nonempty : s ≠ []) (parsed : ((digitsValue 0 s).filter bound).map f = some a) :
    ∃ m zeros, bound m = true ∧ f m = a ∧ s = List.replicate zeros zeroDigit ++ decimal m := by
  obtain ⟨m, read, same⟩ := Option.map_eq_some_iff.mp parsed
  obtain ⟨value, small⟩ := Option.filter_eq_some_iff.mp read
  obtain ⟨zeros, shape⟩ := (digitsValue_iff nonempty).mp value
  exact ⟨m, zeros, small, same, shape⟩

theorem unsigned_of_read {s : Bytes} {n : Int64} (nonempty : s ≠ [])
    (parsed : ((digitsValue 0 s).filter (· < 2 ^ 63)).map (fun m : Nat => Int64.ofInt (m : Int)) =
      some n) :
    ∃ zeros, 0 ≤ n.toInt ∧ s = List.replicate zeros zeroDigit ++ decimal n.toInt.natAbs := by
  obtain ⟨m, zeros, small, rfl, shape⟩ := numeral_of_read nonempty parsed
  rw [decide_eq_true_eq] at small
  have exact : (Int64.ofInt (m : Int)).toInt = m :=
    Int64.toInt_ofInt_of_le (by omega) (by omega)
  refine ⟨zeros, by omega, ?_⟩
  rw [exact, Int.natAbs_natCast]
  exact shape

theorem signed_of_parseI64 {raw : Bytes} {n : Int64} (parsed : parseI64 raw = some n) :
    ∃ sign zeros, SignFor n.toInt sign ∧
      raw = sign ++ (List.replicate zeros zeroDigit ++ decimal n.toInt.natAbs) := by
  cases raw with
  | nil => simp [parseI64] at parsed
  | cons b rest =>
    simp only [parseI64] at parsed
    split_ifs at parsed with negative positive
    · obtain ⟨m, zeros, small, rfl, shape⟩ := numeral_of_read negative.2 parsed
      rw [decide_eq_true_eq] at small
      have exact : (Int64.ofInt (-(m : Int))).toInt = -m :=
        Int64.toInt_ofInt_of_le (by omega) (by omega)
      refine ⟨[minus], zeros, Or.inr ⟨by omega, rfl⟩, ?_⟩
      rw [exact, Int.natAbs_neg, Int.natAbs_natCast, ← shape, negative.1]
      rfl
    · obtain ⟨zeros, nonneg, shape⟩ := unsigned_of_read positive.2 parsed
      refine ⟨[plus], zeros, Or.inl ⟨nonneg, Or.inr rfl⟩, ?_⟩
      rw [← shape, positive.1]
      rfl
    · obtain ⟨zeros, nonneg, shape⟩ := unsigned_of_read (by simp) parsed
      refine ⟨[], zeros, Or.inl ⟨nonneg, Or.inl rfl⟩, ?_⟩
      rw [← shape]
      rfl

theorem parseI64_of_signed {sign : Bytes} {n : Int64} (zeros : Nat)
    (signed : SignFor n.toInt sign) :
    parseI64 (sign ++ (List.replicate zeros zeroDigit ++ decimal n.toInt.natAbs)) = some n := by
  have low := n.le_toInt
  have high := n.toInt_lt
  have value := (digitsValue_iff (numeral_ne_nil zeros n.toInt.natAbs)).mpr ⟨zeros, rfl⟩
  have nonempty := numeral_ne_nil zeros n.toInt.natAbs
  have digits := numeral_digits zeros n.toInt.natAbs
  generalize List.replicate zeros zeroDigit ++ decimal n.toInt.natAbs = s at value nonempty digits ⊢
  rcases signed with ⟨nonneg, rfl | rfl⟩ | ⟨nonpos, rfl⟩
  · have bound : n.toInt.natAbs < 2 ^ 63 := by omega
    have back : ((n.toInt.natAbs : Nat) : Int) = n.toInt := by omega
    cases s with
    | nil => exact absurd rfl nonempty
    | cons b rest =>
      rw [List.nil_append, parseI64_of_digit (digits b (by simp)), value]
      simp only [Option.filter_some, decide_eq_true bound, ↓reduceIte, Option.map_some, back,
        Int64.ofInt_toInt]
  · have bound : n.toInt.natAbs < 2 ^ 63 := by omega
    have back : ((n.toInt.natAbs : Nat) : Int) = n.toInt := by omega
    have notMinus : plus ≠ minus := by decide
    simp only [List.singleton_append, parseI64, notMinus, nonempty, ne_eq, not_false_eq_true,
      and_self, false_and, ↓reduceIte, value, Option.filter_some, decide_eq_true bound,
      Option.map_some, back, Int64.ofInt_toInt]
  · have bound : n.toInt.natAbs ≤ 2 ^ 63 := by omega
    have back : -((n.toInt.natAbs : Nat) : Int) = n.toInt := by omega
    simp only [List.singleton_append, parseI64, nonempty, ne_eq, not_false_eq_true, and_self,
      ↓reduceIte, value, Option.filter_some, decide_eq_true bound, Option.map_some, back,
      Int64.ofInt_toInt]

theorem parseI64_iff {raw : Bytes} {n : Int64} :
    parseI64 raw = some n ↔ ∃ sign zeros, SignFor n.toInt sign ∧
      raw = sign ++ (List.replicate zeros zeroDigit ++ decimal n.toInt.natAbs) := by
  constructor
  · exact signed_of_parseI64
  · intro parts
    obtain ⟨sign, zeros, signed, rfl⟩ := parts
    exact parseI64_of_signed zeros signed

theorem digitsValue_le {s : Bytes} {acc n : Nat} (value : digitsValue acc s = some n) :
    acc ≤ n := by
  induction s generalizing acc with
  | nil => exact (Option.some.inj value).le
  | cons b rest ih =>
    simp only [digitsValue] at value
    split at value
    · have := ih value
      omega
    · cases value

theorem digitsValue_prefix {raw more : Bytes} {acc n : Nat}
    (value : digitsValue acc (raw ++ more) = some n) :
    ∃ m, digitsValue acc raw = some m ∧ m ≤ n := by
  induction raw generalizing acc with
  | nil => exact ⟨acc, rfl, digitsValue_le value⟩
  | cons b rest ih =>
    simp only [List.cons_append, digitsValue] at value ⊢
    split at value
    · rename_i digit
      rw [if_pos digit]
      exact ih value
    · cases value

theorem read_begun {α : Type} {bound : Nat → Bool} {f : Nat → α} {raw more : Bytes} {a : α}
    (down : ∀ m n, m ≤ n → bound n = true → bound m = true)
    (read : ((digitsValue 0 (raw ++ more)).filter bound).map f = some a) :
    ∃ b, ((digitsValue 0 raw).filter bound).map f = some b := by
  obtain ⟨n, kept, rfl⟩ := Option.map_eq_some_iff.mp read
  obtain ⟨value, small⟩ := Option.filter_eq_some_iff.mp kept
  obtain ⟨m, cut, le⟩ := digitsValue_prefix value
  exact ⟨f m, by rw [cut, Option.filter_some_pos (down m n le small)]; rfl⟩

theorem parseUsize_prefix {c : UInt8} {raw more : Bytes} {n : Nat} (first : isDigit c = true)
    (read : parseUsize (c :: raw ++ more) = some n) : ∃ m, parseUsize (c :: raw) = some m := by
  rw [List.cons_append, parseUsize_of_digit first, ← List.cons_append] at read
  rw [parseUsize_of_digit first]
  have down : ∀ m n : Nat, m ≤ n → decide (n < 2 ^ 64) = true → decide (m < 2 ^ 64) = true := by
    simp only [decide_eq_true_eq]
    omega
  obtain ⟨m, kept⟩ := read_begun (f := id) down (by rw [Option.map_id]; exact read)
  exact ⟨m, by rwa [Option.map_id] at kept⟩

def Unbegun (raw : Bytes) : Prop := raw = [] ∨ raw = [minus] ∨ raw = [plus]

theorem parseI64_prefix {raw more : Bytes} {n : Int64} (read : parseI64 (raw ++ more) = some n) :
    (∃ m, parseI64 raw = some m) ∨ Unbegun raw := by
  have down : ∀ m n : Nat, m ≤ n → decide (n < 2 ^ 63) = true → decide (m < 2 ^ 63) = true := by
    simp only [decide_eq_true_eq]
    omega
  have down' : ∀ m n : Nat, m ≤ n → decide (n ≤ 2 ^ 63) = true → decide (m ≤ 2 ^ 63) = true := by
    simp only [decide_eq_true_eq]
    omega
  cases raw with
  | nil => exact Or.inr (Or.inl rfl)
  | cons b rest =>
    cases rest with
    | nil =>
      by_cases sign : b = minus ∨ b = plus
      · exact Or.inr (Or.inr (by simpa using sign))
      · left
        simp only [not_or] at sign
        simp only [List.cons_append, List.nil_append, parseI64, sign.1, sign.2, false_and,
          ↓reduceIte] at read ⊢
        exact @read_begun _ _ _ [b] _ _ down read
    | cons c rest =>
      left
      simp only [List.cons_append, parseI64, ne_eq, reduceCtorEq, not_false_eq_true,
        and_true] at read ⊢
      simp only [← List.cons_append] at read
      split_ifs at read ⊢
      · exact read_begun down' read
      · exact read_begun down read
      · exact read_begun down read

theorem decimal_length {n k : Nat} (positive : 0 < k) (small : n < 10 ^ k) :
    (decimal n).length ≤ k := by
  unfold decimal
  split
  · exact positive
  · rw [List.length_map, List.length_reverse]
    exact (Nat.digits_length_le_iff (by decide) n).mpr small

end Numerals
