import Mathlib.Data.Nat.Bitwise
import RustyTorrent.Library.RustExec

/- The bitfield of src/peer/bitfield.rs: bit 7 of byte 0 is piece 0. -/
namespace PieceBitfield
open RustExec

variable {σ ε : Type}

structure Bitfield where
  data : Bytes
  numPieces : Nat
  deriving DecidableEq, Repr

namespace Bitfield

def new (p : Profile) (numPieces : Nat) : Exec σ ε Bitfield := do
  let sum ← usizeAdd p numPieces 7
  return ⟨List.replicate (sum / 8) 0, numPieces⟩

def fromBytes (data : Bytes) (numPieces : Nat) : Bitfield := ⟨data, numPieces⟩

/-- `1 << (7 - bit_index)` on a byte. The shift amount is checked as a number of 3 bits. -/
def mask (p : Profile) (index : Nat) : Exec σ ε UInt8 := do
  let bitIndex ← usizeSub p 7 (index % 8)
  let amount ← unsigned p 3 bitIndex
  return 1 <<< UInt8.ofNat amount

def hasPiece (p : Profile) (self : Bitfield) (index : Nat) : Exec σ ε Bool :=
  if index ≥ self.numPieces then return false
  else if index / 8 ≥ self.data.length then return false
  else do
    let byte ← RustExec.index self.data (index / 8)
    let bit ← mask p index
    return byte &&& bit ≠ 0

/-- `&mut self` as a new value. -/
def setPiece (p : Profile) (self : Bitfield) (index : Nat) : Exec σ ε Bitfield :=
  if index ≥ self.numPieces then return self
  else if index / 8 < self.data.length then do
    let byte ← RustExec.index self.data (index / 8)
    let bit ← mask p index
    return { self with data := self.data.set (index / 8) (byte ||| bit) }
  else return self

def clearPiece (p : Profile) (self : Bitfield) (index : Nat) : Exec σ ε Bitfield :=
  if index ≥ self.numPieces then return self
  else if index / 8 < self.data.length then do
    let byte ← RustExec.index self.data (index / 8)
    let bit ← mask p index
    return { self with data := self.data.set (index / 8) (byte &&& ~~~bit) }
  else return self

/-- The loop of count over the range of `remaining` pieces that starts at `i`. -/
def countLoop (p : Profile) (self : Bitfield) : (i remaining count : Nat) → Exec σ ε Nat
  | _, 0, count => return count
  | i, remaining + 1, count => do
      let has ← self.hasPiece p i
      if has then do
        let next ← usizeAdd p count 1
        countLoop p self (i + 1) remaining next
      else countLoop p self (i + 1) remaining count

def count (p : Profile) (self : Bitfield) : Exec σ ε Nat := countLoop p self 0 self.numPieces 0

end Bitfield

def bitOf (data : Bytes) (piece : Nat) : Bool :=
  (data[piece / 8]?).any fun byte => byte.toNat.testBit (7 - piece % 8)

variable {p : Profile}

theorem returns_new_wrapped {n : Nat} {s s' : σ} {out : Bitfield} :
    Returns (Bitfield.new p n : Exec σ ε Bitfield) s out s' ↔
      out = ⟨List.replicate ((n + 7) % 2 ^ 64 / 8) 0, n⟩ ∧ s' = s ∧
        (p = .debug → n + 7 < 2 ^ 64) := by
  have sum {m : Nat} {t : σ} : Returns (usizeAdd p n 7 : Exec σ ε Nat) s m t ↔
      t = s ∧ m = (n + 7) % 2 ^ 64 ∧ (p = .debug → n + 7 < 2 ^ 64) := returns_unsigned_nat
  rw [Bitfield.new, returns_bind]
  constructor
  · intro parts
    obtain ⟨m, t, add, run⟩ := parts
    obtain ⟨rfl, rfl, bound⟩ := sum.mp add
    obtain ⟨rfl, rfl⟩ := returns_pure.mp run
    exact ⟨rfl, rfl, bound⟩
  · intro parts
    obtain ⟨rfl, rfl, bound⟩ := parts
    exact ⟨_, _, sum.mpr ⟨rfl, rfl, bound⟩, returns_value _ _⟩

theorem returns_new {n : Nat} {s s' : σ} {out : Bitfield} (fits : n + 7 < 2 ^ 64) :
    Returns (Bitfield.new p n : Exec σ ε Bitfield) s out s' ↔
      out = ⟨List.replicate ((n + 7) / 8) 0, n⟩ ∧ s' = s := by
  rw [returns_new_wrapped, Nat.mod_eq_of_lt fits, and_iff_left (fun _ => fits)]

theorem new_state {n : Nat} {s s' : σ} {out : Bitfield}
    (run : Returns (Bitfield.new p n : Exec σ ε Bitfield) s out s') : s' = s :=
  (returns_new_wrapped.mp run).2.1

theorem new_overflows {n : Nat} {s s' : σ} {out : Bitfield} (exceeds : 2 ^ 64 ≤ n + 7) :
    ¬ Returns (Bitfield.new .debug n : Exec σ ε Bitfield) s out s' := by
  intro run
  have bound := (returns_new_wrapped.mp run).2.2 rfl
  omega

theorem returns_new_zeros {n : Nat} {s s' : σ} :
    Returns (Bitfield.new p n : Exec σ ε Bitfield) s ⟨List.replicate ((n + 7) / 8) 0, n⟩ s' ↔
      s' = s ∧ n + 7 < 2 ^ 64 := by
  constructor
  · intro run
    obtain ⟨same, state, -⟩ := returns_new_wrapped.mp run
    have lengths := congrArg (fun bitfield => bitfield.data.length) same
    simp only [List.length_replicate] at lengths
    exact ⟨state, by omega⟩
  · intro both
    obtain ⟨rfl, fits⟩ := both
    exact (returns_new fits).mpr ⟨rfl, rfl⟩

theorem new_not_waits {n : Nat} {s s' : σ} :
    ¬ Waits (Bitfield.new p n : Exec σ ε Bitfield) s s' := by
  intro waits
  rcases waits_bind waits with first | ⟨sum, middle, -, later⟩
  · exact unsigned_not_waits first
  · exact pure_not_waits later

theorem returns_mask {piece : Nat} {s s' : σ} {bit : UInt8} :
    Returns (Bitfield.mask p piece : Exec σ ε UInt8) s bit s' ↔
      bit = 1 <<< UInt8.ofNat (7 - piece % 8) ∧ s' = s := by
  have sub : Returns (usizeSub p 7 (piece % 8) : Exec σ ε Nat) s (7 - piece % 8) s :=
    (returns_usizeSub (by omega) (by omega)).mpr ⟨rfl, rfl⟩
  rw [Bitfield.mask, returns_bind_step sub, returns_unsigned_nat_bind (by omega), returns_pure]
  simp [eq_comm]

theorem mask_toNat {k : Nat} (small : k < 8) : ((1 : UInt8) <<< UInt8.ofNat k).toNat = 2 ^ k := by
  have bound : 2 ^ k < 2 ^ 8 := Nat.pow_lt_pow_right (by omega) small
  rw [UInt8.toNat_shiftLeft, UInt8.toNat_ofNat', UInt8.toNat_one, Nat.one_shiftLeft]
  have amount : k % 2 ^ 8 % 8 = k := by omega
  rw [amount, Nat.mod_eq_of_lt bound]

theorem and_mask_ne_zero {byte : UInt8} {k : Nat} (small : k < 8) :
    byte &&& (1 <<< UInt8.ofNat k) ≠ 0 ↔ byte.toNat.testBit k = true := by
  rw [ne_eq, ← UInt8.toNat_inj, UInt8.toNat_and, mask_toNat small, Nat.and_two_pow]
  cases byte.toNat.testBit k <;> simp

theorem or_mask_testBit {byte : UInt8} {j k : Nat} (small : k < 8) :
    (byte ||| (1 <<< UInt8.ofNat k)).toNat.testBit j = (byte.toNat.testBit j || k == j) := by
  rw [UInt8.toNat_or, mask_toNat small, Nat.testBit_or, Nat.testBit_two_pow]
  rfl

theorem and_not_mask_testBit {byte : UInt8} {j k : Nat} (small : k < 8) :
    (byte &&& ~~~(1 <<< UInt8.ofNat k)).toNat.testBit j =
      (byte.toNat.testBit j && !(k == j)) := by
  have bound : 2 ^ k < 2 ^ 8 := Nat.pow_lt_pow_right (by omega) small
  have flipped : (~~~((1 : UInt8) <<< UInt8.ofNat k)).toNat = 2 ^ 8 - (2 ^ k + 1) := by
    rw [UInt8.toNat_not, mask_toNat small]
    change 2 ^ 8 - 1 - 2 ^ k = 2 ^ 8 - (2 ^ k + 1)
    omega
  rw [UInt8.toNat_and, flipped, Nat.testBit_and, Nat.testBit_two_pow_sub_succ bound,
    Nat.testBit_two_pow]
  by_cases inside : j < 8
  · simp [inside, Bool.beq_eq_decide_eq]
  · have past : byte.toNat.testBit j = false :=
      Nat.testBit_lt_two_pow (byte.toNat_lt.trans_le (Nat.pow_le_pow_right (by omega) (by omega)))
    simp [past]

theorem returns_hasPiece {self : Bitfield} {piece : Nat} {s s' : σ} {has : Bool} :
    Returns (self.hasPiece p piece : Exec σ ε Bool) s has s' ↔
      has = (decide (piece < self.numPieces) && bitOf self.data piece) ∧ s' = s := by
  unfold Bitfield.hasPiece bitOf
  split
  · rename_i past
    rw [returns_pure, decide_eq_false (by omega)]
    simp [eq_comm]
  · rename_i known
    rw [decide_eq_true (by omega)]
    split
    · rename_i past
      rw [returns_pure, List.getElem?_eq_none past]
      simp [eq_comm]
    · rename_i inside
      rw [List.getElem?_eq_getElem (by omega), returns_index_bind]
      simp only [List.getElem?_eq_getElem (show piece / 8 < self.data.length by omega),
        Option.some.injEq, exists_eq_left', Option.any_some, Bool.true_and]
      rw [returns_bind_step (returns_mask.mpr ⟨rfl, rfl⟩), returns_pure]
      have bit : decide (self.data[piece / 8] &&& (1 <<< UInt8.ofNat (7 - piece % 8)) ≠ 0) =
          self.data[piece / 8].toNat.testBit (7 - piece % 8) := by
        rw [Bool.eq_iff_iff, decide_eq_true_iff]
        exact and_mask_ne_zero (by omega)
      rw [bit]
      simp [eq_comm]

def insertPiece (data : Bytes) (piece : Nat) : Bytes :=
  data.modify (piece / 8) fun byte => byte ||| (1 <<< UInt8.ofNat (7 - piece % 8))

theorem returns_update {self out : Bitfield} {piece : Nat} {s s' : σ}
    (merge : UInt8 → UInt8 → UInt8) :
    Returns (if piece ≥ self.numPieces then pure self
        else if piece / 8 < self.data.length then do
          let byte ← RustExec.index self.data (piece / 8)
          let bit ← Bitfield.mask p piece
          return { self with data := self.data.set (piece / 8) (merge byte bit) }
        else pure self : Exec σ ε Bitfield) s out s' ↔
      out = (if piece < self.numPieces then
          { self with
            data := self.data.modify (piece / 8) fun byte =>
              merge byte (1 <<< UInt8.ofNat (7 - piece % 8)) }
        else self) ∧ s' = s := by
  by_cases past : piece ≥ self.numPieces
  · rw [if_pos past, if_neg (not_lt.mpr past), returns_pure]
    simp [eq_comm]
  · rw [if_neg past, if_pos (not_le.mp past)]
    by_cases inside : piece / 8 < self.data.length
    · rw [if_pos inside, returns_index_bind]
      simp only [List.getElem?_eq_getElem inside, Option.some.injEq, exists_eq_left']
      rw [returns_bind_step (returns_mask.mpr ⟨rfl, rfl⟩), returns_pure, List.modify_eq_set,
        List.getElem?_eq_getElem inside]
      simp [eq_comm]
    · rw [if_neg inside, returns_pure, List.modify_eq_self (by omega), eq_comm]
      simp [eq_comm (a := s)]

theorem returns_setPiece {self out : Bitfield} {piece : Nat} {s s' : σ} :
    Returns (self.setPiece p piece : Exec σ ε Bitfield) s out s' ↔
      out = (if piece < self.numPieces then { self with data := insertPiece self.data piece }
        else self) ∧ s' = s :=
  returns_update fun byte bit => byte ||| bit

def removePiece (data : Bytes) (piece : Nat) : Bytes :=
  data.modify (piece / 8) fun byte => byte &&& ~~~(1 <<< UInt8.ofNat (7 - piece % 8))

theorem returns_clearPiece {self out : Bitfield} {piece : Nat} {s s' : σ} :
    Returns (self.clearPiece p piece : Exec σ ε Bitfield) s out s' ↔
      out = (if piece < self.numPieces then { self with data := removePiece self.data piece }
        else self) ∧ s' = s :=
  returns_update fun byte bit => byte &&& ~~~bit

@[simp] theorem insertPiece_length (data : Bytes) (piece : Nat) :
    (insertPiece data piece).length = data.length := by
  simp [insertPiece]

@[simp] theorem removePiece_length (data : Bytes) (piece : Nat) :
    (removePiece data piece).length = data.length := by
  simp [removePiece]

theorem bitOf_modify {data : Bytes} {piece other : Nat} (alter : UInt8 → UInt8)
    (inside : piece / 8 < data.length) :
    bitOf (data.modify (piece / 8) alter) other =
      if piece / 8 = other / 8 then
        (data[piece / 8]?).any fun byte => (alter byte).toNat.testBit (7 - other % 8)
      else bitOf data other := by
  unfold bitOf
  rw [List.getElem?_modify]
  by_cases same : piece / 8 = other / 8
  · rw [← same, List.getElem?_eq_getElem inside]
    simp
  · simp [same]

theorem bitOf_insertPiece {data : Bytes} {piece other : Nat} (inside : piece / 8 < data.length) :
    bitOf (insertPiece data piece) other = (bitOf data other || piece == other) := by
  rw [insertPiece, bitOf_modify _ inside]
  by_cases same : piece / 8 = other / 8
  · rw [if_pos same, List.getElem?_eq_getElem inside, bitOf, ← same,
      List.getElem?_eq_getElem inside]
    simp only [Option.any_some]
    rw [or_mask_testBit (by omega)]
    congr 1
    rw [Bool.eq_iff_iff, beq_iff_eq, beq_iff_eq]
    omega
  · have ne : piece ≠ other := fun h => same (by rw [h])
    simp [same, ne]

theorem bitOf_removePiece {data : Bytes} {piece other : Nat} (inside : piece / 8 < data.length) :
    bitOf (removePiece data piece) other = (bitOf data other && !(piece == other)) := by
  rw [removePiece, bitOf_modify _ inside]
  by_cases same : piece / 8 = other / 8
  · rw [if_pos same, List.getElem?_eq_getElem inside, bitOf, ← same,
      List.getElem?_eq_getElem inside]
    simp only [Option.any_some]
    rw [and_not_mask_testBit (by omega)]
    congr 2
    rw [Bool.eq_iff_iff, beq_iff_eq, beq_iff_eq]
    omega
  · have ne : piece ≠ other := fun h => same (by rw [h])
    simp [same, ne]

theorem safe_mask (piece : Nat) (s : σ) : Safe (Bitfield.mask p piece : Exec σ ε UInt8) s := by
  apply safe_bind (safe_usizeSub s (by omega) (by omega))
  intro bitIndex s' sub
  obtain ⟨rfl, rfl⟩ := (returns_usizeSub (by omega) (by omega)).mp sub
  apply safe_bind (safe_unsigned _ (by omega))
  exact fun _ _ _ => safe_pure _ _

theorem safe_hasPiece (self : Bitfield) (piece : Nat) (s : σ) :
    Safe (self.hasPiece p piece : Exec σ ε Bool) s := by
  unfold Bitfield.hasPiece
  split
  · exact safe_pure _ _
  · split
    · exact safe_pure _ _
    · refine safe_bind (safe_index s (by omega)) fun _ _ _ => ?_
      exact safe_bind (safe_mask _ _) fun _ _ _ => safe_pure _ _

theorem safe_update {self : Bitfield} {piece : Nat} (merge : UInt8 → UInt8 → UInt8) (s : σ) :
    Safe (if piece ≥ self.numPieces then pure self
        else if piece / 8 < self.data.length then do
          let byte ← RustExec.index self.data (piece / 8)
          let bit ← Bitfield.mask p piece
          return { self with data := self.data.set (piece / 8) (merge byte bit) }
        else pure self : Exec σ ε Bitfield) s := by
  split
  · exact safe_pure _ _
  · split
    · rename_i inside
      refine safe_bind (safe_index s inside) fun _ _ _ => ?_
      exact safe_bind (safe_mask _ _) fun _ _ _ => safe_pure _ _
    · exact safe_pure _ _

theorem safe_setPiece (self : Bitfield) (piece : Nat) (s : σ) :
    Safe (self.setPiece p piece : Exec σ ε Bitfield) s :=
  safe_update (fun byte bit => byte ||| bit) s

theorem safe_clearPiece (self : Bitfield) (piece : Nat) (s : σ) :
    Safe (self.clearPiece p piece : Exec σ ε Bitfield) s :=
  safe_update (fun byte bit => byte &&& ~~~bit) s

theorem bitOf_replicate_zero (n piece : Nat) : bitOf (List.replicate n 0) piece = false := by
  unfold bitOf
  rw [List.getElem?_replicate]
  split <;> simp

end PieceBitfield
