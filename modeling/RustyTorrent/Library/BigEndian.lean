import Mathlib.Data.List.Induction
import RustyTorrent.Library.RustExec

/- Unsigned numbers of a fixed width, with the most significant byte first. -/
namespace BigEndian
open RustExec

def toBe : (width : Nat) → Nat → Bytes
  | 0, _ => []
  | width + 1, n => toBe width (n / 256) ++ [UInt8.ofNat n]

def ofBe (bytes : Bytes) : Nat := bytes.foldl (fun n byte => n * 256 + byte.toNat) 0

@[simp] theorem toBe_length (width n : Nat) : (toBe width n).length = width := by
  induction width generalizing n with
  | zero => rfl
  | succ width ih => simp [toBe, ih]

theorem ofBe_concat (bytes : Bytes) (byte : UInt8) :
    ofBe (bytes ++ [byte]) = ofBe bytes * 256 + byte.toNat := by
  simp [ofBe]

theorem ofBe_toBe {width n : Nat} (fits : n < 256 ^ width) : ofBe (toBe width n) = n := by
  induction width generalizing n with
  | zero =>
    have zero : n = 0 := by simpa using fits
    subst zero
    rfl
  | succ width ih =>
    rw [Nat.pow_succ] at fits
    have high := ih (n := n / 256) (by omega)
    rw [toBe, ofBe_concat, high, UInt8.toNat_ofNat']
    omega

theorem ofBe_lt (bytes : Bytes) : ofBe bytes < 256 ^ bytes.length := by
  induction bytes using List.reverseRec with
  | nil => simp [ofBe]
  | append_singleton bytes byte ih =>
    have small := byte.toNat_lt
    rw [ofBe_concat, List.length_append, List.length_singleton, Nat.pow_succ]
    omega

theorem toBe_ofBe (bytes : Bytes) : toBe bytes.length (ofBe bytes) = bytes := by
  induction bytes using List.reverseRec with
  | nil => rfl
  | append_singleton bytes byte ih =>
    have small := byte.toNat_lt
    have high : (ofBe bytes * 256 + byte.toNat) / 256 = ofBe bytes := by omega
    have low : UInt8.ofNat (ofBe bytes * 256 + byte.toNat) = byte := by
      rw [← UInt8.toNat_inj, UInt8.toNat_ofNat']
      omega
    rw [List.length_append, List.length_singleton, toBe, ofBe_concat, high, low, ih]

def beField (start width : Nat) (bytes : Bytes) : Nat := ofBe ((bytes.drop start).take width)

theorem beField_lt (start width : Nat) (bytes : Bytes) :
    beField start width bytes < 256 ^ width := by
  have bound := ofBe_lt ((bytes.drop start).take width)
  have short : ((bytes.drop start).take width).length ≤ width := by simp
  calc beField start width bytes < 256 ^ ((bytes.drop start).take width).length := bound
    _ ≤ 256 ^ width := Nat.pow_le_pow_right (by decide) short

theorem beField_take {start width n : Nat} (inside : start + width ≤ n) (bytes : Bytes) :
    beField start width (bytes.take n) = beField start width bytes := by
  rw [beField, beField, List.drop_take, List.take_take]
  congr 2
  omega

def be16 (high low : UInt8) : UInt16 := UInt16.ofNat (ofBe [high, low])

theorem be16_toNat (high low : UInt8) : (be16 high low).toNat = high.toNat * 256 + low.toNat := by
  have above := high.toNat_lt
  have below := low.toNat_lt
  simp only [be16, ofBe, List.foldl_cons, List.foldl_nil, UInt16.toNat_ofNat']
  omega

theorem be16_eq_zero {high low : UInt8} : be16 high low = 0 ↔ high = 0 ∧ low = 0 := by
  rw [← UInt16.toNat_inj, be16_toNat, ← UInt8.toNat_inj, ← UInt8.toNat_inj]
  simp

theorem toBe_be16 (high low : UInt8) : toBe 2 (be16 high low).toNat = [high, low] := by
  have same : (be16 high low).toNat = ofBe [high, low] := by
    rw [be16_toNat]
    simp [ofBe]
  rw [same]
  exact toBe_ofBe [high, low]

theorem be16_toBe (port : UInt16) :
    be16 (UInt8.ofNat (port.toNat / 256)) (UInt8.ofNat port.toNat) = port := by
  have fits := port.toNat_lt
  rw [← UInt16.toNat_inj, be16_toNat, UInt8.toNat_ofNat', UInt8.toNat_ofNat']
  omega

end BigEndian
