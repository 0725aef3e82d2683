import Mathlib.Order.CompletePartialOrder
import Mathlib.Order.SuccPred.IntervalSucc
import Mathlib.Data.Nat.SuccPred
import Mathlib.Order.Interval.Set.Disjoint

/- Half-open intervals between consecutive cuts of a linear order, and blocks of equal width
   that are cut from a length, the last of them short. -/
namespace Tilings

variable {α : Type*} [LinearOrder α] {cut : ℕ → α}

theorem disjoint_between (mono : Monotone cut) {i j : ℕ} (differ : i ≠ j) :
    Disjoint (Set.Ico (cut i) (cut (i + 1))) (Set.Ico (cut j) (cut (j + 1))) :=
  mono.pairwise_disjoint_on_Ico_succ differ

theorem covered_between (mono : Monotone cut) (n : ℕ) :
    ⋃ i ∈ Set.Iio n, Set.Ico (cut i) (cut (i + 1)) = Set.Ico (cut 0) (cut n) := by
  induction n with
  | zero => simp
  | succ n ih =>
    have last : Set.Iio (n + 1) = insert n (Set.Iio n) := by
      ext i
      simp only [Set.mem_Iio, Set.mem_insert_iff]
      omega
    rw [last, Set.biUnion_insert, ih, Set.union_comm]
    exact Set.Ico_union_Ico_eq_Ico (mono (Nat.zero_le n)) (mono (Nat.le_succ n))

def blockCut (width length i : ℕ) : ℕ := min (i * width) length

theorem blockCut_mono (width length : ℕ) : Monotone (blockCut width length) := by
  intro i j le
  exact min_le_min_right length (Nat.mul_le_mul_right width le)

theorem blockCut_inside {width length i : ℕ} (inside : i * width ≤ length) :
    blockCut width length i = i * width := min_eq_left inside

theorem blockCut_past {width length i : ℕ} (past : length ≤ i * width) :
    blockCut width length i = length := min_eq_right past

theorem blockCut_succ {width length i : ℕ} (inside : i * width ≤ length) :
    i * width + min width (length - i * width) = blockCut width length (i + 1) := by
  rw [blockCut, Nat.succ_mul]
  omega

end Tilings
