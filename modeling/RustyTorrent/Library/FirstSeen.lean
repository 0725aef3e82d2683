import Mathlib.Data.List.Basic
import Mathlib.Data.List.Induction
import Mathlib.Data.List.Nodup

/- Lists that are gathered without repeats: a value is pushed behind the others where it is
   not there yet, so each stands in the order in which it came first. -/
namespace FirstSeen
variable {α : Type} [DecidableEq α]

def pushNew (seen : List α) (x : α) : List α := if seen.contains x then seen else seen ++ [x]

def pushAll (seen xs : List α) : List α := xs.foldl pushNew seen

theorem pushNew_of_mem {seen : List α} {x : α} (there : x ∈ seen) : pushNew seen x = seen := by
  simp [pushNew, there]

theorem pushNew_of_not_mem {seen : List α} {x : α} (absent : x ∉ seen) :
    pushNew seen x = seen ++ [x] := by
  simp [pushNew, absent]

@[simp] theorem mem_pushNew {seen : List α} {x y : α} : y ∈ pushNew seen x ↔ y ∈ seen ∨ y = x := by
  by_cases there : x ∈ seen
  · rw [pushNew_of_mem there]
    constructor
    · exact Or.inl
    · intro known
      rcases known with old | rfl
      · exact old
      · exact there
  · simp [pushNew_of_not_mem there]

theorem pushNew_nodup {seen : List α} (distinct : seen.Nodup) (x : α) :
    (pushNew seen x).Nodup := by
  by_cases there : x ∈ seen
  · rwa [pushNew_of_mem there]
  · rw [pushNew_of_not_mem there, ← List.concat_eq_append]
    exact distinct.concat there

@[simp] theorem pushAll_nil (seen : List α) : pushAll seen [] = seen := rfl

theorem pushAll_cons (seen : List α) (x : α) (xs : List α) :
    pushAll seen (x :: xs) = pushAll (pushNew seen x) xs := rfl

theorem pushAll_append (seen xs ys : List α) :
    pushAll seen (xs ++ ys) = pushAll (pushAll seen xs) ys := List.foldl_append

theorem mem_pushAll {seen xs : List α} {y : α} : y ∈ pushAll seen xs ↔ y ∈ seen ∨ y ∈ xs := by
  induction xs generalizing seen with
  | nil => simp
  | cons x xs ih => rw [pushAll_cons, ih, mem_pushNew, List.mem_cons, or_assoc]

theorem pushAll_nodup {seen : List α} (distinct : seen.Nodup) (xs : List α) :
    (pushAll seen xs).Nodup := by
  induction xs generalizing seen with
  | nil => exact distinct
  | cons x xs ih => exact ih (pushNew_nodup distinct x)

theorem idxOf_concat_of_mem {xs : List α} {x z : α} (there : x ∈ xs) :
    (xs ++ [z]).idxOf x = xs.idxOf x := by
  rw [List.idxOf_append, if_pos there]

theorem idxOf_concat_self {xs : List α} {z : α} (absent : z ∉ xs) :
    (xs ++ [z]).idxOf z = xs.length := by
  rw [List.idxOf_append, if_neg absent, List.idxOf_cons_self, Nat.zero_add]

theorem before_concat_iff {xs : List α} {x y z : α} (absent : z ∉ xs) (left : x ∈ xs ++ [z])
    (right : y ∈ xs ++ [z]) :
    (xs ++ [z]).idxOf x < (xs ++ [z]).idxOf y ↔
      x ∈ xs ∧ (y ∈ xs → xs.idxOf x < xs.idxOf y) := by
  rw [List.mem_append, List.mem_singleton] at left right
  rcases left with left | rfl
  · rw [idxOf_concat_of_mem left]
    rcases right with right | rfl
    · rw [idxOf_concat_of_mem right]
      simp [left, right]
    · rw [idxOf_concat_self absent]
      simp [left, absent, List.idxOf_lt_length_of_mem left]
  · rw [idxOf_concat_self absent]
    have last : ¬ xs.length < (xs ++ [x]).idxOf y := by
      have inside := List.idxOf_lt_length_of_mem (List.mem_append.mpr
        (right.imp_right List.mem_singleton.mpr))
      rw [List.length_append, List.length_singleton] at inside
      omega
    simp [last, absent]

theorem pushAll_order (xs : List α) : ∀ x ∈ xs, ∀ y ∈ xs,
    ((pushAll [] xs).idxOf x < (pushAll [] xs).idxOf y ↔ xs.idxOf x < xs.idxOf y) := by
  induction xs using List.reverseRec with
  | nil =>
    intro x left
    cases left
  | append_singleton xs z ih =>
    intro x left y right
    have same : ∀ w, w ∈ pushAll [] xs ↔ w ∈ xs := by
      intro w
      simp [mem_pushAll]
    rw [pushAll_append, pushAll_cons, pushAll_nil]
    by_cases there : z ∈ xs
    · have known : ∀ w, w ∈ xs ++ [z] → w ∈ xs := by
        intro w member
        rcases List.mem_append.mp member with old | new
        · exact old
        · rw [List.mem_singleton.mp new]
          exact there
      rw [pushNew_of_mem ((same z).mpr there), idxOf_concat_of_mem (known x left),
        idxOf_concat_of_mem (known y right)]
      exact ih x (known x left) y (known y right)
    · have absent : z ∉ pushAll [] xs := fun member => there ((same z).mp member)
      have left' : x ∈ pushAll [] xs ++ [z] := by simpa [same] using left
      have right' : y ∈ pushAll [] xs ++ [z] := by simpa [same] using right
      rw [pushNew_of_not_mem absent, before_concat_iff absent left' right',
        before_concat_iff there left right, same, same]
      constructor
      · intro before
        obtain ⟨first, later⟩ := before
        exact ⟨first, fun second => (ih x first y second).mp (later second)⟩
      · intro before
        obtain ⟨first, later⟩ := before
        exact ⟨first, fun second => (ih x first y second).mpr (later second)⟩

end FirstSeen
