import Mathlib.Data.List.Basic
import Mathlib.Logic.Equiv.Defs

/- The pieces of a list that all have one length, from left to right. What is left at the
   end and is shorter is dropped, as Rust's `chunks_exact` does. -/
namespace ExactChunks

variable {α : Type} {k : Nat}

def takeChunks (k : Nat) : Nat → List α → List (Vector α k)
  | 0, _ => []
  | count + 1, data =>
      if enough : k ≤ data.length then
        ⟨(data.take k).toArray, by simp [enough]⟩ :: takeChunks k count (data.drop k)
      else []

def chunksExact (k : Nat) (data : List α) : List (Vector α k) :=
  takeChunks k (data.length / k) data

theorem chunks_of_short {data : List α} (short : data.length < k) : chunksExact k data = [] := by
  simp [chunksExact, Nat.div_eq_of_lt short, takeChunks]

theorem chunks_append (positive : 0 < k) (chunk : Vector α k) (rest : List α) :
    chunksExact k (chunk.toList ++ rest) = chunk :: chunksExact k rest := by
  have count : (chunk.toList ++ rest).length / k = rest.length / k + 1 := by
    rw [List.length_append, Vector.length_toList, Nat.add_comm, Nat.add_div_right _ positive]
  have later : (chunk.toList ++ rest).drop k = rest := List.drop_left' chunk.length_toList
  have enough : k ≤ (chunk.toList ++ rest).length := by simp
  unfold chunksExact
  rw [count, takeChunks, dif_pos enough, later]
  congr 1
  rw [← Vector.toList_inj]
  simp

theorem chunk_induction {motive : List α → Prop} (positive : 0 < k)
    (short : ∀ data, data.length < k → motive data)
    (step : ∀ (chunk : Vector α k) rest, motive rest → motive (chunk.toList ++ rest))
    (data : List α) : motive data := by
  induction h : data.length using Nat.strongRecOn generalizing data with
  | ind n ih =>
    by_cases few : data.length < k
    · exact short data few
    · have size : (data.take k).toArray.size = k := by
        simp only [List.size_toArray, List.length_take]
        omega
      have rest := ih (data.drop k).length (by simp only [List.length_drop]; omega) _ rfl
      have whole := step ⟨(data.take k).toArray, size⟩ (data.drop k) rest
      simpa using whole

theorem drop_after_chunk (chunk : Vector α k) (rest : List α) (i : Nat) :
    (chunk.toList ++ rest).drop (k * (i + 1)) = rest.drop (k * i) := by
  rw [Nat.mul_add, Nat.mul_one, Nat.add_comm, ← List.drop_drop,
    List.drop_left' chunk.length_toList]

theorem chunk_at_iff (positive : 0 < k) {data : List α} {chunk : Vector α k} :
    chunk ∈ chunksExact k data ↔
      ∃ i, k * i + k ≤ data.length ∧ (data.drop (k * i)).take k = chunk.toList := by
  induction data using chunk_induction positive with
  | short data short =>
    rw [chunks_of_short short]
    constructor
    · intro member
      cases member
    · intro whole
      obtain ⟨i, fits, -⟩ := whole
      omega
  | step first rest ih =>
    rw [chunks_append positive, List.mem_cons, ih]
    constructor
    · intro member
      rcases member with here | ⟨i, fits, same⟩
      · subst here
        exact ⟨0, by simp, by simp⟩
      · refine ⟨i + 1, ?_, by rw [drop_after_chunk, same]⟩
        rw [List.length_append, Vector.length_toList, Nat.mul_add]
        omega
    · intro cut
      obtain ⟨i, fits, same⟩ := cut
      cases i with
      | zero =>
        left
        rw [← Vector.toList_inj, ← same]
        simp
      | succ i =>
        rw [List.length_append, Vector.length_toList, Nat.mul_add] at fits
        rw [drop_after_chunk] at same
        exact Or.inr ⟨i, by omega, same⟩

theorem chunks_flatMap (positive : 0 < k) (chunks : List (Vector α k)) :
    chunksExact k (chunks.flatMap Vector.toList) = chunks := by
  induction chunks with
  | nil => exact chunks_of_short positive
  | cons chunk rest ih => rw [List.flatMap_cons, chunks_append positive, ih]

theorem flatMap_chunks (positive : 0 < k) {data : List α} (whole : data.length % k = 0) :
    (chunksExact k data).flatMap Vector.toList = data := by
  induction data using chunk_induction positive with
  | short data short =>
    have none : data = [] := by
      apply List.eq_nil_of_length_eq_zero
      rw [← Nat.mod_eq_of_lt short, whole]
    rw [chunks_of_short short, none]
    rfl
  | step chunk rest ih =>
    have later : rest.length % k = 0 := by
      rw [List.length_append, Vector.length_toList, Nat.add_mod_left] at whole
      exact whole
    rw [chunks_append positive, List.flatMap_cons, ih later]

theorem length_flatMap_chunks (chunks : List (Vector α k)) :
    (chunks.flatMap Vector.toList).length = chunks.length * k := by
  induction chunks with
  | nil => simp
  | cons chunk rest ih =>
    rw [List.flatMap_cons, List.length_append, Vector.length_toList, ih, List.length_cons,
      Nat.succ_mul, Nat.add_comm]

section Records
variable {β : Type} (record : β ≃ Vector α k)

theorem records_fill (records : List β) :
    (records.flatMap fun r => (record r).toList).length % k = 0 := by
  have pieces : (records.flatMap fun r => (record r).toList) =
      (records.map record).flatMap Vector.toList := by rw [List.flatMap_map]
  rw [pieces, length_flatMap_chunks, Nat.mul_mod_left]

theorem chunks_of_records (positive : 0 < k) (records : List β) :
    (chunksExact k (records.flatMap fun r => (record r).toList)).map record.symm = records := by
  have pieces : (records.flatMap fun r => (record r).toList) =
      (records.map record).flatMap Vector.toList := by rw [List.flatMap_map]
  rw [pieces, chunks_flatMap positive, List.map_map]
  simp

theorem records_of_chunks (positive : 0 < k) {data : List α} (whole : data.length % k = 0) :
    (((chunksExact k data).map record.symm).flatMap fun r => (record r).toList) = data := by
  rw [List.flatMap_map]
  simpa using flatMap_chunks positive whole

end Records

end ExactChunks
