import Mathlib.Data.List.Induction

/- Writes of blocks into a buffer of fixed size. Each place of the buffer holds what the last
   write over it put there. -/
namespace BufferWrites
variable {α : Type}

structure Write (α : Type) where
  start : Nat
  block : List α
  deriving DecidableEq, Repr

def Write.Fits (w : Write α) (size : Nat) : Prop := w.start + w.block.length ≤ size

def Write.covers (w : Write α) (i : Nat) : Bool :=
  w.start ≤ i && i < w.start + w.block.length

def overwrite (buf : List α) (w : Write α) : List α :=
  buf.take w.start ++ w.block ++ buf.drop (w.start + w.block.length)

def overwriteAll (buf : List α) (writes : List (Write α)) : List α := writes.foldl overwrite buf

def lastWritten (buf : List α) (writes : List (Write α)) (i : Nat) : Option α :=
  match (writes.filter fun w => w.covers i).getLast? with
  | some w => w.block[i - w.start]?
  | none => buf[i]?

theorem covers_iff {w : Write α} {i : Nat} :
    w.covers i = true ↔ w.start ≤ i ∧ i < w.start + w.block.length := by
  simp [Write.covers]

@[simp] theorem overwrite_length {buf : List α} {w : Write α} (fits : w.Fits buf.length) :
    (overwrite buf w).length = buf.length := by
  unfold Write.Fits at fits
  simp only [overwrite, List.length_append, List.length_take, List.length_drop]
  omega

theorem overwrite_behind (front behind : List α) {start : Nat} (block : List α)
    (settled : front.length = start) :
    overwrite (front ++ behind) ⟨start, block⟩ =
      front ++ block ++ behind.drop block.length := by
  subst settled
  simp [overwrite, List.drop_append]

theorem overwrite_inside {buf : List α} {w : Write α} {i : Nat} (fits : w.Fits buf.length)
    (covered : w.covers i = true) : (overwrite buf w)[i]? = w.block[i - w.start]? := by
  obtain ⟨above, below⟩ := covers_iff.mp covered
  unfold Write.Fits at fits
  have size : (buf.take w.start).length = w.start := by
    rw [List.length_take]
    omega
  rw [overwrite, List.append_assoc, List.getElem?_append_right (by omega), size,
    List.getElem?_append_left (by omega)]

theorem overwrite_outside {buf : List α} {w : Write α} {i : Nat} (fits : w.Fits buf.length)
    (uncovered : w.covers i = false) : (overwrite buf w)[i]? = buf[i]? := by
  unfold Write.Fits at fits
  have size : (buf.take w.start).length = w.start := by
    rw [List.length_take]
    omega
  by_cases before : i < w.start
  · rw [overwrite, List.append_assoc, List.getElem?_append_left (by omega),
      List.getElem?_take_of_lt before]
  · have behind : w.start + w.block.length ≤ i := by
      by_contra inside
      rw [covers_iff.mpr ⟨by omega, by omega⟩] at uncovered
      cases uncovered
    have both : (buf.take w.start ++ w.block).length = w.start + w.block.length := by
      rw [List.length_append, size]
    rw [overwrite, List.getElem?_append_right (by omega), both, List.getElem?_drop,
      Nat.add_sub_cancel' behind]

theorem overwriteAll_snoc (buf : List α) (writes : List (Write α)) (w : Write α) :
    overwriteAll buf (writes ++ [w]) = overwrite (overwriteAll buf writes) w := by
  simp [overwriteAll]

theorem overwriteAll_length {buf : List α} {writes : List (Write α)}
    (fits : ∀ w ∈ writes, w.Fits buf.length) : (overwriteAll buf writes).length = buf.length := by
  induction writes using List.reverseRecOn with
  | nil => rfl
  | append_singleton writes w ih =>
    have size := ih fun w' member => fits w' (List.mem_append_left _ member)
    rw [overwriteAll_snoc, overwrite_length (by rw [size]; exact fits w (by simp)), size]

theorem overwriteAll_last {buf : List α} {writes : List (Write α)} (i : Nat)
    (fits : ∀ w ∈ writes, w.Fits buf.length) :
    (overwriteAll buf writes)[i]? = lastWritten buf writes i := by
  -- from the back: the last write decides where it reaches, and nowhere else
  induction writes using List.reverseRecOn with
  | nil => rfl
  | append_singleton writes w ih =>
    have earlier : ∀ w' ∈ writes, w'.Fits buf.length :=
      fun w' member => fits w' (List.mem_append_left _ member)
    have here : w.Fits (overwriteAll buf writes).length := by
      rw [overwriteAll_length earlier]
      exact fits w (by simp)
    rw [overwriteAll_snoc, lastWritten, List.filter_append]
    cases covered : w.covers i with
    | true => simp [overwrite_inside here covered, covered]
    | false => simp [overwrite_outside here covered, covered, ih earlier, lastWritten]

theorem overwriteAll_slices {buf whole : List α} {writes : List (Write α)}
    (size : buf.length = whole.length) (fits : ∀ w ∈ writes, w.Fits buf.length)
    (slices : ∀ w ∈ writes, w.block = (whole.drop w.start).take w.block.length)
    (covering : ∀ i, i < whole.length → ∃ w ∈ writes, w.covers i = true) :
    overwriteAll buf writes = whole := by
  apply List.ext_getElem?
  intro i
  rw [overwriteAll_last i fits, lastWritten]
  cases last : (writes.filter fun w => w.covers i).getLast? with
  | none =>
    have nobody := List.filter_eq_nil_iff.mp (List.getLast?_eq_none_iff.mp last)
    have past : whole.length ≤ i := by
      by_contra inside
      obtain ⟨w, member, covered⟩ := covering i (by omega)
      exact nobody w member covered
    simp only
    rw [List.getElem?_eq_none (by omega), List.getElem?_eq_none past]
  | some w =>
    obtain ⟨member, covered⟩ := List.mem_filter.mp (List.mem_of_getLast? last)
    obtain ⟨above, below⟩ := covers_iff.mp covered
    simp only
    rw [slices w member, List.getElem?_take_of_lt (by omega), List.getElem?_drop,
      Nat.add_sub_cancel' above]

end BufferWrites
