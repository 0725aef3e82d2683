import RustyTorrent.Library.Utf8Text

/- Slices of a `&str`. Offsets count bytes of UTF-8, and a slice that would cut a character
   panics, as one out of range does. -/
namespace StrSlices
open RustExec Utf8Text

variable {σ ε : Type}

def byteLength (s : List Char) : Nat := (s.map Char.utf8Size).sum

def cutBytes : Nat → List Char → Option (List Char × List Char)
  | 0, s => some ([], s)
  | _ + 1, [] => none
  | n + 1, c :: s =>
      if c.utf8Size ≤ n + 1 then
        (cutBytes (n + 1 - c.utf8Size) s).map fun parts => (c :: parts.1, parts.2)
      else none

/-- `&s[start..stop]` -/
def sliceStr (s : List Char) (start stop : Nat) : Exec σ ε (List Char) :=
  match cutBytes start s with
  | some (_, rest) =>
      match cutBytes (stop - start) rest with
      | some (inside, _) => if start ≤ stop then Exec.pure inside else panicWith .bounds
      | none => panicWith .bounds
  | none => panicWith .bounds

/-- `is_char_boundary` -/
def OnBoundary (s : List Char) (offset : Nat) : Prop :=
  ∃ before after, s = before ++ after ∧ byteLength before = offset

/-- `rfind`: the byte offset of the last such character. -/
def rfind (c : Char) : List Char → Option Nat
  | [] => none
  | d :: rest =>
      match rfind c rest with
      | some offset => some (d.utf8Size + offset)
      | none => if d = c then some 0 else none

@[simp] theorem byteLength_nil : byteLength [] = 0 := rfl

@[simp] theorem byteLength_cons (c : Char) (s : List Char) :
    byteLength (c :: s) = c.utf8Size + byteLength s := by
  simp [byteLength]

@[simp] theorem byteLength_append (s t : List Char) :
    byteLength (s ++ t) = byteLength s + byteLength t := by
  simp [byteLength]

theorem byteLength_eq_zero {s : List Char} : byteLength s = 0 ↔ s = [] := by
  cases s with
  | nil => simp
  | cons c s =>
    have positive := c.utf8Size_pos
    simp only [byteLength_cons, reduceCtorEq, iff_false]
    omega

theorem cutBytes_append (s t : List Char) : cutBytes (byteLength s) (s ++ t) = some (s, t) := by
  induction s with
  | nil => simp [cutBytes]
  | cons c s ih =>
    have positive := c.utf8Size_pos
    obtain ⟨n, size⟩ : ∃ n, c.utf8Size + byteLength s = n + 1 :=
      ⟨c.utf8Size + byteLength s - 1, by omega⟩
    have inside : c.utf8Size ≤ n + 1 := by omega
    have rest : n + 1 - c.utf8Size = byteLength s := by omega
    rw [byteLength_cons, size, List.cons_append, cutBytes, if_pos inside, rest, ih]
    rfl

theorem cutBytes_eq_some {n : Nat} {s before after : List Char} :
    cutBytes n s = some (before, after) ↔ s = before ++ after ∧ byteLength before = n := by
  constructor
  · intro cut
    induction s generalizing n before with
    | nil =>
      cases n with
      | zero =>
        cases cut
        exact ⟨rfl, rfl⟩
      | succ n => cases cut
    | cons c s ih =>
      cases n with
      | zero =>
        cases cut
        exact ⟨rfl, rfl⟩
      | succ n =>
        unfold cutBytes at cut
        split at cut
        · rename_i fits
          obtain ⟨parts, later, same⟩ := Option.map_eq_some_iff.mp cut
          cases same
          obtain ⟨rfl, rest⟩ := ih later
          refine ⟨rfl, ?_⟩
          rw [byteLength_cons, rest]
          omega
        · cases cut
  · intro both
    obtain ⟨rfl, rfl⟩ := both
    exact cutBytes_append before after

theorem sliceStr_behind {before after : List Char} {start stop : Nat}
    (atStart : byteLength before = start) (order : start ≤ stop) :
    (sliceStr (before ++ after) start stop : Exec σ ε (List Char)) =
      match cutBytes (stop - start) after with
      | some parts => pure parts.1
      | none => panicWith .bounds := by
  unfold sliceStr
  subst atStart
  simp only [cutBytes_append, order, ↓reduceIte]
  cases cutBytes (stop - byteLength before) after <;> rfl

theorem sliceStr_between (before inside after : List Char) :
    (sliceStr (before ++ (inside ++ after)) (byteLength before)
      (byteLength before + byteLength inside) : Exec σ ε (List Char)) = pure inside := by
  rw [sliceStr_behind rfl (Nat.le_add_right _ _), Nat.add_sub_cancel_left, cutBytes_append]

theorem returns_slice_start {s out : List Char} {stop : Nat} {u u' : σ} :
    Returns (sliceStr s 0 stop : Exec σ ε (List Char)) u out u' ↔
      (∃ rest, s = out ++ rest ∧ byteLength out = stop) ∧ u' = u := by
  have behind := @sliceStr_behind σ ε [] s 0 stop rfl (Nat.zero_le stop)
  rw [List.nil_append, Nat.sub_zero] at behind
  simp only [← cutBytes_eq_some]
  rw [behind]
  cases cutBytes stop s with
  | none => simp
  | some parts =>
    obtain ⟨before, after⟩ := parts
    simp [eq_comm]

theorem rfind_none {c : Char} {s : List Char} (absent : c ∉ s) : rfind c s = none := by
  induction s with
  | nil => rfl
  | cons d s ih =>
    rw [List.mem_cons, not_or] at absent
    simp [rfind, ih absent.2, Ne.symm absent.1]

theorem rfind_last {c : Char} {before after : List Char} (last : c ∉ after) :
    rfind c (before ++ c :: after) = some (byteLength before) := by
  induction before with
  | nil => simp [rfind, rfind_none last]
  | cons d before ih => simp [rfind, ih]

theorem byteLength_ascii {s : List Char} (ascii : ∀ c ∈ s, c.toNat < 128) :
    byteLength s = s.length := by
  induction s with
  | nil => rfl
  | cons c s ih =>
    have small : c.toNat < 128 := ascii c (by simp)
    have one : c.utf8Size = 1 := utf8Size_one.mpr small
    rw [byteLength_cons, one, ih fun x h => ascii x (by simp [h]), List.length_cons]
    omega

theorem onBoundary_ascii {s : List Char} {offset : Nat} (ascii : ∀ c ∈ s, c.toNat < 128)
    (inside : offset ≤ s.length) : OnBoundary s offset := by
  refine ⟨s.take offset, s.drop offset, (List.take_append_drop offset s).symm, ?_⟩
  rw [byteLength_ascii fun c member => ascii c (List.mem_of_mem_take member), List.length_take]
  omega

end StrSlices
