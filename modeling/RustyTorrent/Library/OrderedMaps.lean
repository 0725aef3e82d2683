import Mathlib.Order.Defs.LinearOrder
import Mathlib.Order.Lattice
import Mathlib.Algebra.Order.Ring.Int
import Mathlib.Data.List.Basic

/- Finite maps with a linearly ordered key, kept as one strictly ascending run of
   entries. The bound in the type makes an unsorted or repeated key unrepresentable,
   also where the map is nested in a recursive type. -/
namespace OrderedMaps

variable {K V : Type} [LinearOrder K]

def Above (low : Option K) (key : K) : Prop := ∀ l ∈ low, l < key

theorem above_none (key : K) : Above none key := by simp [Above]

theorem above_some {l key : K} : Above (some l) key ↔ l < key := by simp [Above]

inductive Entries (K V : Type) [LinearOrder K] : Option K → Type where
  | nil {low : Option K} : Entries K V low
  | cons {low : Option K} (key : K) (value : V) (above : Above low key)
      (rest : Entries K V (some key)) : Entries K V low

/-- An ordered map with unique keys, as Rust's BTreeMap is. -/
abbrev OrderedMap (K V : Type) [LinearOrder K] := Entries K V none

namespace Entries

def toList : {low : Option K} → Entries K V low → List (K × V)
  | _, .nil => []
  | _, .cons key value _ rest => (key, value) :: rest.toList

def get (key : K) : {low : Option K} → Entries K V low → Option V
  | _, .nil => none
  | _, .cons k v _ rest => if key = k then some v else rest.get key

def insert (key : K) (value : V) :
    {low : Option K} → Above low key → Entries K V low → Entries K V low
  | _, above, .nil => .cons key value above .nil
  | _, above, .cons k v hk rest =>
      if same : key = k then .cons k value hk rest
      else if before : key < k then .cons key value above (.cons k v (above_some.mpr before) rest)
      else .cons k v hk (rest.insert key value
        (above_some.mpr (lt_of_le_of_ne (not_lt.mp before) (Ne.symm same))))

end Entries

namespace OrderedMap

def empty : OrderedMap K V := .nil

def insert (key : K) (value : V) (map : OrderedMap K V) : OrderedMap K V :=
  Entries.insert key value (above_none key) map

/-- Insert the pairs from left to right, so that the last pair with a key wins. -/
def insertAll (map : OrderedMap K V) (pairs : List (K × V)) : OrderedMap K V :=
  pairs.foldl (fun m pair => m.insert pair.1 pair.2) map

def ofPairs (pairs : List (K × V)) : OrderedMap K V := insertAll empty pairs

end OrderedMap

open Entries OrderedMap

theorem entries_ext {low : Option K} {one other : Entries K V low}
    (same : one.toList = other.toList) : one = other := by
  induction one with
  | nil => cases other <;> simp_all [toList]
  | cons key value above rest ih =>
    cases other with
    | nil => simp [toList] at same
    | cons key' value' above' rest' =>
      simp only [toList, List.cons.injEq, Prod.mk.injEq] at same
      obtain ⟨⟨sameKey, sameValue⟩, sameRest⟩ := same
      subst sameKey sameValue
      rw [ih sameRest]

theorem keys_above {low : Option K} (entries : Entries K V low) :
    ∀ pair ∈ entries.toList, Above low pair.1 := by
  induction entries with
  | nil => simp [toList]
  | cons key value above rest ih =>
    intro pair member
    rcases List.mem_cons.mp member with first | later
    · subst pair
      exact above
    · intro l bound
      exact lt_trans (above l bound) (above_some.mp (ih pair later))

theorem to_list_sorted {low : Option K} (entries : Entries K V low) :
    entries.toList.Pairwise (fun a b => a.1 < b.1) := by
  induction entries with
  | nil => exact List.Pairwise.nil
  | cons key value above rest ih =>
    refine List.Pairwise.cons ?_ ih
    intro pair member
    exact above_some.mp (keys_above rest pair member)

theorem get_insert_same {low : Option K} (entries : Entries K V low) (key : K) (value : V)
    (above : Above low key) : (entries.insert key value above).get key = some value := by
  induction entries with
  | nil => simp [Entries.insert, Entries.get]
  | cons k v hk rest ih =>
    unfold Entries.insert
    split
    · rename_i same
      simp [Entries.get, same]
    · rename_i other
      split
      · simp [Entries.get]
      · simp [Entries.get, other, ih]

theorem get_insert_other {low : Option K} (entries : Entries K V low) {key asked : K}
    (value : V) (above : Above low key) (other : asked ≠ key) :
    (entries.insert key value above).get asked = entries.get asked := by
  induction entries with
  | nil => simp [Entries.insert, Entries.get, other]
  | cons k v hk rest ih =>
    unfold Entries.insert
    split
    · rename_i same
      subst same
      simp [Entries.get, other]
    · split
      · simp [Entries.get, other]
      · simp [Entries.get, ih]

theorem get_insert (map : OrderedMap K V) (key asked : K) (value : V) :
    (map.insert key value).get asked = if asked = key then some value else map.get asked := by
  split
  · rename_i same
    subst same
    exact get_insert_same map asked value _
  · rename_i other
    exact get_insert_other map value _ other

theorem get_eq_some_iff {low : Option K} (entries : Entries K V low) (key : K) (value : V) :
    entries.get key = some value ↔ (key, value) ∈ entries.toList := by
  induction entries with
  | nil => simp [Entries.get, toList]
  | cons k v above rest ih =>
    by_cases same : key = k
    · subst same
      simp only [Entries.get, ↓reduceIte, Option.some.injEq, toList, List.mem_cons,
        Prod.mk.injEq, true_and]
      constructor
      · intro h
        exact Or.inl h.symm
      · rintro (h | later)
        · exact h.symm
        · exact absurd (above_some.mp (keys_above rest _ later)) (lt_irrefl key)
    · simp [Entries.get, toList, same, ih]

theorem split_at_key {low : Option K} (entries : Entries K V low) {key : K} {value : V}
    (found : entries.get key = some value) :
    ∃ before after, entries.toList = before ++ (key, value) :: after ∧
      (∀ pair ∈ before, pair.1 < key) ∧ ∀ pair ∈ after, key < pair.1 := by
  have member := (get_eq_some_iff entries key value).mp found
  obtain ⟨before, after, split⟩ := List.append_of_mem member
  have sorted := to_list_sorted entries
  rw [split, List.pairwise_append, List.pairwise_cons] at sorted
  obtain ⟨_, ⟨later, _⟩, earlier⟩ := sorted
  exact ⟨before, after, split, fun pair h => earlier pair h (key, value) (by simp), later⟩

theorem insert_last {low : Option K} (entries : Entries K V low) (key : K) (value : V)
    (above : Above low key) (last : ∀ pair ∈ entries.toList, pair.1 < key) :
    (entries.insert key value above).toList = entries.toList ++ [(key, value)] := by
  induction entries with
  | nil => simp [Entries.insert, toList]
  | cons k v hk rest ih =>
    have lt : k < key := last (k, v) (by simp [toList])
    have rest_last : ∀ pair ∈ rest.toList, pair.1 < key := fun pair h =>
      last pair (by simp [toList, h])
    unfold Entries.insert
    rw [dif_neg (ne_of_gt lt), dif_neg (not_lt.mpr lt.le)]
    simp [toList, ih _ rest_last]

theorem insertAll_sorted (pairs : List (K × V)) (map : OrderedMap K V)
    (sorted : (map.toList ++ pairs).Pairwise (fun a b => a.1 < b.1)) :
    (map.insertAll pairs).toList = map.toList ++ pairs := by
  induction pairs generalizing map with
  | nil => simp [insertAll]
  | cons pair pairs ih =>
    have last : ∀ other ∈ map.toList, other.1 < pair.1 := fun other h =>
      (List.pairwise_append.mp sorted).2.2 other h pair (by simp)
    have step : (map.insert pair.1 pair.2).toList = map.toList ++ [pair] :=
      insert_last map pair.1 pair.2 (above_none _) last
    have rest := ih (map.insert pair.1 pair.2) (by simpa [step] using sorted)
    simpa [insertAll, step] using rest

theorem ofPairs_toList (map : OrderedMap K V) : ofPairs map.toList = map := by
  apply entries_ext
  exact insertAll_sorted map.toList empty (by simpa [empty, toList] using to_list_sorted map)

theorem insertAll_append (map : OrderedMap K V) (pairs more : List (K × V)) :
    map.insertAll (pairs ++ more) = (map.insertAll pairs).insertAll more := by
  simp [insertAll]

theorem sum_insert_le {low : Option K} (f : K × V → Nat) (entries : Entries K V low) (key : K)
    (value : V) (above : Above low key) :
    ((entries.insert key value above).toList.map f).sum ≤
      (entries.toList.map f).sum + f (key, value) := by
  induction entries with
  | nil => simp [Entries.insert, toList]
  | cons k v hk rest ih =>
    unfold Entries.insert
    split
    · rename_i same
      subst same
      simp only [toList, List.map_cons, List.sum_cons]
      omega
    · split
      · simp only [toList, List.map_cons, List.sum_cons]
        omega
      · rename_i other before
        have later := ih (above_some.mpr (lt_of_le_of_ne (not_lt.mp before) (Ne.symm other)))
        simp only [toList, List.map_cons, List.sum_cons]
        omega

theorem sum_insertAll_le (f : K × V → Nat) (pairs : List (K × V)) (map : OrderedMap K V) :
    ((map.insertAll pairs).toList.map f).sum ≤ (map.toList.map f).sum + (pairs.map f).sum := by
  induction pairs generalizing map with
  | nil => simp [insertAll]
  | cons pair pairs ih =>
    have first := sum_insert_le f map pair.1 pair.2 (above_none _)
    have rest := ih (map.insert pair.1 pair.2)
    calc ((map.insertAll (pair :: pairs)).toList.map f).sum
        ≤ ((map.insert pair.1 pair.2).toList.map f).sum + (pairs.map f).sum := rest
      _ ≤ (map.toList.map f).sum + f pair + (pairs.map f).sum := Nat.add_le_add_right first _
      _ = (map.toList.map f).sum + ((pair :: pairs).map f).sum := by
        rw [List.map_cons, List.sum_cons, Nat.add_assoc]

theorem sum_ofPairs_le (f : K × V → Nat) (pairs : List (K × V)) :
    ((ofPairs pairs).toList.map f).sum ≤ (pairs.map f).sum := by
  simpa [ofPairs, empty, toList] using sum_insertAll_le f pairs empty

end OrderedMaps
