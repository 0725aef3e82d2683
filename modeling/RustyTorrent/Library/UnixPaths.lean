import RustyTorrent.Library.RustExec

/- Unix paths as bytes: pushing, and the place that a path names once `.` and `..` are removed
   lexically. Symbolic links are external. -/
namespace UnixPaths
open RustExec

def slash : UInt8 := 0x2f
def dot : UInt8 := 0x2e

def Absolute (path : Bytes) : Prop := path.head? = some slash

instance (path : Bytes) : Decidable (Absolute path) := inferInstanceAs (Decidable (_ = _))

/-- `PathBuf::push`. An absolute path replaces the one it is pushed onto. -/
def push (path part : Bytes) : Bytes :=
  if Absolute part then part
  else if path = [] ∨ path.getLast? = some slash then path ++ part
  else path ++ slash :: part

def pushAll (path : Bytes) (parts : List Bytes) : Bytes := parts.foldl push path

def components (path : Bytes) : List Bytes := path.splitOn slash

/-- Where the names of a path start: at the root, or some levels above the current directory. -/
inductive Anchor where
  | root
  | current (above : Nat)
  deriving DecidableEq, Repr

def Anchor.climb : Anchor → Anchor
  | .root => .root
  | .current above => .current (above + 1)

structure Place where
  anchor : Anchor
  names : List Bytes
  deriving DecidableEq, Repr

def Skipped (component : Bytes) : Prop := component = [] ∨ component = [dot]

instance (component : Bytes) : Decidable (Skipped component) :=
  inferInstanceAs (Decidable (_ ∨ _))

def Place.step (place : Place) (component : Bytes) : Place :=
  if Skipped component then place
  else if component = [dot, dot] then
    if place.names = [] then { place with anchor := place.anchor.climb }
    else { place with names := place.names.dropLast }
  else { place with names := place.names ++ [component] }

def Place.walk (place : Place) (path : List Bytes) : Place := path.foldl Place.step place

def start (path : Bytes) : Place := ⟨if Absolute path then .root else .current 0, []⟩

def place (path : Bytes) : Place := (start path).walk (components path)

def Below (base inside : Place) : Prop :=
  inside.anchor = base.anchor ∧ ∃ names, names ≠ [] ∧ inside.names = base.names ++ names

def descent : Nat → List Bytes → Option Nat
  | depth, [] => some depth
  | depth, component :: rest =>
      if Skipped component then descent depth rest
      else if component = [dot, dot] then
        if depth = 0 then none else descent (depth - 1) rest
      else descent (depth + 1) rest

/-- No part is absolute, and the walk along all of them ends below its start without ever
    climbing above it. -/
def Contained (parts : List Bytes) : Prop :=
  (∀ part ∈ parts, ¬ Absolute part) ∧
    ∃ depth, 0 < depth ∧ descent 0 (parts.flatMap components) = some depth

theorem absolute_append {path : Bytes} (rest : Bytes) (some : path ≠ []) :
    Absolute (path ++ rest) ↔ Absolute path := by
  cases path with
  | nil => exact absurd rfl some
  | cons b path => rfl

theorem start_append {path : Bytes} (rest : Bytes) (some : path ≠ []) :
    start (path ++ rest) = start path := by
  simp only [start, absolute_append rest some]

theorem walk_append (here : Place) (path rest : List Bytes) :
    here.walk (path ++ rest) = (here.walk path).walk rest :=
  List.foldl_append

theorem walk_cons (here : Place) (component : Bytes) (rest : List Bytes) :
    here.walk (component :: rest) = (here.step component).walk rest := rfl

theorem step_skipped {here : Place} {component : Bytes} (skipped : Skipped component) :
    here.step component = here :=
  if_pos skipped

theorem walk_empty (here : Place) : here.walk [[]] = here := step_skipped (Or.inl rfl)

theorem components_joined (path part : Bytes) :
    components (path ++ slash :: part) = components path ++ components part :=
  List.splitOn_append_cons_self _ _

theorem place_push_relative {path part : Bytes} (relative : ¬ Absolute part) :
    place (push path part) = (place path).walk (components part) := by
  rw [push, if_neg relative]
  by_cases empty : path = []
  · subst empty
    have begin : start part = ⟨.current 0, []⟩ := by rw [start, if_neg relative]
    have here : place [] = ⟨.current 0, []⟩ := walk_empty _
    rw [if_pos (Or.inl rfl), List.nil_append, here, place, begin]
  · by_cases closed : path.getLast? = some slash
    · obtain ⟨init, rfl⟩ := List.getLast?_eq_some_iff.mp closed
      have base : place (init ++ [slash]) = (start (init ++ [slash])).walk (components init) := by
        rw [place, components_joined, walk_append]
        exact walk_empty _
      rw [if_pos (Or.inr closed), base, ← walk_append, ← components_joined, place,
        start_append part empty, List.append_assoc, List.singleton_append]
    · have open_ : ¬ (path = [] ∨ path.getLast? = some slash) := not_or.mpr ⟨empty, closed⟩
      rw [if_neg open_, place, place, start_append _ empty, components_joined, walk_append]

theorem place_pushAll {path : Bytes} {parts : List Bytes}
    (relative : ∀ part ∈ parts, ¬ Absolute part) :
    place (pushAll path parts) = (place path).walk (parts.flatMap components) := by
  induction parts generalizing path with
  | nil => rfl
  | cons part rest ih =>
    have later := @ih (push path part) fun other h => relative other (by simp [h])
    rw [List.flatMap_cons, walk_append, ← place_push_relative (relative part (by simp))]
    exact later

theorem absolute_push {path : Bytes} (part : Bytes) (absolute : Absolute path) :
    Absolute (push path part) := by
  have some : path ≠ [] := by
    rintro rfl
    cases absolute
  unfold push
  split_ifs with replaced
  · exact replaced
  · exact (absolute_append _ some).mpr absolute
  · exact (absolute_append _ some).mpr absolute

theorem absolute_pushAll {path : Bytes} (parts : List Bytes) (absolute : Absolute path) :
    Absolute (pushAll path parts) := by
  induction parts generalizing path with
  | nil => exact absolute
  | cons part rest ih => exact ih (absolute_push part absolute)

theorem absolute_of_part {path part : Bytes} {parts : List Bytes} (member : part ∈ parts)
    (absolute : Absolute part) : Absolute (pushAll path parts) := by
  induction parts generalizing path with
  | nil => simp at member
  | cons first rest ih =>
    rcases List.mem_cons.mp member with here | later
    · subst here
      have replaced : push path part = part := if_pos absolute
      change Absolute (pushAll (push path part) rest)
      rw [replaced]
      exact absolute_pushAll rest absolute
    · exact ih later

theorem walk_anchor_root {here : Place} (path : List Bytes) (root : here.anchor = .root) :
    (here.walk path).anchor = .root := by
  induction path generalizing here with
  | nil => exact root
  | cons component rest ih =>
    apply ih
    unfold Place.step
    split_ifs <;> simp [root, Anchor.climb]

theorem place_absolute {path : Bytes} (absolute : Absolute path) :
    (place path).anchor = .root :=
  walk_anchor_root _ (by rw [start, if_pos absolute])

theorem walk_descends {anchor : Anchor} {names inner : List Bytes} {path : List Bytes}
    {depth : Nat} (descends : descent inner.length path = some depth) :
    ∃ further, further.length = depth ∧
      Place.walk ⟨anchor, names ++ inner⟩ path = ⟨anchor, names ++ further⟩ := by
  induction path generalizing inner with
  | nil => exact ⟨inner, Option.some.inj descends, rfl⟩
  | cons component rest ih =>
    rw [descent] at descends
    rw [walk_cons, Place.step]
    by_cases skipped : Skipped component
    · rw [if_pos skipped] at descends ⊢
      exact ih descends
    · rw [if_neg skipped] at descends ⊢
      by_cases up : component = [dot, dot]
      · rw [if_pos up] at descends ⊢
        rcases List.eq_nil_or_concat inner with none | ⟨init, last, rfl⟩
        · subst none
          simp at descends
        · rw [List.length_concat] at descends
          simpa using ih descends
      · rw [if_neg up] at descends ⊢
        have longer : inner.length + 1 = (inner ++ [component]).length := by simp
        rw [longer] at descends
        simpa using ih descends

theorem walk_above {names : List Bytes} {above : Nat} (path : List Bytes) :
    ∃ above' names', above ≤ above' ∧
      Place.walk ⟨.current above, names⟩ path = ⟨.current above', names'⟩ := by
  induction path generalizing above names with
  | nil => exact ⟨above, names, Nat.le_refl _, rfl⟩
  | cons component rest ih =>
    rw [walk_cons, Place.step]
    split_ifs
    · exact ih
    · obtain ⟨above', names', more, walked⟩ := @ih names (above + 1)
      exact ⟨above', names', by omega, walked⟩
    · exact ih
    · exact ih

theorem walk_climbs {inner path : List Bytes} (climbs : descent inner.length path = none) :
    (Place.walk ⟨.current 0, inner⟩ path).anchor ≠ .current 0 := by
  induction path generalizing inner with
  | nil => cases climbs
  | cons component rest ih =>
    rw [descent] at climbs
    rw [walk_cons, Place.step]
    by_cases skipped : Skipped component
    · rw [if_pos skipped] at climbs ⊢
      exact ih climbs
    · rw [if_neg skipped] at climbs ⊢
      by_cases up : component = [dot, dot]
      · rw [if_pos up] at climbs ⊢
        rcases List.eq_nil_or_concat inner with none | ⟨init, last, rfl⟩
        · subst none
          obtain ⟨above, names, more, walked⟩ := @walk_above [] 1 rest
          change (Place.walk ⟨.current 1, []⟩ rest).anchor ≠ _
          rw [walked]
          simp
          omega
        · rw [List.length_concat] at climbs
          simpa using ih climbs
      · rw [if_neg up] at climbs ⊢
        have longer : inner.length + 1 = (inner ++ [component]).length := by simp
        rw [longer] at climbs
        exact ih climbs

/-- The parts stay strictly below every base exactly when they are contained. -/
theorem pushed_below_iff {parts : List Bytes} :
    (∀ base, Below (place base) (place (pushAll base parts))) ↔ Contained parts := by
  constructor
  · intro below
    obtain ⟨anchor, names, some, further⟩ := below []
    have here : place [] = ⟨.current 0, []⟩ := walk_empty _
    rw [here] at anchor further
    have relative : ∀ part ∈ parts, ¬ Absolute part := by
      intro part member absolute
      rw [place_absolute (absolute_of_part member absolute)] at anchor
      cases anchor
    rw [place_pushAll relative, here] at anchor further
    refine ⟨relative, ?_⟩
    cases walked : descent 0 (parts.flatMap components) with
    | none => exact absurd anchor (@walk_climbs [] _ walked)
    | some depth =>
      obtain ⟨inner, length, ends⟩ := @walk_descends (.current 0) [] [] _ _ walked
      rw [List.nil_append] at ends
      rw [ends] at further
      refine ⟨depth, ?_, rfl⟩
      rw [← length, List.length_pos_iff]
      change inner = [] ++ names at further
      rw [further]
      exact some
  · rintro ⟨relative, depth, positive, descends⟩ base
    rw [place_pushAll relative]
    obtain ⟨further, length, ends⟩ :=
      @walk_descends (place base).anchor (place base).names [] _ _ descends
    rw [List.append_nil] at ends
    change Below (place base) (Place.walk ⟨(place base).anchor, (place base).names⟩ _)
    rw [ends]
    exact ⟨rfl, further, List.length_pos_iff.mp (by omega), rfl⟩

end UnixPaths
