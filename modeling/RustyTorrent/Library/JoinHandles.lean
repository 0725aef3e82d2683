import Mathlib.Data.List.Nodup
import Mathlib.Data.List.Perm.Basic
import Mathlib.Data.List.TakeDrop
import Mathlib.Logic.Relation

/- A main task spawns others, then awaits their handles from the first to the last and takes
   in what each has ended with. A task ends at any time after its spawn. -/
namespace JoinHandles
open Relation
variable {τ ω σ : Type}

/-- The tasks still to be spawned, those with a handle, the places of the handles whose tasks
    have ended from the earliest on, the number of handles awaited, and what was taken in. -/
structure Joining (τ σ : Type) where
  upcoming : List τ
  handles : List τ
  ended : List Nat
  awaited : Nat
  taken : σ

def Joining.start (tasks : List τ) (first : σ) : Joining τ σ := ⟨tasks, [], [], 0, first⟩

def Joining.Complete (s : Joining τ σ) : Prop := s.upcoming = [] ∧ s.awaited = s.handles.length

section Runs
variable (ending : τ → ω) (absorb : σ → ω → σ)

inductive Step (s : Joining τ σ) : Joining τ σ → Prop where
  | spawn {task : τ} {later : List τ} (next : s.upcoming = task :: later) :
      Step s { s with upcoming := later, handles := s.handles ++ [task] }
  | finish {place : Nat} (spawned : place < s.handles.length) (running : place ∉ s.ended) :
      Step s { s with ended := s.ended ++ [place] }
  | join {task : τ} (allSpawned : s.upcoming = []) (next : s.handles[s.awaited]? = some task)
      (ready : s.awaited ∈ s.ended) :
      Step s { s with awaited := s.awaited + 1, taken := absorb s.taken (ending task) }

abbrev Runs : Joining τ σ → Joining τ σ → Prop := ReflTransGen (Step ending absorb)

structure Kept (tasks : List τ) (first : σ) (s : Joining τ σ) : Prop where
  spawns : s.handles ++ s.upcoming = tasks
  distinct : s.ended.Nodup
  spawned : ∀ place ∈ s.ended, place < s.handles.length
  joined : ∀ place < s.awaited, place ∈ s.ended
  waits : s.awaited ≤ s.handles.length
  takes : s.taken = ((s.handles.take s.awaited).map ending).foldl absorb first

end Runs

variable {ending : τ → ω} {absorb : σ → ω → σ} {tasks : List τ} {first : σ} {s t : Joining τ σ}

theorem kept_start : Kept ending absorb tasks first (Joining.start tasks first) where
  spawns := List.nil_append tasks
  distinct := List.nodup_nil
  spawned place member := by cases member
  joined place below := absurd below (Nat.not_lt_zero place)
  waits := Nat.le_refl 0
  takes := rfl

theorem kept_step (kept : Kept ending absorb tasks first s) (step : Step ending absorb s t) :
    Kept ending absorb tasks first t := by
  cases step with
  | @spawn task later next =>
    refine ⟨?_, kept.distinct, ?_, kept.joined, ?_, ?_⟩
    · simp only [← kept.spawns, next, List.append_assoc, List.singleton_append]
    · intro place member
      have before := kept.spawned place member
      simp only [List.length_append, List.length_singleton]
      omega
    · have before := kept.waits
      simp only [List.length_append, List.length_singleton]
      omega
    · simp only [kept.takes, List.take_append_of_le_length kept.waits]
  | @finish place spawned running =>
    refine ⟨kept.spawns, ?_, ?_, ?_, kept.waits, kept.takes⟩
    · rw [← List.concat_eq_append]
      exact kept.distinct.concat running
    · intro other member
      rcases List.mem_append.mp member with before | new
      · exact kept.spawned other before
      · rw [List.mem_singleton.mp new]
        exact spawned
    · intro other below
      exact List.mem_append_left _ (kept.joined other below)
  | @join task allSpawned next ready =>
    obtain ⟨inside, here⟩ := List.getElem?_eq_some_iff.mp next
    refine ⟨kept.spawns, kept.distinct, kept.spawned, ?_, inside, ?_⟩
    · intro place below
      rcases Nat.lt_succ_iff_lt_or_eq.mp below with before | rfl
      · exact kept.joined place before
      · exact ready
    · simp only [List.take_succ_eq_append_getElem inside, here, List.map_append, List.foldl_append,
        ← kept.takes]
      rfl

theorem kept_run (kept : Kept ending absorb tasks first s) (run : Runs ending absorb s t) :
    Kept ending absorb tasks first t := by
  induction run with
  | refl => exact kept
  | tail _ step ih => exact kept_step ih step

theorem run_takes (run : Runs ending absorb (Joining.start tasks first) t) (complete : t.Complete) :
    t.taken = (tasks.map ending).foldl absorb first := by
  have kept := kept_run kept_start run
  have all : t.handles = tasks := by simpa [complete.1] using kept.spawns
  rw [kept.takes, complete.2, List.take_length, all]

theorem run_ends (run : Runs ending absorb (Joining.start tasks first) t) (complete : t.Complete) :
    t.ended.Perm (List.range tasks.length) := by
  have kept := kept_run kept_start run
  have all : t.handles = tasks := by simpa [complete.1] using kept.spawns
  rw [List.perm_ext_iff_of_nodup kept.distinct List.nodup_range]
  intro place
  rw [List.mem_range, ← all]
  constructor
  · exact kept.spawned place
  · intro below
    exact kept.joined place (by rw [complete.2]; exact below)

theorem run_spawn (upcoming : List τ) (spawned : s.upcoming = upcoming) :
    Runs ending absorb s { s with upcoming := [], handles := s.handles ++ upcoming } := by
  induction upcoming generalizing s with
  | nil =>
    have same : { s with upcoming := [], handles := s.handles ++ [] } = s := by
      rw [List.append_nil, ← spawned]
    rw [same]
  | cons task later ih =>
    have rest := ih (s := { s with upcoming := later, handles := s.handles ++ [task] }) rfl
    simp only [List.append_assoc, List.singleton_append] at rest
    exact ReflTransGen.head (Step.spawn spawned) rest

theorem run_finish (order : List Nat) (fresh : (s.ended ++ order).Nodup)
    (spawned : ∀ place ∈ order, place < s.handles.length) :
    Runs ending absorb s { s with ended := s.ended ++ order } := by
  induction order generalizing s with
  | nil =>
    rw [List.append_nil]
  | cons place later ih =>
    have running : place ∉ s.ended := by
      intro member
      exact (List.nodup_append.mp fresh).2.2 place member place List.mem_cons_self rfl
    have rest := ih (s := { s with ended := s.ended ++ [place] })
      (by simpa using fresh) (fun other member => spawned other (List.mem_cons_of_mem _ member))
    simp only [List.append_assoc, List.singleton_append] at rest
    exact ReflTransGen.head (Step.finish (spawned place List.mem_cons_self) running) rest

theorem run_join (allSpawned : s.upcoming = [])
    (ready : ∀ place < s.handles.length, place ∈ s.ended) (waits : s.awaited ≤ s.handles.length) :
    ∃ t, Runs ending absorb s t ∧ t.Complete ∧ t.ended = s.ended := by
  induction remaining : s.handles.length - s.awaited generalizing s with
  | zero => exact ⟨s, .refl, ⟨allSpawned, by omega⟩, rfl⟩
  | succ remaining ih =>
    have inside : s.awaited < s.handles.length := by omega
    obtain ⟨t, run, complete, same⟩ :=
      ih (s := { s with awaited := s.awaited + 1,
                        taken := absorb s.taken (ending s.handles[s.awaited]) })
        allSpawned ready inside (by simp only; omega)
    refine ⟨t, ReflTransGen.head ?_ run, complete, same⟩
    exact Step.join allSpawned (List.getElem?_eq_getElem inside) (ready s.awaited inside)

theorem run_in_order {order : List Nat} (all : order.Perm (List.range tasks.length)) :
    ∃ t, Runs ending absorb (Joining.start tasks first) t ∧ t.Complete ∧ t.ended = order := by
  have spawns : Runs ending absorb (Joining.start tasks first) ⟨[], tasks, [], 0, first⟩ :=
    run_spawn tasks rfl
  have finishes : Runs ending absorb ⟨[], tasks, [], 0, first⟩ ⟨[], tasks, order, 0, first⟩ :=
    run_finish order (all.nodup_iff.mpr List.nodup_range)
      (fun place member => List.mem_range.mp (all.mem_iff.mp member))
  obtain ⟨t, joins, complete, same⟩ : ∃ t, Runs ending absorb ⟨[], tasks, order, 0, first⟩ t ∧
      t.Complete ∧ t.ended = order :=
    run_join rfl (fun place below => all.mem_iff.mpr (List.mem_range.mpr below)) (Nat.zero_le _)
  exact ⟨t, (spawns.trans finishes).trans joins, complete, same⟩

end JoinHandles
