import Mathlib.Data.List.Induction
import Mathlib.Logic.Function.Basic

/- Functions that are overwritten at single points. A point holds what the last write to it
   put there. -/
namespace PointUpdates

variable {ι α : Type*} [DecidableEq ι]

def writeAll (writes : List (ι × α)) (f : ι → α) : ι → α :=
  writes.foldl (fun g write => Function.update g write.1 write.2) f

def lastWrite (writes : List (ι × α)) (i : ι) : Option α :=
  ((writes.filter fun write => write.1 = i).getLast?).map Prod.snd

theorem lastWrite_snoc (writes : List (ι × α)) (write : ι × α) (i : ι) :
    lastWrite (writes ++ [write]) i = if write.1 = i then some write.2 else lastWrite writes i := by
  unfold lastWrite
  rw [List.filter_append]
  by_cases here : write.1 = i
  · simp [here]
  · simp [here]

theorem writeAll_apply (writes : List (ι × α)) (f : ι → α) (i : ι) :
    writeAll writes f i = (lastWrite writes i).getD (f i) := by
  induction writes using List.reverseRecOn with
  | nil => rfl
  | append_singleton writes write ih =>
    rw [lastWrite_snoc, writeAll, List.foldl_append]
    change Function.update (writeAll writes f) write.1 write.2 i = _
    rw [Function.update_apply]
    by_cases here : write.1 = i
    · simp [here]
    · simp [here, Ne.symm here, ih]

end PointUpdates
