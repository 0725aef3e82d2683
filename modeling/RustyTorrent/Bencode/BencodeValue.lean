import RustyTorrent.Library.OrderedMaps
import RustyTorrent.Library.Utf8Text

/- The value tree of src/bencode/mod.rs. Dictionary keys are ordered bytewise, as
   `Vec<u8>` is. Printing for display is left out. -/
namespace BencodeValue
open RustExec OrderedMaps Utf8Text

inductive Value where
  | integer (n : Int64)
  | bytes (b : Bytes)
  | list (items : List Value)
  | dict (map : Entries Bytes Value none)

mutual

def decideValues : (a b : Value) → Decidable (a = b)
  | .integer m, .integer n => decidable_of_iff (m = n) (by simp)
  | .bytes b, .bytes c => decidable_of_iff (b = c) (by simp)
  | .list xs, .list ys =>
      have := decideItems xs ys
      decidable_of_iff (xs = ys) (by simp)
  | .dict m, .dict n =>
      have := decideEntries m n
      decidable_of_iff (m = n) (by simp)
  | .integer _, .bytes _ | .integer _, .list _ | .integer _, .dict _
  | .bytes _, .integer _ | .bytes _, .list _ | .bytes _, .dict _
  | .list _, .integer _ | .list _, .bytes _ | .list _, .dict _
  | .dict _, .integer _ | .dict _, .bytes _ | .dict _, .list _ => isFalse (by simp)

def decideItems : (xs ys : List Value) → Decidable (xs = ys)
  | [], [] => isTrue rfl
  | [], _ :: _ | _ :: _, [] => isFalse (by simp)
  | x :: xs, y :: ys =>
      have := decideValues x y
      have := decideItems xs ys
      decidable_of_iff (x = y ∧ xs = ys) (by simp)

def decideEntries : {low : Option Bytes} → (m n : Entries Bytes Value low) → Decidable (m = n)
  | _, .nil, .nil => isTrue rfl
  | _, .nil, .cons _ _ _ _ | _, .cons _ _ _ _, .nil => isFalse (by simp)
  | _, .cons k v _ rest, .cons k' v' _ rest' =>
      if keys : k = k' then
        have := decideValues v v'
        have := decideEntries rest (keys ▸ rest')
        decidable_of_iff (v = v' ∧ rest = keys ▸ rest') (by subst keys; simp)
      else isFalse (by simp [keys])

end

instance : DecidableEq Value := decideValues

def Value.asInteger : Value → Option Int64
  | .integer n => some n
  | _ => none

def Value.asBytes : Value → Option Bytes
  | .bytes b => some b
  | _ => none

def Value.asStr (v : Value) : Option String := v.asBytes.bind fromUtf8

def Value.asList : Value → Option (List Value)
  | .list items => some items
  | _ => none

def Value.asDict : Value → Option (OrderedMap Bytes Value)
  | .dict map => some map
  | _ => none

def Value.get (v : Value) (key : Bytes) : Option Value :=
  v.asDict.bind fun map => Entries.get key map

def Value.getStr (v : Value) (key : String) : Option Value := v.get (utf8Bytes key)

theorem as_str_of_text (s : String) : (Value.bytes (utf8Bytes s)).asStr = some s := by
  simp [Value.asStr, Value.asBytes, fromUtf8_utf8Bytes]

theorem as_str_eq_some {v : Value} {s : String} (h : v.asStr = some s) :
    v = .bytes (utf8Bytes s) := by
  obtain ⟨b, raw, text⟩ := Option.bind_eq_some_iff.mp h
  rw [utf8Bytes_of_fromUtf8 text]
  cases v <;> simp_all [Value.asBytes]

end BencodeValue
