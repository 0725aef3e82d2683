import RustyTorrent.Bencode.DecoderSafety

/- The order of dictionary keys, which the decoder documents and does not check. -/
namespace KeyOrder
open RustExec OrderedMaps Utf8Text Numerals BencodeValue BencodeDecoder BencodeGrammar
  BencodeRecognition DecoderSafety

variable {p : Profile} {data : ByteSeq}

def Ascending (pairs : List (Bytes × Value)) : Prop := pairs.Pairwise fun a b => a.1 < b.1

/-- A text in which the keys of every dictionary, at every depth, strictly ascend, and every
    dictionary keeps as many entries as it has pairs. -/
inductive Ordered : Phrase → Bytes → Prop where
  | integer {n : Int64} {raw : Bytes} (reads : parseI64 raw = some n) :
      Ordered (.value (.integer n)) (letterI :: raw ++ [letterE])
  | bytes {b : Bytes} {c : UInt8} {raw : Bytes} (first : isDigit c = true)
      (reads : parseUsize (c :: raw) = some b.length) :
      Ordered (.value (.bytes b)) (c :: raw ++ colon :: b)
  | list {vs : List Value} {s : Bytes} (items : Ordered (.items vs) s) :
      Ordered (.value (.list vs)) (letterL :: s ++ [letterE])
  | dict {ps : List (Bytes × Value)} {s : Bytes} (pairs : Ordered (.pairs ps) s)
      (ascending : Ascending ps) (kept : (OrderedMap.ofPairs ps).toList.length = ps.length) :
      Ordered (.value (.dict (OrderedMap.ofPairs ps))) (letterD :: s ++ [letterE])
  | noItems : Ordered (.items []) []
  | item {v : Value} {vs : List Value} {s t : Bytes} (first : Ordered (.value v) s)
      (rest : Ordered (.items vs) t) : Ordered (.items (v :: vs)) (s ++ t)
  | noPairs : Ordered (.pairs []) []
  | pair {k : Bytes} {v : Value} {ps : List (Bytes × Value)} {s t u : Bytes}
      (key : Ordered (.value (.bytes k)) s) (value : Ordered (.value v) t)
      (rest : Ordered (.pairs ps) u) : Ordered (.pairs ((k, v) :: ps)) (s ++ t ++ u)

theorem ordered_spells {ph : Phrase} {s : Bytes} (ordered : Ordered ph s) : Spells ph s := by
  induction ordered with
  | integer reads => exact .integer reads
  | bytes first reads => exact .bytes first reads
  | list items ih => exact .list ih
  | dict pairs ascending kept ih => exact .dict ih
  | noItems => exact .noItems
  | item first rest ihv ihs => exact .item ihv ihs
  | noPairs => exact .noPairs
  | pair key value rest ihk ihv ihs => exact .pair ihk ihv ihs

/-- At every place of an open dictionary where a pair has just ended and a key follows, the key is
    greater than the key of that pair. -/
def KeysAscend (data : Bytes) : Prop :=
  ∀ s t u w u' rest ps k v k', data = s ++ letterD :: (t ++ (u ++ (w ++ (u' ++ rest)))) →
    OpenAt s → Spells (.pairs ps) t → Spells (.value (.bytes k)) u → Spells (.value v) w →
    Spells (.value (.bytes k')) u' → k < k'

theorem ordered_items_behind {vs ws : List Value} {t s rest suf : Bytes}
    (items : Spells (.items vs) t) (ordered : Ordered (.items ws) s)
    (same : s ++ letterE :: suf = t ++ rest) (fits : (t ++ rest).length < 2 ^ 63) :
    ∃ ws' s', Ordered (.items ws') s' ∧ rest = s' ++ letterE :: suf := by
  induction vs generalizing t s ws with
  | nil =>
    cases items
    exact ⟨ws, s, ordered, same.symm⟩
  | cons v vs ih =>
    cases items with
    | @item _ _ a b first others =>
      rw [List.append_assoc] at same fits
      cases ordered with
      | noItems =>
        obtain ⟨c, tail, rfl, notE⟩ := value_first_byte first
        exact absurd (List.cons.inj same).1.symm notE
      | @item _ _ a' b' first' others' =>
        rw [List.append_assoc] at same
        obtain ⟨-, rfl, next⟩ := spelling_unique fits first (ordered_spells first') same.symm
        exact ih others others' next.symm (by simp only [List.length_append] at fits ⊢; omega)

theorem ordered_pairs_behind {ps qs : List (Bytes × Value)} {t s rest suf : Bytes}
    (pairs : Spells (.pairs ps) t) (ordered : Ordered (.pairs qs) s)
    (same : s ++ letterE :: suf = t ++ rest) (fits : (t ++ rest).length < 2 ^ 63) :
    ∃ qs' s', qs = ps ++ qs' ∧ Ordered (.pairs qs') s' ∧ rest = s' ++ letterE :: suf := by
  induction ps generalizing t s qs with
  | nil =>
    cases pairs
    exact ⟨qs, s, rfl, ordered, same.symm⟩
  | cons pair ps ih =>
    cases pairs with
    | @pair k v _ a b c key value others =>
      simp only [List.append_assoc] at same fits
      cases ordered with
      | noPairs =>
        obtain ⟨c, tail, rfl, notE⟩ := value_first_byte key
        exact absurd (List.cons.inj same).1.symm notE
      | @pair k' v' _ a' b' c' key' value' others' =>
        simp only [List.append_assoc] at same
        obtain ⟨keys, rfl, next⟩ := spelling_unique fits key (ordered_spells key') same.symm
        obtain rfl : k = k' := Value.bytes.inj keys
        have inner : (b ++ (c ++ rest)).length < 2 ^ 63 := by
          simp only [List.length_append] at fits ⊢
          omega
        obtain ⟨rfl, rfl, last⟩ := spelling_unique inner value (ordered_spells value') next
        obtain ⟨qs', s', rfl, later, tail⟩ := ih others others' last.symm
          (by simp only [List.length_append] at inner ⊢; omega)
        exact ⟨qs', s', rfl, later, tail⟩

theorem ordered_list_inside {v : Value} {s tail suf : Bytes} (ordered : Ordered (.value v) s)
    (same : letterL :: tail = s ++ suf) :
    ∃ ws s', Ordered (.items ws) s' ∧ s' ++ letterE :: suf = tail := by
  cases ordered with
  | integer reads => exact absurd (List.cons.inj same).1 (by decide)
  | bytes digit reads => exact absurd (List.cons.inj same).1.symm (digit_not_letter digit).2.1
  | list items => exact ⟨_, _, items, by simpa using same.symm⟩
  | dict pairs ascending kept => exact absurd (List.cons.inj same).1 (by decide)

theorem ordered_dict_inside {v : Value} {s tail suf : Bytes} (ordered : Ordered (.value v) s)
    (same : letterD :: tail = s ++ suf) :
    ∃ qs s', Ascending qs ∧ Ordered (.pairs qs) s' ∧ s' ++ letterE :: suf = tail := by
  cases ordered with
  | integer reads => exact absurd (List.cons.inj same).1 (by decide)
  | bytes digit reads => exact absurd (List.cons.inj same).1.symm (digit_not_letter digit).2.2.1
  | list items => exact absurd (List.cons.inj same).1 (by decide)
  | dict pairs ascending kept => exact ⟨_, _, ascending, pairs, by simpa using same.symm⟩

theorem ordered_inside {s rest : Bytes} {v : Value} (opened : OpenAt s)
    (whole : Ordered (.value v) (s ++ rest)) (fits : (s ++ rest).length < 2 ^ 63)
    (goesOn : rest.head? ≠ some letterE) :
    ∃ w x suf, rest = x ++ suf ∧ Ordered (.value w) x := by
  induction opened generalizing rest with
  | root => exact ⟨v, rest, [], (List.append_nil rest).symm, whole⟩
  | @item s t vs outer items ih =>
    rw [List.append_assoc, List.cons_append] at whole fits
    obtain ⟨w, x, suf, same, ordered⟩ := ih whole fits (by simp [letterL, letterE])
    obtain ⟨ws, body, inner, text⟩ := ordered_list_inside ordered same
    obtain ⟨ws', body', later, rfl⟩ := ordered_items_behind items inner text
      (by simp only [List.length_append, List.length_cons] at fits ⊢; omega)
    cases later with
    | noItems => exact absurd rfl goesOn
    | item first others => exact ⟨_, _, _, List.append_assoc .., first⟩
  | @key s t ps outer pairs ih =>
    rw [List.append_assoc, List.cons_append] at whole fits
    obtain ⟨w, x, suf, same, ordered⟩ := ih whole fits (by simp [letterD, letterE])
    obtain ⟨qs, body, -, inner, text⟩ := ordered_dict_inside ordered same
    obtain ⟨qs', body', -, later, rfl⟩ := ordered_pairs_behind pairs inner text
      (by simp only [List.length_append, List.length_cons] at fits ⊢; omega)
    cases later with
    | noPairs => exact absurd rfl goesOn
    | @pair _ _ _ a b c key value others =>
      exact ⟨_, a, b ++ (c ++ letterE :: suf), by simp, key⟩
  | @value s t u ps k outer pairs key ih =>
    rw [List.append_assoc, List.cons_append, List.append_assoc] at whole fits
    obtain ⟨w, x, suf, same, ordered⟩ := ih whole fits (by simp [letterD, letterE])
    obtain ⟨qs, body, -, inner, text⟩ := ordered_dict_inside ordered same
    have room : (t ++ (u ++ rest)).length < 2 ^ 63 := by
      simp only [List.length_append, List.length_cons] at fits ⊢
      omega
    obtain ⟨qs', body', -, later, next⟩ := ordered_pairs_behind pairs inner text room
    cases later with
    | noPairs =>
      obtain ⟨c, tail, rfl, notE⟩ := value_first_byte key
      exact absurd (List.cons.inj next).1 notE
    | pair key' value' others =>
      simp only [List.append_assoc] at next
      obtain ⟨-, -, rfl⟩ := spelling_unique
        (by simp only [List.length_append] at room ⊢; omega) key (ordered_spells key') next
      exact ⟨_, _, _, rfl, value'⟩

theorem ascend_of_ordered {v : Value} (ordered : Ordered (.value v) data.bytes) :
    KeysAscend data.bytes := by
  intro s t u w u' rest ps k v' k' text opened pairs key value key'
  have fits := data.fits
  rw [text] at ordered fits
  obtain ⟨_, x, suf, same, here⟩ := ordered_inside opened ordered fits (by simp [letterD, letterE])
  obtain ⟨qs, body, ascending, inner, bodyText⟩ := ordered_dict_inside here same
  have passed := pairs_snoc pairs key value
  have split : t ++ (u ++ (w ++ (u' ++ rest))) = t ++ (u ++ w) ++ (u' ++ rest) := by simp
  rw [split] at bodyText
  obtain ⟨qs', body', rfl, later, next⟩ := ordered_pairs_behind passed inner bodyText
    (by simp only [List.length_append, List.length_cons] at fits ⊢; omega)
  cases later with
  | noPairs =>
    obtain ⟨c, tail, rfl, notE⟩ := value_first_byte key'
    exact absurd (List.cons.inj next).1 notE
  | pair other value' others =>
    simp only [List.append_assoc] at next
    obtain ⟨keys, -, -⟩ := spelling_unique
      (by simp only [List.length_append, List.length_cons] at fits ⊢; omega) key'
      (ordered_spells other) next
    obtain rfl := Value.bytes.inj keys
    -- the two pairs stand side by side in a list whose keys ascend
    rw [List.append_assoc] at ascending
    have tail := (List.pairwise_append.mp ascending).2.1
    exact (List.pairwise_cons.mp tail).1 _ (List.mem_cons_self ..)

def OrderedAt (data s : Bytes) : Phrase → Prop
  | .value v => ∀ pre suf, data = pre ++ (s ++ suf) → OpenAt pre → Ordered (.value v) s
  | .items vs => ∀ pre t us suf, data = pre ++ letterL :: (t ++ (s ++ suf)) → OpenAt pre →
      Spells (.items us) t → Ordered (.items vs) s
  | .pairs ps => ∀ pre t us suf, data = pre ++ letterD :: (t ++ (s ++ suf)) → OpenAt pre →
      Spells (.pairs us) t → Ordered (.pairs ps) s ∧ ps.IsChain fun a b => a.1 < b.1

theorem ordered_at_dict {data s : Bytes} {ps : List (Bytes × Value)}
    (pairs : OrderedAt data s (.pairs ps)) :
    OrderedAt data (letterD :: s ++ [letterE]) (.value (.dict (OrderedMap.ofPairs ps))) := by
  intro pre suf text opened
  obtain ⟨ordered, chain⟩ := pairs pre [] [] (letterE :: suf) (by simpa using text) opened .noPairs
  have : IsTrans (Bytes × Value) fun a b => a.1 < b.1 := ⟨fun _ _ _ => lt_trans⟩
  have ascending : Ascending ps := List.isChain_iff_pairwise.mp chain
  have kept : (OrderedMap.ofPairs ps).toList = ps :=
    insertAll_sorted ps OrderedMap.empty ascending
  exact .dict ordered ascending (congrArg List.length kept)

theorem ordered_at_pair {data s t u : Bytes} {k : Bytes} {v : Value} {ps : List (Bytes × Value)}
    (ascend : KeysAscend data) (key : Spells (.value (.bytes k)) s) (value : Spells (.value v) t)
    (rest : Spells (.pairs ps) u) (atKey : OrderedAt data s (.value (.bytes k)))
    (atValue : OrderedAt data t (.value v)) (atRest : OrderedAt data u (.pairs ps)) :
    OrderedAt data (s ++ t ++ u) (.pairs ((k, v) :: ps)) := by
  intro pre before us suf text opened passed
  have orderedKey := atKey (pre ++ letterD :: before) (t ++ (u ++ suf)) (by simpa using text)
    (.key opened passed)
  have orderedValue := atValue (pre ++ letterD :: (before ++ s)) (u ++ suf) (by simpa using text)
    (.value opened passed key)
  obtain ⟨orderedRest, chain⟩ := atRest pre (before ++ (s ++ t)) (us ++ [(k, v)]) suf
    (by simpa using text) opened (pairs_snoc passed key value)
  refine ⟨.pair orderedKey orderedValue orderedRest, ?_⟩
  cases rest with
  | noPairs => exact List.isChain_singleton _
  | @pair k' v' _ s' t' u' key' value' others =>
    have greater : k < k' :=
      ascend pre before s t s' (t' ++ (u' ++ suf)) us k v k' (by simpa using text) opened passed
        key value key'
    exact List.isChain_cons_cons.mpr ⟨greater, chain⟩

theorem ordered_at {data s : Bytes} {ph : Phrase} (ascend : KeysAscend data)
    (spelled : Spells ph s) : OrderedAt data s ph := by
  induction spelled with
  | integer reads => exact fun _ _ _ _ => .integer reads
  | bytes first reads => exact fun _ _ _ _ => .bytes first reads
  | list items ih =>
    intro pre suf text opened
    exact .list (ih pre [] [] (letterE :: suf) (by simpa using text) opened .noItems)
  | dict pairs ih => exact ordered_at_dict ih
  | noItems => exact fun _ _ _ _ _ _ _ => .noItems
  | @item v vs s t first rest ihv ihs =>
    intro pre before us suf text opened passed
    have orderedFirst := ihv (pre ++ letterL :: before) (t ++ suf) (by simpa using text)
      (.item opened passed)
    have orderedRest := ihs pre (before ++ s) (us ++ [v]) suf (by simpa using text) opened
      (items_snoc passed first)
    exact .item orderedFirst orderedRest
  | noPairs => exact fun _ _ _ _ _ _ _ => ⟨.noPairs, List.isChain_nil⟩
  | pair key value rest ihk ihv ihs => exact ordered_at_pair ascend key value rest ihk ihv ihs

/-- An accepted text keeps the order of keys, and every pair, exactly when no key in it stands
    right behind a pair whose key is not smaller. -/
theorem keys_ordered_iff_ascend {v : Value} (accepted : Returns (decode p data) () v ()) :
    Ordered (.value v) data.bytes ↔ KeysAscend data.bytes := by
  constructor
  · exact ascend_of_ordered
  · intro ascend
    exact ordered_at ascend (decodes_value.mp accepted) [] [] (by simp) .root

/-- `d1:ad1:bi1e1:ci2eee` -/
def orderedDict : ByteSeq := ⟨utf8Bytes "d1:ad1:bi1e1:ci2eee", by decide +kernel⟩

theorem ordered_dict_ascends :
    ∃ v, Returns (decode .release orderedDict) () v () ∧ Ordered (.value v) orderedDict.bytes ∧
      KeysAscend orderedDict.bytes := by
  have key (b : UInt8) : Ordered (.value (.bytes [b])) [0x31, colon, b] :=
    @Ordered.bytes [b] 0x31 [] (by decide) (show _ = some 1 by decide)
  have one : Ordered (.value (.integer 1)) [0x69, 0x31, 0x65] :=
    @Ordered.integer 1 [0x31] (by decide)
  have two : Ordered (.value (.integer 2)) [0x69, 0x32, 0x65] :=
    @Ordered.integer 2 [0x32] (by decide)
  have inner := Ordered.dict (.pair (key 0x62) one (.pair (key 0x63) two .noPairs))
    (List.pairwise_pair.mpr (by decide)) (by decide +kernel)
  have outer := Ordered.dict (.pair (key 0x61) inner .noPairs) (List.pairwise_singleton _ _)
    (by decide +kernel)
  have text : orderedDict.bytes = letterD :: ([0x31, colon, 0x61] ++ (letterD ::
      ([0x31, colon, 0x62] ++ [0x69, 0x31, 0x65] ++ ([0x31, colon, 0x63] ++ [0x69, 0x32, 0x65] ++
      [])) ++ [letterE]) ++ []) ++ [letterE] := by decide +kernel
  rw [← text] at outer
  have accepted : Returns (decode .release orderedDict) () _ () :=
    decodes_value.mpr (ordered_spells outer)
  exact ⟨_, accepted, outer, (keys_ordered_iff_ascend accepted).mp outer⟩

/-- `d1:bi1e1:ai2e1:ai3ee` -/
def unorderedDict : ByteSeq := ⟨utf8Bytes "d1:bi1e1:ai2e1:ai3ee", by decide +kernel⟩

theorem unordered_dict_accepted :
    ∃ v, Returns (decode .release unorderedDict) () v () ∧
      ¬ Ordered (.value v) unorderedDict.bytes := by
  refine ⟨.dict (OrderedMap.ofPairs [([0x61], .integer 3), ([0x62], .integer 1)]),
    by decide +kernel, ?_⟩
  intro ordered
  have key (b : UInt8) : Spells (.value (.bytes [b])) [0x31, colon, b] :=
    @Spells.bytes [b] 0x31 [] (by decide) (show _ = some 1 by decide)
  have one : Spells (.value (.integer 1)) [0x69, 0x31, 0x65] :=
    @Spells.integer 1 [0x31] (by decide)
  have text : unorderedDict.bytes = [] ++ letterD :: ([] ++ ([0x31, colon, 0x62] ++
      ([0x69, 0x31, 0x65] ++ ([0x31, colon, 0x61] ++ utf8Bytes "i2e1:ai3ee")))) := by
    decide +kernel
  have ascend := ascend_of_ordered ordered _ _ _ _ _ _ _ _ _ _ text .root .noPairs (key 0x62) one
    (key 0x61)
  exact absurd ascend (by decide)

end KeyOrder
