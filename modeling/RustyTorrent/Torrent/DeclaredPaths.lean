import RustyTorrent.Torrent.PathContainment

/- The paths that a torrent declares for its files and those that the metainfo has. Both hold
   the same components where every component is a text, and otherwise some have been lost. -/
namespace DeclaredPaths
open RustExec OrderedMaps Utf8Text BencodeValue BencodeDecoder TorrentMetainfo AcceptedTorrent

variable {p : Profile} {sha1 : Bytes → Digest} {data : ByteSeq}

def declaredFiles (p : Profile) (data : ByteSeq) : Exec Unit DecodeError (Option (List Value)) := do
  let root ← decode p data
  return (root.getStr "info").bind fun info =>
    if (info.getStr "length").isSome then none else (info.getStr "files").bind Value.asList

def DeclaresFiles (p : Profile) (data : ByteSeq) (fileList : List Value) : Prop :=
  Returns (declaredFiles p data) () (some fileList) ()

def declaredPath (fileVal : Value) : Option (List Value) :=
  (fileVal.getStr "path").bind Value.asList

def textValue (s : String) : Value := .bytes (utf8Bytes s)

/-- Every entry has its file with exactly the declared components, and files that are declared
    apart stay apart. -/
structure PathsKept (fileList : List Value) (files : List FileInfo) : Prop where
  each : fileList.map declaredPath = files.map fun file => some (file.path.map textValue)
  apart : ∀ i j : Nat, (fileList.map declaredPath)[i]? ≠ (fileList.map declaredPath)[j]? →
    (files.map FileInfo.path)[i]? ≠ (files.map FileInfo.path)[j]?

def TextPaths (fileList : List Value) : Prop :=
  ∀ fileVal ∈ fileList, ∀ items, declaredPath fileVal = some items →
    ∀ item ∈ items, item.asStr.isSome

theorem textValue_asStr (s : String) : (textValue s).asStr = some s := as_str_of_text s

theorem texts_kept_iff {items : List Value} :
    items = (items.filterMap Value.asStr).map textValue ↔ ∀ item ∈ items, item.asStr.isSome := by
  constructor
  · intro kept item member
    rw [kept] at member
    obtain ⟨s, -, rfl⟩ := List.mem_map.mp member
    rw [textValue_asStr]
    rfl
  · intro texts
    induction items with
    | nil => rfl
    | cons item rest ih =>
      obtain ⟨s, text⟩ := Option.isSome_iff_exists.mp (texts item List.mem_cons_self)
      have later := ih fun other member => texts other (List.mem_cons_of_mem _ member)
      rw [List.filterMap_cons_some text, List.map_cons, ← later, as_str_eq_some text]
      rfl

theorem entry_has_path {fileVal : Value} {file : FileInfo} {u : Unit}
    (run : Returns (parseFile fileVal) () file u) : ∃ items, declaredPath fileVal = some items := by
  obtain ⟨_, -, run⟩ := returns_okOr_bind.mp run
  obtain ⟨_, -, run⟩ := returns_okOr_bind.mp run
  obtain ⟨items, isList, -⟩ := returns_okOr_bind.mp run
  exact ⟨items, isList⟩

theorem entries_have_paths {fileList : List Value} {files : List FileInfo} {total : Nat}
    {out : List FileInfo × Nat} {u : Unit}
    (run : Returns (parseFiles p fileList files total) () out u) :
    ∀ fileVal ∈ fileList, ∃ items, declaredPath fileVal = some items := by
  induction fileList generalizing files total with
  | nil =>
    intro fileVal member
    cases member
  | cons first rest ih =>
    obtain ⟨file, _, entry, run⟩ := returns_bind.mp run
    obtain ⟨sum, _, -, run⟩ := returns_bind.mp run
    intro fileVal member
    rcases List.mem_cons.mp member with rfl | later
    · exact entry_has_path entry
    · exact ih run fileVal later

theorem declared_layout {root info : Value} {fileList : List Value}
    (declares : DeclaresFiles p data fileList) (decoded : Returns (decode p data) () root ())
    (found : root.getStr "info" = some info) :
    info.getStr "length" = none ∧ info.getStr "files" = some (.list fileList) := by
  have listed := (returns_bind_step decoded).mp declares
  obtain ⟨files, -⟩ := returns_pure.mp listed
  rw [found, Option.bind_some] at files
  cases single : info.getStr "length" with
  | some lengthVal => simp [single] at files
  | none =>
    simp only [single, Option.isSome_none, Bool.false_eq_true, if_false] at files
    obtain ⟨filesVal, written, isList⟩ := Option.bind_eq_some_iff.mp files
    exact ⟨rfl, by rw [written, as_list_eq_some.mp isList]⟩

theorem accepted_paths {fileList : List Value} {m : Metainfo}
    (declares : DeclaresFiles p data fileList)
    (accepted : Returns (fromBytes p sha1 data) () m ()) :
    (∀ fileVal ∈ fileList, ∃ items, declaredPath fileVal = some items) ∧
      m.files.map FileInfo.path =
        fileList.map fun fileVal => ((declaredPath fileVal).getD []).filterMap Value.asStr := by
  obtain ⟨root, info, _, _, decoded, found, -, -, -, -, -, -, -, -, layout⟩ :=
    returns_fromBytes.mp accepted
  obtain ⟨multi, written⟩ := declared_layout declares decoded found
  simp only [parseLayout, multi, written] at layout
  obtain ⟨_, isList, layout⟩ := returns_okOr_bind.mp layout
  cases isList
  obtain ⟨⟨read, total⟩, _, loop, layout⟩ := returns_bind.mp layout
  obtain ⟨out, -⟩ := returns_pure.mp layout
  rw [← (Prod.mk.inj out).1]
  exact ⟨entries_have_paths loop, PathContainment.parseFiles_paths loop⟩

theorem pathsKept_iff_each {fileList : List Value} {files : List FileInfo} :
    PathsKept fileList files ↔
      fileList.map declaredPath = files.map fun file => some (file.path.map textValue) := by
  constructor
  · intro kept
    exact kept.each
  · intro each
    refine ⟨each, ?_⟩
    intro i j different same
    have declared : fileList.map declaredPath =
        (files.map FileInfo.path).map fun path => some (path.map textValue) := by
      rw [each, List.map_map]
      rfl
    have again := congrArg (Option.map fun path => some (path.map textValue)) same
    rw [← List.getElem?_map, ← List.getElem?_map, ← declared] at again
    exact different again

/-- An accepted multi-file torrent keeps its paths exactly when their components are texts. -/
theorem paths_kept_iff_texts {fileList : List Value} {m : Metainfo}
    (declares : DeclaresFiles p data fileList)
    (accepted : Returns (fromBytes p sha1 data) () m ()) :
    PathsKept fileList m.files ↔ TextPaths fileList := by
  obtain ⟨listed, paths⟩ := accepted_paths declares accepted
  have read : (m.files.map fun file => some (file.path.map textValue)) =
      fileList.map fun fileVal =>
        some ((((declaredPath fileVal).getD []).filterMap Value.asStr).map textValue) := by
    have again := congrArg (List.map fun path => some (path.map textValue)) paths
    rw [List.map_map, List.map_map] at again
    exact again
  rw [pathsKept_iff_each, read, List.map_inj_left]
  constructor
  · intro kept fileVal member items declared
    have same := kept fileVal member
    rw [declared, Option.getD_some, Option.some.injEq] at same
    exact texts_kept_iff.mp same
  · intro texts fileVal member
    obtain ⟨items, declared⟩ := listed fileVal member
    rw [declared, Option.getD_some, ← texts_kept_iff.mpr (texts fileVal member items declared)]

def entryOf (items : List Value) : Value :=
  .dict (OrderedMap.ofPairs [(utf8Bytes "length", .integer 1), (utf8Bytes "path", .list items)])

theorem paths_kept_iff_texts_nested :
    PathsKept [entryOf [textValue "b", textValue "../c"]] PathContainment.nestedMetainfo.files ↔
      TextPaths [entryOf [textValue "b", textValue "../c"]] :=
  @paths_kept_iff_texts .release (fun _ => .replicate 20 0) PathContainment.nestedTorrent _ _
    (by unfold DeclaresFiles; decide +kernel) (by decide +kernel)

/-- Two files are declared, one as `a` and then a byte that is no text, and the other as `a`. -/
def latinTorrent : ByteSeq :=
  ⟨utf8Bytes "d4:infod5:filesld6:lengthi1e4:pathl1:a1:" ++ [0xff] ++
    utf8Bytes "eed6:lengthi1e4:pathl1:aeee4:name1:n12:piece lengthi1e6:pieces0:ee", by
      decide +kernel⟩

def latinMetainfo : Metainfo :=
  ⟨"", [], .replicate 20 0, "n", 1, [], 2, [⟨1, ["a"]⟩, ⟨1, ["a"]⟩], false⟩

theorem latin_paths_collapse :
    DeclaresFiles .release latinTorrent
        [entryOf [textValue "a", .bytes [0xff]], entryOf [textValue "a"]] ∧
      Returns (fromBytes .release (fun _ => .replicate 20 0) latinTorrent) () latinMetainfo () ∧
      ¬ PathsKept [entryOf [textValue "a", .bytes [0xff]], entryOf [textValue "a"]]
          latinMetainfo.files := by
  refine ⟨by unfold DeclaresFiles; decide +kernel, by decide +kernel, ?_⟩
  intro kept
  exact kept.apart 0 1 (by decide +kernel) rfl

end DeclaredPaths
