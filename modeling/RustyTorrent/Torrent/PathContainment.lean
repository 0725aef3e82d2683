import RustyTorrent.Library.UnixPaths
import RustyTorrent.Torrent.AcceptedTorrent

/- Where the names of a torrent put its files: the output path of src/torrent/metainfo.rs, the
   download path of src/main.rs, and the paths of the single files below it. -/
namespace PathContainment
open RustExec OrderedMaps Utf8Text UnixPaths BencodeValue BencodeDecoder TorrentMetainfo
  AcceptedTorrent

variable {p : Profile} {sha1 : Bytes → Digest} {data : ByteSeq}

def outputPath (self : Metainfo) (baseDir : Bytes) : Bytes := push baseDir (utf8Bytes self.name)

/-- The path that cmd_download writes to, where `output` is the option of the command line. -/
def downloadPath (output : Option Bytes) (downloadDir : Bytes) (torrent : Metainfo) : Bytes :=
  output.getD (push downloadDir (utf8Bytes torrent.name))

def filePath (self : Metainfo) (baseDir : Bytes) (file : FileInfo) : Bytes :=
  pushAll (outputPath self baseDir) (file.path.map utf8Bytes)

def StaysInside (m : Metainfo) : Prop :=
  ∀ base, Below (place base) (place (outputPath m base)) ∧
    Below (place base) (place (downloadPath none base m)) ∧
    ∀ file ∈ m.files, Below (place base) (place (filePath m base file))

/-- The paths that an info dictionary declares for its files, each with the components that
    are texts. -/
def declaredPaths (info : Value) (name : String) : List (List String) :=
  match info.getStr "length" with
  | some _ => [[name]]
  | none => (((info.getStr "files").bind Value.asList).getD []).map fun fileVal =>
      (((fileVal.getStr "path").bind Value.asList).getD []).filterMap Value.asStr

/-- The declared name is contained, alone and with each of the declared paths behind it. -/
def NamesContained (info : Value) : Prop :=
  ∀ name, info.getStr "name" = some (.bytes (utf8Bytes name)) →
    Contained [utf8Bytes name] ∧
      ∀ path ∈ declaredPaths info name, Contained (utf8Bytes name :: path.map utf8Bytes)

theorem parseFiles_paths {fileList : List Value} {files read : List FileInfo} {total sum : Nat}
    {u : Unit} (run : Returns (parseFiles p fileList files total) () (read, sum) u) :
    read.map FileInfo.path = files.map FileInfo.path ++ fileList.map fun fileVal =>
      (((fileVal.getStr "path").bind Value.asList).getD []).filterMap Value.asStr := by
  induction fileList generalizing files total with
  | nil =>
    obtain ⟨same, -⟩ := returns_pure.mp run
    cases same
    simp
  | cons fileVal rest ih =>
    obtain ⟨file, _, entry, run⟩ := returns_bind.mp run
    obtain ⟨next, _, -, run⟩ := returns_bind.mp run
    obtain ⟨_, -, entry⟩ := returns_okOr_bind.mp entry
    obtain ⟨_, -, entry⟩ := returns_okOr_bind.mp entry
    obtain ⟨pathList, isList, entry⟩ := returns_okOr_bind.mp entry
    obtain ⟨rfl, -⟩ := returns_pure.mp entry
    rw [ih run]
    simp [isList]

theorem layout_paths {info : Value} {name : String} {files : List FileInfo}
    {totalLength : UInt64} {single : Bool}
    (run : Returns (parseLayout p info name) () (files, totalLength, single) ()) :
    files.map FileInfo.path = declaredPaths info name := by
  unfold parseLayout at run
  unfold declaredPaths
  cases single : info.getStr "length" with
  | some lengthVal =>
    simp only [single] at run
    obtain ⟨length, -, run⟩ := returns_okOr_bind.mp run
    obtain ⟨out, -⟩ := returns_pure.mp run
    cases out
    rfl
  | none =>
    cases written : info.getStr "files" with
    | some filesVal =>
      simp only [single, written] at run
      obtain ⟨fileList, isList, run⟩ := returns_okOr_bind.mp run
      obtain ⟨⟨read, total⟩, _, loop, run⟩ := returns_bind.mp run
      obtain ⟨out, -⟩ := returns_pure.mp run
      cases out
      simp [parseFiles_paths loop, isList]
    | none =>
      simp only [single, written] at run
      exact absurd run returns_fail

theorem staysInside_iff {m : Metainfo} :
    StaysInside m ↔ Contained [utf8Bytes m.name] ∧
      ∀ path ∈ m.files.map FileInfo.path,
        Contained (utf8Bytes m.name :: path.map utf8Bytes) := by
  constructor
  · intro inside
    refine ⟨pushed_below_iff.mp fun base => (inside base).1, ?_⟩
    intro path member
    obtain ⟨file, here, rfl⟩ := List.mem_map.mp member
    exact pushed_below_iff.mp fun base => (inside base).2.2 file here
  · rintro ⟨name, paths⟩ base
    refine ⟨pushed_below_iff.mpr name base, pushed_below_iff.mpr name base, ?_⟩
    intro file member
    exact pushed_below_iff.mpr (paths file.path (List.mem_map_of_mem member)) base

theorem namesContained_iff {info : Value} {m : Metainfo}
    (named : info.getStr "name" = some (.bytes (utf8Bytes m.name)))
    (paths : m.files.map FileInfo.path = declaredPaths info m.name) :
    NamesContained info ↔ StaysInside m := by
  rw [staysInside_iff, paths]
  constructor
  · intro contained
    exact contained m.name named
  · intro contained name same
    rw [named, Option.some.injEq, Value.bytes.injEq, utf8Bytes_inj] at same
    subst same
    exact contained

/-- An accepted torrent stays inside every directory exactly when its names are contained. -/
theorem stays_inside_iff_names {m : Metainfo}
    (accepted : Returns (fromBytes p sha1 data) () m ()) :
    StaysInside m ↔ ∃ root info, Returns (decode p data) () (.dict root) () ∧
      (Value.dict root).getStr "info" = some info ∧ NamesContained info := by
  obtain ⟨root, info, _, _, decoded, found, -, -, -, named, -, -, -, -, layout⟩ :=
    returns_fromBytes.mp accepted
  have exact := namesContained_iff named (layout_paths layout)
  constructor
  · intro inside
    exact ⟨root, .dict info, decoded, found, exact.mpr inside⟩
  · intro parts
    obtain ⟨root', info', decoded', found', contained⟩ := parts
    obtain ⟨same, -⟩ := returns_unique decoded' decoded
    rw [same, found, Option.some.injEq] at found'
    subst found'
    exact exact.mp contained

def nestedTorrent : ByteSeq :=
  ⟨utf8Bytes ("d4:infod5:filesld6:lengthi1e4:pathl1:b4:../ceee" ++
    "4:name1:a12:piece lengthi1e6:pieces0:ee"), by decide +kernel⟩

def nestedMetainfo : Metainfo :=
  ⟨"", [], .replicate 20 0, "a", 1, [], 1, [⟨1, ["b", "../c"]⟩], false⟩

theorem stays_inside_iff_names_nested : StaysInside nestedMetainfo ∧
    ∃ root info, Returns (decode .release nestedTorrent) () (.dict root) () ∧
      (Value.dict root).getStr "info" = some info ∧ NamesContained info := by
  have accepted : Returns (fromBytes .release (fun _ => .replicate 20 0) nestedTorrent) ()
      nestedMetainfo () := by decide +kernel
  have inside : StaysInside nestedMetainfo := by
    rw [staysInside_iff]
    refine ⟨⟨by decide +kernel, 1, by decide, by decide +kernel⟩, ?_⟩
    intro path member
    obtain rfl := List.mem_singleton.mp member
    exact ⟨by decide +kernel, 2, by decide, by decide +kernel⟩
  exact ⟨inside, (stays_inside_iff_names accepted).mp inside⟩

def climbingTorrent : ByteSeq :=
  ⟨utf8Bytes "d4:infod6:lengthi1e4:name7:../../x12:piece lengthi1e6:pieces0:ee",
    by decide +kernel⟩

def climbingMetainfo : Metainfo :=
  ⟨"", [], .replicate 20 0, "../../x", 1, [], 1, [⟨1, ["../../x"]⟩], true⟩

/-- Pushed onto `/home/u`, the accepted name leads to `/x`. -/
theorem climbing_name_accepted :
    Returns (fromBytes .release (fun _ => .replicate 20 0) climbingTorrent) ()
        climbingMetainfo () ∧
      place (outputPath climbingMetainfo (utf8Bytes "/home/u")) = place (utf8Bytes "/x") ∧
      ¬ StaysInside climbingMetainfo := by
  have outside : place (outputPath climbingMetainfo (utf8Bytes "/home/u")) =
      place (utf8Bytes "/x") := by decide +kernel
  refine ⟨by decide +kernel, outside, ?_⟩
  intro inside
  obtain ⟨-, names, -, further⟩ := (inside (utf8Bytes "/home/u")).1
  rw [outside] at further
  have size := congrArg List.length further
  have short : (place (utf8Bytes "/x")).names.length = 1 := by decide +kernel
  have long : (place (utf8Bytes "/home/u")).names.length = 2 := by decide +kernel
  rw [List.length_append, short, long] at size
  omega

end PathContainment
