import RustyTorrent.Library.ErrorRuns
import RustyTorrent.Torrent.MagnetHash

/- Magnet links to which parameters are added: what is parsed from the whole, from what is parsed
   from the two parts. -/
namespace MagnetComposition
open RustExec StrSlices MagnetUri MagnetHash

def nameOf (query : List Char) : Option String :=
  (((query.splitOn '&').map splitParam).find? fun param => param.1 = keyDn).map fun param =>
    String.ofList (urlDecode param.2)

def trackersOf (query : List Char) : List String :=
  (((query.splitOn '&').map splitParam).filter fun param => param.1 = keyTr).map fun param =>
    String.ofList (urlDecode param.2)

def followedBy (link : MagnetLink) (query : List Char) : MagnetLink where
  infoHash := link.infoHash
  displayName := link.displayName.or (nameOf query)
  trackers := link.trackers ++ trackersOf query

def precededBy (link : MagnetLink) (query : List Char) : MagnetLink where
  infoHash := link.infoHash
  displayName := (nameOf query).or link.displayName
  trackers := trackersOf query ++ link.trackers

variable {first more query uri : List Char} {infoHash : Vector UInt8 20}

theorem params_append (first more : List Char) :
    ((first ++ '&' :: more).splitOn '&').map splitParam =
      (first.splitOn '&').map splitParam ++ (more.splitOn '&').map splitParam := by
  rw [List.splitOn_append_cons_self, List.map_append]

theorem xtValue_append (first more : List Char) :
    xtValue (first ++ '&' :: more) = (xtValue first).or (xtValue more) := by
  rw [xtValue, params_append, List.find?_append, Option.map_or]
  rfl

theorem nameOf_append (first more : List Char) :
    nameOf (first ++ '&' :: more) = (nameOf first).or (nameOf more) := by
  rw [nameOf, params_append, List.find?_append, Option.map_or]
  rfl

theorem trackersOf_append (first more : List Char) :
    trackersOf (first ++ '&' :: more) = trackersOf first ++ trackersOf more := by
  rw [trackersOf, params_append, List.filter_append, List.map_append]
  rfl

theorem linkOf_eq (query : List Char) (infoHash : Vector UInt8 20) :
    linkOf query infoHash = ⟨infoHash, nameOf query, trackersOf query⟩ := rfl

theorem linkOf_followed : linkOf (first ++ '&' :: more) infoHash =
    followedBy (linkOf first infoHash) more := by
  rw [linkOf_eq, nameOf_append, trackersOf_append]
  rfl

theorem linkOf_preceded : linkOf (first ++ '&' :: more) infoHash =
    precededBy (linkOf more infoHash) first := by
  rw [linkOf_eq, nameOf_append, trackersOf_append]
  rfl

theorem outcome_bind_pure {σ ε α β : Type} (x : Exec σ ε α) (f : α → β) (s : σ) :
    ((x >>= fun a => pure (f a)) s).outcome = (x s).outcome.map f := by
  change (Exec.bind x (fun a => pure (f a)) s).outcome = _
  unfold Exec.bind
  rcases x s with ⟨o, s', events⟩
  cases o <;> rfl

theorem outcome_map_map {ε α β γ : Type} (o : Outcome ε α) (f : α → β) (g : β → γ) :
    (o.map f).map g = o.map fun a => g (f a) := by
  cases o <;> rfl

theorem parse_with_xt {xt : List Char} (found : xtValue query = some xt) :
    (parse (scheme ++ query) ()).outcome = (parseXt xt ()).outcome.map (linkOf query) := by
  rw [parse_scheme, found]
  exact outcome_bind_pure (parseXt xt) (linkOf query) ()

theorem parse_without_xt (none : xtValue query = none) :
    (parse (scheme ++ query) ()).outcome = .err .missingInfoHash := by
  rw [parse_scheme, none]
  rfl

theorem sliceStr_not_fails {σ ε : Type} {text : List Char} {start stop : Nat} {s : σ} {e : ε} :
    ¬ Fails (sliceStr text start stop : Exec σ ε (List Char)) s e := by
  intro failed
  unfold Fails sliceStr at failed
  rcases front : cutBytes start text with _ | ⟨before, rest⟩
  · rw [front] at failed
    cases failed
  · rcases inside : cutBytes (stop - start) rest with _ | ⟨cut, behind⟩
    · simp only [front, inside] at failed
      cases failed
    · simp only [front, inside] at failed
      split at failed <;> cases failed

theorem hashLoop_error {hashHex : List Char} {i remaining : Nat} {e : MagnetError}
    (failed : Fails (hashLoop hashHex i remaining infoHash) () e) :
    ∃ text, e = .hexDecode text := by
  induction remaining generalizing i infoHash with
  | zero => exact absurd failed ErrorRuns.fails_pure
  | succ remaining ih =>
    rcases ErrorRuns.fails_bind.mp failed with sliced | ⟨digits, _, -, failed⟩
    · exact absurd sliced sliceStr_not_fails
    · rcases ErrorRuns.fails_bind.mp failed with read | ⟨byte, u, -, failed⟩
      · cases value : PercentText.byteFromHex digits with
        | ok byte =>
          rw [value] at read
          cases read
        | error error =>
          rw [value] at read
          cases read
          exact ⟨_, rfl⟩
      · exact ih failed

theorem parseXt_not_missing (xt : List Char) : ¬ Fails (parseXt xt) () .missingInfoHash := by
  intro failed
  rcases ErrorRuns.fails_bind.mp failed with other | ⟨hashHex, _, -, failed⟩
  · cases (ErrorRuns.fails_okOr.mp other).2
  · split at failed
    · cases failed
    · obtain ⟨text, same⟩ := hashLoop_error failed
      cases same

theorem missing_iff : (parse (scheme ++ query) ()).outcome = .err .missingInfoHash ↔
    xtValue query = none := by
  refine ⟨?_, parse_without_xt⟩
  intro missing
  cases found : xtValue query with
  | none => rfl
  | some xt =>
    rw [parse_with_xt found] at missing
    cases read : (parseXt xt ()).outcome with
    | err e =>
      rw [read] at missing
      cases missing
      exact absurd read (parseXt_not_missing xt)
    | _ =>
      rw [read] at missing
      cases missing

theorem parse_other_scheme (other : ¬ scheme <+: uri) :
    (parse uri ()).outcome = .err .invalidScheme := by
  unfold parse
  rw [if_pos (by simpa using other)]
  rfl

theorem scheme_append : scheme <+: uri ++ '&' :: more ↔ scheme <+: uri := by
  refine ⟨?_, fun starts => starts.trans (List.prefix_append _ _)⟩
  intro starts
  rcases List.prefix_or_prefix_of_prefix starts (List.prefix_append uri _) with whole | part
  · exact whole
  · obtain ⟨rest, split⟩ := part
    rw [← split, List.prefix_append_right_inj] at starts
    cases rest with
    | nil => exact ⟨[], by rw [← split, List.append_nil, List.append_nil]⟩
    | cons c rest =>
      have same : c = '&' := (List.cons_prefix_cons.mp starts).1
      have member : '&' ∈ scheme := by
        rw [← split, same]
        simp
      exact absurd member (by decide)

/-- Parameters that are added to a link count where it does not say the same already: the first
    hash and the first name stay, in an error or a panic too, and the trackers are added. -/
theorem links_compose (uri more : List Char) :
    ((parse uri ()).outcome ≠ .err .missingInfoHash →
      (parse (uri ++ '&' :: more) ()).outcome =
        (parse uri ()).outcome.map fun link => followedBy link more) ∧
    ((parse uri ()).outcome = .err .missingInfoHash →
      (parse (uri ++ '&' :: more) ()).outcome =
        (parse (scheme ++ more) ()).outcome.map fun link => precededBy link (uri.drop 8)) := by
  by_cases starts : scheme <+: uri
  · obtain ⟨query, rfl⟩ := starts
    rw [List.append_assoc, ne_eq, missing_iff]
    constructor
    · intro told
      obtain ⟨xt, found⟩ := Option.ne_none_iff_exists'.mp told
      have whole : xtValue (query ++ '&' :: more) = some xt := by
        rw [xtValue_append, found]
        rfl
      rw [parse_with_xt found, parse_with_xt whole, outcome_map_map]
      congr 1
      funext infoHash
      exact linkOf_followed
    · intro silent
      have later : xtValue (query ++ '&' :: more) = xtValue more := by
        rw [xtValue_append, silent]
        rfl
      have behind : (scheme ++ query).drop 8 = query := rfl
      rw [behind]
      cases found : xtValue more with
      | none =>
        rw [parse_without_xt found, parse_without_xt (later.trans found)]
        rfl
      | some xt =>
        rw [parse_with_xt found, parse_with_xt (later.trans found), outcome_map_map]
        congr 1
        funext infoHash
        exact linkOf_preceded
  · have wrong := parse_other_scheme starts
    rw [wrong, parse_other_scheme (mt scheme_append.mp starts)]
    exact ⟨fun _ => rfl, fun missing => by cases missing⟩

end MagnetComposition
