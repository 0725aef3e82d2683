import RustyTorrent.Tracker.AnnounceReports

/- Announce URLs that have a query already, such as a passkey. The announce puts its own query
   in the place of it. -/
namespace OwnQuery
open PercentText TrackerAnnounce HttpTracker AnnounceReports

def parameters (query : String) : List (List Char) :=
  (query.toList.splitOn '&').filter fun piece => piece ≠ []

structure UrlParts (pkg : UrlPackage) where
  scheme : pkg.Url → String
  host : pkg.Url → Option String
  port : pkg.Url → Option Nat
  path : pkg.Url → String

/-- What the client relies on in the url package. -/
structure UrlLaws (pkg : UrlPackage) (parts : UrlParts pkg) : Prop where
  setsQuery : KeepsQuery pkg
  keepsScheme : ∀ url query, parts.scheme (pkg.setQuery url query) = parts.scheme url
  keepsHost : ∀ url query, parts.host (pkg.setQuery url query) = parts.host url
  keepsPort : ∀ url query, parts.port (pkg.setQuery url query) = parts.port url
  keepsPath : ∀ url query, parts.path (pkg.setQuery url query) = parts.path url
  parsesText : ∀ url, pkg.parse (pkg.toText url) = .ok url

/-- The URL that is built has the address of the old one, its parameters and those of the
    announce, whatever is read off a parameter. -/
structure Extends {κ : Type} (pkg : UrlPackage) (parts : UrlParts pkg) (read : List Char → κ)
    (facts : AnnounceFacts) (old new : pkg.Url) : Prop where
  scheme : parts.scheme new = parts.scheme old
  host : parts.host new = parts.host old
  port : parts.port new = parts.port old
  path : parts.path new = parts.path old
  added : ∃ query, pkg.query new = some query ∧
    ∀ param ∈ queryParts facts, param ∈ parameters query
  kept : ∀ own, pkg.query old = some own → ∃ query, pkg.query new = some query ∧
    ∀ param ∈ parameters own, read param ∈ (parameters query).map read

variable {pkg : UrlPackage} {parts : UrlParts pkg} {announce : String} {url : pkg.Url}

theorem param_not_empty {key : String} {value : List Char} : param key value ≠ [] := by
  simp [param]

theorem parameters_announce (facts : AnnounceFacts) :
    parameters (String.ofList (announceQuery facts)) = queryParts facts := by
  rw [parameters, String.toList_ofList, queryParts_split, List.filter_eq_self]
  intro piece member
  simp only [queryParts, List.mem_cons, List.not_mem_nil, or_false] at member
  rcases member with rfl | rfl | rfl | rfl | rfl | rfl | rfl <;> simp [param_not_empty]

theorem build_parses (laws : UrlLaws pkg parts) (parsed : pkg.parse announce = .ok url)
    (facts : AnnounceFacts) : ∃ text, buildAnnounceUrl pkg announce facts = .ok text ∧
      pkg.parse text =
        .ok (pkg.setQuery url (some (String.ofList (announceQuery facts)))) := by
  refine ⟨_, ?_, laws.parsesText _⟩
  unfold buildAnnounceUrl
  rw [parsed]

theorem query_installed (laws : UrlLaws pkg parts) (url : pkg.Url) (facts : AnnounceFacts) :
    pkg.query (pkg.setQuery url (some (String.ofList (announceQuery facts)))) =
      some (String.ofList (announceQuery facts)) :=
  laws.setsQuery _ _ (by simpa using announceQuery_chars facts)

theorem extends_iff {κ : Type} (laws : UrlLaws pkg parts) (read : List Char → κ)
    (facts : AnnounceFacts) :
    Extends pkg parts read facts url
        (pkg.setQuery url (some (String.ofList (announceQuery facts)))) ↔
      ∀ own, pkg.query url = some own →
        ∀ param ∈ parameters own, read param ∈ (queryParts facts).map read := by
  have installed := query_installed laws url facts
  constructor
  · intro extended own here
    obtain ⟨query, found, kept⟩ := extended.kept own here
    rw [installed] at found
    rwa [← Option.some.inj found, parameters_announce] at kept
  · intro covered
    exact {
      scheme := laws.keepsScheme _ _
      host := laws.keepsHost _ _
      port := laws.keepsPort _ _
      path := laws.keepsPath _ _
      added := ⟨_, installed, by rw [parameters_announce]; exact fun _ h => h⟩
      kept := fun own here => ⟨_, installed, by rw [parameters_announce]; exact covered own here⟩ }

/-- The own query survives exactly where the announce has every parameter of it, too. -/
theorem own_query_kept_iff {κ : Type} {pkg : UrlPackage} {parts : UrlParts pkg}
    (laws : UrlLaws pkg parts) {announce : String} {url : pkg.Url}
    (parsed : pkg.parse announce = .ok url) (read : List Char → κ) (facts : AnnounceFacts) :
    (∃ text new, buildAnnounceUrl pkg announce facts = .ok text ∧ pkg.parse text = .ok new ∧
      Extends pkg parts read facts url new) ↔
      ∀ own, pkg.query url = some own →
        ∀ param ∈ parameters own, read param ∈ (queryParts facts).map read := by
  obtain ⟨text, built, back⟩ := build_parses laws parsed facts
  rw [← extends_iff laws]
  constructor
  · intro parts
    obtain ⟨text', new, built', back', extended⟩ := parts
    rw [built] at built'
    cases built'
    rw [back] at back'
    cases back'
    exact extended
  · intro extended
    exact ⟨text, _, built, back, extended⟩

structure CutUrl where
  front : List Char
  query : Option (List Char)
  absolute : ':' ∈ front
  cut : '?' ∉ front

def CutUrl.text (url : CutUrl) : List Char :=
  url.front ++ (url.query.map ('?' :: ·)).getD []

def CutUrl.parse (text : List Char) : Except String CutUrl :=
  if absolute : ':' ∈ (splitFirst '?' text).1 then
    .ok ⟨(splitFirst '?' text).1, (splitFirst '?' text).2, absolute, splitFirst_absent '?' text⟩
  else .error "relative URL without a base"

theorem CutUrl.parse_text (url : CutUrl) : CutUrl.parse url.text = .ok url := by
  obtain ⟨front, query, absolute, cut⟩ := url
  have same : splitFirst '?' (CutUrl.text ⟨front, query, absolute, cut⟩) = (front, query) := by
    cases query with
    | none => simp [CutUrl.text, splitFirst_none cut]
    | some query => exact splitFirst_found cut
  unfold CutUrl.parse
  simp [same, absolute]

def CutUrl.authority (url : CutUrl) : List Char :=
  (splitFirst '/' ((splitFirst ':' url.front).2.getD [] |>.drop 2)).1

abbrev cutPackage : UrlPackage where
  Url := CutUrl
  parse text := CutUrl.parse text.toList
  setQuery url query := { url with query := query.map String.toList }
  query url := url.query.map String.ofList
  toText url := String.ofList url.text

abbrev cutParts : UrlParts cutPackage where
  scheme url := String.ofList (splitFirst ':' url.front).1
  host url := some (String.ofList (splitFirst ':' url.authority).1)
  port url := (splitFirst ':' url.authority).2.bind fun digits => (String.ofList digits).toNat?
  path url := String.ofList
    ('/' :: ((splitFirst '/' ((splitFirst ':' url.front).2.getD [] |>.drop 2)).2.getD []))

theorem cutLaws : UrlLaws cutPackage cutParts where
  setsQuery url query _ := by simp
  keepsScheme _ _ := rfl
  keepsHost _ _ := rfl
  keepsPort _ _ := rfl
  keepsPath _ _ := rfl
  parsesText url := by
    have same : (String.ofList (CutUrl.text url)).toList = CutUrl.text url := String.toList_ofList
    exact (congrArg CutUrl.parse same).trans (CutUrl.parse_text url)

def trackerUrl (own : String) : CutUrl where
  front := "http://t.example:8080/announce".toList
  query := some own.toList
  absolute := by simp
  cut := by simp

theorem trackerUrl_parsed {own announce : String}
    (same : announce = "http://t.example:8080/announce" ++ "?" ++ own) :
    cutPackage.parse announce = .ok (trackerUrl own) := by
  have text : announce.toList = (trackerUrl own).text := by
    rw [same, String.toList_append, String.toList_append, List.append_assoc]
    rfl
  exact (congrArg CutUrl.parse text).trans (CutUrl.parse_text _)

theorem trackerUrl_query (own : String) : cutPackage.query (trackerUrl own) = some own :=
  congrArg some String.ofList_toList

theorem own_query_kept_iff_compact :
    let facts : AnnounceFacts := ⟨.replicate 20 0x26, .replicate 20 0x25, 6881, 1, 2, 3⟩
    ∃ text new,
      buildAnnounceUrl cutPackage "http://t.example:8080/announce?compact=1" facts = .ok text ∧
      cutPackage.parse text = .ok new ∧
      Extends cutPackage cutParts (splitFirst '=') facts (trackerUrl "compact=1") new := by
  intro facts
  have parsed := @trackerUrl_parsed "compact=1" "http://t.example:8080/announce?compact=1"
    (by decide)
  refine (own_query_kept_iff cutLaws parsed (splitFirst '=') facts).mpr ?_
  intro own here param member
  rw [trackerUrl_query] at here
  have one : parameters "compact=1" = ["compact=1".toList] := by decide
  rw [← Option.some.inj here, one, List.mem_singleton] at member
  rw [member]
  decide

/-- A passkey is gone from the URL that is built. -/
theorem passkey_lost :
    let facts : AnnounceFacts := ⟨.replicate 20 0x26, .replicate 20 0x25, 6881, 1, 2, 3⟩
    cutPackage.parse "http://t.example:8080/announce?passkey=abc" =
        .ok (trackerUrl "passkey=abc") ∧
      ∃ text new,
        buildAnnounceUrl cutPackage "http://t.example:8080/announce?passkey=abc" facts =
          .ok text ∧
        cutPackage.parse text = .ok new ∧
        ¬ Extends cutPackage cutParts (splitFirst '=') facts (trackerUrl "passkey=abc") new := by
  intro facts
  have parsed := @trackerUrl_parsed "passkey=abc" "http://t.example:8080/announce?passkey=abc"
    (by decide)
  obtain ⟨text, built, back⟩ := build_parses cutLaws parsed facts
  refine ⟨parsed, text, _, built, back, ?_⟩
  rw [extends_iff cutLaws]
  intro covered
  have lost := covered _ (trackerUrl_query _) "passkey=abc".toList (by decide)
  exact absurd lost (by decide)

end OwnQuery
