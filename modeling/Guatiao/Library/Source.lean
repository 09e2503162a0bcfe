import Guatiao.Library.Registry

/-!
# Sources

A source serves libraries under ids, each with a stamp; a refresh asks it what it serves
now and makes the registry agree. What a source serves is filed under a path made of its
name and the library's id, and is retired by that path.
-/

namespace Guatiao.Library

open Lib

/-- A library a source offers. -/
structure Candidate where
  id : String
  stamp : String
  deriving DecidableEq

/-- What opening one candidate came to. -/
inductive Opening
  | opened (opened : Opened)
  /-- The source refused, in its own words. -/
  | refused (reason : String)
  deriving DecidableEq

/-- What a source, and the file system, answer during one refresh. -/
structure Answer where
  /-- The candidates, and a sentence for each entry that is not one. -/
  list : Except String (List Candidate × List String)
  /-- A sentence for each of its notes that is wrong. -/
  wrongNotes : List String
  /-- What opening a candidate, by id and stamp, comes to. -/
  «open» : String → String → Opening
  /-- The canonical path the file system answers as a candidate's library is recorded. -/
  canonical : String → Path

/-- A library a refresh loaded or retired. -/
structure Served where
  source : String
  id : String
  stamp : String
  key : String
  deriving DecidableEq

/-- Why a refresh could not do something: in words, or as the registry refused. -/
inductive Reason
  | words (text : String)
  | load (e : LoadError)
  deriving DecidableEq

structure Refused where
  source : String
  id : Option String
  reason : Reason
  deriving DecidableEq

/-- What a refresh changed, and what it could not do. -/
structure Refreshed where
  loaded : List Served
  retired : List Served
  skipped : List (String × String × Skipped)
  refused : List Refused
  deriving DecidableEq

def Refreshed.empty : Refreshed := ⟨[], [], [], []⟩

def Refreshed.append (a b : Refreshed) : Refreshed :=
  ⟨a.loaded ++ b.loaded, a.retired ++ b.retired, a.skipped ++ b.skipped, a.refused ++ b.refused⟩

/-- One source the registry holds. -/
structure SourceState where
  name : String
  /-- The stamp each id is serving under now. -/
  serving : SortedMap String String
  /-- The stamp each id was last opened, or tried, under. -/
  tried : SortedMap String String

/-- A registry, and the sources it refreshes. -/
structure Sources where
  registry : Registry
  sources : List SourceState

/-- Where a library a source served is filed. -/
def servedPath (source id : String) : Path := .ofText ("<" ++ source ++ ":" ++ id ++ ">")

/-- What a refresh of one source works on. -/
structure Refreshing where
  registry : Registry
  serving : SortedMap String String
  tried : SortedMap String String
  report : Refreshed

namespace Refreshing

def refuse (s : Refreshing) (source : String) (id : Option String) (reason : Reason) : Refreshing :=
  { s with report := { s.report with refused := s.report.refused ++ [⟨source, id, reason⟩] } }

/-- `retire_at`: retires the library filed at a path, if one is still registered. -/
def retireAt (s : Refreshing) (path : Path) (source id stamp : String) : Refreshing :=
  match s.registry.loaded.find? (·.path = path) with
  | none => s
  | some l =>
    match s.registry.takeLibrary l.key with
    | none => s
    | some (_, registry) => { s with
        registry
        report := { s.report with retired := s.report.retired ++ [⟨source, id, stamp, l.key⟩] } }

/-- Whatever the source serves under an id now is served no more, and retired. -/
def withdraw (s : Refreshing) (source id : String) : Refreshing :=
  match s.serving.get id with
  | none => s
  | some stamp =>
    { s with serving := s.serving.remove id }.retireAt (servedPath source id) source id stamp

/-- An id the source lists no more. -/
def gone (s : Refreshing) (source id : String) : Refreshing :=
  { s with tried := s.tried.remove id }.withdraw source id

/-- What opening a candidate came to is offered to the registry. -/
def absorb (s : Refreshing) (source : String) (canonical : Path) (c : Candidate) (opened : Opened) :
    Refreshing :=
  match s.registry.absorb (servedPath source c.id) source canonical opened with
  | (.loaded one, registry) => { s with
      registry
      serving := s.serving.insert c.id c.stamp
      report := { s.report with loaded := s.report.loaded ++ [⟨source, c.id, c.stamp, one.key⟩] } }
  | (.skipped why, registry) => { s with
      registry
      report := { s.report with skipped := s.report.skipped ++ [(source, c.id, why)] } }
  | (.error e, registry) => { s with registry }.refuse source (some c.id) (.load e)

/-- Why a library that calls itself otherwise than it was listed is refused. -/
def impostor (listed calls : String) : String :=
  "the source listed `" ++ listed ++ "` and opened a library that calls itself `" ++ calls ++ "`"

/-- One candidate: nothing is done where its stamp was tried already. The old build leaves
only once the new one has opened. -/
def candidate (s : Refreshing) (source : String) (answer : Answer) (c : Candidate) : Refreshing :=
  if s.tried.get c.id = some c.stamp then s
  else
    let s := { s with tried := s.tried.insert c.id c.stamp }
    match answer.open c.id c.stamp with
    | .refused reason => s.refuse source (some c.id) (.words reason)
    | .opened (.loaded library) =>
      if library.id ≠ c.id then s.refuse source (some c.id) (.words (impostor c.id library.id))
      else (s.withdraw source c.id).absorb source (answer.canonical c.id) c (.loaded library)
    | .opened opened => s.absorb source (answer.canonical c.id) c opened

/-- The loop over the candidates; `seen` are the ids met so far. -/
def candidates (s : Refreshing) (source : String) (answer : Answer) :
    List Candidate → List String → Refreshing
  | [], _ => s
  | c :: rest, seen =>
    if c.id ∈ seen then
      (s.refuse source (some c.id) (.words "the source listed it twice")).candidates source answer
        rest seen
    else (s.candidate source answer c).candidates source answer rest (c.id :: seen)

/-- The ids tried that are not listed now. -/
def goneIds (s : Refreshing) (listed : List Candidate) : List String :=
  s.tried.keys.filter (· ∉ listed.map Candidate.id)

/-- All a refresh does once the source has listed: what is gone leaves, then each candidate has
its turn. -/
def follow (s : Refreshing) (source : String) (answer : Answer) (listed : List Candidate) :
    Refreshing :=
  ((s.goneIds listed).foldl (·.gone source ·) s).candidates source answer listed []

end Refreshing

namespace Sources

def new : Sources := ⟨.new, []⟩

def hasSource (s : Sources) (name : String) : Bool := s.sources.any (·.name = name)

/-- `add_source`: `none` where a source by that name is already added. -/
def addSource (s : Sources) (name : String) : Option Sources :=
  if s.hasSource name then none else some { s with sources := s.sources ++ [⟨name, .empty, .empty⟩] }

/-- The refusals that name no candidate. -/
def refusals (source : String) (reasons : List String) : Refreshed :=
  ⟨[], [], [], reasons.map fun reason => ⟨source, none, .words reason⟩⟩

/-- What a refresh of one source begins with. -/
def refreshing (s : Sources) (st : SourceState) (wrong : List String) : Refreshing :=
  ⟨s.registry, st.serving, st.tried, refusals st.name wrong⟩

/-- `refresh_source`, with what it adds to the report. -/
def refreshSource (s : Sources) (at_ : ℕ) (answer : Answer) : Refreshed × Sources :=
  match s.sources[at_]? with
  | none => (.empty, s)
  | some st =>
    match answer.list with
    | .error reason => (refusals st.name (reason :: answer.wrongNotes), s)
    | .ok (listed, wrong) =>
      let done := (s.refreshing st (wrong ++ answer.wrongNotes)).follow st.name answer listed
      (done.report,
        ⟨done.registry, s.sources.set at_ { st with serving := done.serving, tried := done.tried }⟩)

/-- `refresh`: every source in turn. -/
def refresh (s : Sources) (answers : ℕ → Answer) : Refreshed × Sources :=
  (List.range s.sources.length).foldl
    (fun out at_ =>
      let turn := out.2.refreshSource at_ (answers at_)
      (out.1.append turn.1, turn.2))
    (.empty, s)

/-- What a host does: with the registry alone, or with its sources. -/
inductive Act
  | host (act : Registry.Act)
  | addSource (name : String)
  | refreshSource (at_ : ℕ) (answer : Answer)

def step (s : Sources) : Act → Option Sources
  | .host act => (s.registry.step act).map fun registry => { s with registry }
  | .addSource name => s.addSource name
  | .refreshSource at_ answer => some (s.refreshSource at_ answer).2

end Sources

end Guatiao.Library
