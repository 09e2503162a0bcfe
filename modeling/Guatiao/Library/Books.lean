import Guatiao.Library.Isolation

/-!
# The books a refresh keeps

For each source the registry records which stamp each id serves under and which it was last
tried under. A trace tells what was listed, opened, taken in and retired; the records agree
with it after every refresh.
-/

namespace Guatiao.Library

open Lib

/-- What refreshes and hosts are seen to do. -/
inductive Event
  /-- A source answered a listing. -/
  | listed (source : String) (candidates : List Candidate)
  | opened (source id stamp : String)
  /-- What a candidate opened as was taken in, under this lease. -/
  | loaded (source id stamp : String) (lease : ℕ)
  /-- A refresh retired the library of this lease. -/
  | retired (lease : ℕ)
  /-- The host retired it. -/
  | hostRetired (lease : ℕ)
  deriving DecidableEq

namespace Event

/-- The last listing a source answered. -/
def hear (source : String) (last : Option (List Candidate)) : Event → Option (List Candidate)
  | .listed name candidates => if name = source then some candidates else last
  | _ => last

def lastListing (trace : List Event) (source : String) : Option (List Candidate) :=
  trace.foldl (hear source) none

/-- The stamp an id was last opened under, forgotten where a listing leaves it out. -/
def try_ (source id : String) (last : Option String) : Event → Option String
  | .listed name candidates =>
    if name = source ∧ id ∉ candidates.map Candidate.id then none else last
  | .opened name k stamp => if name = source ∧ k = id then some stamp else last
  | _ => last

def lastTried (trace : List Event) (source id : String) : Option String :=
  trace.foldl (try_ source id) none

/-- The last build taken in for an id, with the stamp it was opened under. -/
def build (source id : String) (last : Option (String × ℕ)) : Event → Option (String × ℕ)
  | .loaded name k stamp lease => if name = source ∧ k = id then some (stamp, lease) else last
  | _ => last

def lastBuild (trace : List Event) (source id : String) : Option (String × ℕ) :=
  trace.foldl (build source id) none

/-- A source listed an id at some time. -/
def Lists (trace : List Event) (source id : String) : Prop :=
  ∃ candidates, .listed source candidates ∈ trace ∧ id ∈ candidates.map Candidate.id

end Event

/-- The leases of the libraries one registry has and another has not. -/
def Registry.without (r r' : Registry) : List ℕ :=
  (r.loaded.map Loaded.lease).filter (· ∉ r'.loaded.map Loaded.lease)

namespace Refreshing

/-- What the turn of a candidate is seen to do. -/
def turnEvents (source : String) (answer : Answer) (s : Refreshing) (c : Candidate) : List Event :=
  let s' := s.candidate source answer c
  (if s.tried.get c.id = some c.stamp then [] else [.opened source c.id c.stamp]) ++
    (s.registry.without s'.registry).map .retired ++
    (s'.registry.without s.registry).map (.loaded source c.id c.stamp)

/-- What a refresh of one source is seen to do, once it has listed. -/
def followEvents (s : Refreshing) (source : String) (answer : Answer) (listed : List Candidate) :
    List Event :=
  let left := (s.goneIds listed).foldl (·.gone source ·) s
  .listed source listed :: (s.registry.without left.registry).map .retired ++
    (s.followTurns source answer listed).flatMap fun t => turnEvents source answer t.1 t.2

end Refreshing

/-- The sources a host refreshes, and what has been seen so far. -/
structure Books where
  sources : Sources
  trace : List Event

namespace Books

def new : Books := ⟨.new, []⟩

/-- What a refresh of one source is seen to do. -/
def refreshEvents (s : Sources) (at_ : ℕ) (answer : Answer) : List Event :=
  match s.sources[at_]? with
  | none => []
  | some st =>
    match answer.list with
    | .error _ => []
    | .ok (listed, wrong) =>
      (s.refreshing st (wrong ++ answer.wrongNotes)).followEvents st.name answer listed

def refreshSource (b : Books) (at_ : ℕ) (answer : Answer) : Books :=
  ⟨(b.sources.refreshSource at_ answer).2, b.trace ++ refreshEvents b.sources at_ answer⟩

/-- `refresh`: every source in turn. -/
def refresh (b : Books) (answers : ℕ → Answer) : Books :=
  (List.range b.sources.sources.length).foldl (fun b at_ => b.refreshSource at_ (answers at_)) b

/-- What a host does: with the registry alone, or with its sources. -/
inductive Act
  | host (act : Registry.Act)
  | addSource (name : String)
  | refreshSource (at_ : ℕ) (answer : Answer)

def step (b : Books) : Act → Option Books
  | .host act => (b.sources.registry.step act).map fun registry =>
      ⟨{ b.sources with registry }, b.trace ++ (b.sources.registry.without registry).map .hostRetired⟩
  | .addSource name => (b.sources.addSource name).map fun sources => ⟨sources, b.trace⟩
  | .refreshSource at_ answer => some (b.refreshSource at_ answer)

/-- A library that is registered from a source under an id. -/
structure Registered (b : Books) (name k : String) (l : Loaded) : Prop where
  loaded : l ∈ b.sources.registry.loaded
  source : l.source = name
  id : l.id = k
  path : l.path = servedPath name k

/-- The host retired the last build taken in for an id. -/
def HostRetired (b : Books) (source id : String) : Prop :=
  ∃ stamp lease, Event.lastBuild b.trace source id = some (stamp, lease) ∧
    .hostRetired lease ∈ b.trace

/-- What is registered from a source, what its record says and what it listed agree. -/
structure Agrees (b : Books) (st : SourceState) (listed : List Candidate) : Prop where
  registered_iff : ∀ id, (∃ l, b.Registered st.name id l) ↔
    (∃ stamp, st.serving.get id = some stamp) ∧ ¬ b.HostRetired st.name id
  build : ∀ id l, b.Registered st.name id l → ∃ stamp, st.serving.get id = some stamp ∧
    Event.lastBuild b.trace st.name id = some (stamp, l.lease)
  listed : ∀ id l, b.Registered st.name id l → id ∈ listed.map Candidate.id

/-- A candidate that is opened again has another stamp than before, or was left out of a listing in
between. -/
def OpenedAnew (trace : List Event) : Prop :=
  ∀ before between after source id stamp stamp',
    trace = before ++ .opened source id stamp' :: between ++ .opened source id stamp :: after →
    (∀ s, .opened source id s ∉ between) →
    stamp ≠ stamp' ∨ ∃ candidates, .listed source candidates ∈ between ∧
      id ∉ candidates.map Candidate.id

/-- Each source that answers lists what it listed last. -/
def SameListings (b : Books) (answers : ℕ → Answer) : Prop :=
  ∀ at_ st, b.sources.sources[at_]? = some st → ∀ listed wrong,
    (answers at_).list = .ok (listed, wrong) → Event.lastListing b.trace st.name = some listed

/-- No two of the pairs listed have one path. -/
def PathsDiffer (trace : List Event) : Prop :=
  ∀ source id source' id', Event.Lists trace source id → Event.Lists trace source' id' →
    servedPath source id = servedPath source' id' → source = source' ∧ id = id'

/-- Where a host's call files a library. -/
def filesAt : Registry.Act → Option Path
  | .load path .. => some path
  | .registerLocal name .. => some (.ofText ("<" ++ name ++ ">"))
  | .absorb path .. => some path
  | _ => none

/-- A host that files no library of its own at the path of a library some source serves. -/
def Act.Elsewhere (s : Sources) : Act → Prop
  | .host act => ∀ path, filesAt act = some path → ∀ st ∈ s.sources, ∀ id,
      path ≠ servedPath st.name id
  | _ => True

end Books

end Guatiao.Library
