import Guatiao.Library.Published
import Guatiao.Library.Source

/-!
# Who holds a library

A registered library has a lease, one reference count that the registry's record, the views of its
providers, the published snapshot and everything outside share. Handles and pinned answers are
taken, copied and let go by any thread while the registry is in the middle of a call. A call is the
tasks it comes to; a task is what no other thread sees a part of.
-/

namespace Guatiao.Library

open Lib

namespace Leases

/-- Where a library's code is: a mapping the registry can close, the host's own binary, or what a
source opened, by the number of the opening. -/
inductive Origin
  | mapped
  | linked
  | served (at_ opening : ℕ) (id stamp : String)
  deriving DecidableEq

/-- Whether the registry closes it once nothing uses it. -/
def Origin.closes : Origin → Bool
  | .linked => false
  | _ => true

/-- Whether a source served it, and is told when it closes. -/
def Origin.isServed : Origin → Bool
  | .served .. => true
  | _ => false

/-- What the registry keeps of a library beside its record. -/
structure Kept where
  origin : Origin
  /-- Whether it has an `unload` slot. -/
  slot : Bool
  /-- Whether its lease owns the parts the host built it of. -/
  parts : Bool
  deriving DecidableEq

/-- Why an unload is refused where the host may insist or try again. -/
inductive Refusal
  | busy (leases : ℕ)
  | refused
  | notSupported
  deriving DecidableEq

/-- What an unload answers. -/
inductive Unloaded
  | closed
  | notFound
  | linked
  | refused (why : Refusal)
  deriving DecidableEq

/-- What opening one candidate came to: a source file's table may answer no library. -/
inductive Offer
  | refused
  | declined
  | rejected
  | loaded (library : Ranked.LibraryView) (slot parts : Bool)

/-- What libraries, sources and the file system answer a task. -/
structure Answer where
  /-- What an `unload` slot says. -/
  agrees : Bool
  /-- The canonical paths of a library that is loaded, as it is looked for and as it is recorded. -/
  want : Path
  canonical : Path
  opened : Except String Ranked.Opened
  slot : Bool
  list : Option (List Candidate)
  «open» : Offer

/-- One thing the registry has still to do in the call it is in. -/
inductive Task
  | collect
  | settle (key : String) (lease : ℕ)
  | askLeaving (key : String) (lease : ℕ)
  | drop (lease : ℕ)
  | close (lease : ℕ)
  | retire (key : String)
  | unload (key : String)
  | holds (key : String) (lease : ℕ)
  | ask (key : String) (lease : ℕ)
  | refuse (why : Refusal)
  | take (key : String) (lease : ℕ)
  | load (path : Path) (source : String)
  | registerLocal (name : String)
  | refreshSource (at_ : ℕ)
  | gone (at_ : ℕ) (id : String)
  | candidate (at_ : ℕ) (c : Candidate)
  | withdraw (at_ : ℕ) (id : String)
  | offer (at_ : ℕ) (c : Candidate) (opening : ℕ) (library : Ranked.LibraryView) (slot parts : Bool)

/-- What a source is asked and told. -/
inductive SourceEvent
  | listed (at_ : ℕ) (candidates : List Candidate)
  | refused (at_ : ℕ) (id stamp : String)
  /-- It answered a library. -/
  | opened (at_ opening : ℕ) (id stamp : String)
  /-- It is told the library is closed; whether its parts are there still, and how often it is held. -/
  | closed (at_ opening : ℕ) (id stamp : String) (parts : Bool) (holds : ℕ)
  deriving DecidableEq

/-- A source, and whether it has a `close` to be told by. -/
structure Source extends SourceState where
  hears : Bool

end Leases

open Leases in
/-- A registry in the middle of a call, and what other threads hold. -/
structure Leases where
  registry : Ranked.Registry
  /-- What is kept of the library of a lease. -/
  kept : ℕ → Option Kept
  /-- Libraries retired and not yet closed, oldest first. -/
  leaving : List (String × ℕ)
  /-- The reference count of each lease. -/
  count : ℕ → ℕ
  /-- The lease of each handle and each pinned answer there is. -/
  outside : List ℕ
  sources : List Source
  todo : List Task
  /-- The leases of the libraries closed. -/
  closed : List ℕ
  trace : List SourceEvent
  nextOpening : ℕ
  /-- The registry as the call began, and what an unload answered. -/
  called : Ranked.Registry
  answer : Option Unloaded

namespace Ranked.Registry

/-- `publish_without`: republishes without the providers of one library. -/
def publishWithout (r : Registry) (lease : ℕ) : Registry :=
  { r with snapshot :=
      ((ranked r.providers).filter fun p => p.hold ≠ lease).foldl Snapshot.add .empty }

/-- Where this library is already loaded from. -/
def loadedFromPath (r : Registry) (want : Path) : Option Loaded :=
  r.loaded.find? (·.canonical = want)

end Ranked.Registry

namespace Leases

/-- A registry that names providers and libraries by two templates. -/
def start (key libraryKey : KeyTemplate) : Leases where
  registry := { Ranked.Registry.new with key, libraryKey }
  kept _ := none
  leaving := []
  count _ := 0
  outside := []
  sources := []
  todo := []
  closed := []
  trace := []
  nextOpening := 0
  called := { Ranked.Registry.new with key, libraryKey }
  answer := none

/-- Holds more, one for each entry. -/
def acquire (s : Leases) (leases : List ℕ) : Leases :=
  { s with count := fun lease => s.count lease + leases.count lease }

/-- Holds less. -/
def release (s : Leases) (leases : List ℕ) : Leases :=
  { s with count := fun lease => s.count lease - leases.count lease }

/-- What the services read is replaced: the new snapshot takes its holds, the old one lets go. -/
def republish (s : Leases) (registry : Ranked.Registry) : Leases :=
  { (s.acquire registry.snapshot.leases).release s.registry.snapshot.leases with registry }

/-- More is to be done first. -/
def push (s : Leases) (tasks : List Task) : Leases := { s with todo := tasks ++ s.todo }

def tell (s : Leases) (event : SourceEvent) : Leases := { s with trace := s.trace ++ [event] }

/-- A source is told that an opening of its is closed, where it has a `close`. -/
def hear (s : Leases) (at_ opening : ℕ) (id stamp : String) (parts : Bool) (holds : ℕ) : Leases :=
  if (s.sources[at_]?.map Source.hears).getD false then
    s.tell (.closed at_ opening id stamp parts holds)
  else s

/-- `take_library`: a library leaves with the providers recorded under its path; its lease is its
taker's. -/
def takeLibrary (s : Leases) (key : String) (one : Ranked.Loaded) : Leases :=
  (s.release ((s.registry.providers.filter (·.from = one.path)).map (·.hold))).republish
    (s.registry.retire key).2

/-- `absorb`: a library that is taken in has a lease, held by its record and by the view of each of
its providers. -/
def absorb (s : Leases) (path : Path) (source : String) (canonical : Path) (opened : Ranked.Opened)
    (kept : Kept) : Ranked.Loading × Leases :=
  match s.registry.absorb path source canonical opened with
  | (.loaded one, registry) =>
    (.loaded one, { (s.acquire (one.lease :: List.replicate one.providers one.lease)).republish
        registry with kept := Function.update s.kept one.lease (some kept) })
  | (loading, _) => (loading, s)

/-- A retired library nothing uses, that agrees to be closed. -/
def agreed (s : Leases) (key : String) (lease : ℕ) : Leases :=
  { s with leaving := s.leaving.erase (key, lease) }.push [.drop lease, .close lease]

/-- Whatever a source serves under an id is served no more, and retired. -/
def withdraw (s : Leases) (at_ : ℕ) (source : Source) (id : String) : Leases :=
  match source.serving.get id with
  | none => s
  | some _ =>
    let s := { s with
      sources := s.sources.set at_ { source with serving := source.serving.remove id } }
    match s.registry.loaded.find? (·.path = servedPath source.name id) with
    | none => s
    | some one => s.push [.collect, .retire one.key]

/-- The candidates that are the first of their ids. -/
def firsts : List Candidate → List String → List Candidate
  | [], _ => []
  | c :: rest, seen =>
    if c.id ∈ seen then firsts rest seen else c :: firsts rest (c.id :: seen)

/-- One candidate's turn. What is opened and not kept is closed at once. -/
def candidate (s : Leases) (at_ : ℕ) (source : Source) (c : Candidate) (offer : Offer) : Leases :=
  if source.tried.get c.id = some c.stamp then s
  else
    let s := { s with
      sources := s.sources.set at_ { source with tried := source.tried.insert c.id c.stamp } }
    match offer with
    | .refused => s.tell (.refused at_ c.id c.stamp)
    | .declined => s
    | .rejected =>
      { s.tell (.opened at_ s.nextOpening c.id c.stamp) with nextOpening := s.nextOpening + 1 }.hear
        at_ s.nextOpening c.id c.stamp false 0
    | .loaded library slot parts =>
      let opening := s.nextOpening
      let s := { s.tell (.opened at_ opening c.id c.stamp) with nextOpening := opening + 1 }
      -- The parts are still the origin's where the source is told.
      if library.id ≠ c.id then s.hear at_ opening c.id c.stamp parts 0
      else s.push [.withdraw at_ c.id, .offer at_ c opening library slot parts]

/-- What opening a candidate came to is offered to the registry. -/
def offered (s : Leases) (at_ : ℕ) (source : Source) (c : Candidate) (opening : ℕ)
    (library : Ranked.LibraryView) (slot parts : Bool) (canonical : Path) : Leases :=
  match s.absorb (servedPath source.name c.id) source.name canonical (.loaded library)
      ⟨.served at_ opening c.id c.stamp, slot, parts⟩ with
  | (.loaded _, s) => { s with
      sources := s.sources.set at_ { source with serving := source.serving.insert c.id c.stamp } }
  | (_, s) => s.hear at_ opening c.id c.stamp parts 0

/-- What one task comes to; the tasks behind it are what is left to do. -/
def perform (s : Leases) (answer : Answer) : Task → Leases
  | .collect => s.push (s.leaving.map fun e => .settle e.1 e.2)
  | .settle key lease =>
    -- The registry's own entry is the only hold left.
    if 1 < s.count lease then s
    else (s.kept lease).elim s fun kept =>
      if kept.slot then s.push [.askLeaving key lease]
      else if kept.origin.isServed then s.agreed key lease
      else s
  | .askLeaving key lease => if answer.agrees then s.agreed key lease else s
  | .drop lease => s.release [lease]
  | .close lease =>
    let s := { s with closed := s.closed ++ [lease] }
    match s.kept lease with
    | some ⟨.served at_ opening id stamp, _, parts⟩ =>
      s.hear at_ opening id stamp (parts && decide (0 < s.count lease)) (s.count lease)
    | _ => s
  | .retire key => (s.registry.loaded.find? (·.key = key)).elim s fun one =>
    let taken := s.takeLibrary key one
    if (s.kept one.lease).elim false (·.origin.closes) then
      { taken with leaving := taken.leaving ++ [(key, one.lease)] }
    else taken.push [.drop one.lease]
  | .unload key =>
    match s.registry.loaded.find? (·.key = key) with
    | none => { s with answer := some .notFound }
    | some one =>
      if (s.kept one.lease).elim false (·.origin.closes) then
        (s.republish (s.registry.publishWithout one.lease)).push [.holds key one.lease]
      else { s with answer := some .linked }
  | .holds key lease =>
    let mine := s.registry.providers.countP (·.hold = lease)
    let leases := s.count lease - (1 + mine)
    if 0 < leases then s.push [.refuse (.busy leases)]
    else if (s.kept lease).elim false (·.slot) then s.push [.ask key lease]
    else if (s.kept lease).elim false (·.origin.isServed) then s.push [.take key lease]
    else s.push [.refuse .notSupported]
  | .ask key lease =>
    if answer.agrees then s.push [.take key lease] else s.push [.refuse .refused]
  | .refuse why => { s.republish s.registry.publish with answer := some (.refused why) }
  | .take key lease => (s.registry.loaded.find? (·.key = key)).elim s fun one =>
    { (s.takeLibrary key one).push [.drop lease, .close lease] with answer := some .closed }
  | .load path source =>
    match s.registry.loadedFromPath answer.want, answer.opened with
    | some _, _ => s
    | none, .error _ => s
    | none, .ok opened => (s.absorb path source answer.canonical opened ⟨.mapped, answer.slot, false⟩).2
  | .registerLocal name =>
    match s.registry.loadedFromPath answer.want, answer.opened with
    | some _, _ => s
    | none, .error _ => s
    | none, .ok opened =>
      (s.absorb (.ofText ("<" ++ name ++ ">")) "" answer.canonical opened
        ⟨.linked, answer.slot, false⟩).2
  | .refreshSource at_ =>
    match s.sources[at_]?, answer.list with
    | some source, some listed =>
      (s.tell (.listed at_ listed)).push
        (((source.tried.keys.filter (· ∉ listed.map Candidate.id)).map (.gone at_)) ++
          (firsts listed []).map (.candidate at_))
    | _, _ => s
  | .gone at_ id => (s.sources[at_]?).elim s fun source =>
    { s with
      sources := s.sources.set at_ { source with tried := source.tried.remove id } }.withdraw at_
        { source with tried := source.tried.remove id } id
  | .candidate at_ c => (s.sources[at_]?).elim s fun source => s.candidate at_ source c answer.open
  | .withdraw at_ id => (s.sources[at_]?).elim s fun source => s.withdraw at_ source id
  | .offer at_ c opening library slot parts => (s.sources[at_]?).elim s fun source =>
    s.offered at_ source c opening library slot parts answer.canonical

/-- What a host calls. -/
inductive Call
  | load (path : Path) (source : String)
  | registerLocal (name : String)
  | retire (key : String)
  | unload (key : String)
  | collect
  | refresh

/-- What a call comes to: each closes first what can be closed. -/
def tasks (s : Leases) : Call → List Task
  | .load path source => [.collect, .load path source]
  | .registerLocal name => [.collect, .registerLocal name]
  | .retire key => [.collect, .retire key]
  | .unload key => [.collect, .unload key]
  | .collect => [.collect]
  | .refresh => .collect :: (List.range s.sources.length).map .refreshSource

/-- A handle or a pinned answer more. -/
def hold (s : Leases) (lease : ℕ) : Leases :=
  { s.acquire [lease] with outside := lease :: s.outside }

/-- The lease of an entry of the snapshot. -/
def leaseOf (s : Leases) (e : Ranked.SnapshotEntry) : Option ℕ := s.registry.snapshot.leases[e.lease]?

/-- What `list_pinned` pins: the first of the entries that speak a kind. -/
def listed (s : Leases) (kind : String) (cap : ℕ) : List ℕ :=
  ((s.registry.snapshot.entries.filter fun e => kind = "" || kind ∈ e.kinds).take cap).filterMap s.leaseOf

/-- What is done: by the host, by the registry in the middle of a call, and by any thread. -/
inductive Act
  | call (call : Call)
  | addSource (name : String) (hears : Bool)
  | perform (answer : Answer)
  /-- The host takes a handle on a registered provider. -/
  | handle (at_ : ℕ)
  /-- `get_pinned` and `list_pinned`. -/
  | get (key : String)
  | list (kind : String) (cap : ℕ)
  /-- A handle is copied, or an answer pinned again. -/
  | clone (lease : ℕ)
  /-- A handle is dropped, or an answer unpinned. -/
  | letGo (lease : ℕ)

def step (s : Leases) : Act → Option Leases
  | .call call => if s.todo = [] then
      some { s with todo := s.tasks call, called := s.registry, answer := none }
    else none
  | .addSource name hears => if s.todo = [] ∧ name ∉ s.sources.map (·.name) then
      some { s with sources := s.sources ++ [⟨⟨name, .empty, .empty⟩, hears⟩] }
    else none
  | .perform answer =>
    match s.todo with
    | [] => none
    | task :: rest => some ({ s with todo := rest }.perform answer task)
  | .handle at_ => if s.todo = [] then (s.registry.providers[at_]?).map fun p => s.hold p.hold else none
  | .get key => (((s.registry.snapshot.byKey.get key).bind (s.registry.snapshot.entries[·]?)).bind
      s.leaseOf).map s.hold
  | .list kind cap => some ((s.listed kind cap).foldl hold s)
  | .clone lease => if lease ∈ s.outside then some (s.hold lease) else none
  | .letGo lease => if lease ∈ s.outside then
      some { s.release [lease] with outside := s.outside.erase lease }
    else none

end Leases

end Guatiao.Library
