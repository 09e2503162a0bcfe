import Guatiao.Library.Refresh

/-!
# A server of a registry's providers

A server lists a registry's libraries to its links, each under a stamp, and holds a library's
tables for a link that opens it. What links have opened is kept by their addresses, under a lock of
its own; requests are answered by pool threads, frames routed by each link's reader, and a link
ends on whichever thread notices first. The log is what has been listed, opened and closed so far,
for the laws to speak of.
-/

namespace Guatiao.Remote

open Lib Library

/-- A table's place in the catalog. -/
structure TableKey where
  library : String
  stamp : String
  provider : String
  kind : String
  deriving DecidableEq

/-- One provider table, held open for a link. -/
structure Table where
  provider : Provider
  kind : String
  deriving DecidableEq

/-- The table ids given so far, and the last. -/
structure TableIds where
  known : List (TableKey × ℕ)
  last : ℕ
  deriving DecidableEq

/-- `table_id`: the id of a table, given once. -/
def TableIds.tableId (ids : TableIds) (key : TableKey) : ℕ × TableIds :=
  match AssocList.get key ids.known with
  | some id => (id, ids)
  | none => (ids.last + 1, ⟨AssocList.set key (ids.last + 1) ids.known, ids.last + 1⟩)

/-- What one link has opened: by library and stamp the tables it holds, and the tables. -/
structure OpenedTables where
  libraries : List ((String × String) × List ℕ)
  tables : List (ℕ × Table)
  deriving DecidableEq

/-- A request a pool thread answers, and how far it has come. -/
inductive Job
  | list
  | «open» (library stamp : String)
  /-- The tables are held; the thread is about to lock what links have opened. -/
  | held (library stamp : String) (tables : List (ℕ × Table))
  deriving DecidableEq

/-- A link, from when it is set up until its memory is free again. -/
structure ServedLink where
  /-- Where it is in memory: `link_key`. -/
  address : ℕ
  alive : Bool
  /-- The handler has been told that it ended. -/
  ended : Bool
  /-- Its reader still routes frames. -/
  reading : Bool
  freed : Bool
  jobs : List Job
  deriving DecidableEq

/-- A library as a listing, or the opening of a library, gave it. -/
structure Given where
  id : String
  version : String
  /-- The count of its key's loadings then. -/
  generation : ℕ
  stamp : String
  /-- The loading it was made from. -/
  lease : ℕ
  tables : List (ℕ × Table)
  deriving DecidableEq

/-- What happened, as the laws speak of it. -/
inductive Event
  | gave (given : Given)
  | opened (link : ℕ) (library stamp : String) (tables : List (ℕ × Table))
  | closed (link : ℕ) (library stamp : String)
  deriving DecidableEq

structure Server where
  sources : Sources
  /-- Per library key, how many times it has loaded while served. -/
  generations : List (String × ℕ)
  /-- Refreshes done whose loadings are still to be counted, by key. -/
  counting : List (List String)
  ids : TableIds
  /-- What links have opened, by address. -/
  opened : List (ℕ × OpenedTables)
  /-- Every link there was. -/
  links : List ServedLink
  log : List Event

/-- What a server does, and who does it. -/
inductive ServerAct
  /-- The registry, locked, is loaded into, registered with or retired from. -/
  | registry (act : Sources.Act)
  /-- The first half of `refresh`: the registry's sources. -/
  | refresh (answers : ℕ → Answer)
  /-- The second half: the loadings of one refresh are counted. -/
  | count (refresh : ℕ)
  /-- A link is set up, at an address nothing else has. -/
  | start (address : ℕ)
  /-- A reader takes a LIST. -/
  | routeList (link : ℕ)
  /-- A reader takes an OPEN. -/
  | routeOpen (link : ℕ) (library stamp : String)
  /-- A thread answers a LIST; `offers` are the kinds each provider has tables of. -/
  | list (link job : ℕ) (offers : Provider → List String)
  /-- A thread finds the library to open and holds its tables. -/
  | hold (link job : ℕ) (offers : Provider → List String)
  /-- A thread keeps what it holds for the link. -/
  | publish (link job : ℕ)
  /-- A request is refused, or panics. -/
  | drop (link job : ℕ)
  /-- A reader routes a CLOSE. -/
  | close (link : ℕ) (library stamp : String)
  /-- A link ends, on any thread. -/
  | die (link : ℕ)
  /-- The end of a link tells the handler. -/
  | ended (link : ℕ)
  /-- A reader notices that its link has ended. -/
  | stop (link : ℕ)
  /-- Nothing refers to a link any more. -/
  | free (link : ℕ)

/-- `open`, once the tables are held: they are kept for the link, unless it has the library open. -/
def OpenedTables.keep (o : OpenedTables) (library stamp : String) (held : List (ℕ × Table)) :
    OpenedTables :=
  if AssocList.contains (library, stamp) o.libraries then o
  else
    ⟨AssocList.set (library, stamp) (held.map Prod.fst) o.libraries,
      held.foldl (fun tables t => AssocList.set t.1 t.2 tables) o.tables⟩

/-- `close`: the library is forgotten with the tables it holds. -/
def OpenedTables.forget (o : OpenedTables) (library stamp : String) : OpenedTables :=
  let ids := (AssocList.get (library, stamp) o.libraries).getD []
  ⟨o.libraries.filter fun e => e.1 ≠ (library, stamp), o.tables.filter fun t => t.1 ∉ ids⟩

/-- A request leaves its thread. -/
def ServedLink.without (link : ServedLink) (job : ℕ) : ServedLink :=
  { link with jobs := link.jobs.eraseIdx job }

namespace Server

/-- A server of a registry, before any link. -/
def new (sources : Sources) : Server := ⟨sources, [], [], ⟨[], 0⟩, [], [], []⟩

def registry (s : Server) : Registry := s.sources.registry

/-- How often a key's library has loaded while served. -/
def generation (s : Server) (key : String) : ℕ := (AssocList.get key s.generations).getD 0

/-- `stamp`. -/
def stamp (s : Server) (key version : String) : String :=
  key ++ "#" ++ version ++ "#" ++ toString (s.generation key)

/-- The tables of the providers of a library, each with its id; `key` is what the library is filed
under. -/
def tablesOf (offers : Provider → List String) (library stamp key : String) :
    List Provider → TableIds → List (ℕ × Table) × TableIds
  | [], ids => ([], ids)
  | p :: rest, ids =>
    if p.library = key then
      let here := (offers p).foldl (fun out kind =>
        let next := out.2.tableId ⟨library, stamp, p.id, kind⟩
        (out.1 ++ [(next.1, Table.mk p kind)], next.2)) (([] : List (ℕ × Table)), ids)
      let there := tablesOf offers library stamp key rest here.2
      (here.1 ++ there.1, there.2)
    else tablesOf offers library stamp key rest ids

/-- What is given of a library, with its tables. -/
def give (s : Server) (l : Loaded) (tables : List (ℕ × Table)) : Given :=
  ⟨l.id, l.version, s.generation l.key, s.stamp l.key l.version, l.lease, tables⟩

/-- `catalog`: every library with tables. -/
def catalogFrom (s : Server) (offers : Provider → List String) :
    List Loaded → TableIds → List Given × TableIds
  | [], ids => ([], ids)
  | l :: rest, ids =>
    let stamp := s.stamp l.key l.version
    let here := tablesOf offers l.id stamp l.key s.registry.providers ids
    let there := catalogFrom s offers rest here.2
    (if here.1.isEmpty then there.1 else s.give l here.1 :: there.1, there.2)

def catalog (s : Server) (offers : Provider → List String) : List Given × TableIds :=
  s.catalogFrom offers s.registry.loaded s.ids

/-- `hold`: the library served under a stamp, with its tables. -/
def hold (s : Server) (offers : Provider → List String) (library stamp : String) :
    Option (Given × TableIds) :=
  (s.registry.loaded.find? fun l => l.id = library ∧ s.stamp l.key l.version = stamp).map fun l =>
    let held := tablesOf offers library stamp l.key s.registry.providers s.ids
    (s.give l held.1, held.2)

/-- `table`: what a CALL on a table finds. -/
def table (s : Server) (link : ServedLink) (id : ℕ) : Option Table :=
  (AssocList.get link.address s.opened).bind fun o => AssocList.get id o.tables

def setLink (s : Server) (i : ℕ) (link : ServedLink) : Server :=
  { s with links := s.links.set i link }

def record (s : Server) (events : List Event) : Server := { s with log := s.log ++ events }

/-- What a link has open, with one library more. -/
def keepFor (s : Server) (link : ServedLink) (library stamp : String) (held : List (ℕ × Table)) :
    Server :=
  let o := (AssocList.get link.address s.opened).getD ⟨[], []⟩
  { s with opened := AssocList.set link.address (o.keep library stamp held) s.opened }

/-- A reader takes a request, and the pool a job. -/
def route (s : Server) (i : ℕ) (job : Job) : Option Server :=
  (s.links[i]?).bind fun link =>
    if link.reading then some (s.setLink i { link with jobs := link.jobs ++ [job] }) else none

/-- A thread works on a request of a link. -/
def work (s : Server) (i job : ℕ) (f : ServedLink → Job → Option Server) : Option Server :=
  (s.links[i]?).bind fun link => (link.jobs[job]?).bind fun j => f link j

/-- What becomes of the links. -/
def stepLink (s : Server) : ServerAct → Option Server
  | .start address =>
    if s.links.any fun link => !link.freed && link.address == address then none
    else some { s with links := s.links ++ [⟨address, true, false, true, false, []⟩] }
  | .close i library stamp =>
    (s.links[i]?).bind fun link =>
      if link.reading then
        some ({ s with opened := s.opened.map fun (e : ℕ × OpenedTables) =>
          if e.1 = link.address then (e.1, e.2.forget library stamp) else e }.record
            [.closed i library stamp])
      else none
  | .die i => (s.links[i]?).map fun link => s.setLink i { link with alive := false }
  | .ended i =>
    (s.links[i]?).bind fun link =>
      if link.alive || link.ended then none
      else
        some ({ s with opened := s.opened.filter fun e => e.1 ≠ link.address }.setLink i
          { link with ended := true })
  | .stop i =>
    (s.links[i]?).bind fun link =>
      if link.alive then none else some (s.setLink i { link with reading := false })
  | .free i =>
    (s.links[i]?).bind fun link =>
      if link.ended && !link.reading && link.jobs.isEmpty then
        some (s.setLink i { link with freed := true })
      else none
  | _ => none

/-- What a thread does for a request. -/
def stepJob (s : Server) : ServerAct → Option Server
  | .routeList i => s.route i .list
  | .routeOpen i library stamp => s.route i (.open library stamp)
  | .list i job offers =>
    s.work i job fun link j =>
      if j = .list then
        let listed := s.catalog offers
        some (({ s with ids := listed.2 }.setLink i (link.without job)).record
          (listed.1.map .gave))
      else none
  | .hold i job offers =>
    s.work i job fun link j =>
      match j with
      | .open library stamp =>
        match s.hold offers library stamp with
        | none => some (s.setLink i (link.without job))
        | some (given, ids) =>
          some (({ s with ids }.setLink i
            { link with jobs := link.jobs.set job (.held library stamp given.tables) }).record
              [.gave given])
      | _ => none
  | .publish i job =>
    s.work i job fun link j =>
      match j with
      | .held library stamp held =>
        some (((s.keepFor link library stamp held).setLink i (link.without job)).record
          [.opened i library stamp held])
      | _ => none
  | .drop i job => s.work i job fun link _ => some (s.setLink i (link.without job))
  | _ => none

/-- One step. -/
def step (s : Server) (act : ServerAct) : Option Server :=
  match act with
  | .registry act => (s.sources.step act).map fun sources => { s with sources }
  | .refresh answers =>
    let refreshed := s.sources.refresh answers
    some { s with
      sources := refreshed.2
      counting := s.counting ++ [refreshed.1.loaded.map Served.key] }
  | .count i =>
    (s.counting[i]?).map fun keys => { s with
      generations := keys.foldl (fun m key =>
        AssocList.set key ((AssocList.get key m).getD 0 + 1) m) s.generations
      counting := s.counting.eraseIdx i }
  | .start _ | .close .. | .die _ | .ended _ | .stop _ | .free _ => s.stepLink act
  | _ => s.stepJob act

end Server

end Guatiao.Remote
