import Guatiao.Library.Registry

/-!
# What a registry publishes

The registry in full: each provider with the kinds it speaks and the priority the host gave its
id, and the snapshot the host's services read, which is made anew after every change. The answers
to a caller, the records of what was passed over, and the order of the loops are the source's.
-/

namespace Guatiao.Library.Ranked

open Lib

/-- A provider as a library's descriptor declares it, with its kinds. -/
structure ProviderView extends Library.ProviderView where
  kinds : List String

/-- A library as opening it showed it. -/
structure LibraryView where
  id : String
  version : String
  providers : List ProviderView

/-- What opening a library came to. -/
inductive Opened
  | noEntrySymbol
  | declined
  | unsupportedAbi (declared : ℕ)
  | malformed (why : String)
  | loaded (library : LibraryView)

/-- A provider the registry holds. -/
structure Provider extends Library.Provider where
  kinds : List String
  /-- What the host ranked its id. -/
  priority : ℤ
  /-- Its place among the descriptors its library's lease built. -/
  built : ℕ

/-- A provider that was passed over, since its key is held by its own id already. -/
structure PassedOver where
  id : String
  «from» : Path

/-- A library the registry holds. -/
structure Loaded extends Library.Loaded where
  skipped : List PassedOver

/-- One provider of the snapshot: its kinds, which of the leases is its library's, its place there. -/
structure SnapshotEntry where
  kinds : List String
  lease : ℕ
  built : ℕ

/-- What the services read. -/
structure Snapshot where
  /-- One hold for each library. -/
  leases : List ℕ
  /-- A key to an index into `entries`. -/
  byKey : SortedMap String ℕ
  /-- The providers, best first. -/
  entries : List SnapshotEntry

/-- Why a template was refused: two would have one key. -/
inductive KeyError
  | collides (key : String)

/-- What became of a load. -/
inductive Loading
  | loaded (one : Loaded)
  | skipped (why : Skipped)
  | error (e : LoadError)

structure Registry where
  key : KeyTemplate
  libraryKey : KeyTemplate
  loaded : List Loaded
  providers : List Provider
  /-- A rendered key to an index into `providers`. -/
  byKey : SortedMap String ℕ
  priorities : SortedMap String ℤ
  snapshot : Snapshot
  /-- The number of the next lease. -/
  nextLease : ℕ

/-- The snapshot of no providers. -/
def Snapshot.empty : Snapshot := ⟨[], .empty, []⟩

/-- The snapshot with one provider more. -/
def Snapshot.add (s : Snapshot) (p : Provider) : Snapshot :=
  let held := (s.leases.findIdx? (· == p.hold)).getD s.leases.length
  { leases := if held < s.leases.length then s.leases else s.leases ++ [p.hold]
    byKey := s.byKey.insert p.key s.entries.length
    entries := s.entries ++ [⟨p.kinds, held, p.built⟩] }

/-- Whether a provider goes before another, or may: by its priority, then by its key. -/
def ahead (a b : Provider) : Bool :=
  decide (b.priority < a.priority) || (a.priority == b.priority && decide (a.key ≤ b.key))

/-- Providers, best first. -/
def ranked (providers : List Provider) : List Provider := providers.mergeSort ahead

namespace Registry

def new : Registry := ⟨.default, .default, [], [], .empty, .empty, .empty, 0⟩

/-- Republishes what the services read. -/
def publish (r : Registry) : Registry :=
  { r with snapshot := (ranked r.providers).foldl Snapshot.add .empty }

/-- What this host ranked an id: zero unless it said otherwise. -/
def priority (r : Registry) (id : String) : ℤ := (r.priorities.get id).getD 0

/-- Ranks every provider with an id, now and whenever one loads. -/
def setPriority (r : Registry) (id : String) (priority : ℤ) : Registry :=
  publish { r with
    priorities := r.priorities.insert id priority
    providers := r.providers.map fun p => if p.id = id then { p with priority := priority } else p }

/-- The provider filed under a key. -/
def provider (r : Registry) (key : String) : Option Provider :=
  (r.byKey.get key).bind (r.providers[·]?)

/-- A provider's own version, or its library's when it declared none. -/
def versionOf (library : LibraryView) (view : ProviderView) : String :=
  view.version.getD library.version

/-- The key a provider would be filed under. -/
def keyOf (r : Registry) (source : String) (library : LibraryView) (view : ProviderView) : String :=
  r.key.render ⟨view.id, view.displayName, library.id, versionOf library view, source⟩

/-- Whoever holds a key already, and from where: registered earlier, or earlier in this same
library. -/
def holder (r : Registry) (path : Path) (taken : List (ProviderView × String)) (key : String) :
    Option (String × Path) :=
  match r.provider key with
  | some p => some (p.id, p.from)
  | none => (taken.find? (·.2 = key)).map fun t => (t.1.id, path)

/-- The loop over a library's providers: those taken in, each with its key, and those passed over.
One whose key another id holds refuses the library. -/
def take (r : Registry) (path : Path) (source : String) (library : LibraryView) :
    List ProviderView → List (ProviderView × String) → List PassedOver →
      Except LoadError (List (ProviderView × String) × List PassedOver)
  | [], taken, skipped => .ok (taken, skipped)
  | view :: rest, taken, skipped =>
    let key := r.keyOf source library view
    match r.holder path taken key with
    | none => take r path source library rest (taken ++ [(view, key)]) skipped
    | some (heldBy, first) =>
      if heldBy = view.id then take r path source library rest taken (skipped ++ [⟨view.id, first⟩])
      else .error (.duplicate key first path)

/-- A provider as it is registered, in its place among its library's. -/
def provided (r : Registry) (path : Path) (source : String) (library : LibraryView)
    (p : (ProviderView × String) × ℕ) : Provider :=
  let view := p.1.1
  { id := view.id
    displayName := view.displayName
    «from» := path
    library := library.id
    version := versionOf library view
    source := source
    key := p.1.2
    hold := r.nextLease
    kinds := view.kinds
    priority := r.priority view.id
    built := p.2 }

/-- Registers one provider, under the index it comes to have. -/
def push (r : Registry) (p : Provider) : Registry :=
  { r with byKey := r.byKey.insert p.key r.providers.length, providers := r.providers ++ [p] }

/-- Records what opening `path` came to, served by `source` (empty for none); `canonical` is what
the file system answers for the path as the record is made. -/
def absorb (r : Registry) (path : Path) (source : String) (canonical : Path) (opened : Opened) :
    Loading × Registry :=
  match opened with
  | .noEntrySymbol => (.skipped .noEntrySymbol, r)
  | .declined => (.skipped .declinedThisHost, r)
  | .unsupportedAbi declared => (.skipped (.unsupportedAbi declared), r)
  | .malformed why => (.error (.malformed path why), r)
  | .loaded library =>
    let libraryKey := r.libraryKey.render (.ofLibrary library.id library.version source)
    match r.loaded.find? (·.key = libraryKey) with
    | some already => (.skipped (.alreadyLoaded already.path), r)
    | none =>
      match r.take path source library library.providers [] [] with
      | .error e => (.error e, r)
      | .ok (taken, skipped) =>
        let one : Loaded :=
          { path, key := libraryKey, id := library.id, version := library.version, source,
            providers := taken.length, canonical, lease := r.nextLease, skipped }
        let filed := (taken.zipIdx.map (r.provided path source library)).foldl push r
        (.loaded one,
          publish { filed with loaded := filed.loaded ++ [one], nextLease := r.nextLease + 1 })

/-- `retire`: removes a library and the providers recorded under its path, and files the others
again. Nothing changes where no library has the key. -/
def retire (r : Registry) (key : String) : Option Library.Registry.Retired × Registry :=
  match r.loaded.find? (·.key = key) with
  | none => (none, r)
  | some one =>
    let providers := r.providers.filter (·.from ≠ one.path)
    (some ⟨key, one.id, one.version, r.providers.length - providers.length⟩,
      publish { r with
        loaded := r.loaded.eraseP (·.key = key)
        providers
        byKey := index (·.key) providers })

/-- The loop that files rendered keys from a place on, up to the first that is filed already. -/
def fileFrom : ℕ → List String → SortedMap String ℕ → Except KeyError (SortedMap String ℕ)
  | _, [], filed => .ok filed
  | at_, key :: rest, filed =>
    if (filed.get key).isSome then .error (.collides key)
    else fileFrom (at_ + 1) rest (filed.insert key at_)

/-- `keyed_by`: names providers with another template, unless two would have one key. -/
def keyedBy (r : Registry) (template : KeyTemplate) : Except KeyError Unit × Registry :=
  let rendered := r.providers.map fun p => template.render p.fields
  match fileFrom 0 rendered .empty with
  | .error e => (.error e, r)
  | .ok byKey =>
    (.ok (), publish { r with
      providers := r.providers.zipWith (fun p key => { p with key := key }) rendered
      byKey
      key := template })

/-- `libraries_keyed_by`: names libraries with another template, unless two would have one key. -/
def librariesKeyedBy (r : Registry) (template : KeyTemplate) : Except KeyError Unit × Registry :=
  match fileFrom 0 (r.loaded.map fun l => template.render l.fields) .empty with
  | .error e => (.error e, r)
  | .ok _ =>
    (.ok (), { r with
      loaded := r.loaded.map fun l => { l with key := template.render l.fields }
      libraryKey := template })

/-- What a host does with a registry, and what the file system answers as it does. -/
inductive Act
  | absorb (path : Path) (source : String) (canonical : Path) (opened : Opened)
  | retire (key : String)
  | keyedBy (template : KeyTemplate)
  | librariesKeyedBy (template : KeyTemplate)
  | setPriority (id : String) (priority : ℤ)

/-- One call. -/
def step (r : Registry) (act : Act) : Option Registry :=
  match act with
  | .absorb path source canonical opened => some (r.absorb path source canonical opened).2
  | .retire key => some (r.retire key).2
  | .keyedBy template => some (r.keyedBy template).2
  | .librariesKeyedBy template => some (r.librariesKeyedBy template).2
  | .setPriority id priority => some (r.setPriority id priority)

end Registry

end Guatiao.Library.Ranked
