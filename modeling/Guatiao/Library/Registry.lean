import Guatiao.Lib.Index
import Mathlib.Data.String.Basic

/-!
# The registry of loaded libraries

What a host has loaded: libraries under a library key, their providers under a provider
key. A library's lease is the one identity it shares with its providers alone; its path is
a text, and the file system may answer another canonical path for it at every call.
-/

/-!
## What a host files a library and a provider under

The key is the host's policy: a template of texts and fields, rendered for each library and
each provider.
-/

namespace Guatiao.Library

/-- A field of the descriptor a key can be built from. -/
inductive Field
  | id | name | library | version | source
  deriving DecidableEq

inductive Part
  | text (text : String)
  | field (field : Field)
  deriving DecidableEq

/-- What a template can be built from. -/
structure KeyFields where
  id : String
  name : String
  library : String
  version : String
  source : String

/-- The fields a library has, served by `source`. -/
def KeyFields.ofLibrary (id version source : String) : KeyFields := ⟨id, "", id, version, source⟩

def Part.render (fields : KeyFields) : Part → String
  | .text words => words
  | .field .id => fields.id
  | .field .name => fields.name
  | .field .library => fields.library
  | .field .version => fields.version
  | .field .source => fields.source

/-- A template, parsed. -/
abbrev KeyTemplate := List Part

/-- The key one library or provider lands on. -/
def KeyTemplate.render (template : KeyTemplate) (fields : KeyFields) : String :=
  template.foldl (fun out part => out ++ part.render fields) ""

/-- `%id`. -/
def KeyTemplate.default : KeyTemplate := [.field .id]

end Guatiao.Library

/-!
## Paths

A path is compared by its components, as the standard library compares it on Unix: empty
ones and `.` count for nothing, but for a `.` that begins a relative path.
-/

namespace Guatiao.Library

/-- A path as it is compared. -/
structure Path where
  rooted : Bool
  components : List (List Char)
  deriving DecidableEq

/-- Whether a piece between two slashes counts. -/
def Path.counts (piece : List Char) : Bool := piece ≠ [] && piece ≠ ['.']

/-- The path a text spells. -/
def Path.ofText (text : String) : Path :=
  match text.toList.splitOn '/' with
  | ['.'] :: rest => ⟨false, ['.'] :: rest.filter counts⟩
  | pieces => ⟨text.toList.head? = some '/', pieces.filter counts⟩

end Guatiao.Library

namespace Guatiao.Library

open Lib

/-- A provider as a library's descriptor declares it. -/
structure ProviderView where
  id : String
  displayName : String
  /-- Its own version, where it declares one. -/
  version : Option String
  deriving DecidableEq

/-- A library as opening it showed it. -/
structure LibraryView where
  id : String
  version : String
  providers : List ProviderView
  deriving DecidableEq

/-- What opening a library came to. -/
inductive Opened
  | noEntrySymbol
  | declined
  | unsupportedAbi (declared : ℕ)
  | malformed (why : String)
  | loaded (library : LibraryView)
  deriving DecidableEq

/-- A provider the registry holds. -/
structure Provider where
  id : String
  displayName : String
  /-- The path its library was recorded under. -/
  «from» : Path
  library : String
  version : String
  source : String
  key : String
  /-- The lease its view holds. -/
  hold : ℕ
  deriving DecidableEq

/-- A library the registry holds. -/
structure Loaded where
  path : Path
  key : String
  id : String
  version : String
  source : String
  /-- How many providers it registered. -/
  providers : ℕ
  canonical : Path
  lease : ℕ
  deriving DecidableEq

def Provider.fields (p : Provider) : KeyFields := ⟨p.id, p.displayName, p.library, p.version, p.source⟩

def Loaded.fields (l : Loaded) : KeyFields := .ofLibrary l.id l.version l.source

/-- Why something was passed over. -/
inductive Skipped
  | noEntrySymbol
  | declinedThisHost
  | unsupportedAbi (declared : ℕ)
  | alreadyLoaded («from» : Path)
  deriving DecidableEq

/-- Why a load was refused. -/
inductive LoadError
  | open (path : Path) (reason : String)
  | malformed (path : Path) (reason : String)
  /-- Two providers of different ids render one key. -/
  | duplicate (key : String) (first second : Path)
  deriving DecidableEq

/-- What became of a load. -/
inductive Loading
  | loaded (one : Loaded)
  | skipped (why : Skipped)
  | error (e : LoadError)
  deriving DecidableEq

structure Registry where
  key : KeyTemplate
  libraryKey : KeyTemplate
  loaded : List Loaded
  providers : List Provider
  /-- A rendered key to an index into `providers`. -/
  byKey : SortedMap String ℕ
  /-- The number of the next lease. -/
  nextLease : ℕ

namespace Registry

def new : Registry := ⟨.default, .default, [], [], .empty, 0⟩

/-- The provider filed under a key. -/
def provider (r : Registry) (key : String) : Option Provider :=
  (r.byKey.get key).bind (r.providers[·]?)

/-- Where this library is already loaded from, by the canonical path it has now. -/
def loadedFromPath (r : Registry) (want : Path) : Option Loaded :=
  r.loaded.find? (·.canonical = want)

/-- A provider's own version, or its library's when it declared none. -/
def versionOf (library : LibraryView) (view : ProviderView) : String :=
  view.version.getD library.version

/-- The key a library would be filed under. -/
def libraryKeyOf (r : Registry) (source : String) (library : LibraryView) : String :=
  r.libraryKey.render (.ofLibrary library.id library.version source)

/-- The key a provider would be filed under. -/
def keyOf (r : Registry) (source : String) (library : LibraryView) (view : ProviderView) : String :=
  r.key.render ⟨view.id, view.displayName, library.id, versionOf library view, source⟩

/-- Whoever holds a key already, and from where: registered earlier, or earlier in this same
library. -/
def holder (r : Registry) (path : Path) (taken : List (ProviderView × String)) (key : String) :
    Option (String × Path) :=
  match r.provider key with
  | some p => some (p.id, p.from)
  | none => (taken.find? (·.2 = key)).map fun t => (t.1.id, path)

/-- The loop over a library's providers: those taken in, each with its key. One whose key
its own id holds is passed over; one whose key another id holds refuses the library. -/
def take (r : Registry) (path : Path) (source : String) (library : LibraryView) :
    List ProviderView → List (ProviderView × String) →
      Except LoadError (List (ProviderView × String))
  | [], taken => .ok taken
  | view :: rest, taken =>
    let key := r.keyOf source library view
    match r.holder path taken key with
    | none => take r path source library rest (taken ++ [(view, key)])
    | some (heldBy, first) =>
      if heldBy = view.id then take r path source library rest taken
      else .error (.duplicate key first path)

/-- A provider as it is registered. -/
def provided (path : Path) (source : String) (library : LibraryView) (lease : ℕ)
    (taken : ProviderView × String) : Provider :=
  ⟨taken.1.id, taken.1.displayName, path, library.id, versionOf library taken.1, source, taken.2,
    lease⟩

/-- Registers one provider, under the index it comes to have. -/
def push (r : Registry) (p : Provider) : Registry :=
  { r with byKey := r.byKey.insert p.key r.providers.length, providers := r.providers ++ [p] }

/-- Records what opening `path` came to, served by `source` (empty for none); `canonical` is
what the file system answers for the path as the record is made. -/
def absorb (r : Registry) (path : Path) (source : String) (canonical : Path) (opened : Opened) :
    Loading × Registry :=
  match opened with
  | .noEntrySymbol => (.skipped .noEntrySymbol, r)
  | .declined => (.skipped .declinedThisHost, r)
  | .unsupportedAbi declared => (.skipped (.unsupportedAbi declared), r)
  | .malformed why => (.error (.malformed path why), r)
  | .loaded library =>
    let libraryKey := r.libraryKeyOf source library
    match r.loaded.find? (·.key = libraryKey) with
    | some already => (.skipped (.alreadyLoaded already.path), r)
    | none =>
      match r.take path source library library.providers [] with
      | .error e => (.error e, r)
      | .ok taken =>
        let one : Loaded := ⟨path, libraryKey, library.id, library.version, source, taken.length,
          canonical, r.nextLease⟩
        let r' := (taken.map (provided path source library r.nextLease)).foldl push r
        (.loaded one, { r' with loaded := r'.loaded ++ [one], nextLease := r.nextLease + 1 })

/-- `load_from`: nothing is opened where the path, as the file system resolves it now, is
one already loaded. `opened` is what opening the file comes to, or why it could not be. -/
def loadFrom (r : Registry) (path : Path) (source : String) (want canonical : Path)
    (opened : Except String Opened) : Loading × Registry :=
  match r.loadedFromPath want with
  | some already => (.skipped (.alreadyLoaded already.path), r)
  | none =>
    match opened with
    | .error reason => (.error (.open path reason), r)
    | .ok opened => r.absorb path source canonical opened

/-- `register_local` and `register_entry`: a library the host links, under `<name>`. -/
def registerLocal (r : Registry) (name : String) (want canonical : Path) (opened : Opened) :
    Loading × Registry :=
  match r.loadedFromPath want with
  | some already => (.skipped (.alreadyLoaded already.path), r)
  | none => r.absorb (.ofText ("<" ++ name ++ ">")) "" canonical opened

/-- What taking a library out answers. -/
structure Retired where
  key : String
  id : String
  version : String
  /-- How many of its providers left. -/
  providers : ℕ
  deriving DecidableEq

/-- `take_library`: removes a library and the providers recorded under its path, and files
the others again. -/
def takeLibrary (r : Registry) (key : String) : Option (Retired × Registry) :=
  (r.loaded.find? (·.key = key)).map fun one =>
    let providers := r.providers.filter (·.from ≠ one.path)
    (⟨key, one.id, one.version, r.providers.length - providers.length⟩,
      { r with
        loaded := r.loaded.eraseP (·.key = key)
        providers
        byKey := index Provider.key providers })

/-- `keyed_by`: names providers with another template, unless two would have one key. -/
def keyedBy (r : Registry) (template : KeyTemplate) : Registry :=
  let rendered := r.providers.map fun p => { p with key := template.render p.fields }
  if (rendered.map Provider.key).Nodup then
    { r with providers := rendered, byKey := index Provider.key rendered, key := template }
  else r

/-- `libraries_keyed_by`: names libraries with another template, unless two would have one
key. -/
def librariesKeyedBy (r : Registry) (template : KeyTemplate) : Registry :=
  let rendered := r.loaded.map fun l => { l with key := template.render l.fields }
  if (rendered.map Loaded.key).Nodup then { r with loaded := rendered, libraryKey := template } else r

/-- What a host does with a registry, and what the file system answers as it does. -/
inductive Act
  | load (path : Path) (source : String) (want canonical : Path) (opened : Except String Opened)
  | registerLocal (name : String) (want canonical : Path) (opened : Opened)
  | absorb (path : Path) (source : String) (canonical : Path) (opened : Opened)
  | retire (key : String)
  | keyedBy (template : KeyTemplate)
  | librariesKeyedBy (template : KeyTemplate)

/-- One call; one that is refused changes nothing. -/
def step (r : Registry) (act : Act) : Option Registry :=
  match act with
  | .load path source want canonical opened => some (r.loadFrom path source want canonical opened).2
  | .registerLocal name want canonical opened =>
    some (r.registerLocal name want canonical opened).2
  | .absorb path source canonical opened => some (r.absorb path source canonical opened).2
  | .retire key => some ((r.takeLibrary key).elim r Prod.snd)
  | .keyedBy template => some (r.keyedBy template)
  | .librariesKeyedBy template => some (r.librariesKeyedBy template)

end Registry

end Guatiao.Library
