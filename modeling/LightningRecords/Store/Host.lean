import LightningRecords.Store.Environment
import LightningRecords.Store.FileTree

namespace LightningRecords

-- An environment that was opened, and the directory it was opened for.
structure Opening where
  location : Location
  environment : Environment

-- What stands for an opening, and the settings that were asked for. They need not be
-- those of the environment, which another may have opened.
structure Handle where
  number : Nat
  config : Config
deriving DecidableEq

-- One process with the directories it can reach. Openings are numbered, and no number is
-- given out twice. The registry says which opening is the one of a directory; it and the
-- handles, which are named, are all that keeps an opening. The tables of a directory are at
-- rest while it is not open. Its maps are all full by the same rule.
structure Host where
  tree : FileTree
  capacity : Capacity := .byWeight
  atRest : OrderedMap Location.compare Tables := ∅
  openings : OrderedMap (compare : Nat → Nat → Ordering) Opening := ∅
  registry : OrderedMap Location.compare Nat := ∅
  handles : OrderedMap Text.compare Handle := ∅
  count : Nat := 0

namespace Host

-- Every environment keeps its locks and its data in a file each.
def lockFile (location : Location) : Location := location ++ ["lock.mdb"]

def dataFile (location : Location) : Location := location ++ ["data.mdb"]

-- Opens a file of a directory, which is made if it is not there.
def openFile (tree : FileTree) (location file : Location) : Except EngineFailure FileTree :=
  if tree.isFolder file then .error .isDirectory
  else if !tree.isThere file && tree.isSealed location then .error .noAccess
  else .ok (tree.addFile file)

-- The engine opens the files of a directory one after the other, then maps the
-- data into memory. What it made before a failure stays. Locks are written anew
-- whatever the file held before.
def openFiles (tree : FileTree) (location : Location) (mapSize : UInt64) :
    Except EngineFailure Unit × FileTree :=
  if mapSize.toNat % pageSize ≠ 0 then (.error (.unevenMapSize mapSize), tree)
  else
    match openFile tree location (lockFile location) with
    | .error failure => (.error failure, tree)
    | .ok tree =>
      match openFile tree location (dataFile location) with
      | .error failure => (.error failure, tree)
      | .ok tree =>
        if tree.isForeign (dataFile location) then (.error .invalidFile, tree)
        else if maxMapping < mapSize.toNat then (.error .outOfMemory, tree)
        else (.ok (), tree)

-- The environment of a directory as it would be opened. A new directory has no data file
-- yet.
def fromRest (h : Host) (location : Location) (config : Config) : Environment :=
  let tables := (h.atRest.get? location).getD ∅
  let fileSize := if h.tree.isThere (dataFile location) then tables.fileSize else 0
  Environment.start config fileSize tables h.capacity

-- The environment, unless its files could not be opened.
def conclude (h : Host) (e : Environment) :
    Except EngineFailure Unit × FileTree → Except StoreError Environment × Host
  | (.error failure, tree) => (.error (.engine "open" failure), { h with tree })
  | (.ok (), tree) => (.ok e, { h with tree })

-- Opens the files of a directory.
def launch (h : Host) (location : Location) (config : Config) :
    Except StoreError Environment × Host :=
  let e := h.fromRest location config
  h.conclude e (openFiles h.tree location e.mapSize)

-- The opening that is registered for a directory.
def registered? (h : Host) (location : Location) : Option (Nat × Environment) := do
  let number ← h.registry.get? location
  let opening ← h.openings.get? number
  return (number, opening.environment)

-- Registers an opening under the next number.
def enter (h : Host) (location : Location) (e : Environment) : Host :=
  { h with
    openings := h.openings.insert h.count ⟨location, e⟩
    registry := h.registry.insert location h.count
    count := h.count + 1 }

-- The opening of a directory, registered if there was none.
def register (h : Host) (location : Location) (config : Config) :
    Except StoreError (Nat × Environment) × Host :=
  match h.registered? location with
  | some found => (.ok found, h)
  | none =>
    match h.launch location config with
    | (.error error, h) => (.error error, h)
    | (.ok e, h) => (.ok (h.count, e), h.enter location e)

-- Opens a directory under a handle's name. The settings count only if no environment is
-- registered for the directory, but have to be valid.
def openFolder (h : Host) (handle path : String) (config : Config) :
    Except StoreError (Location × Environment) × Host :=
  match config.validate with
  | .error error => (.error (.invalid (.config error)), h)
  | .ok () =>
    let (reached, tree) := h.tree.reach path
    let h := { h with tree }
    match reached with
    | .error fault => (.error (.io (tree.spell path) fault.message), h)
    | .ok location =>
      match h.register location config with
      | (.error error, h) => (.error error, h)
      | (.ok (number, e), h) =>
        (.ok (location, e), { h with handles := h.handles.insert handle ⟨number, config⟩ })

def writeFile (h : Host) (path : String) : Host := { h with tree := h.tree.writeFile path }

-- A second handle just like the first.
def clone (h : Host) (handle copy : String) : Option Host :=
  (h.handles.get? handle).map fun held => { h with handles := h.handles.insert copy held }

-- Whether there was such a handle.
def drop (h : Host) (handle : String) : Bool × Host :=
  (h.handles.contains handle, { h with handles := h.handles.erase handle })

-- Whether a handle or the registry keeps an opening.
def isKept (h : Host) (number : Nat) : Bool :=
  (h.handles.toList.any fun (_, held) => held.number = number) ||
    h.registry.toList.any fun (_, registered) => registered = number

-- Ends an opening that nothing keeps. Its tables come to rest.
def release (h : Host) (number : Nat) : Option Host :=
  if h.isKept number then none
  else
    match h.openings.get? number with
    | none => some h
    | some opening =>
      some { h with
        atRest := h.atRest.insert opening.location opening.environment.tables
        openings := h.openings.erase number }

-- Ends an opening that was taken out of the registry, or puts it back.
def releaseOrKeep (h : Host) (location : Location) (number : Nat) : Bool × Host :=
  match h.release number with
  | some released => (true, released)
  | none => (false, { h with registry := h.registry.insert location number })

-- Closes the environment of a directory unless a handle still keeps it.
def close (h : Host) (path : String) : Bool × Host :=
  match h.tree.resolve path with
  | .error _ => (false, h)
  | .ok location =>
    match h.registry.get? location with
    | none => (false, h)
    | some number =>
      { h with registry := h.registry.erase location }.releaseOrKeep location number

-- Closes every environment that no handle keeps.
def shutdown (h : Host) : Host :=
  h.registry.toList.foldl (fun h (location, number) => (h.releaseOrKeep location number).2)
    { h with registry := ∅ }

def environment? (h : Host) (handle : String) : Option Environment := do
  let held ← h.handles.get? handle
  let opening ← h.openings.get? held.number
  return opening.environment

-- Runs an operation on the environment that a handle stands for.
def operate {α : Type} (h : Host) (handle : String) (run : Environment → α × Environment) :
    Option (α × Host) := do
  let held ← h.handles.get? handle
  let opening ← h.openings.get? held.number
  let (result, e) := run opening.environment
  return (result, { h with openings := h.openings.insert held.number ⟨opening.location, e⟩ })

-- Places bytes in a table while no environment has it: the one that a handle stands for is
-- closed before, and opened again in its place with the handle's settings. If it cannot be
-- opened, it and the handle are gone.
def plant (h : Host) (handle table : String) (key bytes : Bytes) :
    Option (Except StoreError Unit × Host) := do
  let held ← h.handles.get? handle
  let ⟨location, e⟩ ← h.openings.get? held.number
  let h := { h with atRest := h.atRest.insert location (e.plant table key bytes).tables }
  match h.launch location held.config with
  | (.ok e, h) =>
    return (.ok (), { h with openings := h.openings.insert held.number ⟨location, e⟩ })
  | (.error error, h) =>
    return (.error error,
      { h with
        openings := h.openings.erase held.number
        registry := h.registry.erase location
        handles := h.handles.erase handle })

end Host

end LightningRecords
