import LightningRecords.OrderedMap
import LightningRecords.Text.Utf8

namespace LightningRecords

-- The names on the way from the root directory, none of them `.` or `..`.
abbrev Location := List String

def Location.compare : Location → Location → Ordering := List.compareLex Text.compare

instance : Std.TransCmp Location.compare :=
  inferInstanceAs (Std.TransCmp (List.compareLex Text.compare))

instance : Std.LawfulEqCmp Location.compare :=
  inferInstanceAs (Std.LawfulEqCmp (List.compareLex Text.compare))

-- Why a path leads nowhere.
inductive PathFault where
  | missing
  | notDirectory
  | alreadyExists
  | nameTooLong
  | noAccess
  | tooManyLinks
  | zeroByte
deriving DecidableEq, Repr

def PathFault.message : PathFault → String
  | .missing => "No such file or directory (os error 2)"
  | .notDirectory => "Not a directory (os error 20)"
  | .alreadyExists => "File exists (os error 17)"
  | .nameTooLong => "File name too long (os error 36)"
  | .noAccess => "Permission denied (os error 13)"
  | .tooManyLinks => "Too many levels of symbolic links (os error 40)"
  | .zeroByte => "file name contained an unexpected NUL byte"

-- What there can be at a place. In a sealed directory nothing can be made. A foreign file
-- has contents that the storage engine did not write. A link says where to go on instead,
-- as a path that begins at the directory it is in.
inductive Node where
  | folder (isSealed : Bool)
  | file (isForeign : Bool)
  | link (target : String)
deriving DecidableEq, Repr

namespace FileTree

-- The steps of a path as it was spelled. Several slashes are as good as one.
def stepsOf (path : String) : List String :=
  ((path.toList.splitOn '/').filter fun step => !step.isEmpty).map String.ofList

def isAbsolute (path : String) : Bool := path.startsWith "/"

end FileTree

-- What there is below the root directory. The home directory is always there; its path is
-- given, and any path that is not absolute begins at it.
structure FileTree where
  root : String
  home : Location := FileTree.stepsOf root
  nodes : OrderedMap Location.compare Node := ∅
deriving DecidableEq

namespace FileTree

-- Bytes of a name and of a whole path.
def maxName : Nat := 255

def maxPath : Nat := 4095

-- Links that are followed on one way.
def maxLinks : Nat := 40

-- A path as it was spelled, and a location as it is.
def spell (t : FileTree) (path : String) : String :=
  if isAbsolute path then path else t.root ++ "/" ++ path

def render (t : FileTree) (location : Location) : String :=
  if t.home.isPrefixOf location then
    "/".intercalate (t.root :: location.drop t.home.length)
  else "/" ++ "/".intercalate location

-- The steps of a path from the root directory.
def steps (t : FileTree) (path : String) : Except PathFault (List String) :=
  if path.toList.contains '\x00' then .error .zeroByte
  else if maxPath < (t.spell path).utf8ByteSize then .error .nameTooLong
  else if isAbsolute path then .ok (stepsOf path)
  else .ok (t.home ++ stepsOf path)

def node? (t : FileTree) (location : Location) : Option Node :=
  match t.nodes.get? location with
  | some node => some node
  | none => if location.isPrefixOf t.home then some (.folder false) else none

def isThere (t : FileTree) (location : Location) : Bool := (t.node? location).isSome

def isFolder (t : FileTree) (location : Location) : Bool :=
  match t.node? location with
  | some (.folder _) => true
  | _ => false

def isSealed (t : FileTree) (location : Location) : Bool :=
  t.node? location = some (.folder true)

def isForeign (t : FileTree) (location : Location) : Bool :=
  t.node? location = some (.file true)

def link? (t : FileTree) (location : Location) : Option String :=
  match t.node? location with
  | some (.link target) => some target
  | _ => none

-- One step further from a place. Only directories can be stepped from, even if the step is
-- `.`, and above the root directory is the root directory.
def follow (t : FileTree) (location : Location) (step : String) : Except PathFault Location :=
  if !t.isFolder location then .error .notDirectory
  else if step = "." then .ok location
  else if step = ".." then .ok location.dropLast
  else if maxName < step.utf8ByteSize then .error .nameTooLong
  else if t.isThere (location ++ [step]) then .ok (location ++ [step])
  else .error .missing

-- Where the steps of a link begin that is found next to a place.
def linkStart (location : Location) (target : String) : Location :=
  if isAbsolute target then [] else location

-- The place that steps lead to from another, if it is said what comes of a link and of the
-- steps behind it. `left` links may be followed after it.
def walkBy (t : FileTree) (left : Nat)
    (turn : Location → List String → Except PathFault (Location × Nat)) :
    Location → List String → Except PathFault (Location × Nat)
  | location, [] => .ok (location, left)
  | location, step :: rest => do
    let next ← t.follow location step
    match t.link? next with
    | some target => turn (linkStart location target) (stepsOf target ++ rest)
    | none => t.walkBy left turn next rest

-- The place that steps lead to, with so many links to follow, and how many are left then.
def walkFrom (t : FileTree) : Nat → Location → List String → Except PathFault (Location × Nat)
  | 0 => t.walkBy 0 fun _ _ => .error .tooManyLinks
  | left + 1 => t.walkBy (left + 1) (t.walkFrom left)

def walk (t : FileTree) (steps : List String) : Except PathFault Location :=
  (t.walkFrom maxLinks [] steps).map Prod.fst

-- Where a path leads. What stands before a slash has to be a directory, also at the end.
def resolve (t : FileTree) (path : String) : Except PathFault Location := do
  let location ← t.walk (← t.steps path)
  if path.toList.getLast? = some '/' && !t.isFolder location then .error .notDirectory
  else .ok location

def leadsToFolder (t : FileTree) (steps : List String) : Bool :=
  match t.walk steps with
  | .ok location => t.isFolder location
  | .error _ => false

-- The place of a last step that leads to nothing yet. What can be followed is
-- there already, and so is a link.
def vacancy (t : FileTree) (steps : List String) : Except PathFault Location :=
  match steps.getLast? with
  | none => .error .alreadyExists
  | some step => do
    let above ← t.walk steps.dropLast
    match t.follow above step with
    | .ok _ => .error .alreadyExists
    | .error .missing => if t.isSealed above then .error .noAccess else .ok (above ++ [step])
    | .error fault => .error fault

def addNode (t : FileTree) (location : Location) (node : Node) : FileTree :=
  { t with nodes := t.nodes.insert location node }

def addFile (t : FileTree) (location : Location) : FileTree :=
  if t.isThere location then t else t.addNode location (.file false)

-- The place of the file that a last step leads to or could lead to. A directory
-- has no place for a file.
def filePlace (t : FileTree) (steps : List String) : Except PathFault Location :=
  match t.walk steps with
  | .ok location => if t.isFolder location then .error .alreadyExists else .ok location
  | .error _ => t.vacancy steps

-- Writes a file if there is a place for it, over one that is there. A name before
-- a slash is not a file's.
def writeFile (t : FileTree) (path : String) : FileTree :=
  match (t.steps path).bind t.filePlace with
  | .ok location => if path.endsWith "/" then t else t.addNode location (.file true)
  | .error _ => t

-- Makes the directory that the last step leads to. One that is there already is
-- as good as a new one.
def ensureFolder (t : FileTree) (steps : List String) : Except PathFault FileTree :=
  match t.vacancy steps with
  | .ok location => .ok (t.addNode location (.folder false))
  | .error fault => if t.leadsToFolder steps then .ok t else .error fault

-- The beginnings of the steps that were given from the end, longest first.
def beginnings : List String → List (List String)
  | [] => []
  | step :: back => (step :: back).reverse :: beginnings back

-- The steps and then the steps to each directory above. A `.` leads to no
-- directory of its own: at the end it is taken off together with the name before
-- it.
def lineage (steps : List String) : List (List String) :=
  steps :: beginnings (steps.filter (· != ".")).reverse.tail

-- Makes the first directory of a lineage. If the one above is missing, it is made
-- before, and stays even if it was made in vain.
def ensureLineage (t : FileTree) : List (List String) → Except PathFault Unit × FileTree
  | [] => (.ok (), t)
  | steps :: above =>
    match t.ensureFolder steps with
    | .ok made => (.ok (), made)
    | .error .missing =>
      match t.ensureLineage above with
      | (.error fault, made) => (.error fault, made)
      | (.ok (), made) =>
        match made.ensureFolder steps with
        | .ok complete => (.ok (), complete)
        | .error fault => (.error fault, made)
    | .error fault => (.error fault, t)

-- Where a path leads once every directory on it is made that was not there yet.
def reach (t : FileTree) (path : String) : Except PathFault Location × FileTree :=
  match t.steps path with
  | .error fault => (.error fault, t)
  | .ok steps =>
    match t.ensureLineage (lineage steps) with
    | (.error fault, made) => (.error fault, made)
    | (.ok (), made) => (made.walk steps, made)

end FileTree

end LightningRecords
