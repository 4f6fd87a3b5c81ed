/-! A directory held in memory, and the paths that lead from it to files. -/
namespace BlockTally

/-- Files by their places; a directory is where the way to a place leads through. -/
structure Folder where
  files : List (List String × ByteArray) := []

inductive FileError where
  | notFound
  | notDirectory
  | isDirectory
  | nameTooLong
  | nulByte
  | other (reason : String)
  deriving DecidableEq

def FileError.message : FileError → String
  | .notFound => "No such file or directory (os error 2)"
  | .notDirectory => "Not a directory (os error 20)"
  | .isDirectory => "Is a directory (os error 21)"
  | .nameTooLong => "File name too long (os error 36)"
  | .nulByte => "file name contained an unexpected NUL byte"
  | .other reason => reason

namespace Folder

def names (path : String) : List String := (path.splitOn "/").filter (!·.isEmpty)

def start (path : String) : List String := if path.startsWith "/" then ["/"] else []

/-- One place up. What lies above the directory is known by the number of steps to it only, and
nothing lies above the root. -/
def above (place : List String) : List String :=
  if place = ["/"] then place
  else if place.all (· == "..") then ".." :: place
  else place.dropLast

def step (place : List String) (name : String) : List String :=
  if name = "." then place
  else if name = ".." then above place
  else place ++ [name]

def place (path : String) : List String := (names path).foldl step (start path)

def baseName (path : String) : String := (names path).getLast?.getD path

def ofFiles (files : List (String × ByteArray)) : Folder :=
  ⟨files.map fun (path, bytes) => (place path, bytes)⟩

def file? (folder : Folder) (place : List String) : Option ByteArray := folder.files.lookup place

/-- The directory itself, those above it, and those that its files are in. -/
def hasDirectory (folder : Folder) (place : List String) : Bool :=
  place.all (fun name => name == ".." || name == "/") ||
    folder.files.any fun (file, _) => place.isPrefixOf file && place != file

def follow (place : List String) (name : String) : Except FileError (List String) :=
  if 255 < name.utf8ByteSize then .error .nameTooLong else .ok (step place name)

def enter (folder : Folder) (place : List String) : List String → Except FileError (List String)
  | [] => .ok place
  | name :: rest => do
    let next ← follow place name
    if folder.hasDirectory next then folder.enter next rest
    else throw (if (folder.file? next).isSome then .notDirectory else .notFound)

def parent (folder : Folder) (path : String) : Except FileError (List String) :=
  if path.toList.contains '\x00' then .error .nulByte
  else if 4095 < path.utf8ByteSize then .error .nameTooLong
  else folder.enter (start path) (names path).dropLast

def read (folder : Folder) (path : String) : Except FileError ByteArray := do
  let parent ← folder.parent path
  match (names path).getLast? with
  | none => throw .isDirectory
  | some name =>
    let place ← follow parent name
    if folder.hasDirectory place then throw .isDirectory
    match folder.file? place with
    | none => throw .notFound
    | some bytes => if path.endsWith "/" then throw .notDirectory else return bytes

/-- The place of a file that is opened to be written, in a directory that exists. What a slash ends is
never made. -/
def target (folder : Folder) (path : String) : Except FileError (List String) := do
  let parent ← folder.parent path
  match (names path).getLast? with
  | none => throw .isDirectory
  | some name =>
    if path.endsWith "/" then throw .isDirectory
    let place ← follow parent name
    if folder.hasDirectory place then throw .isDirectory
    return place

def put (folder : Folder) (place : List String) (bytes : ByteArray) : Folder :=
  ⟨(place, bytes) :: folder.files.filter (·.1 != place)⟩

end Folder

end BlockTally
