import RuleScript.Pipeline.Source

/-!
# Files

What a command finds in the file system.  `Files` tells what is at a path.  A `FileTree` is one
directory held in memory, which paths are resolved in as they are in a file system.  A snapshot
knows only the paths that were looked up in a file system before.

Scripts are looked for in the search paths, in order, and then as the path says.
-/

namespace RuleScript.CommandLine

/-- What a file holds. -/
inductive Content where
  | text (text : String)
  | binary
  deriving DecidableEq

/-- What bytes are, read as text if they are one. -/
def Content.ofBytes (bytes : ByteArray) : Content :=
  match String.fromUTF8? bytes with
  | some characters => text characters
  | none => binary

/-- Why a path leads nowhere. -/
inductive DeadEnd where
  | missing
  /-- Some part of the path in front of its end is no directory. -/
  | throughFile
  /-- The path or a name in it is longer than a file system takes. -/
  | tooLong
  /-- The path holds the null character. -/
  | nullInPath
  deriving DecidableEq

/-- What is at a path. -/
inductive Entry where
  | nothing (why : DeadEnd)
  | directory
  /-- Something that can be read like a file, such as a device.  It is not taken for a script. -/
  | stream (content : Content)
  /-- A file, with the one path that is the same whatever path it was found by. -/
  | file (key : String) (content : Content)
  deriving DecidableEq

/-- The file system as far as a command can see it. -/
structure Files where
  entry : String → Entry
  /-- The one path of each file. -/
  keys : List String
  key_mem : ∀ {path key content}, entry path = .file key content → key ∈ keys

/-- Why an input cannot be read. -/
inductive ReadError where
  | nothing (why : DeadEnd)
  | directory
  | notText
  deriving DecidableEq

def ReadError.message : ReadError → String
  | nothing .missing => "No such file or directory (os error 2)"
  | nothing .throughFile => "Not a directory (os error 20)"
  | nothing .tooLong => "File name too long (os error 36)"
  | nothing .nullInPath => "file name contained an unexpected NUL byte"
  | directory => "Is a directory (os error 21)"
  | notText => notTextMessage

namespace Files

variable (files : Files)

/-- Read a text. -/
def read (path : String) : Except ReadError String :=
  match files.entry path with
  | .nothing why => .error (.nothing why)
  | .directory => .error .directory
  | .stream .binary | .file _ .binary => .error .notText
  | .stream (.text text) | .file _ (.text text) => .ok text

/-- A path inside a directory. -/
def join (directory path : String) : String :=
  if directory.isEmpty || directory.endsWith "/" then directory ++ path
  else directory ++ "/" ++ path

/-- The places where a script is looked for. -/
def candidates (searchPaths : List String) (path : String) : List String :=
  if path.startsWith "/" then [path] else searchPaths.map (join · path) ++ [path]

/-- The first of some places that is a file. -/
def loadFirst (path : String) (searched : List String) : List String →
    Except PipelineError Source
  | [] => .error (.includeNotFound path searched)
  | candidate :: rest =>
    match files.entry candidate with
    | .file key (.text text) => .ok ⟨key, text⟩
    | .file _ .binary => .error (.notText candidate)
    | _ => loadFirst path searched rest

theorem key_mem_of_loadFirst {path : String} {searched places : List String} {source : Source}
    (h : files.loadFirst path searched places = .ok source) : source.key ∈ files.keys := by
  induction places with
  | nil => cases h
  | cons candidate rest ih =>
    rw [loadFirst] at h
    split at h
    · rename_i found
      cases h
      exact files.key_mem found
    · cases h
    · exact ih h

/-- The loader that looks for scripts among the files. -/
def loader (searchPaths : List String) : Loader where
  keys := files.keys
  load path :=
    let places := candidates searchPaths path
    files.loadFirst path places places
  key_mem h := files.key_mem_of_loadFirst h

end Files

/-! ## Snapshots -/

/-- The key of an entry that is a file. -/
def Entry.key? : Entry → Option String
  | file key _ => some key
  | _ => none

/-- Paths that were looked up, with what was there. -/
abbrev Snapshot := List (String × Entry)

namespace Snapshot

/-- What a path was found to lead to. -/
def entry? (snapshot : Snapshot) (path : String) : Option Entry := snapshot.lookup path

/-- A path, unless it was looked up already. -/
def unseen? (snapshot : Snapshot) (path : String) : Option String :=
  if (snapshot.entry? path).isSome then none else some path

/-- The files of a snapshot.  A path that was not looked up counts as a file that is no text, so
that nothing comes of it before it is. -/
def toFiles (snapshot : Snapshot) : Files where
  entry path := (snapshot.entry? path).getD (.file "" .binary)
  keys := "" :: snapshot.filterMap (·.2.key?)
  key_mem {path key content} h := by
    cases found : snapshot.entry? path with
    | none =>
      rw [found] at h
      cases h
      exact List.mem_cons_self
    | some entry =>
      rw [found] at h
      obtain ⟨before, after, split, -⟩ := List.lookup_eq_some_iff.mp found
      refine List.mem_cons_of_mem _ (List.mem_filterMap.mpr ⟨(path, entry), ?_, ?_⟩)
      · simp [split]
      · simpa [Entry.key?] using congrArg Entry.key? h

end Snapshot

/-! ## A directory in memory -/

/-- A directory with all that is below it, each path as the list of its names. -/
structure FileTree where
  /-- The path of the directory itself. -/
  root : String
  files : List (List String × Content)
  directories : List (List String)

namespace FileTree

variable (tree : FileTree)

/-- The names in a path. -/
def names (path : String) : List String := (path.splitOn "/").filter (· ≠ "")

/-- The names that a path inside the directory comes down to, as `.` stays in a directory and `..`
leaves it. -/
def plainNames (path : String) : List String :=
  (names path).foldl (fun walked name =>
    if name = "." then walked else if name = ".." then walked.dropLast else walked ++ [name]) []

/-- Whether there is a directory at these names; the ones on the way to a file are. -/
def isDirectory (path : List String) : Bool :=
  path.isEmpty || tree.directories.any (path.isPrefixOf ·) ||
    tree.files.any fun (file, _) => path.isPrefixOf file && path.length < file.length

/-- The one path of the file with these names. -/
def keyOf (path : List String) : String := tree.root ++ "/" ++ "/".intercalate path

/-- What is at these names. -/
def entryAt (path : List String) : Entry :=
  match tree.files.find? (·.1 == path) with
  | some (found, content) => .file (tree.keyOf found) content
  | none => if tree.isDirectory path then .directory else .nothing .missing

/-- The directories that are at the top of every file system. -/
def topDirectories : List String :=
  ["bin", "boot", "dev", "etc", "home", "lib", "media", "mnt", "opt", "proc", "root", "run", "sbin",
    "srv", "sys", "tmp", "usr", "var"]

/-- What is known to be at the names of a path from the top: the directories there, and the null
device, which reads as an empty text. -/
def entryAtTop : List String → Entry
  | [] => .directory
  | [name] => if name ∈ topDirectories then .directory else .nothing .missing
  | ["dev", "null"] => .stream (.text "")
  | _ => .nothing .missing

/-- Somewhere in the file system: below the directory of the tree, in some directory above it, or
below the top. -/
inductive Position where
  | inside (path : List String)
  | above
  | fromTop (path : List String)

/-- What is at a position. -/
def entryOf : Position → Entry
  | .inside path => tree.entryAt path
  | .above => .directory
  | .fromTop path => entryAtTop path

/-- Where a name leads from a directory, if it leads somewhere. -/
def Position.step : Position → String → Option Position
  | position, "." => some position
  | .inside path, ".." => some (if path.isEmpty then .above else .inside path.dropLast)
  | .above, ".." => some .above
  | .fromTop path, ".." => some (.fromTop path.dropLast)
  | .inside path, name => some (.inside (path ++ [name]))
  | .above, _ => none
  | .fromTop path, name => some (.fromTop (path ++ [name]))

/-- The most bytes that a name may have. -/
def nameLimit : Nat := 255

/-- The most bytes that a path may have. -/
def pathLimit : Nat := 4095

/-- Follow the names of a path, as long as they lead through directories. -/
def follow (mustBeDirectory : Bool) : Position → List String → Entry
  | position, [] =>
    match tree.entryOf position with
    | .nothing why => .nothing why
    | .directory => .directory
    | entry => if mustBeDirectory then .nothing .throughFile else entry
  | position, name :: rest =>
    match tree.entryOf position with
    | .nothing why => .nothing why
    | .stream _ | .file .. => .nothing .throughFile
    | .directory =>
      if name.utf8ByteSize > nameLimit then .nothing .tooLong
      else
        match position.step name with
        | some next => follow mustBeDirectory next rest
        | none => .nothing .missing

/-- What is at a path, seen from the directory of the tree. -/
def entry (path : String) : Entry :=
  if '\x00' ∈ path.toList then .nothing .nullInPath
  else if path.isEmpty then .nothing .missing
  else if path.utf8ByteSize > pathLimit then .nothing .tooLong
  else
    tree.follow (path.endsWith "/") (if path.startsWith "/" then .fromTop [] else .inside [])
      (names path)

theorem key_mem_of_entryAt {path : List String} {key : String} {content : Content}
    (h : tree.entryAt path = .file key content) :
    key ∈ tree.files.map fun (file, _) => tree.keyOf file := by
  rw [entryAt] at h
  split at h
  · rename_i found content' found_eq
    cases h
    exact List.mem_map.mpr ⟨(found, content), List.mem_of_find?_eq_some found_eq, rfl⟩
  · split at h <;> cases h

theorem key_mem_of_entryOf {position : Position} {key : String} {content : Content}
    (h : tree.entryOf position = .file key content) :
    key ∈ tree.files.map fun (file, _) => tree.keyOf file := by
  cases position with
  | inside path => exact tree.key_mem_of_entryAt h
  | above => cases h
  | fromTop path =>
    simp only [entryOf, entryAtTop] at h
    split at h
    · cases h
    · split at h <;> cases h
    · cases h
    · cases h

theorem key_mem_of_follow {mustBeDirectory : Bool} {position : Position} {rest : List String}
    {key : String} {content : Content}
    (h : tree.follow mustBeDirectory position rest = .file key content) :
    key ∈ tree.files.map fun (file, _) => tree.keyOf file := by
  induction rest generalizing position with
  | nil =>
    rw [follow] at h
    split at h
    · cases h
    · cases h
    · split at h
      · cases h
      · exact tree.key_mem_of_entryOf h
  | cons name rest ih =>
    rw [follow] at h
    split at h
    · cases h
    · cases h
    · cases h
    · split at h
      · cases h
      · split at h
        · exact ih h
        · cases h

/-- The files of the tree. -/
def toFiles : Files where
  entry := tree.entry
  keys := tree.files.map fun (file, _) => tree.keyOf file
  key_mem {path key content} h := by
    rw [entry] at h
    split at h
    · cases h
    · split at h
      · cases h
      · split at h
        · cases h
        · exact tree.key_mem_of_follow h

end FileTree

end RuleScript.CommandLine
