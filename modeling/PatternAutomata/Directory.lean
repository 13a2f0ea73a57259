import PatternAutomata.CommandLine

/-!
# Pattern automata — a directory in memory

What a command prints and what it leaves behind is a function of the files that it
finds (`Plan.runIn`). Files and directories are known by the names that lead to
them from the root; the command runs in one directory among them.

A path is followed name by name, through directories only. To be written, its last
name has to be one that a file can have: dots, and a name with a slash behind it,
stand for directories.
-/

namespace PatternAutomata

/-- The directories and the files that there are, each with the names that lead to it. -/
structure Directory where
  directories : List (List String)
  files : List (List String × ByteArray)

namespace Directory

/-- The directory that the command runs in. -/
def here : List String := ["tmp", "work"]

/-- This file takes every text and holds none. -/
def nullDevice : List String := ["dev", "null"]

/-- A directory of some files, with little around it: a device to be written to, and a file of
the system's. -/
def ofFiles (files : List (String × ByteArray)) : Directory where
  directories := [[], ["dev"], ["etc"], ["tmp"], here]
  files := (nullDevice, .empty) :: (["etc", "passwd"], .empty) ::
    files.map fun (name, bytes) => (here ++ [name], bytes)

/-- The greatest size of a name, in bytes. -/
def maxNameSize : Nat := 255

/-- The greatest size of a path, in bytes. -/
def maxPathSize : Nat := 4095

/-- Follows a path by one name that has more behind it. -/
def enter (d : Directory) (place : List String) (name : String) :
    Except OpenError (List String) :=
  if name = "." then .ok place
  else if name = ".." then .ok place.dropLast
  else if maxNameSize < name.utf8ByteSize then .error .nameTooLong
  else if d.directories.contains (place ++ [name]) then .ok (place ++ [name])
  else if (d.files.lookup (place ++ [name])).isSome then .error .notADirectory
  else .error .notFound

/-- The file that a path's last name stands for, unless it stands for a directory. The file need
not be there. -/
def finish (d : Directory) (place : List String) (name : String) (slashed : Bool) :
    Except OpenError (List String) :=
  if name = "." ∨ name = ".." ∨ slashed then .error .isDirectory
  else if maxNameSize < name.utf8ByteSize then .error .nameTooLong
  else if d.directories.contains (place ++ [name]) then .error .isDirectory
  else .ok (place ++ [name])

/-- The file that a path leads to. -/
def locate (d : Directory) (path : String) : Except OpenError (List String) :=
  if path.isEmpty then .error .notFound
  else if maxPathSize < path.utf8ByteSize then .error .nameTooLong
  else
    let parts := path.splitOn "/"
    let names := parts.filter (!·.isEmpty)
    match names.getLast? with
    | none => .error .isDirectory
    | some last => do
      let start := if parts.head? = some "" then [] else here
      d.finish (← names.dropLast.foldlM d.enter start) last (parts.getLast? = some "")

def read (d : Directory) (path : String) : Except OpenError ByteArray := do
  match d.files.lookup (← d.locate path) with
  | some bytes => return bytes
  | none => throw .notFound

/-- Puts the text into the file, in place of what it held. -/
def write (d : Directory) (path contents : String) : Except OpenError Directory := do
  let file ← d.locate path
  if file = nullDevice then return d
  else return { d with files := (file, contents.toUTF8) :: d.files.filter (·.1 ≠ file) }

end Directory

/-- Carries a plan out in a directory. -/
def Plan.runIn (d : Directory) : Plan → Transcript × Directory
  | .done t => (t, d)
  | .write path contents =>
    match d.write path contents with
    | .ok d' => (Plan.afterWrite path (.ok ()), d')
    | .error why => (Plan.afterWrite path (.error why), d)
  | .check path o => (Plan.afterRead path o (d.read path), d)

end PatternAutomata
