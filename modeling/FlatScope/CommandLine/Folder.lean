import FlatScope.CommandLine.Options

/-!
# Reading inputs

Why an input cannot be read, and a working directory as a value: the files in it by their paths, with
a directory wherever the path of a file leads through one.
-/

namespace FlatScope

/-- Why an input cannot be read. -/
inductive ReadError where
  | notFound
  | notDirectory
  | isDirectory
  | notText
  /-- Any other reason, in the words of the system. -/
  | other (reason : String)
deriving DecidableEq

def ReadError.message : ReadError → String
  | .notFound => "No such file or directory (os error 2)"
  | .notDirectory => "Not a directory (os error 20)"
  | .isDirectory => "Is a directory (os error 21)"
  | .notText => "stream did not contain valid UTF-8"
  | .other reason => reason

/-- The text that bytes encode in UTF-8. -/
def textOfBytes (bytes : ByteArray) : Except ReadError String :=
  match String.fromUTF8? bytes with
  | some text => .ok text
  | none => .error .notText

/-- The files of a working directory: the parts of each path, and the contents. -/
structure Folder where
  files : List (List String × ByteArray)

namespace Folder

def parts (path : String) : List String :=
  path.splitOn "/"

/-- The folder that holds files under the given paths. -/
def ofPaths (files : List (String × ByteArray)) : Folder :=
  ⟨files.map fun (path, contents) => (parts path, contents)⟩

def file? (folder : Folder) (path : List String) : Option ByteArray := folder.files.lookup path

/-- Whether the path of some file leads through a directory. -/
def hasDirectory (folder : Folder) (path : List String) : Bool :=
  folder.files.any fun (file, _) => path.isPrefixOf file && path.length < file.length

/-- Why nothing can be read outside the working directory: a path there either names one of the
directories around it or nothing. -/
def outside (parts : List String) : ReadError :=
  if parts.all fun part => part = "" ∨ part = "." ∨ part = ".." then .isDirectory else .notFound

/-- Follows the parts of a path from a directory of the folder. -/
def follow (folder : Folder) (directory : List String) : List String → Except ReadError ByteArray
  | [] => .error .isDirectory
  | part :: rest =>
    if part = "" ∨ part = "." then folder.follow directory rest
    else if part = ".." then
      if directory.isEmpty then .error (outside rest) else folder.follow directory.dropLast rest
    else
      let path := directory ++ [part]
      match folder.file? path with
      | some contents => if rest.isEmpty then .ok contents else .error .notDirectory
      | none => if folder.hasDirectory path then folder.follow path rest else .error .notFound

/-- The contents of the file that a path names.  A path that starts with a slash leads outside. -/
def read (folder : Folder) (path : String) : Except ReadError ByteArray :=
  match parts path with
  | [""] => .error .notFound
  | "" :: rest => .error (outside rest)
  | parts => folder.follow [] parts

end Folder

end FlatScope
