/-
Source files.  Reading a path yields bytes or a fault; the bytes are a source if they are UTF-8.
A tree of folders is the file system that a closed run of the program sees.
-/
import Forth.Numeral

namespace Forth

/-- Why a path could not be read as text. -/
inductive FileFault where
  /-- The system refuses the path, for a reason with a number. -/
  | system (reason : String) (code : Nat)
  /-- The path holds a character that no path may hold. -/
  | badPath
  /-- The bytes are not UTF-8. -/
  | notText
deriving DecidableEq, Repr

namespace FileFault

def missing : FileFault := .system "No such file or directory" 2

def notFolder : FileFault := .system "Not a directory" 20

def isFolder : FileFault := .system "Is a directory" 21

def nameTooLong : FileFault := .system "File name too long" 36

def denied : FileFault := .system "Permission denied" 13

def tooManyLinks : FileFault := .system "Too many levels of symbolic links" 40

/-- The fault of a number that the system gave, with the usual reason if there is one. -/
def ofCode (code : Nat) (reason : String) : FileFault :=
  let usual := [missing, denied, notFolder, isFolder, nameTooLong, tooManyLinks]
  (usual.find? fun
    | .system _ known => known == code
    | _ => false).getD (.system reason code)

/-- The text shown for a path that could not be read. -/
def message : FileFault → String
  | .system reason code => reason ++ " (os error " ++ Numeral.ofNat code ++ ")"
  | .badPath => "file name contained an unexpected NUL byte"
  | .notText => "stream did not contain valid UTF-8"

end FileFault

/-- What reading a path yields. -/
abbrev FileContent : Type := Except FileFault ByteArray

/-- The text of a file. -/
def FileContent.text : FileContent → Except FileFault String
  | .ok bytes =>
      match String.fromUTF8? bytes with
      | some text => .ok text
      | none => .error .notText
  | .error fault => .error fault

/-- Something that has a name in a folder. -/
inductive Node where
  | file (bytes : ByteArray)
  | folder (entries : List (String × Node))

/-- The content of a folder. -/
abbrev Entries : Type := List (String × Node)

/-- A tree of folders, and the place in it from which relative paths start. -/
structure FileSystem where
  root : Entries
  /-- The folder from which relative paths start. -/
  current : Entries
  /-- The folders around the current one, innermost first. -/
  above : List Entries

namespace FileSystem

/-- The bytes that a name in a path may have at most. -/
def nameLimit : Nat := 255

/-- The bytes that a whole path may have at most. -/
def pathLimit : Nat := 4095

/-- The parts of a path, which slashes separate. -/
def parts (path : String) : List String :=
  (path.toList.splitOn '/').map String.ofList

/-- Follows the parts of a path from a folder, with the folders around it.  Empty parts and single dots
stay in the folder and two dots leave it; a name is looked up only if it is short enough, and a file
can only be the last part. -/
def walk (here : Entries) (above : List Entries) : List String → FileContent
  | [] => .error .isFolder
  | part :: parts =>
      if part = "" ∨ part = "." then walk here above parts
      else if part = ".." then
        match above with
        | [] => walk here [] parts
        | up :: above => walk up above parts
      else if nameLimit < part.utf8ByteSize then .error .nameTooLong
      else
        match here.lookup part with
        | none => .error .missing
        | some (.folder entries) => walk entries (here :: above) parts
        | some (.file bytes) => if parts.isEmpty then .ok bytes else .error .notFolder

/-- Reads a path.  What is wrong with the path as a whole is found before anything is looked up. -/
def read (fs : FileSystem) (path : String) : FileContent :=
  if path.toList.contains '\x00' then .error .badPath
  else if pathLimit < path.utf8ByteSize then .error .nameTooLong
  else
    match path.toList with
    | [] => .error .missing
    | '/' :: _ => walk fs.root [] (parts path)
    | _ => walk fs.current fs.above (parts path)

end FileSystem

end Forth
