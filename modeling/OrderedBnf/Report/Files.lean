import OrderedBnf.Text.Lines

/-! The files that a program is given, all in one folder. -/
namespace OrderedBnf

abbrev Files := List (String × Text)

abbrev Folder := List (String × ByteArray)

/-- How stored bytes are read as characters, where they can be. -/
abbrev Encoding := ByteArray → Option Text

def Encoding.utf8 : Encoding := fun bytes => (String.fromUTF8? bytes).map String.toList

inductive FileError where
  | missing
  | isFolder
  /-- A file stands where the path needs a folder. -/
  | inFile
  deriving DecidableEq, Repr

abbrev Reads (ε : Type) := String → Except ε Text

def FileError.message : FileError → String
  | missing => "no such file"
  | isFolder => "is a folder"
  | inFile => "not a folder"

/-- A file that is there may still hold bytes that are no text. -/
inductive StorageError where
  | absent (error : FileError)
  | undecodable
  deriving DecidableEq, Repr

def StorageError.message : StorageError → String
  | absent error => error.message
  | undecodable => "cannot be decoded"

namespace Files

private def dropSteps : Text → Text
  | '/' :: rest => dropSteps rest
  | '.' :: '/' :: rest => dropSteps rest
  | path => path

/-- The name that a path leads to. Steps that stay in the folder, as in `./x`, are left out. -/
def nameOf (path : String) : String :=
  match path.toList with
  | '.' :: '/' :: rest => String.ofList (dropSteps rest)
  | _ => path

def find {α : Type} (files : List (String × α)) (path : String) : Except FileError α :=
  let name := nameOf path
  match files.lookup name with
  | some content => .ok content
  | none =>
    if path ≠ "" && ["", ".", ".."].contains name then .error .isFolder
    else if files.any fun (file, _) => (file ++ "/").toList.isPrefixOf name.toList then
      .error .inFile
    else .error .missing

/-- A file is read as text: every line break becomes a feed. -/
def read (files : Files) (path : String) : Except FileError Text :=
  (find files path).map Text.feedBreaks

end Files

def Folder.read (encoding : Encoding) (folder : Folder) (path : String) :
    Except StorageError Text :=
  match Files.find folder path with
  | .error error => .error (.absent error)
  | .ok bytes =>
    match encoding bytes with
    | none => .error .undecodable
    | some content => .ok content.feedBreaks

end OrderedBnf
