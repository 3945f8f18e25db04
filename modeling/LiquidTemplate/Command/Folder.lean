import LiquidTemplate.Command.Basic

/-!
# A folder in memory

A folder of files, so that the program can run without a disk. Paths are followed part by part:
an empty part and `.` stay where they are, `..` goes up, and only the last part may name a file.
Above the folder there are folders, but nothing in them can be reached.
-/

namespace LiquidTemplate

/-- What a name stands for. -/
inductive FolderEntry where
  | bytes (content : List UInt8)
  | text (content : Text)
  | folder

/-- Names and what they stand for. -/
structure Folder where
  entries : List (Text × FolderEntry)

namespace Folder

/-- Where following a path has led to. -/
inductive Location where
  /-- A folder, by the names that lead to it from the top one. -/
  | inside (path : List Text)
  | outside
  | file (entry : FolderEntry)
  | nowhere

/-- Splits a path at its slashes. The part under way is kept in reverse. -/
def partsOnto (part : Text) : Text → List Text
  | [] => [part.reverse]
  | c :: rest => if c = '/' then part.reverse :: partsOnto [] rest else partsOnto (c :: part) rest

/-- The parts of a path. -/
def parts (path : Text) : List Text := partsOnto [] path

/-- What stands for the name that these parts make up; a folder is also there if something is in
it. -/
def find? (f : Folder) (path : List Text) : Option FolderEntry :=
  match f.entries.find? fun e => parts e.1 == path with
  | some e => some e.2
  | none => if f.entries.any fun e => path.isPrefixOf (parts e.1) then some .folder else none

/-- Follows one part of a path. -/
def enter (f : Folder) (l : Location) (part : Text) : Location :=
  match l with
  | .nowhere | .file _ => .nowhere
  | .outside => if part = [] ∨ part = ['.'] ∨ part = ['.', '.'] then .outside else .nowhere
  | .inside path =>
    if part = [] ∨ part = ['.'] then .inside path
    else if part = ['.', '.'] then if path = [] then .outside else .inside path.dropLast
    else match f.find? (path ++ [part]) with
      | none => .nowhere
      | some .folder => .inside (path ++ [part])
      | some entry => .file entry

/-- Follows a path. -/
def locate (f : Folder) : Text → Location
  | [] => .nowhere
  | '/' :: rest => (parts rest).foldl f.enter .outside
  | path => (parts path).foldl f.enter (.inside [])

/-- The text of bytes in UTF-8. -/
def decode (content : List UInt8) : Except ReadFailure Text :=
  match String.fromUTF8? ⟨content.toArray⟩ with
  | some s => .ok s.toList
  | none => .error .notText

/-- Reads a file. -/
def read (f : Folder) (path : Text) : Except ReadFailure Text :=
  match f.locate path with
  | .nowhere => .error .notFound
  | .inside _ | .outside | .file .folder => .error .isFolder
  | .file (.text content) => .ok content
  | .file (.bytes content) => decode content

end Folder

end LiquidTemplate
