import RowCode.File.Format

/-!
# Loading and saving

Programs are kept in a directory of files. The format is the one asked for, or else the one that
the path tells.
-/

namespace RowCode

structure Directory where
  files : List (String × List UInt8)

inductive FileError where
  | unknownFormat (path : String)
  | unreadable (path : String)
  | unwritable (path : String)
  | invalid (path : String) (format : FileFormat) (fault : DecodeFault)

def FileError.message : FileError → String
  | .unknownFormat path => "Cannot tell program format of " ++ path
  | .unreadable path => "Failed to read program file " ++ path
  | .unwritable path => "Failed to write program file " ++ path
  | .invalid path _ _ => "Invalid program file " ++ path

def FileError.fault? : FileError → Option (FileFormat × DecodeFault)
  | .invalid _ format fault => some (format, fault)
  | _ => none

def FileFormat.resolve (format : Option FileFormat) (path : String) :
    Except FileError FileFormat :=
  match format.or (FileFormat.ofPath? path) with
  | some format => .ok format
  | none => .error (.unknownFormat path)

def Program.load (read? : String → Option (List UInt8)) (path : String)
    (format : Option FileFormat) : Except FileError Program := do
  let format ← FileFormat.resolve format path
  match read? path with
  | none => .error (.unreadable path)
  | some bytes =>
    match format.decode bytes with
    | .ok p => .ok p
    | .error fault => .error (.invalid path format fault)

namespace Directory

def empty : Directory := ⟨[]⟩

def pathLimit : Nat := 4095

def nameLimit : Nat := 255

def entryName? (path : String) : Option String :=
  match Path.parts path with
  | [name] =>
    if path.toList.head? ≠ some '/' ∧ (Path.split path.toList).getLast? = some name ∧
        name ≠ ['.', '.'] ∧ '\x00' ∉ name ∧ path.utf8ByteSize ≤ pathLimit ∧
        (String.ofList name).utf8ByteSize ≤ nameLimit then
      some (String.ofList name)
    else none
  | _ => none

def read? (d : Directory) (path : String) : Option (List UInt8) :=
  (entryName? path).bind fun name => d.files.lookup name

def write? (d : Directory) (path : String) (bytes : List UInt8) : Option Directory :=
  (entryName? path).map fun name =>
    ⟨(name, bytes) :: d.files.filter fun file => file.1 ≠ name⟩

def load (d : Directory) (path : String) (format : Option FileFormat) :
    Except FileError Program :=
  Program.load d.read? path format

def save (d : Directory) (p : Program) (path : String) (format : Option FileFormat) :
    Except FileError Directory := do
  let format ← FileFormat.resolve format path
  match d.write? path (format.encode p) with
  | some d => .ok d
  | none => .error (.unwritable path)

end Directory

end RowCode
