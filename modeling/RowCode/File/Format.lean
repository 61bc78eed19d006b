import RowCode.File.BinaryReader
import RowCode.File.JsonReader
import RowCode.File.JsonWriter
import RowCode.File.Path

/-!
# Program files

A program file holds one program, as JSON or in binary.
-/

namespace RowCode

inductive FileFormat where
  | json | binary
  deriving DecidableEq, Repr

namespace FileFormat

def ofPath? (path : String) : Option FileFormat :=
  match Path.extension? path with
  | some "json" => some .json
  | some "bin" => some .binary
  | some "bincode" => some .binary
  | _ => none

def encode (format : FileFormat) (p : Program) : List UInt8 :=
  match format with
  | .json => (Json.ofProgram p).indentedText.toUTF8.data.toList
  | .binary => Binary.ofProgram p

def decode (format : FileFormat) (bytes : List UInt8) : Except DecodeFault Program :=
  match format with
  | .json => Json.readProgram bytes
  | .binary => Binary.readProgram bytes

def decodeMessage : FileFormat → String
  | .json => "Failed to decode JSON program"
  | .binary => "Failed to decode bincode program"

end FileFormat

end RowCode
