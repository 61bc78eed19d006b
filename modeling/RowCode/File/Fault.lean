import RowCode.Program.Error

/-!
# Faults of program files

Why bytes are not a program.
-/

namespace RowCode

inductive DecodeFault where
  | malformed
  | unexpectedEnd
  | invalidUtf8
  | invalidBoolean
  | invalidTag
  | unknownVariant
  | invalidDecimal (text : String)
  | program (fault : ProgramError)
  deriving DecidableEq, Repr

/-- What is wrong with the program itself, as opposed to its form. -/
def DecodeFault.detail? : DecodeFault → Option String
  | .invalidDecimal text => some ("invalid decimal literal: " ++ text)
  | .program fault => some fault.message
  | _ => none

abbrev ByteReader (α : Type) := StateT (List UInt8) (Except DecodeFault) α

end RowCode
