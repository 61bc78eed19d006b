import RowCode.Number.Digits

/-!
# JSON

JSON values and the two ways they are written: compact, and indented by two spaces.
-/

namespace RowCode

inductive Json where
  | null
  | boolean (b : Bool)
  /-- A number, by its text. -/
  | number (text : String)
  | string (s : String)
  | list (items : List Json)
  | object (members : List (String × Json))

namespace Json

def hexPair (n : Nat) : List Char := [Nat.digitChar (n / 16), Nat.digitChar (n % 16)]

def escape (c : Char) : List Char :=
  if c = '"' then ['\\', '"']
  else if c = '\\' then ['\\', '\\']
  else if c = '\x08' then ['\\', 'b']
  else if c = '\x0c' then ['\\', 'f']
  else if c = '\n' then ['\\', 'n']
  else if c = '\r' then ['\\', 'r']
  else if c = '\t' then ['\\', 't']
  else if c.toNat < 32 then ['\\', 'u', '0', '0'] ++ hexPair c.toNat
  else [c]

def quote (s : String) : List Char := '"' :: (s.toList.flatMap escape ++ ['"'])

def scalarText : Json → List Char
  | null => ['n', 'u', 'l', 'l']
  | boolean true => ['t', 'r', 'u', 'e']
  | boolean false => ['f', 'a', 'l', 's', 'e']
  | number text => text.toList
  | string s => quote s
  | list _ => ['[', ']']
  | object _ => ['\x7b', '\x7d']

mutual

def compact : Json → List Char
  | list items => '[' :: (compactItems items ++ [']'])
  | object members => '\x7b' :: (compactMembers members ++ ['\x7d'])
  | j => scalarText j

def compactItems : List Json → List Char
  | [] => []
  | [j] => compact j
  | j :: rest => compact j ++ ',' :: compactItems rest

def compactMembers : List (String × Json) → List Char
  | [] => []
  | [(name, j)] => quote name ++ ':' :: compact j
  | (name, j) :: rest => quote name ++ ':' :: (compact j ++ ',' :: compactMembers rest)

end

def newLine (depth : Nat) : List Char := '\n' :: List.replicate (2 * depth) ' '

mutual

/-- Each item and member on a line of its own; `depth` is that of the value. An empty list or object
stays on its line. -/
def indented (depth : Nat) : Json → List Char
  | list (j :: rest) =>
    '[' :: (newLine (depth + 1) ++ indented (depth + 1) j ++ indentedItems (depth + 1) rest ++
      newLine depth ++ [']'])
  | object ((name, j) :: rest) =>
    '\x7b' :: (newLine (depth + 1) ++ quote name ++ ':' :: ' ' :: indented (depth + 1) j ++
      indentedMembers (depth + 1) rest ++ newLine depth ++ ['\x7d'])
  | j => scalarText j

def indentedItems (depth : Nat) : List Json → List Char
  | [] => []
  | j :: rest => ',' :: (newLine depth ++ indented depth j ++ indentedItems depth rest)

def indentedMembers (depth : Nat) : List (String × Json) → List Char
  | [] => []
  | (name, j) :: rest =>
    ',' :: (newLine depth ++ quote name ++ ':' :: ' ' :: indented depth j ++
      indentedMembers depth rest)

end

def compactText (j : Json) : String := String.ofList j.compact

def indentedText (j : Json) : String := String.ofList (j.indented 0)

end Json

end RowCode
