import RowCode.File.Fault
import RowCode.File.JsonNumber

/-!
# Tokens of JSON

Strings, literal words, and values that nobody asked for. A string that is wanted must be UTF-8 and
its escapes must pair surrogates; a value that is skipped only has to follow the grammar.
-/

namespace RowCode

namespace JsonToken

def isSpace (b : UInt8) : Bool :=
  b = ' '.toUInt8 || b = '\n'.toUInt8 || b = '\t'.toUInt8 || b = '\r'.toUInt8

def dropSpace (bytes : List UInt8) : List UInt8 := bytes.dropWhile isSpace

def hexDigit? (b : UInt8) : Option Nat :=
  if '0'.toUInt8 ≤ b ∧ b ≤ '9'.toUInt8 then some (b.toNat - '0'.toNat)
  else if 'a'.toUInt8 ≤ b ∧ b ≤ 'f'.toUInt8 then some (b.toNat - 'a'.toNat + 10)
  else if 'A'.toUInt8 ≤ b ∧ b ≤ 'F'.toUInt8 then some (b.toNat - 'A'.toNat + 10)
  else none

def unit? (a b c d : UInt8) : Option Nat := do
  let a ← hexDigit? a
  let b ← hexDigit? b
  let c ← hexDigit? c
  let d ← hexDigit? d
  pure (((a * 16 + b) * 16 + c) * 16 + d)

def isLeadSurrogate (n : Nat) : Bool := 0xd800 ≤ n && n < 0xdc00

def isTrailSurrogate (n : Nat) : Bool := 0xdc00 ≤ n && n < 0xe000

def pairValue (lead trail : Nat) : Nat := 0x10000 + (lead - 0xd800) * 0x400 + (trail - 0xdc00)

def utf8 (n : Nat) : List UInt8 := String.utf8EncodeChar (Char.ofNat n)

def simpleEscape? (b : UInt8) : Option UInt8 :=
  if b = '"'.toUInt8 || b = '\\'.toUInt8 || b = '/'.toUInt8 then some b
  else if b = 'b'.toUInt8 then some 8
  else if b = 'f'.toUInt8 then some 12
  else if b = 'n'.toUInt8 then some 10
  else if b = 'r'.toUInt8 then some 13
  else if b = 't'.toUInt8 then some 9
  else none

def push (bytes : List UInt8) (read : Option (List UInt8 × List UInt8)) :
    Option (List UInt8 × List UInt8) :=
  read.map fun (content, rest) => (bytes ++ content, rest)

/-- The content of a string whose opening quote has been read, and what follows its closing one. -/
def stringBody? : List UInt8 → Option (List UInt8 × List UInt8)
  | [] => none
  | [b] => if b = '"'.toUInt8 then some ([], []) else none
  | b :: e :: rest =>
    if b = '"'.toUInt8 then some ([], e :: rest)
    else if b = '\\'.toUInt8 then
      if e = 'u'.toUInt8 then
        match rest with
        | h₁ :: h₂ :: h₃ :: h₄ :: rest =>
          match unit? h₁ h₂ h₃ h₄ with
          | none => none
          | some n =>
            if isTrailSurrogate n then none
            else if isLeadSurrogate n then
              match rest with
              | s :: u :: h₁ :: h₂ :: h₃ :: h₄ :: rest =>
                match unit? h₁ h₂ h₃ h₄ with
                | none => none
                | some m =>
                  if s = '\\'.toUInt8 && u = 'u'.toUInt8 && isTrailSurrogate m then
                    push (utf8 (pairValue n m)) (stringBody? rest)
                  else none
              | _ => none
            else push (utf8 n) (stringBody? rest)
        | _ => none
      else
        match simpleEscape? e with
        | some c => push [c] (stringBody? rest)
        | none => none
    else if b < 32 then none
    else push [b] (stringBody? (e :: rest))

/-- What follows a string whose opening quote has been read, if it follows the grammar. -/
def skipString? : List UInt8 → Option (List UInt8)
  | [] => none
  | [b] => if b = '"'.toUInt8 then some [] else none
  | b :: e :: rest =>
    if b = '"'.toUInt8 then some (e :: rest)
    else if b = '\\'.toUInt8 then
      if e = 'u'.toUInt8 then
        match rest with
        | h₁ :: h₂ :: h₃ :: h₄ :: rest =>
          if (unit? h₁ h₂ h₃ h₄).isSome then skipString? rest else none
        | _ => none
      else if (simpleEscape? e).isSome then skipString? rest
      else none
    else if b < 32 then none
    else skipString? (e :: rest)

def word? : List Char → List UInt8 → Option (List UInt8)
  | [], bytes => some bytes
  | _ :: _, [] => none
  | c :: cs, b :: bytes => if b = c.toUInt8 then word? cs bytes else none

inductive Bracket where
  | list | object
  deriving DecidableEq

def Bracket.close : Bracket → UInt8
  | .list => ']'.toUInt8
  | .object => '\x7d'.toUInt8

/-- Where skipping stands: before a value, just inside a bracket, or after a value. -/
inductive SkipPoint where
  | value | opened | ended
  deriving DecidableEq

def skipScalar? (bytes : List UInt8) : Option (List UInt8) :=
  match bytes with
  | [] => none
  | b :: rest =>
    if b = 'n'.toUInt8 then word? ['u', 'l', 'l'] rest
    else if b = 't'.toUInt8 then word? ['r', 'u', 'e'] rest
    else if b = 'f'.toUInt8 then word? ['a', 'l', 's', 'e'] rest
    else if b = '"'.toUInt8 then skipString? rest
    else (JsonNumber.read? bytes).map Prod.snd

def skipName? (bytes : List UInt8) : Option (List UInt8) :=
  match dropSpace bytes with
  | [] => none
  | b :: rest =>
    if b = '"'.toUInt8 then
      (skipString? rest).bind fun rest =>
        match dropSpace rest with
        | c :: rest => if c = ':'.toUInt8 then some rest else none
        | [] => none
    else none

/-- What follows the value at hand, inside the given brackets, the innermost first. -/
def skip? : (fuel : Nat) → SkipPoint → List Bracket → List UInt8 → Option (List UInt8)
  | 0, _, _, _ => none
  | fuel + 1, .value, brackets, bytes =>
    match dropSpace bytes with
    | [] => none
    | b :: rest =>
      if b = '['.toUInt8 then skip? fuel .opened (.list :: brackets) rest
      else if b = '\x7b'.toUInt8 then skip? fuel .opened (.object :: brackets) rest
      else (skipScalar? (b :: rest)).bind (skip? fuel .ended brackets)
  | _ + 1, .ended, [], bytes => some bytes
  | _ + 1, .opened, [], _ => none
  | fuel + 1, .opened, bracket :: brackets, bytes =>
    match dropSpace bytes with
    | [] => none
    | b :: rest =>
      if b = bracket.close then skip? fuel .ended brackets rest
      else if bracket = .object then
        (skipName? (b :: rest)).bind (skip? fuel .value (bracket :: brackets))
      else skip? fuel .value (bracket :: brackets) (b :: rest)
  | fuel + 1, .ended, bracket :: brackets, bytes =>
    match dropSpace bytes with
    | [] => none
    | b :: rest =>
      if b = bracket.close then skip? fuel .ended brackets rest
      else if b = ','.toUInt8 then
        if bracket = .object then (skipName? rest).bind (skip? fuel .value (bracket :: brackets))
        else skip? fuel .value (bracket :: brackets) rest
      else none

/-- What follows a value of any form. Every other step takes a byte. -/
def skipValue? (bytes : List UInt8) : Option (List UInt8) :=
  skip? (2 * bytes.length + 2) .value [] bytes

end JsonToken

end RowCode
