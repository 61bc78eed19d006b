import RowCode.Proofs.CodeTokens

/-!
# A reader of code

The reader goes over the tokens of code from left to right. Operators whose last operand is still to
come wait on a stack, in parentheses on a stack of their own, and each token does one thing to what
the reader holds.
-/

namespace RowCode

/-- The type with this name, which is not an array. -/
def HostType.ofName? (name : String) : Option HostType :=
  (Primitive.all.map primitive ++ Primitive.all.map boxed ++
    [string, decimal, bigInteger, object]).find? fun ty => ty.text = name

/-- What waits for the operand to its right. -/
inductive Pending where
  | unary (op : UnaryOp)
  | cast (ty : HostType)
  | binary (op : BinaryOp) (left : Code)
  | test (condition : Code)
  | branch (condition ifTrue : Code)
  | lambda (parameters : List String)

namespace Pending

def apply (c : Code) : Pending → Code
  | unary o => .unary o c
  | cast ty => .cast c ty
  | binary o left => .binary o left c
  | test _ => c
  | branch condition ifTrue => .conditional condition ifTrue c
  | lambda parameters => .lambda parameters c

def isPrefix : Pending → Bool
  | unary _ | cast _ => true
  | _ => false

/-- The operand after everything that waits for it. -/
def settle (pending : List Pending) (c : Code) : Code := pending.foldl apply c

/-- Unary operators and casts bind the operand before anything that follows. -/
def tighten (pending : List Pending) (c : Code) : List Pending × Code :=
  (pending.dropWhile isPrefix, settle (pending.takeWhile isPrefix) c)

end Pending

/-- What takes a list of arguments. -/
inductive Callee where
  | method (target : Code) (name : String)
  | type (ty : HostType)

def Callee.apply (args : List Code) : Callee → Code
  | method target name => .call target name args
  | type ty => .construct ty args

/-- A parenthesis that is open, with what waited before it. -/
inductive Frame where
  | group (pending : List Pending)
  | arguments (callee : Callee) (done : List Code) (pending : List Pending)

/-- What stands right before the next token. -/
inductive Focus where
  | start
  | operand (c : Code)
  | access (c : Code)
  | construct
  | type (ty : HostType)
  | parameters (ps : List String)
  | parameterList (ps : List String)

structure Reader where
  frames : List Frame
  pending : List Pending
  focus : Focus

def Focus.ofWord (s : String) : Focus :=
  if s = "null" then operand .null
  else if s = "true" then operand (.boolean true)
  else if s = "false" then operand (.boolean false)
  else if s = "new" then construct
  else operand (.name s)

namespace Reader

open Pending

def initial : Reader := ⟨[], [], .start⟩

def operand (r : Reader) (c : Code) : Option Reader :=
  match r.focus with
  | .start => some { r with focus := .operand c }
  | _ => none

def unary (r : Reader) (o : UnaryOp) : Option Reader :=
  match r.focus with
  | .start => some { r with pending := .unary o :: r.pending }
  | _ => none

def word (r : Reader) (s : String) : Option Reader :=
  match r.focus with
  | .start => some { r with focus := .ofWord s }
  | .access c => some { r with focus := .operand (.field c s) }
  | .construct => (HostType.ofName? s).map fun ty => { r with focus := .type ty }
  | .parameters ps => some { r with focus := .parameters (ps ++ [s]) }
  | _ => none

/-- An operator between operands. What binds tighter is applied to the operand before it. -/
def between (r : Reader) (waiting : Code → Pending) : Option Reader :=
  match r.focus with
  | .operand c =>
    let (pending, left) := tighten r.pending c
    some { r with pending := waiting left :: pending, focus := .start }
  | _ => none

def operator (r : Reader) (o : BinaryOp) : Option Reader :=
  match r.focus with
  | .start => if o = .subtract then r.unary .negate else none
  | _ => r.between (.binary o)

def colon (r : Reader) : Option Reader :=
  match r.focus with
  | .operand c =>
    match tighten r.pending c with
    | (.test condition :: pending, ifTrue) =>
      some { r with pending := .branch condition ifTrue :: pending, focus := .start }
    | _ => none
  | _ => none

def arrow (r : Reader) : Option Reader :=
  match r.focus with
  | .operand (.name p) => some { r with pending := .lambda [p] :: r.pending, focus := .start }
  | .parameterList ps => some { r with pending := .lambda ps :: r.pending, focus := .start }
  | _ => none

def dot (r : Reader) : Option Reader :=
  match r.focus with
  | .operand c => some { r with focus := .access c }
  | _ => none

def index (r : Reader) (i : Nat) : Option Reader :=
  match r.focus with
  | .operand c => some { r with focus := .operand (.element c i) }
  | _ => none

def brackets (r : Reader) : Option Reader :=
  match r.focus with
  | .operand (.name s) => (HostType.ofName? s).map fun ty => { r with focus := .type (.array ty) }
  | .type ty => some { r with focus := .type (.array ty) }
  | _ => none

def opening (r : Reader) : Option Reader :=
  match r.focus with
  | .start => some ⟨.group r.pending :: r.frames, [], .start⟩
  | .operand (.field c name) =>
    some ⟨.arguments (.method c name) [] r.pending :: r.frames, [], .start⟩
  | .type ty => some ⟨.arguments (.type ty) [] r.pending :: r.frames, [], .start⟩
  | _ => none

/-- A name that stands in parentheses by itself is that of a type, and an operand does not stand in
parentheses unless it needs them. -/
def closing (r : Reader) : Option Reader :=
  match r.frames, r.focus with
  | .group pending :: frames, .start => some ⟨frames, pending, .parameterList []⟩
  | .group pending :: frames, .parameters ps => some ⟨frames, pending, .parameterList ps⟩
  | .group pending :: frames, .type ty => some ⟨frames, .cast ty :: pending, .start⟩
  | .group pending :: frames, .operand c =>
    match r.pending, c with
    | [], .name s => (HostType.ofName? s).map fun ty => ⟨frames, .cast ty :: pending, .start⟩
    | inner, c => some ⟨frames, pending, .operand (settle inner c)⟩
  | .arguments callee done pending :: frames, .start =>
    some ⟨frames, pending, .operand (callee.apply done)⟩
  | .arguments callee done pending :: frames, .operand c =>
    some ⟨frames, pending, .operand (callee.apply (done ++ [settle r.pending c]))⟩
  | _, _ => none

def comma (r : Reader) : Option Reader :=
  match r.frames, r.focus with
  | .arguments callee done pending :: frames, .operand c =>
    some ⟨.arguments callee (done ++ [settle r.pending c]) pending :: frames, [], .start⟩
  | .group _ :: _, .operand (.name s) => some { r with focus := .parameters [s] }
  | .group _ :: _, .parameters _ => some r
  | _, _ => none

def step (r : Reader) : Token Numeral → Option Reader
  | .space => some r
  | .word s => r.word s
  | .numeral n => r.operand (.numeral n)
  | .quoted s => r.operand (.string s)
  | .bang => r.unary .not
  | .op o => r.operator o
  | .question => r.between .test
  | .colon => r.colon
  | .arrow => r.arrow
  | .dot => r.dot
  | .index i => r.index i
  | .brackets => r.brackets
  | .opening => r.opening
  | .closing => r.closing
  | .comma => r.comma

def finish (r : Reader) : Option Code :=
  match r.frames, r.focus with
  | [], .operand c => some (settle r.pending c)
  | _, _ => none

def read (ts : List (Token Numeral)) : Option Code := (ts.foldlM step initial).bind finish

/-- The tokens lead from one state of the reader to another. -/
def Reads (r : Reader) (ts : List (Token Numeral)) (r' : Reader) : Prop :=
  ts.foldlM step r = some r'

variable {r r' r'' : Reader} {t : Token Numeral} {ts us : List (Token Numeral)}

theorem Reads.nil (r : Reader) : Reads r [] r := rfl

theorem Reads.cons (ht : r.step t = some r') (h : Reads r' ts r'') : Reads r (t :: ts) r'' := by
  unfold Reads at h ⊢
  rw [List.foldlM_cons, ht]
  exact h

theorem Reads.append (h : Reads r ts r') (h' : Reads r' us r'') : Reads r (ts ++ us) r'' := by
  unfold Reads at h h' ⊢
  rw [List.foldlM_append, h]
  exact h'

end Reader

namespace Pending

variable {outer inner : List Pending} {c : Code}

/-- Whether nothing that waits binds tighter than operators do. -/
def IsLoose (pending : List Pending) : Prop := ∀ p ∈ pending.head?, p.isPrefix = false

theorem settle_append (inner outer : List Pending) (c : Code) :
    settle (inner ++ outer) c = settle outer (settle inner c) := List.foldl_append

theorem tighten_append (hinner : ∀ p ∈ inner, p.isPrefix = true) (houter : IsLoose outer) :
    tighten (inner ++ outer) c = (outer, settle inner c) := by
  unfold tighten
  rw [List.takeWhile_append_of_pos hinner, List.dropWhile_append_of_pos hinner]
  cases outer with
  | nil => simp
  | cons p outer => simp [houter p rfl]

end Pending

end RowCode
