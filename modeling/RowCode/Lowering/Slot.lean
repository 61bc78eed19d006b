import RowCode.Host.Block
import RowCode.Lowering.Error
import RowCode.Lowering.Input
import RowCode.Lowering.Strategy
import RowCode.Program.Usage

/-!
# Slots

The state of a lowering pass remembers what each node became, so that a node is lowered once. Local
references share a slot by index; every other node has a slot of its own, by its place.
-/

namespace RowCode

inductive Origin where
  | expr (index : Nat)
  | project (index : Nat)
  | condition
  /-- A node given beside the program. -/
  | extra (index : Nat)
  deriving DecidableEq, Repr

/-- Where a node stands: from the innermost outward, its position among the children of the node
around it. -/
structure Place where
  origin : Origin
  path : List Nat
  deriving DecidableEq, Repr

namespace Place

def root (origin : Origin) : Place := ⟨origin, []⟩

def child (p : Place) (position : Nat) : Place := { p with path := position :: p.path }

end Place

inductive SlotKey where
  | reference (index : Nat)
  | node (place : Place)
  deriving DecidableEq, Repr

/-- What a node became, and how often it was asked for. -/
structure Slot where
  holder : Option Variable
  lowered : Expr
  count : Nat

def Slot.value (s : Slot) : Expr :=
  match s.holder with
  | some v => .var v
  | none => s.lowered

inductive NamingPolicy where
  /-- Program expressions that are referred to more than once. -/
  | shared
  /-- Every node but a local reference. -/
  | all
  deriving DecidableEq, Repr

structure LoweringContext where
  program : Program
  adapter : TypeAdapter
  inputs : List RowInput
  policy : NamingPolicy
  stem : String
  table : OperatorTable

/-- The slots filled so far, the latest first, and the expressions found to be shared. -/
structure LoweringState where
  block : Block
  slots : List (SlotKey × Slot)
  shared : List Nat

namespace LoweringState

def start (block : Block) : LoweringState := ⟨block, [], []⟩

def slot? (s : LoweringState) (key : SlotKey) : Option Slot := s.slots.lookup key

def useCount (s : LoweringState) (key : SlotKey) : Nat :=
  match s.slot? key with
  | some slot => slot.count
  | none => 0

def touch (s : LoweringState) (key : SlotKey) : LoweringState :=
  { s with slots := s.slots.map fun (k, slot) =>
      if k = key then (k, { slot with count := slot.count + 1 }) else (k, slot) }

def share (s : LoweringState) (indexes : List Nat) : LoweringState :=
  { s with shared := s.shared ++ indexes }

end LoweringState

/-- A step of lowering; the state is kept also where it fails. -/
abbrev Lowering (α : Type) := ExceptT LoweringError (StateM LoweringState) α

theorem Lowering.bind_apply {α β : Type} (x : Lowering α) (f : α → Lowering β)
    (s : LoweringState) :
    (x >>= f) s = match x s with
      | (.ok a, s) => f a s
      | (.error e, s) => (.error e, s) := by
  simp only [bind, ExceptT.bind, ExceptT.mk, StateT.bind]
  rcases x s with ⟨r, s⟩
  cases r <;> rfl

namespace LoweringContext

def names (c : LoweringContext) (shared : List Nat) : SlotKey → Bool
  | .reference _ => false
  | .node place =>
    match c.policy with
    | .all => true
    | .shared =>
      match place with
      | ⟨.expr index, []⟩ => index ∈ shared
      | _ => false

/-- Fills a slot, declaring a variable if the node is to be named. The suggested name numbers the
slots. -/
def fill (c : LoweringContext) (key : SlotKey) (lowered : Expr) (s : LoweringState) :
    Expr × LoweringState :=
  if c.names s.shared key then
    let (holder, block) := s.block.declareFinal (c.stem ++ toString s.slots.length) lowered
    (.var holder, { s with block, slots := (key, ⟨some holder, lowered, 1⟩) :: s.slots })
  else
    (lowered, { s with slots := (key, ⟨none, lowered, 1⟩) :: s.slots })

/-- What the node of a slot became: from the slot if it is filled, and else by lowering it. -/
def withSlot (c : LoweringContext) (key : SlotKey) (lower : Lowering Expr) : Lowering Expr :=
  fun s =>
    match s.slot? key with
    | some slot => (.ok slot.value, s.touch key)
    | none =>
      match lower s with
      | (.error e, s) => (.error e, s)
      | (.ok lowered, s) =>
        let (value, s) := c.fill key lowered s
        (.ok value, s)

end LoweringContext

end RowCode
