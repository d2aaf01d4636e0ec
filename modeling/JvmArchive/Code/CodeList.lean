import JvmArchive.Code.Instruction

/-!
# Code lists

Instructions in order, each under an identity that it keeps while others are inserted and removed
around it. A list also hands out labels that no instruction placed in it has used.
-/
namespace JvmArchive

/-- The identity of an instruction in one list. -/
structure InstructionId where
  number : UInt32
  deriving Repr, DecidableEq, Inhabited, Hashable

/-- Instructions in order, each under its identity. -/
structure CodeList where
  entries : List (InstructionId × Instruction) := []
  /-- The identity that the next instruction gets. -/
  nextId : UInt32 := 0
  /-- The label that is handed out next. -/
  nextLabel : UInt32 := 0
  deriving Repr, Inhabited

namespace CodeList

/-- The instructions in order. -/
def toList (code : CodeList) : List Instruction := code.entries.map (·.2)

/-- The identities in order. -/
def ids (code : CodeList) : List InstructionId := code.entries.map (·.1)

def length (code : CodeList) : Nat := code.entries.length

/-- Whether two lists hold the same instructions, whatever their identities. -/
def same (a b : CodeList) : Bool := a.toList == b.toList

/-- Hands out a label. -/
def newLabel (code : CodeList) : Label × CodeList :=
  (⟨code.nextLabel⟩, { code with nextLabel := code.nextLabel + 1 })

/-- The first label beyond those handed out, once an instruction is placed. -/
def labelAfter (next : UInt32) : Instruction → UInt32
  | .label place => max next (place.number + 1)
  | _ => next

/-- Gives identities to instructions that are about to be placed, in order. -/
def admitAll (code : CodeList) : List Instruction → List (InstructionId × Instruction) × CodeList
  | instructions =>
    (instructions.mapIdx fun i instruction => (⟨code.nextId + i.toUInt32⟩, instruction),
      { code with
        nextId := code.nextId + instructions.length.toUInt32
        nextLabel := instructions.foldl labelAfter code.nextLabel })

/-- Places instructions so that the first of them comes to stand at an index; an index beyond the end
counts as the end. -/
def insertAllAt (code : CodeList) (index : Nat) (instructions : List Instruction) : CodeList :=
  let (admitted, code) := code.admitAll instructions
  { code with entries := code.entries.take index ++ admitted ++ code.entries.drop index }

/-- The identity that an instruction gets if it is placed next. -/
def upcomingId (code : CodeList) : InstructionId := ⟨code.nextId⟩

def insertAt (code : CodeList) (index : Nat) (instruction : Instruction) : CodeList :=
  code.insertAllAt index [instruction]

/-- Places instructions at the end. -/
def append (code : CodeList) (instructions : List Instruction) : CodeList :=
  let (admitted, code) := code.admitAll instructions
  { code with entries := code.entries ++ admitted }

def push (code : CodeList) (instruction : Instruction) : CodeList := code.append [instruction]

/-- A fresh list of the given instructions. -/
def ofList (instructions : List Instruction) : CodeList := append {} instructions

/-- The index of an identity. -/
def indexOf? (code : CodeList) (id : InstructionId) : Option Nat :=
  code.entries.findIdx? (·.1 = id)

/-- The instruction with an identity. -/
def get? (code : CodeList) (id : InstructionId) : Option Instruction :=
  (code.entries.find? (·.1 = id)).map (·.2)

/-- Places an instruction right before another one, if that is still there. -/
def insertBefore? (code : CodeList) (anchor : InstructionId) (instruction : Instruction) :
    Option CodeList :=
  (code.indexOf? anchor).map fun index => code.insertAt index instruction

/-- Places an instruction right after another one, if that is still there. -/
def insertAfter? (code : CodeList) (anchor : InstructionId) (instruction : Instruction) :
    Option CodeList :=
  (code.indexOf? anchor).map fun index => code.insertAt (index + 1) instruction

/-- Takes an instruction out. -/
def erase (code : CodeList) (id : InstructionId) : CodeList :=
  { code with entries := code.entries.eraseP (·.1 = id) }

/-- Takes all instructions out; identities are not used again. -/
def clear (code : CodeList) : CodeList := { code with entries := [] }

/-- Exchanges the instruction with an identity for another one, which keeps the identity. -/
def replace (code : CodeList) (id : InstructionId) (instruction : Instruction) : CodeList :=
  { code with
    entries := code.entries.map fun entry => if entry.1 = id then (id, instruction) else entry }

/-- Applies a function to every instruction and keeps the identities. -/
def map (f : Instruction → Instruction) (code : CodeList) : CodeList :=
  { code with entries := code.entries.map fun entry => (entry.1, f entry.2) }

end CodeList
end JvmArchive
