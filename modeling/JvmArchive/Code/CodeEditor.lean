import JvmArchive.Access
import JvmArchive.Code.CodeList

/-!
# Code editing

The code of a method under edit: a code list with an index of the label that stands nearest before each
instruction. The index is computed on the first question and dropped when the list changes its shape
or a label is exchanged.
-/
namespace JvmArchive

/-- A field or a method as code refers to it. -/
structure MemberReference where
  owner : String
  name : String
  desc : String
  access : Access
  /-- Whether the owner is an interface. -/
  interface : Bool
  deriving Repr, DecidableEq, Inhabited

namespace MemberReference

/-- Puts the receiver, the object whose method is running, before an instruction that needs one. -/
def withReceiver (instruction : Instruction) : List Instruction :=
  [.var Opcode.aload 0, instruction]

/-- Reads the field, of the running object unless it is static. -/
def read (field : MemberReference) : List Instruction :=
  if field.access.isStatic then [.field Opcode.getstatic field.owner field.name field.desc]
  else withReceiver (.field Opcode.getfield field.owner field.name field.desc)

/-- The instruction that calls the method: static, then private or constructor, then interface. -/
def callOpcode (method : MemberReference) : Opcode :=
  if method.access.isStatic then Opcode.invokestatic
  else if method.access.isPrivate || method.name == "<init>" then Opcode.invokespecial
  else if method.interface then Opcode.invokeinterface
  else Opcode.invokevirtual

/-- Calls the method, on the running object unless it is static. -/
def call (method : MemberReference) : List Instruction :=
  let op := method.callOpcode
  let invoke := Instruction.method op method.owner method.name method.desc method.interface
  if op = Opcode.invokestatic then [invoke] else withReceiver invoke

end MemberReference

/-- Code under edit. -/
structure CodeEditor where
  code : CodeList := {}
  /-- The nearest label before each instruction, once it has been asked for. -/
  labelIndex : Option (List (InstructionId × Label)) := none
  deriving Repr, Inhabited

namespace CodeEditor

/-- Starts to edit a list. -/
def ofCodeList (code : CodeList) : CodeEditor := { code }

/-- The nearest label before every instruction that has one and is no label itself. -/
def nearestLabels : Option Label → List (InstructionId × Instruction) → List (InstructionId × Label)
  | _, [] => []
  | _, (_, .label place) :: rest => nearestLabels (some place) rest
  | none, _ :: rest => nearestLabels none rest
  | some place, (id, _) :: rest => (id, place) :: nearestLabels (some place) rest

/-- The label nearest before an instruction, found by reading the list. -/
def scanLabel? (code : CodeList) (id : InstructionId) : Option Label :=
  (nearestLabels none code.entries).lookup id

/-- The label nearest before an instruction; none if there is none, or if it is a label itself. -/
def labelFor (editor : CodeEditor) (id : InstructionId) : Option Label × CodeEditor :=
  let labels := editor.labelIndex.getD (nearestLabels none editor.code.entries)
  (labels.lookup id, { editor with labelIndex := some labels })

/-- Edits the list and drops the index. -/
def edit (editor : CodeEditor) (change : CodeList → CodeList) : CodeEditor :=
  { code := change editor.code, labelIndex := none }

/-- Hands out a label; the index is not concerned. -/
def newLabel (editor : CodeEditor) : Label × CodeEditor :=
  let (place, code) := editor.code.newLabel
  (place, { editor with code })

def push (editor : CodeEditor) (instruction : Instruction) : CodeEditor :=
  editor.edit (·.push instruction)

def append (editor : CodeEditor) (instructions : List Instruction) : CodeEditor :=
  editor.edit (·.append instructions)

/-- Places instructions at the front, in their order. -/
def prepend (editor : CodeEditor) (instructions : List Instruction) : CodeEditor :=
  editor.edit (·.insertAllAt 0 instructions)

/-- Places an instruction right before another one; without that one nothing is placed. -/
def insertBefore (editor : CodeEditor) (anchor : InstructionId) (instruction : Instruction) :
    CodeEditor :=
  editor.edit fun code => (code.insertBefore? anchor instruction).getD code

/-- Places an instruction right after another one; without that one nothing is placed. -/
def insertAfter (editor : CodeEditor) (anchor : InstructionId) (instruction : Instruction) :
    CodeEditor :=
  editor.edit fun code => (code.insertAfter? anchor instruction).getD code

def erase (editor : CodeEditor) (id : InstructionId) : CodeEditor := editor.edit (·.erase id)

def clear (editor : CodeEditor) : CodeEditor := editor.edit CodeList.clear

/-- Exchanges an instruction in place. The index is dropped only if the old one is a label. -/
def replace (editor : CodeEditor) (id : InstructionId) (instruction : Instruction) : CodeEditor :=
  match editor.code.get? id with
  | none => editor
  | some (.label _) => editor.edit (·.replace id instruction)
  | some _ => { editor with code := editor.code.replace id instruction }

/-- Whether two label indices hold the same entries, in whatever order. -/
def sameIndex : Option (List (InstructionId × Label)) → Option (List (InstructionId × Label)) → Bool
  | none, none => true
  | some a, some b =>
    a.length == b.length && a.all fun entry => b.lookup entry.1 == some entry.2
  | _, _ => false

/-- Whether two editors hold the same instructions and the same label index. -/
def same (a b : CodeEditor) : Bool := a.code.same b.code && sameIndex a.labelIndex b.labelIndex

end CodeEditor
end JvmArchive
