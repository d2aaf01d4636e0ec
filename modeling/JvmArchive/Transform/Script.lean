import JvmArchive.Code.Listing
import JvmArchive.Graph.Edit
import JvmArchive.Transform.Dispatch

/-!
# Scripted visitors

A visitor that follows a list of rules and keeps a record of what it has been shown. At each stop it
records the event and then applies the first rule that fits.
-/
namespace JvmArchive.Script

/-- The stops of a visit. -/
inductive Stop
  | atClass
  | atField
  | atMethod
  | atInstruction
  deriving Repr, DecidableEq, Inhabited

/-- What a rule does. An action that means nothing at a stop does nothing there. -/
inductive Action
  | fail (details : String)
  | generic (details : String)
  | missing (instruction : UInt32)
  | rename (name : String)
  | setAccess (access : Access)
  | addField (name : String)
  | remove
  /-- Takes out the instruction behind the one that is shown. -/
  | removeNext
  | insertBefore (instruction : Instruction)
  | insertAfter (instruction : Instruction)
  | replace (instruction : Instruction)
  deriving Repr, DecidableEq, Inhabited

/-- An action, the stop at which it is applied, and the class and the subject to which, all of them
unless given. The subject is the name of what is shown, or the listing of an instruction. -/
structure Rule where
  stop : Stop
  className : Option String := none
  subject : Option String := none
  action : Action
  deriving Repr, DecidableEq, Inhabited

/-- What has been shown, the last first. -/
abbrev Events := List String

/-- The action of the first rule that fits. -/
def action? (rules : List Rule) (stop : Stop) (className subject : String) : Option Action :=
  (rules.find? fun rule =>
    rule.stop = stop && rule.className.all (· = className) &&
      rule.subject.all (· = subject)).map (·.action)

/-- The failure that an action causes. -/
def failure? (className method : String) : Action → Option TransformError
  | .fail details => some (.refused className details)
  | .generic details => some (.other details)
  | .missing instruction => some (.missingInstruction className method instruction)
  | _ => none

def onClass (entry : ClassEntry) : Action → ClassEntry
  | .rename name => entry.setName name
  | .setAccess access => entry.setAccess access
  | .addField name => entry.addField { access := 1, name, desc := "I" }
  | _ => entry

def onField (field : FieldEntry) : Action → FieldEntry
  | .rename name => field.redeclare name field.desc field.access
  | _ => field

def onMethod (method : MethodEntry) : Action → MethodEntry
  | .rename name => method.redeclare name method.desc method.access
  | _ => method

/-- The identity of the instruction right behind another one. -/
def nextId? (code : CodeList) (id : InstructionId) : Option InstructionId :=
  (code.indexOf? id).bind fun index => code.ids[index + 1]?

def onInstruction (editor : CodeEditor) (id : InstructionId) : Action → CodeEditor
  | .remove => editor.erase id
  | .removeNext =>
    match nextId? editor.code id with
    | some next => editor.erase next
    | none => editor
  | .insertBefore instruction => editor.insertBefore id instruction
  | .insertAfter instruction => editor.insertAfter id instruction
  | .replace instruction => editor.replace id instruction
  | _ => editor

/-- Records an event and applies an action, if there is one. -/
def visit {α : Type} (value : α) (events : Events) (event className method : String)
    (action : Option Action) (apply : α → Action → α) : Visit α Events where
  value := (action.map (apply value)).getD value
  state := event :: events
  failure := action.bind (failure? className method)

/-- The visitor that follows rules. -/
def visitor (rules : List Rule) : Visitor Events where
  name := "script"
  onClass entry events :=
    visit entry events ("class " ++ entry.name) entry.name ""
      (action? rules .atClass entry.name entry.name) onClass
  onField node field events :=
    visit field events ("field " ++ node.name ++ "." ++ field.name) node.name ""
      (action? rules .atField node.name field.name) onField
  onMethod node method events :=
    visit method events ("method " ++ node.name ++ "." ++ method.name) node.name method.name
      (action? rules .atMethod node.name method.name) onMethod
  onInstruction node method editor id events :=
    let text := ((editor.code.get? id).map Instruction.listing).getD ""
    let index := (editor.code.indexOf? id).getD 0
    visit editor events ("insn " ++ toString index ++ " " ++ text) node.name method.name
      (action? rules .atInstruction node.name text) fun editor => onInstruction editor id

end JvmArchive.Script
