import JvmArchive.Graph.Basic
import JvmArchive.Log

/-!
# Visitors

A visitor is shown every class of a graph with its fields, its methods and their instructions. It may
change what it is shown and has a state of its own; a failure ends its visit to the class and no other.
Classes come as they stand, in each class first the class, then its fields, then each method with the
instructions that it has when their turn begins. An instruction placed during the visit is not seen, and
one taken out before its turn is passed over.
-/
namespace JvmArchive

/-- Why a visit to a class has ended early. -/
inductive TransformError
  /-- The visitor refuses the class. -/
  | refused (className details : String)
  /-- The visitor relies on an instruction that is not there. -/
  | missingInstruction (className method : String) (instruction : UInt32)
  | other (details : String)
  deriving Repr, DecidableEq, Inhabited

def TransformError.message : TransformError → String
  | refused className details => "transform of " ++ className ++ " failed: " ++ details
  | missingInstruction className method instruction =>
    "instruction " ++ toString instruction.toNat ++ " of " ++ className ++ "." ++ method ++
      " not found"
  | other details => "generic error: " ++ details

/-- What a visitor leaves behind: the thing that it was shown, its state, and whether it has failed.
Changes made before a failure stay. -/
structure Visit (α σ : Type) where
  value : α
  state : σ
  failure : Option TransformError := none
  deriving Inhabited

/-- What is done at each stop, nothing by default. A class is shown first as a whole, then field by
field and method by method, each method with its instructions one by one. -/
structure Visitor (σ : Type) where
  name : String := "transformer"
  onClass : ClassEntry → σ → Visit ClassEntry σ := fun entry state => { value := entry, state }
  onField : ClassNode → FieldEntry → σ → Visit FieldEntry σ :=
    fun _ field state => { value := field, state }
  onMethod : ClassNode → MethodEntry → σ → Visit MethodEntry σ :=
    fun _ method state => { value := method, state }
  onInstruction : ClassNode → MethodNode → CodeEditor → InstructionId → σ → Visit CodeEditor σ :=
    fun _ _ editor _ state => { value := editor, state }

/-! ## Visiting a graph -/

/-- Visits things one after the other, up to the first failure. -/
def visitEach {α σ : Type} (visit : α → σ → Visit α σ) : List α → σ → Visit (List α) σ
  | [], state => { value := [], state }
  | item :: rest, state =>
    let first := visit item state
    match first.failure with
    | some failure => { value := first.value :: rest, state := first.state, failure }
    | none =>
      let others := visitEach visit rest first.state
      { others with value := first.value :: others.value }

namespace Visitor

variable {σ : Type} (visitor : Visitor σ)

/-- Visits those of the given instructions that are still there when it is their turn. -/
def visitCode (node : ClassNode) (method : MethodNode) :
    List InstructionId → CodeEditor → σ → Visit CodeEditor σ
  | [], editor, state => { value := editor, state }
  | id :: rest, editor, state =>
    if (editor.code.get? id).isNone then visitCode node method rest editor state
    else
      let visit := visitor.onInstruction node method editor id state
      match visit.failure with
      | some _ => visit
      | none => visitCode node method rest visit.value visit.state

/-- Visits a method and then its instructions. -/
def visitMethod (node : ClassNode) (method : MethodEntry) (state : σ) : Visit MethodEntry σ :=
  let visit := visitor.onMethod node method state
  match visit.failure with
  | some _ => visit
  | none =>
    let method := visit.value
    let code :=
      visitor.visitCode node method.node method.editor.code.ids method.editor visit.state
    { value := { method with editor := code.value }, state := code.state, failure := code.failure }

/-- Visits a class and what it declares. -/
def visitClass (entry : ClassEntry) (state : σ) : Visit ClassEntry σ :=
  let visit := visitor.onClass entry state
  match visit.failure with
  | some _ => visit
  | none =>
    let entry := visit.value
    let fields := visitEach (visitor.onField entry.node) entry.fields visit.state
    let entry := { entry with fields := fields.value }
    match fields.failure with
    | some failure => { value := entry, state := fields.state, failure }
    | none =>
      let methods := visitEach (visitor.visitMethod entry.node) entry.methods fields.state
      { value := { entry with methods := methods.value }
        state := methods.state
        failure := methods.failure }

/-- The classes whose visit has failed, each under the name that it had before. -/
abbrev Failures := List (String × TransformError)

/-- Visits classes one after the other, whether the visits fail or not. -/
def visitClasses : List ClassEntry → σ → List ClassEntry × σ × Failures
  | [], state => ([], state, [])
  | entry :: rest, state =>
    let visit := visitor.visitClass entry state
    let (entries, state, failures) := visitClasses rest visit.state
    (visit.value :: entries, state,
      visit.failure.toList.map (fun failure => (entry.name, failure)) ++ failures)

/-- What has come of visiting a graph. -/
structure Report where
  /-- How many classes have been visited. -/
  classes : Nat
  failures : Failures
  deriving Repr, DecidableEq, Inhabited

def Report.isClean (report : Report) : Bool := report.failures.isEmpty

/-- An error for each failure. -/
def Report.log (report : Report) (visitorName : String) : List LogRecord :=
  report.failures.map fun (className, failure) =>
    { level := .error
      message := visitorName ++ " failed on " ++ className ++ ": " ++ failure.message }

/-- Visits a graph. Its classes then stand under the names that they have by then, and links are
stale. -/
def dispatch (graph : ClassGraph) (state : σ) : ClassGraph × σ × Report :=
  let (entries, state, failures) := visitor.visitClasses graph.toList state
  (ClassGraph.ofList entries, state, { classes := graph.size, failures })

end Visitor
end JvmArchive
