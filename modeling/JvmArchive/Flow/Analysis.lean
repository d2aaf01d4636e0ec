import JvmArchive.Flow.Execute

/-!
# Data-flow analysis of methods

The states before every instruction of a method: the entry state flows along fall-through, branches and
handlers, and merges where ways meet, until no state changes any more. Instructions whose state has
changed wait in a queue; a step takes the first of them.
-/
namespace JvmArchive.Flow

/-- Why a method cannot be analysed. -/
inductive AnalysisError
  | labelNotPlaced (label : Label)
  | stackHeightMismatch (existing incoming : Nat)
  /-- The last instruction continues with the next one. -/
  | fallsOff
  | stackTooDeep
  | tooManyLocals
  | execution (instruction : Instruction) (index : Nat) (cause : ExecutionError)
  /-- The states still changed after more steps than a finite hierarchy needs. -/
  | unsettled
  /-- Not an error that is told: the program stops. -/
  | fault (cause : Fault)
  deriving Repr, Inhabited

def AnalysisError.message : AnalysisError → String
  | labelNotPlaced label => "label " ++ label.text ++ " is not placed"
  | stackHeightMismatch existing incoming =>
    "stack height mismatch at join: " ++ toString existing ++ " vs " ++ toString incoming
  | fallsOff => "execution falls off the end of the code"
  | stackTooDeep => "stack too deep"
  | tooManyLocals => "too many locals"
  | execution instruction index cause =>
    instruction.listing ++ " at #" ++ toString index ++ ": " ++ cause.message
  | unsettled => "the states do not settle"
  | fault cause => cause.message

/-- What an instruction that cannot be executed makes of the analysis. -/
def AnalysisError.ofExecution (instruction : Instruction) (index : Nat) :
    ExecutionError → AnalysisError
  | .fault cause => .fault cause
  | cause => .execution instruction index cause

/-- A handler by instruction indices: it protects those from the start up to before the stop. -/
structure Handler where
  start : Nat
  stop : Nat
  target : Nat
  catchType : String

/-- A method under analysis. -/
structure Body where
  owner : String
  instructions : Array Instruction
  /-- Where each label stands; of several places the last counts. -/
  places : Std.HashMap Label Nat
  handlers : List Handler

namespace Body

def place (places : Std.HashMap Label Nat) (label : Label) : Except AnalysisError Nat :=
  match places[label]? with
  | some index => .ok index
  | none => .error (.labelNotPlaced label)

/-- The places of the labels of a list. -/
def placesOf (instructions : List Instruction) : Std.HashMap Label Nat :=
  instructions.zipIdx.foldl (fun places (instruction, index) =>
    match instruction with
    | .label label => places.insert label index
    | _ => places) ∅

/-- The class that a handler without a type takes. -/
def anyThrowable : String := "java/lang/Throwable"

def handler (places : Std.HashMap Label Nat) (block : TryCatch) : Except AnalysisError Handler := do
  let start ← place places block.start
  let stop ← place places block.stop
  let target ← place places block.handler
  return { start, stop, target, catchType := block.catchType.getD anyThrowable }

/-- A method of a class, made ready for analysis. -/
def ofMethod (owner : String) (method : MethodNode) : Except AnalysisError Body := do
  let places := placesOf method.instructions
  let handlers ← method.tryCatches.mapM (handler places)
  return { owner, instructions := method.instructions.toArray, places, handlers }

/-- The last label between the real instruction before an index and the index. -/
def labelBefore? (instructions : Array Instruction) : Nat → Option Label
  | 0 => none
  | index + 1 =>
    match instructions[index]? with
    | some (.label label) => some label
    | some instruction =>
      if instruction.isPseudo then labelBefore? instructions index else none
    | none => none

/-- The name of an allocation: the label right before it, or else a label counted down from the
highest one. -/
def site (body : Body) (index : Nat) : Label :=
  (labelBefore? body.instructions index).getD ⟨0xFFFFFFFF - index.toUInt32⟩

/-- Where control goes from an instruction: its targets, then the next instruction. -/
def successors (body : Body) (index : Nat) (instruction : Instruction) :
    Except AnalysisError (List Nat) := do
  let targets ← instruction.targets.mapM (place body.places)
  if instruction.opcode?.any Opcode.isTerminal then return targets
  else if index + 1 < body.instructions.size then return targets ++ [index + 1]
  else throw .fallsOff

end Body

/-- How far an analysis has come. -/
structure Progress where
  /-- The state before each instruction that has been reached. -/
  states : Array (Option State)
  /-- The instructions that wait for a step, each once. -/
  pending : List Nat
  findings : Findings

namespace Progress

/-- Puts an instruction to the end of the queue, unless it waits already. -/
def enqueue (progress : Progress) (index : Nat) : Progress :=
  if progress.pending.contains index then progress
  else { progress with pending := progress.pending ++ [index] }

/-- Lets a state flow to an instruction. -/
def flowTo (common : CommonSuper) (incoming : State) (progress : Progress) (index : Nat) :
    Except AnalysisError Progress :=
  match progress.states[index]? with
  | none => .error (.fault (.index index progress.states.size))
  | some none =>
    .ok ({ progress with states := progress.states.setIfInBounds index (some incoming) }.enqueue
      index)
  | some (some existing) =>
    match merge? common existing incoming with
    | none =>
      .error (.stackHeightMismatch existing.stack.length incoming.stack.length)
    | some merged =>
      if merged = existing then .ok progress
      else
        .ok ({ progress with states := progress.states.setIfInBounds index (some merged) }.enqueue
          index)

/-- Lets the local variables before an instruction flow to a handler that protects it. -/
def flowToHandler (common : CommonSuper) (before : State) (progress : Progress)
    (handler : Handler) : Except AnalysisError Progress :=
  flowTo common { locals := before.locals, stack := [.object handler.catchType] }
    { progress with
      findings := { progress.findings with maxStack := max progress.findings.maxStack 1 } }
    handler.target

/-- Executes the instruction at an index on the state before it, and lets what results flow on. -/
def visit (body : Body) (common : CommonSuper) (progress : Progress) (index : Nat)
    (instruction : Instruction) (before : State) : Except AnalysisError Progress := do
  let handlers :=
    if instruction.isPseudo then []
    else body.handlers.filter fun h => h.start ≤ index && index < h.stop
  let progress ← handlers.foldlM (flowToHandler common before) progress
  match (Execution.instruction body.owner (body.site index) instruction).run
      ⟨before, progress.findings⟩ with
  | .error cause => .error (.ofExecution instruction index cause)
  | .ok ((), machine) =>
    let successors ← body.successors index instruction
    successors.foldlM (flowTo common machine.state) { progress with findings := machine.findings }

/-- Takes the first instruction from the queue and visits it. -/
def step (body : Body) (common : CommonSuper) (progress : Progress) :
    Except AnalysisError Progress :=
  match progress.pending with
  | [] => .ok progress
  | index :: pending =>
    let progress := { progress with pending }
    match progress.states[index]?, body.instructions[index]? with
    | some (some before), some instruction => progress.visit body common index instruction before
    | some none, _ => .ok progress
    | none, _ => .error (.fault (.index index progress.states.size))
    | some (some _), none => .error (.fault (.index index body.instructions.size))

/-- Takes steps until the queue is empty, at most so many. -/
def run (body : Body) (common : CommonSuper) : Nat → Progress → Except AnalysisError Progress
  | 0, progress => if progress.pending.isEmpty then .ok progress else .error .unsettled
  | limit + 1, progress =>
    if progress.pending.isEmpty then .ok progress
    else
      match progress.step body common with
      | .error e => .error e
      | .ok next => run body common limit next

/-- The start of an analysis: the entry state before the first instruction, if there is one. -/
def start (body : Body) (method : MethodNode) : Progress :=
  let locals := expand (method.entryLocals body.owner)
  { states :=
      (Array.replicate body.instructions.size none).setIfInBounds 0
        (some { locals, stack := [] })
    pending := if body.instructions.isEmpty then [] else [0]
    findings := { maxLocals := locals.length } }

end Progress

/-- What an analysis has found. -/
structure Analysis where
  /-- The state before each instruction that can be reached. -/
  states : Array (Option State)
  maxStack : UInt16
  maxLocals : UInt16
  deriving Inhabited

namespace Analysis

/-- A number of steps that is out of reach for code that settles. -/
def stepLimit (body : Body) : Nat := (body.instructions.size + 1) * 1000000000000

/-- Analyses a method of a class. -/
def ofMethod (owner : String) (method : MethodNode) (common : CommonSuper) :
    Except AnalysisError Analysis := do
  let body ← Body.ofMethod owner method
  let progress ← (Progress.start body method).run body common (stepLimit body)
  if 65535 < progress.findings.maxStack then throw .stackTooDeep
  if 65535 < progress.findings.maxLocals then throw .tooManyLocals
  return { states := progress.states, maxStack := progress.findings.maxStack.toUInt16,
           maxLocals := progress.findings.maxLocals.toUInt16 }

/-- The indices of the real instructions that no way reaches. -/
def unreachable (analysis : Analysis) (instructions : List Instruction) : List Nat :=
  (instructions.zipIdx.filter fun (instruction, index) =>
    !instruction.isPseudo && (analysis.states[index]?.join).isNone).map (·.2)

end Analysis
end JvmArchive.Flow
