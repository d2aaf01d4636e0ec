import JvmArchive.ClassFile.Error
import JvmArchive.Flow.Analysis

/-!
# Frames for methods

The instructions of a method as they are to be written, with its stack and local variable sizes. Frames
are taken over from the method or computed from its data flow.
-/
namespace JvmArchive

/-- Where the frames of a written class come from. -/
inductive FrameMode
  /-- The frames in the code are written as they are. -/
  | preserve
  /-- The frames in the code are replaced by computed ones. -/
  | compute
  deriving Repr, DecidableEq, Inhabited

namespace Encode

/-- The first class file version with stack maps. -/
def stackMapVersion : UInt16 := 50

/-- A method as it is to be written. -/
structure PreparedCode where
  instructions : List Instruction
  maxStack : UInt16
  maxLocals : UInt16

/-- Places a label before every allocation that has none since the real instruction before it. -/
def labelSites : Bool → UInt32 → List Instruction → List Instruction
  | _, _, [] => []
  | labelled, next, instruction :: rest =>
    match instruction with
    | .label _ => instruction :: labelSites true next rest
    | .line .. | .frame _ => instruction :: labelSites labelled next rest
    | .type Opcode.new _ =>
      if labelled then instruction :: labelSites false next rest
      else .label ⟨next⟩ :: instruction :: labelSites false (next + 1) rest
    | _ => instruction :: labelSites false next rest

/-- The labels that control can jump to. -/
def jumpTargets (instructions : List Instruction) (tryCatches : List TryCatch) : List Label :=
  instructions.flatMap Instruction.targets ++ tryCatches.map (·.handler)

/-- Puts a computed frame before every label that is jumped to and every real instruction right after
one that does not continue, and leaves other frames out. -/
def placeFrames (isTarget : Label → Bool) :
    Bool → List (Instruction × Option Flow.State) → List Instruction
  | _, [] => []
  | afterTerminal, (instruction, state) :: rest =>
    let frame := state.toList.map fun s => .frame s.toFrame
    match instruction with
    | .label label =>
      (if isTarget label then frame else []) ++
        instruction :: placeFrames isTarget afterTerminal rest
    | .line .. => instruction :: placeFrames isTarget afterTerminal rest
    | .frame _ => placeFrames isTarget afterTerminal rest
    | _ =>
      (if afterTerminal then frame else []) ++
        instruction :: placeFrames isTarget (instruction.opcode?.any Opcode.isTerminal) rest

/-- The name of a method in messages. -/
def methodText (owner : String) (method : MethodNode) : String :=
  owner ++ "." ++ method.name ++ method.desc

/-- A method with frames computed from its data flow, which has to reach every instruction. -/
def computeFrames (owner : String) (method : MethodNode) (common : Flow.CommonSuper) :
    Except WriteError PreparedCode :=
  let failed (details : String) : WriteError :=
    .frameComputation (methodText owner method) details
  let instructions := labelSites false method.nextLabel method.instructions
  match Flow.Analysis.ofMethod owner { method with instructions } common with
  | .error (.fault cause) => .error (.fault cause)
  | .error cause => .error (failed cause.message)
  | .ok analysis =>
    match analysis.unreachable instructions with
    | index :: _ => .error (failed ("instruction #" ++ toString index ++ " is unreachable"))
    | [] =>
      let targets := Std.HashSet.ofList (jumpTargets instructions method.tryCatches)
      .ok
        { instructions :=
            placeFrames targets.contains false (instructions.zip analysis.states.toList)
          maxStack := analysis.maxStack
          maxLocals := analysis.maxLocals }

/-- A method with the frames it has. Its sizes are raised to what its data flow needs, if that can be
told. -/
def preserveFrames (owner : String) (method : MethodNode) (common : Flow.CommonSuper) :
    PreparedCode :=
  match Flow.Analysis.ofMethod owner method common with
  | .ok analysis =>
    { instructions := method.instructions
      maxStack := max method.maxStack analysis.maxStack
      maxLocals := max method.maxLocals analysis.maxLocals }
  | .error _ =>
    { instructions := method.instructions
      maxStack := method.maxStack
      maxLocals := method.maxLocals }

/-- A method of a class of some version as it is to be written. Its data flow is always analysed. -/
def prepare (mode : FrameMode) (version : UInt16) (owner : String) (method : MethodNode)
    (common : Flow.CommonSuper) : Except WriteError PreparedCode :=
  if mode = .compute ∧ stackMapVersion ≤ version then computeFrames owner method common
  else
    match Flow.Analysis.ofMethod owner method common with
    | .error (.fault cause) => .error (.fault cause)
    | _ => .ok (preserveFrames owner method common)

end Encode
end JvmArchive
