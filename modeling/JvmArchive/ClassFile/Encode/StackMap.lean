import JvmArchive.ClassFile.Encode.Instruction

/-!
# Writing stack maps

Frames as changes of the frame before them, each in the shortest form that can state it.
-/
namespace JvmArchive.Encode

/-- The bytes of the type of one entry of a frame. -/
def verificationType (offset : Label → Except WriteError Nat) :
    VerificationType → PoolWriter (List UInt8)
  | .top => return [0]
  | .integer => return [1]
  | .float => return [2]
  | .double => return [3]
  | .long => return [4]
  | .null => return [5]
  | .uninitializedThis => return [6]
  | .object name => return 7 :: (← classIndex name)
  | .uninitialized site => do
    let place ← offset site
    return 8 :: Bytes.ofNat16 place

/-- The ways to state a frame, given the local variables of the one before it. -/
inductive FrameForm
  /-- The same local variables and an empty stack. -/
  | same
  /-- The same local variables and one value on the stack. -/
  | sameWith (item : VerificationType)
  /-- So many local variables less and an empty stack. -/
  | chop (count : Nat)
  /-- Some local variables more and an empty stack. -/
  | append (added : List VerificationType)
  | full

/-- The shortest form of a frame. -/
def frameForm (previous : List VerificationType) (frame : StackFrame) : FrameForm :=
  let locals := frame.locals
  match frame.stack, decide (locals = previous) with
  | [], true => .same
  | [item], true => .sameWith item
  | [], false =>
    if previous.length < locals.length ∧ locals.length - previous.length ≤ 3 ∧
        locals.take previous.length = previous then
      .append (locals.drop previous.length)
    else if locals.length < previous.length ∧ previous.length - locals.length ≤ 3 ∧
        previous.take locals.length = locals then
      .chop (previous.length - locals.length)
    else .full
  | _, _ => .full

/-- A form that has a short opcode for small distances. -/
def distance (short long : Nat) (delta : UInt16) : List UInt8 :=
  if delta < 64 then [(short + delta.toNat).toUInt8]
  else long.toUInt8 :: Bytes.ofUInt16 delta

/-- The bytes of a frame at a distance from the one before it. -/
def frameBytes (offset : Label → Except WriteError Nat) (previous : List VerificationType)
    (delta : UInt16) (frame : StackFrame) : PoolWriter (List UInt8) := do
  match frameForm previous frame with
  | .same => return distance 0 251 delta
  | .sameWith item => return distance 64 247 delta ++ (← verificationType offset item)
  | .chop count => return (251 - count).toUInt8 :: Bytes.ofUInt16 delta
  | .append added =>
    return (251 + added.length).toUInt8 ::
      (Bytes.ofUInt16 delta ++ (← concatM (verificationType offset) added))
  | .full =>
    let locals ← counted (verificationType offset) frame.locals
    let stack ← counted (verificationType offset) frame.stack
    return 255 :: (Bytes.ofUInt16 delta ++ (locals ++ stack))

/-- The bytes of frames, given the local variables of the one before them and the offset from which
the next distance counts. -/
def framesFrom (offset : Label → Except WriteError Nat) :
    List VerificationType → Nat → List (Nat × StackFrame) → PoolWriter (List (List UInt8))
  | _, _, [] => return []
  | previous, base, (place, frame) :: rest => do
    let first ← frameBytes offset previous (place - base).toUInt16 frame
    let rest ← framesFrom offset frame.locals (place + 1) rest
    return first :: rest

/-- The bytes of a stack map, given the local variables at method entry. -/
def stackMap (offset : Label → Except WriteError Nat) (entryLocals : List VerificationType)
    (frames : List (Nat × StackFrame)) : PoolWriter (List UInt8) := do
  return Bytes.ofNat16 frames.length ++ (← framesFrom offset entryLocals 0 frames).flatten

end JvmArchive.Encode
