import JvmArchive.ClassFile.Decode.Instruction

/-!
# Reading stack maps

The frames of a stack map, each stated as a change of the one before it, made explicit.
-/
namespace JvmArchive.Decode

/-- The type of one entry of a frame. -/
def verificationType (pool : ConstantPool) : CodeReader VerificationType := do
  match ← Reader.uint8 with
  | 0 => return .top
  | 1 => return .integer
  | 2 => return .float
  | 3 => return .double
  | 4 => return .long
  | 5 => return .null
  | 6 => return .uninitializedThis
  | 7 => return .object (← pool.className (← Reader.uint16))
  | 8 => return .uninitialized (← labelAt (← Reader.uint16).toNat)
  | tag => throw (.malformed "StackMapTable" ("unknown verification type " ++ toString tag.toNat))

/-- The distance of a frame from the one before it, and its shape on the given local variables. -/
def frameAfter (pool : ConstantPool) (locals : List VerificationType) :
    CodeReader (Nat × StackFrame) := do
  let kind ← Reader.uint8
  if kind ≤ 63 then return (kind.toNat, { locals })
  else if kind ≤ 127 then
    let item ← verificationType pool
    return (kind.toNat - 64, { locals, stack := [item] })
  else if kind < 247 then
    throw (.malformed "StackMapTable" ("reserved frame type " ++ toString kind.toNat))
  else
    let delta ← Reader.uint16
    if kind == 247 then
      let item ← verificationType pool
      return (delta.toNat, { locals, stack := [item] })
    else if kind ≤ 250 then
      return (delta.toNat, { locals := locals.take (locals.length - (251 - kind.toNat)) })
    else if kind == 251 then return (delta.toNat, { locals })
    else if kind ≤ 254 then
      let more ← timesWithLabels (kind.toNat - 251) (verificationType pool)
      return (delta.toNat, { locals := locals ++ more })
    else
      let localCount ← Reader.uint16
      let locals ← timesWithLabels localCount.toNat (verificationType pool)
      let stackCount ← Reader.uint16
      let stack ← timesWithLabels stackCount.toNat (verificationType pool)
      return (delta.toNat, { locals, stack })

/-- Reads so many frames, given the local variables of the last one and the offset from which the
next distance counts. -/
def framesFrom (pool : ConstantPool) : Nat → List VerificationType → Nat →
    List (Nat × StackFrame) → CodeReader (List (Nat × StackFrame))
  | 0, _, _, read => return read.reverse
  | count + 1, locals, base, read => do
    let (delta, frame) ← frameAfter pool locals
    let offset := base + delta
    let _ ← labelAt offset
    framesFrom pool count frame.locals (offset + 1) ((offset, frame) :: read)

/-- The frames of a stack map with their offsets, given the local variables at method entry. -/
def stackMap (pool : ConstantPool) (entryLocals : List VerificationType) :
    CodeReader (List (Nat × StackFrame)) := do
  let count ← Reader.uint16
  framesFrom pool count.toNat entryLocals 0 []

end JvmArchive.Decode
