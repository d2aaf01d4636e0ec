import JvmArchive.Proofs.ClassFile.Code.Prepared
import JvmArchive.Proofs.ClassFile.Code.RoundTrip

/-!
# Code that keeps its frames

Without frames the sizes of tables bound the size of the code attribute, so code that fits and can be
written is read as the same code. The bounds of a table switch have to be in order: a switch without
targets whose bounds cross is written but not read.
-/
namespace JvmArchive

namespace MethodNode
open Encode PoolWriter Decode

theorem codeFits_of_prepare {method : MethodNode} {keepAll : Bool} {version : UInt16} {owner : String}
    {common : Flow.CommonSuper} (hfits : method.CodeFits keepAll method.instructions)
    (prepared : PreparedCode) (h : prepare .preserve version owner method common = .ok prepared) :
    method.CodeFits keepAll prepared.instructions := by
  rwa [eq_preserveFrames_of_prepare (by simp) h, preserveFrames_instructions]

/-- Code without frames that fits and is written is read as the same code, in every pool that the
present one grows into. -/
theorem decode_code_of_encode_code {method : MethodNode} {keepAll : Bool} {version : UInt16}
    {owner : String} {common : Flow.CommonSuper} {builder later final : PoolBuilder}
    {data : List UInt8} (hfits : method.CodeFits keepAll method.instructions)
    (hcross : ∀ instruction ∈ method.instructions, instruction.crosses = false)
    (hframes : ∀ frame, .frame frame ∉ method.instructions) (hraw : method.codeAttributes = [])
    (hvalid : builder.Valid)
    (hwrite : Encode.code { frames := .preserve, common } keepAll version owner method builder =
      .ok (data, later))
    (hfinal : later.Extends final) (hcomplete : final.Complete) :
    ∃ back, Decode.code final.toPool owner (method.shell keepAll) data = .ok back ∧
      method.SameCode keepAll (preserveFrames owner method common) back := by
  have hinstructions := preserveFrames_instructions owner method common
  obtain ⟨-, hread⟩ := yields_code (codeFits_of_prepare hfits) builder later data hvalid hwrite
  obtain ⟨prepared, hprepare, hreads, -, hsmall⟩ := hread final hfinal hcomplete
  obtain rfl := eq_preserveFrames_of_prepare (by simp) hprepare
  rw [hinstructions] at hreads hsmall
  exact hreads hcross (hsmall hframes (by rw [hraw]; rfl))

/-- Writing code that keeps its frames step by step. -/
theorem encode_code_of_steps {keepAll : Bool} {version : UInt16} {owner : String} {method : MethodNode}
    {common : Flow.CommonSuper} {layout : Layout} {parts : CodeParts} {handlers : List UInt8}
    {lines locals frames raw : List Encode.Attribute} {b₀ b₁ b₂ b₃ b₄ b₅ b₆ b₇ : PoolBuilder}
    (hloads : .simple Opcode.aaload ∉ method.instructions)
    (hlayout : Encode.layout (methodText owner method) method.instructions b₀ = .ok (layout, b₁))
    (hparts : codeParts (offsetOf (methodText owner method) layout.labels)
      (layout.cells method.instructions) {} b₁ = .ok (parts, b₂))
    (hhandlers : Encode.handlers (offsetOf (methodText owner method) layout.labels) method.tryCatches
      b₂ = .ok (handlers, b₃))
    (hlines : lineNumbers parts.lines.reverse b₃ = .ok (lines, b₄))
    (hlocals : Encode.localVariables (offsetOf (methodText owner method) layout.labels)
      method.localVariables b₄ = .ok (locals, b₅))
    (hframes : stackMaps (offsetOf (methodText owner method) layout.labels) version
      (method.entryLocals owner) parts.frames.reverse b₅ = .ok (frames, b₆))
    (hraw : Encode.rawAttributes keepAll method.codeAttributes b₆ = .ok (raw, b₇)) :
    Encode.code { frames := .preserve, common } keepAll version owner method b₀ =
      .ok (Bytes.ofUInt16 (preserveFrames owner method common).maxStack ++
        Bytes.ofUInt16 (preserveFrames owner method common).maxLocals ++ Bytes.ofNat32 parts.size ++
        parts.chunks.reverse.flatten ++ handlers ++
        attributesBytes (lines ++ locals ++ frames ++ raw), b₇) := by
  rw [Layout.cells] at hparts
  simp only [Encode.code, bind_run, prepare_preserve _ _ _ hloads, preserveFrames_instructions,
    lift_run, hlayout, hparts, hhandlers, hlines, hlocals, hframes, hraw, pure_run, Except.bind]

/-- A loop with a line and a handler around it. -/
def loop : MethodNode where
  name := "m"
  desc := "()V"
  instructions := [.label ⟨0⟩, .line 7 ⟨0⟩, .jump Opcode.goto ⟨0⟩, .label ⟨1⟩]
  tryCatches := [{ start := ⟨0⟩, stop := ⟨1⟩, handler := ⟨0⟩, catchType := none }]

theorem codeFits_loop : loop.CodeFits false loop.instructions where
  fits := by simp [loop, Instruction.Fits]; decide
  frames := by simp [loop]
  frameCount := by decide
  lineCount := by decide
  handlers := ⟨by decide, by simp [loop]⟩
  locals := ⟨by decide, by simp [loop]⟩
  attributes := by simp [loop, keptAttributes]
  count := by decide

/-- The layout of the loop. -/
def loopLayout : Layout where
  offsets := [0, 0, 0, 3]
  labels := ((∅ : Std.HashMap Label Nat).insert ⟨0⟩ 0).insert ⟨1⟩ 3
  size := 3
  wide := [false, false, false, false]

theorem labels_loop : loopLayout.labels[(⟨0⟩ : Label)]? = some 0 ∧
    loopLayout.labels[(⟨1⟩ : Label)]? = some 3 := by
  simp [loopLayout, Std.HashMap.getElem?_insert, -getElem?_pos]

theorem layout_loop (name : String) (builder : PoolBuilder) :
    layout name loop.instructions builder = .ok (loopLayout, builder) := by
  have hjump : mustWiden name loopLayout.labels ((.jump Opcode.goto ⟨0⟩, false), 0) = .ok false := by
    simp only [mustWiden, labels_loop.1]
    rfl
  have hround : ((loop.instructions.zip loopLayout.wide).zip loopLayout.offsets).mapM
      (mustWiden name loopLayout.labels) = .ok loopLayout.wide := by
    simp only [loop, loopLayout, List.zip_cons_cons, List.zip_nil_left, List.mapM_cons] at hjump ⊢
    rw [hjump]
    rfl
  exact layoutFrom_of_round rfl (by decide) hround

theorem codeParts_loop {offset : Label → Except WriteError Nat} (h : offset ⟨0⟩ = .ok 0)
    (builder : PoolBuilder) :
    codeParts offset (loopLayout.cells loop.instructions) {} builder =
      .ok ({ chunks := [[], [Opcode.goto, 0, 0], []], size := 3, lines := [(0, 7)] }, builder) := by
  have htarget : nearTarget offset 0 ⟨0⟩ = .ok [0, 0] := by
    rw [nearTarget, h]
    rfl
  have hjump : ∀ written, Encode.instruction offset 0 written false (.jump Opcode.goto ⟨0⟩) builder =
      .ok ([Opcode.goto, 0, 0], builder) := by
    intro written
    simp only [Encode.instruction, htarget]
    rfl
  have hlabel : ∀ (label : Label) (pc written : Nat),
      Encode.instruction offset pc written false (.label label) builder = .ok ([], builder) :=
    fun _ _ _ => rfl
  simp only [Layout.cells, loop, loopLayout, List.zip_cons_cons, List.zip_nil_left, codeParts, bind_run,
    h, hjump, hlabel, lift_run, Except.bind]
  rfl

theorem handlers_loop {offset : Label → Except WriteError Nat} (hstart : offset ⟨0⟩ = .ok 0)
    (hstop : offset ⟨1⟩ = .ok 3) (builder : PoolBuilder) :
    Encode.handlers offset loop.tryCatches builder =
      .ok ([0, 1, 0, 0, 0, 3, 0, 0, 0, 0], builder) := by
  have hrow : handlerRow offset { start := ⟨0⟩, stop := ⟨1⟩, handler := ⟨0⟩, catchType := none }
      builder = .ok (some [0, 0, 0, 3, 0, 0, 0, 0], builder) := by
    simp only [handlerRow, hstart, hstop, bind_run, lift_run, Except.bind]
    rfl
  simp only [Encode.handlers, loop, List.mapM_cons, List.mapM_nil, bind_run, pure_run, hrow,
    Except.bind]
  rfl

/-- Whatever is written for its line, the loop is written. -/
theorem encode_code_loop {builder later : PoolBuilder} {lines : List Encode.Attribute}
    (h : lineNumbers [(0, 7)] builder = .ok (lines, later)) :
    ∃ data, Encode.code {} false 52 "p/A" loop builder = .ok (data, later) := by
  obtain ⟨hstart, hstop⟩ := labels_loop
  have hstart' : offsetOf (methodText "p/A" loop) loopLayout.labels ⟨0⟩ = .ok 0 := by
    rw [offsetOf, hstart]
  have hstop' : offsetOf (methodText "p/A" loop) loopLayout.labels ⟨1⟩ = .ok 3 := by
    rw [offsetOf, hstop]
  exact ⟨_, encode_code_of_steps (by simp [loop]) (layout_loop _ builder) (codeParts_loop hstart' builder)
    (handlers_loop hstart' hstop' builder) h rfl rfl rfl⟩

/-- The loop is read as itself. -/
theorem decode_code_of_encode_loop :
    ∃ data later back, Encode.code {} false 52 "p/A" loop {} = .ok (data, later) ∧
      Decode.code later.toPool "p/A" (loop.shell false) data = .ok back ∧
      loop.SameCode false (preserveFrames "p/A" loop Flow.rootOnly) back := by
  have hlines : ∃ lines later, lineNumbers [(0, 7)] {} = .ok (lines, later) := by
    simp [lineNumbers, Attribute.named, PoolBuilder.utf8, PoolBuilder.add, map_run, Except.map,
      PoolBuilder.maxSlots, PoolEntry.isWide]
  obtain ⟨lines, later, hlines⟩ := hlines
  obtain ⟨data, hwrite⟩ := encode_code_loop hlines
  obtain ⟨hgrows, -⟩ :=
    yields_code (codeFits_of_prepare codeFits_loop) {} later data PoolBuilder.valid_empty hwrite
  have hcomplete := hgrows.valid.complete (PoolBuilder.bounded_empty.grow hgrows)
  obtain ⟨back, hread, hsame⟩ := decode_code_of_encode_code codeFits_loop
    (by simp [loop, Instruction.crosses]) (by simp [loop]) rfl PoolBuilder.valid_empty hwrite
    (.refl later) hcomplete
  exact ⟨data, later, back, hwrite, hread, hsame⟩

/-- A table switch without targets whose bounds cross. -/
def crossed : MethodNode where
  name := "m"
  desc := "()V"
  instructions := [.label ⟨0⟩, .tableSwitch 0 (-1) ⟨0⟩ []]

/-- The layout of the switch. -/
def crossedLayout : Layout where
  offsets := [0, 0]
  labels := (∅ : Std.HashMap Label Nat).insert ⟨0⟩ 0
  size := 16
  wide := [false, false]

theorem layout_crossed (name : String) (builder : PoolBuilder) :
    layout name crossed.instructions builder = .ok (crossedLayout, builder) := by
  have hround : ((crossed.instructions.zip crossedLayout.wide).zip crossedLayout.offsets).mapM
      (mustWiden name crossedLayout.labels) = .ok crossedLayout.wide := rfl
  exact layoutFrom_of_round rfl (by decide) hround

/-- The bytes of the switch: the distance of its default, its bounds, and nothing more. -/
def crossedBytes : List UInt8 :=
  Opcode.tableswitch :: ([0, 0, 0] ++ (Bytes.ofUInt32 0 ++ (Bytes.ofUInt32 0 ++
    Bytes.ofUInt32 (-1 : Int32).toUInt32)))

theorem codeParts_crossed {offset : Label → Except WriteError Nat} (h : offset ⟨0⟩ = .ok 0)
    (builder : PoolBuilder) :
    codeParts offset (crossedLayout.cells crossed.instructions) {} builder =
      .ok ({ chunks := [crossedBytes, []], size := 16 }, builder) := by
  have hdefault : farTarget offset 0 ⟨0⟩ = .ok [0, 0, 0, 0] := by
    rw [farTarget, h]
    rfl
  have hlabel : Encode.instruction offset 0 0 false (.label ⟨0⟩) builder = .ok ([], builder) := rfl
  have hswitch : Encode.instruction offset 0 0 false (.tableSwitch 0 (-1) ⟨0⟩ []) builder =
      .ok (crossedBytes, builder) := by
    simp only [Encode.instruction, hdefault]
    rfl
  simp only [Layout.cells, crossed, crossedLayout, List.zip_cons_cons, List.zip_nil_left, codeParts,
    bind_run, hlabel, Except.bind, List.length_nil, Nat.add_zero, hswitch]
  rfl

/-- The switch is written into every pool, and leaves it as it is. -/
theorem encode_code_crossed :
    ∃ data, ∀ builder, Encode.code {} false 52 "p/A" crossed builder = .ok (data, builder) := by
  have hoffset : offsetOf (methodText "p/A" crossed) crossedLayout.labels ⟨0⟩ = .ok 0 := by
    simp [offsetOf, crossedLayout]
  exact ⟨_, fun builder => encode_code_of_steps (by simp [crossed]) (layout_crossed _ builder)
    (codeParts_crossed hoffset builder) rfl rfl rfl rfl rfl⟩

theorem codeFits_crossed : crossed.CodeFits false crossed.instructions where
  fits := by simp [crossed, Instruction.Fits]
  frames := by simp [crossed]
  frameCount := by decide
  lineCount := by decide
  handlers := ⟨by decide, by simp [crossed]⟩
  locals := ⟨by decide, by simp [crossed]⟩
  attributes := by simp [crossed, keptAttributes]
  count := by decide

/-- The switch fits, with as many targets as its bounds say, and is written, but what is written is not
read. -/
theorem not_decode_code_of_encode_crossed :
    crossed.CodeFits false crossed.instructions ∧
      (∀ frame, .frame frame ∉ crossed.instructions) ∧ crossed.codeAttributes = [] ∧
      ∃ data, Encode.code {} false 52 "p/A" crossed {} = .ok (data, {}) ∧ ∃ detail,
        Decode.code ({} : PoolBuilder).toPool "p/A" (crossed.shell false) data =
          .error (.malformed "tableswitch" detail) := by
  obtain ⟨data, hwrite⟩ := encode_code_crossed
  refine ⟨codeFits_crossed, by simp [crossed], rfl, data, hwrite {}, ?_⟩
  obtain ⟨hgrows, hread⟩ := yields_code (codeFits_of_prepare codeFits_crossed) {} {} data
    PoolBuilder.valid_empty (hwrite {})
  obtain ⟨prepared, hprepare, -, hrefuses, -⟩ :=
    hread {} (.refl {}) (hgrows.valid.complete PoolBuilder.bounded_empty)
  obtain rfl := eq_preserveFrames_of_prepare (by simp) hprepare
  apply hrefuses
  rw [preserveFrames_instructions]
  exact ⟨_, List.mem_cons_of_mem _ List.mem_cons_self, by decide⟩

end MethodNode
end JvmArchive
