import JvmArchive.Proofs.ClassFile.Code.Preserved
import JvmArchive.Proofs.ClassFile.Files

/-!
# Counts that survive writing

How many members a class has, and how many instructions, handlers, local variables and lines its methods
have, is the same after writing and reading, whatever is made of their frames.
-/
namespace JvmArchive

namespace Instruction

/-- The lines that start before the end of the code. -/
def placedLines (instructions : List Instruction) : List (Label × UInt16) :=
  (lines instructions).filter fun line =>
    (placeOf instructions line.1).any (· < (real instructions).length)

/-- Places below a bound are counted one by one. -/
theorem countP_any_lt_succ {α : Type} (place : α → Option Nat) (xs : List α) (n : Nat) :
    xs.countP (fun x => (place x).any (· < n + 1)) =
      xs.countP (fun x => (place x).any (· < n)) + xs.countP (fun x => place x = some n) := by
  induction xs with
  | nil => rfl
  | cons x xs ih =>
    simp only [List.countP_cons, ih]
    cases place x with
    | none => simp
    | some k =>
      simp only [Option.any_some, decide_eq_true_eq, Option.some.injEq]
      split <;> split <;> split <;> omega

/-- As many lines start before the end of the code as at all of its places together. -/
theorem length_placedLines {xs ys : List Instruction}
    (hreal : (real xs).length = (real ys).length)
    (h : ∀ place < (real xs).length, linesAt xs place = linesAt ys place) :
    (placedLines xs).length = (placedLines ys).length := by
  have hcount : ∀ bound ≤ (real xs).length,
      (lines xs).countP (fun line => (placeOf xs line.1).any (· < bound)) =
        (lines ys).countP fun line => (placeOf ys line.1).any (· < bound) := by
    intro bound
    induction bound with
    | zero => simp
    | succ place ih =>
      intro hbound
      have hlines := congrArg List.length (h place hbound)
      simp only [linesAt, List.length_map, ← List.countP_eq_length_filter] at hlines
      rw [countP_any_lt_succ, countP_any_lt_succ, ih (Nat.le_of_succ_le hbound), hlines]
  rw [placedLines, placedLines, ← List.countP_eq_length_filter, ← List.countP_eq_length_filter,
    ← hreal]
  exact hcount _ (Nat.le_refl _)

theorem Agrees.placedLines_eq {known : Label → Prop} {xs ys : List Instruction}
    (h : Agrees known xs ys) (hknown : ∀ line ∈ Instruction.lines xs, known line.1) :
    placedLines ys = placedLines xs := by
  unfold placedLines
  rw [h.lines, h.real]
  exact List.filter_congr fun line hline => by rw [h.places _ (hknown line hline)]

end Instruction

namespace MethodNode
open Instruction

/-- A method with as many real instructions, handlers that are used, local variables, and lines before
the end of the code. -/
structure SameCounts (method back : MethodNode) : Prop where
  name : back.name = method.name
  desc : back.desc = method.desc
  instructions : (real back.instructions).length = (real method.instructions).length
  handlers : back.tryCatches.countP (TryCatch.isUsed back.instructions) =
    method.tryCatches.countP (TryCatch.isUsed method.instructions)
  locals : back.localVariables.length = method.localVariables.length
  lines : (placedLines back.instructions).length = (placedLines method.instructions).length

/-- Whether a label starts a line or bounds the range of a handler. -/
def Mentions (method : MethodNode) (label : Label) : Prop :=
  (∃ line ∈ lines method.instructions, line.1 = label) ∨
    ∃ block ∈ method.tryCatches, block.start = label ∨ block.stop = label

/-- The labels that are put before allocations are new to the lines and the handlers of a method. -/
def FreshLabels (method : MethodNode) : Prop :=
  ∀ label, method.Mentions label → label.number < method.nextLabel ∧
    method.nextLabel.toNat + method.instructions.countP isAllocation < 4294967296

theorem isUsed_of_sameHandler {xs ys : List Instruction} {block back : TryCatch}
    (h : Encode.SameHandler (SamePlace xs ys) block back) : back.isUsed ys = block.isUsed xs := by
  obtain ⟨start, hstart, hstart'⟩ := h.start
  obtain ⟨stop, hstop, hstop'⟩ := h.stop
  unfold TryCatch.isUsed
  rw [hstart, hstop, hstart', hstop']

theorem countP_isUsed_of_sameHandlers {xs ys : List Instruction} {blocks backs : List TryCatch}
    (h : List.Forall₂ (Encode.SameHandler (SamePlace xs ys)) blocks backs) :
    backs.countP (TryCatch.isUsed ys) = blocks.countP (TryCatch.isUsed xs) := by
  induction h with
  | nil => rfl
  | cons hblock _ ih => rw [List.countP_cons, List.countP_cons, ih, isUsed_of_sameHandler hblock]

/-- Code that is the same has the same counts, if what was prepared agrees with the method. -/
theorem SameCode.sameCounts {keepAll : Bool} {method back : MethodNode}
    {prepared : Encode.PreparedCode} (h : method.SameCode keepAll prepared back)
    (hagrees : Agrees method.Mentions method.instructions prepared.instructions) :
    method.SameCounts back where
  name := by rw [h.rest]; rfl
  desc := by rw [h.rest]; rfl
  instructions := by rw [← h.instructions.length_eq, hagrees.real]
  handlers := by
    have hused : ∀ block ∈ method.tryCatches,
        block.isUsed prepared.instructions = block.isUsed method.instructions := by
      intro block hblock
      unfold TryCatch.isUsed
      rw [hagrees.places _ (.inr ⟨block, hblock, .inl rfl⟩),
        hagrees.places _ (.inr ⟨block, hblock, .inr rfl⟩)]
    rw [countP_isUsed_of_sameHandlers h.handlers, List.countP_filter]
    simp only [Bool.and_self]
    exact List.countP_congr fun block hblock => by rw [hused block hblock]
  locals := h.locals.length_eq.symm
  lines := by
    rw [length_placedLines h.instructions.length_eq.symm, hagrees.placedLines_eq]
    · exact fun line hline => .inl ⟨line, hline, rfl⟩
    · intro place hplace
      exact h.lines place (h.instructions.length_eq ▸ hplace)

/-- Without code there is nothing to count but local variables. -/
theorem sameCounts_shell_iff {method : MethodNode} (keepAll : Bool) (h : method.instructions = []) :
    method.SameCounts (method.shell keepAll) ↔ method.localVariables = [] := by
  have hunused : ∀ block : TryCatch, block.isUsed [] = false := fun _ => rfl
  constructor
  · intro hsame
    exact List.length_eq_zero_iff.1 hsame.locals.symm
  · intro hnone
    exact
      { name := rfl
        desc := rfl
        instructions := by rw [h]; rfl
        handlers := by
          rw [h, shell, List.countP_nil, eq_comm, List.countP_eq_zero]
          simp [hunused]
        locals := by rw [hnone]; rfl
        lines := by rw [h]; rfl }

/-- What is read for a method has its counts exactly if code goes with its local variables. -/
theorem ReadAs.sameCounts_iff {settings : Encode.Settings} {node : ClassNode} {method back : MethodNode}
    (h : method.ReadAs settings node back)
    (hfresh : settings.frames = .compute → method.FreshLabels) :
    method.SameCounts back ↔ (method.instructions = [] → method.localVariables = []) := by
  cases h with
  | shell hnil =>
    rw [sameCounts_shell_iff _ hnil]
    exact ⟨fun hnone _ => hnone, fun hcoded => hcoded hnil⟩
  | code hne hprepare hsame =>
    have hagrees := Encode.agrees_prepare hprepare hfresh
    exact ⟨fun _ hnil => absurd hnil hne, fun _ => hsame.sameCounts hagrees⟩

/-- A method that can be read with its counts: the bounds of no switch cross, and local variables are
declared for code only. -/
structure Countable (method : MethodNode) : Prop where
  ordered : ∀ instruction ∈ method.instructions, instruction.crosses = false
  coded : method.instructions = [] → method.localVariables = []

end MethodNode

theorem forall₂_iff_forall {α β : Type} {R : α → β → Prop} {p : α → Prop} {xs : List α} {ys : List β}
    (h : List.Forall₂ (fun x y => R x y ↔ p x) xs ys) : List.Forall₂ R xs ys ↔ ∀ x ∈ xs, p x := by
  induction h with
  | nil => simp
  | cons hxy _ ih => rw [List.forall₂_cons, hxy, ih, List.forall_mem_cons]

namespace ClassNode

/-- A class with the same name, as many interfaces and fields, and methods with the same counts. -/
structure SameCounts (node back : ClassNode) : Prop where
  name : back.name = node.name
  interfaces : back.interfaces.length = node.interfaces.length
  fields : back.fields.length = node.fields.length
  methods : List.Forall₂ MethodNode.SameCounts node.methods back.methods

/-- A class whose switches are in order is read with its counts exactly if local variables are declared
for code only. -/
theorem FitsWith.sameCounts_iff {settings : Encode.Settings} {node : ClassNode} {bytes : List UInt8}
    (h : node.FitsWith settings)
    (hfresh : settings.frames = .compute → ∀ method ∈ node.methods, method.FreshLabels)
    (hordered : ∀ method ∈ node.methods, ∀ instruction ∈ method.instructions,
      instruction.crosses = false)
    (hbytes : node.toBytes settings = .ok bytes) (hsize : bytes.length < 4294967296) :
    ∃ back, ofBytes bytes = .ok back ∧
      (node.SameCounts back ↔
        ∀ method ∈ node.methods, method.instructions = [] → method.localVariables = []) := by
  obtain ⟨pool, methods, hread, hback⟩ := h.ofBytes_toBytes hordered hbytes hsize
  have hcounts : List.Forall₂ (fun method back => MethodNode.SameCounts method back ↔
      (method.instructions = [] → method.localVariables = [])) node.methods methods := by
    have hboth := (List.forall₂_and_left _ _).2
      ⟨fun method hmethod hmode => hfresh hmode method hmethod, hread⟩
    exact hboth.imp fun _ _ hmethod => hmethod.2.sameCounts_iff hmethod.1
  refine ⟨_, hback, ?_⟩
  rw [← forall₂_iff_forall hcounts]
  constructor
  · intro hsame
    exact hsame.methods
  · intro hmethods
    exact ⟨rfl, rfl, by simp, hmethods⟩

/-- A class that fits and is written is read with its counts exactly if its methods can be. -/
theorem exists_sameCounts_iff {settings : Encode.Settings} {node : ClassNode} {bytes : List UInt8}
    (hfits : node.FitsWith settings)
    (hfresh : settings.frames = .compute → ∀ method ∈ node.methods, method.FreshLabels)
    (hbytes : node.toBytes settings = .ok bytes) (hsize : bytes.length < 4294967296) :
    (∃ back, ofBytes bytes = .ok back ∧ node.SameCounts back) ↔
      ∀ method ∈ node.methods, method.Countable := by
  by_cases hcross : ∃ method ∈ node.methods, ∃ instruction ∈ method.instructions,
      instruction.crosses = true
  · obtain ⟨detail, hfails⟩ := hfits.ofBytes_of_crosses hcross hbytes hsize
    constructor
    · rintro ⟨back, hback, -⟩
      rw [hfails] at hback
      cases hback
    · intro hcountable
      obtain ⟨method, hmethod, instruction, hinstruction, hcrosses⟩ := hcross
      rw [(hcountable method hmethod).ordered instruction hinstruction] at hcrosses
      cases hcrosses
  · have hordered : ∀ method ∈ node.methods, ∀ instruction ∈ method.instructions,
        instruction.crosses = false := by simpa using hcross
    obtain ⟨back, hback, hsame⟩ := hfits.sameCounts_iff hfresh hordered hbytes hsize
    rw [hback]
    constructor
    · rintro ⟨other, hother, hcounts⟩ method hmethod
      cases hother
      exact ⟨hordered method hmethod, hsame.1 hcounts method hmethod⟩
    · intro hcountable
      exact ⟨back, rfl, hsame.2 fun method hmethod => (hcountable method hmethod).coded⟩

/-! ## Classes with one method -/

open PoolWriter

/-- A class with one method and nothing else. -/
def ofMethod (method : MethodNode) : ClassNode where
  majorVersion := 52
  name := "p/A"
  methods := [method]

theorem fits_ofMethod {method : MethodNode} (h : method.Fits false) : (ofMethod method).Fits false where
  name := by
    show TextFits "p/A"
    decide
  superName := by simp [ofMethod]
  interfaces := by simp [ofMethod]
  fields := by simp [ofMethod]
  methods := by simpa [ofMethod] using h
  sourceFile := by simp [ofMethod]
  signature := by simp [ofMethod]
  innerClasses := by simp [ofMethod]
  enclosing := by constructor <;> simp [ofMethod]
  nestHost := by simp [ofMethod]
  nestMembers := by simp [ofMethod]
  permittedSubclasses := by simp [ofMethod]
  visible := by simp [ofMethod, AnnotationsFit]
  invisible := by simp [ofMethod, AnnotationsFit]
  attributes := by simp [ofMethod, keptAttributes]
  count := by simp [attributeNames, ofMethod, keptAttributes, annotationNames]

theorem fitsWith_ofMethod {method : MethodNode} (h : method.Fits false)
    (hcode : method.CodeFits false method.instructions) : (ofMethod method).FitsWith {} where
  pool := by simp [ofMethod]
  parts := fits_ofMethod h
  code := by
    intro other hother prepared _ hprepare
    obtain rfl := List.mem_singleton.1 hother
    exact MethodNode.codeFits_of_prepare hcode prepared hprepare

/-- A method with nothing but code. -/
def coded (instructions : List Instruction) (tryCatches : List TryCatch) : MethodNode :=
  { name := "m", desc := "()V", instructions, tryCatches }

theorem fits_coded (instructions : List Instruction) (tryCatches : List TryCatch) :
    (coded instructions tryCatches).Fits false := by
  constructor <;> simp [coded, MethodNode.attributeNames, MethodNode.otherNames, annotationNames,
    keptAttributes, AnnotationsFit, RawAttribute.isPoolIndependent]
  · decide
  · decide
  · split <;> decide

/-- The pool of the class when the code of its method is written. -/
def poolBeforeCode : PoolBuilder where
  entries := #[.unusable, .utf8 "p/A", .class 1, .utf8 "m", .utf8 "()V"]
  indices := ((((∅ : Std.HashMap PoolEntry UInt16).insert (.utf8 "p/A") 1).insert (.class 1) 2).insert
    (.utf8 "m") 3).insert (.utf8 "()V") 4

section
variable {instructions : List Instruction} {tryCatches : List TryCatch} {data : List UInt8}
  {later : PoolBuilder}

/-- Behind its code, which leaves room in the pool, only the name of the code attribute is added. -/
theorem method_run (hne : instructions ≠ [])
    (hcode : Encode.code {} false 52 "p/A" (coded instructions tryCatches) poolBeforeCode =
      .ok (data, later))
    (hnew : later.indices[PoolEntry.utf8 "Code"]? = none) (hroom : later.entries.size < 65535) :
    Encode.method {} false 52 "p/A" (coded instructions tryCatches)
        { entries := #[.unusable, .utf8 "p/A", .class 1]
          indices := ((∅ : Std.HashMap PoolEntry UInt16).insert (.utf8 "p/A") 1).insert (.class 1) 2 } =
      .ok (Bytes.ofUInt16 0 ++ Bytes.ofUInt16 3 ++ Bytes.ofUInt16 4 ++
          Encode.attributesBytes [⟨later.entries.size.toUInt16, data⟩],
        { later with
          entries := later.entries.push (.utf8 "Code")
          indices := later.indices.insert (.utf8 "Code") later.entries.size.toUInt16 }) := by
  have hempty : instructions.isEmpty = false := by simpa using hne
  have hfull : ¬65535 < later.entries.size + 1 := by omega
  simp only [poolBeforeCode, coded] at hcode
  simp [hcode, hempty, hnew, hfull, coded, PoolBuilder.utf8, PoolBuilder.add, Encode.textIndex,
    bind_run, map_run, Except.bind, Except.map, ConstantPool.pushEntry, PoolBuilder.maxSlots,
    PoolEntry.isWide, Encode.optionalText, Encode.annotationAttributes, Encode.annotationsAttribute,
    Encode.rawAttributes, Encode.method, Encode.codeAttribute, Encode.someClasses,
    Encode.parameterAnnotationsAttribute, Encode.annotationDefault, Encode.parametersAttribute,
    Encode.Attribute.named, -getElem?_pos]

/-- The class is written if the code of its method is, and so large is what is written. -/
theorem toBytes_ofMethod (hne : instructions ≠ [])
    (hcode : Encode.code {} false 52 "p/A" (coded instructions tryCatches) poolBeforeCode =
      .ok (data, later))
    (hnew : later.indices[PoolEntry.utf8 "Code"]? = none) (hroom : later.entries.size < 65535)
    (hbootstrap : later.bootstrap = #[]) :
    ∃ bytes, (ofMethod (coded instructions tryCatches)).toBytes {} = .ok bytes ∧
      bytes.length = (ConstantPool.bytesOfEntries (later.entries.push (.utf8 "Code"))).length +
        data.length + 36 := by
  have hmethod := method_run hne hcode hnew hroom
  simp [ofMethod, hmethod, hbootstrap, ClassNode.toBytes, Encode.classBody, Encode.initialPool,
    Encode.classIndex, PoolBuilder.class_, PoolBuilder.utf8, PoolBuilder.add, Encode.optional,
    Encode.counted, Encode.concatM, bind_run, map_run, get_run, pure_run, Except.bind, Except.map,
    StateT.run, ConstantPool.pushEntry, PoolBuilder.maxSlots, PoolEntry.isWide, Encode.optionalText,
    Encode.annotationAttributes, Encode.annotationsAttribute, Encode.rawAttributes,
    Encode.someClasses, Encode.classAttributes, Encode.innerClasses, Encode.enclosingMethod,
    Encode.nestHost, Encode.bootstrapMethods, -getElem?_pos]
  simp [Encode.attributesBytes, Encode.Attribute.bytes]
  omega

end

/-- The loop is written as code into every pool that has room for the name of its line table. -/
theorem exists_code_loop :
    ∃ data : UInt16 → List UInt8, (∀ index, (data index).length = 35) ∧ ∀ builder : PoolBuilder,
      builder.indices[PoolEntry.utf8 "LineNumberTable"]? = none → builder.entries.size < 65535 →
        Encode.code {} false 52 "p/A" MethodNode.loop builder =
          .ok (data builder.entries.size.toUInt16,
            { builder with
              entries := ConstantPool.pushEntry builder.entries (.utf8 "LineNumberTable")
              indices := builder.indices.insert (.utf8 "LineNumberTable")
                builder.entries.size.toUInt16 }) := by
  obtain ⟨hstart, hstop⟩ := MethodNode.labels_loop
  have hstart' : Encode.offsetOf (Encode.methodText "p/A" MethodNode.loop)
      MethodNode.loopLayout.labels ⟨0⟩ = .ok 0 := by
    rw [Encode.offsetOf, hstart]
  have hstop' : Encode.offsetOf (Encode.methodText "p/A" MethodNode.loop)
      MethodNode.loopLayout.labels ⟨1⟩ = .ok 3 := by
    rw [Encode.offsetOf, hstop]
  have hlines : ∀ (index : UInt16) (builder later : PoolBuilder),
      PoolBuilder.utf8 "LineNumberTable" builder = .ok (index, later) →
        Encode.lineNumbers [(0, 7)] builder = .ok ([⟨index, [0, 1, 0, 0, 0, 7]⟩], later) := by
    intro index builder later hname
    simp [Encode.lineNumbers, Encode.Attribute.named, map_run, hname, Except.map]
    rfl
  have hwrite : ∀ index : UInt16, ∃ data : List UInt8, data.length = 35 ∧ ∀ builder later,
      PoolBuilder.utf8 "LineNumberTable" builder = .ok (index, later) →
        Encode.code {} false 52 "p/A" MethodNode.loop builder = .ok (data, later) := by
    intro index
    refine ⟨_, ?_, fun builder later hname =>
      MethodNode.encode_code_of_steps (by simp [MethodNode.loop]) (MethodNode.layout_loop _ builder)
        (MethodNode.codeParts_loop hstart' builder) (MethodNode.handlers_loop hstart' hstop' builder)
        (hlines index builder later hname) rfl rfl rfl⟩
    rfl
  choose data hlength hdata using hwrite
  refine ⟨data, hlength, fun builder hnew hroom => hdata _ builder _ ?_⟩
  simp [PoolBuilder.utf8, PoolBuilder.add, hnew, PoolEntry.isWide, PoolBuilder.maxSlots]
  omega

theorem toBytes_loop :
    ∃ bytes, (ofMethod MethodNode.loop).toBytes {} = .ok bytes ∧ bytes.length < 4294967296 := by
  obtain ⟨data, hlength, hcode⟩ := exists_code_loop
  have hcode := hcode poolBeforeCode (by simp [poolBeforeCode]) (by simp [poolBeforeCode])
  obtain ⟨bytes, hbytes, hsize⟩ := toBytes_ofMethod (by simp) hcode (by simp [poolBeforeCode])
    (by simp [poolBeforeCode, ConstantPool.pushEntry, PoolEntry.isWide]) rfl
  refine ⟨bytes, hbytes, ?_⟩
  rw [hsize, hlength]
  simp only [poolBeforeCode, ConstantPool.pushEntry, PoolEntry.isWide]
  decide +kernel

/-- A class with a loop is read with its counts. -/
theorem sameCounts_loop :
    ∃ bytes back, (ofMethod MethodNode.loop).toBytes {} = .ok bytes ∧ ofBytes bytes = .ok back ∧
      (ofMethod MethodNode.loop).SameCounts back := by
  obtain ⟨bytes, hbytes, hsize⟩ := toBytes_loop
  have hfits : (ofMethod MethodNode.loop).FitsWith {} :=
    fitsWith_ofMethod (fits_coded _ _) MethodNode.codeFits_loop
  have hread := exists_sameCounts_iff hfits nofun hbytes hsize
  obtain ⟨back, hback, hsame⟩ := hread.2 (by
    intro method hmethod
    obtain rfl := List.mem_singleton.1 hmethod
    exact ⟨by decide, by simp [MethodNode.loop]⟩)
  exact ⟨bytes, back, hbytes, hback, hsame⟩

/-- The table switch whose bounds cross is written into every pool. -/
theorem exists_code_crossed : ∃ data : List UInt8, data.length = 28 ∧
    ∀ builder, Encode.code {} false 52 "p/A" MethodNode.crossed builder = .ok (data, builder) := by
  have hoffset : Encode.offsetOf (Encode.methodText "p/A" MethodNode.crossed)
      MethodNode.crossedLayout.labels ⟨0⟩ = .ok 0 := by
    simp [Encode.offsetOf, MethodNode.crossedLayout]
  refine ⟨_, ?_, fun builder => MethodNode.encode_code_of_steps (by simp [MethodNode.crossed])
    (MethodNode.layout_crossed _ builder) (MethodNode.codeParts_crossed hoffset builder) rfl rfl rfl rfl
    rfl⟩
  rfl

/-- A class with a table switch whose bounds cross is written, but what is written is not read. -/
theorem not_ofBytes_toBytes_crossed :
    ∃ bytes detail, (ofMethod MethodNode.crossed).toBytes {} = .ok bytes ∧
      ofBytes bytes = .error (.malformed "tableswitch" detail) := by
  obtain ⟨data, hlength, hcode⟩ := exists_code_crossed
  obtain ⟨bytes, hbytes, hsize⟩ := toBytes_ofMethod (by simp) (hcode poolBeforeCode)
    (by simp [poolBeforeCode]) (by simp [poolBeforeCode]) rfl
  have hsmall : bytes.length < 4294967296 := by
    rw [hsize, hlength]
    simp only [poolBeforeCode]
    decide +kernel
  have hfits : (ofMethod MethodNode.crossed).FitsWith {} :=
    fitsWith_ofMethod (fits_coded _ _) MethodNode.codeFits_crossed
  obtain ⟨detail, hread⟩ := hfits.ofBytes_of_crosses
    ⟨_, List.mem_singleton_self _, _, List.mem_cons_of_mem _ List.mem_cons_self, by decide⟩ hbytes hsmall
  exact ⟨bytes, detail, hbytes, hread⟩

end ClassNode
end JvmArchive
