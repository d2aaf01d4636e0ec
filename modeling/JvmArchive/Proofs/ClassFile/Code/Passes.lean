import JvmArchive.Proofs.ClassFile.Code.Resolved
import Mathlib.Data.Bool.Count

/-!
# Passes of the layout

Each pass but the last one makes at least one more jump wide, and only jumps that have a wide form become
wide, so there are not many passes. What the last pass leaves is a layout in which all offsets and sizes
agree, with each other and with the code that is written: an instruction is written with as many bytes as
counted, whatever else the pool has been asked for since. Only a lookup switch has to have as many keys as
targets, since its keys are counted and its rows are written. Main statement: `layout_within_passes`.
-/
namespace JvmArchive

/-- Whether the rows of a lookup switch have a key and a target each. -/
def Instruction.RowsMatch : Instruction → Prop
  | .lookupSwitch _ keys targets => keys.length = targets.length
  | _ => True

/-- How many slots of the pool are taken at most when an instruction is written after the layout. The
layout has asked for a constant that takes one stack slot, so that it is in the pool by then. -/
def Instruction.slots : Instruction → Nat
  | .type .. | .multiANewArray .. => 2
  | .field .. | .method .. => 6
  | .invokeDynamic _ _ _ arguments => 11 + Constant.slotsOf arguments
  | .ldc constant => if constant.isWide then constant.slots else 0
  | _ => 0

namespace Encode
open Instruction PoolBuilder PoolWriter

/-! ## The number of passes -/

/-- The layout of a method if it is found within so many passes. -/
def layoutWithin (method : String) (instructions : List Instruction) :
    Nat → List Bool → PoolWriter (Option Layout)
  | 0, _ => return none
  | passes + 1, wide => do
    let (layout, wider) ← pass method instructions wide
    if wider = wide then return some layout else layoutWithin method instructions passes wider

/-- Whether an instruction is a jump that can be made wide. -/
def canGrow : Instruction → Bool
  | .jump op _ => canWiden op
  | _ => false

/-- Not more jumps are wide than can be. -/
theorem Widens.count_le {instructions : List Instruction} {wide : List Bool}
    (h : Widens instructions wide) : wide.count true ≤ instructions.countP canGrow := by
  have hfst : (instructions.zip wide).map (·.1) = instructions :=
    List.map_fst_zip (Nat.le_of_eq h.length_eq.symm)
  have hsnd : (instructions.zip wide).map (·.2) = wide :=
    List.map_snd_zip (Nat.le_of_eq h.length_eq)
  calc wide.count true = (instructions.zip wide).countP (fun entry => entry.2 == true) := by
        rw [List.count, ← hsnd, List.countP_map, hsnd]
        rfl
    _ ≤ (instructions.zip wide).countP (fun entry => canGrow entry.1) := by
        refine List.countP_mono_left fun entry hentry htrue => ?_
        obtain ⟨op, target, hjump, hop⟩ := h.jumps entry hentry (by simpa using htrue)
        rw [hjump]
        exact hop
    _ = instructions.countP canGrow := by
        conv_rhs => rw [← hfst, List.countP_map]
        rfl

theorem layoutWithin_eq (name : String) {instructions : List Instruction} {passes : Nat}
    {wide : List Bool} (hwide : Widens instructions wide)
    (hpasses : instructions.countP canGrow < wide.count true + passes) :
    layoutWithin name instructions passes wide = some <$> layoutFrom name instructions wide := by
  induction passes generalizing wide with
  | zero =>
    have hle := hwide.count_le
    omega
  | succ passes ih =>
    funext builder
    rw [layoutFrom_eq, layoutWithin, bind_run, map_run, bind_run]
    cases hrun : pass name instructions wide builder with
    | error error => rfl
    | ok result =>
      obtain ⟨⟨layout, wider⟩, middle⟩ := result
      obtain ⟨heq, hpassed⟩ := (lasts_pass name hwide.length_eq builder middle _ hrun).2 middle (.refl _)
      dsimp only at heq hpassed
      subst heq
      obtain ⟨hwider, hforall⟩ := hpassed.widens hwide
      obtain ⟨hle, hsame⟩ := eq_of_count_false hforall
      simp only [Except.bind]
      by_cases hgrown : wider.count false < layout.wide.count false
      · have hne : wider ≠ layout.wide := by
          rintro rfl
          exact Nat.lt_irrefl _ hgrown
        -- What is not narrow is wide, so one pass less is enough from here.
        have hcounts := List.count_true_add_count_false wider
        have hcounts' := List.count_true_add_count_false layout.wide
        have hlengths : wider.length = layout.wide.length :=
          hwider.length_eq.trans hwide.length_eq.symm
        rw [if_neg hne, if_pos hgrown, ih hwider (by omega), map_run]
      · rw [if_pos (hsame hgrown), if_neg hgrown]
        rfl

/-! ## Offsets -/

/-- The offsets are the sums of the sizes before them. -/
theorem Fills.offsets {pool : PoolBuilder} {start stop : Nat} {cells : List (Instruction × Nat × Bool)}
    (h : Fills pool start cells stop) :
    ∃ sizes, List.Forall₂ (fun cell size =>
        instructionSize cell.2.1 cell.2.2 cell.1 pool = .ok (size, pool)) cells sizes ∧
      cells.map (·.2.1) = (List.range cells.length).map (fun i => start + (sizes.take i).sum) ∧
      stop = start + sizes.sum := by
  induction h with
  | nil pc => exact ⟨[], .nil, rfl, rfl⟩
  | @cons pc size stop wide next rest hsize _ ih =>
    obtain ⟨sizes, hsizes, hoffsets, hstop⟩ := ih
    refine ⟨size :: sizes, .cons hsize hsizes, ?_, ?_⟩
    · rw [List.map_cons, hoffsets, List.length_cons, List.range_succ_eq_map, List.map_cons,
        List.map_map]
      simp [Function.comp_def, Nat.add_assoc]
    · rw [hstop, List.sum_cons, Nat.add_assoc]

/-! ## Bytes -/

section
variable {offset : Label → Except WriteError Nat} {pc : Nat} {wide : Bool}

/-- Whether bytes are as many as the pool says of an instruction. -/
def IsMeasured (pc : Nat) (wide : Bool) (next : Instruction) (final : PoolBuilder)
    (bytes : List UInt8) : Prop :=
  instructionSize pc wide next final = .ok (bytes.length, final)

theorem length_farTarget {label : Label} {bytes : List UInt8}
    (h : farTarget offset pc label = .ok bytes) : bytes.length = 4 := by
  obtain ⟨destination, -, hbytes⟩ := exists_of_bind_ok h
  cases hbytes
  rfl

theorem length_nearTarget {label : Label} {bytes : List UInt8}
    (h : nearTarget offset pc label = .ok bytes) : bytes.length = 2 := by
  obtain ⟨destination, -, hbytes⟩ := exists_of_bind_ok h
  cases hbytes
  rfl

theorem length_lookupRow {row : Int32 × Label} {bytes : List UInt8}
    (h : (do return Bytes.ofUInt32 row.1.toUInt32 ++ (← farTarget offset pc row.2) :
      Except WriteError (List UInt8)) = .ok bytes) : bytes.length = 8 := by
  obtain ⟨target, htarget, hbytes⟩ := exists_of_bind_ok h
  cases hbytes
  rw [List.length_append, length_farTarget htarget]
  rfl

/-- Rows of one length. -/
theorem length_flatten_rows {α : Type} {row : α → Except WriteError (List UInt8)} {width : Nat}
    (hrow : ∀ item bytes, row item = .ok bytes → bytes.length = width) {items : List α}
    {rows : List (List UInt8)} (h : items.mapM row = .ok rows) :
    rows.flatten.length = width * items.length :=
  Bytes.length_flatten_const ((forall₂_of_mapM h).imp hrow).flip

theorem length_variableBytes (op : Opcode) (slot : UInt16) :
    instructionSize pc wide (.var op slot) = pure (variableBytes op slot).length := by
  rw [instructionSize, variableBytes]
  repeat' split
  all_goals rfl

theorem length_incrementBytes (slot : UInt16) (increment : Int16) :
    instructionSize pc wide (.iinc slot increment) = pure (incrementBytes slot increment).length := by
  rw [instructionSize, incrementBytes]
  split <;> rfl

/-- Two bytes for an index that a request gives. -/
theorem lasts_classIndex (name : String) :
    Lasts (classIndex name) fun _ bytes => bytes.length = 2 :=
  Lasts.bind (recalls_class name) fun _ => lasts_pure fun _ _ => rfl

theorem lasts_method (op : Opcode) (owner name desc : String) (interface : Bool) :
    Lasts (instruction offset pc pc wide (.method op owner name desc interface))
      (IsMeasured pc wide (.method op owner name desc interface)) := by
  refine Lasts.bind (recalls_methodRef owner name desc interface) fun _ => lasts_pure fun _ _ => ?_
  rw [IsMeasured, instructionSize]
  by_cases hinterface : op = Opcode.invokeinterface
  · rw [if_pos hinterface, if_pos hinterface]
    rfl
  · rw [if_neg hinterface, if_neg hinterface]
    rfl

theorem lasts_jump (op : Opcode) (target : Label) :
    Lasts (instruction offset pc pc wide (.jump op target))
      (IsMeasured pc wide (.jump op target)) := by
  rw [instruction]
  by_cases hwide : (wide || isWideOpcode op) = true
  · rw [if_pos hwide]
    refine lasts_lift_bind fun bytes hbytes => lasts_pure fun _ => ?_
    rw [IsMeasured, instructionSize, if_pos hwide, List.length_cons, length_farTarget hbytes]
    rfl
  · rw [if_neg hwide]
    refine lasts_lift_bind fun bytes hbytes => lasts_pure fun _ => ?_
    rw [IsMeasured, instructionSize, if_neg hwide, List.length_cons, length_nearTarget hbytes]
    rfl

/-- The pool gives a constant the same index whenever it is asked, so the short form is counted if and
only if it is written. -/
theorem lasts_ldc (constant : Constant) :
    Lasts (instruction offset pc pc wide (.ldc constant)) (IsMeasured pc wide (.ldc constant)) := by
  refine Lasts.bind (recalls_constant constant) fun index => ?_
  cases hconstant : constant.isWide with
  | true =>
    refine lasts_pure fun final _ => ?_
    rw [IsMeasured, instructionSize, hconstant]
    rfl
  | false =>
    rw [if_neg Bool.false_ne_true]
    by_cases hlarge : index > 255
    · rw [if_pos hlarge]
      refine lasts_pure fun final hindex => ?_
      rw [IsMeasured, instructionSize, hconstant, if_neg Bool.false_ne_true, bind_settled hindex,
        if_pos hlarge]
      rfl
    · rw [if_neg hlarge]
      refine lasts_pure fun final hindex => ?_
      rw [IsMeasured, instructionSize, hconstant, if_neg Bool.false_ne_true, bind_settled hindex,
        if_neg hlarge]
      rfl

theorem lasts_tableSwitch (low high : Int32) (default : Label) (targets : List Label) :
    Lasts (instruction offset pc pc wide (.tableSwitch low high default targets))
      (IsMeasured pc wide (.tableSwitch low high default targets)) := by
  refine lasts_lift_bind fun first hfirst => lasts_lift_bind fun rows hrows => lasts_pure fun final => ?_
  have hfar := length_farTarget hfirst
  have hflat := length_flatten_rows (fun _ _ => length_farTarget) hrows
  rw [IsMeasured, instructionSize]
  simp only [switchStart, List.length_append, List.length_cons, List.length_replicate,
    Bytes.length_ofUInt32, hfar, hflat]
  exact congrArg (fun size => Except.ok (size, final)) (by omega)

theorem lasts_lookupSwitch (default : Label) {keys : List Int32} {targets : List Label}
    (h : keys.length = targets.length) :
    Lasts (instruction offset pc pc wide (.lookupSwitch default keys targets))
      (IsMeasured pc wide (.lookupSwitch default keys targets)) := by
  refine lasts_lift_bind fun first hfirst => lasts_lift_bind fun rows hrows => lasts_pure fun final => ?_
  have hfar := length_farTarget hfirst
  have hflat := length_flatten_rows (fun _ _ => length_lookupRow) hrows
  have hzip : (keys.zip targets).length = keys.length := by rw [List.length_zip, ← h, Nat.min_self]
  rw [IsMeasured, instructionSize]
  simp only [switchStart, List.length_append, List.length_cons, List.length_replicate,
    Bytes.length_ofNat32, hfar, hflat, hzip]
  exact congrArg (fun size => Except.ok (size, final)) (by omega)

/-- What is written for an instruction is as long as it is counted from then on. -/
theorem lasts_instruction {next : Instruction} (h : next.RowsMatch) :
    Lasts (instruction offset pc pc wide next) (IsMeasured pc wide next) := by
  cases next with
  | int op operand =>
    refine lasts_pure fun _ => ?_
    rw [IsMeasured, instructionSize]
    split <;> rfl
  | var op slot => exact lasts_pure fun _ => by rw [IsMeasured, length_variableBytes]; rfl
  | iinc slot increment => exact lasts_pure fun _ => by rw [IsMeasured, length_incrementBytes]; rfl
  | type op name =>
    refine (lasts_classIndex name).bind fun bytes => lasts_pure fun _ hlength => ?_
    rw [IsMeasured, List.length_cons, hlength]
    rfl
  | field op owner name desc =>
    exact Lasts.bind (recalls_fieldRef owner name desc) fun _ => lasts_pure fun _ _ => rfl
  | method op owner name desc interface => exact lasts_method op owner name desc interface
  | invokeDynamic name desc bootstrap arguments =>
    exact Lasts.bind (recalls_invokeDynamic name desc bootstrap arguments) fun _ =>
      lasts_pure fun _ _ => rfl
  | jump op target => exact lasts_jump op target
  | ldc constant => exact lasts_ldc constant
  | tableSwitch low high default targets => exact lasts_tableSwitch low high default targets
  | lookupSwitch default keys targets => exact lasts_lookupSwitch default h
  | multiANewArray desc dimensions =>
    refine (lasts_classIndex desc).bind fun bytes => lasts_pure fun _ hlength => ?_
    rw [IsMeasured, List.length_cons, List.length_append, hlength]
    rfl
  | _ => exact lasts_pure fun _ => rfl

/-- An instruction that is written after its size has been counted, and maybe after other requests, gets
as many bytes as counted. -/
theorem length_of_counted {next : Instruction} (h : next.RowsMatch) {size : Nat}
    {counted builder later : PoolBuilder} {bytes : List UInt8}
    (hsize : instructionSize pc wide next counted = .ok (size, counted))
    (hextends : Extends counted builder)
    (hrun : instruction offset pc pc wide next builder = .ok (bytes, later)) :
    Extends builder later ∧ bytes.length = size := by
  obtain ⟨hlater, hbytes⟩ := lasts_instruction h builder later bytes hrun
  have hagain : instructionSize pc wide next later = .ok (size, later) :=
    (recalls_instructionSize pc wide next counted counted size hsize).2 later (hextends.trans hlater)
  rw [hbytes later (.refl later)] at hagain
  cases hagain
  exact ⟨hlater, rfl⟩

/-- A constant that the layout has asked for is in every pool beyond. -/
theorem constant_settled {constant : Constant} (h : constant.isWide = false) {size : Nat}
    {counted builder : PoolBuilder}
    (hsize : instructionSize pc wide (.ldc constant) counted = .ok (size, counted))
    (hextends : Extends counted builder) :
    ∃ index, PoolBuilder.constant constant builder = .ok (index, builder) := by
  rw [instructionSize, h, if_neg Bool.false_ne_true] at hsize
  obtain ⟨index, middle, hindex, hreturn⟩ := bind_ok hsize
  obtain rfl : middle = counted := by
    split at hreturn <;> cases hreturn <;> rfl
  exact ⟨index, (recalls_constant constant _ _ index hindex).2 builder hextends⟩

theorem needs_classIndex {builder : PoolBuilder} (name : String) :
    Needs builder (classIndex name) 2 :=
  (needs_class name).bind fun _ _ => needs_pure _

/-- An instruction finds room after the layout if the pool has as many slots left as it may take. -/
theorem needs_instruction (hoffset : ∀ label, offset label ≠ .error .constantPoolOverflow)
    {next : Instruction} {size written : Nat} {counted builder : PoolBuilder}
    (hsize : instructionSize pc wide next counted = .ok (size, counted))
    (hextends : Extends counted builder) :
    Needs builder (instruction offset pc written wide next) next.slots := by
  have hfar : ∀ label, farTarget offset pc label ≠ .error .constantPoolOverflow := fun label =>
    farTarget_ne_error (hoffset label)
  have hnear : ∀ label, nearTarget offset pc label ≠ .error .constantPoolOverflow := fun label =>
    nearTarget_ne_error (hoffset label)
  cases next with
  | type op name => exact (needs_classIndex name).bind fun _ _ => needs_pure _
  | field op owner name desc => exact (needs_fieldRef owner name desc).bind fun _ _ => needs_pure _
  | method op owner name desc interface =>
    exact (needs_methodRef owner name desc interface).bind fun _ _ => needs_pure _
  | invokeDynamic name desc bootstrap arguments =>
    exact (needs_invokeDynamic name desc bootstrap arguments).bind fun _ _ => needs_pure _
  | jump op target =>
    rw [instruction]
    split
    · exact (needs_lift (hfar target)).bind fun _ _ => needs_pure _
    · exact (needs_lift (hnear target)).bind fun _ _ => needs_pure _
  | ldc constant =>
    have hreturn : ∀ (index : UInt16) (middle : PoolBuilder), Needs middle
        (if constant.isWide then return Opcode.ldc2W :: Bytes.ofUInt16 index
          else if index > 255 then return Opcode.ldcW :: Bytes.ofUInt16 index
          else return [Opcode.ldc, index.toUInt8]) 0 := by
      intro index middle
      repeat' split
      all_goals exact needs_pure _
    rw [slots]
    cases hconstant : constant.isWide with
    | true => exact (needs_constant constant).bind hreturn
    | false =>
      obtain ⟨index, hindex⟩ := constant_settled hconstant hsize hextends
      exact (needs_settled hindex).bind hreturn
  | tableSwitch low high default targets =>
    refine Needs.bind (m := 0) (n := 0) (needs_lift (hfar default)) fun _ _ => ?_
    exact (needs_lift (mapM_ne_error fun target _ => hfar target)).bind fun _ _ => needs_pure _
  | lookupSwitch default keys targets =>
    have hrows : (keys.zip targets).mapM (fun row => do
        return Bytes.ofUInt32 row.1.toUInt32 ++ (← farTarget offset pc row.2)) ≠
          .error WriteError.constantPoolOverflow :=
      mapM_ne_error fun row _ => bind_ne_error (hfar row.2) fun _ h => by cases h
    refine Needs.bind (m := 0) (n := 0) (needs_lift (hfar default)) fun _ _ => ?_
    exact (needs_lift hrows).bind fun _ _ => needs_pure _
  | multiANewArray desc dimensions => exact (needs_classIndex desc).bind fun _ _ => needs_pure _
  | _ => exact needs_pure _

theorem Fills.of_append {pool : PoolBuilder} {start stop : Nat}
    {before after : List (Instruction × Nat × Bool)} (h : Fills pool start (before ++ after) stop) :
    ∃ middle, Fills pool start before middle ∧ Fills pool middle after stop := by
  induction before generalizing start with
  | nil => exact ⟨start, .nil start, h⟩
  | cons cell rest ih =>
    cases h with
    | cons hsize hrest =>
      obtain ⟨middle, hbefore, hafter⟩ := ih hrest
      exact ⟨middle, .cons hsize hbefore, hafter⟩

/-- Cells are written from where the code before them ends to where those behind them begin. -/
theorem size_of_codeParts {cells : List (Instruction × Nat × Bool)}
    (h : ∀ cell ∈ cells, cell.1.RowsMatch) {counted builder later : PoolBuilder}
    (hextends : Extends counted builder) {parts found : CodeParts} {stop : Nat}
    (hfills : Fills counted parts.size cells stop)
    (hchunks : parts.chunks.flatten.length = parts.size)
    (hrun : codeParts offset cells parts builder = .ok (found, later)) :
    Extends builder later ∧ found.size = stop ∧ found.chunks.flatten.length = stop := by
  induction cells generalizing parts builder with
  | nil =>
    cases hrun
    cases hfills
    exact ⟨.refl _, rfl, hchunks⟩
  | cons cell rest ih =>
    obtain ⟨next, pc, wide⟩ := cell
    obtain ⟨hnext, hrest⟩ := List.forall_mem_cons.1 h
    cases hfills with
    | @cons _ size _ _ _ _ hsize hfills =>
      cases next with
      | line number start =>
        cases instructionSize_pseudo rfl hsize
        obtain ⟨place, middle, hplace, hrun⟩ := bind_ok hrun
        cases hoffset : offset start with
        | error error =>
          rw [hoffset] at hplace
          cases hplace
        | ok found =>
          rw [hoffset] at hplace
          cases hplace
          refine ih hrest hextends ?_ ?_ hrun
          · exact hfills
          · exact hchunks
      | frame frame =>
        cases instructionSize_pseudo rfl hsize
        have hrun : codeParts offset rest
            { parts with frames := addFrame parts.size frame parts.frames } builder =
              .ok (found, later) := hrun
        refine ih hrest hextends ?_ ?_ hrun
        · exact hfills
        · exact hchunks
      | _ =>
        obtain ⟨bytes, middle, hbytes, hrun⟩ := bind_ok hrun
        obtain ⟨hmiddle, rfl⟩ := length_of_counted hnext hsize hextends hbytes
        obtain ⟨hlater, hfound⟩ := ih hrest (hextends.trans hmiddle) hfills
          (by simp [hchunks, Nat.add_comm]) hrun
        exact ⟨hmiddle.trans hlater, hfound⟩

/-- Cells find room after the layout if the pool has as many slots left as all of them may take. -/
theorem needs_codeParts (hoffset : ∀ label, offset label ≠ .error .constantPoolOverflow)
    {cells : List (Instruction × Nat × Bool)} (h : ∀ cell ∈ cells, cell.1.RowsMatch)
    {counted builder : PoolBuilder} (hextends : Extends counted builder) {parts : CodeParts} {stop : Nat}
    (hfills : Fills counted parts.size cells stop) :
    Needs builder (codeParts offset cells parts) (cells.map (·.1.slots)).sum := by
  induction cells generalizing parts builder with
  | nil => exact needs_pure _
  | cons cell rest ih =>
    obtain ⟨next, pc, wide⟩ := cell
    obtain ⟨hnext, hrest⟩ := List.forall_mem_cons.1 h
    rw [List.map_cons, List.sum_cons]
    cases hfills with
    | @cons _ size _ _ _ _ hsize hfills =>
      cases next with
      | line number start =>
        cases instructionSize_pseudo rfl hsize
        refine (needs_lift (hoffset start)).bind_of fun place middle hplace => ?_
        obtain rfl : middle = builder := by
          rw [ok_of_lift hplace] at hplace
          cases hplace
          rfl
        exact ih hrest hextends hfills
      | frame frame =>
        cases instructionSize_pseudo rfl hsize
        have hframe : Needs builder (codeParts offset rest
            { parts with frames := addFrame parts.size frame parts.frames })
            (rest.map (·.1.slots)).sum := ih hrest hextends hfills
        exact hframe.mono (Nat.le_add_left _ _)
      | _ =>
        refine (needs_instruction hoffset hsize hextends).bind_of fun bytes middle hbytes => ?_
        obtain ⟨hmiddle, rfl⟩ := length_of_counted hnext hsize hextends hbytes
        exact ih hrest (hextends.trans hmiddle) hfills

end

/-! ## The layout -/

/-- Whether writing instructions that have been laid out gives each one as many bytes as it is counted.
What keeps an instruction from being written is a target that is not placed or a pool without room for
what the instruction may add to it, so that all are written where neither is the case. -/
structure Emits (name : String) (cells : List (Instruction × Nat × Bool)) (pool : PoolBuilder)
    (layout : Layout) (sizes : List Nat) : Prop where
  each : ∀ before next pc wide after, cells = before ++ (next, pc, wide) :: after →
    ∀ parts builder, codeParts (offsetOf name layout.labels) before {} pool = .ok (parts, builder) →
      parts.size = pc ∧ parts.chunks.flatten.length = pc ∧
      (∀ bytes later, instruction (offsetOf name layout.labels) pc parts.size wide next builder =
        .ok (bytes, later) → sizes[before.length]? = some bytes.length) ∧
      ∀ error, instruction (offsetOf name layout.labels) pc parts.size wide next builder =
        .error error →
          (error = .constantPoolOverflow ∧ maxSlots < builder.entries.size + next.slots) ∨
          ∃ target ∈ next.targets, layout.labels[target]? = none ∧
            error = .unknownLabel name target.number
  written : (∀ cell ∈ cells, ∀ label ∈ cell.1.sought, (layout.labels[label]?).isSome) →
    pool.entries.size + (cells.map (·.1.slots)).sum ≤ maxSlots →
    ∃ parts builder, codeParts (offsetOf name layout.labels) cells {} pool = .ok (parts, builder)
  all : ∀ parts builder, codeParts (offsetOf name layout.labels) cells {} pool = .ok (parts, builder) →
    parts.size = layout.size ∧ parts.chunks.flatten.length = layout.size

/-- What a layout says of the instructions of a method, given their sizes and the pool that finding it has
left. -/
structure Consistent (name : String) (instructions : List Instruction) (pool : PoolBuilder)
    (layout : Layout) (sizes : List Nat) : Prop where
  listed : (layout.cells instructions).map (·.1) = instructions
  /-- Each instruction has its size at its own offset. -/
  measured : List.Forall₂ (fun cell size =>
    instructionSize cell.2.1 cell.2.2 cell.1 pool = .ok (size, pool)) (layout.cells instructions) sizes
  offsets : layout.offsets = (List.range instructions.length).map fun i => (sizes.take i).sum
  size_eq : layout.size = sizes.sum
  size_le : layout.size ≤ 65535
  labels : ∀ label, layout.labels[label]? = lastPlaced (layout.cells instructions) label
  length_wide : layout.wide.length = instructions.length
  wide : ∀ cell ∈ layout.cells instructions, cell.2.2 = true →
    ∃ op target, cell.1 = .jump op target ∧ (op = Opcode.goto ∨ op = Opcode.jsr)
  /-- A jump that has two bytes for its distance needs not more. -/
  near : ∀ op target pc, (.jump op target, pc, false) ∈ layout.cells instructions →
    op ≠ Opcode.gotoW → op ≠ Opcode.jsrW → ∃ destination : Nat,
      layout.labels[target]? = some destination ∧ -32768 ≤ (destination : Int) - pc ∧
        (destination : Int) - pc ≤ 32767
  emitted : (∀ next ∈ instructions, next.RowsMatch) →
    Emits name (layout.cells instructions) pool layout sizes

theorem offsetOf_eq_error_iff {name : String} {labels : Std.HashMap Label Nat} {label : Label}
    {error : WriteError} : offsetOf name labels label = .error error ↔
      labels[label]? = none ∧ error = .unknownLabel name label.number := by
  rw [offsetOf]
  split
  next offset hsome => simp [hsome]
  next hnone => simp [hnone, eq_comm]

theorem offsetOf_ne_overflow (name : String) (labels : Std.HashMap Label Nat) (label : Label) :
    offsetOf name labels label ≠ .error .constantPoolOverflow := by
  simp [offsetOf_eq_error_iff]

theorem emits_of_fills {name : String} {cells : List (Instruction × Nat × Bool)} {pool : PoolBuilder}
    {layout : Layout} {sizes : List Nat} (hrows : ∀ cell ∈ cells, cell.1.RowsMatch)
    (hfills : Fills pool 0 cells layout.size)
    (hsizes : List.Forall₂ (fun cell size =>
      instructionSize cell.2.1 cell.2.2 cell.1 pool = .ok (size, pool)) cells sizes) :
    Emits name cells pool layout sizes where
  each := by
    rintro before next pc wide after rfl parts builder hbefore
    obtain ⟨hfirst, hnext, -⟩ := List.forall_mem_append.1 hrows |>.imp_right List.forall_mem_cons.1
    obtain ⟨middle, hfills, hrest⟩ := hfills.of_append
    obtain ⟨rfl, size, hsize, -⟩ := hrest.cons_inv
    obtain ⟨hextends, hpc, hchunks⟩ := size_of_codeParts hfirst (.refl pool) hfills rfl hbefore
    refine ⟨hpc, hchunks, fun bytes later hrun => ?_, fun error hrun => ?_⟩
    · rw [hpc] at hrun
      obtain ⟨-, rfl⟩ := length_of_counted hnext hsize hextends hrun
      have hdrop := List.forall₂_drop before.length hsizes
      rw [List.drop_left] at hdrop
      obtain ⟨counted, rest, hcounted, -, hcons⟩ := List.forall₂_cons_left_iff.1 hdrop
      rw [hsize] at hcounted
      cases hcounted
      rw [← List.head?_drop, hcons]
      rfl
    · by_contra hother
      rw [not_or, not_and, not_lt, not_exists] at hother
      obtain ⟨hroom, hplaced⟩ := hother
      by_cases hpool : error = .constantPoolOverflow
      · rw [hpool] at hrun
        exact (needs_instruction (offsetOf_ne_overflow _ _) hsize hextends (hroom hpool)).1 hrun
      · refine avoids_instruction hpool pc parts.size wide (fun target htarget hoffset => ?_) builder hrun
        obtain ⟨hnone, rfl⟩ := offsetOf_eq_error_iff.1 hoffset
        exact hplaced target ⟨htarget, hnone, rfl⟩
  written := by
    intro hplaced hroom
    have hneeds : Needs pool (codeParts (offsetOf name layout.labels) cells {}) _ :=
      needs_codeParts (offsetOf_ne_overflow name layout.labels) hrows (.refl pool) hfills
    cases hrun : codeParts (offsetOf name layout.labels) cells {} pool with
    | ok result => exact ⟨result.1, result.2, rfl⟩
    | error error =>
      exfalso
      by_cases hpool : error = .constantPoolOverflow
      · exact (hneeds hroom).1 (hpool ▸ hrun)
      · refine avoids_codeParts hpool (fun cell hcell label hlabel hoffset => ?_) {} pool hrun
        have hnone := (offsetOf_eq_error_iff.1 hoffset).1
        have hsome := hplaced cell hcell label hlabel
        rw [hnone] at hsome
        cases hsome
  all := by
    intro parts builder hrun
    exact (size_of_codeParts hrows (.refl pool) hfills rfl hrun).2

theorem consistent_of_passed {name : String} {instructions : List Instruction} {pool : PoolBuilder}
    {layout : Layout} (hwide : Widens instructions layout.wide)
    (h : Passed name instructions pool layout layout.wide) :
    ∃ sizes, Consistent name instructions pool layout sizes := by
  have hlaid := h.laidOut hwide
  obtain ⟨sizes, hsizes, hoffsets, hstop⟩ := h.fills.offsets
  have hlength : (layout.cells instructions).length = instructions.length := by
    rw [← List.length_map (·.1), hlaid.entries]
  refine ⟨sizes, hlaid.entries, hsizes, ?_, ?_, hlaid.size_le, fun label => ?_, hwide.length_eq, ?_, ?_,
    fun hrows => emits_of_fills ?_ h.fills hsizes⟩
  · have hsnd : (layout.cells instructions).map (·.2) = layout.offsets.zip layout.wide :=
      List.map_snd_zip (by simp [h.length_offsets])
    have hfst : (layout.offsets.zip layout.wide).map (·.1) = layout.offsets :=
      List.map_fst_zip (by rw [h.length_offsets, hwide.length_eq])
    simp only [Nat.zero_add] at hoffsets
    rw [← hfst, ← hsnd, List.map_map, ← hlength]
    exact hoffsets
  · simpa using hstop
  · exact h.labels.last_eq h.fills label
  · intro cell hcell htrue
    obtain ⟨op, target, hjump, hop⟩ := hlaid.widened cell hcell htrue
    exact ⟨op, target, hjump, by simpa [canWiden] using hop⟩
  · intro op target pc hcell hgoto hjsr
    have hnarrow : isWideOpcode op = false := by simp [isWideOpcode, hgoto, hjsr]
    obtain ⟨destination, hdestination, hfits⟩ := reaches_of_mustWiden (hlaid.settled _ hcell) hnarrow
    exact ⟨destination, hdestination, by simpa [fitsInt16] using hfits⟩
  · intro cell hcell
    exact hrows _ (List.of_mem_zip hcell).1

/-- The layout of a method is found within one pass more than the method has jumps that can be made wide,
or is found not to exist. In a layout that is found each offset is the sum of the sizes of the instructions
before it at their own offsets, a label has the offset where it has been put last, only `goto` and `jsr`
are wide, every other jump with two bytes for its distance reaches its target, and the code is not too
long. Writing the instructions in order gives each one as many bytes as counted. -/
theorem layout_within_passes (name : String) (instructions : List Instruction) :
    layoutWithin name instructions (instructions.countP canGrow + 1) (instructions.map fun _ => false) =
        some <$> layout name instructions ∧
      ∀ builder layout pool, Encode.layout name instructions builder = .ok (layout, pool) →
        ∃ sizes, Consistent name instructions pool layout sizes := by
  have hwide := widens_none instructions
  refine ⟨layoutWithin_eq name hwide (by omega), fun builder layout pool hrun => ?_⟩
  obtain ⟨hfinal, hpassed⟩ := (lasts_layoutFrom name hwide builder pool layout hrun).2 pool (.refl pool)
  exact consistent_of_passed hfinal hpassed

/-- A jump over a switch. -/
def leap (targets : List Label) : List Instruction :=
  [.jump Opcode.goto ⟨0⟩, .tableSwitch 0 8199 ⟨0⟩ targets, .label ⟨0⟩]

/-- Where the jump, the switch and the label come to stand, in whichever form the jump is. -/
def leapLayout (wide : Bool) (start stop : Nat) : Layout where
  offsets := [0, start, stop]
  labels := (∅ : Std.HashMap Label Nat).insert ⟨0⟩ stop
  size := stop
  wide := [wide, false, false]

/-- A pass over the jump makes it wide if the switch is too long for its short form. -/
theorem pass_leap (targets : List Label) (builder : PoolBuilder) (wide : Bool) {start stop : Nat}
    (hstart : start = if wide then 5 else 3)
    (hstop : stop = start + (1 + switchPadding start + 12 + 4 * targets.length))
    (hsize : stop ≤ maxCodeSize) :
    pass "m" (leap targets) [wide, false, false] builder =
      .ok ((leapLayout wide start stop, [wide || !fitsInt16 stop, false, false]), builder) := by
  have hlabel : (leapLayout wide start stop).labels[(⟨0⟩ : Label)]? = some stop :=
    Std.HashMap.getElem?_insert_self
  have hjump : mustWiden "m" (leapLayout wide start stop).labels ((.jump Opcode.goto ⟨0⟩, wide), 0) =
      .ok (wide || !fitsInt16 stop) := by
    cases wide with
    | true => rfl
    | false =>
      simp only [mustWiden, hlabel]
      cases hfits : fitsInt16 stop with
      | true => simp [hfits]
      | false =>
        simp [hfits]
        rfl
  change pass "m" (leap targets) (leapLayout wide start stop).wide builder = _
  refine pass_run ?_ hsize ?_
  · subst hstart hstop
    cases wide <;> rfl
  · simp only [leap, leapLayout, List.zip_cons_cons, List.zip_nil_left, List.mapM_cons] at hjump ⊢
    rw [hjump]
    rfl

theorem rowsMatch_leap (targets : List Label) : ∀ next ∈ leap targets, next.RowsMatch := by
  simp [leap, RowsMatch]

theorem sought_leap {targets : List Label} (h : ∀ target ∈ targets, target = ⟨0⟩) :
    ∀ next ∈ leap targets, ∀ label ∈ next.sought, label = ⟨0⟩ := by
  simpa [leap, sought, Instruction.targets] using h

theorem layout_leap {targets : List Label} (h : targets.length = 8200) (builder : PoolBuilder) :
    layout "m" (leap targets) builder = .ok (leapLayout true 5 32820, builder) := by
  have hfirst := pass_leap targets builder false rfl rfl (by rw [h]; decide)
  have hsecond := pass_leap targets builder true rfl rfl (by rw [h]; decide)
  rw [h] at hfirst hsecond
  have hwide : layout "m" (leap targets) = layoutFrom "m" (leap targets) [false, false, false] := rfl
  rw [hwide, layoutFrom_eq, bind_run, hfirst]
  change layoutFrom "m" (leap targets) [true, false, false] builder = _
  rw [layoutFrom_eq, bind_run, hsecond]
  rfl

/-- Whatever is written for the long jump, the switch and the label has the bytes counted. -/
theorem codeParts_leap {targets : List Label} {pool later : PoolBuilder} {parts : CodeParts}
    (h : Consistent "m" (leap targets) pool (leapLayout true 5 32820) [5, 32815, 0])
    (hrun : codeParts (offsetOf "m" (leapLayout true 5 32820).labels)
      ((leapLayout true 5 32820).cells (leap targets)) {} pool = .ok (parts, later)) :
    parts.size = 32820 ∧ parts.chunks.reverse.map List.length = [5, 32815, 0] := by
  have hemits := h.emitted (rowsMatch_leap targets)
  obtain ⟨jump, first, hjump, hrest⟩ := bind_ok hrun
  obtain ⟨switch, second, hswitch, hrest⟩ := bind_ok hrest
  obtain ⟨label, third, hlabel, hrest⟩ := bind_ok hrest
  have hsizeJump := (hemits.each [] _ _ _ _ rfl {} pool rfl).2.2.1 jump first hjump
  have hafterJump : codeParts (offsetOf "m" (leapLayout true 5 32820).labels)
      [(.jump Opcode.goto ⟨0⟩, 0, true)] {} pool =
        .ok ({ chunks := [jump], size := 0 + jump.length }, first) := by
    simp only [codeParts, bind_run, hjump]
    rfl
  have hsizeSwitch := (hemits.each [_] _ _ _ _ rfl _ first hafterJump).2.2.1 switch second hswitch
  cases hlabel
  cases hrest
  have hjumpLength : 5 = jump.length := Option.some.inj hsizeJump
  have hswitchLength : 32815 = switch.length := Option.some.inj hsizeSwitch
  refine ⟨(hemits.all _ _ hrun).1, ?_⟩
  simp [← hjumpLength, ← hswitchLength]

/-- The long jump takes two passes, and its layout is consistent; behind its wide form the switch has two
bytes of padding, and behind its short form none. The instructions are written with the bytes counted. -/
theorem layout_within_passes_leap :
    let instructions := leap (List.replicate 8200 ⟨0⟩)
    let layout := leapLayout true 5 32820
    Encode.layout "m" instructions {} = .ok (layout, {}) ∧
      (∀ next ∈ instructions, next.RowsMatch) ∧
      layoutWithin "m" instructions 2 [false, false, false] {} = .ok (some layout, {}) ∧
      Consistent "m" instructions {} layout [5, 32815, 0] ∧
      ∃ parts builder, codeParts (offsetOf "m" layout.labels) (layout.cells instructions) {} {} =
          .ok (parts, builder) ∧
        parts.size = 32820 ∧ parts.chunks.reverse.map List.length = [5, 32815, 0] := by
  intro instructions layout
  have htargets : (List.replicate 8200 (⟨0⟩ : Label)).length = 8200 := List.length_replicate
  have hlayout := layout_leap htargets {}
  obtain ⟨hpasses, hconsistent⟩ := layout_within_passes "m" instructions
  obtain ⟨sizes, hsizes⟩ := hconsistent {} _ {} hlayout
  obtain rfl : sizes = [5, 32815, 0] := by
    obtain ⟨first, second, third, rfl⟩ := List.length_eq_three.1 hsizes.measured.length_eq.symm
    have hoffsets := hsizes.offsets
    have hsize := hsizes.size_eq
    have hlength : instructions.length = 3 := rfl
    simp [leapLayout, hlength, List.range_succ] at hoffsets hsize
    obtain ⟨rfl, hsecond⟩ := hoffsets
    obtain rfl : second = 32815 := by omega
    obtain rfl : third = 0 := by omega
    rfl
  have hplaced : ∀ cell ∈ layout.cells instructions, ∀ label ∈ cell.1.sought,
      (layout.labels[label]?).isSome := by
    have hlabel : layout.labels[(⟨0⟩ : Label)]? = some 32820 := Std.HashMap.getElem?_insert_self
    intro cell hcell label hsought
    rw [sought_leap (fun _ => List.eq_of_mem_replicate) _ (List.of_mem_zip hcell).1 label hsought, hlabel]
    rfl
  have hemits := hsizes.emitted (rowsMatch_leap _)
  obtain ⟨parts, builder, hwritten⟩ := hemits.written hplaced (by decide)
  refine ⟨hlayout, rowsMatch_leap _, ?_, hsizes, parts, builder, hwritten, codeParts_leap hsizes hwritten⟩
  have hrun := congrFun hpasses {}
  rw [map_run, hlayout] at hrun
  exact hrun

end Encode
end JvmArchive
