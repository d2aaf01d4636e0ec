import JvmArchive.Proofs.ClassFile.Code.Labels
import JvmArchive.Proofs.ClassFile.Code.Layout
import JvmArchive.Proofs.ClassFile.Code.Opcodes
import JvmArchive.Proofs.ClassFile.Pieces

/-!
# Instructions read back

The bytes of an instruction at its offset are as many as the layout has counted, and they are read as
the instruction, with labels for the offsets of its targets.
-/
namespace JvmArchive.Encode
open PoolBuilder PoolWriter Reader Decode

/-- The second label is that of the offset of the first one. -/
def Meets (offset : Label → Except WriteError Nat) (table : LabelTable) (label label' : Label) : Prop :=
  ∃ place, offset label = .ok place ∧ table.label? place = some label'

/-- Labels stand at the places of the code, all of which two bytes can hold. -/
structure Mapped (offset : Label → Except WriteError Nat) (places : List Nat) : Prop where
  mem : ∀ {label : Label} {place : Nat}, offset label = .ok place → place ∈ places
  lt : ∀ place ∈ places, place < 65536

/-- What the layout promises about an entry: where it stands, and that jumps reach their targets. -/
structure Sited (offset : Label → Except WriteError Nat) (places : List Nat) (pc : Nat) (wide : Bool)
    (next : Instruction) : Prop extends Mapped offset places where
  pc_lt : pc < 65536
  widened : wide = true → ∃ op target, next = .jump op target ∧ canWiden op = true
  reaches : ∀ op target, next = .jump op target → wide = false → isWideOpcode op = false →
    ∀ place, offset target = .ok place → fitsInt16 ((place : Int) - pc) = true
  keys : ∀ default keys targets, next = .lookupSwitch default keys targets → keys.length < 65536

/-- The bytes are an opcode and operands that are read as the instruction. -/
def ReadsInstruction (offset : Label → Except WriteError Nat) (places : List Nat) (pc : Nat)
    (wide : Bool) (next : Instruction) (final : PoolBuilder) (bytes : List UInt8) : Prop :=
  ∃ op operands, bytes = op :: operands ∧
    instructionSize pc wide next final = .ok (bytes.length, final) ∧
    Asks places (Decode.instruction final.toPool pc op) operands fun table back =>
      Instruction.Matches (Meets offset table) next back

variable {offset : Label → Except WriteError Nat} {places : List Nat} {pc : Nat} {wide : Bool}
  {next : Instruction} {final : PoolBuilder}

theorem farTarget_ok {label : Label} {bytes : List UInt8}
    (h : farTarget offset pc label = .ok bytes) :
    ∃ place, offset label = .ok place ∧
      bytes = Bytes.ofUInt32 (Int32.ofInt ((place : Int) - pc)).toUInt32 := by
  unfold farTarget at h
  cases hplace : offset label with
  | error error =>
    rw [hplace] at h
    cases h
  | ok place =>
    rw [hplace] at h
    cases h
    exact ⟨place, rfl, rfl⟩

theorem nearTarget_ok {label : Label} {bytes : List UInt8}
    (h : nearTarget offset pc label = .ok bytes) :
    ∃ place, offset label = .ok place ∧
      bytes = Bytes.ofUInt16 (Int16.ofInt ((place : Int) - pc)).toUInt16 := by
  unfold nearTarget at h
  cases hplace : offset label with
  | error error =>
    rw [hplace] at h
    cases h
  | ok place =>
    rw [hplace] at h
    cases h
    exact ⟨place, rfl, rfl⟩

/-- A distance leads to the place that it was counted to. -/
theorem asks_branchFrom {place : Nat} {delta : Int32} (hplace : place ∈ places)
    (hdelta : delta.toInt = (place : Int) - pc) :
    Asks places (branchFrom pc delta) [] fun table label => table.label? place = some label := by
  have hsum : (pc : Int) + delta.toInt = (place : Int) := by omega
  rw [branchFrom, hsum]
  exact asks_labelAt hplace

theorem asks_farTarget (hsited : Sited offset places pc wide next) {label : Label}
    {bytes : List UInt8} (h : farTarget offset pc label = .ok bytes) :
    Asks places (liftM Reader.int32 >>= fun delta => branchFrom pc delta) bytes fun table label' =>
      Meets offset table label label' := by
  obtain ⟨place, hplace, rfl⟩ := farTarget_ok h
  have hmem := hsited.mem hplace
  have hlt := hsited.lt place hmem
  have hpc := hsited.pc_lt
  have hdelta : (Int32.ofInt ((place : Int) - pc)).toInt = (place : Int) - pc := by
    apply Int32.toInt_ofInt_of_le <;> omega
  rw [← List.append_nil (Bytes.ofUInt32 _)]
  apply asks_read (reads_int32 _)
  apply (asks_branchFrom hmem hdelta).mono
  intro table label' hlabel
  exact ⟨place, hplace, hlabel⟩

theorem asks_nearTarget (hsited : Sited offset places pc wide next) {label : Label}
    {bytes : List UInt8} (h : nearTarget offset pc label = .ok bytes)
    (hfits : ∀ place, offset label = .ok place → fitsInt16 ((place : Int) - pc) = true) :
    Asks places (liftM Reader.int16 >>= fun delta => branchFrom pc (Int16.toInt32 delta)) bytes
      fun table label' => Meets offset table label label' := by
  obtain ⟨place, hplace, rfl⟩ := nearTarget_ok h
  have hmem := hsited.mem hplace
  have hrange := hfits place hplace
  simp only [fitsInt16, Bool.and_eq_true, decide_eq_true_eq] at hrange
  have hdelta : (Int16.ofInt ((place : Int) - pc)).toInt32.toInt = (place : Int) - pc := by
    rw [Int16.toInt_toInt32]
    apply Int16.toInt_ofInt_of_le <;> omega
  rw [← List.append_nil (Bytes.ofUInt16 _)]
  apply asks_read (reads_int16 _)
  apply (asks_branchFrom hmem hdelta).mono
  intro table label' hlabel
  exact ⟨place, hplace, hlabel⟩

/-- An instruction without targets, all of whose operands are read in one go. -/
theorem readsInstruction_plain {α : Type} {reader : Reader α} {f : α → Instruction} {a : α}
    {op : Opcode} {operands : List UInt8}
    (hdecode : Decode.instruction final.toPool pc op = liftM reader >>= fun a => pure (f a))
    (h : Reads reader operands a) (hnext : f a = next) (htargets : next.targets = [])
    (hsize : instructionSize pc wide next final = .ok (operands.length + 1, final)) :
    ReadsInstruction offset places pc wide next final (op :: operands) := by
  refine ⟨op, operands, rfl, hsize, ?_⟩
  rw [hdecode]
  apply asks_read_pure h
  intro table
  rw [hnext]
  exact .plain htargets

theorem readsInstruction_int {op : Opcode} {operand : Int32} (h : (Instruction.int op operand).Fits) :
    ReadsInstruction offset places pc wide (.int op operand) final (op ::
      if op = Opcode.sipush then Bytes.ofUInt16 operand.toUInt32.toUInt16
      else [operand.toUInt32.toUInt8]) := by
  rcases h with ⟨rfl, hlow, hhigh⟩ | ⟨rfl, hlow, hhigh⟩ | ⟨rfl, hlow, hhigh⟩
  · have hread := reads_int8 operand.toUInt32.toUInt8.toInt8
    refine readsInstruction_plain rfl hread ?_ rfl rfl
    rw [Int32.toInt32_low8 ⟨hlow, hhigh⟩]
  · have hread := reads_int16 operand.toUInt32.toUInt16.toInt16
    refine readsInstruction_plain rfl hread ?_ rfl rfl
    rw [Int32.toInt32_low16 ⟨hlow, hhigh⟩]
  · have hread := reads_uint8 operand.toUInt32.toUInt8
    refine readsInstruction_plain rfl hread ?_ rfl rfl
    rw [Int32.ofNat_low8 ⟨hlow, hhigh⟩]

theorem reads_wide_variable {op : Opcode} {slot : UInt16} (h : Decode.isVariable op = true) :
    Reads (Decode.wide pc) (op :: Bytes.ofUInt16 slot) (.var op slot) := by
  have hne : (op == Opcode.iinc) = false := by
    apply beq_false_of_ne
    rintro rfl
    cases h
  unfold Decode.wide
  apply (reads_uint8 op).bind
  simp only [hne, h, if_true, Bool.false_eq_true, if_false]
  exact (reads_uint16 slot).bind_pure (reads_pure _)

theorem reads_wide_increment {slot : UInt16} {increment : Int16} :
    Reads (Decode.wide pc)
      (Opcode.iinc :: (Bytes.ofUInt16 slot ++ Bytes.ofUInt16 increment.toUInt16))
      (.iinc slot increment) := by
  unfold Decode.wide
  apply (reads_uint8 Opcode.iinc).bind
  exact (reads_uint16 slot).bind ((reads_int16 increment).bind_pure (reads_pure _))

theorem instruction_wide (pool : ConstantPool) (pc : Nat) :
    Decode.instruction pool pc Opcode.wide = liftM (Decode.wide pc) >>= fun next => pure next := by
  rw [bind_pure]
  rfl

theorem readsInstruction_var {op : Opcode} {slot : UInt16} (h : Decode.isVariable op = true) :
    ReadsInstruction offset places pc wide (.var op slot) final (variableBytes op slot) := by
  unfold variableBytes
  by_cases hshort : slot ≤ 3 ∧ op ≠ Opcode.ret
  · rw [if_pos hshort]
    refine ⟨_, [], rfl, ?_, ?_⟩
    · simp only [instructionSize, if_pos hshort]
      rfl
    · rw [instruction_short final.toPool pc hshort.1 h hshort.2]
      exact asks_pure fun _ => .plain rfl
  · rw [if_neg hshort]
    by_cases hbyte : slot ≤ 255
    · rw [if_pos hbyte]
      refine readsInstruction_plain (instruction_variable final.toPool pc h)
        (reads_uint8 slot.toUInt8) ?_ rfl ?_
      · rw [UInt16.toUInt16_low8 hbyte]
      · simp only [instructionSize, if_neg hshort, if_pos hbyte]
        rfl
    · rw [if_neg hbyte]
      refine readsInstruction_plain (instruction_wide final.toPool pc) (reads_wide_variable h) rfl rfl ?_
      simp only [instructionSize, if_neg hshort, if_neg hbyte]
      rfl

theorem readsInstruction_iinc {slot : UInt16} {increment : Int16} :
    ReadsInstruction offset places pc wide (.iinc slot increment) final
      (incrementBytes slot increment) := by
  unfold incrementBytes
  by_cases hshort : slot ≤ 255 ∧ fitsInt8 increment.toInt
  · rw [if_pos hshort]
    refine ⟨_, [slot.toUInt8, increment.toInt8.toUInt8], rfl, ?_, ?_⟩
    · simp only [instructionSize, if_pos hshort]
      rfl
    · apply asks_read (reads_uint8 slot.toUInt8)
      have hread := reads_int8 increment.toInt8
      apply asks_read_pure hread
      intro table
      rw [UInt16.toUInt16_low8 hshort.1, Int16.toInt16_low8 hshort.2]
      exact .plain rfl
  · rw [if_neg hshort]
    refine readsInstruction_plain (instruction_wide final.toPool pc) reads_wide_increment rfl rfl ?_
    simp only [instructionSize, if_neg hshort]
    rfl

/-- An index that leads to something, which the instruction is made of. -/
theorem readsInstruction_index {α : Type} {op : Opcode} {index : UInt16}
    {resolve : UInt16 → Except FormatError α} {f : α → Instruction} {a : α}
    (hdecode : Decode.instruction final.toPool pc op =
      liftM Reader.uint16 >>= fun index => liftM (resolve index) >>= fun a => pure (f a))
    (h : resolve index = .ok a) (hnext : f a = next) (htargets : next.targets = [])
    (hsize : instructionSize pc wide next final = .ok (3, final)) :
    ReadsInstruction offset places pc wide next final (op :: Bytes.ofUInt16 index) := by
  refine ⟨op, Bytes.ofUInt16 index, rfl, hsize, ?_⟩
  rw [hdecode, ← List.append_nil (Bytes.ofUInt16 index)]
  apply asks_read (reads_uint16 index)
  apply asks_lift h
  apply asks_pure
  intro table
  rw [hnext]
  exact .plain htargets

theorem yields_type {op : Opcode} {class_ : String} {written : Nat}
    (h : (Instruction.type op class_).Fits) :
    Yields (instruction offset pc written wide (.type op class_))
      (ReadsInstruction offset places pc wide (.type op class_)) := by
  apply (yields_classIndex h.2).bind_pure
  rintro final _ - ⟨index, rfl, -, hindex⟩
  exact readsInstruction_index (instruction_type final.toPool pc h.1) hindex rfl rfl rfl

theorem yields_fieldAccess {op : Opcode} {owner name desc : String} {written : Nat}
    (h : (Instruction.field op owner name desc).Fits) :
    Yields (instruction offset pc written wide (.field op owner name desc))
      (ReadsInstruction offset places pc wide (.field op owner name desc)) := by
  obtain ⟨hop, howner, hname, hdesc⟩ := h
  apply (yields_fieldRef howner hname hdesc).bind_pure
  intro final index _ hindex
  exact readsInstruction_index (instruction_field final.toPool pc hop) hindex.resolved rfl rfl rfl

theorem yields_ldc {constant : Constant} {written : Nat} (h : (Instruction.ldc constant).Fits) :
    Yields (instruction offset pc written wide (.ldc constant))
      (ReadsInstruction offset places pc wide (.ldc constant)) := by
  apply (yields_constant constant 32 h.1 (Nat.le_of_lt_succ h.2)).bind
  intro index
  by_cases hwide : constant.isWide
  · rw [if_pos hwide]
    apply yields_pure
    intro final _ hindex
    have hresolved : final.toPool.constant index = .ok constant := hindex.resolved
    refine readsInstruction_index rfl hresolved rfl rfl ?_
    simp only [instructionSize, if_pos hwide]
    rfl
  · rw [if_neg hwide]
    have hsize : ∀ final : PoolBuilder, PoolBuilder.constant constant final = .ok (index, final) →
        instructionSize pc wide (.ldc constant) final =
          .ok (if index > 255 then 3 else 2, final) := by
      intro final hsettled
      simp only [instructionSize, if_neg hwide]
      rw [bind_settled hsettled]
      rfl
    by_cases hlarge : index > 255
    · rw [if_pos hlarge]
      apply yields_pure
      intro final _ hindex
      have hresolved : final.toPool.constant index = .ok constant := hindex.resolved
      refine readsInstruction_index rfl hresolved rfl rfl ?_
      rw [hsize final hindex.settled, if_pos hlarge]
    · rw [if_neg hlarge]
      apply yields_pure
      intro final _ hindex
      refine ⟨Opcode.ldc, [index.toUInt8], rfl, ?_, ?_⟩
      · rw [hsize final hindex.settled, if_neg hlarge]
        rfl
      · have hsmall : index.toUInt8.toUInt16 = index :=
          UInt16.toUInt16_low8 (UInt16.not_lt.1 hlarge)
        have hresolved : final.toPool.constant index = .ok constant := hindex.resolved
        rw [← hsmall] at hresolved
        rw [← List.append_nil [index.toUInt8]]
        apply asks_read (reads_uint8 index.toUInt8)
        apply asks_lift hresolved
        exact asks_pure fun _ => .plain rfl

theorem reads_call {op : Opcode} {index : UInt16} {pool : ConstantPool} {owner name desc : String}
    {interface : Bool} (h : pool.member index = .ok ⟨owner, name, desc, interface⟩) (slots : UInt8) :
    Reads (call pool op)
      (Bytes.ofUInt16 index ++ if op = Opcode.invokeinterface then [slots, 0] else [])
      (.method op owner name desc interface) := by
  apply reads_index h
  by_cases hop : op = Opcode.invokeinterface
  · subst hop
    exact (reads_skip [slots, 0]).bind_pure (reads_pure _)
  · have hne : (op == Opcode.invokeinterface) = false := beq_false_of_ne hop
    simp only [hne, hop, Bool.false_eq_true, if_false]
    exact reads_pure _

theorem yields_call {op : Opcode} {owner name desc : String} {interface : Bool} {written : Nat}
    (h : (Instruction.method op owner name desc interface).Fits) :
    Yields (instruction offset pc written wide (.method op owner name desc interface))
      (ReadsInstruction offset places pc wide (.method op owner name desc interface)) := by
  obtain ⟨hop, howner, hname, hdesc⟩ := h
  apply (yields_methodRef interface howner hname hdesc).bind_pure
  intro final index _ hindex
  have hdecode : Decode.instruction final.toPool pc op =
      liftM (call final.toPool op) >>= fun next => pure next := by
    rw [bind_pure, instruction_invoke final.toPool pc hop]
  refine readsInstruction_plain hdecode (reads_call hindex.resolved _) rfl rfl ?_
  simp only [instructionSize]
  split <;> rfl

theorem yields_dynamicCall {name desc : String} {bootstrap : Handle} {arguments : List Constant}
    {written : Nat} (h : (Instruction.invokeDynamic name desc bootstrap arguments).Fits) :
    Yields (instruction offset pc written wide (.invokeDynamic name desc bootstrap arguments))
      (ReadsInstruction offset places pc wide (.invokeDynamic name desc bootstrap arguments)) := by
  obtain ⟨hname, hdesc, hbootstrap, hlength, harguments, hdepth⟩ := h
  apply (yields_invokeDynamic hname hdesc hbootstrap hlength harguments hdepth).bind_pure
  intro final index _ hindex
  have hread : Reads (dynamicCall final.toPool) (Bytes.ofUInt16 index ++ [0, 0])
      (.invokeDynamic name desc bootstrap arguments) := by
    apply (reads_uint16 index).bind
    exact (reads_skip [0, 0]).bind_pure ((reads_lift hindex.resolved).bind_nil (reads_pure _))
  have hdecode : Decode.instruction final.toPool pc Opcode.invokedynamic =
      liftM (dynamicCall final.toPool) >>= fun next => pure next := by
    rw [bind_pure]
    rfl
  exact readsInstruction_plain hdecode hread rfl rfl rfl

theorem yields_multiANewArray {desc : String} {dimensions : UInt8} {written : Nat}
    (h : (Instruction.multiANewArray desc dimensions).Fits) :
    Yields (instruction offset pc written wide (.multiANewArray desc dimensions))
      (ReadsInstruction offset places pc wide (.multiANewArray desc dimensions)) := by
  apply (yields_classIndex h).bind_pure
  rintro final _ - ⟨index, rfl, -, hindex⟩
  refine ⟨Opcode.multianewarray, Bytes.ofUInt16 index ++ [dimensions], rfl, rfl, ?_⟩
  apply asks_read (reads_uint16 index)
  apply asks_lift hindex
  apply asks_read_pure (reads_uint8 dimensions)
  exact fun _ => .plain rfl

theorem isFormOf_widened {op : Opcode} (h : canWiden op = true) :
    Instruction.IsFormOf op (widened op) ∧ isWideOpcode (widened op) = true := by
  have hcases : op = Opcode.goto ∨ op = Opcode.jsr := by
    simpa [canWiden] using h
  rcases hcases with rfl | rfl
  · exact ⟨.inr (.inl ⟨rfl, rfl⟩), rfl⟩
  · exact ⟨.inr (.inr ⟨rfl, rfl⟩), rfl⟩

theorem widened_of_isWideOpcode {op : Opcode} (h : isWideOpcode op = true) : widened op = op := by
  have hcases : op = Opcode.gotoW ∨ op = Opcode.jsrW := by
    simpa [isWideOpcode] using h
  rcases hcases with rfl | rfl <;> rfl

theorem yields_jump {op : Opcode} {target : Label} {written : Nat}
    (h : (Instruction.jump op target).Fits) :
    Yields (instruction offset pc written wide (.jump op target)) fun final bytes =>
      Sited offset places pc wide (.jump op target) →
        ReadsInstruction offset places pc wide (.jump op target) final bytes := by
  simp only [instruction]
  by_cases hwide : (wide || isWideOpcode op) = true
  · rw [if_pos hwide]
    apply yields_lift_bind
    intro operands hoperands
    apply yields_pure
    intro final _ hsited
    have hform : Instruction.IsFormOf op (widened op) ∧ isWideOpcode (widened op) = true := by
      cases hop : isWideOpcode op with
      | true =>
        rw [widened_of_isWideOpcode hop]
        exact ⟨.inl rfl, hop⟩
      | false =>
        rw [hop, Bool.or_false] at hwide
        obtain ⟨_, _, heq, hcan⟩ := hsited.widened hwide
        cases heq
        exact isFormOf_widened hcan
    refine ⟨widened op, operands, rfl, ?_, ?_⟩
    · obtain ⟨place, -, rfl⟩ := farTarget_ok hoperands
      simp only [instructionSize, if_pos hwide]
      rfl
    · have hasks := asks_farTarget hsited hoperands
      rw [instruction_far final.toPool pc hform.2, ← bind_assoc]
      apply hasks.bind_pure
      intro table label' hlabel
      exact .jump hform.1 hlabel
  · rw [if_neg hwide]
    apply yields_lift_bind
    intro operands hoperands
    apply yields_pure
    intro final _ hsited
    simp only [Bool.or_eq_true, not_or, Bool.not_eq_true] at hwide
    refine ⟨op, operands, rfl, ?_, ?_⟩
    · obtain ⟨place, -, rfl⟩ := nearTarget_ok hoperands
      simp only [instructionSize, hwide.1, hwide.2]
      rfl
    · have hreaches := hsited.reaches op target rfl hwide.1 hwide.2
      rw [instruction_near final.toPool pc h hwide.2, ← bind_assoc]
      apply (asks_nearTarget hsited hoperands hreaches).bind_pure
      intro table label' hlabel
      exact .jump (.inl rfl) hlabel

end JvmArchive.Encode
