import JvmArchive.ClassFile.Decode.Instruction
import JvmArchive.ClassFile.Encode.Instruction

/-!
# What opcodes announce

Which reader an opcode leads to, and operands that survive being cut to the width in which they are
written.
-/
namespace JvmArchive

/-- A property of bytes that can be checked for each of them. -/
theorem forall_opcode {p : Opcode → Prop} (h : ∀ n : Fin 256, p (UInt8.ofFin n)) (op : Opcode) : p op :=
  h op.toFin

namespace Decode

variable (pool : ConstantPool) (pc : Nat) {op : Opcode}

theorem instruction_simple (h : isSimple op = true) :
    instruction pool pc op = pure (.simple op) := by
  simp only [instruction, h, if_true]

/-- The classes of opcodes that the reader asks for one after the other exclude each other, but for the
wide jumps, which it asks for before all jumps. -/
theorem classes_disjoint (op : Opcode) :
    (isVariable op = true → isSimple op = false) ∧
    (op.isJump = true ∨ op.isFieldAccess = true ∨ op.isInvoke = true →
      isSimple op = false ∧ isVariable op = false ∧
        (decide (Opcode.iload0 ≤ op) && decide (op ≤ Opcode.aload3)) = false ∧
        (decide (Opcode.istore0 ≤ op) && decide (op ≤ Opcode.astore3)) = false) ∧
    (op.isFieldAccess = true ∨ op.isInvoke = true →
      (op == Opcode.gotoW || op == Opcode.jsrW) = false ∧ op.isJump = false) ∧
    (op.isInvoke = true → op.isFieldAccess = false) := by
  revert op
  apply forall_opcode
  decide +kernel

theorem instruction_variable (h : isVariable op = true) :
    instruction pool pc op =
      liftM Reader.uint8 >>= fun slot => pure (.var op (UInt8.toUInt16 slot)) := by
  simp only [instruction, h, (classes_disjoint op).1 h, if_true, Bool.false_eq_true, if_false]

theorem instruction_near (h : op.isJump = true) (hnear : Encode.isWideOpcode op = false) :
    instruction pool pc op = liftM Reader.int16 >>= fun delta =>
      branchFrom pc (Int16.toInt32 delta) >>= fun target => pure (.jump op target) := by
  obtain ⟨hsimple, hvariable, hload, hstore⟩ := (classes_disjoint op).2.1 (.inl h)
  have hwide : (op == Opcode.gotoW || op == Opcode.jsrW) = false := hnear
  simp only [instruction, hsimple, hvariable, hload, hstore, hwide, h, if_true, Bool.false_eq_true,
    if_false]

theorem instruction_far (hwide : Encode.isWideOpcode op = true) :
    instruction pool pc op = liftM Reader.int32 >>= fun delta =>
      branchFrom pc delta >>= fun target => pure (.jump op target) := by
  have hcases : op = Opcode.gotoW ∨ op = Opcode.jsrW := by
    simpa [Encode.isWideOpcode] using hwide
  rcases hcases with rfl | rfl <;> rfl

theorem instruction_field (h : op.isFieldAccess = true) :
    instruction pool pc op = liftM Reader.uint16 >>= fun index =>
      liftM (pool.member index) >>= fun member =>
        pure (.field op member.owner member.name member.desc) := by
  obtain ⟨hsimple, hvariable, hload, hstore⟩ := (classes_disjoint op).2.1 (.inr (.inl h))
  obtain ⟨hwide, hjump⟩ := (classes_disjoint op).2.2.1 (.inl h)
  simp only [instruction, hsimple, hvariable, hload, hstore, hwide, hjump, h, if_true,
    Bool.false_eq_true, if_false]

theorem instruction_invoke (h : op.isInvoke = true) :
    instruction pool pc op = liftM (call pool op) := by
  obtain ⟨hsimple, hvariable, hload, hstore⟩ := (classes_disjoint op).2.1 (.inr (.inr h))
  obtain ⟨hwide, hjump⟩ := (classes_disjoint op).2.2.1 (.inr h)
  have hfield := (classes_disjoint op).2.2.2 h
  simp only [instruction, hsimple, hvariable, hload, hstore, hwide, hjump, hfield, h, if_true,
    Bool.false_eq_true, if_false]

theorem instruction_type (h : op ∈ [Opcode.new, Opcode.anewarray, Opcode.checkcast, Opcode.instanceof]) :
    instruction pool pc op = liftM Reader.uint16 >>= fun index =>
      liftM (pool.className index) >>= fun class_ => pure (.type op class_) := by
  simp only [List.mem_cons, List.not_mem_nil, or_false] at h
  rcases h with rfl | rfl | rfl | rfl <;> rfl

/-- The short forms of loads and stores hold the long form and the slot. -/
theorem classes_of_short : ∀ slot : Fin 4, isVariable op = true → op ≠ Opcode.ret →
    let short := Encode.shortVariable op slot.val.toUInt16
    isSimple short = false ∧ isVariable short = false ∧
      if Opcode.iload0 ≤ short && short ≤ Opcode.aload3 then
        Opcode.iload + (short - Opcode.iload0) / 4 = op ∧
          ((short - Opcode.iload0) % 4).toUInt16 = slot.val.toUInt16
      else (Opcode.istore0 ≤ short && short ≤ Opcode.astore3) = true ∧
        Opcode.istore + (short - Opcode.istore0) / 4 = op ∧
          ((short - Opcode.istore0) % 4).toUInt16 = slot.val.toUInt16 := by
  revert op
  apply forall_opcode
  decide +kernel

theorem instruction_short {slot : UInt16} (hslot : slot ≤ 3) (h : isVariable op = true)
    (hret : op ≠ Opcode.ret) :
    instruction pool pc (Encode.shortVariable op slot) = pure (.var op slot) := by
  have hlt : slot.toNat < 4 := by
    rw [UInt16.le_iff_toNat_le] at hslot
    exact Nat.lt_succ_of_le hslot
  have hclasses := classes_of_short ⟨slot.toNat, hlt⟩ h hret
  have heq : slot.toNat.toUInt16 = slot := UInt16.ofNat_toNat
  rw [heq] at hclasses
  obtain ⟨hsimple, hvariable, hshort⟩ := hclasses
  simp only [instruction, hsimple, hvariable, Bool.false_eq_true, if_false]
  split at hshort
  next hload =>
    rw [if_pos hload, hshort.1, hshort.2]
  next hload =>
    rw [if_neg hload, if_pos hshort.1, hshort.2.1, hshort.2.2]

end Decode

/-! Operands that fit come back from the bytes that they are cut to. -/

theorem Int32.toInt32_low8 {operand : Int32} (h : -128 ≤ operand.toInt ∧ operand.toInt ≤ 127) :
    operand.toUInt32.toUInt8.toInt8.toInt32 = operand := by
  have hlow : operand.toUInt32.toUInt8.toInt8 = operand.toInt8 := by
    apply Int8.toBitVec_inj.1
    simp [BitVec.signExtend_eq_setWidth_of_le]
  apply Int32.toInt_inj.1
  rw [hlow, Int8.toInt_toInt32, Int32.toInt_toInt8, Int.bmod_def]
  split <;> omega

theorem Int32.toInt32_low16 {operand : Int32} (h : -32768 ≤ operand.toInt ∧ operand.toInt ≤ 32767) :
    operand.toUInt32.toUInt16.toInt16.toInt32 = operand := by
  have hlow : operand.toUInt32.toUInt16.toInt16 = operand.toInt16 := by
    apply Int16.toBitVec_inj.1
    simp [BitVec.signExtend_eq_setWidth_of_le]
  apply Int32.toInt_inj.1
  rw [hlow, Int16.toInt_toInt32, Int32.toInt_toInt16, Int.bmod_def]
  split <;> omega

theorem Int32.ofNat_low8 {operand : Int32} (h : 0 ≤ operand.toInt ∧ operand.toInt ≤ 255) :
    Int32.ofNat operand.toUInt32.toUInt8.toNat = operand := by
  have hword : operand.toInt = ((operand.toUInt32.toNat : Nat) : Int).bmod (2 ^ 32) :=
    BitVec.toInt_eq_toNat_bmod _
  have hlt := operand.toUInt32.toNat_lt
  have hsame : (operand.toUInt32.toNat : Int) = operand.toInt := by
    rw [Int.bmod_def] at hword
    split at hword <;> omega
  apply Int32.toInt_inj.1
  rw [UInt32.toNat_toUInt8, Int32.toInt_ofNat_of_lt] <;> omega

theorem Int16.toInt16_low8 {increment : Int16} (h : Encode.fitsInt8 increment.toInt = true) :
    increment.toInt8.toInt16 = increment := by
  simp only [Encode.fitsInt8, Bool.and_eq_true, decide_eq_true_eq] at h
  apply Int16.toInt_inj.1
  rw [Int8.toInt_toInt16, Int16.toInt_toInt8, Int.bmod_def]
  split <;> omega

theorem UInt16.toUInt16_low8 {slot : UInt16} (h : slot ≤ 255) : slot.toUInt8.toUInt16 = slot := by
  rw [UInt16.le_iff_toNat_le] at h
  apply UInt16.toNat_inj.1
  rw [UInt8.toNat_toUInt16, UInt16.toNat_toUInt8]
  exact Nat.mod_eq_of_lt (Nat.lt_succ_of_le h)

end JvmArchive
