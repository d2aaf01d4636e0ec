/-!
# Opcodes

Instruction bytes of the virtual machine and their classification. An instruction list holds only
long forms (`iload 0`, never `iload_0`): decoding expands the short forms and encoding picks the
shortest one again.
-/
namespace JvmArchive

/-- An instruction byte. Every byte is admitted; those without a meaning have no mnemonic. -/
abbrev Opcode := UInt8

namespace Opcode

@[match_pattern] abbrev nop : Opcode := 0x00
@[match_pattern] abbrev aconstNull : Opcode := 0x01
@[match_pattern] abbrev iconstM1 : Opcode := 0x02
@[match_pattern] abbrev iconst0 : Opcode := 0x03
@[match_pattern] abbrev iconst1 : Opcode := 0x04
@[match_pattern] abbrev iconst2 : Opcode := 0x05
@[match_pattern] abbrev iconst3 : Opcode := 0x06
@[match_pattern] abbrev iconst4 : Opcode := 0x07
@[match_pattern] abbrev iconst5 : Opcode := 0x08
@[match_pattern] abbrev lconst0 : Opcode := 0x09
@[match_pattern] abbrev lconst1 : Opcode := 0x0a
@[match_pattern] abbrev fconst0 : Opcode := 0x0b
@[match_pattern] abbrev fconst1 : Opcode := 0x0c
@[match_pattern] abbrev fconst2 : Opcode := 0x0d
@[match_pattern] abbrev dconst0 : Opcode := 0x0e
@[match_pattern] abbrev dconst1 : Opcode := 0x0f
@[match_pattern] abbrev bipush : Opcode := 0x10
@[match_pattern] abbrev sipush : Opcode := 0x11
@[match_pattern] abbrev ldc : Opcode := 0x12
@[match_pattern] abbrev ldcW : Opcode := 0x13
@[match_pattern] abbrev ldc2W : Opcode := 0x14
@[match_pattern] abbrev iload : Opcode := 0x15
@[match_pattern] abbrev lload : Opcode := 0x16
@[match_pattern] abbrev fload : Opcode := 0x17
@[match_pattern] abbrev dload : Opcode := 0x18
@[match_pattern] abbrev aload : Opcode := 0x19
@[match_pattern] abbrev iload0 : Opcode := 0x1a
@[match_pattern] abbrev aload3 : Opcode := 0x2d
@[match_pattern] abbrev iaload : Opcode := 0x2e
@[match_pattern] abbrev laload : Opcode := 0x2f
@[match_pattern] abbrev faload : Opcode := 0x30
@[match_pattern] abbrev daload : Opcode := 0x31
@[match_pattern] abbrev aaload : Opcode := 0x32
@[match_pattern] abbrev baload : Opcode := 0x33
@[match_pattern] abbrev caload : Opcode := 0x34
@[match_pattern] abbrev saload : Opcode := 0x35
@[match_pattern] abbrev istore : Opcode := 0x36
@[match_pattern] abbrev lstore : Opcode := 0x37
@[match_pattern] abbrev fstore : Opcode := 0x38
@[match_pattern] abbrev dstore : Opcode := 0x39
@[match_pattern] abbrev astore : Opcode := 0x3a
@[match_pattern] abbrev istore0 : Opcode := 0x3b
@[match_pattern] abbrev astore3 : Opcode := 0x4e
@[match_pattern] abbrev iastore : Opcode := 0x4f
@[match_pattern] abbrev lastore : Opcode := 0x50
@[match_pattern] abbrev fastore : Opcode := 0x51
@[match_pattern] abbrev dastore : Opcode := 0x52
@[match_pattern] abbrev aastore : Opcode := 0x53
@[match_pattern] abbrev bastore : Opcode := 0x54
@[match_pattern] abbrev castore : Opcode := 0x55
@[match_pattern] abbrev sastore : Opcode := 0x56
@[match_pattern] abbrev pop : Opcode := 0x57
@[match_pattern] abbrev pop2 : Opcode := 0x58
@[match_pattern] abbrev dup : Opcode := 0x59
@[match_pattern] abbrev dupX1 : Opcode := 0x5a
@[match_pattern] abbrev dupX2 : Opcode := 0x5b
@[match_pattern] abbrev dup2 : Opcode := 0x5c
@[match_pattern] abbrev dup2X1 : Opcode := 0x5d
@[match_pattern] abbrev dup2X2 : Opcode := 0x5e
@[match_pattern] abbrev swap : Opcode := 0x5f
@[match_pattern] abbrev iadd : Opcode := 0x60
@[match_pattern] abbrev ladd : Opcode := 0x61
@[match_pattern] abbrev fadd : Opcode := 0x62
@[match_pattern] abbrev dadd : Opcode := 0x63
@[match_pattern] abbrev isub : Opcode := 0x64
@[match_pattern] abbrev lsub : Opcode := 0x65
@[match_pattern] abbrev fsub : Opcode := 0x66
@[match_pattern] abbrev dsub : Opcode := 0x67
@[match_pattern] abbrev imul : Opcode := 0x68
@[match_pattern] abbrev lmul : Opcode := 0x69
@[match_pattern] abbrev fmul : Opcode := 0x6a
@[match_pattern] abbrev dmul : Opcode := 0x6b
@[match_pattern] abbrev idiv : Opcode := 0x6c
@[match_pattern] abbrev ldiv : Opcode := 0x6d
@[match_pattern] abbrev fdiv : Opcode := 0x6e
@[match_pattern] abbrev ddiv : Opcode := 0x6f
@[match_pattern] abbrev irem : Opcode := 0x70
@[match_pattern] abbrev lrem : Opcode := 0x71
@[match_pattern] abbrev frem : Opcode := 0x72
@[match_pattern] abbrev drem : Opcode := 0x73
@[match_pattern] abbrev ineg : Opcode := 0x74
@[match_pattern] abbrev lneg : Opcode := 0x75
@[match_pattern] abbrev fneg : Opcode := 0x76
@[match_pattern] abbrev dneg : Opcode := 0x77
@[match_pattern] abbrev ishl : Opcode := 0x78
@[match_pattern] abbrev lshl : Opcode := 0x79
@[match_pattern] abbrev ishr : Opcode := 0x7a
@[match_pattern] abbrev lshr : Opcode := 0x7b
@[match_pattern] abbrev iushr : Opcode := 0x7c
@[match_pattern] abbrev lushr : Opcode := 0x7d
@[match_pattern] abbrev iand : Opcode := 0x7e
@[match_pattern] abbrev land : Opcode := 0x7f
@[match_pattern] abbrev ior : Opcode := 0x80
@[match_pattern] abbrev lor : Opcode := 0x81
@[match_pattern] abbrev ixor : Opcode := 0x82
@[match_pattern] abbrev lxor : Opcode := 0x83
@[match_pattern] abbrev iinc : Opcode := 0x84
@[match_pattern] abbrev i2l : Opcode := 0x85
@[match_pattern] abbrev i2f : Opcode := 0x86
@[match_pattern] abbrev i2d : Opcode := 0x87
@[match_pattern] abbrev l2i : Opcode := 0x88
@[match_pattern] abbrev l2f : Opcode := 0x89
@[match_pattern] abbrev l2d : Opcode := 0x8a
@[match_pattern] abbrev f2i : Opcode := 0x8b
@[match_pattern] abbrev f2l : Opcode := 0x8c
@[match_pattern] abbrev f2d : Opcode := 0x8d
@[match_pattern] abbrev d2i : Opcode := 0x8e
@[match_pattern] abbrev d2l : Opcode := 0x8f
@[match_pattern] abbrev d2f : Opcode := 0x90
@[match_pattern] abbrev i2b : Opcode := 0x91
@[match_pattern] abbrev i2c : Opcode := 0x92
@[match_pattern] abbrev i2s : Opcode := 0x93
@[match_pattern] abbrev lcmp : Opcode := 0x94
@[match_pattern] abbrev fcmpl : Opcode := 0x95
@[match_pattern] abbrev fcmpg : Opcode := 0x96
@[match_pattern] abbrev dcmpl : Opcode := 0x97
@[match_pattern] abbrev dcmpg : Opcode := 0x98
@[match_pattern] abbrev ifeq : Opcode := 0x99
@[match_pattern] abbrev ifne : Opcode := 0x9a
@[match_pattern] abbrev iflt : Opcode := 0x9b
@[match_pattern] abbrev ifge : Opcode := 0x9c
@[match_pattern] abbrev ifgt : Opcode := 0x9d
@[match_pattern] abbrev ifle : Opcode := 0x9e
@[match_pattern] abbrev ifIcmpeq : Opcode := 0x9f
@[match_pattern] abbrev ifIcmpne : Opcode := 0xa0
@[match_pattern] abbrev ifIcmplt : Opcode := 0xa1
@[match_pattern] abbrev ifIcmpge : Opcode := 0xa2
@[match_pattern] abbrev ifIcmpgt : Opcode := 0xa3
@[match_pattern] abbrev ifIcmple : Opcode := 0xa4
@[match_pattern] abbrev ifAcmpeq : Opcode := 0xa5
@[match_pattern] abbrev ifAcmpne : Opcode := 0xa6
@[match_pattern] abbrev goto : Opcode := 0xa7
@[match_pattern] abbrev jsr : Opcode := 0xa8
@[match_pattern] abbrev ret : Opcode := 0xa9
@[match_pattern] abbrev tableswitch : Opcode := 0xaa
@[match_pattern] abbrev lookupswitch : Opcode := 0xab
@[match_pattern] abbrev ireturn : Opcode := 0xac
@[match_pattern] abbrev lreturn : Opcode := 0xad
@[match_pattern] abbrev freturn : Opcode := 0xae
@[match_pattern] abbrev dreturn : Opcode := 0xaf
@[match_pattern] abbrev areturn : Opcode := 0xb0
@[match_pattern] abbrev returnVoid : Opcode := 0xb1
@[match_pattern] abbrev getstatic : Opcode := 0xb2
@[match_pattern] abbrev putstatic : Opcode := 0xb3
@[match_pattern] abbrev getfield : Opcode := 0xb4
@[match_pattern] abbrev putfield : Opcode := 0xb5
@[match_pattern] abbrev invokevirtual : Opcode := 0xb6
@[match_pattern] abbrev invokespecial : Opcode := 0xb7
@[match_pattern] abbrev invokestatic : Opcode := 0xb8
@[match_pattern] abbrev invokeinterface : Opcode := 0xb9
@[match_pattern] abbrev invokedynamic : Opcode := 0xba
@[match_pattern] abbrev new : Opcode := 0xbb
@[match_pattern] abbrev newarray : Opcode := 0xbc
@[match_pattern] abbrev anewarray : Opcode := 0xbd
@[match_pattern] abbrev arraylength : Opcode := 0xbe
@[match_pattern] abbrev athrow : Opcode := 0xbf
@[match_pattern] abbrev checkcast : Opcode := 0xc0
@[match_pattern] abbrev instanceof : Opcode := 0xc1
@[match_pattern] abbrev monitorenter : Opcode := 0xc2
@[match_pattern] abbrev monitorexit : Opcode := 0xc3
@[match_pattern] abbrev wide : Opcode := 0xc4
@[match_pattern] abbrev multianewarray : Opcode := 0xc5
@[match_pattern] abbrev ifnull : Opcode := 0xc6
@[match_pattern] abbrev ifnonnull : Opcode := 0xc7
@[match_pattern] abbrev gotoW : Opcode := 0xc8
@[match_pattern] abbrev jsrW : Opcode := 0xc9

/-- The mnemonics of the opcodes from 0 on. -/
def mnemonics : Array String :=
  #[
    "nop", "aconst_null", "iconst_m1", "iconst_0", "iconst_1", "iconst_2", "iconst_3",
    "iconst_4", "iconst_5", "lconst_0", "lconst_1", "fconst_0", "fconst_1", "fconst_2",
    "dconst_0", "dconst_1", "bipush", "sipush", "ldc", "ldc_w", "ldc2_w", "iload", "lload",
    "fload", "dload", "aload", "iload_0", "iload_1", "iload_2", "iload_3", "lload_0", "lload_1",
    "lload_2", "lload_3", "fload_0", "fload_1", "fload_2", "fload_3", "dload_0", "dload_1",
    "dload_2", "dload_3", "aload_0", "aload_1", "aload_2", "aload_3", "iaload", "laload",
    "faload", "daload", "aaload", "baload", "caload", "saload", "istore", "lstore", "fstore",
    "dstore", "astore", "istore_0", "istore_1", "istore_2", "istore_3", "lstore_0", "lstore_1",
    "lstore_2", "lstore_3", "fstore_0", "fstore_1", "fstore_2", "fstore_3", "dstore_0",
    "dstore_1", "dstore_2", "dstore_3", "astore_0", "astore_1", "astore_2", "astore_3",
    "iastore", "lastore", "fastore", "dastore", "aastore", "bastore", "castore", "sastore",
    "pop", "pop2", "dup", "dup_x1", "dup_x2", "dup2", "dup2_x1", "dup2_x2", "swap", "iadd",
    "ladd", "fadd", "dadd", "isub", "lsub", "fsub", "dsub", "imul", "lmul", "fmul", "dmul",
    "idiv", "ldiv", "fdiv", "ddiv", "irem", "lrem", "frem", "drem", "ineg", "lneg", "fneg",
    "dneg", "ishl", "lshl", "ishr", "lshr", "iushr", "lushr", "iand", "land", "ior", "lor",
    "ixor", "lxor", "iinc", "i2l", "i2f", "i2d", "l2i", "l2f", "l2d", "f2i", "f2l", "f2d", "d2i",
    "d2l", "d2f", "i2b", "i2c", "i2s", "lcmp", "fcmpl", "fcmpg", "dcmpl", "dcmpg", "ifeq",
    "ifne", "iflt", "ifge", "ifgt", "ifle", "if_icmpeq", "if_icmpne", "if_icmplt", "if_icmpge",
    "if_icmpgt", "if_icmple", "if_acmpeq", "if_acmpne", "goto", "jsr", "ret", "tableswitch",
    "lookupswitch", "ireturn", "lreturn", "freturn", "dreturn", "areturn", "return", "getstatic",
    "putstatic", "getfield", "putfield", "invokevirtual", "invokespecial", "invokestatic",
    "invokeinterface", "invokedynamic", "new", "newarray", "anewarray", "arraylength", "athrow",
    "checkcast", "instanceof", "monitorenter", "monitorexit", "wide", "multianewarray", "ifnull",
    "ifnonnull", "goto_w", "jsr_w"]

/-- The mnemonic of an opcode, for listings and messages. -/
def mnemonic (op : Opcode) : String :=
  mnemonics[op.toNat]?.getD "<unknown>"

/-- The four instructions that read or write a field. -/
def isFieldAccess (op : Opcode) : Bool :=
  getstatic ≤ op && op ≤ putfield

/-- The four instructions that call a named method. -/
def isInvoke (op : Opcode) : Bool :=
  invokevirtual ≤ op && op ≤ invokeinterface

/-- The instructions that never continue with the next one. -/
def isTerminal (op : Opcode) : Bool :=
  op == goto || op == gotoW || op == athrow || (ret ≤ op && op ≤ returnVoid)

/-- The instructions whose operand is a single branch target. -/
def isJump (op : Opcode) : Bool :=
  (ifeq ≤ op && op ≤ jsr) || op == ifnull || op == ifnonnull || op == gotoW || op == jsrW

end Opcode

/-- How a method handle reaches its member. -/
abbrev HandleKind := UInt8

namespace HandleKind

@[match_pattern] abbrev getField : HandleKind := 1
@[match_pattern] abbrev getStatic : HandleKind := 2
@[match_pattern] abbrev putField : HandleKind := 3
@[match_pattern] abbrev putStatic : HandleKind := 4

/-- The handle kind that does what a field instruction does. -/
def ofFieldOpcode : Opcode → HandleKind
  | Opcode.getfield => getField
  | Opcode.getstatic => getStatic
  | Opcode.putfield => putField
  | _ => putStatic

/-- The field instruction that does what a handle of this kind does. -/
def fieldOpcode? : HandleKind → Option Opcode
  | getField => some Opcode.getfield
  | getStatic => some Opcode.getstatic
  | putField => some Opcode.putfield
  | putStatic => some Opcode.putstatic
  | _ => none

end HandleKind
end JvmArchive
