import JvmArchive.Text.Quoted

/-!
# Class file errors

What can be wrong with the bytes of a class, and why a class cannot be written.
-/
namespace JvmArchive

/-- Why bytes are no class file. -/
inductive FormatError
  /-- The first word is not the magic number. -/
  | badMagic (found : UInt32)
  /-- The bytes end at this offset inside a structure. -/
  | unexpectedEnd (offset : Nat)
  /-- A pool index does not lead to the expected kind of entry. -/
  | invalidConstant (index : UInt16) (expected : String)
  | unknownConstantTag (tag : UInt8) (index : UInt16)
  | unknownOpcode (opcode : UInt8) (offset : Nat)
  | malformed (what details : String)
  deriving Repr, DecidableEq, Inhabited

/-- A number in base sixteen, padded with zeros to a width. -/
def paddedHex (width n : Nat) : String :=
  let digits := Text.hexText n
  String.ofList (List.replicate (width - digits.length) '0') ++ digits

def FormatError.message : FormatError → String
  | badMagic found => "bad magic 0x" ++ paddedHex 8 found.toNat
  | unexpectedEnd offset => "unexpected end of class data at offset " ++ toString offset
  | invalidConstant index expected =>
    "invalid constant pool index " ++ toString index.toNat ++ ": expected " ++ expected
  | unknownConstantTag tag index =>
    "unknown constant pool tag " ++ toString tag.toNat ++ " at index " ++ toString index.toNat
  | unknownOpcode opcode offset =>
    "unknown opcode 0x" ++ paddedHex 2 opcode.toNat ++ " at code offset " ++ toString offset
  | malformed what details => "malformed " ++ what ++ ": " ++ details

/-- An access that stops the program instead of being told as an error. -/
inductive Fault
  /-- Of a list of this length an element at or behind its end. -/
  | index (position length : Nat)
  /-- Of a name what follows its first byte, where its first character has not one byte. -/
  | cut (name : String)
  deriving Repr, DecidableEq, Inhabited

def Fault.message : Fault → String
  | index position length =>
    "index " ++ toString position ++ " out of range for length " ++ toString length
  | cut name => "no character ends after the first byte of " ++ Text.quote name

/-- Why a class cannot be written. -/
inductive WriteError
  /-- The constant pool would need more than 65535 slots. -/
  | constantPoolOverflow
  /-- A branch that has only a short form is farther than its offset can say. -/
  | branchOutOfRange (method : String) (offset : Int)
  /-- The code is longer than 65535 bytes. -/
  | codeTooLarge (method : String) (size : Nat)
  /-- A label is named that stands nowhere in the code. -/
  | unknownLabel (method : String) (label : UInt32)
  | frameComputation (method details : String)
  /-- Not an error that is told: the analysis of a method has stopped the program. -/
  | fault (cause : Fault)
  deriving Repr, DecidableEq, Inhabited

def WriteError.message : WriteError → String
  | constantPoolOverflow => "constant pool overflow"
  | branchOutOfRange method offset =>
    "branch offset " ++ toString offset ++ " out of range in " ++ method
  | codeTooLarge method size =>
    "code of " ++ method ++ " is too large (" ++ toString size ++ " bytes)"
  | unknownLabel method label =>
    "label " ++ toString label.toNat ++ " is not placed in " ++ method
  | frameComputation method details =>
    "frame computation failed in " ++ method ++ ": " ++ details
  | fault cause => cause.message

end JvmArchive
