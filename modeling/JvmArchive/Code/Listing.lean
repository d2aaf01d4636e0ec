import JvmArchive.Code.Instruction
import JvmArchive.Text.Quoted

/-!
# Listings

The one-line text of an instruction in listings and messages. Constants and frames are written as
constructor terms: a name with its arguments in parentheses, or with its named fields in braces.
-/
namespace JvmArchive

namespace Listing

/-- Named fields in braces after the name of what they belong to. -/
def record (name : String) (fields : List (String × String)) : String :=
  name ++ " \x7b " ++ ", ".intercalate (fields.map fun f => f.1 ++ ": " ++ f.2) ++ " \x7d"

/-- A bracketed list. -/
def list (items : List String) : String := "[" ++ ", ".intercalate items ++ "]"

end Listing

def Label.text (label : Label) : String := "L" ++ toString label.number.toNat

def Label.term (label : Label) : String := "LabelId(" ++ toString label.number.toNat ++ ")"

def Handle.term (handle : Handle) : String :=
  Listing.record "Handle"
    [("kind", toString handle.kind.toNat), ("owner", Text.quote handle.owner),
      ("name", Text.quote handle.name), ("desc", Text.quote handle.desc),
      ("interface", if handle.interface then "true" else "false")]

mutual
/-- A constant as a constructor term; floating-point values show their bits as a number. -/
def Constant.term : Constant → String
  | .integer value => "Integer(" ++ toString value.toInt ++ ")"
  | .float bits => "Float(" ++ toString bits.toNat ++ ")"
  | .long value => "Long(" ++ toString value.toInt ++ ")"
  | .double bits => "Double(" ++ toString bits.toNat ++ ")"
  | .string text => "String(" ++ Text.quote text ++ ")"
  | .class name => "Class(" ++ Text.quote name ++ ")"
  | .methodType desc => "MethodType(" ++ Text.quote desc ++ ")"
  | .methodHandle handle => "MethodHandle(" ++ handle.term ++ ")"
  | .dynamic name desc bootstrap arguments =>
    "Dynamic(" ++
      Listing.record "ConstantDynamic"
        [("name", Text.quote name), ("desc", Text.quote desc), ("bsm", bootstrap.term),
          ("args", Listing.list (Constant.terms arguments))] ++ ")"

def Constant.terms : List Constant → List String
  | [] => []
  | c :: cs => c.term :: Constant.terms cs
end

def VerificationType.term : VerificationType → String
  | .top => "Top"
  | .integer => "Integer"
  | .float => "Float"
  | .double => "Double"
  | .long => "Long"
  | .null => "Null"
  | .uninitializedThis => "UninitializedThis"
  | .object name => "Object(" ++ Text.quote name ++ ")"
  | .uninitialized site => "Uninitialized(" ++ site.term ++ ")"

def StackFrame.term (frame : StackFrame) : String :=
  Listing.record "Frame"
    [("locals", Listing.list (frame.locals.map VerificationType.term)),
      ("stack", Listing.list (frame.stack.map VerificationType.term))]

/-- The line of an instruction. -/
def Instruction.listing : Instruction → String
  | .label place => place.text ++ ":"
  | .line number start => "line " ++ toString number.toNat ++ " " ++ start.text
  | .frame shape => "frame " ++ shape.term
  | .simple op => op.mnemonic
  | .int op operand => op.mnemonic ++ " " ++ toString operand.toInt
  | .var op slot => op.mnemonic ++ " " ++ toString slot.toNat
  | .type op class_ => op.mnemonic ++ " " ++ class_
  | .field op owner name desc => op.mnemonic ++ " " ++ owner ++ "." ++ name ++ ":" ++ desc
  | .method op owner name desc _ => op.mnemonic ++ " " ++ owner ++ "." ++ name ++ desc
  | .invokeDynamic name desc _ _ => "invokedynamic " ++ name ++ desc
  | .jump op target => op.mnemonic ++ " " ++ target.text
  | .ldc constant => "ldc " ++ constant.term
  | .iinc slot increment => "iinc " ++ toString slot.toNat ++ " " ++ toString increment.toInt
  | .tableSwitch low high _ _ =>
    "tableswitch " ++ toString low.toInt ++ "..=" ++ toString high.toInt
  | .lookupSwitch _ keys _ => "lookupswitch " ++ toString keys.length ++ " keys"
  | .multiANewArray desc dimensions =>
    "multianewarray " ++ desc ++ " " ++ toString dimensions.toNat

end JvmArchive
