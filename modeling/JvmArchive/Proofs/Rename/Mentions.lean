import JvmArchive.Proofs.Descriptor.Names
import JvmArchive.Proofs.Mapping.Described
import JvmArchive.Rename.Class

/-!
# What a class mentions

Every name in a class that renaming asks the table for: those of classes, wherever a type, a descriptor
or a constant names one, and those of the members that code, handles, call sites and annotations refer
to. The elements of an annotation are listed too, because renaming an annotation rebuilds their table.
The classes in signatures are left out, since any text can stand there.
-/
namespace JvmArchive

/-- Something in a class that renaming has to look at. -/
inductive Mention
  | ofClass (name : String)
  | ofField (owner name : String)
  | ofMethod (owner name desc : String)
  /-- The names of the elements of one annotation. -/
  | ofElements (names : List String)
  deriving Repr, DecidableEq

namespace Mention

open Mapping.Store (StartsMethod)

/-- Whether a mention is as class files have it: no dot in the name of a class, no parenthesis in that
of a member, a method with the descriptor of one, and every element of an annotation once. -/
def IsPlain : Mention → Prop
  | ofClass name => '.' ∉ name.toList
  | ofField owner name => '.' ∉ owner.toList ∧ '(' ∉ name.toList
  | ofMethod owner name desc => '.' ∉ owner.toList ∧ '(' ∉ name.toList ∧ StartsMethod desc
  | ofElements names => names.Nodup

instance : DecidablePred IsPlain
  | ofClass _ => inferInstanceAs (Decidable ('.' ∉ _))
  | ofField _ _ => inferInstanceAs (Decidable ('.' ∉ _ ∧ '(' ∉ _))
  | ofMethod _ _ desc => inferInstanceAs (Decidable ('.' ∉ _ ∧ '(' ∉ _ ∧ StartsMethod desc))
  | ofElements names => inferInstanceAs (Decidable names.Nodup)

def AllPlain (mentions : List Mention) : Prop := ∀ mention ∈ mentions, mention.IsPlain

instance (mentions : List Mention) : Decidable (AllPlain mentions) :=
  inferInstanceAs (Decidable (∀ mention ∈ mentions, mention.IsPlain))

theorem allPlain_append {front behind : List Mention} :
    AllPlain (front ++ behind) ↔ AllPlain front ∧ AllPlain behind :=
  List.forall_mem_append

theorem allPlain_cons {mention : Mention} {mentions : List Mention} :
    AllPlain (mention :: mentions) ↔ mention.IsPlain ∧ AllPlain mentions :=
  List.forall_mem_cons

theorem allPlain_flatMap {α : Type} {items : List α} {mentions : α → List Mention} :
    AllPlain (items.flatMap mentions) ↔ ∀ item ∈ items, AllPlain (mentions item) :=
  List.forall_mem_flatMap

/-- The classes in a descriptor. -/
def inDescriptor (desc : String) : List Mention := (Descriptor.names desc).map ofClass

/-- The class of a type as instructions and constants name it, or the one in an array type. -/
def inType (name : String) : List Mention :=
  if name.toList.head? = some '[' then inDescriptor name else [ofClass name]

end Mention

open Mention

/-! ## Annotations -/

namespace ElementValue

mutual

def mentions : ElementValue → List Mention
  | .enum desc name => inDescriptor desc ++ (Descriptor.objectName? desc).toList.map (ofField · name)
  | .class desc => inDescriptor desc
  | .nested desc values => inDescriptor desc ++ ofElements (values.map (·.1)) :: mentionsInPairs values
  | .array values => mentionsInAll values
  | _ => []

def mentionsInAll : List ElementValue → List Mention
  | [] => []
  | value :: values => value.mentions ++ mentionsInAll values

def mentionsInPairs : List (String × ElementValue) → List Mention
  | [] => []
  | (_, value) :: rest => value.mentions ++ mentionsInPairs rest

end

end ElementValue

def AnnotationNode.mentions (node : AnnotationNode) : List Mention :=
  inDescriptor node.desc ++
    ofElements (node.values.map (·.1)) :: ElementValue.mentionsInPairs node.values

/-! ## Code -/

/-- The member of a handle, its owner and the classes in its type. -/
def Handle.mentions (handle : Handle) : List Mention :=
  inType handle.owner ++ inDescriptor handle.desc ++
    [if (HandleKind.fieldOpcode? handle.kind).isSome then ofField handle.owner handle.name
      else ofMethod handle.owner handle.name handle.desc]

namespace Constant

mutual

def mentions : Constant → List Mention
  | .class name => inType name
  | .methodType desc => inDescriptor desc
  | .methodHandle handle => handle.mentions
  | .dynamic _ desc bootstrap arguments =>
    inDescriptor desc ++ bootstrap.mentions ++ mentionsInAll arguments
  | _ => []

def mentionsInAll : List Constant → List Mention
  | [] => []
  | constant :: constants => constant.mentions ++ mentionsInAll constants

end

end Constant

def VerificationType.mentions : VerificationType → List Mention
  | .object name => inType name
  | _ => []

/-- The interface method that the lambda of a call site implements. -/
def mentionsInCallSite (name desc : String) (bootstrap : Handle) (arguments : List Constant) :
    List Mention :=
  match Descriptor.objectName? (Descriptor.returnType desc), arguments with
  | some interface, .methodType erased :: _ =>
    if bootstrap.owner = Renamer.lambdaFactory then [ofMethod interface name erased] else []
  | _, _ => []

def Instruction.mentions : Instruction → List Mention
  | .frame state => (state.locals ++ state.stack).flatMap VerificationType.mentions
  | .type _ name => inType name
  | .field _ owner name desc => inType owner ++ inDescriptor desc ++ [ofField owner name]
  | .method _ owner name desc _ => inType owner ++ inDescriptor desc ++ [ofMethod owner name desc]
  | .invokeDynamic name desc bootstrap arguments =>
    inDescriptor desc ++ bootstrap.mentions ++ Constant.mentionsInAll arguments ++
      mentionsInCallSite name desc bootstrap arguments
  | .ldc constant => constant.mentions
  | .multiANewArray desc _ => inDescriptor desc
  | _ => []

/-! ## Classes -/

def InnerClass.mentions (inner : InnerClass) : List Mention :=
  inType inner.name ++ inner.outerName.toList.flatMap inType

/-- The method around a class. -/
def ClassNode.mentionsOuter (node : ClassNode) : List Mention :=
  match node.outerClass, node.outerMethod, node.outerMethodDesc with
  | some outer, some name, some desc => [.ofMethod outer name desc]
  | _, _, _ => []

/-- What a class mentions in its header. -/
def ClassNode.mentions (node : ClassNode) : List Mention :=
  (node.name :: (node.superName.toList ++ node.interfaces ++ node.outerClass.toList ++
      node.nestHost.toList ++ node.nestMembers ++ node.permittedSubclasses)).flatMap inType ++
    node.outerMethodDesc.toList.flatMap inDescriptor ++ node.mentionsOuter ++
    node.invisibleAnnotations.flatMap AnnotationNode.mentions

def InnerClassEntry.mentions (entry : InnerClassEntry) : List Mention := entry.node.mentions

def AnnotationEntry.mentions (entry : AnnotationEntry) : List Mention := entry.node.mentions

/-- What a field mentions, given the class that declares it. -/
def FieldEntry.mentions (owner : String) (field : FieldEntry) : List Mention :=
  ofField owner field.name :: inDescriptor field.desc ++
    field.annotations.flatMap AnnotationEntry.mentions ++
    field.node.invisibleAnnotations.flatMap AnnotationNode.mentions

/-- What the annotations of parameters mention. -/
def mentionsInParameters (annotations : Option (List (List AnnotationNode))) : List Mention :=
  annotations.toList.flatMap fun rows => rows.flatMap fun row => row.flatMap AnnotationNode.mentions

def TryCatch.mentions (range : TryCatch) : List Mention := range.catchType.toList.flatMap inType

def LocalVariable.mentions (declared : LocalVariable) : List Mention := inDescriptor declared.desc

def MethodNode.mentions (node : MethodNode) : List Mention :=
  inDescriptor node.desc ++ node.exceptions.flatMap inType ++
    node.invisibleAnnotations.flatMap AnnotationNode.mentions ++
    mentionsInParameters node.visibleParameterAnnotations ++
    mentionsInParameters node.invisibleParameterAnnotations ++
    node.annotationDefault.toList.flatMap ElementValue.mentions ++
    node.tryCatches.flatMap TryCatch.mentions ++ node.localVariables.flatMap LocalVariable.mentions

/-- What a method mentions, given the class that declares it. -/
def MethodEntry.mentions (owner : String) (method : MethodEntry) : List Mention :=
  ofMethod owner method.name method.desc :: method.node.mentions ++
    method.annotations.flatMap AnnotationEntry.mentions ++
    method.editor.code.toList.flatMap Instruction.mentions

def ClassEntry.mentions (entry : ClassEntry) : List Mention :=
  ofClass entry.name :: entry.node.mentions ++ entry.innerClasses.flatMap InnerClassEntry.mentions ++
    entry.annotations.flatMap AnnotationEntry.mentions ++
    entry.fields.flatMap (FieldEntry.mentions entry.name) ++
    entry.methods.flatMap (MethodEntry.mentions entry.name)

end JvmArchive
