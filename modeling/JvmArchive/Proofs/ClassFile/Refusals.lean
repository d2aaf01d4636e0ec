import JvmArchive.ClassFile.Encode.Attribute
import JvmArchive.Proofs.ClassFile.Pool.Writers
import JvmArchive.Proofs.Results

/-!
# What the pool refuses

A pool refuses an entry for want of room and for no other reason, so whatever is written without a layout
has no other error. How much room a request needs at most is seen from the request alone.
-/
namespace JvmArchive

/-! ## Slots -/

mutual
/-- How many slots a constant and what it is made of take at most. -/
def Constant.slots : Constant → Nat
  | .integer _ | .float _ => 1
  | .long _ | .double _ | .string _ | .class _ | .methodType _ => 2
  | .methodHandle _ => 7
  | .dynamic _ _ _ arguments => 11 + Constant.slotsOf arguments

def Constant.slotsOf : List Constant → Nat
  | [] => 0
  | value :: values => value.slots + Constant.slotsOf values
end

namespace PoolWriter
open PoolBuilder

variable {α β : Type} {builder : PoolBuilder} {m n : Nat}

/-- Whether so many free slots are enough for a writer, and it takes no more of them. -/
def Needs (builder : PoolBuilder) (write : PoolWriter α) (slots : Nat) : Prop :=
  builder.entries.size + slots ≤ maxSlots → write builder ≠ .error .constantPoolOverflow ∧
    ∀ a later, write builder = .ok (a, later) → later.entries.size ≤ builder.entries.size + slots

theorem needs_pure (a : α) : Needs builder (pure a) 0 := by
  refine fun _ => ⟨avoids_pure a builder, fun b later hrun => ?_⟩
  cases hrun
  exact Nat.le_refl _

/-- What is known already takes no room. -/
theorem needs_settled {write : PoolWriter α} {a : α} (h : write builder = .ok (a, builder)) :
    Needs builder write 0 := by
  refine fun _ => ⟨by simp [h], fun b later hrun => ?_⟩
  rw [h] at hrun
  cases hrun
  exact Nat.le_refl _

theorem needs_lift {result : Except WriteError α} (h : result ≠ .error .constantPoolOverflow) :
    Needs builder (liftM result : PoolWriter α) 0 := by
  cases result with
  | error other => exact fun _ => ⟨avoids_lift h builder, nofun⟩
  | ok a => exact needs_pure a

/-- One writer after another needs the room of both. -/
theorem Needs.bind_of {write : PoolWriter α} {next : α → PoolWriter β} (h : Needs builder write m)
    (hnext : ∀ a middle, write builder = .ok (a, middle) → Needs middle (next a) n) :
    Needs builder (write >>= next) (m + n) := by
  intro hroom
  obtain ⟨hwrite, hsize⟩ := h (by omega)
  have hmiddle : ∀ a middle, write builder = .ok (a, middle) → middle.entries.size + n ≤ maxSlots := by
    intro a middle hrun
    have hle := hsize a middle hrun
    omega
  refine ⟨fun herror => ?_, fun b later hrun => ?_⟩
  · rcases run_bind_eq_error_iff.1 herror with hfirst | ⟨a, middle, hrun, hsecond⟩
    · exact hwrite hfirst
    · exact (hnext a middle hrun (hmiddle a middle hrun)).1 hsecond
  · obtain ⟨a, middle, hfirst, hsecond⟩ := bind_ok hrun
    have hle := hsize a middle hfirst
    have hlater := (hnext a middle hfirst (hmiddle a middle hfirst)).2 b later hsecond
    omega

theorem Needs.bind {write : PoolWriter α} {next : α → PoolWriter β} (h : Needs builder write m)
    (hnext : ∀ a middle, Needs middle (next a) n) : Needs builder (write >>= next) (m + n) :=
  h.bind_of fun a middle _ => hnext a middle

theorem Needs.mono {write : PoolWriter α} (h : Needs builder write m) (hle : m ≤ n) :
    Needs builder write n := by
  intro hroom
  obtain ⟨hwrite, hsize⟩ := h (by omega)
  refine ⟨hwrite, fun a later hrun => ?_⟩
  have hlater := hsize a later hrun
  omega

theorem needs_add (entry : PoolEntry) : Needs builder (add entry) (if entry.isWide then 2 else 1) := by
  intro hroom
  unfold add
  split
  next index _ =>
    refine ⟨nofun, fun b later hrun => ?_⟩
    cases hrun
    exact Nat.le_add_right _ _
  next =>
    rw [if_neg (Nat.not_lt.2 hroom)]
    refine ⟨nofun, fun b later hrun => ?_⟩
    cases hrun
    unfold ConstantPool.pushEntry
    split <;> simp

theorem needs_narrow {entry : PoolEntry} (h : entry.isWide = false) : Needs builder (add entry) 1 := by
  have hadd : Needs builder (add entry) (if entry.isWide then 2 else 1) := needs_add entry
  rwa [h] at hadd

theorem needs_addBootstrap (entry : BootstrapEntry) : Needs builder (addBootstrap entry) 0 := by
  refine fun _ => ⟨?_, fun index later hrun => ?_⟩
  · unfold addBootstrap
    split <;> exact nofun
  · rw [(extends_of_addBootstrap hrun).2.1]
    exact Nat.le_refl _

theorem needs_class (name : String) : Needs builder (class_ name) 2 :=
  (needs_narrow rfl).bind fun _ _ => needs_narrow rfl

theorem needs_nameAndType (name desc : String) : Needs builder (nameAndType name desc) 3 :=
  (needs_narrow rfl).bind fun _ _ => (needs_narrow rfl).bind fun _ _ => needs_narrow rfl

theorem needs_fieldRef (owner name desc : String) : Needs builder (fieldRef owner name desc) 6 :=
  (needs_class owner).bind fun _ _ => (needs_nameAndType name desc).bind fun _ _ => needs_narrow rfl

theorem needs_methodRef (owner name desc : String) (interface : Bool) :
    Needs builder (methodRef owner name desc interface) 6 := by
  cases interface <;>
    exact (needs_class owner).bind fun _ _ => (needs_nameAndType name desc).bind fun _ _ => needs_narrow rfl

theorem needs_handle (target : Handle) : Needs builder (handle target) 7 := by
  rw [handle]
  split
  · exact (needs_fieldRef _ _ _).bind fun _ _ => needs_narrow rfl
  · exact (needs_methodRef _ _ _ _).bind fun _ _ => needs_narrow rfl

mutual
theorem needs_constant {builder : PoolBuilder} :
    ∀ value : Constant, Needs builder (constant value) value.slots
  | .integer _ | .float _ | .long _ | .double _ => by
    rw [constant, Constant.slots]
    exact needs_add _
  | .string _ | .methodType _ => by
    rw [constant, Constant.slots]
    exact (needs_narrow rfl).bind fun _ _ => needs_narrow rfl
  | .class name => by
    rw [constant, Constant.slots]
    exact needs_class name
  | .methodHandle target => by
    rw [constant, Constant.slots]
    exact needs_handle target
  | .dynamic name desc bootstrap arguments => by
    rw [constant, Constant.slots]
    refine Needs.mono ((needs_handle bootstrap).bind fun _ _ => (needs_constants arguments).bind fun _ _ =>
      (needs_addBootstrap _).bind fun _ _ => (needs_nameAndType name desc).bind fun _ _ =>
      needs_narrow rfl) ?_
    omega

theorem needs_constants {builder : PoolBuilder} :
    ∀ values : List Constant, Needs builder (constants values) (Constant.slotsOf values)
  | [] => by
    rw [constants, Constant.slotsOf]
    exact needs_pure _
  | value :: values => by
    rw [constants, Constant.slotsOf]
    exact (needs_constant value).bind fun _ _ => (needs_constants values).bind fun _ _ => needs_pure _
end

theorem needs_invokeDynamic (name desc : String) (bootstrap : Handle) (arguments : List Constant) :
    Needs builder (invokeDynamic name desc bootstrap arguments) (11 + Constant.slotsOf arguments) := by
  have hrow : ∀ builder, Needs builder (bootstrapMethod bootstrap arguments)
      (7 + Constant.slotsOf arguments) := fun builder =>
    (needs_handle bootstrap).bind fun _ _ => (needs_constants arguments).bind fun _ _ =>
      needs_addBootstrap _
  refine Needs.mono ((hrow builder).bind fun _ _ => (needs_nameAndType name desc).bind fun _ _ =>
    needs_narrow rfl) ?_
  omega

end PoolWriter

/-! ## Refusals -/

variable {error : WriteError}

namespace PoolBuilder

theorem avoids_add (h : error ≠ .constantPoolOverflow) (entry : PoolEntry) :
    Avoids error (add entry) := by
  intro builder hrun
  unfold add at hrun
  split at hrun
  · cases hrun
  · by_cases hfull : builder.entries.size + (if entry.isWide then 2 else 1) > maxSlots
    · rw [if_pos hfull] at hrun
      exact h (Except.error.inj hrun).symm
    · rw [if_neg hfull] at hrun
      cases hrun

theorem avoids_class (h : error ≠ .constantPoolOverflow) (name : String) :
    Avoids error (class_ name) :=
  (avoids_add h _).bind fun _ => avoids_add h _

theorem avoids_nameAndType (h : error ≠ .constantPoolOverflow) (name desc : String) :
    Avoids error (nameAndType name desc) :=
  (avoids_add h _).bind fun _ => (avoids_add h _).bind fun _ => avoids_add h _

theorem avoids_fieldRef (h : error ≠ .constantPoolOverflow) (owner name desc : String) :
    Avoids error (fieldRef owner name desc) :=
  (avoids_class h _).bind fun _ => (avoids_nameAndType h _ _).bind fun _ => avoids_add h _

theorem avoids_methodRef (h : error ≠ .constantPoolOverflow) (owner name desc : String)
    (interface : Bool) : Avoids error (methodRef owner name desc interface) :=
  (avoids_class h _).bind fun _ => (avoids_nameAndType h _ _).bind fun _ => avoids_add h _

theorem avoids_handle (h : error ≠ .constantPoolOverflow) (target : Handle) :
    Avoids error (handle target) := by
  unfold handle
  dsimp only
  split
  · exact (avoids_fieldRef h _ _ _).bind fun _ => avoids_add h _
  · exact (avoids_methodRef h _ _ _ _).bind fun _ => avoids_add h _

theorem avoids_addBootstrap (entry : BootstrapEntry) : Avoids error (addBootstrap entry) := by
  intro builder hrun
  unfold addBootstrap at hrun
  split at hrun <;> cases hrun

mutual
theorem avoids_constant (h : error ≠ .constantPoolOverflow) :
    ∀ value : Constant, Avoids error (constant value)
  | .integer _ | .float _ | .long _ | .double _ => by
    rw [constant]
    exact avoids_add h _
  | .string _ | .methodType _ => by
    rw [constant]
    exact (avoids_add h _).bind fun _ => avoids_add h _
  | .class name => by
    rw [constant]
    exact avoids_class h name
  | .methodHandle target => by
    rw [constant]
    exact avoids_handle h target
  | .dynamic name desc bootstrap arguments => by
    rw [constant]
    exact (avoids_handle h bootstrap).bind fun _ => (avoids_constants h arguments).bind fun _ =>
      (avoids_addBootstrap _).bind fun _ => (avoids_nameAndType h name desc).bind fun _ =>
      avoids_add h _

theorem avoids_constants (h : error ≠ .constantPoolOverflow) :
    ∀ values : List Constant, Avoids error (constants values)
  | [] => by
    rw [constants]
    exact avoids_pure _
  | value :: values => by
    rw [constants]
    exact (avoids_constant h value).bind fun _ => (avoids_constants h values).bind fun _ =>
      avoids_pure _
end

theorem avoids_invokeDynamic (h : error ≠ .constantPoolOverflow) (name desc : String)
    (bootstrap : Handle) (arguments : List Constant) :
    Avoids error (invokeDynamic name desc bootstrap arguments) := by
  have hrow : Avoids error (bootstrapMethod bootstrap arguments) :=
    (avoids_handle h bootstrap).bind fun _ => (avoids_constants h arguments).bind fun _ =>
      avoids_addBootstrap _
  exact hrow.bind fun _ => (avoids_nameAndType h name desc).bind fun _ => avoids_add h _

end PoolBuilder

namespace Encode
open PoolBuilder

/-! ## Attributes -/

theorem avoids_named (h : error ≠ .constantPoolOverflow) (name : String) (data : List UInt8) :
    Avoids error (Attribute.named name data) :=
  (avoids_add h _).bind fun _ => avoids_pure _

theorem avoids_classIndex (h : error ≠ .constantPoolOverflow) (name : String) :
    Avoids error (classIndex name) :=
  (avoids_class h name).bind fun _ => avoids_pure _

theorem avoids_textIndex (h : error ≠ .constantPoolOverflow) (text : String) :
    Avoids error (textIndex text) :=
  (avoids_add h _).bind fun _ => avoids_pure _

theorem avoids_concatM {α : Type} {write : α → PoolWriter (List UInt8)} {items : List α}
    (h : ∀ item ∈ items, Avoids error (write item)) : Avoids error (concatM write items) :=
  (avoids_mapM h).bind fun _ => avoids_pure _

theorem avoids_counted {α : Type} {write : α → PoolWriter (List UInt8)} {items : List α}
    (h : ∀ item ∈ items, Avoids error (write item)) : Avoids error (counted write items) :=
  (avoids_concatM h).bind fun _ => avoids_pure _

theorem avoids_optional {α : Type} {write : α → PoolWriter (List UInt8)}
    (h : ∀ item, Avoids error (write item)) (item : Option α) :
    Avoids error (optional write item) := by
  cases item with
  | none => exact avoids_pure _
  | some item => exact h item

theorem avoids_rawAttributes (h : error ≠ .constantPoolOverflow) (keepAll : Bool)
    (raws : List RawAttribute) : Avoids error (rawAttributes keepAll raws) :=
  avoids_mapM fun raw _ => avoids_named h raw.name raw.data

theorem avoids_taggedIndex (h : error ≠ .constantPoolOverflow) (tag : Char) (entry : PoolEntry) :
    Avoids error (taggedIndex tag entry) :=
  (avoids_add h _).bind fun _ => avoids_pure _

mutual
theorem avoids_elementValue (h : error ≠ .constantPoolOverflow) :
    ∀ value : ElementValue, Avoids error (elementValue value)
  | .byte _ | .char _ | .short _ | .boolean _ | .int _ | .long _ | .float _ | .double _ | .string _
  | .class _ => by
    rw [elementValue]
    exact avoids_taggedIndex h _ _
  | .enum desc name => by
    rw [elementValue]
    exact (avoids_textIndex h desc).bind fun _ => (avoids_textIndex h name).bind fun _ =>
      avoids_pure _
  | .nested desc values => by
    rw [elementValue]
    exact (avoids_textIndex h desc).bind fun _ => (avoids_elements h values).bind fun _ =>
      avoids_pure _
  | .array values => by
    rw [elementValue]
    exact (avoids_elementValues h values).bind fun _ => avoids_pure _

theorem avoids_elementValues (h : error ≠ .constantPoolOverflow) :
    ∀ values : List ElementValue, Avoids error (elementValues values)
  | [] => by
    rw [elementValues]
    exact avoids_pure _
  | value :: values => by
    rw [elementValues]
    exact (avoids_elementValue h value).bind fun _ => (avoids_elementValues h values).bind fun _ =>
      avoids_pure _

theorem avoids_elements (h : error ≠ .constantPoolOverflow) :
    ∀ values : List (String × ElementValue), Avoids error (elements values)
  | [] => by
    rw [elements]
    exact avoids_pure _
  | (key, value) :: values => by
    rw [elements]
    exact (avoids_textIndex h key).bind fun _ => (avoids_elementValue h value).bind fun _ =>
      (avoids_elements h values).bind fun _ => avoids_pure _
end

theorem avoids_annotationNode (h : error ≠ .constantPoolOverflow) (node : AnnotationNode) :
    Avoids error (annotationNode node) :=
  (avoids_textIndex h _).bind fun _ => (avoids_elements h _).bind fun _ => avoids_pure _

theorem avoids_annotationAttributes (h : error ≠ .constantPoolOverflow)
    (visible invisible : List AnnotationNode) :
    Avoids error (annotationAttributes visible invisible) := by
  have hone : ∀ name annotations, Avoids error (annotationsAttribute name annotations) := by
    intro name annotations
    unfold annotationsAttribute
    split
    · exact avoids_pure _
    · exact (avoids_counted fun node _ => avoids_annotationNode h node).bind fun _ =>
        (avoids_named h _ _).bind fun _ => avoids_pure _
  exact (hone _ visible).bind fun _ => (hone _ invisible).bind fun _ => avoids_pure _

theorem avoids_parameterAnnotationsAttribute (h : error ≠ .constantPoolOverflow) (name : String)
    (lists : Option (List (List AnnotationNode))) :
    Avoids error (parameterAnnotationsAttribute name lists) := by
  cases lists with
  | none => exact avoids_pure _
  | some lists =>
    exact (avoids_concatM fun list _ => avoids_counted fun node _ => avoids_annotationNode h node).bind
      fun _ => (avoids_named h _ _).bind fun _ => avoids_pure _

end Encode
end JvmArchive
