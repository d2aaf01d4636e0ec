/-!
# Loadable constants

The values that `ldc`, a constant field or a bootstrap argument can hold. Floating-point values keep
their bits, so that two constants are equal exactly if they are written alike.
-/
namespace JvmArchive

/-- A method handle: how a member is reached, and which one. -/
structure Handle where
  kind : UInt8
  owner : String
  name : String
  desc : String
  /-- Whether the owner is an interface. -/
  interface : Bool
  deriving Repr, DecidableEq, Inhabited

/-- A loadable constant. -/
inductive Constant
  | integer (value : Int32)
  | float (bits : UInt32)
  | long (value : Int64)
  | double (bits : UInt64)
  | string (text : String)
  /-- A class by its internal name, or an array class by its descriptor. -/
  | class (name : String)
  /-- A method type by its descriptor. -/
  | methodType (desc : String)
  | methodHandle (handle : Handle)
  /-- A constant that a bootstrap method computes. -/
  | dynamic (name desc : String) (bootstrap : Handle) (arguments : List Constant)
  deriving Repr, Inhabited

namespace Constant

/-- Whether the value takes two stack slots. -/
def isWide : Constant → Bool
  | long _ | double _ => true
  | dynamic _ desc _ _ => desc == "J" || desc == "D"
  | _ => false

mutual
/-- Equality of constants, computed. -/
def same : Constant → Constant → Bool
  | integer a, integer b => a == b
  | float a, float b => a == b
  | long a, long b => a == b
  | double a, double b => a == b
  | string a, string b => a == b
  | .class a, .class b => a == b
  | methodType a, methodType b => a == b
  | methodHandle a, methodHandle b => a == b
  | dynamic n d h as, dynamic m e k bs => n == m && d == e && h == k && sameAll as bs
  | _, _ => false

/-- Equality of lists of constants, computed. -/
def sameAll : List Constant → List Constant → Bool
  | [], [] => true
  | a :: as, b :: bs => same a b && sameAll as bs
  | _, _ => false
end

mutual
theorem eq_of_same : ∀ {a b : Constant}, same a b = true → a = b
  | integer _, b, h | float _, b, h | long _, b, h | double _, b, h | string _, b, h
  | .class _, b, h | methodType _, b, h | methodHandle _, b, h => by
    cases b <;> simp_all [same]
  | dynamic _ _ _ as, b, h => by
    cases b <;> simp only [same, Bool.and_eq_true, beq_iff_eq, Bool.false_eq_true] at h
    rw [h.1.1.1, h.1.1.2, h.1.2, eq_of_sameAll h.2]

theorem eq_of_sameAll : ∀ {as bs : List Constant}, sameAll as bs = true → as = bs
  | [], bs, h => by cases bs <;> simp_all [sameAll]
  | a :: as, bs, h => by
    cases bs <;> simp only [sameAll, Bool.and_eq_true, Bool.false_eq_true] at h
    rw [eq_of_same h.1, eq_of_sameAll h.2]
end

mutual
theorem same_self : ∀ a : Constant, same a a = true
  | integer _ | float _ | long _ | double _ | string _ | .class _ | methodType _
  | methodHandle _ => by simp [same]
  | dynamic _ _ _ as => by simp [same, sameAll_self as]

theorem sameAll_self : ∀ as : List Constant, sameAll as as = true
  | [] => rfl
  | a :: as => by simp [sameAll, same_self a, sameAll_self as]
end

instance : DecidableEq Constant := fun a b =>
  if h : same a b = true then isTrue (eq_of_same h)
  else isFalse fun e => h (e ▸ same_self a)

end Constant
end JvmArchive
