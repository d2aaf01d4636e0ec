/-!
# Access flags

The access word of classes, members, parameters and inner-class records. A predicate tests one bit;
three bits have two readings, one for methods or classes and one for fields.
-/
namespace JvmArchive

/-- The access word of a class, a member, a parameter or an inner-class record. -/
abbrev Access := UInt16

namespace Access

def publicBit : Access := 0x0001
def privateBit : Access := 0x0002
def protectedBit : Access := 0x0004
def staticBit : Access := 0x0008
def finalBit : Access := 0x0010
def superBit : Access := 0x0020
def synchronizedBit : Access := 0x0020
def volatileBit : Access := 0x0040
def bridgeBit : Access := 0x0040
def transientBit : Access := 0x0080
def varargsBit : Access := 0x0080
def nativeBit : Access := 0x0100
def interfaceBit : Access := 0x0200
def abstractBit : Access := 0x0400
def strictBit : Access := 0x0800
def syntheticBit : Access := 0x1000
def annotationBit : Access := 0x2000
def enumBit : Access := 0x4000
def mandatedBit : Access := 0x8000

/-- Whether the word shares a bit with the flag. -/
def has (access flag : Access) : Bool := access &&& flag != 0

def isPublic (access : Access) : Bool := access.has publicBit
def isPrivate (access : Access) : Bool := access.has privateBit
def isProtected (access : Access) : Bool := access.has protectedBit
def isStatic (access : Access) : Bool := access.has staticBit
def isFinal (access : Access) : Bool := access.has finalBit
def isSynchronized (access : Access) : Bool := access.has synchronizedBit
def isVolatile (access : Access) : Bool := access.has volatileBit
def isBridge (access : Access) : Bool := access.has bridgeBit
def isTransient (access : Access) : Bool := access.has transientBit
def isVarargs (access : Access) : Bool := access.has varargsBit
def isNative (access : Access) : Bool := access.has nativeBit
def isInterface (access : Access) : Bool := access.has interfaceBit
def isAbstract (access : Access) : Bool := access.has abstractBit
def isStrict (access : Access) : Bool := access.has strictBit
def isSynthetic (access : Access) : Bool := access.has syntheticBit

/-- An annotation type is an interface that has the annotation bit as well. -/
def isAnnotationType (access : Access) : Bool := access.isInterface && access.has annotationBit

def isEnum (access : Access) : Bool := access.has enumBit
def isMandated (access : Access) : Bool := access.has mandatedBit

/-- Every predicate with the word that names it, in the order in which they are listed. -/
def predicates : List (String × (Access → Bool)) :=
  [("public", isPublic), ("private", isPrivate), ("protected", isProtected), ("static", isStatic),
    ("final", isFinal), ("synchronized", isSynchronized), ("volatile", isVolatile),
    ("bridge", isBridge), ("transient", isTransient), ("varargs", isVarargs),
    ("native", isNative), ("interface", isInterface), ("abstract", isAbstract),
    ("strict", isStrict), ("synthetic", isSynthetic), ("annotation", isAnnotationType),
    ("enum", isEnum), ("mandated", isMandated)]

/-- The names of the predicates that hold of an access word. -/
def names (access : Access) : List String :=
  (predicates.filter (·.2 access)).map (·.1)

end Access
end JvmArchive
