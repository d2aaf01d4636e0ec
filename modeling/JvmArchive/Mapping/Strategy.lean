import JvmArchive.Mapping.Generate
import JvmArchive.Random.ChaCha

/-!
# Naming strategies

How the names for a jar are chosen. Random names are drawn with a generator that a seed determines, so that
they can be drawn again, or with one that the system has started.
-/
namespace JvmArchive.Mapping

inductive Strategy
  | alphabetic
  /-- Without a seed the generator is the one of the system. -/
  | random (seed : Option UInt64)
  deriving Repr, DecidableEq, Inhabited

structure GeneratorConfig where
  strategy : Strategy := .alphabetic
  /-- The names of methods that are not renamed. -/
  reserved : List String := reservedMethods
  /-- Whether local variables get new names too. -/
  renamesLocals : Bool := false
  deriving Repr, DecidableEq, Inhabited

/-- The words of a generator. -/
def generatorWords : WordSource Random.Generator where
  next := Random.Generator.next
  period := Random.Generator.period

abbrev Namer := Naming Random.Generator

namespace Namer

/-- The state that a strategy begins with, where the system gives a generator. -/
def ofStrategy (strategy : Strategy) (system : Random.Generator := default) : Namer :=
  match strategy with
  | .alphabetic => .alphabetic {}
  | .random (some seed) => .random { generator := .ofSeed seed }
  | .random none => .random { generator := system }

/-- Names after the strategy that the state comes from. -/
def source : NameSource Namer := Naming.source generatorWords

end Namer
end JvmArchive.Mapping
