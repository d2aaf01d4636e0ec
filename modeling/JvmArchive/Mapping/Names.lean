import Std.Data.HashSet.Basic

/-!
# New names

Where the names come from that replace others. Alphabetic names count through all words over the
letters, shorter ones first; random names are drawn from a source of random words, whichever it is, and
never repeated within their scope.
-/
namespace JvmArchive.Mapping

/-- What a name is for. -/
inductive Scope
  | classes
  | fields
  | methods
  | locals
  deriving Repr, DecidableEq, Inhabited

/-- A source of names with a state. Fields and methods are told when a class begins, and local variables
when a method begins. -/
structure NameSource (σ : Type) where
  draw : Scope → σ → String × σ
  enterClass : σ → σ
  enterMethod : σ → σ

/-! ## Alphabetic names -/

/-- The letters in counting order. -/
def alphabet : List Char := "abcdefghijklmnopqrstuvwxyzABCDEFGHIJKLMNOPQRSTUVWXYZ".toList

/-- The letter at a position, counted around. -/
def letter (n : Nat) : Char := alphabet.getD (n % 52) 'a'

/-- The letters of the word that stands at a position among all words. -/
def nthLetters (n : Nat) : List Char :=
  if n < 52 then [letter n] else nthLetters (n / 52 - 1) ++ [letter n]
termination_by n
decreasing_by omega

/-- The word at a position when all words over the letters are counted, the shorter ones first. -/
def nthName (n : Nat) : String := String.ofList (nthLetters n)

/-- How many names have been taken in each scope. -/
structure Counters where
  classes : Nat := 0
  fields : Nat := 0
  methods : Nat := 0
  locals : Nat := 0
  deriving Repr, DecidableEq, Inhabited

namespace Counters

def draw (scope : Scope) (counters : Counters) : String × Counters :=
  match scope with
  | .classes => (nthName counters.classes, { counters with classes := counters.classes + 1 })
  | .fields => (nthName counters.fields, { counters with fields := counters.fields + 1 })
  | .methods => (nthName counters.methods, { counters with methods := counters.methods + 1 })
  | .locals => (nthName counters.locals, { counters with locals := counters.locals + 1 })

/-- Names in counting order, started again for the fields and methods of each class and for the local
variables of each method. -/
def source : NameSource Counters where
  draw := draw
  enterClass counters := { counters with fields := 0, methods := 0 }
  enterMethod counters := { counters with locals := 0 }

end Counters

/-! ## Random names -/

/-- A source of random words with a state. -/
structure WordSource (ρ : Type) where
  next : ρ → UInt32 × ρ
  /-- After so many words the source starts again, so a search over it that has not ended by then will
  never end. -/
  period : Nat

/-- The characters of random names. -/
def randomCharacters : List Char :=
  "ABCDEFGHIJKLMNOPQRSTUVWXYZabcdefghijklmnopqrstuvwxyz0123456789".toList

/-- How long random names are. -/
def randomNameLength : Nat := 10

section
variable {ρ : Type} (words : WordSource ρ)

/-- Draws a character: the upper six bits of a word, drawn again while they stand for none. -/
def drawCharacter : Nat → ρ → Char × ρ
  | 0, generator => ('A', generator)
  | tries + 1, generator =>
    let (word, generator) := words.next generator
    match randomCharacters[(word >>> 26).toNat]? with
    | some c => (c, generator)
    | none => drawCharacter tries generator

/-- Draws as many characters. -/
def drawCharacters : Nat → ρ → List Char × ρ
  | 0, generator => ([], generator)
  | n + 1, generator =>
    let (c, generator) := drawCharacter words words.period generator
    let (rest, generator) := drawCharacters n generator
    (c :: rest, generator)

def drawRandomName (generator : ρ) : String × ρ :=
  let (cs, generator) := drawCharacters words randomNameLength generator
  (String.ofList cs, generator)

/-- Draws a name that has not been seen. -/
def drawUnseen (seen : Std.HashSet String) : Nat → ρ → String × ρ
  | 0, generator => drawRandomName words generator
  | tries + 1, generator =>
    let (name, generator) := drawRandomName words generator
    if seen.contains name then drawUnseen seen tries generator else (name, generator)

end

/-- The state of a source of words and the names that have been given in each scope. -/
structure RandomNames (ρ : Type) where
  generator : ρ
  classes : Std.HashSet String := {}
  fields : Std.HashSet String := {}
  methods : Std.HashSet String := {}
  locals : Std.HashSet String := {}
  deriving Inhabited

namespace RandomNames

variable {ρ : Type}

def seen (names : RandomNames ρ) : Scope → Std.HashSet String
  | .classes => names.classes
  | .fields => names.fields
  | .methods => names.methods
  | .locals => names.locals

def withSeen (names : RandomNames ρ) (scope : Scope) (seen : Std.HashSet String) : RandomNames ρ :=
  match scope with
  | .classes => { names with classes := seen }
  | .fields => { names with fields := seen }
  | .methods => { names with methods := seen }
  | .locals => { names with locals := seen }

def draw (words : WordSource ρ) (scope : Scope) (names : RandomNames ρ) : String × RandomNames ρ :=
  let seen := names.seen scope
  let (name, generator) := drawUnseen words seen words.period names.generator
  (name, { names with generator }.withSeen scope (seen.insert name))

/-- Random names from one source of words for all scopes. -/
def source (words : WordSource ρ) : NameSource (RandomNames ρ) where
  draw := draw words
  enterClass names := { names with fields := {}, methods := {} }
  enterMethod names := { names with locals := {} }

end RandomNames

/-! ## Either kind -/

/-- The state of whichever source names come from. -/
inductive Naming (ρ : Type)
  | alphabetic (counters : Counters)
  | random (names : RandomNames ρ)
  deriving Inhabited

namespace Naming

variable {ρ : Type}

def draw (words : WordSource ρ) (scope : Scope) : Naming ρ → String × Naming ρ
  | .alphabetic counters => (Counters.source.draw scope counters).map id .alphabetic
  | .random names => ((RandomNames.source words).draw scope names).map id .random

/-- Names of the kind that the state is of. -/
def source (words : WordSource ρ) : NameSource (Naming ρ) where
  draw := draw words
  enterClass
    | .alphabetic counters => .alphabetic (Counters.source.enterClass counters)
    | .random names => .random ((RandomNames.source words).enterClass names)
  enterMethod
    | .alphabetic counters => .alphabetic (Counters.source.enterMethod counters)
    | .random names => .random ((RandomNames.source words).enterMethod names)

end Naming
end JvmArchive.Mapping
