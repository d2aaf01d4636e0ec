import JvmArchive.Text.Cut

/-!
# Renaming in generic signatures

Class, method and field signatures with type parameters and arguments, and the rewriting of the class
names in them. The suffix of an inner class, `Inner` in `Lp/Outer<TT;>.Inner;`, becomes what follows
the new outer name and a dollar sign in the new name of `p/Outer$Inner`.

The text is scanned once from left to right with a stack of what is still awaited, so that text of any
shape is accepted and whatever names no class is copied.
-/
namespace JvmArchive.Signature

/-- What a scan awaits after the text read so far. -/
inductive Awaited
  /-- One type. -/
  | type
  /-- Arguments, suffixes or the end of the class type with this full name. -/
  | suffixes (name : List Char)
  /-- Type arguments up to the closing angle. -/
  | arguments
  /-- The name of a type parameter, or the closing angle. -/
  | parameters
  /-- The bounds of a type parameter, which may lack a name. -/
  | bounds (named : Bool)
  deriving Repr, DecidableEq

/-- The new name of a class, which is the old one where the map has none. -/
def rename (f : String → Option String) (name : List Char) : List Char :=
  match f (String.ofList name) with
  | some mapped => mapped.toList
  | none => name

/-- Whether a character ends the name of a class or of a suffix. -/
def endsName (c : Char) : Bool := c == '<' || c == '.' || c == ';'

/-- How an inner class is written behind its outer class: what follows the outer name and a dollar
sign, or the last part between dollar signs if the new name does not extend the outer one. -/
def innerSuffix (outer mapped : List Char) : List Char :=
  match Text.dropLeading? (outer ++ ['$']) mapped with
  | some suffix => suffix
  | none => Text.afterLast '$' mapped

/-- Reads the first character of a type. The results are what is written for it, what is awaited next
and the text that is left. -/
def openType (f : String → Option String) (c : Char) (rest : List Char) :
    List Char × List Awaited × List Char :=
  match c with
  | 'L' =>
    let name := rest.takeWhile (!endsName ·)
    ('L' :: rename f name, [.suffixes name], rest.dropWhile (!endsName ·))
  | 'T' =>
    let after := rest.dropWhile (· != ';')
    ('T' :: rest.takeWhile (· != ';') ++ after.take 1, [], after.drop 1)
  | '[' => (['['], [.type], rest)
  | c => ([c], [], rest)

/-- Whether a text starts with a type that names a class, a variable or an array. -/
def startsBound : List Char → Bool
  | 'L' :: _ | 'T' :: _ | '[' :: _ => true
  | _ => false

theorem length_dropWhile_le (p : Char → Bool) (s : List Char) :
    (s.dropWhile p).length ≤ s.length :=
  (List.dropWhile_sublist p).length_le

theorem length_openType_le (f : String → Option String) (c : Char) (rest : List Char) :
    (openType f c rest).2.2.length ≤ rest.length := by
  unfold openType
  split
  · exact length_dropWhile_le _ _
  · simp only [List.length_drop]
    have := length_dropWhile_le (· != ';') rest
    omega
  · exact Nat.le_refl _
  · exact Nat.le_refl _

/-- How often an entry can be dropped or replaced without reading. -/
def Awaited.weight : Awaited → Nat
  | .bounds _ => 2
  | .type | .suffixes _ | .arguments | .parameters => 1

/-- How many steps a stack can take without reading, at most. -/
def pending : List Awaited → Nat
  | [] => 0
  | awaited :: stack => awaited.weight + pending stack

/-- Scans a signature. Nothing is written after the end of the text. -/
def scan (f : String → Option String) (stack : List Awaited) (s : List Char) : List Char :=
  match stack, s with
  | _, [] => []
  | [], c :: rest =>
    if c = '(' ∨ c = ')' ∨ c = '^' then c :: scan f [] rest
    else
      let opened := openType f c rest
      opened.1 ++ scan f opened.2.1 opened.2.2
  | .type :: stack, c :: rest =>
    let opened := openType f c rest
    opened.1 ++ scan f (opened.2.1 ++ stack) opened.2.2
  | .suffixes name :: stack, c :: rest =>
    if c = '<' then c :: scan f (.arguments :: .suffixes name :: stack) rest
    else if c = '.' then
      let inner := rest.takeWhile (!endsName ·)
      let full := name ++ '$' :: inner
      '.' :: innerSuffix (rename f name) (rename f full) ++
        scan f (.suffixes full :: stack) (rest.dropWhile (!endsName ·))
    else if c = ';' then c :: scan f stack rest
    else scan f stack (c :: rest)
  | .arguments :: stack, c :: rest =>
    if c = '>' then c :: scan f stack rest
    else if c = '*' then c :: scan f (.arguments :: stack) rest
    else if c = '+' ∨ c = '-' then c :: scan f (.type :: .arguments :: stack) rest
    else
      let opened := openType f c rest
      opened.1 ++ scan f (opened.2.1 ++ .arguments :: stack) opened.2.2
  | .parameters :: stack, c :: rest =>
    if c = '>' then c :: scan f stack rest
    else if c = ':' then
      c :: scan f
        (if startsBound rest then .type :: .bounds false :: stack else .bounds false :: stack) rest
    else
      c :: rest.takeWhile (fun d => d != ':' && d != '>') ++
        scan f (.bounds true :: stack) (rest.dropWhile fun d => d != ':' && d != '>')
  | .bounds named :: stack, c :: rest =>
    if c = ':' then
      c :: scan f
        (if startsBound rest then .type :: .bounds named :: stack else .bounds named :: stack) rest
    else if !named && c != '>' then c :: scan f (.parameters :: stack) rest
    else scan f (.parameters :: stack) (c :: rest)
termination_by (s.length, pending stack)
decreasing_by
  all_goals
    have h₁ := length_dropWhile_le (!endsName ·) rest
    have h₂ := length_dropWhile_le (fun d => d != ':' && d != '>') rest
    simp only [Prod.lex_def, List.length_cons, pending, Awaited.weight]
    first
      | omega
      | exact Or.inr ⟨trivial, by omega⟩
      | exact Or.inl (Nat.lt_succ_of_le (length_openType_le _ _ _))

/-- Renames every class of a signature; a name without an image is kept. -/
def map (f : String → Option String) (text : String) : String :=
  match text.toList with
  | '<' :: rest => String.ofList ('<' :: scan f [.parameters] rest)
  | s => String.ofList (scan f [] s)

end JvmArchive.Signature
