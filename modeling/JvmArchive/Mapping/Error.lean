/-!
# Mapping errors

Why a mapping file cannot be loaded and why no mapping can be generated.
-/
namespace JvmArchive.Mapping

inductive LoadError
  | notFound
  /-- The file is there and cannot be read as text. -/
  | unreadable (details : String)
  /-- A line is no line of the format. -/
  | malformed (line : Nat) (details raw : String)
  deriving Repr, DecidableEq, Inhabited

def LoadError.message : LoadError → String
  | notFound => "mapping file not found"
  | unreadable details => details
  | malformed line details raw =>
    "mapping parse error at line " ++ toString line ++ ": " ++ details ++ " ⇒ \x60" ++ raw ++ "\x60"

inductive GenerateError
  /-- The links of the class graph are stale. -/
  | notResolved
  /-- There are mappings already; so many of them are for classes. -/
  | storeNotEmpty (classes : Nat)
  deriving Repr, DecidableEq, Inhabited

def GenerateError.message : GenerateError → String
  | notResolved => "class arena must be resolved before generating mappings"
  | storeNotEmpty classes =>
    "mapping store already holds " ++ toString classes ++ " class mappings"

end JvmArchive.Mapping
