import JvmArchive.Mapping.Store
import JvmArchive.Text.Cut

/-!
# SRG mapping files

One mapping a line under a tag: `CL` for classes, `FD` for fields, `MD` for methods. Members are paths
below their class. A `PK` line, for packages, says nothing here.
-/
namespace JvmArchive.Mapping.Srg

/-- Cuts a member path into its class and its name. -/
def readPath (path : List Char) (failure : String) : Except String (String × String) :=
  match Text.cutLast? '/' path with
  | some (owner, name) => pure (String.ofList owner, String.ofList name)
  | none => throw failure

/-- Adds what a line with a tag says. -/
def readEntry (store : Store) (tag : String) (parts : List (List Char)) : Except String Store :=
  match tag, parts with
  | "PK", _ => pure store
  | "CL", [name, mapping] => pure (store.mapClass (String.ofList name) (String.ofList mapping))
  | "FD", [name, mapping] => do
    let (owner, name) ← readPath name "field without owner"
    let (_, mapping) ← readPath mapping "field mapping without owner"
    pure ((store.ensureClass owner).mapField owner { name, mapping, desc := "" })
  | "MD", [name, desc, mapping, mappedDesc] => do
    let (owner, name) ← readPath name "method without owner"
    let (_, mapping) ← readPath mapping "method mapping without owner"
    pure ((store.ensureClass owner).mapMethod owner
      { name, mapping, desc := String.ofList desc, mappedDesc := String.ofList mappedDesc })
  | _, _ =>
    if ["CL", "FD", "MD"].contains tag then throw ("wrong number of fields for " ++ tag)
    else throw ("unknown entry tag \x60" ++ tag ++ "\x60")

/-- Adds what a line says. -/
def readLine (store : Store) (line : List Char) : Except String Store :=
  let trimmed := Text.trim line
  if trimmed.isEmpty || trimmed.head? == some '#' then pure store
  else
    match Text.cut? ':' trimmed with
    | some (tag, rest) => readEntry store (String.ofList tag) (Text.words rest)
    | none => throw "missing entry tag"

def classLine (name mapping : String) : String := "CL: " ++ name ++ " " ++ mapping ++ "\n"

def fieldLine (owner mappedOwner : String) (field : FieldMapping) : String :=
  "FD: " ++ owner ++ "/" ++ field.name ++ " " ++ mappedOwner ++ "/" ++ field.mapping ++ "\n"

def methodLine (owner mappedOwner : String) (method : MethodMapping) : String :=
  "MD: " ++ owner ++ "/" ++ method.name ++ " " ++ method.desc ++ " " ++ mappedOwner ++ "/" ++
    method.mapping ++ " " ++ method.mappedDesc ++ "\n"

/-- Writes the mappings of a store: first all classes, then all fields, then all methods. -/
def write (store : Store) : String :=
  String.join
    (store.classes.entries.map (fun (name, mapping) => classLine name mapping) ++
      store.fields.entries.flatMap (fun (owner, fields) =>
        fields.map (fieldLine owner (store.mappedName owner))) ++
      store.methods.entries.flatMap (fun (owner, methods) =>
        methods.map (methodLine owner (store.mappedName owner))))

end JvmArchive.Mapping.Srg
