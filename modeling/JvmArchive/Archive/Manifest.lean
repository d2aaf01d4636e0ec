import JvmArchive.Archive.Error
import JvmArchive.Table
import JvmArchive.Text.Cut
import JvmArchive.Text.Quoted
import JvmArchive.Text.Utf8

/-!
# Manifests

The main section of an archive's manifest: attributes in order, whose names do not distinguish capitals.
A long attribute is written over several lines, of which all but the first start with a space.
-/
namespace JvmArchive

namespace Text

/-- A text with small letters for the capitals of ASCII. -/
def foldCase (s : String) : String := s.map Char.toLower

/-- Whether two texts agree but for the capitals of ASCII. -/
def sameFolded (a b : String) : Bool := foldCase a == foldCase b

end Text

structure Manifest where
  attributes : Table String String := .empty
  deriving Repr, Inhabited

namespace Manifest

def versionKey : String := "Manifest-Version"
def mainClassKey : String := "Main-Class"
def defaultVersion : String := "1.0"

/-- A manifest that tells no more than its version. -/
def empty : Manifest := { attributes := Table.ofList [(versionKey, defaultVersion)] }

def toList (manifest : Manifest) : List (String × String) := manifest.attributes.entries

/-- The name under which an attribute stands, if it is there. -/
def keyOf? (manifest : Manifest) (key : String) : Option String :=
  manifest.attributes.keys.find? (Text.sameFolded · key)

def get? (manifest : Manifest) (key : String) : Option String :=
  (manifest.keyOf? key).bind manifest.attributes.get?

/-- Sets an attribute. One that is there keeps its place and the way in which its name is written. -/
def insert (manifest : Manifest) (key value : String) : Manifest :=
  { attributes := manifest.attributes.insert ((manifest.keyOf? key).getD key) value }

/-- Takes an attribute out. -/
def erase (manifest : Manifest) (key : String) : Manifest :=
  match manifest.keyOf? key with
  | some key => { attributes := manifest.attributes.erase key }
  | none => manifest

/-- A class name as attributes write it, made internal. -/
def internalName (name : String) : String :=
  Text.replaceChar '.' '/' (String.ofList (Text.trim name.toList))

/-- The class where the program starts. -/
def mainClass? (manifest : Manifest) : Option String :=
  ((manifest.get? mainClassKey).map internalName).filter (!·.isEmpty)

def setMainClass (manifest : Manifest) (name : String) : Manifest :=
  manifest.insert mainClassKey (Text.replaceChar '/' '.' name)

/-- Whether two manifests have the same attributes, in whatever order. -/
def same (a b : Manifest) : Bool := a.attributes.same b.attributes

/-! ## Reading -/

/-- A line without the carriage return at its end. -/
def lineText (line : List Char) : List Char := (Text.dropTrailing? ['\r'] line).getD line

/-- The attribute of a line. One space behind the colon does not count. -/
def readAttribute (line : List Char) : Except String (String × String) :=
  match Text.cut? ':' line with
  | some (key, value) =>
    pure (String.ofList (Text.trim key),
      String.ofList ((Text.dropLeading? [' '] value).getD value))
  | none => throw ("missing ':' in " ++ Text.quote (String.ofList line))

/-- Reads numbered lines up to the first empty one. The attribute that a line continues comes along. -/
def readLines : List (List Char) → Nat → Option String → Manifest → Except ArchiveError Manifest
  | [], _, _, manifest => pure manifest
  | line :: rest, number, last, manifest =>
    match lineText line with
    | [] => pure manifest
    | ' ' :: more =>
      match last with
      | none => throw (.manifest number "continuation line without an attribute")
      | some key =>
        readLines rest (number + 1) last
          { attributes := manifest.attributes.update key (· ++ String.ofList more) }
    | text =>
      match readAttribute text with
      | .error details => throw (.manifest number details)
      | .ok (key, value) =>
        let key := (manifest.keyOf? key).getD key
        readLines rest (number + 1) (some key) (manifest.insert key value)

/-- Reads the main section of a manifest. -/
def ofBytes (bytes : List UInt8) : Except ArchiveError Manifest :=
  readLines ((Text.decodeLossy bytes).splitOnP (· = '\n')) 1 none {}

/-! ## Writing -/

/-- How many bytes a line has room for. -/
def lineLimit : Nat := 72

/-- Breaks a text where the next character has no room; each later line starts with a space. -/
def wrap : Nat → List Char → List Char
  | _, [] => []
  | room, c :: rest =>
    if c.utf8Size ≤ room then c :: wrap (room - c.utf8Size) rest
    else '\r' :: '\n' :: ' ' :: c :: wrap (lineLimit - 1 - c.utf8Size) rest

def attributeText (key value : String) : List Char :=
  wrap lineLimit (key ++ ": " ++ value).toList ++ ['\r', '\n']

/-- The text of a manifest, with the version before all other attributes. -/
def text (manifest : Manifest) : List Char :=
  attributeText versionKey ((manifest.get? versionKey).getD defaultVersion) ++
    ((manifest.toList.filter fun entry => !Text.sameFolded entry.1 versionKey).flatMap
      fun entry => attributeText entry.1 entry.2) ++
    ['\r', '\n']

def toBytes (manifest : Manifest) : List UInt8 := Text.utf8 manifest.text

end Manifest
end JvmArchive
