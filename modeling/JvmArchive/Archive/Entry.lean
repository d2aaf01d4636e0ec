import JvmArchive.Text.Cut

/-!
# Archive entries

The files of an archive in order, and what their paths tell.
-/
namespace JvmArchive

/-- A file in an archive. -/
structure ArchiveEntry where
  path : String
  data : List UInt8
  deriving Repr, DecidableEq, Inhabited

/-- The files of an archive and a comment on the whole. -/
structure Archive where
  entries : List ArchiveEntry := []
  comment : Option String := none
  deriving Repr, DecidableEq, Inhabited

namespace Archive

/-- Where the manifest stands. -/
def manifestPath : String := "META-INF/MANIFEST.MF"

/-- Whether a text ends with a word. -/
def endsWith (word text : List Char) : Bool := (Text.dropTrailing? word text).isSome

/-- Whether a path is that of a class file. -/
def isClassPath (path : String) : Bool := endsWith ".class".toList path.toList

/-- The ends of the paths of manifests and signature files. -/
def metadataEnds : List String := [manifestPath, ".SF", ".RSA", ".DSA"]

/-- Whether a path is that of the manifest or a signature file. Capitals are not distinguished. -/
def isMetadata (path : String) : Bool :=
  let upper := path.toList.map Char.toUpper
  metadataEnds.any fun ending => endsWith ending.toList upper

end Archive
end JvmArchive
