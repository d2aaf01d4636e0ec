import JvmArchive.Archive.Zip.Read
import JvmArchive.Graph.Edit
import JvmArchive.Jar.Basic

/-!
# Loading jars

Sorting the files of an archive into classes, resources and the manifest. Signatures are dropped, since
they would not fit any more, and files that are no classes in spite of their names are left out.
-/
namespace JvmArchive
namespace Jar

structure LoadOptions where
  /-- The class with which the program starts, if not the one in the manifest. -/
  mainClass : Option String := none
  deriving Repr, DecidableEq, Inhabited

/-- What has been sorted so far, and how many files were no classes. -/
structure Sorted where
  jar : Jar := {}
  skipped : Nat := 0
  deriving Inhabited

/-- Sorts a file. -/
def sortEntry (sorted : Sorted) (entry : ArchiveEntry) : Job Sorted := do
  if Text.sameFolded entry.path Archive.manifestPath then
    match Manifest.ofBytes entry.data with
    | .ok manifest => pure { sorted with jar := { sorted.jar with manifest := some manifest } }
    | .error error => throw (.archive error)
  else if Archive.isMetadata entry.path then pure sorted
  else if Archive.isClassPath entry.path then
    match ClassEntry.ofBytes entry.data with
    | .ok class_ =>
      pure { sorted with jar := { sorted.jar with graph := sorted.jar.graph.insert class_ } }
    | .error error =>
      Job.log .warn ("skipping invalid class " ++ entry.path ++ ": " ++ error.message)
      pure { sorted with skipped := sorted.skipped + 1 }
  else pure { sorted with jar := sorted.jar.putResource entry.path entry.data }

/-- Marks a class as the one with which the program starts. -/
def markMain (jar : Jar) (name : String) : Job Jar := do
  if jar.graph.contains name then
    pure { jar with graph := jar.graph.update name (·.setMain true) }
  else
    Job.log .warn ("main class " ++ name ++ " is not in the archive")
    pure jar

/-- The class with which the program starts, after the options or else after the manifest. -/
def wantedMain? (jar : Jar) (options : LoadOptions) : Option String :=
  (options.mainClass.map Manifest.internalName).or (jar.manifest.bind Manifest.mainClass?)

/-- Takes an archive apart and links its classes. Whether the archive could be read matters only if the
work has not been cancelled. -/
def loadFrom (archive : Except ArchiveError Archive) (options : LoadOptions)
    (isCancelled : Bool) : Job Jar := do
  Job.checkpoint isCancelled .load
  match archive with
  | .error error => throw (.archive error)
  | .ok archive =>
    let sorted ← archive.entries.foldlM sortEntry
      { jar := { comment := archive.comment, isCancelled } }
    let jar ← match wantedMain? sorted.jar options with
      | some name => markMain sorted.jar name
      | none => pure sorted.jar
    Job.log .info
      ("loaded " ++ toString jar.graph.size ++ " classes and " ++
        toString jar.resources.length ++ " resources (" ++ toString sorted.skipped ++
        " classes skipped)")
    { jar with graph := jar.graph.repairOuter.1 }.resolve

/-- Takes an archive in memory apart and links its classes. -/
def load (archive : Archive) (options : LoadOptions) (isCancelled : Bool) : Job Jar :=
  loadFrom (.ok archive) options isCancelled

/-- Takes the archive in a file apart, if there is one. Its container is listed before the work can be
cancelled. -/
def openContainer (file : Option (List UInt8)) (options : LoadOptions) (isCancelled : Bool) :
    Job Jar := do
  match file with
  | none => throw (.archive .notFound)
  | some bytes =>
    match Zip.Container.list (.ofFile bytes) with
    | .error fault => throw (.archive (.container fault))
    | .ok container => loadFrom container.read options isCancelled

end Jar
end JvmArchive
