import JvmArchive.Archive.Entry
import JvmArchive.Archive.Error
import JvmArchive.Archive.Manifest
import JvmArchive.ClassFile.Error
import JvmArchive.Graph.Hierarchy
import JvmArchive.Graph.Resolve
import JvmArchive.Log
import JvmArchive.Mapping.Error

/-!
# Jars

An archive taken apart: its classes as a graph, its other files, and its manifest. Work on a jar writes a
log and can be cancelled between its phases.
-/
namespace JvmArchive

/-! ## Errors -/

/-- The phases of the work, before each of which it can be cancelled. -/
inductive Phase
  | load
  | resolve
  | generate
  | loadMapping
  | remap
  | transform
  | serialize
  deriving Repr, DecidableEq, Inhabited

def Phase.name : Phase → String
  | load => "load"
  | resolve => "resolve"
  | generate => "generate"
  | loadMapping => "load mapping"
  | remap => "remap"
  | transform => "transform"
  | serialize => "serialize"

/-- Why work on an archive stops. -/
inductive JobError
  | archive (error : ArchiveError)
  | mappingLoad (error : Mapping.LoadError)
  | mappingGenerate (error : Mapping.GenerateError)
  | classWrite (className : String) (error : WriteError)
  | unknownClass (name : String)
  | cancelled (phase : Phase)
  deriving Repr, DecidableEq, Inhabited

def JobError.message : JobError → String
  | archive error => "archive error: " ++ error.message
  | mappingLoad error => "mapping load error: " ++ error.message
  | mappingGenerate error => "mapping generation error: " ++ error.message
  | classWrite className error => "could not write class " ++ className ++ ": " ++ error.message
  | unknownClass name => "unknown class " ++ name
  | cancelled phase => "cancelled before " ++ phase.name

/-! ## Work -/

/-- Work that writes a log and may stop. What has been logged by then stays. -/
abbrev Job := ExceptT JobError (StateM (List LogRecord))

namespace Job

/-- Runs work from an empty log on. -/
def start {α : Type} (job : Job α) : Except JobError α × List LogRecord :=
  (ExceptT.run job).run []

def log (level : LogLevel) (message : String) : Job Unit :=
  modifyGet fun records => ((), records ++ [{ level, message }])

def logAll (records : List LogRecord) : Job Unit :=
  modifyGet fun before => ((), before ++ records)

/-- Stops before a phase if the work has been cancelled. -/
def checkpoint (isCancelled : Bool) (phase : Phase) : Job Unit :=
  if isCancelled then throw (.cancelled phase) else pure ()

end Job

/-- An archive taken apart. -/
structure Jar where
  graph : ClassGraph := {}
  /-- The files that are neither classes nor metadata, by their paths. -/
  resources : Table String (List UInt8) := .empty
  manifest : Option Manifest := none
  comment : Option String := none
  /-- Whether work on the archive is to stop before its next phase. -/
  isCancelled : Bool := false
  deriving Inhabited

namespace Jar

/-- An archive without files, with a manifest that tells its version. -/
def empty : Jar := { manifest := some .empty }

def cancel (jar : Jar) : Jar := { jar with isCancelled := true }

/-- The name of the class with which the program starts. -/
def mainClass? (jar : Jar) : Option String := (jar.graph.toList.find? (·.isMain)).map (·.name)

/-- Puts a file at a path. -/
def putResource (jar : Jar) (path : String) (data : List UInt8) : Jar :=
  { jar with resources := jar.resources.insert path data }

def removeResource (jar : Jar) (path : String) : Jar :=
  { jar with resources := jar.resources.erase path }

/-- Adds a class without members. -/
def createClass (jar : Jar) (access : Access) (name : String) (superName : Option String)
    (interfaces : List String) : Jar :=
  { jar with
    graph :=
      jar.graph.insert
        (.create ClassEntry.defaultVersion access name superName interfaces) }

/-- Links the classes again. -/
def resolve (jar : Jar) : Job Jar := do
  Job.checkpoint jar.isCancelled .resolve
  pure { jar with graph := jar.graph.resolve }

end Jar
end JvmArchive
