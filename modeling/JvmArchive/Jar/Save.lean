import JvmArchive.Jar.Basic

/-!
# Saving jars

Putting an archive together again: first the manifest, then the classes, then all other files.
-/
namespace JvmArchive
namespace Jar

structure SaveOptions where
  /-- How the names of the classes start that are written; all are if there is nothing here. -/
  filters : List String := []
  frames : FrameMode := .preserve
  /-- A comment instead of the one that the archive has had. -/
  comment : Option String := none
  deriving Repr, DecidableEq, Inhabited

/-- Whether a class is written. -/
def SaveOptions.accepts (options : SaveOptions) (name : String) : Bool :=
  options.filters.isEmpty ||
    options.filters.any fun start => name.startsWith (Text.replaceChar '.' '/' start)

/-- What has been written. -/
structure SaveReport where
  classesWritten : Nat := 0
  classesFiltered : Nat := 0
  resourcesWritten : Nat := 0
  /-- The classes whose frames could not be computed and were left as they are. -/
  frameFallbacks : List String := []
  deriving Repr, DecidableEq, Inhabited

/-- Writes a class in a way. -/
def writeClassWith (jar : Jar) (entry : ClassEntry) (frames : FrameMode) :
    Except WriteError (List UInt8) :=
  entry.toBytes { frames, common := jar.graph.commonSuper }

/-- Writes a class. If its frames cannot be computed, those that it has are kept, and this is told. -/
def writeClass (jar : Jar) (entry : ClassEntry) (frames : FrameMode) :
    Job (List UInt8 × Bool) := do
  match jar.writeClassWith entry frames with
  | .ok bytes => pure (bytes, false)
  | .error (.fault cause) => throw (.classWrite entry.name (.fault cause))
  | .error error =>
    if frames = .compute then
      Job.log .warn
        ("could not compute frames for " ++ entry.name ++ ", keeping existing frames: " ++
          error.message)
      match jar.writeClassWith entry .preserve with
      | .ok bytes => pure (bytes, true)
      | .error error => throw (.classWrite entry.name error)
    else throw (.classWrite entry.name error)

/-- The class file of the class under a name. -/
def classBytes (jar : Jar) (name : String) (frames : FrameMode) : Job (List UInt8) := do
  match jar.graph.get? name with
  | none => throw (.unknownClass name)
  | some entry => return (← jar.writeClass entry frames).1

/-- Writes a class unless it is filtered out. -/
def saveClass (jar : Jar) (options : SaveOptions) (state : SaveReport × List ArchiveEntry)
    (entry : ClassEntry) : Job (SaveReport × List ArchiveEntry) := do
  let (report, entries) := state
  if !options.accepts entry.name then
    pure ({ report with classesFiltered := report.classesFiltered + 1 }, entries)
  else
    let (data, fellBack) ← jar.writeClass entry options.frames
    let report :=
      { report with
        classesWritten := report.classesWritten + 1
        frameFallbacks :=
          if fellBack then report.frameFallbacks ++ [entry.name] else report.frameFallbacks }
    pure (report, entries ++ [{ path := entry.name ++ ".class", data }])

/-- The manifest as a file. -/
def manifestEntries (jar : Jar) : List ArchiveEntry :=
  jar.manifest.toList.map fun manifest =>
    { path := Archive.manifestPath, data := manifest.toBytes }

/-- The resources as files. -/
def resourceEntries (jar : Jar) : List ArchiveEntry :=
  jar.resources.entries.map fun (path, data) => { path, data }

/-- Puts the archive together. -/
def save (jar : Jar) (options : SaveOptions) : Job (SaveReport × Archive) := do
  Job.checkpoint jar.isCancelled .serialize
  let (report, entries) ← jar.graph.toList.foldlM (jar.saveClass options)
    ({}, jar.manifestEntries)
  let report := { report with resourcesWritten := jar.resources.length }
  Job.log .info
    ("wrote " ++ toString report.classesWritten ++ " classes and " ++
      toString report.resourcesWritten ++ " resources")
  pure (report,
    { entries := entries ++ jar.resourceEntries, comment := options.comment.or jar.comment })

end Jar
end JvmArchive
