import JvmArchive.Jar.Basic
import JvmArchive.Mapping.Format
import JvmArchive.Mapping.Strategy
import JvmArchive.Rename.Class
import JvmArchive.Transform.Dispatch

/-!
# Renaming and transforming jars

The phases between loading and saving: mappings are generated or loaded and then applied to all
classes, and visitors are shown around.
-/
namespace JvmArchive
namespace Jar

/-- Generates mappings for all classes, and renames local variables if that is wanted. The system gives a
generator for random names without a seed. -/
def generateMapping (jar : Jar) (config : Mapping.GeneratorConfig)
    (system : Random.Generator := default) : Job (Mapping.Store × Jar) := do
  Job.checkpoint jar.isCancelled .generate
  let graph := jar.graph.ensureResolved
  let source := Mapping.Namer.source
  match Mapping.generate source config.reserved graph (.ofStrategy config.strategy system) with
  | .error error => throw (.mappingGenerate error)
  | .ok (store, names) =>
    Job.log .info
      ("generated " ++ toString store.classCount ++ " class, " ++ toString store.fieldCount ++
        " field and " ++ toString store.methodCount ++ " method mappings")
    let graph :=
      if config.renamesLocals then (Mapping.renameLocals source graph names).1 else graph
    pure (store, { jar with graph })

/-- Loads a mapping file. -/
def loadMapping (jar : Jar) (format : Mapping.Format) (origin : Mapping.Format.Origin) :
    Job Mapping.Store := do
  Job.checkpoint jar.isCancelled .loadMapping
  match format.load origin with
  | .ok store => pure store
  | .error error => throw (.mappingLoad error)

/-- Tells the manifest with which class the program starts by now. -/
def updateManifest (jar : Jar) : Job Jar := do
  match jar.manifest, jar.mainClass? with
  | some manifest, some main =>
    if manifest.mainClass? = some main then pure jar
    else
      Job.log .info ("Main-Class is now " ++ main)
      pure { jar with manifest := some (manifest.setMainClass main) }
  | _, _ => pure jar

/-- Exchanges all names. The number of classes that have another name comes along. -/
def remap (jar : Jar) (store : Mapping.Store) : Job (Nat × Jar) := do
  Job.checkpoint jar.isCancelled .remap
  let renamed := jar.graph.renamedCount store
  let jar ← { jar with graph := jar.graph.rename store }.updateManifest
  Job.log .info
    ("remapped " ++ toString jar.graph.size ++ " classes, " ++ toString renamed ++ " renamed")
  pure (renamed, jar)

/-- Shows a visitor around and links the classes again. -/
def transform {σ : Type} (jar : Jar) (visitor : Visitor σ) (state : σ) :
    Job (Visitor.Report × σ × Jar) := do
  Job.checkpoint jar.isCancelled .transform
  let (graph, state, report) := visitor.dispatch jar.graph state
  Job.logAll (report.log visitor.name)
  pure (report, state, { jar with graph := graph.resolve })

end Jar
end JvmArchive
