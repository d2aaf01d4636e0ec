import JvmArchive.Proofs.ClassFile.Pool.Answers
import JvmArchive.Proofs.ClassFile.Pool.Sources

/-!
# Whole runs of requests

Building goes on from the pool of a class that was read, or from none, by any requests in any order. All
that was there stays where it was, the slots are read back from their bytes, and every index that was
handed out resolves to what it was handed out for. Main statements: `answers_request` for
one request, `requests_spec` for a run.
-/
namespace JvmArchive

/-- What a pool under construction can be asked for. A number is asked for as a constant. -/
inductive Request
  | utf8 (text : String)
  | class (name : String)
  | string (text : String)
  | nameAndType (name desc : String)
  | fieldRef (owner name desc : String)
  | methodRef (owner name desc : String) (interface : Bool)
  | handle (target : Handle)
  | methodType (desc : String)
  | constant (c : Constant)
  | bootstrapMethod (bootstrap : Handle) (arguments : List Constant)
  | invokeDynamic (name desc : String) (bootstrap : Handle) (arguments : List Constant)

namespace Request

/-- Asks a pool. -/
def write : Request → PoolWriter UInt16
  | utf8 text => PoolBuilder.utf8 text
  | .class name => PoolBuilder.class_ name
  | string text => PoolBuilder.string text
  | nameAndType name desc => PoolBuilder.nameAndType name desc
  | fieldRef owner name desc => PoolBuilder.fieldRef owner name desc
  | methodRef owner name desc interface => PoolBuilder.methodRef owner name desc interface
  | handle target => PoolBuilder.handle target
  | methodType desc => PoolBuilder.methodType desc
  | constant c => PoolBuilder.constant c
  | bootstrapMethod bootstrap arguments => PoolBuilder.bootstrapMethod bootstrap arguments
  | invokeDynamic name desc bootstrap arguments =>
    PoolBuilder.invokeDynamic name desc bootstrap arguments

/-- The index resolves in the pool to what was asked for. -/
def ResolvesIn (pool : ConstantPool) (index : UInt16) : Request → Prop
  | utf8 text => pool.utf8 index = .ok text
  | .class name => pool.className index = .ok name
  | string text => pool.constant index = .ok (.string text)
  | nameAndType name desc => pool.nameAndType index = .ok (name, desc)
  | fieldRef owner name desc => pool.member index = .ok ⟨owner, name, desc, false⟩
  | methodRef owner name desc interface => pool.member index = .ok ⟨owner, name, desc, interface⟩
  | handle target => pool.handle index = .ok target
  | methodType desc => pool.constant index = .ok (.methodType desc)
  | constant c => pool.constant index = .ok c
  | bootstrapMethod bootstrap arguments =>
    pool.bootstrapMethod (pool.constantWithin (ConstantPool.maxDepth - 1)) index =
      .ok (bootstrap, arguments)
  | invokeDynamic name desc bootstrap arguments =>
    pool.callSite index = .ok (name, desc, bootstrap, arguments)

/-- The texts in a request. -/
def texts : Request → List String
  | utf8 text | .class text | string text | methodType text => [text]
  | nameAndType name desc => [name, desc]
  | fieldRef owner name desc | methodRef owner name desc _ => [owner, name, desc]
  | handle target => target.texts
  | constant c => c.texts
  | bootstrapMethod bootstrap arguments => bootstrap.texts ++ Constant.textsOf arguments
  | invokeDynamic name desc bootstrap arguments =>
    name :: desc :: bootstrap.texts ++ Constant.textsOf arguments

/-- The handles in a request. -/
def handles : Request → List Handle
  | handle target => [target]
  | constant c => c.handles
  | bootstrapMethod bootstrap arguments | invokeDynamic _ _ bootstrap arguments =>
    bootstrap :: Constant.handlesOf arguments
  | _ => []

/-- How many dynamic constants nest in a request. -/
def depth : Request → Nat
  | constant c => c.depth
  | bootstrapMethod _ arguments | invokeDynamic _ _ _ arguments => Constant.depthOf arguments
  | _ => 0

/-- A request as a pool tells it. -/
def told : Request → Request
  | handle target => handle target.told
  | constant c => constant c.told
  | bootstrapMethod bootstrap arguments =>
    bootstrapMethod bootstrap.told (Constant.toldAll arguments)
  | invokeDynamic name desc bootstrap arguments =>
    invokeDynamic name desc bootstrap.told (Constant.toldAll arguments)
  | request => request

theorem told_eq {request : Request} (h : ∀ target ∈ request.handles, target.told = target) :
    request.told = request := by
  cases request with
  | handle target => rw [told, h target (by simp [handles])]
  | constant c => rw [told, Constant.told_eq h]
  | bootstrapMethod bootstrap arguments =>
    rw [handles, List.forall_mem_cons] at h
    rw [told, h.1, Constant.toldAll_eq h.2]
  | invokeDynamic name desc bootstrap arguments =>
    rw [handles, List.forall_mem_cons] at h
    rw [told, h.1, Constant.toldAll_eq h.2]
  | _ => rfl

end Request

namespace PoolWriter
open PoolBuilder

/-- A constant that is asked for alone. -/
theorem answers_loadable {c : Constant} (h : ∀ text ∈ c.texts, TextFits text) :
    Answers (constant c) fun final index =>
      c.depth ≤ 31 → final.toPool.constant index = .ok c.told := by
  apply (answers_constant c (max c.depth 32) h (le_max_left _ _)).mono
  intro final index _ hmeans hdepth
  have hresolved := hmeans.resolved
  rw [max_eq_right (by omega)] at hresolved
  exact hresolved

/-- Whatever fits is answered, though indices lead no deeper than readers follow them. -/
theorem answers_request (request : Request) (h : ∀ text ∈ request.texts, TextFits text) :
    Answers request.write fun final index =>
      request.depth ≤ 31 → request.told.ResolvesIn final.toPool index := by
  cases request with
  | utf8 text =>
    have htext : TextFits text := h text (by simp [Request.texts])
    exact (answers_utf8 htext).resolved.mono fun _ _ _ hresolved _ => hresolved
  | «class» name =>
    have hname : TextFits name := h name (by simp [Request.texts])
    exact (answers_class hname).resolved.mono fun _ _ _ hresolved _ => hresolved
  | string text =>
    exact answers_loadable (c := .string text) h
  | nameAndType name desc =>
    have hname : TextFits name := h name (by simp [Request.texts])
    have hdesc : TextFits desc := h desc (by simp [Request.texts])
    exact (answers_nameAndType hname hdesc).resolved.mono fun _ _ _ hresolved _ => hresolved
  | fieldRef owner name desc =>
    have howner : TextFits owner := h owner (by simp [Request.texts])
    have hname : TextFits name := h name (by simp [Request.texts])
    have hdesc : TextFits desc := h desc (by simp [Request.texts])
    exact (answers_fieldRef howner hname hdesc).resolved.mono fun _ _ _ hresolved _ => hresolved
  | methodRef owner name desc interface =>
    have howner : TextFits owner := h owner (by simp [Request.texts])
    have hname : TextFits name := h name (by simp [Request.texts])
    have hdesc : TextFits desc := h desc (by simp [Request.texts])
    have hanswers := answers_methodRef howner hname hdesc interface
    exact hanswers.resolved.mono fun _ _ _ hresolved _ => hresolved
  | handle target => exact (answers_handle h).resolved.mono fun _ _ _ hresolved _ => hresolved
  | methodType desc => exact answers_loadable (c := .methodType desc) h
  | constant c => exact answers_loadable h
  | bootstrapMethod bootstrap arguments =>
    rw [Request.texts, List.forall_mem_append] at h
    have harguments := answers_constants arguments (max (Constant.depthOf arguments + 1) 32) h.2
      (by omega)
    apply (answers_bootstrapMethod h.1 harguments).mono
    intro final row _ hrow hdepth
    rw [Request.depth] at hdepth
    rw [max_eq_right (by omega)] at hrow
    exact hrow
  | invokeDynamic name desc bootstrap arguments =>
    simp only [Request.texts, List.cons_append, List.forall_mem_cons, List.forall_mem_append] at h
    obtain ⟨hname, hdesc, hbootstrap, htexts⟩ := h
    have harguments := answers_constants arguments (max (Constant.depthOf arguments + 1) 32) htexts
      (by omega)
    apply (answers_invokeDynamic hname hdesc hbootstrap harguments).mono
    rintro final index _ ⟨-, hcall⟩ hdepth
    rw [Request.depth] at hdepth
    exact hcall (max_eq_right (by omega))

/-- Building on a pool that was read, or on none, starts with slots that are laid out. -/
theorem start_spec {pool : ConstantPool} (rows : Array BootstrapEntry)
    (hpool : pool = {} ∨ ∃ cursor later, ConstantPool.read cursor = .ok (pool, later))
    (htexts : ConstantPool.TextsFit pool.entries) (hsize : pool.entries.size ≤ maxSlots) :
    ConstantPool.WellLaid (ofPool { pool with bootstrap := rows }).entries ∧
      (ofPool { pool with bootstrap := rows }).entries.size ≤ maxSlots := by
  rcases hpool with rfl | ⟨cursor, later, hread⟩
  · have hentries : (ofPool { bootstrap := rows }).entries = #[.unusable] := rfl
    rw [hentries]
    exact ⟨⟨[], rfl, .nil⟩, by decide⟩
  · have hlaid := ConstantPool.gives_read _ _ _ hread htexts
    have hentries : (ofPool { pool with bootstrap := rows }).entries = pool.entries :=
      entries_ofPool hlaid.ne_empty
    rw [hentries]
    exact ⟨hlaid, hsize⟩

/-- What any requests make of a pool that was read, or of none: all slots and rows keep their indices, the
slots are read back from their bytes, and every index that was handed out resolves to what was asked,
and is what asking again gives. -/
theorem requests_spec (pool : ConstantPool) (rows : Array BootstrapEntry)
    (requests : List Request) (indices : List UInt16) (builder : PoolBuilder)
    (hpool : pool = {} ∨ ∃ cursor later, ConstantPool.read cursor = .ok (pool, later))
    (htexts : ConstantPool.TextsFit pool.entries)
    (hrequests : ∀ request ∈ requests, ∀ text ∈ request.texts, TextFits text)
    (hsize : pool.entries.size ≤ 65535)
    (hrun : requests.mapM Request.write (ofPool { pool with bootstrap := rows }) =
      .ok (indices, builder))
    (hrows : builder.bootstrap.size < 65536) :
    (∀ (i : Nat) (entry : PoolEntry), pool.entries[i]? = some entry →
        builder.entries[i]? = some entry) ∧
      (∀ (i : Nat) (row : BootstrapEntry), rows[i]? = some row → builder.bootstrap[i]? = some row) ∧
      ∃ written : ConstantPool,
        Reader.onBytes ConstantPool.read (ConstantPool.bytesOfEntries builder.entries) = .ok written ∧
        written.entries = builder.entries ∧
        List.Forall₂ (fun request index =>
          request.write builder = .ok (index, builder) ∧
            (request.depth ≤ 31 →
              (∀ handle ∈ request.handles,
                handle.kind ≤ HandleKind.putStatic → handle.interface = false) →
              request.ResolvesIn { written with bootstrap := builder.bootstrap } index))
          requests indices := by
  obtain ⟨hlaid, hstart⟩ := start_spec rows hpool htexts hsize
  have hanswers : ∀ request ∈ requests, Answers request.write _ := fun request hrequest =>
    (answers_request request (hrequests request hrequest)).again
  obtain ⟨hkeeps, hpost⟩ := answers_mapM hanswers _ _ _ (sound_ofPool hlaid) hrun
  have hfull := hkeeps.size_le hstart
  have hlt : builder.entries.size < 65536 := by
    rw [maxSlots] at hfull
    omega
  obtain ⟨-, hindices⟩ := hpost builder (.refl builder) ⟨hkeeps.sound, hlt, hrows⟩
  refine ⟨fun i entry hentry => hkeeps.entries (getElem?_entries_ofPool hentry),
    fun i row hrow => hkeeps.bootstrap hrow, { entries := builder.entries },
    (ConstantPool.reads_read hkeeps.sound.laid hlt).onBytes, rfl, hindices.imp ?_⟩
  rintro request index ⟨hsettled, hresolves⟩
  refine ⟨hsettled, fun hdepth hhandles => ?_⟩
  have htold := hresolves hdepth
  rw [Request.told_eq fun target htarget => Handle.told_eq (hhandles target htarget)] at htold
  exact htold

end PoolWriter

/-- Slots with a handle of a method, and with a name that stands there twice. -/
def ConstantPool.seeded : ConstantPool where
  entries := #[.unusable, .utf8 "p/A", .class 1, .utf8 "f", .utf8 "()V", .nameAndType 3 4,
    .methodRef 2 5, .methodHandle 6 6, .utf8 "f"]

def Handle.seed : Handle := ⟨6, "p/A", "f", "()V", false⟩

/-- A dynamic constant over a long. -/
def Constant.drawn : Constant := .dynamic "f" "I" .seed [.long 1]

/-- Requests that end with a call over a dynamic constant. -/
def Request.nested : List Request :=
  [.handle .seed, .bootstrapMethod .seed [], .constant (.long 1), .constant .drawn,
    .invokeDynamic "f" "()V" .seed [.drawn]]

namespace PoolWriter
open PoolBuilder

theorem wellLaid_seeded : ConstantPool.WellLaid ConstantPool.seeded.entries := by
  obtain ⟨howner, hname, hdesc⟩ : TextFits "p/A" ∧ TextFits "f" ∧ TextFits "()V" := by decide
  exact ⟨_, rfl, .narrow howner rfl (.narrow trivial rfl (.narrow hname rfl (.narrow hdesc rfl
    (.narrow trivial rfl (.narrow trivial rfl (.narrow trivial rfl (.narrow hname rfl .nil)))))))⟩

/-- The handle and its row are found, everything else comes behind. -/
theorem run_nested : ∃ builder : PoolBuilder,
    Request.nested.mapM Request.write (ofPool { ConstantPool.seeded with bootstrap := #[⟨7, []⟩] }) =
        .ok ([7, 0, 9, 13, 14], builder) ∧
      builder.bootstrap.size = 3 := by
  simp [Request.nested, ConstantPool.seeded, Handle.seed, Constant.drawn, Request.write, ofPool,
    firstIndices, PoolBuilder.utf8, class_, nameAndType, methodRef, PoolBuilder.handle, constant,
    constants, PoolBuilder.bootstrapMethod, PoolBuilder.invokeDynamic, add, addBootstrap, bind_run,
    map_run, Except.bind, Except.map, maxSlots, ConstantPool.pushEntry, PoolEntry.isWide,
    HandleKind.putStatic, Std.HashMap.getElem?_insert, Std.HashMap.getElem?_erase,
    Std.HashMap.getElem?_insertIfNew, -getElem?_pos]

/-- The call is read back with the dynamic constant that it is over. -/
theorem callSite_of_nested : ∃ (builder : PoolBuilder) (written : ConstantPool),
    Request.nested.mapM Request.write (ofPool { ConstantPool.seeded with bootstrap := #[⟨7, []⟩] }) =
        .ok ([7, 0, 9, 13, 14], builder) ∧
      Reader.onBytes ConstantPool.read (ConstantPool.bytesOfEntries builder.entries) = .ok written ∧
      ({ written with bootstrap := builder.bootstrap } : ConstantPool).callSite 14 =
        .ok ("f", "()V", .seed, [.drawn]) := by
  obtain ⟨builder, hrun, hrows⟩ := run_nested
  have hread := ConstantPool.reads_read wellLaid_seeded (by decide) 0 []
  have htexts : ConstantPool.TextsFit ConstantPool.seeded.entries := by
    intro text htext
    simp [ConstantPool.seeded] at htext
    rcases htext with rfl | rfl | rfl | rfl <;> decide
  obtain ⟨-, -, written, hwritten, -, hindices⟩ := requests_spec .seeded #[⟨7, []⟩] Request.nested
    [7, 0, 9, 13, 14] builder (.inr ⟨_, _, hread⟩) htexts (by decide) (by decide) hrun (by omega)
  simp only [Request.nested, List.forall₂_cons] at hindices
  exact ⟨builder, written, hrun, hwritten, hindices.2.2.2.2.1.2 (by decide) (by decide)⟩

end PoolWriter
end JvmArchive
