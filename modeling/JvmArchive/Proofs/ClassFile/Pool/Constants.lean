import JvmArchive.Proofs.ClassFile.Pool.Answers

/-!
# Indices and what they stand for

Every index that the writer of a class asks a pool for resolves to what was asked, in every pool that
comes of it, and a pool that has been asked once gives the same index again and stays as it is. The rows
that are added to the bootstrap table can be counted and are named by entries. Main statement:
`yields_constant`, for constants that nest through bootstrap methods. That the same request gets the same
index needs no condition on the pool, the texts or the depth: `recalls_constant`.
-/
namespace JvmArchive

/-- The texts of a handle fit, and a handle of a field says that its owner is no interface, since a
reference to a field does not tell. -/
def Handle.Fits (handle : Handle) : Prop :=
  TextFits handle.owner ∧ TextFits handle.name ∧ TextFits handle.desc ∧
    (handle.kind ≤ HandleKind.putStatic → handle.interface = false)

theorem Handle.Fits.texts {handle : Handle} (h : handle.Fits) : ∀ text ∈ handle.texts, TextFits text := by
  simpa [Handle.texts] using ⟨h.1, h.2.1, h.2.2.1⟩

theorem Handle.Fits.told_eq {handle : Handle} (h : handle.Fits) : handle.told = handle :=
  Handle.told_eq h.2.2.2

namespace Constant

mutual
/-- The texts of a constant fit, and so do the numbers of its arguments. -/
def Fits : Constant → Prop
  | .string text | .class text | .methodType text => TextFits text
  | .methodHandle handle => handle.Fits
  | .dynamic name desc bootstrap arguments =>
    TextFits name ∧ TextFits desc ∧ bootstrap.Fits ∧ arguments.length < 65536 ∧ FitAll arguments
  | _ => True

def FitAll : List Constant → Prop
  | [] => True
  | c :: cs => Fits c ∧ FitAll cs
end

mutual
theorem Fits.texts : ∀ {c : Constant}, c.Fits → ∀ text ∈ c.texts, TextFits text
  | .integer _, _ | .float _, _ | .long _, _ | .double _, _ => by simp [Constant.texts]
  | .string text, h | .class text, h | .methodType text, h => by
    rw [Fits] at h
    simpa [Constant.texts] using h
  | .methodHandle handle, h => by
    rw [Fits] at h
    rw [Constant.texts]
    exact Handle.Fits.texts h
  | .dynamic name desc bootstrap arguments, h => by
    rw [Fits] at h
    obtain ⟨hname, hdesc, hbootstrap, -, harguments⟩ := h
    simp only [Constant.texts, List.cons_append, List.forall_mem_cons, List.forall_mem_append]
    exact ⟨hname, hdesc, hbootstrap.texts, fitAll_texts harguments⟩

theorem fitAll_texts : ∀ {cs : List Constant}, FitAll cs → ∀ text ∈ textsOf cs, TextFits text
  | [], _ => by simp [textsOf]
  | c :: cs, h => by
    rw [FitAll] at h
    rw [textsOf, List.forall_mem_append]
    exact ⟨Fits.texts h.1, fitAll_texts h.2⟩
end

mutual
/-- The handles of a constant say of fields no more than references to fields do. -/
theorem Fits.handles : ∀ {c : Constant}, c.Fits → ∀ handle ∈ c.handles, handle.told = handle
  | .integer _, _ | .float _, _ | .long _, _ | .double _, _ => by simp [Constant.handles]
  | .string _, _ | .class _, _ | .methodType _, _ => by simp [Constant.handles]
  | .methodHandle handle, h => by
    rw [Fits] at h
    simpa [Constant.handles] using Handle.Fits.told_eq h
  | .dynamic name desc bootstrap arguments, h => by
    rw [Fits] at h
    obtain ⟨-, -, hbootstrap, -, harguments⟩ := h
    rw [Constant.handles, List.forall_mem_cons]
    exact ⟨hbootstrap.told_eq, fitAll_handles harguments⟩

theorem fitAll_handles : ∀ {cs : List Constant}, FitAll cs →
    ∀ handle ∈ handlesOf cs, handle.told = handle
  | [], _ => by simp [handlesOf]
  | c :: cs, h => by
    rw [FitAll] at h
    rw [handlesOf, List.forall_mem_append]
    exact ⟨Fits.handles h.1, fitAll_handles h.2⟩
end

end Constant

namespace PoolWriter
open PoolBuilder

variable {α β : Type}

/-- In the builder the writer gives this index without changing anything, the index is not the one
that stands for nothing, and it resolves to the value. -/
structure Finds (write : PoolWriter UInt16)
    (resolve : ConstantPool → UInt16 → Except FormatError α) (value : α) (builder : PoolBuilder)
    (index : UInt16) : Prop where
  settled : write builder = .ok (index, builder)
  ne_zero : index ≠ 0
  resolved : resolve builder.toPool index = .ok value

/-- What a request is answered holds if the rows that it adds can be counted and are named. -/
theorem Answers.yields {write : PoolWriter UInt16}
    {resolve : ConstantPool → UInt16 → Except FormatError α} {value : α}
    (h : Answers write (Means resolve value)) (hrows : Yields write fun _ _ => True) :
    Yields write (Finds write resolve value) := by
  intro builder later index hvalid hrun
  refine ⟨(hrows builder later index hvalid hrun).1, fun final hfinal hcomplete => ?_⟩
  obtain ⟨hsettled, hmeans⟩ :=
    (h builder later index hvalid.sound hrun).2 final hfinal hcomplete.closed
  exact ⟨hsettled, hmeans.ne_zero, hmeans.resolved⟩

/-! ## The rows of the bootstrap table -/

theorem rows_add {entry : PoolEntry} (hentry : entry.Writable) : Yields (add entry) fun _ _ => True :=
  (yields_add hentry).mono fun _ _ _ _ => trivial

/-- One request after another. -/
theorem rows_bind {write : PoolWriter α} {next : α → PoolWriter β} (h : Yields write fun _ _ => True)
    (hnext : ∀ a, (∃ builder later, write builder = .ok (a, later)) →
      Yields (next a) fun _ _ => True) : Yields (write >>= next) fun _ _ => True :=
  h.bind_of fun a hrun => (hnext a hrun).mono fun _ _ _ _ _ => trivial

theorem rows_utf8 {text : String} (h : TextFits text) : Yields (utf8 text) fun _ _ => True :=
  rows_add h

theorem rows_class {name : String} (h : TextFits name) : Yields (class_ name) fun _ _ => True :=
  rows_bind (rows_utf8 h) fun _ _ => rows_add trivial

theorem rows_nameAndType {name desc : String} (hname : TextFits name) (hdesc : TextFits desc) :
    Yields (nameAndType name desc) fun _ _ => True :=
  rows_bind (rows_utf8 hname) fun _ _ => rows_bind (rows_utf8 hdesc) fun _ _ => rows_add trivial

section
variable {owner name desc : String} (howner : TextFits owner) (hname : TextFits name)
  (hdesc : TextFits desc)
include howner hname hdesc

theorem rows_fieldRef : Yields (fieldRef owner name desc) fun _ _ => True :=
  rows_bind (rows_class howner) fun _ _ => rows_bind (rows_nameAndType hname hdesc) fun _ _ =>
    rows_add trivial

theorem rows_methodRef (interface : Bool) :
    Yields (methodRef owner name desc interface) fun _ _ => True := by
  refine rows_bind (rows_class howner) fun _ _ => rows_bind (rows_nameAndType hname hdesc) fun _ _ => ?_
  cases interface with
  | false => exact rows_add trivial
  | true => exact rows_add trivial

end

theorem rows_handle {target : Handle} (h : target.Fits) : Yields (handle target) fun _ _ => True := by
  obtain ⟨howner, hname, hdesc, -⟩ := h
  rw [handle]
  split
  · exact rows_bind (rows_fieldRef howner hname hdesc) fun _ _ => rows_add trivial
  · exact rows_bind (rows_methodRef howner hname hdesc _) fun _ _ => rows_add trivial

/-- A row and its entry come in one step, so that no row stays without a name. -/
theorem rows_row (entry : UInt16 → UInt16 → PoolEntry) (hwritable : ∀ i j, (entry i j).Writable)
    (hrowOf : ∀ i j, rowOf (entry i j) = some i) {row : BootstrapEntry}
    (hrow : row.arguments.length < 65536) {name desc : String} (hname : TextFits name)
    (hdesc : TextFits desc) :
    Yields (addBootstrap row >>= fun i => nameAndType name desc >>= fun j => add (entry i j))
      fun _ _ => True := by
  intro builder later index hvalid hrun
  obtain ⟨i, middle, hadd, hrest⟩ := bind_ok hrun
  obtain ⟨j, last, hmember, hentry⟩ := bind_ok hrest
  obtain ⟨hmiddle, hextends, hentries, -, hsize⟩ := addBootstrap_spec hvalid hrow hadd
  obtain ⟨hgrows, -⟩ := rows_nameAndType hname hdesc _ _ _ hmiddle hmember
  obtain ⟨hlater, hextends', hrows, hfound⟩ := add_spec hgrows.valid (hwritable i j) hentry
  refine ⟨⟨hextends.trans (hgrows.toExtends.trans hextends'), hlater, ?_, ?_⟩, fun _ _ _ => trivial⟩
  · intro hle
    rw [← hentries] at hle
    exact size_add_le (hgrows.size_le hle) hentry
  · intro r hle hlt
    rw [hrows] at hlt
    by_cases hr : r < middle.bootstrap.size
    · -- The row that was added is named by the entry that comes last.
      have hlast : i = r.toUInt16 := by
        rcases hsize with hsize | ⟨hsize, hi⟩
        · omega
        · rw [hi]
          congr 1
          omega
      obtain ⟨n, -, hn⟩ := hlater.indices hfound
      exact ⟨n, _, hn, by rw [hrowOf, hlast]⟩
    · exact (hgrows.named r (by omega) hlt).extend hextends'

theorem length_constants {cs : List Constant} {builder later : PoolBuilder} {indices : List UInt16}
    (h : constants cs builder = .ok (indices, later)) : indices.length = cs.length := by
  induction cs generalizing builder later indices with
  | nil =>
    rw [constants] at h
    cases h
    rfl
  | cons c cs ih =>
    rw [constants] at h
    obtain ⟨index, middle, -, hrest⟩ := bind_ok h
    obtain ⟨rest, last, hcs, hpure⟩ := bind_ok hrest
    cases hpure
    rw [List.length_cons, List.length_cons, ih hcs]

/-- A row with its handle and its arguments, and the entry that names it. -/
theorem rows_bootstrap (entry : UInt16 → UInt16 → PoolEntry) (hwritable : ∀ i j, (entry i j).Writable)
    (hrowOf : ∀ i j, rowOf (entry i j) = some i) {bootstrap : Handle} (hbootstrap : bootstrap.Fits)
    {cs : List Constant} (hlength : cs.length < 65536) (hcs : Yields (constants cs) fun _ _ => True)
    {name desc : String} (hname : TextFits name) (hdesc : TextFits desc) :
    Yields (bootstrapMethod bootstrap cs >>= fun i => nameAndType name desc >>= fun j =>
      add (entry i j)) fun _ _ => True := by
  simp only [bootstrapMethod, bind_assoc]
  refine rows_bind (rows_handle hbootstrap) fun i _ => rows_bind hcs ?_
  rintro indices ⟨_, _, hrun⟩
  have hrow : indices.length < 65536 := by rwa [length_constants hrun]
  exact rows_row entry hwritable hrowOf hrow hname hdesc

mutual
theorem rows_constant : ∀ c : Constant, c.Fits → Yields (constant c) fun _ _ => True
  | .integer _, _ | .float _, _ | .long _, _ | .double _, _ => rows_add trivial
  | .string _, h | .class _, h | .methodType _, h =>
    rows_bind (rows_utf8 h) fun _ _ => rows_add trivial
  | .methodHandle _, h => rows_handle h
  | .dynamic name desc bootstrap arguments, h => by
    obtain ⟨hname, hdesc, hbootstrap, hlength, harguments⟩ := h
    rw [constant_dynamic]
    exact rows_bootstrap .dynamic (fun _ _ => trivial) (fun _ _ => rfl) hbootstrap hlength
      (rows_constants arguments harguments) hname hdesc

theorem rows_constants : ∀ cs : List Constant, Constant.FitAll cs →
    Yields (constants cs) fun _ _ => True
  | [], _ => yields_pure fun _ _ => trivial
  | c :: cs, h => by
    rw [constants]
    refine rows_bind (rows_constant c h.1) fun _ _ => rows_bind (rows_constants cs h.2) fun _ _ => ?_
    exact yields_pure fun _ _ => trivial
end

/-! ## What indices lead to -/

/-- An entry whose index resolves in one step. -/
theorem yields_entry (entry : PoolEntry) (hentry : entry.Writable)
    {resolve : ConstantPool → UInt16 → Except FormatError α} {value : α}
    (hresolve : ∀ (pool : ConstantPool) (index : UInt16), pool.entry? index = some entry →
      resolve pool index = .ok value) :
    Yields (add entry) (Finds (add entry) resolve value) :=
  (answers_entry entry hentry hresolve).yields (rows_add hentry)

theorem yields_utf8 {text : String} (h : TextFits text) :
    Yields (utf8 text) (Finds (utf8 text) ConstantPool.utf8 text) :=
  (answers_utf8 h).yields (rows_utf8 h)

theorem yields_class {name : String} (h : TextFits name) :
    Yields (class_ name) (Finds (class_ name) ConstantPool.className name) :=
  (answers_class h).yields (rows_class h)

theorem yields_nameAndType {name desc : String} (hname : TextFits name) (hdesc : TextFits desc) :
    Yields (nameAndType name desc)
      (Finds (nameAndType name desc) ConstantPool.nameAndType (name, desc)) :=
  (answers_nameAndType hname hdesc).yields (rows_nameAndType hname hdesc)

theorem yields_fieldRef {owner name desc : String} (howner : TextFits owner) (hname : TextFits name)
    (hdesc : TextFits desc) :
    Yields (fieldRef owner name desc)
      (Finds (fieldRef owner name desc) ConstantPool.member ⟨owner, name, desc, false⟩) :=
  (answers_fieldRef howner hname hdesc).yields (rows_fieldRef howner hname hdesc)

theorem yields_methodRef {owner name desc : String} (interface : Bool) (howner : TextFits owner)
    (hname : TextFits name) (hdesc : TextFits desc) :
    Yields (methodRef owner name desc interface)
      (Finds (methodRef owner name desc interface) ConstantPool.member
        ⟨owner, name, desc, interface⟩) :=
  (answers_methodRef howner hname hdesc interface).yields (rows_methodRef howner hname hdesc interface)

/-- The index of a constant leads to the constant, however its dynamic constants nest below the bound
on their depth. -/
theorem yields_constant (c : Constant) (depth : Nat) (h : c.Fits) (hdepth : c.depth ≤ depth) :
    Yields (constant c) (Finds (constant c) (fun pool => pool.constantWithin (depth + 1)) c) := by
  have hanswers := answers_constant c depth h.texts hdepth
  rw [Constant.told_eq h.handles] at hanswers
  exact hanswers.yields (rows_constant c h)

/-- The index of a dynamic call leads to its name, its descriptor and its bootstrap method. -/
theorem yields_invokeDynamic {name desc : String} {bootstrap : Handle} {cs : List Constant}
    (hname : TextFits name) (hdesc : TextFits desc) (hbootstrap : bootstrap.Fits)
    (hlength : cs.length < 65536) (hcs : Constant.FitAll cs)
    (hdepth : Constant.depthOf cs < ConstantPool.maxDepth - 1) :
    Yields (invokeDynamic name desc bootstrap cs)
      (Finds (invokeDynamic name desc bootstrap cs) ConstantPool.callSite
        (name, desc, bootstrap, cs)) := by
  have hanswers : Answers (invokeDynamic name desc bootstrap cs)
      (Means ConstantPool.callSite (name, desc, bootstrap, cs)) := by
    apply (answers_invokeDynamic hname hdesc hbootstrap.texts
      (answers_constants cs _ (Constant.fitAll_texts hcs) hdepth)).mono
    rintro final index _ ⟨hzero, hresolved⟩
    rw [hbootstrap.told_eq, Constant.toldAll_eq (Constant.fitAll_handles hcs)] at hresolved
    exact ⟨hzero, hresolved rfl⟩
  exact hanswers.yields (rows_bootstrap .invokeDynamic (fun _ _ => trivial) (fun _ _ => rfl)
    hbootstrap hlength (rows_constants cs hcs) hname hdesc)

/-! ## The same request again

A pool never takes anything away, whatever it holds and whatever is asked of it. -/

theorem recalls_add (entry : PoolEntry) : Recalls (add entry) := by
  intro builder later index hrun
  obtain ⟨hextends, -, hindex⟩ := extends_of_add hrun
  exact ⟨hextends, fun final hfinal => add_settled (hfinal.indices hindex)⟩

theorem recalls_addBootstrap (row : BootstrapEntry) : Recalls (addBootstrap row) := by
  intro builder later index hrun
  obtain ⟨hextends, -, hindex⟩ := extends_of_addBootstrap hrun
  exact ⟨hextends, fun final hfinal => addBootstrap_settled (hfinal.bootstrapIndices hindex)⟩

theorem recalls_class (name : String) : Recalls (class_ name) :=
  (recalls_add _).bind fun _ => recalls_add _

theorem recalls_nameAndType (name desc : String) : Recalls (nameAndType name desc) :=
  (recalls_add _).bind fun _ => (recalls_add _).bind fun _ => recalls_add _

theorem recalls_fieldRef (owner name desc : String) : Recalls (fieldRef owner name desc) :=
  (recalls_class owner).bind fun _ => (recalls_nameAndType name desc).bind fun _ => recalls_add _

theorem recalls_methodRef (owner name desc : String) (interface : Bool) :
    Recalls (methodRef owner name desc interface) :=
  (recalls_class owner).bind fun _ => (recalls_nameAndType name desc).bind fun _ => recalls_add _

theorem recalls_handle (target : Handle) : Recalls (handle target) := by
  rw [handle]
  split
  · exact (recalls_fieldRef _ _ _).bind fun _ => recalls_add _
  · exact (recalls_methodRef _ _ _ _).bind fun _ => recalls_add _

mutual
/-- Every constant has one index for good. -/
theorem recalls_constant : ∀ c : Constant, Recalls (constant c)
  | .integer _ | .float _ | .long _ | .double _ => by
    rw [constant]
    exact recalls_add _
  | .string _ | .methodType _ => by
    rw [constant]
    exact (recalls_add _).bind fun _ => recalls_add _
  | .class name => by
    rw [constant]
    exact recalls_class name
  | .methodHandle target => by
    rw [constant]
    exact recalls_handle target
  | .dynamic name desc bootstrap arguments => by
    rw [constant]
    exact (recalls_handle bootstrap).bind fun _ => (recalls_constants arguments).bind fun _ =>
      (recalls_addBootstrap _).bind fun _ => (recalls_nameAndType name desc).bind fun _ =>
      recalls_add _

theorem recalls_constants : ∀ cs : List Constant, Recalls (constants cs)
  | [] => by
    rw [constants]
    exact recalls_pure _
  | c :: cs => by
    rw [constants]
    exact (recalls_constant c).bind fun _ => (recalls_constants cs).bind fun _ => recalls_pure _
end

theorem recalls_invokeDynamic (name desc : String) (bootstrap : Handle) (arguments : List Constant) :
    Recalls (invokeDynamic name desc bootstrap arguments) := by
  have hrow : Recalls (bootstrapMethod bootstrap arguments) :=
    (recalls_handle bootstrap).bind fun _ => (recalls_constants arguments).bind fun _ =>
      recalls_addBootstrap _
  exact hrow.bind fun _ => (recalls_nameAndType name desc).bind fun _ => recalls_add _

end PoolWriter
end JvmArchive
