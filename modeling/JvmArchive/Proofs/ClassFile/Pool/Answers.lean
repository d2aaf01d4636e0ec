import JvmArchive.ClassFile.Pool.Resolve
import JvmArchive.Proofs.ClassFile.Pool.Writers

/-!
# What pools answer

Every request to a pool under construction makes it grow, and the index that it gets answers it from then
on: in every pool beyond, the request gets the same index again and changes nothing, and the index
resolves to what was asked. Of a handle a pool tells all but one thing: that the owner of a field is an
interface. Main statements: `answers_constant` and `answers_invokeDynamic`.
-/
namespace JvmArchive

/-! ## What a pool can tell -/

/-- A handle as a pool tells it. A reference to a field does not say whether its owner is an interface. -/
def Handle.told (handle : Handle) : Handle :=
  if handle.kind ≤ HandleKind.putStatic then { handle with interface := false } else handle

theorem Handle.told_eq {handle : Handle}
    (h : handle.kind ≤ HandleKind.putStatic → handle.interface = false) : handle.told = handle := by
  by_cases hkind : handle.kind ≤ HandleKind.putStatic
  · rw [Handle.told, if_pos hkind, ← h hkind]
  · rw [Handle.told, if_neg hkind]

/-- The texts in a handle. -/
def Handle.texts (handle : Handle) : List String := [handle.owner, handle.name, handle.desc]

namespace Constant

mutual
/-- How many dynamic constants nest in a constant. -/
def depth : Constant → Nat
  | .dynamic _ _ _ arguments => depthOf arguments + 1
  | _ => 0

/-- How many dynamic constants nest in the deepest of some constants. -/
def depthOf : List Constant → Nat
  | [] => 0
  | c :: cs => max (depth c) (depthOf cs)
end

mutual
/-- A constant as a pool tells it. -/
def told : Constant → Constant
  | .methodHandle handle => .methodHandle handle.told
  | .dynamic name desc bootstrap arguments =>
    .dynamic name desc bootstrap.told (toldAll arguments)
  | c => c

def toldAll : List Constant → List Constant
  | [] => []
  | c :: cs => told c :: toldAll cs
end

mutual
/-- The handles in a constant. -/
def handles : Constant → List Handle
  | .methodHandle handle => [handle]
  | .dynamic _ _ bootstrap arguments => bootstrap :: handlesOf arguments
  | _ => []

def handlesOf : List Constant → List Handle
  | [] => []
  | c :: cs => handles c ++ handlesOf cs
end

mutual
theorem told_eq : ∀ {c : Constant}, (∀ handle ∈ c.handles, handle.told = handle) → c.told = c
  | .integer _, _ | .float _, _ | .long _, _ | .double _, _ => by simp [told]
  | .string _, _ | .class _, _ | .methodType _, _ => by simp [told]
  | .methodHandle handle, h => by
    rw [told, h handle (by simp [handles])]
  | .dynamic name desc bootstrap arguments, h => by
    rw [handles, List.forall_mem_cons] at h
    rw [told, h.1, toldAll_eq h.2]

theorem toldAll_eq : ∀ {cs : List Constant},
    (∀ handle ∈ handlesOf cs, handle.told = handle) → toldAll cs = cs
  | [], _ => rfl
  | c :: cs, h => by
    rw [handlesOf, List.forall_mem_append] at h
    rw [toldAll, told_eq h.1, toldAll_eq h.2]
end

mutual
/-- The texts in a constant. -/
def texts : Constant → List String
  | .string text | .class text | .methodType text => [text]
  | .methodHandle handle => handle.texts
  | .dynamic name desc bootstrap arguments => name :: desc :: bootstrap.texts ++ textsOf arguments
  | _ => []

def textsOf : List Constant → List String
  | [] => []
  | c :: cs => texts c ++ textsOf cs
end

end Constant

namespace PoolBuilder

/-- How a request may change a builder: what is there stays, and so does the bound on the size. -/
structure Keeps (builder later : PoolBuilder) : Prop extends Extends builder later where
  sound : later.Sound
  size_le : builder.entries.size ≤ maxSlots → later.entries.size ≤ maxSlots

theorem Keeps.refl {builder : PoolBuilder} (h : builder.Sound) : Keeps builder builder where
  toExtends := .refl builder
  sound := h
  size_le := id

theorem Keeps.trans {a b c : PoolBuilder} (hab : Keeps a b) (hbc : Keeps b c) : Keeps a c where
  toExtends := hab.toExtends.trans hbc.toExtends
  sound := hbc.sound
  size_le h := hbc.size_le (hab.size_le h)

end PoolBuilder

namespace PoolWriter
open PoolBuilder

variable {α β : Type}

/-! ## Requests one after the other -/

/-- From a sound builder the request only makes it grow, and in every closed builder beyond it gives its
result again without changing anything, and the result has the property. -/
def Answers (write : PoolWriter α) (post : PoolBuilder → α → Prop) : Prop :=
  ∀ (builder later : PoolBuilder) (a : α), builder.Sound → write builder = .ok (a, later) →
    Keeps builder later ∧ ∀ final : PoolBuilder, Extends later final → final.Closed →
      write final = .ok (a, final) ∧ post final a

theorem answers_pure {post : PoolBuilder → α → Prop} {a : α}
    (h : ∀ final : PoolBuilder, final.Closed → post final a) : Answers (pure a) post := by
  intro builder later b hsound hrun
  cases hrun
  exact ⟨.refl hsound, fun final _ hclosed => ⟨rfl, h final hclosed⟩⟩

/-- One request after another, the second of which may go by the answer to the first. -/
theorem Answers.bind {write : PoolWriter α} {next : α → PoolWriter β} {post : PoolBuilder → α → Prop}
    {goal : PoolBuilder → β → Prop} (h : Answers write post)
    (hnext : ∀ a, Answers (next a) fun final b => post final a → goal final b) :
    Answers (write >>= next) goal := by
  intro builder later b hsound hrun
  obtain ⟨a, middle, hwrite, hrest⟩ := bind_ok hrun
  obtain ⟨hkeeps, hpost⟩ := h _ _ _ hsound hwrite
  obtain ⟨hkeeps', hgoal⟩ := hnext a _ _ _ hkeeps.sound hrest
  refine ⟨hkeeps.trans hkeeps', fun final hfinal hclosed => ?_⟩
  obtain ⟨hsettled, ha⟩ := hpost final (hkeeps'.toExtends.trans hfinal) hclosed
  obtain ⟨hsettled', hb⟩ := hgoal final hfinal hclosed
  exact ⟨(bind_settled hsettled).trans hsettled', hb ha⟩

theorem Answers.mono {write : PoolWriter α} {post goal : PoolBuilder → α → Prop} (h : Answers write post)
    (himp : ∀ (final : PoolBuilder) (a : α), final.Closed → post final a → goal final a) :
    Answers write goal := by
  intro builder later a hsound hrun
  obtain ⟨hkeeps, hpost⟩ := h _ _ _ hsound hrun
  refine ⟨hkeeps, fun final hfinal hclosed => ?_⟩
  obtain ⟨hsettled, ha⟩ := hpost final hfinal hclosed
  exact ⟨hsettled, himp final a hclosed ha⟩

/-- A last step that only puts the result together. -/
theorem Answers.bind_pure {write : PoolWriter α} {f : α → β} {post : PoolBuilder → α → Prop}
    {goal : PoolBuilder → β → Prop} (h : Answers write post)
    (himp : ∀ (final : PoolBuilder) (a : α), final.Closed → post final a → goal final (f a)) :
    Answers (write >>= fun a => pure (f a)) goal :=
  h.bind fun a => answers_pure fun final hclosed => himp final a hclosed

/-- A request that has been answered is answered in the same way again. -/
theorem Answers.again {write : PoolWriter α} {post : PoolBuilder → α → Prop} (h : Answers write post) :
    Answers write fun final a => write final = .ok (a, final) ∧ post final a := by
  intro builder later a hsound hrun
  obtain ⟨hkeeps, hpost⟩ := h _ _ _ hsound hrun
  exact ⟨hkeeps, fun final hfinal hclosed =>
    ⟨(hpost final hfinal hclosed).1, hpost final hfinal hclosed⟩⟩

/-- Items that are asked for one after the other. -/
theorem answers_mapM {write : α → PoolWriter β} {post : α → PoolBuilder → β → Prop} {items : List α}
    (h : ∀ item ∈ items, Answers (write item) (post item)) :
    Answers (items.mapM write) fun final written =>
      List.Forall₂ (fun item b => post item final b) items written := by
  induction items with
  | nil =>
    rw [List.mapM_nil]
    exact answers_pure fun _ _ => .nil
  | cons item items ih =>
    rw [List.mapM_cons]
    refine (h item List.mem_cons_self).bind fun b => ?_
    refine (ih fun other hother => h other (List.mem_cons_of_mem _ hother)).bind_pure ?_
    exact fun final rest _ hrest hb => .cons hb hrest

/-! ## Entries and rows -/

/-- An entry that is in the pool is found again. -/
theorem add_settled {builder : PoolBuilder} {entry : PoolEntry} {index : UInt16}
    (h : builder.indices[entry]? = some index) : add entry builder = .ok (index, builder) := by
  simp only [add, h]

theorem addBootstrap_settled {builder : PoolBuilder} {row : BootstrapEntry} {index : UInt16}
    (h : builder.bootstrapIndices[row]? = some index) :
    addBootstrap row builder = .ok (index, builder) := by
  simp only [addBootstrap, h]

theorem ne_zero_of_index {builder : PoolBuilder} (hclosed : builder.Closed) {entry : PoolEntry}
    {index : UInt16} (hentry : entry.Writable) (h : builder.indices[entry]? = some index) :
    index ≠ 0 := by
  rintro rfl
  have hzero := hclosed.entry_eq h
  rw [hclosed.sound.entry_zero] at hzero
  cases hzero
  exact hentry

/-- The index is not the one that stands for nothing, and it resolves to the value. -/
structure Means (resolve : ConstantPool → UInt16 → Except FormatError α) (value : α)
    (builder : PoolBuilder) (index : UInt16) : Prop where
  ne_zero : index ≠ 0
  resolved : resolve builder.toPool index = .ok value

theorem answers_add {entry : PoolEntry} (hentry : entry.Writable) :
    Answers (add entry) fun final index =>
      index ≠ 0 ∧ final.toPool.entry? index = some entry := by
  intro builder later index hsound hrun
  obtain ⟨hlater, hextends, -, hindex⟩ := hsound.of_add hentry hrun
  refine ⟨⟨hextends, hlater, fun hsize => size_add_le hsize hrun⟩, fun final hfinal hclosed => ?_⟩
  have hfound := hfinal.indices hindex
  exact ⟨add_settled hfound, ne_zero_of_index hclosed hentry hfound, hclosed.entry_eq hfound⟩

theorem answers_addBootstrap (row : BootstrapEntry) :
    Answers (addBootstrap row) fun final index =>
      final.toPool.bootstrap[index.toNat]? = some row := by
  intro builder later index hsound hrun
  obtain ⟨hlater, hextends, hentries, hindex, -⟩ := hsound.of_addBootstrap hrun
  refine ⟨⟨hextends, hlater, fun hsize => hentries ▸ hsize⟩, fun final hfinal hclosed => ?_⟩
  have hfound := hfinal.bootstrapIndices hindex
  exact ⟨addBootstrap_settled hfound, hclosed.row_eq hfound⟩

section
variable {resolve : ConstantPool → UInt16 → Except FormatError α} {value : α}

/-- An entry whose index resolves in one step. -/
theorem answers_entry (entry : PoolEntry) (hentry : entry.Writable)
    (hresolve : ∀ (pool : ConstantPool) (index : UInt16), pool.entry? index = some entry →
      resolve pool index = .ok value) :
    Answers (add entry) (Means resolve value) :=
  (answers_add hentry).mono fun final index _ hindex =>
    ⟨hindex.1, hresolve final.toPool index hindex.2⟩

/-- An entry over the index of another one. -/
theorem answers_over (entry : UInt16 → PoolEntry) {inner : PoolWriter UInt16}
    {resolveInner : ConstantPool → UInt16 → Except FormatError β} {b : β}
    (hinner : Answers inner (Means resolveInner b)) (hentry : ∀ index, (entry index).Writable)
    (hresolve : ∀ (pool : ConstantPool) (index reference : UInt16),
      pool.entry? index = some (entry reference) → resolveInner pool reference = .ok b →
        resolve pool index = .ok value) :
    Answers (inner >>= fun index => add (entry index)) (Means resolve value) := by
  refine hinner.bind fun reference => (answers_add (hentry reference)).mono ?_
  exact fun final index _ hindex hfound =>
    ⟨hindex.1, hresolve final.toPool index reference hindex.2 hfound.resolved⟩

/-- An entry over two indices, the first of which may be one of the bootstrap table. -/
theorem answers_over₂ {γ : Type} (entry : UInt16 → UInt16 → PoolEntry)
    (resolveFirst : ConstantPool → UInt16 → Except FormatError β) {first second : PoolWriter UInt16}
    {resolveSecond : ConstantPool → UInt16 → Except FormatError γ} {b : β} {c : γ}
    (hfirst : Answers first fun final i => resolveFirst final.toPool i = .ok b)
    (hsecond : Answers second (Means resolveSecond c)) (hentry : ∀ i j, (entry i j).Writable)
    (hresolve : ∀ (pool : ConstantPool) (index i j : UInt16),
      pool.entry? index = some (entry i j) → resolveFirst pool i = .ok b →
        resolveSecond pool j = .ok c → resolve pool index = .ok value) :
    Answers (first >>= fun i => second >>= fun j => add (entry i j)) (Means resolve value) := by
  refine hfirst.bind fun i => hsecond.bind fun j => (answers_add (hentry i j)).mono ?_
  exact fun final index _ hindex hj hi =>
    ⟨hindex.1, hresolve final.toPool index i j hindex.2 hi hj.resolved⟩

theorem Answers.resolved {write : PoolWriter UInt16} (h : Answers write (Means resolve value)) :
    Answers write fun final index => resolve final.toPool index = .ok value :=
  h.mono fun _ _ _ hmeans => hmeans.resolved

end

/-! ## Names, members and handles -/

theorem answers_utf8 {text : String} (h : TextFits text) :
    Answers (utf8 text) (Means ConstantPool.utf8 text) := by
  apply answers_entry (.utf8 text) h
  intro pool index hentry
  simp only [ConstantPool.utf8, hentry]

theorem answers_class {name : String} (h : TextFits name) :
    Answers (class_ name) (Means ConstantPool.className name) := by
  apply answers_over .class (answers_utf8 h) (fun _ => trivial)
  intro pool index reference hentry hname
  simp only [ConstantPool.className, hentry, hname]

theorem answers_nameAndType {name desc : String} (hname : TextFits name) (hdesc : TextFits desc) :
    Answers (nameAndType name desc) (Means ConstantPool.nameAndType (name, desc)) := by
  apply answers_over₂ .nameAndType ConstantPool.utf8 (answers_utf8 hname).resolved (answers_utf8 hdesc)
    (fun _ _ => trivial)
  intro pool index i j hentry hi hj
  simp only [ConstantPool.nameAndType, hentry, hi, hj]
  rfl

section
variable {owner name desc : String} (howner : TextFits owner) (hname : TextFits name)
  (hdesc : TextFits desc)
include howner hname hdesc

theorem answers_fieldRef :
    Answers (fieldRef owner name desc) (Means ConstantPool.member ⟨owner, name, desc, false⟩) := by
  apply answers_over₂ .fieldRef ConstantPool.className (answers_class howner).resolved
    (answers_nameAndType hname hdesc) (fun _ _ => trivial)
  intro pool index i j hentry hi hj
  simp only [ConstantPool.member, ConstantPool.memberWords?, hentry, hi, hj]
  rfl

theorem answers_methodRef (interface : Bool) :
    Answers (methodRef owner name desc interface)
      (Means ConstantPool.member ⟨owner, name, desc, interface⟩) := by
  have hclass := (answers_class howner).resolved
  have hmember := answers_nameAndType hname hdesc
  cases interface with
  | false =>
    apply answers_over₂ .methodRef ConstantPool.className hclass hmember (fun _ _ => trivial)
    intro pool index i j hentry hi hj
    simp only [ConstantPool.member, ConstantPool.memberWords?, hentry, hi, hj]
    rfl
  | true =>
    apply answers_over₂ .interfaceMethodRef ConstantPool.className hclass hmember (fun _ _ => trivial)
    intro pool index i j hentry hi hj
    simp only [ConstantPool.member, ConstantPool.memberWords?, hentry, hi, hj]
    rfl

end

/-- A handle over the reference that it goes with. -/
theorem answers_methodHandle (kind : UInt8) {reference : PoolWriter UInt16}
    {member : ConstantPool.Member} (h : Answers reference (Means ConstantPool.member member)) :
    Answers (reference >>= fun index => add (.methodHandle kind index))
      (Means ConstantPool.handle
        ⟨kind, member.owner, member.name, member.desc, member.interface⟩) := by
  apply answers_over (.methodHandle kind) h (fun _ => trivial)
  intro pool index reference hentry hreference
  simp only [ConstantPool.handle, hentry, hreference]
  rfl

theorem answers_handle {target : Handle} (h : ∀ text ∈ target.texts, TextFits text) :
    Answers (handle target) (Means ConstantPool.handle target.told) := by
  have howner : TextFits target.owner := h _ (by simp [Handle.texts])
  have hname : TextFits target.name := h _ (by simp [Handle.texts])
  have hdesc : TextFits target.desc := h _ (by simp [Handle.texts])
  by_cases hkind : target.kind ≤ HandleKind.putStatic
  · have hwrite : handle target = (fieldRef target.owner target.name target.desc >>= fun index =>
        add (.methodHandle target.kind index)) := by
      simp only [handle, if_pos hkind]
    rw [hwrite, Handle.told, if_pos hkind]
    exact answers_methodHandle target.kind (answers_fieldRef howner hname hdesc)
  · have hwrite : handle target =
        (methodRef target.owner target.name target.desc target.interface >>= fun index =>
          add (.methodHandle target.kind index)) := by
      simp only [handle, if_neg hkind]
    rw [hwrite, Handle.told, if_neg hkind]
    exact answers_methodHandle target.kind (answers_methodRef howner hname hdesc target.interface)

/-! ## Constants -/

theorem constant_dynamic (name desc : String) (bootstrap : Handle) (arguments : List Constant) :
    constant (.dynamic name desc bootstrap arguments) =
      (bootstrapMethod bootstrap arguments >>= fun i => nameAndType name desc >>= fun j =>
        add (.dynamic i j)) := by
  simp only [constant, bootstrapMethod, bind_assoc]

/-- A handle that is loaded as a constant. -/
theorem constantWithin_of_handle {pool : ConstantPool} {index : UInt16} {target : Handle} (depth : Nat)
    (h : pool.handle index = .ok target) :
    pool.constantWithin (depth + 1) index = .ok (.methodHandle target) := by
  have hentry : ∃ kind reference, pool.entry? index = some (.methodHandle kind reference) := by
    unfold ConstantPool.handle at h
    split at h
    next kind reference hentry => exact ⟨kind, reference, hentry⟩
    next => cases h
  obtain ⟨kind, reference, hentry⟩ := hentry
  simp only [ConstantPool.constantWithin, hentry, h, Except.map]

/-- What a row of the bootstrap table says, once its handle and its arguments are known. -/
theorem answers_bootstrapMethod {bootstrap : Handle} {cs told : List Constant} {depth : Nat}
    (hbootstrap : ∀ text ∈ bootstrap.texts, TextFits text)
    (hcs : Answers (constants cs) fun final indices =>
      indices.mapM (final.toPool.constantWithin depth) = .ok told) :
    Answers (bootstrapMethod bootstrap cs) fun final row =>
      final.toPool.bootstrapMethod (final.toPool.constantWithin depth) row =
        .ok (bootstrap.told, told) := by
  refine (answers_handle hbootstrap).bind fun i => hcs.bind fun indices => ?_
  refine (answers_addBootstrap ⟨i, indices⟩).mono fun final row _ hrow hindices hhandle => ?_
  simp only [ConstantPool.bootstrapMethod, hrow, hhandle.resolved, hindices]
  rfl

mutual
/-- The index of a constant answers it however its dynamic constants nest below the bound on their
depth. -/
theorem answers_constant : ∀ (c : Constant) (depth : Nat), (∀ text ∈ c.texts, TextFits text) →
    c.depth ≤ depth →
      Answers (constant c) (Means (fun pool => pool.constantWithin (depth + 1)) c.told)
  | .integer value, depth, _, _ => by
    apply answers_entry (.integer value) trivial
    intro pool index hentry
    simp only [ConstantPool.constantWithin, hentry, Constant.told]
  | .float bits, depth, _, _ => by
    apply answers_entry (.float bits) trivial
    intro pool index hentry
    simp only [ConstantPool.constantWithin, hentry, Constant.told]
  | .long value, depth, _, _ => by
    apply answers_entry (.long value) trivial
    intro pool index hentry
    simp only [ConstantPool.constantWithin, hentry, Constant.told]
  | .double bits, depth, _, _ => by
    apply answers_entry (.double bits) trivial
    intro pool index hentry
    simp only [ConstantPool.constantWithin, hentry, Constant.told]
  | .string text, depth, h, _ => by
    apply answers_over .string (answers_utf8 (h text (by simp [Constant.texts]))) (fun _ => trivial)
    intro pool index reference hentry htext
    simp only [ConstantPool.constantWithin, hentry, htext, Except.map, Constant.told]
  | .class name, depth, h, _ => by
    apply answers_over .class (answers_utf8 (h name (by simp [Constant.texts]))) (fun _ => trivial)
    intro pool index reference hentry hname
    simp only [ConstantPool.constantWithin, hentry, hname, Except.map, Constant.told]
  | .methodType desc, depth, h, _ => by
    apply answers_over .methodType (answers_utf8 (h desc (by simp [Constant.texts]))) (fun _ => trivial)
    intro pool index reference hentry hdesc
    simp only [ConstantPool.constantWithin, hentry, hdesc, Except.map, Constant.told]
  | .methodHandle target, depth, h, _ => by
    rw [Constant.texts] at h
    refine (answers_handle h).mono fun final index _ hmeans => ?_
    rw [Constant.told]
    exact ⟨hmeans.ne_zero, constantWithin_of_handle depth hmeans.resolved⟩
  | .dynamic name desc bootstrap arguments, depth, h, hdepth => by
    rw [Constant.depth] at hdepth
    simp only [Constant.texts, List.cons_append, List.forall_mem_cons, List.forall_mem_append] at h
    obtain ⟨hname, hdesc, hbootstrap, harguments⟩ := h
    rw [constant_dynamic]
    apply answers_over₂ .dynamic
      (fun pool => pool.bootstrapMethod (pool.constantWithin depth))
      (answers_bootstrapMethod hbootstrap (answers_constants arguments depth harguments (by omega)))
      (answers_nameAndType hname hdesc) (fun _ _ => trivial)
    intro pool index i j hentry hi hj
    simp only [ConstantPool.constantWithin, hentry, hi, hj, Constant.told]
    rfl

theorem answers_constants : ∀ (cs : List Constant) (depth : Nat),
    (∀ text ∈ Constant.textsOf cs, TextFits text) → Constant.depthOf cs < depth →
      Answers (constants cs) fun final indices =>
        indices.mapM (final.toPool.constantWithin depth) = .ok (Constant.toldAll cs)
  | [], depth, _, _ => by
    rw [constants]
    exact answers_pure fun _ _ => rfl
  | c :: cs, depth + 1, h, hdepth => by
    rw [Constant.depthOf] at hdepth
    rw [Constant.textsOf, List.forall_mem_append] at h
    rw [constants]
    refine (answers_constant c depth h.1 (by omega)).bind fun index => ?_
    refine (answers_constants cs (depth + 1) h.2 (by omega)).bind_pure ?_
    intro final indices _ hindices hindex
    have hvalue : final.toPool.constantWithin (depth + 1) index = .ok c.told := hindex.resolved
    rw [List.mapM_cons, hvalue, hindices, Constant.toldAll]
    rfl
end

/-- The index of a dynamic call answers it, if its arguments can be told within the depth that is left
below a call. -/
theorem answers_invokeDynamic {name desc : String} {bootstrap : Handle} {cs told : List Constant}
    {depth : Nat} (hname : TextFits name) (hdesc : TextFits desc)
    (hbootstrap : ∀ text ∈ bootstrap.texts, TextFits text)
    (hcs : Answers (constants cs) fun final indices =>
      indices.mapM (final.toPool.constantWithin depth) = .ok told) :
    Answers (invokeDynamic name desc bootstrap cs) fun final index =>
      index ≠ 0 ∧ (depth = ConstantPool.maxDepth - 1 →
        final.toPool.callSite index = .ok (name, desc, bootstrap.told, told)) := by
  refine (answers_bootstrapMethod hbootstrap hcs).bind fun i =>
    (answers_nameAndType hname hdesc).bind fun j => ?_
  have hentry : PoolEntry.Writable (.invokeDynamic i j) := trivial
  apply (answers_add hentry).mono
  rintro final index _ ⟨hzero, hentry⟩ hj hi
  refine ⟨hzero, ?_⟩
  rintro rfl
  simp only [ConstantPool.callSite, hentry, hi, hj.resolved]
  rfl

end PoolWriter
end JvmArchive
