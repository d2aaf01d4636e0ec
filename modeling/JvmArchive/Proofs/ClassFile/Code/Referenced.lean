import JvmArchive.Proofs.ClassFile.Code.Advances
import JvmArchive.Proofs.ClassFile.Code.Places

/-!
# Labels that decoded code refers to

Every label in an instruction, a handler, a frame or a local variable that has been read is one of the
table of labels, whatever attribute it comes from and whatever is read after it.
-/
namespace JvmArchive

/-- The allocation that a type names. -/
def VerificationType.site? : VerificationType → Option Label
  | uninitialized site => some site
  | _ => none

/-- The allocations that a frame names. -/
def StackFrame.sites (frame : StackFrame) : List Label :=
  (frame.locals ++ frame.stack).filterMap VerificationType.site?

/-- The labels of a handler and its range. -/
def TryCatch.labels (block : TryCatch) : List Label := [block.start, block.stop, block.handler]

/-- The labels of the range of a local variable. -/
def LocalVariable.labels (declared : LocalVariable) : List Label := [declared.start, declared.stop]

/-- The labels that an entry of a list refers to. -/
def Instruction.references : Instruction → List Label
  | .line _ start => [start]
  | .frame stated => stated.sites
  | instruction => instruction.targets

namespace Decode
open Reader LabelTable

variable {pool : ConstantPool} {pc : Nat}

/-! ## Instructions -/

/-- A real instruction all of whose targets have labels in the table. -/
structure Aims (table : LabelTable) (instruction : Instruction) : Prop where
  real : instruction.isPseudo = false
  targets : ∀ target ∈ instruction.targets, table.Has target

theorem leaves_branchFrom (pc : Nat) (delta : Int32) : Leaves (branchFrom pc delta) LabelTable.Has :=
  leaves_labelAt _

theorem leaves_tableSwitch (pc : Nat) : Leaves (tableSwitch pc) Aims := by
  refine leaves_read (advances_skip _) fun _ => leaves_read advances_int32 fun delta => ?_
  refine (leaves_branchFrom pc delta).bind fun default => ?_
  refine leaves_read advances_int32 fun low => leaves_read advances_int32 fun high => ?_
  have htargets : ∀ count, Leaves
      (timesWithLabels count (liftM int32 >>= fun delta => branchFrom pc delta) >>= fun targets =>
        pure (.tableSwitch low high default targets))
      fun final back => final.Has default → Aims final back := by
    intro count
    refine (leaves_times (leaves_read advances_int32 fun delta => leaves_branchFrom pc delta)
      count).bind_pure fun final targets htargets hdefault => ⟨rfl, ?_⟩
    rw [Instruction.targets, List.forall_mem_cons]
    exact ⟨hdefault, htargets⟩
  dsimp only
  split
  · exact leaves_throw _
  · refine leaves_read advances_remaining fun left => ?_
    split
    · exact htargets _
    · exact leaves_throw _

theorem leaves_lookupSwitch (pc : Nat) : Leaves (lookupSwitch pc) Aims := by
  refine leaves_read (advances_skip _) fun _ => leaves_read advances_int32 fun delta => ?_
  refine (leaves_branchFrom pc delta).bind fun default => ?_
  refine leaves_read advances_int32 fun pairs => ?_
  have hrows : ∀ count, Leaves
      (timesWithLabels count (liftM int32 >>= fun key => liftM int32 >>= fun delta =>
          branchFrom pc delta >>= fun target => pure (key, target)) >>= fun rows =>
        pure (.lookupSwitch default (rows.map (·.1)) (rows.map (·.2))))
      fun final back => final.Has default → Aims final back := by
    intro count
    have hrow : Leaves (liftM int32 >>= fun key => liftM int32 >>= fun delta =>
        branchFrom pc delta >>= fun target => pure (key, target))
        fun final (row : Int32 × Label) => final.Has row.2 :=
      leaves_read advances_int32 fun key => leaves_read advances_int32 fun delta =>
        (leaves_branchFrom pc delta).bind_pure fun final target htarget => htarget
    refine (leaves_times hrow count).bind_pure fun final rows hrows hdefault => ⟨rfl, ?_⟩
    rw [Instruction.targets, List.forall_mem_cons, List.forall_mem_map]
    exact ⟨hdefault, hrows⟩
  dsimp only
  split
  · exact leaves_throw _
  · refine leaves_read advances_remaining fun left => ?_
    split
    · exact hrows _
    · exact leaves_throw _

/-- First something that succeeds or fails without reading. -/
theorem leaves_lift {α β : Type} {result : Except FormatError α} {next : α → CodeReader β}
    {goal : LabelTable → β → Prop} (hnext : ∀ a, Leaves (next a) goal) :
    Leaves (liftM result >>= next) goal := by
  have hread : Leaves (liftM (liftM result : Reader α) >>= next) goal :=
    leaves_read (advances_lift result) hnext
  exact hread

/-- An instruction without targets. -/
theorem leaves_plain {back : Instruction} (hreal : back.isPseudo = false)
    (htargets : back.targets = []) : Leaves (pure back) Aims :=
  leaves_pure fun final => ⟨hreal, by simp [htargets]⟩

/-- An instruction that asks for no label. -/
theorem leaves_unlabelled {reader : Reader Instruction} (h : Advances reader)
    (hgives : Gives reader fun back => back.isPseudo = false ∧ back.targets = []) :
    Leaves (liftM reader) Aims := by
  intro table later cursor cursor' back hregular hrun
  obtain ⟨⟨other, cursor₁⟩, hread, hrest⟩ := exists_of_bind_ok hrun
  cases hrest
  obtain ⟨hreal, htargets⟩ := hgives _ _ _ hread
  exact ⟨hregular, .refl table, h _ _ _ hread, fun final _ => ⟨hreal, by simp [htargets]⟩⟩

theorem leaves_call (pool : ConstantPool) (op : Opcode) : Leaves (liftM (call pool op)) Aims := by
  refine leaves_unlabelled ?_ ?_
  · refine advances_bind advances_uint16 fun index => advances_bind (advances_lift _) fun member => ?_
    dsimp only
    split
    · exact advances_bind (advances_skip 2) fun _ => advances_pure _
    · exact advances_pure _
  · refine gives_bind fun index => gives_bind fun member => ?_
    dsimp only
    split
    · exact gives_bind fun _ => gives_pure ⟨rfl, rfl⟩
    · exact gives_pure ⟨rfl, rfl⟩

theorem leaves_wide (pc : Nat) : Leaves (liftM (wide pc)) Aims := by
  refine leaves_unlabelled ?_ ?_
  · refine advances_bind advances_uint8 fun op => ?_
    split
    · exact advances_bind advances_uint16 fun _ => advances_bind advances_int16 fun _ =>
        advances_pure _
    · split
      · exact advances_bind advances_uint16 fun _ => advances_pure _
      · exact advances_throw _
  · refine gives_bind fun op => ?_
    split
    · exact gives_bind fun _ => gives_bind fun _ => gives_pure ⟨rfl, rfl⟩
    · split
      · exact gives_bind fun _ => gives_pure ⟨rfl, rfl⟩
      · exact gives_throw _

theorem leaves_dynamicCall (pool : ConstantPool) : Leaves (liftM (dynamicCall pool)) Aims := by
  refine leaves_unlabelled ?_ ?_
  · exact advances_bind advances_uint16 fun index => advances_bind (advances_skip 2) fun _ =>
      advances_bind (advances_lift _) fun _ => advances_pure _
  · exact gives_bind fun index => gives_bind fun _ => gives_bind fun _ => gives_pure ⟨rfl, rfl⟩

/-- Whatever the opcode, the targets of an instruction that is read have labels. -/
theorem leaves_instruction (pool : ConstantPool) (pc : Nat) (op : Opcode) :
    Leaves (instruction pool pc op) Aims := by
  have hjump : ∀ delta, Leaves (branchFrom pc delta >>= fun target => pure (.jump op target)) Aims :=
    fun delta => (leaves_branchFrom pc delta).bind_pure fun final target htarget =>
      ⟨rfl, by simpa [Instruction.targets] using htarget⟩
  unfold instruction
  split
  · exact leaves_plain rfl rfl
  split
  · exact leaves_read advances_uint8 fun _ => leaves_plain rfl rfl
  split
  · exact leaves_plain rfl rfl
  split
  · exact leaves_plain rfl rfl
  split
  · exact leaves_read advances_int32 fun delta => hjump delta
  split
  · exact leaves_read advances_int16 fun delta => hjump _
  split
  · exact leaves_read advances_uint16 fun index => leaves_lift fun member => leaves_plain rfl rfl
  split
  · exact leaves_call pool op
  split
  · exact leaves_read advances_int8 fun _ => leaves_plain rfl rfl
  · exact leaves_read advances_int16 fun _ => leaves_plain rfl rfl
  · exact leaves_read advances_uint8 fun _ => leaves_plain rfl rfl
  · exact leaves_read advances_uint8 fun _ => leaves_lift fun _ => leaves_plain rfl rfl
  · exact leaves_read advances_uint16 fun _ => leaves_lift fun _ => leaves_plain rfl rfl
  · exact leaves_read advances_uint16 fun _ => leaves_lift fun _ => leaves_plain rfl rfl
  · exact leaves_read advances_uint8 fun _ => leaves_read advances_int8 fun _ => leaves_plain rfl rfl
  · exact leaves_tableSwitch pc
  · exact leaves_lookupSwitch pc
  · exact leaves_dynamicCall pool
  · exact leaves_read advances_uint16 fun _ => leaves_lift fun _ => leaves_plain rfl rfl
  · exact leaves_read advances_uint16 fun _ => leaves_lift fun _ => leaves_plain rfl rfl
  · exact leaves_read advances_uint16 fun _ => leaves_lift fun _ => leaves_plain rfl rfl
  · exact leaves_read advances_uint16 fun _ => leaves_lift fun _ => leaves_plain rfl rfl
  · exact leaves_wide pc
  · exact leaves_read advances_uint16 fun _ => leaves_lift fun _ =>
      leaves_read advances_uint8 fun _ => leaves_plain rfl rfl
  · exact leaves_throw _

/-- Instructions in the order of their offsets, all before the end and with targets in the table. -/
structure Decoded (table : LabelTable) (stop : Nat) (decoded : List (Nat × Instruction)) : Prop where
  ascends : (decoded.map (·.1)).Pairwise (· < ·)
  before : ∀ item ∈ decoded, item.1 < stop
  aims : ∀ item ∈ decoded, Aims table item.2

theorem Decoded.of_extends {table later : LabelTable} {stop : Nat} {decoded : List (Nat × Instruction)}
    (h : Decoded table stop decoded) (hextends : Extends table later) : Decoded later stop decoded where
  ascends := h.ascends
  before := h.before
  aims item hitem :=
    ⟨(h.aims item hitem).real, fun target htarget =>
      ((h.aims item hitem).targets target htarget).of_extends hextends⟩

/-- An instruction that is read stands behind those read before it. -/
theorem Decoded.concat {table : LabelTable} {read : List (Nat × Instruction)} {pc stop : Nat}
    {next : Instruction} (h : Decoded table pc read.reverse) (hpc : pc < stop)
    (hnext : Aims table next) : Decoded table stop ((pc, next) :: read).reverse where
  ascends := by
    rw [List.reverse_cons, List.map_append, List.pairwise_append]
    refine ⟨h.ascends, List.pairwise_singleton _ _, fun place hplace other hother => ?_⟩
    obtain ⟨item, hitem, rfl⟩ := List.mem_map.1 hplace
    obtain rfl := List.mem_singleton.1 hother
    exact h.before item hitem
  before := by
    intro item hitem
    rw [List.reverse_cons] at hitem
    rcases List.mem_append.1 hitem with hread | hlast
    · exact Nat.lt_trans (h.before item hread) hpc
    · rw [List.mem_singleton.1 hlast]
      exact hpc
  aims := by
    intro item hitem
    rw [List.reverse_cons] at hitem
    rcases List.mem_append.1 hitem with hread | hlast
    · exact h.aims item hread
    · rw [List.mem_singleton.1 hlast]
      exact hnext

theorem Decoded.mono {table : LabelTable} {pc stop : Nat} {decoded : List (Nat × Instruction)}
    (h : Decoded table pc decoded) (hle : pc ≤ stop) : Decoded table stop decoded :=
  ⟨h.ascends, fun item hitem => Nat.lt_of_lt_of_le (h.before item hitem) hle, h.aims⟩

/-- Each instruction is read at the cursor, which moves on with its opcode. -/
theorem decoded_instructionsWithin {bound : Nat} {read decoded : List (Nat × Instruction)}
    {table later : LabelTable} {cursor cursor' : Cursor} (hregular : table.Regular)
    (hread : Decoded table cursor.offset read.reverse)
    (hrun : instructionsWithin pool bound read table cursor = .ok ((decoded, later), cursor')) :
    later.Regular ∧ Extends table later ∧
      Decoded later (cursor.offset + cursor.rest.length) decoded := by
  induction bound generalizing read table cursor with
  | zero =>
    cases hrun
    exact ⟨hregular, .refl _, hread.mono (Nat.le_add_right _ _)⟩
  | succ bound ih =>
    rw [instructionsWithin] at hrun
    obtain ⟨more, table₁, cursor₁, hmore, hrun⟩ := exists_of_bind_run hrun
    cases hmore
    split at hrun
    · obtain ⟨pc, table₁, cursor₁, hpc, hrun⟩ := exists_of_bind_run hrun
      cases hpc
      obtain ⟨op, table₁, cursor₁, hop, hrun⟩ := exists_of_bind_run hrun
      obtain ⟨⟨other, cursor₂⟩, hbyte, hpure⟩ := exists_of_bind_ok hop
      cases hpure
      obtain ⟨next, middle, cursor₃, hnext, hrest⟩ := exists_of_bind_run hrun
      obtain ⟨hprecedes, hoffset⟩ := precedes_of_uint8 hbyte
      obtain ⟨hmiddle, hextends, hprecedes', haims⟩ :=
        leaves_instruction pool cursor.offset _ _ _ _ _ _ hregular hnext
      have hafter : cursor.offset < cursor₃.offset := by
        have hle := hprecedes'.offset_le
        omega
      have hread' := (hread.of_extends hextends).concat hafter (haims middle (.refl middle))
      obtain ⟨hlater, hextends', hdecoded⟩ := ih hmiddle hread' hrest
      rw [(hprecedes.trans hprecedes').whole] at hdecoded
      exact ⟨hlater, hextends.trans hextends', hdecoded⟩
    · cases hrun
      exact ⟨hregular, .refl _, hread.mono (Nat.le_add_right _ _)⟩

theorem decoded_instructions {code : List UInt8} {decoded : List (Nat × Instruction)}
    {table : LabelTable} (hlength : code.length < 4294967295)
    (h : instructions pool code = .ok (decoded, table)) :
    table.Regular ∧ table.codeLength = code.length ∧ Decoded table code.length decoded := by
  obtain ⟨cursor, hrun⟩ := exists_of_onBytes h
  obtain ⟨hlater, hextends, hdecoded⟩ := decoded_instructionsWithin (regular_empty hlength)
    ⟨.nil, by simp, by simp⟩ hrun
  rw [Nat.zero_add] at hdecoded
  exact ⟨hlater, hextends.codeLength, hdecoded⟩

/-! ## Frames -/

/-- Whether all allocations that a list of types names have labels in the table. -/
def Sited (table : LabelTable) (types : List VerificationType) : Prop :=
  ∀ site ∈ types.filterMap VerificationType.site?, table.Has site

theorem sited_append {table : LabelTable} {xs ys : List VerificationType} :
    Sited table (xs ++ ys) ↔ Sited table xs ∧ Sited table ys := by
  simp only [Sited, List.filterMap_append, List.mem_append, or_imp, forall_and]

theorem sited_nil (table : LabelTable) : Sited table [] := by simp [Sited]

theorem sited_of_forall {table : LabelTable} {types : List VerificationType}
    (h : ∀ type ∈ types, Sited table [type]) : Sited table types := by
  intro site hsite
  obtain ⟨type, htype, hnamed⟩ := List.mem_filterMap.1 hsite
  exact h type htype site (by simp [hnamed])

theorem Sited.take {table : LabelTable} {types : List VerificationType} (h : Sited table types)
    (n : Nat) : Sited table (types.take n) := by
  rw [← List.take_append_drop n types, sited_append] at h
  exact h.1

theorem leaves_verificationType (pool : ConstantPool) :
    Leaves (verificationType pool) fun final type => Sited final [type] := by
  have hplain : ∀ {type : VerificationType}, type.site? = none →
      Leaves (pure type) fun final type => Sited final [type] := by
    intro type hnone
    exact leaves_pure fun final => by simp [Sited, hnone]
  unfold verificationType
  refine leaves_read advances_uint8 fun tag => ?_
  split
  · exact hplain rfl
  · exact hplain rfl
  · exact hplain rfl
  · exact hplain rfl
  · exact hplain rfl
  · exact hplain rfl
  · exact hplain rfl
  · exact leaves_read advances_uint16 fun _ => leaves_lift fun _ => hplain rfl
  · refine leaves_read advances_uint16 fun place =>
      (leaves_labelAt _).bind_pure fun final site hsite => ?_
    simpa [Sited, VerificationType.site?] using hsite
  · exact leaves_throw _

theorem leaves_verificationTypes (pool : ConstantPool) (n : Nat) :
    Leaves (timesWithLabels n (verificationType pool)) Sited :=
  (leaves_times (leaves_verificationType pool) n).mono fun _ _ => sited_of_forall

/-- A frame names the allocations of the one before it and those that are read for it. -/
theorem leaves_frameAfter (pool : ConstantPool) (locals : List VerificationType) :
    Leaves (frameAfter pool locals) fun final back =>
      Sited final locals → Sited final (back.2.locals ++ back.2.stack) := by
  have hsame : ∀ delta : Nat, Leaves (pure (delta, ({ locals } : StackFrame))) fun final back =>
      Sited final locals → Sited final (back.2.locals ++ back.2.stack) := fun delta =>
    leaves_pure fun final hlocals => by simpa using hlocals
  have hitem : ∀ delta : Nat, Leaves
      (verificationType pool >>= fun item =>
        pure (delta, ({ locals, stack := [item] } : StackFrame)))
      fun final back => Sited final locals → Sited final (back.2.locals ++ back.2.stack) :=
    fun delta => (leaves_verificationType pool).bind_pure fun final item hitem hlocals =>
      sited_append.2 ⟨hlocals, hitem⟩
  unfold frameAfter
  refine leaves_read advances_uint8 fun kind => ?_
  split
  · exact hsame _
  split
  · exact hitem _
  split
  · exact leaves_throw _
  refine leaves_read advances_uint16 fun delta => ?_
  split
  · exact hitem _
  split
  · exact leaves_pure fun final hlocals => by simpa using hlocals.take _
  split
  · exact hsame _
  split
  · refine (leaves_verificationTypes pool _).bind_pure fun final more hmore hlocals => ?_
    exact sited_append.2 ⟨sited_append.2 ⟨hlocals, hmore⟩, sited_nil final⟩
  · refine leaves_read advances_uint16 fun _ =>
      (leaves_verificationTypes pool _).bind fun stated => leaves_read advances_uint16 fun _ =>
        (leaves_verificationTypes pool _).bind_pure fun final stack hstack hstated _ => ?_
    exact sited_append.2 ⟨hstated, hstack⟩

/-- Whether all allocations that frames name have labels in the table. -/
def FramesSited (table : LabelTable) (frames : List (Nat × StackFrame)) : Prop :=
  ∀ item ∈ frames, Sited table (item.2.locals ++ item.2.stack)

theorem leaves_framesFrom (pool : ConstantPool) (count : Nat) (locals : List VerificationType)
    (base : Nat) (read : List (Nat × StackFrame)) :
    Leaves (framesFrom pool count locals base read) fun final frames =>
      Sited final locals → FramesSited final read → FramesSited final frames := by
  induction count generalizing locals base read with
  | zero => exact leaves_pure fun final _ hread item hitem => hread item (List.mem_reverse.1 hitem)
  | succ count ih =>
    refine (leaves_frameAfter pool locals).bind fun back => ?_
    obtain ⟨delta, frame⟩ := back
    refine (leaves_labelAt _).bind fun _ => (ih _ _ _).mono ?_
    intro final frames hframes _ hframe hlocals hread
    have hfirst := hframe hlocals
    exact hframes (sited_append.1 hfirst).1 (List.forall_mem_cons.2 ⟨hfirst, hread⟩)

theorem leaves_stackMap (pool : ConstantPool) {entryLocals : List VerificationType}
    (h : ∀ table, Sited table entryLocals) :
    Leaves (stackMap pool entryLocals) FramesSited :=
  leaves_read advances_uint16 fun count =>
    (leaves_framesFrom pool count.toNat entryLocals 0 []).mono fun final frames hframes =>
      hframes (h final) fun item hitem => by cases hitem

/-- Nothing is allocated before a method is entered. -/
theorem sited_entryLocals (table : LabelTable) (owner : String) (method : MethodNode) :
    Sited table (method.entryLocals owner) := by
  have hreceiver : Sited table (method.receiver? owner).toList := by
    unfold MethodNode.receiver?
    split
    · exact sited_nil table
    split <;> simp [Sited, VerificationType.site?]
  refine sited_append.2 ⟨hreceiver, sited_of_forall fun type htype => ?_⟩
  unfold MethodNode.argumentTypes at htype
  split at htype
  · obtain ⟨argument, -, rfl⟩ := List.mem_map.1 htype
    cases argument <;> simp [Sited, VerificationType.ofFieldType, VerificationType.site?]
  · cases htype

/-! ## Tables -/

theorem leaves_tryCatch (pool : ConstantPool) :
    Leaves (tryCatch pool) fun final block => ∀ label ∈ block.labels, final.Has label := by
  refine leaves_read advances_uint16 fun _ => (leaves_labelAt _).bind fun start => ?_
  refine leaves_read advances_uint16 fun _ => (leaves_labelAt _).bind fun stop => ?_
  refine leaves_read advances_uint16 fun _ => (leaves_labelAt _).bind fun handler => ?_
  refine leaves_read advances_uint16 fun _ => leaves_lift fun _ => leaves_pure ?_
  intro final hhandler hstop hstart
  simpa [TryCatch.labels] using ⟨hstart, hstop, hhandler⟩

theorem leaves_lineNumber (isInstruction : Nat → Bool) :
    Leaves (lineNumber isInstruction) fun _ _ => True := by
  refine leaves_read advances_uint16 fun start => leaves_read advances_uint16 fun line => ?_
  split
  · exact (leaves_labelAt _).bind_pure fun _ _ _ => trivial
  · exact leaves_pure fun _ => trivial

/-- Whether all allocations in the frames that have been told have labels in the table. -/
def TablesSited (table : LabelTable) (tables : CodeTables) : Prop :=
  ∀ (offset : Nat) (frame : StackFrame), tables.frames[offset]? = some frame →
    ∀ site ∈ frame.sites, table.Has site

/-- What is found in a table stood there before or is in the list that was put into it. -/
theorem mem_or_of_insertMany {α : Type} {items : List (Nat × α)} {found : Std.HashMap Nat α}
    {key : Nat} {a : α} (h : (found.insertMany items)[key]? = some a) :
    (key, a) ∈ items ∨ found[key]? = some a := by
  induction items generalizing found with
  | nil => exact .inr h
  | cons item items ih =>
    obtain ⟨place, b⟩ := item
    rw [Std.HashMap.insertMany_cons] at h
    rcases ih h with hmem | hfound
    · exact .inl (List.mem_cons_of_mem _ hmem)
    · rw [Std.HashMap.getElem?_insert] at hfound
      split at hfound
      next heq =>
        cases hfound
        rw [eq_of_beq heq]
        exact .inl List.mem_cons_self
      next => exact .inr hfound

theorem FramesSited.ofList {table : LabelTable} {frames : List (Nat × StackFrame)}
    (h : FramesSited table frames) {offset : Nat} {frame : StackFrame}
    (hframe : (Std.HashMap.ofList frames)[offset]? = some frame) :
    ∀ site ∈ frame.sites, table.Has site := by
  rw [Std.HashMap.ofList_eq_insertMany_empty] at hframe
  rcases mem_or_of_insertMany hframe with hmem | hempty
  · exact h _ hmem
  · rw [Std.HashMap.getElem?_empty] at hempty
    cases hempty

theorem marked_addCodeAttribute (pool : ConstantPool) (isInstruction : Nat → Bool)
    {entryLocals : List VerificationType} (h : ∀ table, Sited table entryLocals)
    (tables : CodeTables) (raw : RawAttribute) :
    Marked (addCodeAttribute pool isInstruction entryLocals tables raw) fun final told =>
      TablesSited final tables → TablesSited final told := by
  unfold addCodeAttribute
  split
  · refine ((leaves_counted (leaves_lineNumber isInstruction)).onBytes raw.data).bind fun rows => ?_
    exact marked_pure fun final _ htables => htables
  · exact marked_lift fun rows => marked_pure fun final htables => htables
  · exact marked_lift fun rows => marked_pure fun final htables => htables
  · refine ((leaves_stackMap pool h).onBytes raw.data).bind fun frames => ?_
    exact marked_pure fun final hframes _ offset frame hframe => hframes.ofList hframe
  · exact marked_pure fun final htables => htables

theorem marked_addCodeAttributes (pool : ConstantPool) (isInstruction : Nat → Bool)
    {entryLocals : List VerificationType} (h : ∀ table, Sited table entryLocals)
    (raws : List RawAttribute) (tables : CodeTables) :
    Marked (raws.foldlM (addCodeAttribute pool isInstruction entryLocals) tables)
      fun final told => TablesSited final tables → TablesSited final told := by
  induction raws generalizing tables with
  | nil => exact marked_pure fun final htables => htables
  | cons raw raws ih =>
    rw [List.foldlM_cons]
    refine (marked_addCodeAttribute pool isInstruction h tables raw).bind fun middle => ?_
    exact (ih middle).mono fun final told htold hmiddle htables => htold (hmiddle htables)

theorem marked_localVariables (isBoundary : Nat → Bool) (rows : List LocalRow)
    (signatures : Std.HashMap (UInt16 × UInt16 × UInt16) String) (found : List LocalVariable) :
    Marked (localVariables isBoundary rows signatures found) fun final back =>
      (∀ declared ∈ found, ∀ label ∈ declared.labels, final.Has label) →
        ∀ declared ∈ back, ∀ label ∈ declared.labels, final.Has label := by
  induction rows generalizing signatures found with
  | nil =>
    exact marked_pure fun final hfound declared hdeclared =>
      hfound declared (List.mem_reverse.1 hdeclared)
  | cons row rows ih =>
    rw [localVariables]
    dsimp only
    split
    · refine (marked_ask _).bind fun start => (marked_ask _).bind fun stop => (ih _ _).mono ?_
      intro final back hback hstop hstart hfound
      refine hback (List.forall_mem_cons.2 ⟨?_, hfound⟩)
      simpa [LocalVariable.labels] using ⟨hstart, hstop⟩
    · exact ih _ _

end Decode
end JvmArchive
