import JvmArchive.Proofs.ClassFile.Code.Lines

/-!
# Local variables read back

A local variable is written by the start and the length of its range, so a range that ends before it
starts comes back empty. Its signature stands in a table of its own and is found by range and slot,
which tells variables apart as long as no two share both.
-/
namespace JvmArchive

/-- All texts of a local variable fit. -/
def LocalVariable.Fits (declared : LocalVariable) : Prop :=
  TextFits declared.name ∧ TextFits declared.desc ∧ ∀ text ∈ declared.signature, TextFits text

namespace Encode
open PoolBuilder PoolWriter Reader Decode

variable {offset : Label → Except WriteError Nat} {places : List Nat} {isInstruction : Nat → Bool}
  {entryLocals : List VerificationType}

/-- By what the signature of a local variable is found. -/
def rowKey (row : LocalRow) : UInt16 × UInt16 × UInt16 := (row.start, row.length, row.index)

/-- The row of a local variable. -/
def RowFor (offset : Label → Except WriteError Nat) (declared : LocalVariable) (row : LocalRow) :
    Prop :=
  ∃ start stop, offset declared.start = .ok start ∧ offset declared.stop = .ok stop ∧
    row = { start := start.toUInt16, length := (stop - start).toUInt16, name := declared.name,
            desc := declared.desc, index := declared.index }

/-- A row of the table of signatures, if the variable has one. -/
def ReadsSignature (final : PoolBuilder) (key : UInt16 × UInt16 × UInt16) :
    Option String → Option (List UInt8) → Prop
  | none, none => True
  | some signature, some bytes => bytes.length = 10 ∧
    Reads (localSignature final.toPool) bytes (key, signature)
  | _, _ => False

/-- What is written for a local variable. -/
def ReadsLocal (offset : Label → Except WriteError Nat) (declared : LocalVariable)
    (final : PoolBuilder) (written : List UInt8 × Option (List UInt8)) : Prop :=
  written.1.length = 10 ∧ ∃ row, RowFor offset declared row ∧
    Reads (localRow final.toPool) written.1 row ∧
    ReadsSignature final (rowKey row) declared.signature written.2

theorem yields_localRows {declared : LocalVariable} (h : declared.Fits) :
    Yields (localRows offset declared) (ReadsLocal offset declared) := by
  obtain ⟨hname, hdesc, hsignature⟩ := h
  apply yields_lift_bind
  intro start hstart
  apply yields_lift_bind
  intro stop hstop
  apply (yields_textIndex hname).bind
  intro name
  apply (yields_textIndex hdesc).bind
  intro desc
  have hrow : ∀ {final : PoolBuilder}, ReadsIndex ConstantPool.utf8 declared.name final name →
      ReadsIndex ConstantPool.utf8 declared.desc final desc →
        (Bytes.ofNat16 start ++ Bytes.ofNat16 (stop - start) ++ name ++ desc ++
            Bytes.ofUInt16 declared.index).length = 10 ∧
          Reads (localRow final.toPool)
            (Bytes.ofNat16 start ++ Bytes.ofNat16 (stop - start) ++ name ++ desc ++
              Bytes.ofUInt16 declared.index)
            { start := start.toUInt16, length := (stop - start).toUInt16, name := declared.name,
              desc := declared.desc, index := declared.index } := by
    rintro final ⟨i, rfl, -, hi⟩ ⟨j, rfl, -, hj⟩
    refine ⟨rfl, ?_⟩
    simp only [List.append_assoc]
    apply (reads_uint16 _).bind
    apply (reads_uint16 _).bind
    apply reads_index hi
    apply reads_index hj
    exact (reads_uint16 _).bind_pure (reads_pure _)
  cases hdeclared : declared.signature with
  | none =>
    apply yields_pure
    intro final _ hdesc hname
    obtain ⟨hlength, hread⟩ := hrow hname hdesc
    exact ⟨hlength, _, ⟨start, stop, hstart, hstop, rfl⟩, hread, by rw [hdeclared]; trivial⟩
  | some signature =>
    apply (yields_textIndex hname).bind
    intro name'
    apply (yields_textIndex (hsignature signature hdeclared)).bind_pure
    rintro final - _ ⟨k, rfl, -, hk⟩ ⟨i, rfl, -, hi⟩ hdesc hname
    obtain ⟨hlength, hread⟩ := hrow hname hdesc
    refine ⟨hlength, _, ⟨start, stop, hstart, hstop, rfl⟩, hread, ?_⟩
    rw [hdeclared]
    refine ⟨rfl, ?_⟩
    simp only [List.append_assoc]
    apply (reads_uint16 _).bind
    apply (reads_uint16 _).bind
    apply (reads_uint16 _).bind
    apply reads_index hk
    exact (reads_uint16 _).bind_pure (reads_pure _)

/-- The rows of the table of signatures. -/
def signatureRows (declared : List LocalVariable) (rows : List LocalRow) :
    List ((UInt16 × UInt16 × UInt16) × String) :=
  (declared.zip rows).filterMap fun item =>
    item.1.signature.map fun signature => (rowKey item.2, signature)

/-- The rows of both tables, and how many bytes they take. -/
structure ReadsLocals (offset : Label → Except WriteError Nat) (declared : List LocalVariable)
    (final : PoolBuilder) (written : List (List UInt8 × Option (List UInt8)))
    (rows : List LocalRow) : Prop where
  rowFor : List.Forall₂ (RowFor offset) declared rows
  types : List.Forall₂ (Reads (localRow final.toPool)) (written.map (·.1)) rows
  signatures : List.Forall₂ (Reads (localSignature final.toPool)) (written.filterMap (·.2))
    (signatureRows declared rows)
  few : (written.filterMap (·.2)).length ≤ declared.length
  types_length : (written.map (·.1)).flatten.length = 10 * declared.length
  signatures_length : (written.filterMap (·.2)).flatten.length ≤ 10 * declared.length

theorem readsLocals {final : PoolBuilder} {declared : List LocalVariable}
    {written : List (List UInt8 × Option (List UInt8))}
    (h : List.Forall₂ (fun written declared => ReadsLocal offset declared final written) written
      declared) :
    ∃ rows, ReadsLocals offset declared final written rows := by
  induction h with
  | nil => exact ⟨[], .nil, .nil, .nil, by simp, rfl, by simp⟩
  | @cons first declared written rest hfirst _ ih =>
    obtain ⟨rows, hrows, htypes, hsignatures, hfew, htypesLength, hsignaturesLength⟩ := ih
    obtain ⟨bytes, signed⟩ := first
    obtain ⟨hlength, row, hrow, hread, hsignature⟩ := hfirst
    refine ⟨row :: rows, .cons hrow hrows, .cons hread htypes, ?_, ?_, ?_, ?_⟩
    · cases hdeclared : declared.signature with
      | none =>
        rw [hdeclared] at hsignature
        cases signed with
        | none => simpa [signatureRows, hdeclared] using hsignatures
        | some bytes => exact absurd hsignature id
      | some signature =>
        rw [hdeclared] at hsignature
        cases signed with
        | none => exact absurd hsignature id
        | some bytes => simpa [signatureRows, hdeclared] using ⟨hsignature.2, hsignatures⟩
    · cases signed with
      | none => simpa using Nat.le_succ_of_le hfew
      | some bytes => simpa using hfew
    · simp only [List.map_cons, List.flatten_cons, List.length_append, htypesLength, List.length_cons]
      simp only at hlength
      omega
    · cases signed with
      | none =>
        simp only [List.filterMap_cons, List.length_cons]
        omega
      | some bytes =>
        cases hdeclared : declared.signature with
        | none =>
          rw [hdeclared] at hsignature
          exact absurd hsignature id
        | some signature =>
          rw [hdeclared] at hsignature
          simp only [List.filterMap_cons, List.flatten_cons, List.length_append, List.length_cons]
          have hten := hsignature.1
          omega

/-- The signatures that rows put to those that are known. -/
def putSignatures (rows : List ((UInt16 × UInt16 × UInt16) × String))
    (before : Std.HashMap (UInt16 × UInt16 × UInt16) String) :
    Std.HashMap (UInt16 × UInt16 × UInt16) String :=
  rows.foldl (fun found row => found.insert row.1 row.2) before

/-- Local variables and their signatures are put to the tables. -/
def AddsLocals (offset : Label → Except WriteError Nat) (declared : List LocalVariable)
    (before after : CodeTables) : Prop :=
  ∃ rows, List.Forall₂ (RowFor offset) declared rows ∧
    after = { before with
      locals := rows.reverse ++ before.locals
      signatures := putSignatures (signatureRows declared rows) before.signatures }

theorem addsLocals_nil (tables : CodeTables) : AddsLocals offset [] tables tables := ⟨[], .nil, rfl⟩

theorem adds_types {final : PoolBuilder} {declared : List LocalVariable}
    {written : List (List UInt8 × Option (List UInt8))} {rows : List LocalRow} {table : Attribute}
    (hcount : declared.length < 65536) (h : ReadsLocals offset declared final written rows)
    (htable : Spells final table ⟨"LocalVariableTable",
      Bytes.ofNat16 (written.map (·.1)).length ++ (written.map (·.1)).flatten⟩) :
    Adds places isInstruction entryLocals
      (fun _ before after => after = { before with locals := rows.reverse ++ before.locals })
      final [table] := by
  apply adds_one htable
  intro tables
  have hread := reads_counted (by rwa [← h.rowFor.length_eq]) h.types
  rw [← h.types.length_eq] at hread
  apply marks_lift hread.onBytes
  exact marks_pure fun _ => rfl

theorem adds_signatures {final : PoolBuilder} {declared : List LocalVariable}
    {written : List (List UInt8 × Option (List UInt8))} {rows : List LocalRow} {table : Attribute}
    (hcount : declared.length < 65536) (h : ReadsLocals offset declared final written rows)
    (htable : Spells final table ⟨"LocalVariableTypeTable",
      Bytes.ofNat16 (written.filterMap (·.2)).length ++ (written.filterMap (·.2)).flatten⟩) :
    Adds places isInstruction entryLocals
      (fun _ before after => after = { before with
        signatures := putSignatures (signatureRows declared rows) before.signatures })
      final [table] := by
  apply adds_one htable
  intro tables
  have hfew := h.few
  have hread := reads_counted (by rw [← h.signatures.length_eq]; omega) h.signatures
  rw [← h.signatures.length_eq] at hread
  apply marks_lift hread.onBytes
  exact marks_pure fun _ => rfl

/-- Two bytes can say how many signatures there are, so if they say zero there is none. -/
theorem ReadsLocals.signatureRows_eq_nil {final : PoolBuilder} {declared : List LocalVariable}
    {written : List (List UInt8 × Option (List UInt8))} {rows : List LocalRow}
    (h : ReadsLocals offset declared final written rows) (hcount : declared.length < 65536)
    (hzero : (written.filterMap (·.2)).length.toUInt16 = 0) : signatureRows declared rows = [] := by
  have hfew := h.few
  have hlength := congrArg UInt16.toNat hzero
  rw [Bytes.toNat_toUInt16 (by omega)] at hlength
  have hsignatures := h.signatures
  rw [List.length_eq_zero_iff.1 hlength] at hsignatures
  exact List.forall₂_nil_left_iff.1 hsignatures

variable (offset places isInstruction entryLocals) in
/-- The local variables are put to the tables. -/
theorem yields_localVariables {declared : List LocalVariable} (hcount : declared.length < 65536)
    (h : ∀ variable_ ∈ declared, variable_.Fits) :
    Yields (Encode.localVariables offset declared) fun final written =>
      written.length ≤ 2 ∧ (written.flatMap Attribute.bytes).length ≤ 16 + 20 * declared.length ∧
      Adds places isInstruction entryLocals (fun _ => AddsLocals offset declared) final written := by
  unfold Encode.localVariables
  cases hempty : declared.isEmpty with
  | true =>
    obtain rfl := List.isEmpty_iff.1 hempty
    apply yields_pure
    intro final _
    refine ⟨by simp, by simp, (adds_nil final).mono ?_⟩
    rintro table before after rfl
    exact addsLocals_nil after
  | false =>
    simp only [Bool.false_eq_true, if_false]
    apply (yields_mapM fun v hv => yields_localRows (h v hv)).bind
    intro written
    apply (yields_named (by decide) _).bind
    intro table
    by_cases hzero : (written.filterMap (·.2)).length.toUInt16 = 0
    · rw [if_pos hzero]
      apply yields_pure
      intro final _ htable hwritten
      obtain ⟨rows, hrows⟩ := readsLocals hwritten
      refine ⟨by simp, ?_, (adds_types hcount hrows htable).mono ?_⟩
      · have hlength := hrows.types_length
        simp only [List.flatMap_singleton, Attribute.bytes, List.length_append, htable.2,
          Bytes.length_ofNat16, Bytes.length_ofNat32, Bytes.length_ofUInt16]
        omega
      · rintro _ before after rfl
        exact ⟨rows, hrows.rowFor, by rw [hrows.signatureRows_eq_nil hcount hzero]; rfl⟩
    · rw [if_neg hzero]
      apply (yields_named (by decide) _).bind_pure
      intro final types _ htypes htable hwritten
      obtain ⟨rows, hrows⟩ := readsLocals hwritten
      refine ⟨by simp, ?_,
        ((adds_types hcount hrows htable).append (adds_signatures hcount hrows htypes)).mono ?_⟩
      · have hlength := hrows.types_length
        have hlength' := hrows.signatures_length
        simp only [List.flatMap_cons, List.flatMap_nil, Attribute.bytes, List.length_append, htable.2,
          htypes.2, Bytes.length_ofNat16, Bytes.length_ofNat32, Bytes.length_ofUInt16,
          List.length_nil]
        omega
      · rintro _ before after ⟨middle, rfl, rfl⟩
        exact ⟨rows, hrows.rowFor, rfl⟩

theorem putSignatures_cons (v : LocalVariable) (row : LocalRow) (declared : List LocalVariable)
    (rows : List LocalRow) (before : Std.HashMap (UInt16 × UInt16 × UInt16) String) :
    putSignatures (signatureRows (v :: declared) (row :: rows)) before =
      putSignatures (signatureRows declared rows)
        (match v.signature with
        | some signature => before.insert (rowKey row) signature
        | none => before) := by
  cases hv : v.signature <;> simp [putSignatures, signatureRows, hv]

theorem getElem?_putSignatures_of_notMem {declared : List LocalVariable} {rows : List LocalRow}
    {before : Std.HashMap (UInt16 × UInt16 × UInt16) String} {key : UInt16 × UInt16 × UInt16}
    (h : key ∉ rows.map rowKey) :
    (putSignatures (signatureRows declared rows) before)[key]? = before[key]? := by
  induction declared generalizing rows before with
  | nil => rfl
  | cons v declared ih =>
    cases rows with
    | nil => rfl
    | cons row rows =>
      rw [List.map_cons, List.mem_cons, not_or] at h
      rw [putSignatures_cons, ih h.2]
      cases v.signature with
      | none => rfl
      | some signature =>
        have hne : (rowKey row == key) = false := beq_false_of_ne (Ne.symm h.1)
        simp only [Std.HashMap.getElem?_insert, hne, Bool.false_eq_true, if_false]

/-- A variable that shares its range and slot with no other finds its own signature. -/
theorem getElem?_putSignatures {declared : List LocalVariable} {rows : List LocalRow}
    {before : Std.HashMap (UInt16 × UInt16 × UInt16) String} {item : LocalVariable × LocalRow}
    (hitem : item ∈ declared.zip rows) (hone : (rows.map rowKey).count (rowKey item.2) = 1)
    (hbefore : before[rowKey item.2]? = none) :
    (putSignatures (signatureRows declared rows) before)[rowKey item.2]? = item.1.signature := by
  induction declared generalizing rows before with
  | nil => cases hitem
  | cons v declared ih =>
    cases rows with
    | nil => cases hitem
    | cons row rows =>
      rw [putSignatures_cons]
      rw [List.map_cons, List.count_cons] at hone
      rw [List.zip_cons_cons] at hitem
      rcases List.mem_cons.1 hitem with rfl | hmem
      · have hzero : (rows.map rowKey).count (rowKey row) = 0 := by simpa using hone
        rw [getElem?_putSignatures_of_notMem (List.count_eq_zero.1 hzero)]
        cases hv : v.signature with
        | none => exact hbefore
        | some signature => simp only [Std.HashMap.getElem?_insert_self]
      · have hpos : 0 < (rows.map rowKey).count (rowKey item.2) :=
          List.count_pos_iff.2 (List.mem_map_of_mem (List.of_mem_zip hmem).2)
        have hne : (rowKey row == rowKey item.2) = false := by
          by_contra heq
          rw [Bool.not_eq_false] at heq
          rw [if_pos heq] at hone
          omega
        rw [hne, if_neg Bool.false_ne_true, Nat.add_zero] at hone
        apply ih hmem hone
        cases v.signature with
        | none => exact hbefore
        | some signature =>
          simp only [Std.HashMap.getElem?_insert, hne, Bool.false_eq_true, if_false]
          exact hbefore

/-- A local variable that is read, but for its signature. -/
structure SameLocal (offset : Label → Except WriteError Nat) (table : LabelTable)
    (declared back : LocalVariable) : Prop where
  name : back.name = declared.name
  desc : back.desc = declared.desc
  index : back.index = declared.index
  range : ∃ start stop, offset declared.start = .ok start ∧ offset declared.stop = .ok stop ∧
    table.label? start = some back.start ∧ table.label? (max start stop) = some back.stop

theorem rowFor_unique {declared : LocalVariable} {row other : LocalRow}
    (h : RowFor offset declared row) (h' : RowFor offset declared other) : row = other := by
  obtain ⟨start, stop, hstart, hstop, rfl⟩ := h
  obtain ⟨start', stop', hstart', hstop', rfl⟩ := h'
  rw [hstart] at hstart'
  rw [hstop] at hstop'
  cases hstart'
  cases hstop'
  rfl

theorem rowFor_range (hmapped : Mapped offset places) {declared : LocalVariable} {row : LocalRow}
    (h : RowFor offset declared row) :
    ∃ start stop, offset declared.start = .ok start ∧ offset declared.stop = .ok stop ∧
      row.start.toNat = start ∧ row.start.toNat + row.length.toNat = max start stop := by
  obtain ⟨start, stop, hstart, hstop, rfl⟩ := h
  have hlt := hmapped.lt start (hmapped.mem hstart)
  have hlt' := hmapped.lt stop (hmapped.mem hstop)
  refine ⟨start, stop, hstart, hstop, Bytes.toNat_toUInt16 hlt, ?_⟩
  rw [Bytes.toNat_toUInt16 hlt, Bytes.toNat_toUInt16 (by omega)]
  omega

theorem max_mem_places (hmapped : Mapped offset places) {declared : LocalVariable} {start stop : Nat}
    (hstart : offset declared.start = .ok start) (hstop : offset declared.stop = .ok stop) :
    max start stop ∈ places := by
  rcases Nat.le_total start stop with hle | hle
  · rw [Nat.max_eq_right hle]
    exact hmapped.mem hstop
  · rw [Nat.max_eq_left hle]
    exact hmapped.mem hstart

/-- The local variables come back in order, and one that shares its range and slot with no other keeps
its signature. -/
theorem marks_localVariables (hmapped : Mapped offset places) {isBoundary : Nat → Bool}
    (hboundary : ∀ place ∈ places, isBoundary place = true)
    {keys : List (UInt16 × UInt16 × UInt16)} {declared : List LocalVariable} {rows : List LocalRow}
    (h : List.Forall₂ (RowFor offset) declared rows)
    {signatures : Std.HashMap (UInt16 × UInt16 × UInt16) String}
    (hcount : ∀ key, (rows.map rowKey).count key ≤ keys.count key)
    (hsignature : ∀ item ∈ declared.zip rows, keys.count (rowKey item.2) = 1 →
      signatures[rowKey item.2]? = item.1.signature)
    (found : List LocalVariable) :
    Marks places (Decode.localVariables isBoundary rows signatures found) fun table result =>
      ∃ more, result = found.reverse ++ more ∧
        List.Forall₂ (fun v back => SameLocal offset table v back ∧
          ∀ row, RowFor offset v row → keys.count (rowKey row) = 1 →
            back.signature = v.signature) declared more := by
  induction h generalizing signatures found with
  | nil => exact marks_pure fun _ => ⟨[], by simp, .nil⟩
  | @cons v row declared rows hrow hrest ih =>
    obtain ⟨start, stop, hstart, hstop, hrowStart, hrowStop⟩ := rowFor_range hmapped hrow
    have hmem := hmapped.mem hstart
    have hmem' := max_mem_places hmapped hstart hstop
    have hinside : (isBoundary row.start.toNat &&
        isBoundary (row.start.toNat + row.length.toNat)) = true := by
      rw [hrowStop, hrowStart, hboundary _ hmem, hboundary _ hmem']
      rfl
    have hcount' : ∀ key, (rows.map rowKey).count key ≤ keys.count key := by
      intro key
      have hle := hcount key
      rw [List.map_cons, List.count_cons] at hle
      omega
    -- Another variable that shares its range and slot with no one does not share it with this one.
    have hsignature' : ∀ item ∈ declared.zip rows, keys.count (rowKey item.2) = 1 →
        (signatures.erase (rowKey row))[rowKey item.2]? = item.1.signature := by
      intro item hitem hone
      have hne : (rowKey row == rowKey item.2) = false := by
        apply beq_false_of_ne
        intro heq
        have hmany := hcount (rowKey item.2)
        have hitems : 0 < (rows.map rowKey).count (rowKey item.2) :=
          List.count_pos_iff.2 (List.mem_map_of_mem (List.of_mem_zip hitem).2)
        rw [List.map_cons, heq, List.count_cons_self, hone] at hmany
        omega
      rw [Std.HashMap.getElem?_erase, hne]
      exact hsignature item (List.mem_cons_of_mem _ hitem) hone
    unfold Decode.localVariables
    dsimp only
    rw [if_pos hinside, hrowStop, hrowStart]
    apply (marks_ask hmem).bind
    intro start'
    apply (marks_ask hmem').bind
    intro stop'
    apply (ih hcount' hsignature' _).mono
    rintro table result ⟨more, rfl, hmore⟩ hstop' hstart'
    refine ⟨_ :: more, by rw [List.reverse_cons, List.append_assoc]; rfl, .cons ?_ hmore⟩
    have hfields := hrow
    obtain ⟨_, _, -, -, rfl⟩ := hfields
    refine ⟨⟨rfl, rfl, rfl, start, stop, hstart, hstop, hstart', hstop'⟩, ?_⟩
    intro other hother hone
    obtain rfl := rowFor_unique hrow hother
    exact hsignature _ List.mem_cons_self hone

end Encode
end JvmArchive
