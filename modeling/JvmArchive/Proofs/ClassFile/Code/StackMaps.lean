import JvmArchive.Proofs.ClassFile.Code.Resolved
import JvmArchive.Proofs.ClassFile.Pool.Sources

/-!
# Stack maps read back

A stack map that has been written is read as the frames that it was written for, each at its offset, with
whatever pool keeps the entries that the writer asked for. Nothing is asked of the names in the frames:
they stand in the pool, and only its bytes have to say how long they are.
-/
namespace JvmArchive

/-! ## Entries behind indices -/

namespace PoolBuilder

/-- A builder whose indices lead to their entries. -/
structure Indexed (builder : PoolBuilder) : Prop where
  size_le : builder.entries.size ≤ maxSlots
  entry : ∀ {entry : PoolEntry} {index : UInt16}, builder.indices[entry]? = some index →
    builder.entries[index.toNat]? = some entry

/-- Whether one builder has all entries of another, in their places. -/
def Holds (later builder : PoolBuilder) : Prop :=
  ∀ (i : Nat) (entry : PoolEntry), builder.entries[i]? = some entry → later.entries[i]? = some entry

theorem Holds.refl (builder : PoolBuilder) : builder.Holds builder := fun _ _ h => h

theorem Holds.trans {a b c : PoolBuilder} (hcb : c.Holds b) (hba : b.Holds a) : c.Holds a :=
  fun i entry h => hcb i entry (hba i entry h)

/-- Building on a pool that is not too large starts with indices that lead to their entries. -/
theorem indexed_ofPool {pool : ConstantPool} (h : pool.entries.size ≤ maxSlots) :
    (ofPool pool).Indexed where
  size_le := by
    change (if pool.entries.isEmpty then #[.unusable] else pool.entries).size ≤ maxSlots
    split
    · decide
    · exact h
  entry := by
    intro entry index hindex
    have herase : ((firstIndices pool.entries).erase .unusable)[entry]? = some index := hindex
    rw [Std.HashMap.getElem?_erase] at herase
    split at herase
    · cases herase
    · obtain ⟨i, rfl, hentry⟩ := getElem?_firstIndices herase
      have hlt : i < pool.entries.size := (Array.getElem?_eq_some_iff.1 hentry).1
      rw [Bytes.toNat_toUInt16 (by rw [maxSlots] at h; omega)]
      exact getElem?_entries_ofPool hentry

/-- What asking for an entry does to such a builder. -/
theorem Indexed.of_add {builder later : PoolBuilder} {entry : PoolEntry} {index : UInt16}
    (hbuilder : builder.Indexed) (h : add entry builder = .ok (index, later)) :
    later.Indexed ∧ later.Holds builder ∧ later.entries[index.toNat]? = some entry := by
  have hsize := size_add_le hbuilder.size_le h
  unfold add at h
  split at h
  next found hfound =>
    cases h
    exact ⟨hbuilder, .refl _, hbuilder.entry hfound⟩
  next hnew =>
    by_cases hfull : builder.entries.size + (if entry.isWide then 2 else 1) > maxSlots
    · rw [if_pos hfull] at h
      cases h
    · rw [if_neg hfull] at h
      cases h
      have hword : builder.entries.size.toUInt16.toNat = builder.entries.size := by
        have hroom := hbuilder.size_le
        rw [maxSlots] at hroom
        exact Bytes.toNat_toUInt16 (by omega)
      have hlast := getElem?_pushEntry_size builder.entries entry
      refine ⟨⟨hsize, fun {other found} hother => ?_⟩,
        fun i other hold => getElem?_pushEntry_of_some hold, by rw [hword]; exact hlast⟩
      rw [Std.HashMap.getElem?_insert] at hother
      split at hother
      next heq =>
        cases hother
        rw [hword, ← eq_of_beq heq]
        exact hlast
      next => exact getElem?_pushEntry_of_some (hbuilder.entry hother)

end PoolBuilder

namespace PoolWriter
open PoolBuilder

variable {α β : Type}

/-- From a builder whose indices lead to their entries the writer keeps all entries, and its result has
the property in every builder that holds them. -/
def Leads (write : PoolWriter α) (post : PoolBuilder → α → Prop) : Prop :=
  ∀ (builder later : PoolBuilder) (a : α), builder.Indexed → write builder = .ok (a, later) →
    later.Indexed ∧ later.Holds builder ∧ ∀ final : PoolBuilder, final.Holds later → post final a

theorem leads_pure {post : PoolBuilder → α → Prop} {a : α} (h : ∀ final, post final a) :
    Leads (pure a) post := by
  intro builder later b hbuilder hrun
  cases hrun
  exact ⟨hbuilder, .refl builder, fun final _ => h final⟩

theorem Leads.bind {write : PoolWriter α} {next : α → PoolWriter β} {post : PoolBuilder → α → Prop}
    {goal : PoolBuilder → β → Prop} (h : Leads write post)
    (hnext : ∀ a, Leads (next a) fun final b => post final a → goal final b) :
    Leads (write >>= next) goal := by
  intro builder later b hbuilder hrun
  obtain ⟨a, middle, hwrite, hrest⟩ := bind_ok hrun
  obtain ⟨hmiddle, hholds, hpost⟩ := h _ _ _ hbuilder hwrite
  obtain ⟨hlater, hholds', hgoal⟩ := hnext a _ _ _ hmiddle hrest
  exact ⟨hlater, hholds'.trans hholds,
    fun final hfinal => hgoal final hfinal (hpost final (hfinal.trans hholds'))⟩

theorem Leads.mono {write : PoolWriter α} {post goal : PoolBuilder → α → Prop} (h : Leads write post)
    (himp : ∀ final a, post final a → goal final a) : Leads write goal := by
  intro builder later a hbuilder hrun
  obtain ⟨hlater, hholds, hpost⟩ := h _ _ _ hbuilder hrun
  exact ⟨hlater, hholds, fun final hfinal => himp final a (hpost final hfinal)⟩

/-- A last step that only puts the result together. -/
theorem Leads.bind_pure {write : PoolWriter α} {f : α → β} {post : PoolBuilder → α → Prop}
    {goal : PoolBuilder → β → Prop} (h : Leads write post)
    (himp : ∀ final a, post final a → goal final (f a)) :
    Leads (write >>= fun a => pure (f a)) goal :=
  h.bind fun a => leads_pure fun final hpost => himp final a hpost

theorem leads_lift_bind {result : Except WriteError α} {next : α → PoolWriter β}
    {goal : PoolBuilder → β → Prop} (h : ∀ a, result = .ok a → Leads (next a) goal) :
    Leads (liftM result >>= next) goal := by
  intro builder later b hbuilder hrun
  cases result with
  | error error => cases hrun
  | ok a => exact h a rfl builder later b hbuilder hrun

theorem leads_mapM {write : α → PoolWriter β} {post : α → PoolBuilder → β → Prop} {items : List α}
    (h : ∀ item ∈ items, Leads (write item) (post item)) :
    Leads (items.mapM write) fun final written =>
      List.Forall₂ (fun b item => post item final b) written items := by
  induction items with
  | nil =>
    rw [List.mapM_nil]
    exact leads_pure fun _ => .nil
  | cons item items ih =>
    rw [List.mapM_cons]
    refine (h item List.mem_cons_self).bind fun b => ?_
    refine (ih fun other hother => h other (List.mem_cons_of_mem _ hother)).bind_pure ?_
    exact fun final rest hrest hb => .cons hb hrest

theorem leads_concatM {write : α → PoolWriter (List UInt8)}
    {reads : α → PoolBuilder → List UInt8 → Prop} {items : List α}
    (h : ∀ item ∈ items, Leads (write item) (reads item)) :
    Leads (Encode.concatM write items) (ReadsEach reads items) :=
  (leads_mapM h).bind_pure fun _ chunks hchunks => ⟨chunks, rfl, hchunks⟩

theorem leads_countedEach {write : α → PoolWriter (List UInt8)}
    {reads : α → PoolBuilder → List UInt8 → Prop} {items : List α}
    (h : ∀ item ∈ items, Leads (write item) (reads item)) :
    Leads (Encode.counted write items) (ReadsCounted reads items) :=
  (leads_concatM h).bind_pure fun _ rest hrest => ⟨rest, rfl, hrest⟩

theorem leads_add (entry : PoolEntry) :
    Leads (add entry) fun final index => final.toPool.entry? index = some entry := by
  intro builder later index hbuilder hrun
  obtain ⟨hlater, hholds, hentry⟩ := hbuilder.of_add hrun
  exact ⟨hlater, hholds, fun final hfinal => hfinal _ _ hentry⟩

theorem leads_classIndex (name : String) :
    Leads (Encode.classIndex name) fun final bytes =>
      ∃ index, bytes = Bytes.ofUInt16 index ∧ final.toPool.className index = .ok name := by
  have hclass : Leads (class_ name) fun final index => final.toPool.className index = .ok name := by
    refine (leads_add (.utf8 name)).bind fun text => (leads_add (.class text)).mono ?_
    intro final index hindex htext
    simp only [ConstantPool.className, ConstantPool.utf8, hindex, htext]
  exact hclass.bind_pure fun _ index hindex => ⟨index, rfl, hindex⟩

end PoolWriter

namespace Encode
open PoolBuilder PoolWriter Reader Decode

/-! ## Frames -/

variable {offset : Label → Except WriteError Nat} (known : Label → Except WriteError Nat)
  (places : List Nat)

theorem leads_verificationType {type : VerificationType}
    (h : ∀ site ∈ type.site?, known site = offset site) :
    Leads (Encode.verificationType offset type) (ReadsType known places type) := by
  cases type with
  | object name =>
    refine (leads_classIndex name).bind_pure ?_
    rintro final _ ⟨index, rfl, hindex⟩
    exact readsType_object hindex
  | uninitialized site =>
    refine leads_lift_bind fun place hplace => leads_pure fun final => ?_
    exact readsType_uninitialized ((h site rfl).trans hplace) final
  | _ =>
    exact leads_pure fun final _ => asks_read (reads_uint8 _) (asks_pure fun _ => .plain nofun)

/-- Whatever form the frame is stated in. -/
theorem leads_frameBytes (previous : List VerificationType) (delta : UInt16) {frame : StackFrame}
    (hlocals : frame.locals.length < 65536) (hstack : frame.stack.length < 65536)
    (hsites : ∀ site ∈ frame.sites, known site = offset site) :
    Leads (frameBytes offset previous delta frame)
      (ReadsFrame known places previous delta frame) := by
  have htype : ∀ type ∈ frame.locals ++ frame.stack,
      Leads (Encode.verificationType offset type) (ReadsType known places type) :=
    fun type htype => leads_verificationType known places fun site hsite =>
      hsites site (List.mem_filterMap.2 ⟨type, htype, Option.mem_def.1 hsite⟩)
  have hform := frameForm_spec previous frame
  unfold frameBytes
  cases hcase : frameForm previous frame with
  | same =>
    rw [hcase] at hform
    exact leads_pure fun _ => readsFrame_same hform.1 hform.2
  | sameWith item =>
    rw [hcase] at hform
    refine (htype item (by simp [hform.2])).bind_pure fun final bytes hbytes => ?_
    exact readsFrame_sameWith hform.1 hform.2 hbytes
  | chop count =>
    rw [hcase] at hform
    obtain ⟨hpos, hfew, -, hkept, hempty⟩ := hform
    exact leads_pure fun _ => readsFrame_chop hpos hfew hkept hempty
  | append added =>
    rw [hcase] at hform
    obtain ⟨hpos, hfew, hmore, hempty⟩ := hform
    refine (leads_concatM fun type hmem => htype type (by simp [hmore, hmem])).bind_pure ?_
    exact fun final bytes hbytes => readsFrame_append hpos hfew hmore hempty hbytes
  | full =>
    refine (leads_countedEach fun type hmem => htype type (by simp [hmem])).bind fun first => ?_
    refine (leads_countedEach fun type hmem => htype type (by simp [hmem])).bind_pure ?_
    exact fun final second hsecond hfirst => readsFrame_full hlocals hstack hfirst hsecond

theorem leads_framesFrom (previous : List VerificationType) (base : Nat)
    {frames : List (Nat × StackFrame)}
    (h : ∀ item ∈ frames, item.2.locals.length < 65536 ∧ item.2.stack.length < 65536 ∧
      ∀ site ∈ item.2.sites, known site = offset site) :
    Leads (Encode.framesFrom offset previous base frames)
      (ReadsFrames known places previous base frames) := by
  induction frames generalizing previous base with
  | nil =>
    refine leads_pure fun final _ _ _ locals read => ?_
    exact asks_pure fun _ _ => ⟨[], by simp, .nil⟩
  | cons item rest ih =>
    obtain ⟨place, frame⟩ := item
    obtain ⟨⟨hlocals, hstack, hsites⟩, hrest⟩ := List.forall_mem_cons.1 h
    refine (leads_frameBytes known places previous _ hlocals hstack hsites).bind fun first => ?_
    refine (ih _ _ hrest).bind_pure fun final chunks hchunks hfirst => ?_
    exact readsFrames_cons hfirst hchunks

theorem leads_stackMap (initial : List VerificationType) {frames : List (Nat × StackFrame)}
    (hfew : frames.length < 65536) (h : ∀ item ∈ frames, item.2.locals.length < 65536 ∧
      item.2.stack.length < 65536 ∧ ∀ site ∈ item.2.sites, known site = offset site) :
    Leads (Encode.stackMap offset initial frames) fun final bytes =>
      Mapped known places → Ascends 0 frames → (∀ frame ∈ frames, frame.1 ∈ places) →
        ∀ locals : List VerificationType,
          Asks places (Decode.stackMap final.toPool locals) bytes fun table found =>
            List.Forall₂ (VerificationType.Matches (Meets known table)) initial locals →
              List.Forall₂ (FrameAt known table) frames found := by
  refine (leads_framesFrom known places initial 0 h).bind_pure ?_
  intro final chunks hchunks hmapped hascends hplaces locals
  unfold Decode.stackMap
  apply asks_read (reads_uint16 _)
  rw [Bytes.toNat_toUInt16 hfew]
  apply (hchunks hmapped hascends hplaces locals []).mono
  intro table found hfound hlocals
  obtain ⟨more, rfl, hmore⟩ := hfound hlocals
  exact hmore

/-! ## Stack maps -/

omit known places

theorem Matches.mono_type {same same' : Label → Label → Prop} {type back : VerificationType}
    (h : VerificationType.Matches same type back)
    (himp : ∀ label label', same label label' → same' label label') :
    VerificationType.Matches same' type back := by
  cases h with
  | plain h => exact .plain h
  | uninitialized h => exact .uninitialized (himp _ _ h)

/-- The offsets of labels as far as they lie within code of a length. -/
def offsetWithin (offset : Label → Except WriteError Nat) (codeLength : Nat) (label : Label) :
    Except WriteError Nat := do
  let place ← offset label
  if place ≤ codeLength then return place else throw (.unknownLabel "" label.number)

theorem offsetWithin_eq_ok_iff {codeLength place : Nat} {label : Label} :
    offsetWithin offset codeLength label = .ok place ↔
      offset label = .ok place ∧ place ≤ codeLength := by
  unfold offsetWithin
  cases hoffset : offset label with
  | error error =>
    change (Except.error error : Except WriteError Nat) = _ ↔ _
    simp
  | ok found =>
    change (if found ≤ codeLength then Except.ok found else _) = _ ↔ _
    split
    next hle =>
      rw [Except.ok.injEq]
      exact ⟨fun heq => ⟨heq, heq ▸ hle⟩, And.left⟩
    next hgt =>
      constructor
      · nofun
      · rintro ⟨heq, hle⟩
        cases heq
        exact absurd hle hgt

/-- A frame at a place within code of a length, whose entries can be counted in two bytes and whose
allocations have known places within the code. -/
structure Statable (offset : Label → Except WriteError Nat) (codeLength : Nat)
    (item : Nat × StackFrame) : Prop where
  within : item.1 ≤ codeLength
  locals : item.2.locals.length ≤ 65535
  stack : item.2.stack.length ≤ 65535
  sites : ∀ site ∈ item.2.sites, ∃ place, offset site = .ok place ∧ place ≤ codeLength

/-- Up to 65535 frames at ascending places are written unless the pool is full, and what is written is
read as the frames at their places, whatever labels there have been before. -/
theorem onBytes_stackMap {initial locals : List VerificationType} {frames : List (Nat × StackFrame)}
    {builder : PoolBuilder} {table : LabelTable} (hbuilder : builder.Indexed)
    (htable : table.Regular) (hlength : table.codeLength ≤ 65535)
    (hlocals : List.Forall₂ (VerificationType.Matches (Meets offset table)) initial locals)
    (hfew : frames.length ≤ 65535) (hascends : frames.Pairwise fun a b => a.1 < b.1)
    (hframes : ∀ item ∈ frames, Statable offset table.codeLength item) :
    (∀ error, Encode.stackMap offset initial frames builder = .error error →
        error = .constantPoolOverflow) ∧
      ∀ (bytes : List UInt8) (later : PoolBuilder) (pool : ConstantPool),
        Encode.stackMap offset initial frames builder = .ok (bytes, later) →
        (∀ (i : Nat) (entry : PoolEntry), later.entries[i]? = some entry →
          pool.entries[i]? = some entry) →
        ∃ found last, Decode.onBytes (Decode.stackMap pool locals) bytes table = .ok (found, last) ∧
          last.Regular ∧ LabelTable.Extends table last ∧
          List.Forall₂ (FrameAt offset last) frames found := by
  let known := offsetWithin offset table.codeLength
  let places := List.range (table.codeLength + 1)
  have hsame : ∀ item ∈ frames, ∀ site ∈ item.2.sites, known site = offset site := by
    intro item hitem site hsite
    obtain ⟨place, hplace, hle⟩ := (hframes item hitem).sites site hsite
    rw [hplace]
    exact offsetWithin_eq_ok_iff.2 ⟨hplace, hle⟩
  have hmeets : ∀ (final : LabelTable) (label label' : Label),
      Meets known final label label' → Meets offset final label label' := by
    rintro final label label' ⟨place, hplace, hlabel⟩
    exact ⟨place, (offsetWithin_eq_ok_iff.1 hplace).1, hlabel⟩
  have hmapped : Mapped known places := by
    refine ⟨fun h => List.mem_range.2 (Nat.lt_succ_of_le (offsetWithin_eq_ok_iff.1 h).2), ?_⟩
    intro place hplace
    have hlt := List.mem_range.1 hplace
    omega
  refine ⟨fun error herror => ?_, fun bytes later pool hrun hpool => ?_⟩
  · by_contra hpool
    refine avoids_stackMap hpool initial (fun item hitem site hsite hnone => ?_) builder herror
    obtain ⟨place, hplace, -⟩ := (hframes item hitem).sites site hsite
    rw [hplace] at hnone
    cases hnone
  · have hleads : Leads (Encode.stackMap offset initial frames) _ :=
      leads_stackMap known places initial (by omega) fun item hitem =>
        ⟨by have := (hframes item hitem).locals; omega, by have := (hframes item hitem).stack; omega,
          hsame item hitem⟩
    obtain ⟨-, -, hpost⟩ := hleads _ _ _ hbuilder hrun
    have hasks := hpost { entries := pool.entries, bootstrap := pool.bootstrap } hpool hmapped
      (ascends_of_pairwise hascends fun _ _ => Nat.zero_le _)
      (fun item hitem => List.mem_range.2 (Nat.lt_succ_of_le (hframes item hitem).within)) locals
    obtain ⟨found, last, hread, hlast, hextends, hfound⟩ := hasks.onBytes table htable
    refine ⟨found, last, hread, ?_, hextends, ?_⟩
    · rw [LabelTable.Regular, hextends.codeLength]
      exact hlast
    · have hinitial : List.Forall₂ (VerificationType.Matches (Meets known last)) initial locals := by
        refine hlocals.imp fun type back hmatches => Matches.mono_type hmatches ?_
        rintro label label' ⟨place, hplace, hlabel⟩
        have hle := List.mem_range.1 (htable.mem hlabel)
        exact ⟨place, offsetWithin_eq_ok_iff.2 ⟨hplace, Nat.le_of_lt_succ hle⟩,
          hextends.labels hlabel⟩
      refine (hfound last (.refl last) hinitial).imp fun item back hback => ⟨hback.1, ?_, ?_⟩
      · exact hback.2.locals.imp fun _ _ h => Matches.mono_type h (hmeets last)
      · exact hback.2.stack.imp fun _ _ h => Matches.mono_type h (hmeets last)

/-- Frames that take all forms on one integer, near the frame before them and far from it. -/
def variedFrames : List (Nat × StackFrame) :=
  [(0, { locals := [.integer] }), (5, { locals := [.integer], stack := [.uninitialized ⟨0⟩] }),
    (80, { locals := [.integer, .float, .uninitialized ⟨0⟩] }),
    (150, { locals := [.integer, .float, .uninitialized ⟨0⟩] }), (151, { locals := [.integer] }),
    (230, { locals := [.integer], stack := [.null] }),
    (240, { locals := [.top], stack := [.integer, .integer] })]

/-- They are read back on labels that have not been asked for, the allocation as the label of its place. -/
theorem onBytes_stackMap_varied :
    ∃ bytes later found last,
      Encode.stackMap (fun _ => .ok 3) [.integer] variedFrames {} = .ok (bytes, later) ∧
        Decode.onBytes (Decode.stackMap later.toPool [.integer]) bytes { codeLength := 300 } =
          .ok (found, last) ∧
        List.Forall₂ (FrameAt (fun _ => .ok 3) last) variedFrames found := by
  obtain ⟨bytes, later, hrun⟩ :
      ∃ bytes later, Encode.stackMap (fun _ => .ok 3) [.integer] variedFrames {} = .ok (bytes, later) :=
    ⟨_, _, rfl⟩
  have hbuilder : PoolBuilder.Indexed {} := by
    rw [← ofPool_empty]
    exact indexed_ofPool (by decide)
  have hstatable : ∀ item ∈ variedFrames, Statable (fun _ => .ok 3) 300 item := by
    intro item hitem
    simp only [variedFrames, List.mem_cons, List.not_mem_nil, or_false] at hitem
    rcases hitem with rfl | rfl | rfl | rfl | rfl | rfl | rfl <;>
      exact ⟨by decide, by decide, by decide, fun _ _ => ⟨3, rfl, by decide⟩⟩
  have hsettled := @onBytes_stackMap (fun _ => .ok 3) [.integer] [.integer] variedFrames {}
    { codeLength := 300 } hbuilder (regular_empty (by decide)) (by decide)
    (.cons (.plain nofun) .nil) (by decide) (by decide) hstatable
  obtain ⟨found, last, hread, -, -, hfound⟩ :=
    hsettled.2 bytes later later.toPool hrun fun _ _ h => h
  exact ⟨bytes, later, found, last, hrun, hread, hfound⟩

/-! ## More frames than can be counted -/

/-- Frames that say nothing leave the pool as it is. -/
theorem framesFrom_empty (offset : Label → Except WriteError Nat) (places : List Nat) (base : Nat)
    (builder : PoolBuilder) :
    ∃ chunks, Encode.framesFrom offset [] base (places.map fun place => (place, {})) builder =
      .ok (chunks, builder) := by
  induction places generalizing base with
  | nil => exact ⟨[], rfl⟩
  | cons place rest ih =>
    obtain ⟨chunks, hrest⟩ := ih (place + 1)
    refine ⟨distance 0 251 (place - base).toUInt16 :: chunks, ?_⟩
    rw [List.map_cons, Encode.framesFrom, bind_run]
    change (Encode.framesFrom offset [] (place + 1) (rest.map fun place => (place, {})) >>= fun rest =>
      pure (distance 0 251 (place - base).toUInt16 :: rest)) builder = _
    rw [bind_run, hrest]
    rfl

/-- A frame that says nothing at every place of code of 65535 bytes and right behind it. -/
def crowdedFrames : List (Nat × StackFrame) := (List.range 65536).map fun place => (place, {})

/-- There are as many frames as two bytes cannot tell from none, and none is read. -/
theorem onBytes_stackMap_crowded :
    crowdedFrames.length = 65536 ∧ crowdedFrames.Pairwise (fun a b => a.1 < b.1) ∧
      (∀ item ∈ crowdedFrames, Statable (fun _ => .ok 0) 65535 item) ∧
      ∃ bytes, Encode.stackMap (fun _ => .ok 0) [] crowdedFrames {} = .ok (bytes, {}) ∧
        Decode.onBytes (Decode.stackMap {} []) bytes { codeLength := 65535 } =
          .ok ([], { codeLength := 65535 }) := by
  obtain ⟨chunks, hchunks⟩ := framesFrom_empty (fun _ => .ok 0) (List.range 65536) 0 {}
  have hlength : crowdedFrames.length = 65536 := by
    rw [crowdedFrames, List.length_map, List.length_range]
  refine ⟨hlength, ?_, fun item hitem => ?_, Bytes.ofNat16 65536 ++ chunks.flatten, ?_, ?_⟩
  · rw [crowdedFrames, List.pairwise_map]
    exact List.pairwise_lt_range
  · obtain ⟨place, hplace, rfl⟩ := List.mem_map.1 hitem
    have hlt := List.mem_range.1 hplace
    exact ⟨Nat.le_of_lt_succ hlt, Nat.zero_le _, Nat.zero_le _, nofun⟩
  · rw [Encode.stackMap, bind_run, hlength, crowdedFrames, hchunks]
    rfl
  · rfl

end Encode
end JvmArchive
