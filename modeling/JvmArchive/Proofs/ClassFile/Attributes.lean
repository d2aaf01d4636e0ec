import JvmArchive.ClassFile.Encode.Class
import JvmArchive.Proofs.ClassFile.Annotations

/-!
# Attributes read back

An attribute is written as the index of its name and its bytes, and what is read is the name with the
bytes. What a list of attributes tells about a tree is what adding them one after the other makes of it;
lists that stand one after the other tell one thing after the other.
-/
namespace JvmArchive.PoolWriter
open PoolBuilder Reader

/-- A written attribute is read as this name with these bytes. -/
def Spells (final : PoolBuilder) (written : Encode.Attribute) (raw : RawAttribute) : Prop :=
  final.toPool.utf8 written.name = .ok raw.name ∧ written.data = raw.data

theorem reads_rawAttribute {final : PoolBuilder} {written : Encode.Attribute} {raw : RawAttribute}
    (h : Spells final written raw) (hsize : raw.data.length < 4294967296) :
    Reads (Decode.rawAttribute { entries := final.entries }) written.bytes raw := by
  obtain ⟨hname, hdata⟩ := h
  have htake := reads_take raw.data
  rw [← Bytes.toNat_toUInt32 hsize] at htake
  rw [Encode.Attribute.bytes, hdata]
  exact reads_index hname ((reads_uint32 _).bind (htake.bind_pure (reads_pure raw)))

/-- Attributes behind their number, in a stretch of bytes that four bytes can measure. -/
theorem reads_rawAttributes {final : PoolBuilder} {written : List Encode.Attribute}
    {raws : List RawAttribute} (h : List.Forall₂ (Spells final) written raws)
    (hcount : raws.length < 65536) (hsize : (Encode.attributesBytes written).length < 4294967296) :
    Reads (Decode.rawAttributes { entries := final.entries }) (Encode.attributesBytes written) raws := by
  rw [Encode.attributesBytes, h.length_eq, List.flatMap_def]
  rw [Encode.attributesBytes, List.length_append, Bytes.length_ofNat16, List.flatMap_def] at hsize
  apply reads_counted hcount
  clear hcount
  induction h with
  | nil => exact .nil
  | @cons first raw written raws hfirst _ ih =>
    rw [List.map_cons, List.flatten_cons, List.length_append] at hsize
    refine .cons (reads_rawAttribute hfirst ?_) (ih (by omega))
    rw [← hfirst.2]
    rw [Encode.Attribute.bytes, List.length_append, List.length_append] at hsize
    omega

variable {σ : Type} {add : ConstantPool → σ → RawAttribute → Except FormatError σ}

/-- Written attributes of these names, which make the second tree of the first when they are added one
after the other. -/
def Tells (add : ConstantPool → σ → RawAttribute → Except FormatError σ) (names : List String)
    (before after : σ) (final : PoolBuilder) (written : List Encode.Attribute) : Prop :=
  ∃ raws : List RawAttribute, List.Forall₂ (Spells final) written raws ∧ raws.map (·.name) = names ∧
    raws.foldlM (add final.toPool) before = .ok after

theorem tells_nil (before : σ) (final : PoolBuilder) : Tells add [] before before final [] :=
  ⟨[], .nil, rfl, rfl⟩

theorem Tells.append {names names' : List String} {a b c : σ} {final : PoolBuilder}
    {written written' : List Encode.Attribute} (h : Tells add names a b final written)
    (h' : Tells add names' b c final written') :
    Tells add (names ++ names') a c final (written ++ written') := by
  obtain ⟨raws, hspells, rfl, hadd⟩ := h
  obtain ⟨raws', hspells', rfl, hadd'⟩ := h'
  refine ⟨raws ++ raws', List.rel_append hspells hspells', List.map_append, ?_⟩
  rw [List.foldlM_append, hadd]
  exact hadd'

/-- Pieces of attributes that are written one after the other. -/
theorem Yields.tells_append {first second : PoolWriter (List Encode.Attribute)}
    {names names' : List String} {a b c : σ} (h : Yields first (Tells add names a b))
    (h' : Yields second (Tells add names' b c)) :
    Yields (first >>= fun xs => second >>= fun ys => pure (xs ++ ys))
      (Tells add (names ++ names') a c) := by
  apply h.bind
  intro xs
  apply h'.bind_pure
  intro final ys _ hys hxs
  exact hxs.append hys

theorem yields_named {name : String} (hname : TextFits name) (data : List UInt8) :
    Yields (Encode.Attribute.named name data) fun final written =>
      Spells final written ⟨name, data⟩ := by
  apply (yields_utf8 hname).bind_pure
  intro final index _ hindex
  exact ⟨hindex.resolved, rfl⟩

/-- One attribute around what a writer gives. -/
theorem yields_attribute {name : String} (hname : TextFits name) {write : PoolWriter (List UInt8)}
    {post : PoolBuilder → List UInt8 → Prop} (hwrite : Yields write post) {before after : σ}
    (hadd : ∀ final bytes, post final bytes → add final.toPool before ⟨name, bytes⟩ = .ok after) :
    Yields (write >>= fun bytes => Encode.Attribute.named name bytes >>= fun a => pure [a])
      (Tells add [name] before after) := by
  apply hwrite.bind
  intro bytes
  apply (yields_named hname bytes).bind_pure
  intro final written _ hwritten hbytes
  refine ⟨[⟨name, bytes⟩], .cons hwritten .nil, rfl, ?_⟩
  rw [List.foldlM_cons, hadd final bytes hbytes]
  rfl

/-- The attribute of something that may be missing. -/
theorem yields_optionalAttribute {α : Type} (write : α → PoolWriter (List UInt8))
    (post : α → PoolBuilder → List UInt8 → Prop) {name : String} (hname : TextFits name)
    {item : Option α} {piece : PoolWriter (List Encode.Attribute)} {before after : σ}
    (hnone : item = none → piece = pure [] ∧ after = before)
    (hsome : ∀ a, item = some a →
      piece = (write a >>= fun bytes => Encode.Attribute.named name bytes >>= fun b => pure [b]) ∧
        Yields (write a) (post a) ∧
        ∀ (final : PoolBuilder) (bytes : List UInt8), post a final bytes →
          add final.toPool before ⟨name, bytes⟩ = .ok after) :
    Yields piece (Tells add (item.toList.map fun _ => name) before after) := by
  cases item with
  | none =>
    obtain ⟨rfl, rfl⟩ := hnone rfl
    exact yields_pure fun final _ => tells_nil after final
  | some a =>
    obtain ⟨rfl, hwrite, hadd⟩ := hsome a rfl
    exact yields_attribute hname hwrite hadd

/-- The attribute of a list that is left out if the list is empty. -/
theorem yields_listAttribute {α : Type} {name : String} (hname : TextFits name) {items : List α}
    {write : PoolWriter (List UInt8)} {post : PoolBuilder → List UInt8 → Prop}
    (hwrite : Yields write post) {before after : σ} (hnone : items = [] → after = before)
    (hadd : ∀ (final : PoolBuilder) (bytes : List UInt8), post final bytes →
      add final.toPool before ⟨name, bytes⟩ = .ok after) :
    Yields (if items.isEmpty then pure [] else
        write >>= fun bytes => Encode.Attribute.named name bytes >>= fun a => pure [a])
      (Tells add (if items.isEmpty then [] else [name]) before after) := by
  cases items with
  | nil =>
    rw [hnone rfl]
    exact yields_pure fun final _ => tells_nil before final
  | cons item items => exact yields_attribute hname hwrite hadd

theorem yields_optionalText {name : String} (hname : TextFits name) {text : Option String}
    (htext : ∀ t ∈ text, TextFits t) {before after : σ} (hnone : text = none → after = before)
    (hadd : ∀ (pool : ConstantPool) (index : UInt16) (t : String), text = some t →
      pool.utf8 index = .ok t → add pool before ⟨name, Bytes.ofUInt16 index⟩ = .ok after) :
    Yields (Encode.optionalText name text)
      (Tells add (text.toList.map fun _ => name) before after) := by
  apply yields_optionalAttribute Encode.textIndex (ReadsIndex ConstantPool.utf8) hname
  · rintro rfl
    exact ⟨rfl, hnone rfl⟩
  · rintro t rfl
    refine ⟨?_, yields_textIndex (htext t rfl), ?_⟩
    · simp only [Encode.optionalText, Encode.textAttribute, bind_assoc]
    · rintro final _ ⟨index, rfl, -, hindex⟩
      exact hadd final.toPool index t rfl hindex

theorem yields_classNames {classes : List String} (hcount : classes.length < 65536)
    (hclasses : ∀ c ∈ classes, TextFits c) :
    Yields (Encode.counted Encode.classIndex classes) fun final bytes =>
      Reads (Decode.classNames final.toPool) bytes classes := by
  refine yields_counted (fun pool => do pool.className (← uint16)) hcount ?_
  intro c hc
  apply (yields_classIndex (hclasses c hc)).mono
  rintro final _ - ⟨index, rfl, -, hindex⟩
  exact (reads_uint16 index).bind_pure (reads_lift hindex)

theorem yields_someClasses {name : String} (hname : TextFits name) {classes : List String}
    (hcount : classes.length < 65536) (hclasses : ∀ c ∈ classes, TextFits c) {before after : σ}
    (hnone : classes = [] → after = before)
    (hadd : ∀ (pool : ConstantPool) (bytes : List UInt8),
      Reads (Decode.classNames pool) bytes classes → add pool before ⟨name, bytes⟩ = .ok after) :
    Yields (Encode.someClasses name classes)
      (Tells add (if classes.isEmpty then [] else [name]) before after) := by
  simp only [Encode.someClasses, Encode.classesAttribute, bind_assoc]
  apply yields_listAttribute hname (yields_classNames hcount hclasses) hnone
  intro final bytes h
  exact hadd _ _ h

theorem yields_annotationsAttribute {name : String} (hname : TextFits name)
    {nodes : List AnnotationNode} (h : AnnotationsFit nodes) {before after : σ}
    (hnone : nodes = [] → after = before)
    (hadd : ∀ (pool : ConstantPool) (bytes : List UInt8),
      Reads (Decode.annotations pool) bytes nodes → add pool before ⟨name, bytes⟩ = .ok after) :
    Yields (Encode.annotationsAttribute name nodes)
      (Tells add (if nodes.isEmpty then [] else [name]) before after) := by
  apply yields_listAttribute hname (yields_annotations h) hnone
  intro final bytes h
  exact hadd _ _ h

/-- The attributes outside the model that are written. -/
def keptAttributes (keepAll : Bool) (raws : List RawAttribute) : List RawAttribute :=
  raws.filter fun raw => keepAll || raw.isPoolIndependent

/-- Attributes that are put behind those of a tree one after the other. -/
theorem foldl_push (get : σ → List RawAttribute) (set : σ → List RawAttribute → σ)
    (hget : ∀ s raws, get (set s raws) = raws)
    (hset : ∀ s raws raws', set (set s raws) raws' = set s raws') (hself : ∀ s, set s (get s) = s)
    (raws : List RawAttribute) (s : σ) :
    raws.foldl (fun s raw => set s (get s ++ [raw])) s = set s (get s ++ raws) := by
  induction raws generalizing s with
  | nil => rw [List.foldl_nil, List.append_nil, hself]
  | cons raw raws ih => rw [List.foldl_cons, ih, hget, hset, List.append_assoc, List.singleton_append]

theorem foldlM_eq_foldl {ε β : Type} {step : σ → β → Except ε σ} {push : σ → β → σ} {items : List β}
    (h : ∀ item ∈ items, ∀ state, step state item = .ok (push state item)) (state : σ) :
    items.foldlM step state = .ok (items.foldl push state) := by
  induction items generalizing state with
  | nil => rfl
  | cons item items ih =>
    rw [List.foldlM_cons, h item List.mem_cons_self state]
    exact ih (fun other hother => h other (List.mem_cons_of_mem _ hother)) _

/-- The names of the attributes of visible and of invisible annotations. -/
def annotationNames (visible invisible : List AnnotationNode) : List String :=
  (if visible.isEmpty then [] else ["RuntimeVisibleAnnotations"]) ++
    (if invisible.isEmpty then [] else ["RuntimeInvisibleAnnotations"])

theorem yields_annotationAttributes {visible invisible : List AnnotationNode}
    (hvisible : AnnotationsFit visible) (hinvisible : AnnotationsFit invisible) {a b c : σ}
    (hnone : visible = [] → b = a) (hnone' : invisible = [] → c = b)
    (hadd : ∀ (pool : ConstantPool) (bytes : List UInt8), Reads (Decode.annotations pool) bytes visible →
      add pool a ⟨"RuntimeVisibleAnnotations", bytes⟩ = .ok b)
    (hadd' : ∀ (pool : ConstantPool) (bytes : List UInt8),
      Reads (Decode.annotations pool) bytes invisible →
        add pool b ⟨"RuntimeInvisibleAnnotations", bytes⟩ = .ok c) :
    Yields (Encode.annotationAttributes visible invisible)
      (Tells add (annotationNames visible invisible) a c) :=
  (yields_annotationsAttribute (by decide) hvisible hnone hadd).tells_append
    (yields_annotationsAttribute (by decide) hinvisible hnone' hadd')

/-- The attributes outside the model are read as they were, and put behind those that are there. -/
theorem yields_rawAttributes {keepAll : Bool} {raws : List RawAttribute} {push : σ → RawAttribute → σ}
    (h : ∀ raw ∈ keptAttributes keepAll raws, TextFits raw.name ∧
      ∀ (pool : ConstantPool) (before : σ), add pool before raw = .ok (push before raw)) (before : σ) :
    Yields (Encode.rawAttributes keepAll raws)
      (Tells add ((keptAttributes keepAll raws).map (·.name)) before
        ((keptAttributes keepAll raws).foldl push before)) := by
  have hkept : ∀ raw ∈ keptAttributes keepAll raws,
      Yields (Encode.Attribute.named raw.name raw.data) fun final written =>
        Spells final written raw := by
    intro raw hraw
    exact yields_named (h raw hraw).1 raw.data
  apply (yields_mapM hkept).mono
  intro final written _ hwritten
  exact ⟨_, hwritten, rfl, foldlM_eq_foldl (fun raw hraw => (h raw hraw).2 final.toPool) before⟩

end JvmArchive.PoolWriter
