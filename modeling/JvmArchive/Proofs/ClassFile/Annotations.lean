import JvmArchive.ClassFile.Decode.Attribute
import JvmArchive.Proofs.ClassFile.Pieces

/-!
# Annotations read back

Element values nest through annotations and arrays. Every level takes a byte of its own, so that the
bytes left bound the depth to which reading has to go.
-/
namespace JvmArchive

namespace ElementValue

mutual
/-- The texts of an element value fit, so do the numbers of its parts, and no annotation in it has a key
twice. -/
def Fits : ElementValue → Prop
  | .string text | .class text => TextFits text
  | .enum desc name => TextFits desc ∧ TextFits name
  | .nested desc values =>
    TextFits desc ∧ values.length < 65536 ∧ (values.map (·.1)).Nodup ∧ PairsFit values
  | .array values => values.length < 65536 ∧ AllFit values
  | _ => True

def AllFit : List ElementValue → Prop
  | [] => True
  | value :: values => Fits value ∧ AllFit values

def PairsFit : List (String × ElementValue) → Prop
  | [] => True
  | (key, value) :: values => TextFits key ∧ Fits value ∧ PairsFit values
end

end ElementValue

def AnnotationNode.Fits (node : AnnotationNode) : Prop :=
  TextFits node.desc ∧ node.values.length < 65536 ∧ (node.values.map (·.1)).Nodup ∧
    ElementValue.PairsFit node.values

/-- A list of annotations that two bytes can count, each of which fits. -/
def AnnotationsFit (nodes : List AnnotationNode) : Prop :=
  nodes.length < 65536 ∧ ∀ node ∈ nodes, node.Fits

namespace AnnotationNode

/-- A key that is new goes to the end. -/
theorem insertEntry_of_notMem {κ α : Type} [DecidableEq κ] {key : κ} {value : α}
    {entries : List (κ × α)} (h : key ∉ entries.map (·.1)) :
    Table.insertEntry key value entries = entries ++ [(key, value)] := by
  induction entries with
  | nil => rfl
  | cons entry rest ih =>
    obtain ⟨k, v⟩ := entry
    simp only [List.map_cons, List.mem_cons, not_or] at h
    rw [Table.insertEntry, if_neg (Ne.symm h.1), ih h.2, List.cons_append]

theorem foldl_insertEntry {κ α : Type} [DecidableEq κ] {before pairs : List (κ × α)}
    (h : ((before ++ pairs).map (·.1)).Nodup) :
    pairs.foldl (fun values pair => Table.insertEntry pair.1 pair.2 values) before =
      before ++ pairs := by
  induction pairs generalizing before with
  | nil => simp
  | cons pair pairs ih =>
    have hnew : pair.1 ∉ before.map (·.1) := by
      intro hmem
      rw [List.map_append, List.map_cons, List.nodup_append] at h
      exact h.2.2 _ hmem _ List.mem_cons_self rfl
    rw [List.foldl_cons, insertEntry_of_notMem hnew, ih (by simpa using h)]
    simp

/-- Pairs with different keys are the elements as they stand. -/
theorem collect_of_nodup {pairs : List (String × ElementValue)} (h : (pairs.map (·.1)).Nodup) :
    collect pairs = pairs :=
  foldl_insertEntry h

end AnnotationNode

namespace PoolWriter
open PoolBuilder Reader

/-- An element value is read from the bytes, at every depth that the bytes allow. -/
def ReadsValue (value : ElementValue) (final : PoolBuilder) (bytes : List UInt8) : Prop :=
  ∀ depth, bytes.length ≤ depth → Reads (Decode.elementValueWithin final.toPool depth) bytes value

/-- A value whose bytes are a tag and what is read in its branch, one level deeper. -/
theorem readsValue_tag {value : ElementValue} {final : PoolBuilder} {tag : UInt8} {bytes : List UInt8}
    {body : Nat → UInt8 → Reader ElementValue}
    (hbody : ∀ depth, Decode.elementValueWithin final.toPool (depth + 1) = uint8 >>= body depth)
    (h : ∀ depth, bytes.length ≤ depth → Reads (body depth tag) bytes value) :
    ReadsValue value final (tag :: bytes) := by
  intro depth hdepth
  cases depth with
  | zero => cases hdepth
  | succ depth =>
    rw [hbody]
    exact (reads_uint8 tag).bind (h depth (Nat.le_of_succ_le_succ hdepth))

/-- A value that is a tag and the index of an entry. -/
theorem yields_leaf {α : Type} (tag : Char) (entry : PoolEntry) (hentry : entry.Writable)
    {resolve : ConstantPool → UInt16 → Except FormatError α} {a : α} (f : α → ElementValue)
    {value : ElementValue} (hvalue : f a = value)
    (hresolve : ∀ (pool : ConstantPool) (index : UInt16), pool.entry? index = some entry →
      resolve pool index = .ok a)
    {body : ConstantPool → Nat → UInt8 → Reader ElementValue}
    (hbody : ∀ pool depth, Decode.elementValueWithin pool (depth + 1) = uint8 >>= body pool depth)
    (htag : ∀ pool depth, body pool depth tag.toNat.toUInt8 =
      (uint16 >>= fun i => liftM (resolve pool i) >>= fun a => pure (f a))) :
    Yields (Encode.taggedIndex tag entry) (ReadsValue value) := by
  apply (yields_entry entry hentry hresolve).bind_pure
  intro final index _ h
  apply readsValue_tag (hbody final.toPool)
  intro depth _
  rw [htag, ← hvalue]
  exact reads_index_pure f h.resolved

theorem integerAt_of_entry (value : Int32) (pool : ConstantPool) (index : UInt16)
    (h : pool.entry? index = some (.integer value)) : Decode.integerAt pool index = .ok value := by
  simp only [Decode.integerAt, h]

theorem longAt_of_entry (value : Int64) (pool : ConstantPool) (index : UInt16)
    (h : pool.entry? index = some (.long value)) : Decode.longAt pool index = .ok value := by
  simp only [Decode.longAt, h]

theorem floatAt_of_entry (bits : UInt32) (pool : ConstantPool) (index : UInt16)
    (h : pool.entry? index = some (.float bits)) : Decode.floatAt pool index = .ok bits := by
  simp only [Decode.floatAt, h]

theorem doubleAt_of_entry (bits : UInt64) (pool : ConstantPool) (index : UInt16)
    (h : pool.entry? index = some (.double bits)) : Decode.doubleAt pool index = .ok bits := by
  simp only [Decode.doubleAt, h]

theorem utf8_of_entry (text : String) (pool : ConstantPool) (index : UInt16)
    (h : pool.entry? index = some (.utf8 text)) : pool.utf8 index = .ok text := by
  simp only [ConstantPool.utf8, h]

/-- A word stays itself as the low half of an integer. -/
theorem toUInt16_ofInt_toNat (w : UInt16) : (Int32.ofInt w.toNat).toUInt32.toUInt16 = w := by
  rw [Int32.ofInt_eq_ofNat]
  show (UInt32.ofNat w.toNat).toUInt16 = w
  simp

/-- The key of an element and its value. -/
def ReadsPair (pair : String × ElementValue) (final : PoolBuilder) (bytes : List UInt8) : Prop :=
  ∃ key value, bytes = key ++ value ∧ ReadsIndex ConstantPool.utf8 pair.1 final key ∧
    ReadsValue pair.2 final value

/-- The elements of an annotation, read with a reader for their values. -/
theorem ReadsEach.elements {pairs : List (String × ElementValue)} {final : PoolBuilder}
    {bytes : List UInt8} (h : ReadsEach ReadsPair pairs final bytes) (hcount : pairs.length < 65536)
    (hkeys : (pairs.map (·.1)).Nodup) {reader : Reader ElementValue}
    (hreader : ∀ chunk value, chunk.length ≤ bytes.length → ReadsValue value final chunk →
      Reads reader chunk value) :
    Reads (Decode.elements final.toPool reader) (Bytes.ofNat16 pairs.length ++ bytes) pairs := by
  refine (h.counted hcount ?_).bind_pure ?_
  · rintro chunk ⟨key, value⟩ hlength ⟨_, bytes, rfl, ⟨index, rfl, -, hindex⟩, hvalue⟩
    refine reads_index hindex ((hreader _ _ ?_ hvalue).bind_pure (reads_pure _))
    rw [List.length_append] at hlength
    omega
  · rw [AnnotationNode.collect_of_nodup hkeys]
    exact reads_pure pairs

mutual
/-- Every element value that fits is read from the bytes that are written for it. -/
theorem yields_elementValue : ∀ value : ElementValue, value.Fits →
    Yields (Encode.elementValue value) (ReadsValue value)
  | .byte value, _ =>
    yields_leaf 'B' (.integer (Int32.ofInt value.toInt)) trivial (fun x => .byte x.toInt8) (by simp)
      (integerAt_of_entry _) (fun _ _ => rfl) (fun _ _ => rfl)
  | .char value, _ =>
    yields_leaf 'C' (.integer (Int32.ofInt value.toNat)) trivial
      (fun x => .char x.toUInt32.toUInt16) (by rw [toUInt16_ofInt_toNat])
      (integerAt_of_entry _) (fun _ _ => rfl) (fun _ _ => rfl)
  | .short value, _ =>
    yields_leaf 'S' (.integer (Int32.ofInt value.toInt)) trivial (fun x => .short x.toInt16) (by simp)
      (integerAt_of_entry _) (fun _ _ => rfl) (fun _ _ => rfl)
  | .boolean value, _ =>
    yields_leaf 'Z' (.integer (Int32.ofInt (if value then 1 else 0))) trivial
      (fun x => .boolean (x != 0)) (by cases value <;> rfl) (integerAt_of_entry _) (fun _ _ => rfl)
      (fun _ _ => rfl)
  | .int value, _ =>
    yields_leaf 'I' (.integer (Int32.ofInt value.toInt)) trivial .int (by simp)
      (integerAt_of_entry _) (fun _ _ => rfl) (fun _ _ => rfl)
  | .long value, _ =>
    yields_leaf 'J' (.long value) trivial .long rfl (longAt_of_entry value) (fun _ _ => rfl)
      (fun _ _ => rfl)
  | .float bits, _ =>
    yields_leaf 'F' (.float bits) trivial .float rfl (floatAt_of_entry bits) (fun _ _ => rfl)
      (fun _ _ => rfl)
  | .double bits, _ =>
    yields_leaf 'D' (.double bits) trivial .double rfl (doubleAt_of_entry bits) (fun _ _ => rfl)
      (fun _ _ => rfl)
  | .string text, h =>
    yields_leaf 's' (.utf8 text) h .string rfl (utf8_of_entry text) (fun _ _ => rfl)
      (fun _ _ => rfl)
  | .class desc, h =>
    yields_leaf 'c' (.utf8 desc) h .class rfl (utf8_of_entry desc) (fun _ _ => rfl) (fun _ _ => rfl)
  | .enum desc name, h => by
    apply (yields_textIndex h.1).bind
    intro first
    apply (yields_textIndex h.2).bind_pure
    rintro final second - ⟨j, rfl, -, hname⟩ ⟨i, rfl, -, hdesc⟩
    apply readsValue_tag (fun _ => rfl)
    intro depth _
    exact reads_index hdesc (reads_index_pure _ hname)
  | .nested desc values, h => by
    obtain ⟨hdesc, hcount, hkeys, hvalues⟩ := h
    apply (yields_textIndex hdesc).bind
    intro first
    apply (yields_elements values hvalues).bind_pure
    rintro final bytes - hbytes ⟨i, rfl, -, hdesc⟩
    apply readsValue_tag (fun _ => rfl)
    intro depth hdepth
    refine reads_index hdesc ((hbytes.elements hcount hkeys ?_).bind_pure (reads_pure _))
    intro chunk value hlength hvalue
    apply hvalue
    simp only [List.length_append] at hdepth
    omega
  | .array values, h => by
    apply (yields_elementValues values h.2).bind_pure
    intro final bytes _ hbytes
    apply readsValue_tag (fun _ => rfl)
    intro depth hdepth
    refine (hbytes.counted h.1 ?_).bind_pure (reads_pure _)
    intro chunk value hlength hvalue
    apply hvalue
    simp only [List.length_append] at hdepth
    omega

theorem yields_elementValues : ∀ values : List ElementValue, ElementValue.AllFit values →
    Yields (Encode.elementValues values) (ReadsEach ReadsValue values)
  | [], _ => yields_pure fun final _ => readsEach_nil _ final
  | value :: values, h => by
    apply (yields_elementValue value h.1).bind
    intro first
    apply (yields_elementValues values h.2).bind_pure
    intro final rest _ hrest hfirst
    exact hrest.cons hfirst

theorem yields_elements : ∀ pairs : List (String × ElementValue), ElementValue.PairsFit pairs →
    Yields (Encode.elements pairs) (ReadsEach ReadsPair pairs)
  | [], _ => yields_pure fun final _ => readsEach_nil _ final
  | (key, value) :: pairs, h => by
    apply (yields_textIndex h.1).bind
    intro first
    apply (yields_elementValue value h.2.1).bind
    intro bytes
    apply (yields_elements pairs h.2.2).bind_pure
    intro final rest _ hrest hvalue hkey
    rw [← List.append_assoc]
    exact hrest.cons ⟨first, bytes, rfl, hkey, hvalue⟩
end

/-- Reading takes as many levels as there are bytes left, which is always enough. -/
theorem ReadsValue.reads {value : ElementValue} {final : PoolBuilder} {bytes : List UInt8}
    (h : ReadsValue value final bytes) : Reads (Decode.elementValue final.toPool) bytes value := by
  intro offset rest
  have hrun : Decode.elementValue final.toPool ⟨offset, bytes ++ rest⟩ =
      Decode.elementValueWithin final.toPool ((bytes ++ rest).length + 1) ⟨offset, bytes ++ rest⟩ := rfl
  rw [hrun]
  apply h
  rw [List.length_append]
  omega

theorem yields_annotationNode {node : AnnotationNode} (h : node.Fits) :
    Yields (Encode.annotationNode node) fun final bytes =>
      Reads (Decode.annotationNode final.toPool) bytes node := by
  obtain ⟨hdesc, hcount, hkeys, hvalues⟩ := h
  apply (yields_textIndex hdesc).bind
  intro first
  apply (yields_elements node.values hvalues).bind_pure
  rintro final bytes - hbytes ⟨index, rfl, -, hindex⟩
  refine reads_index hindex ((hbytes.elements hcount hkeys ?_).bind_pure (reads_pure node))
  intro chunk value _ hvalue
  exact hvalue.reads

theorem yields_annotations {nodes : List AnnotationNode} (h : AnnotationsFit nodes) :
    Yields (Encode.counted Encode.annotationNode nodes) fun final bytes =>
      Reads (Decode.annotations final.toPool) bytes nodes :=
  yields_counted Decode.annotationNode h.1 fun node hnode => yields_annotationNode (h.2 node hnode)

theorem yields_parameterAnnotations {lists : List (List AnnotationNode)} (hcount : lists.length < 256)
    (h : ∀ nodes ∈ lists, AnnotationsFit nodes) :
    Yields (Encode.concatM (Encode.counted Encode.annotationNode) lists) fun final bytes =>
      Reads (Decode.parameterAnnotations final.toPool) (lists.length.toUInt8 :: bytes) lists := by
  apply (yields_concatM fun nodes hnodes => yields_annotations (h nodes hnodes)).mono
  rintro final _ - ⟨chunks, rfl, hchunks⟩
  refine (reads_uint8 _).bind ?_
  rw [Bytes.toNat_toUInt8 hcount]
  exact reads_times hchunks

end PoolWriter
end JvmArchive
