import JvmArchive.ClassFile.Decode.Instruction
import JvmArchive.ClassFile.Encode.Layout
import JvmArchive.Proofs.ClassFile.Code.Places
import JvmArchive.Proofs.ClassFile.Pool.Constants
import JvmArchive.Proofs.Results

/-!
# Where instructions come to stand

The layout that is found leaves no gaps: every instruction begins where the one before it ends, and is
as long as the finished pool says. A label stands at the offset of its place, and every jump that has
stayed short reaches its target.
-/
namespace JvmArchive

/-- An instruction that can be written for reading: its opcode goes with its form, its numbers fit where
they are written, and a switch has as many targets as it says. -/
def Instruction.Fits : Instruction → Prop
  | .label _ | .line .. | .frame _ | .iinc .. => True
  | .simple op => Decode.isSimple op = true
  | .int op operand =>
    op = Opcode.bipush ∧ -128 ≤ operand.toInt ∧ operand.toInt ≤ 127 ∨
      op = Opcode.sipush ∧ -32768 ≤ operand.toInt ∧ operand.toInt ≤ 32767 ∨
      op = Opcode.newarray ∧ 0 ≤ operand.toInt ∧ operand.toInt ≤ 255
  | .var op _ => Decode.isVariable op = true
  | .type op class_ =>
    op ∈ [Opcode.new, Opcode.anewarray, Opcode.checkcast, Opcode.instanceof] ∧ TextFits class_
  | .field op owner name desc =>
    op.isFieldAccess = true ∧ TextFits owner ∧ TextFits name ∧ TextFits desc
  | .method op owner name desc _ =>
    op.isInvoke = true ∧ TextFits owner ∧ TextFits name ∧ TextFits desc
  | .invokeDynamic name desc bootstrap arguments =>
    TextFits name ∧ TextFits desc ∧ bootstrap.Fits ∧ arguments.length < 65536 ∧
      Constant.FitAll arguments ∧ Constant.depthOf arguments < ConstantPool.maxDepth - 1
  | .jump op _ => op.isJump = true
  | .ldc constant => constant.Fits ∧ constant.depth < ConstantPool.maxDepth
  | .tableSwitch low high _ targets => (targets.length : Int) = high.toInt - low.toInt + 1
  | .lookupSwitch _ keys targets => targets.length = keys.length
  | .multiANewArray desc _ => TextFits desc

/-- Whether the bounds of a table switch cross, as they do if one that fits has no targets. -/
def Instruction.crosses : Instruction → Bool
  | .tableSwitch low high .. => high < low
  | _ => false

namespace Encode
open PoolBuilder PoolWriter

variable {α : Type}

/-- The offsets of the real instructions. -/
def starts (cells : List (Instruction × Nat × Bool)) : List Nat :=
  (cells.filter fun cell => !cell.1.isPseudo).map (·.2.1)

/-- The cells fill the code between two offsets, each as long as it is in the finished pool. -/
inductive Fills (final : PoolBuilder) : Nat → List (Instruction × Nat × Bool) → Nat → Prop
  | nil (pc : Nat) : Fills final pc [] pc
  | cons {pc size stop : Nat} {wide : Bool} {next : Instruction}
      {rest : List (Instruction × Nat × Bool)}
      (hsize : instructionSize pc wide next final = .ok (size, final))
      (hrest : Fills final (pc + size) rest stop) : Fills final pc ((next, pc, wide) :: rest) stop

theorem instructionSize_pseudo {pc size : Nat} {wide : Bool} {next : Instruction}
    {builder later : PoolBuilder} (hpseudo : next.isPseudo = true)
    (h : instructionSize pc wide next builder = .ok (size, later)) : size = 0 := by
  cases next <;> first | cases hpseudo; done | cases h; rfl

theorem instructionSize_pos {pc size : Nat} {wide : Bool} {next : Instruction}
    {builder later : PoolBuilder} (hreal : next.isPseudo = false)
    (h : instructionSize pc wide next builder = .ok (size, later)) : 0 < size := by
  cases next with
  | label => cases hreal
  | line => cases hreal
  | frame => cases hreal
  | ldc constant =>
    simp only [instructionSize] at h
    split at h
    · cases h
      decide
    · obtain ⟨index, middle, -, hsize⟩ := bind_ok h
      cases hsize
      split <;> decide
  | var op slot =>
    cases h
    by_cases hshort : slot ≤ 3 ∧ op ≠ Opcode.ret
    · rw [if_pos hshort]
      decide
    · rw [if_neg hshort]
      split <;> decide
  | int op => cases h; split <;> decide
  | method op => cases h; split <;> decide
  | jump op => cases h; split <;> decide
  | iinc => cases h; split <;> decide
  | tableSwitch => cases h; omega
  | lookupSwitch => cases h; omega
  | _ => cases h; decide

theorem starts_cons (next : Instruction) (pc : Nat) (wide : Bool)
    (rest : List (Instruction × Nat × Bool)) :
    starts ((next, pc, wide) :: rest) = if next.isPseudo then starts rest else pc :: starts rest := by
  unfold starts
  cases h : next.isPseudo <;> simp [h]

namespace Fills

variable {final : PoolBuilder} {pc stop : Nat} {cells : List (Instruction × Nat × Bool)}

theorem le (h : Fills final pc cells stop) : pc ≤ stop := by
  induction h with
  | nil => exact Nat.le_refl _
  | cons hsize hrest ih => omega

theorem of_mem_starts (h : Fills final pc cells stop) {start : Nat} (hstart : start ∈ starts cells) :
    pc ≤ start ∧ start < stop := by
  induction h with
  | nil => simp [starts] at hstart
  | @cons pc size stop wide next rest hsize hrest ih =>
    have hle := hrest.le
    rw [starts_cons] at hstart
    cases hpseudo : next.isPseudo with
    | true =>
      rw [hpseudo, if_pos rfl] at hstart
      have := ih hstart
      omega
    | false =>
      have hpos := instructionSize_pos hpseudo hsize
      rw [hpseudo, if_neg Bool.false_ne_true] at hstart
      rcases List.mem_cons.1 hstart with rfl | hmem
      · omega
      · have := ih hmem
        omega

/-- The offsets of the real instructions and the end of the code ascend. -/
theorem ascending (h : Fills final pc cells stop) : (starts cells ++ [stop]).Pairwise (· < ·) := by
  induction h with
  | nil => simp [starts]
  | @cons pc size stop wide next rest hsize hrest ih =>
    have hle := hrest.le
    rw [starts_cons]
    cases hpseudo : next.isPseudo with
    | true => simpa using ih
    | false =>
      have hpos := instructionSize_pos hpseudo hsize
      rw [if_neg Bool.false_ne_true, List.cons_append, List.pairwise_cons]
      refine ⟨?_, ih⟩
      intro place hplace
      rcases List.mem_append.1 hplace with hmem | hmem
      · have := hrest.of_mem_starts hmem
        omega
      · rw [List.mem_singleton] at hmem
        omega

/-- There are not more real instructions than bytes. -/
theorem length_starts (h : Fills final pc cells stop) : (starts cells).length ≤ stop - pc := by
  induction h with
  | nil => simp [starts]
  | @cons pc size stop wide next rest hsize hrest ih =>
    have hle := hrest.le
    rw [starts_cons]
    cases hpseudo : next.isPseudo with
    | true =>
      rw [if_pos rfl]
      omega
    | false =>
      have hpos := instructionSize_pos hpseudo hsize
      rw [if_neg Bool.false_ne_true, List.length_cons]
      omega

/-- Whatever comes first stands where the next real instruction does, or at the end. -/
theorem head_mem (h : Fills final pc cells stop) : (starts cells ++ [stop])[0]? = some pc := by
  induction h with
  | nil => rfl
  | @cons pc size stop wide next rest hsize hrest ih =>
    rw [starts_cons]
    cases hpseudo : next.isPseudo with
    | true => rw [if_pos rfl, ih, instructionSize_pseudo hpseudo hsize, Nat.add_zero]
    | false => rfl

/-- Every entry stands between real instructions. -/
theorem mem_places (h : Fills final pc cells stop) {cell : Instruction × Nat × Bool}
    (hcell : cell ∈ cells) : cell.2.1 ∈ starts cells ++ [stop] := by
  induction h with
  | nil => cases hcell
  | @cons pc size stop wide next rest hsize hrest ih =>
    rcases List.mem_cons.1 hcell with rfl | hmem
    · exact List.mem_of_getElem? (Fills.cons hsize hrest).head_mem
    · have hplace := ih hmem
      rw [starts_cons]
      split
      · exact hplace
      · exact List.mem_cons_of_mem _ hplace

end Fills

/-- The size of an instruction stays what it was found to be. -/
theorem recalls_instructionSize (pc : Nat) (wide : Bool) (next : Instruction) :
    Recalls (instructionSize pc wide next) := by
  cases next with
  | ldc constant =>
    simp only [instructionSize]
    split
    · exact recalls_pure _
    · exact (recalls_constant constant).bind fun _ => recalls_pure _
  | _ => exact recalls_pure _

/-- What a label stands for once some cells are placed behind those that are there. -/
def LabelsAt (cells : List (Instruction × Nat × Bool)) (stop : Nat) (before after : Std.HashMap Label Nat) :
    Prop :=
  ∀ label, after[label]? =
    match Instruction.placeOf (cells.map (·.1)) label with
    | some place => (starts cells ++ [stop])[place]?
    | none => before[label]?

theorem labelsAt_label {final : PoolBuilder} {pc stop : Nat} {wide : Bool} {label : Label}
    {rest : List (Instruction × Nat × Bool)} {before after : Std.HashMap Label Nat}
    (hrest : Fills final pc rest stop) (h : LabelsAt rest stop (before.insert label pc) after) :
    LabelsAt ((.label label, pc, wide) :: rest) stop before after := by
  intro other
  have hother := h other
  have hstarts : starts ((.label label, pc, wide) :: rest) = starts rest := rfl
  rw [List.map_cons, Instruction.placeOf_label, hstarts]
  cases hplace : Instruction.placeOf (rest.map (·.1)) other with
  | some place =>
    rw [hplace] at hother
    exact hother
  | none =>
    rw [hplace] at hother
    simp only at hother
    by_cases heq : label = other
    · subst heq
      rw [if_pos rfl, Option.none_or, hother]
      simp only [hrest.head_mem, Std.HashMap.getElem?_insert_self]
    · rw [if_neg heq, Option.none_or, hother, Std.HashMap.getElem?_insert]
      simp [heq]

theorem labelsAt_other {pc stop : Nat} {wide : Bool} {next : Instruction}
    (hlabel : ∀ label, next ≠ .label label)
    {rest : List (Instruction × Nat × Bool)} {before after : Std.HashMap Label Nat}
    (h : LabelsAt rest stop before after) : LabelsAt ((next, pc, wide) :: rest) stop before after := by
  intro other
  have hother := h other
  rw [List.map_cons, starts_cons]
  cases hpseudo : next.isPseudo with
  | true =>
    rw [if_pos rfl, Instruction.placeOf_pseudo hpseudo hlabel]
    exact hother
  | false =>
    rw [if_neg Bool.false_ne_true, Instruction.placeOf_real hpseudo]
    cases hplace : Instruction.placeOf (rest.map (·.1)) other with
    | some place =>
      rw [hplace] at hother
      exact hother
    | none =>
      rw [hplace] at hother
      exact hother

/-- Where a label has been put last. -/
def lastPlaced (cells : List (Instruction × Nat × Bool)) (label : Label) : Option Nat :=
  (cells.reverse.find? fun cell => cell.1 = .label label).map (·.2.1)

theorem lastPlaced_cons (cell : Instruction × Nat × Bool) (rest : List (Instruction × Nat × Bool))
    (label : Label) : lastPlaced (cell :: rest) label =
      (lastPlaced rest label).or (if cell.1 = .label label then some cell.2.1 else none) := by
  rw [lastPlaced, List.reverse_cons, List.find?_append, Option.map_or, lastPlaced, List.find?_singleton]
  congr 1
  split <;> simp_all

/-- The offset of a label is that of its place. -/
theorem Fills.last_eq {pool : PoolBuilder} {start stop : Nat}
    {cells : List (Instruction × Nat × Bool)} (h : Fills pool start cells stop) (label : Label) :
    Option.Rel (fun place offset => (starts cells ++ [stop])[place]? = some offset)
      (Instruction.placeOf (cells.map (·.1)) label) (lastPlaced cells label) := by
  induction h with
  | nil => exact .none
  | @cons pc size stop wide next rest hsize hrest ih =>
    rw [List.map_cons, lastPlaced_cons, starts_cons]
    revert ih
    generalize lastPlaced rest label = found
    by_cases hlabel : ∃ other, next = .label other
    · obtain ⟨other, rfl⟩ := hlabel
      rw [Instruction.placeOf_label, Instruction.isPseudo, if_pos rfl]
      generalize Instruction.placeOf (rest.map (·.1)) label = place
      rintro (hfound | _)
      · exact .some hfound
      · by_cases hsame : other = label
        · cases instructionSize_pseudo rfl hsize
          rw [if_pos hsame, if_pos (congrArg _ hsame)]
          exact .some hrest.head_mem
        · rw [if_neg hsame, if_neg fun h => hsame (Instruction.label.inj h)]
          exact .none
    · rw [if_neg fun h => hlabel ⟨label, h⟩, Option.or_none]
      cases hpseudo : next.isPseudo with
      | true =>
        rw [if_pos rfl, Instruction.placeOf_pseudo hpseudo fun other h => hlabel ⟨other, h⟩]
        exact id
      | false =>
        rw [if_neg Bool.false_ne_true, Instruction.placeOf_real hpseudo]
        generalize Instruction.placeOf (rest.map (·.1)) label = place
        rintro (hfound | _)
        · exact .some hfound
        · exact .none

/-- A label that is found is found where it has been put last. -/
theorem LabelsAt.last_eq {pool : PoolBuilder} {start stop : Nat}
    {cells : List (Instruction × Nat × Bool)} {after : Std.HashMap Label Nat}
    (h : LabelsAt cells stop ∅ after) (hfills : Fills pool start cells stop) (label : Label) :
    after[label]? = lastPlaced cells label := by
  have hrel := hfills.last_eq label
  rw [h label]
  revert hrel
  generalize Instruction.placeOf (cells.map (·.1)) label = place
  generalize lastPlaced cells label = last
  rintro (hplace | _)
  · exact hplace
  · exact Std.HashMap.getElem?_empty

/-- Entries with the offsets that they get. -/
def cells (entries : List (Instruction × Bool)) (offsets : List Nat) :
    List (Instruction × Nat × Bool) :=
  (entries.zip offsets).map fun entry => (entry.1.1, entry.2, entry.1.2)

theorem cells_cons (next : Instruction) (wide : Bool) (rest : List (Instruction × Bool)) (pc : Nat)
    (offsets : List Nat) :
    cells ((next, wide) :: rest) (pc :: offsets) = (next, pc, wide) :: cells rest offsets := rfl

theorem lasts_place (entries : List (Instruction × Bool)) (pc : Nat) (offsets : List Nat)
    (labels : Std.HashMap Label Nat) :
    Lasts (place entries pc offsets labels) fun final found =>
      ∃ more, found.1 = offsets.reverse ++ more ∧ more.length = entries.length ∧
        Fills final pc (cells entries more) found.2.2 ∧
        LabelsAt (cells entries more) found.2.2 labels found.2.1 := by
  induction entries generalizing pc offsets labels with
  | nil =>
    apply lasts_pure
    intro final
    refine ⟨[], by simp, rfl, .nil pc, ?_⟩
    intro label
    rfl
  | cons entry rest ih =>
    obtain ⟨next, wide⟩ := entry
    apply Lasts.bind (recalls_instructionSize pc wide next)
    intro size
    apply (ih (pc + size) (pc :: offsets) _).mono
    rintro final ⟨all, found, stop⟩ ⟨more, hall, hlength, hfills, hlabels⟩ hsize
    refine ⟨pc :: more, ?_, by simp [hlength], .cons hsize hfills, ?_⟩
    · simpa using hall
    · rw [cells_cons]
      cases next with
      | label label =>
        have hzero := instructionSize_pseudo rfl hsize
        subst hzero
        exact labelsAt_label hfills hlabels
      | _ => exact labelsAt_other (by simp) hlabels

/-- The entries of a method with what a layout says of each. -/
def Layout.cells (layout : Layout) (instructions : List Instruction) :
    List (Instruction × Nat × Bool) :=
  instructions.zip (layout.offsets.zip layout.wide)

theorem cells_zip (instructions : List Instruction) (wide : List Bool) (offsets : List Nat) :
    cells (instructions.zip wide) offsets = instructions.zip (offsets.zip wide) := by
  induction instructions generalizing wide offsets with
  | nil => rfl
  | cons next rest ih =>
    cases wide with
    | nil => cases offsets <;> rfl
    | cons w wide =>
      cases offsets with
      | nil => rfl
      | cons pc offsets =>
        rw [List.zip_cons_cons, List.zip_cons_cons, List.zip_cons_cons, cells_cons, ih]

/-- What is known of a layout in the finished pool. -/
structure LaidOut (name : String) (instructions : List Instruction) (final : PoolBuilder)
    (layout : Layout) : Prop where
  entries : (layout.cells instructions).map (·.1) = instructions
  fills : Fills final 0 (layout.cells instructions) layout.size
  labels : LabelsAt (layout.cells instructions) layout.size ∅ layout.labels
  size_le : layout.size ≤ maxCodeSize
  settled : ∀ cell ∈ layout.cells instructions,
    mustWiden name layout.labels ((cell.1, cell.2.2), cell.2.1) = .ok cell.2.2
  widened : ∀ cell ∈ layout.cells instructions, cell.2.2 = true →
    ∃ op target, cell.1 = .jump op target ∧ canWiden op = true

/-- A jump that is wide stays so. -/
theorem mustWiden_of_wide {name : String} {labels : Std.HashMap Label Nat} {next : Instruction}
    {pc : Nat} {wider : Bool} (h : mustWiden name labels ((next, true), pc) = .ok wider) :
    wider = true := by
  cases next with
  | jump op target =>
    simp only [mustWiden, Bool.true_or, if_true] at h
    cases h
    rfl
  | _ =>
    cases h
    rfl

/-- Only jumps that have a wide form become wide. -/
theorem canWiden_of_mustWiden {name : String} {labels : Std.HashMap Label Nat} {next : Instruction}
    {wide : Bool} {pc : Nat} (h : mustWiden name labels ((next, wide), pc) = .ok true) :
    wide = true ∨ ∃ op target, next = .jump op target ∧ canWiden op = true := by
  cases next with
  | jump op target =>
    simp only [mustWiden] at h
    split at h
    · cases h
      exact .inl rfl
    · split at h
      · cases h
      · split at h
        · cases h
        · split at h
          next hwiden => exact .inr ⟨op, target, rfl, hwiden⟩
          next => cases h
  | _ =>
    cases h
    exact .inl rfl

/-- A jump that has stayed short reaches its target. -/
theorem reaches_of_mustWiden {name : String} {labels : Std.HashMap Label Nat} {op : Opcode}
    {target : Label} {pc : Nat} (h : mustWiden name labels ((.jump op target, false), pc) = .ok false)
    (hop : isWideOpcode op = false) :
    ∃ destination, labels[target]? = some destination ∧
      fitsInt16 ((destination : Int) - pc) = true := by
  simp only [mustWiden, hop, Bool.or_false, Bool.false_eq_true, if_false] at h
  split at h
  · cases h
  · rename_i destination hdestination
    split at h
    next hfits => exact ⟨destination, hdestination, hfits⟩
    next =>
      split at h <;> cases h

/-- If not fewer jumps are short than before, none has changed. -/
theorem eq_of_count_false {wide wider : List Bool}
    (h : List.Forall₂ (fun w b => w = true → b = true) wide wider) :
    wider.count false ≤ wide.count false ∧
      (¬wider.count false < wide.count false → wider = wide) := by
  induction h with
  | nil => simp
  | @cons w b wide wider hw _ ih =>
    obtain ⟨hle, heq⟩ := ih
    cases w <;> cases b <;> simp_all
    omega

/-- The entries of a method after a round that has found which jumps have to be wide. -/
theorem widened_of_round {name : String} {labels : Std.HashMap Label Nat}
    {instructions : List Instruction} {wide wider : List Bool} {offsets : List Nat}
    (hlength : wide.length = instructions.length) (hoffsets : offsets.length = instructions.length)
    (hwide : ∀ entry ∈ instructions.zip wide, entry.2 = true →
      ∃ op target, entry.1 = .jump op target ∧ canWiden op = true)
    (h : ((instructions.zip wide).zip offsets).mapM (mustWiden name labels) = .ok wider) :
    wider.length = instructions.length ∧
      List.Forall₂ (fun w b => w = true → b = true) wide wider ∧
      ∀ entry ∈ instructions.zip wider, entry.2 = true →
        ∃ op target, entry.1 = .jump op target ∧ canWiden op = true := by
  have hround := forall₂_of_mapM h
  clear h
  induction instructions generalizing wide wider offsets with
  | nil =>
    obtain rfl := List.length_eq_zero_iff.1 hlength
    cases hround
    exact ⟨rfl, .nil, by simp⟩
  | cons next rest ih =>
    obtain ⟨w, wide, rfl⟩ := List.exists_cons_of_length_eq_add_one hlength
    obtain ⟨pc, offsets, rfl⟩ := List.exists_cons_of_length_eq_add_one hoffsets
    rw [List.zip_cons_cons, List.zip_cons_cons] at hround
    cases hround with
    | @cons _ b _ wider hnext hrest =>
      obtain ⟨hwider, hforall, hjumps⟩ := ih (by simpa using hlength) (by simpa using hoffsets)
        (fun entry hentry => hwide entry (List.mem_cons_of_mem _ hentry)) hrest
      refine ⟨by simp [hwider], .cons ?_ hforall, ?_⟩
      · rintro rfl
        exact mustWiden_of_wide hnext
      · intro entry hentry htrue
        rw [List.zip_cons_cons] at hentry
        rcases List.mem_cons.1 hentry with rfl | hmem
        · simp only at htrue
          subst htrue
          rcases canWiden_of_mustWiden hnext with rfl | hjump
          · exact hwide _ List.mem_cons_self rfl
          · exact hjump
        · exact hjumps entry hmem htrue

theorem settled_of_round {f : (Instruction × Bool) × Nat → Except WriteError Bool}
    {instructions : List Instruction} {wide : List Bool} {offsets : List Nat}
    (hlength : wide.length = instructions.length) (hoffsets : offsets.length = instructions.length)
    (h : List.Forall₂ (fun entry b => f entry = .ok b) ((instructions.zip wide).zip offsets) wide) :
    ∀ cell ∈ instructions.zip (offsets.zip wide), f ((cell.1, cell.2.2), cell.2.1) = .ok cell.2.2 := by
  induction instructions generalizing wide offsets with
  | nil => simp
  | cons next rest ih =>
    obtain ⟨w, wide, rfl⟩ := List.exists_cons_of_length_eq_add_one hlength
    obtain ⟨pc, offsets, rfl⟩ := List.exists_cons_of_length_eq_add_one hoffsets
    rw [List.zip_cons_cons, List.zip_cons_cons] at h
    obtain ⟨hnext, hrest⟩ := List.forall₂_cons.1 h
    intro cell hcell
    rw [List.zip_cons_cons, List.zip_cons_cons] at hcell
    rcases List.mem_cons.1 hcell with rfl | hmem
    · exact hnext
    · exact ih (by simpa using hlength) (by simpa using hoffsets) hrest cell hmem

/-! ## Passes -/

/-- One pass over a method: its layout with the given jumps wide, and which jumps have to be wide in it. -/
def pass (method : String) (instructions : List Instruction) (wide : List Bool) :
    PoolWriter (Layout × List Bool) := do
  let entries := instructions.zip wide
  let (offsets, labels, size) ← place entries 0 [] ∅
  if maxCodeSize < size then throw (.codeTooLarge method size)
  let wider ← monadLift ((entries.zip offsets).mapM (mustWiden method labels))
  return ({ offsets, labels, size, wide }, wider)

/-- The layout is that of the first pass after which no jump has to grow. -/
theorem layoutFrom_eq (name : String) (instructions : List Instruction) (wide : List Bool) :
    layoutFrom name instructions wide = pass name instructions wide >>= fun found =>
      if found.2.count false < wide.count false then layoutFrom name instructions found.2
      else pure found.1 := by
  rw [layoutFrom, pass, bind_assoc]
  congr 1
  funext ⟨offsets, labels, size⟩
  dsimp only
  split
  · rfl
  · rw [bind_assoc]
    rfl

/-- Whether only jumps that have a wide form are wide. -/
structure Widens (instructions : List Instruction) (wide : List Bool) : Prop where
  length_eq : wide.length = instructions.length
  jumps : ∀ entry ∈ instructions.zip wide, entry.2 = true →
    ∃ op target, entry.1 = .jump op target ∧ canWiden op = true

theorem widens_none (instructions : List Instruction) :
    Widens instructions (instructions.map fun _ => false) where
  length_eq := by simp
  jumps := by
    intro entry hentry htrue
    have hfalse := (List.of_mem_zip hentry).2
    simp only [List.mem_map] at hfalse
    obtain ⟨-, -, hfalse⟩ := hfalse
    rw [htrue] at hfalse
    cases hfalse

/-- What is known after a pass. -/
structure Passed (name : String) (instructions : List Instruction) (final : PoolBuilder)
    (layout : Layout) (wider : List Bool) : Prop where
  length_offsets : layout.offsets.length = instructions.length
  fills : Fills final 0 (layout.cells instructions) layout.size
  labels : LabelsAt (layout.cells instructions) layout.size ∅ layout.labels
  size_le : layout.size ≤ maxCodeSize
  round : ((instructions.zip layout.wide).zip layout.offsets).mapM (mustWiden name layout.labels) =
    .ok wider

theorem lasts_pass (name : String) {instructions : List Instruction} {wide : List Bool}
    (hlength : wide.length = instructions.length) :
    Lasts (pass name instructions wide) fun final found =>
      found.1.wide = wide ∧ Passed name instructions final found.1 found.2 := by
  apply (lasts_place _ _ _ _).bind
  rintro ⟨offsets, labels, size⟩
  dsimp only
  by_cases hlarge : maxCodeSize < size
  · rw [if_pos hlarge]
    intro builder later found hrun
    cases hrun
  · rw [if_neg hlarge]
    apply lasts_lift_bind
    intro wider hround
    apply lasts_pure
    rintro final ⟨more, hall, hmore, hfills, hlabels⟩
    simp only [List.reverse_nil, List.nil_append] at hall
    subst hall
    rw [cells_zip] at hfills hlabels
    have hoffsets : offsets.length = instructions.length := by simpa [hlength] using hmore
    exact ⟨rfl, hoffsets, hfills, hlabels, Nat.le_of_not_lt hlarge, hround⟩

/-- A pass keeps wide what is wide, and what it makes wide are jumps. -/
theorem Passed.widens {name : String} {instructions : List Instruction} {final : PoolBuilder}
    {layout : Layout} {wider : List Bool} (h : Passed name instructions final layout wider)
    (hwide : Widens instructions layout.wide) :
    Widens instructions wider ∧
      List.Forall₂ (fun w b => w = true → b = true) layout.wide wider := by
  obtain ⟨hlength, hforall, hjumps⟩ :=
    widened_of_round hwide.length_eq h.length_offsets hwide.jumps h.round
  exact ⟨⟨hlength, hjumps⟩, hforall⟩

/-- After a pass that has left all jumps as they are the layout is found. -/
theorem Passed.laidOut {name : String} {instructions : List Instruction} {final : PoolBuilder}
    {layout : Layout} (h : Passed name instructions final layout layout.wide)
    (hwide : Widens instructions layout.wide) : LaidOut name instructions final layout where
  entries := by
    apply List.map_fst_zip
    simp [hwide.length_eq, h.length_offsets]
  fills := h.fills
  labels := h.labels
  size_le := h.size_le
  settled := settled_of_round hwide.length_eq h.length_offsets (forall₂_of_mapM h.round)
  widened := by
    intro cell hcell htrue
    have hmem : (cell.1, cell.2.2) ∈ instructions.zip layout.wide := by
      rw [Layout.cells, ← cells_zip] at hcell
      obtain ⟨entry, hentry, rfl⟩ := List.mem_map.1 hcell
      exact (List.of_mem_zip hentry).1
    exact hwide.jumps _ hmem htrue

theorem lasts_layoutFrom (name : String) {instructions : List Instruction} {wide : List Bool}
    (hwide : Widens instructions wide) :
    Lasts (layoutFrom name instructions wide) fun final layout =>
      Widens instructions layout.wide ∧ Passed name instructions final layout layout.wide := by
  induction hn : wide.count false using Nat.strong_induction_on generalizing wide with
  | h n ih =>
    have hpass := lasts_pass name hwide.length_eq
    rw [layoutFrom_eq]
    apply hpass.bind_of
    rintro ⟨layout, wider⟩ ⟨builder, later, hrun⟩
    obtain ⟨heq, hpassed⟩ := (hpass builder later _ hrun).2 later (.refl later)
    dsimp only at heq hpassed ⊢
    subst heq
    obtain ⟨hwider, hforall⟩ := hpassed.widens hwide
    obtain ⟨-, hsame⟩ := eq_of_count_false hforall
    by_cases hfewer : wider.count false < layout.wide.count false
    · rw [if_pos hfewer]
      exact (ih _ (hn ▸ hfewer) hwider rfl).mono fun final found hfound _ => hfound
    · rw [if_neg hfewer]
      obtain rfl := hsame hfewer
      exact lasts_pure fun final hfinal => ⟨hwide, hfinal.2⟩

/-- A pass that places the instructions and then finds which jumps have to be wide. -/
theorem pass_run {name : String} {instructions : List Instruction} {builder later : PoolBuilder}
    {layout : Layout} {wider : List Bool}
    (hplace : place (instructions.zip layout.wide) 0 [] ∅ builder =
      .ok ((layout.offsets, layout.labels, layout.size), later))
    (hsize : layout.size ≤ maxCodeSize)
    (hround : ((instructions.zip layout.wide).zip layout.offsets).mapM
      (mustWiden name layout.labels) = .ok wider) :
    pass name instructions layout.wide builder = .ok ((layout, wider), later) := by
  rw [pass, bind_run, hplace]
  simp only [Except.bind]
  rw [if_neg (Nat.not_lt.2 hsize), hround, bind_run]
  rfl

/-- A layout that a round leaves as it is is the one that is found. -/
theorem layoutFrom_of_round {name : String} {instructions : List Instruction}
    {builder later : PoolBuilder} {layout : Layout}
    (hplace : place (instructions.zip layout.wide) 0 [] ∅ builder =
      .ok ((layout.offsets, layout.labels, layout.size), later))
    (hsize : layout.size ≤ maxCodeSize)
    (hround : ((instructions.zip layout.wide).zip layout.offsets).mapM
      (mustWiden name layout.labels) = .ok layout.wide) :
    layoutFrom name instructions layout.wide builder = .ok (layout, later) := by
  rw [layoutFrom_eq, bind_run, pass_run hplace hsize hround]
  simp only [Except.bind]
  rw [if_neg (Nat.lt_irrefl _)]
  rfl

/-! ## Instructions that fit -/

theorem yields_lift_bind {β : Type} {result : Except WriteError α} {next : α → PoolWriter β}
    {goal : PoolBuilder → β → Prop} (h : ∀ a, result = .ok a → Yields (next a) goal) :
    Yields (liftM result >>= next) goal := by
  intro builder later b hvalid hrun
  cases result with
  | error error => cases hrun
  | ok a => exact h a rfl builder later b hvalid hrun

theorem rows_instructionSize {next : Instruction} (h : next.Fits) (pc : Nat) (wide : Bool) :
    Yields (instructionSize pc wide next) fun _ _ => True := by
  cases next with
  | ldc constant =>
    simp only [instructionSize]
    split
    · exact yields_pure fun _ _ => trivial
    · exact rows_bind (rows_constant constant h.1) fun _ _ => yields_pure fun _ _ => trivial
  | _ => exact yields_pure fun _ _ => trivial

theorem rows_place {entries : List (Instruction × Bool)} (h : ∀ entry ∈ entries, entry.1.Fits)
    (pc : Nat) (offsets : List Nat) (labels : Std.HashMap Label Nat) :
    Yields (place entries pc offsets labels) fun _ _ => True := by
  induction entries generalizing pc offsets labels with
  | nil => exact yields_pure fun _ _ => trivial
  | cons entry rest ih =>
    obtain ⟨hnext, hrest⟩ := List.forall_mem_cons.1 h
    exact rows_bind (rows_instructionSize hnext pc entry.2) fun _ _ => ih hrest _ _ _

theorem rows_pass (name : String) {instructions : List Instruction}
    (h : ∀ instruction ∈ instructions, instruction.Fits) (wide : List Bool) :
    Yields (pass name instructions wide) fun _ _ => True := by
  have hfit : ∀ entry ∈ instructions.zip wide, entry.1.Fits :=
    fun entry hentry => h entry.1 (List.of_mem_zip hentry).1
  apply rows_bind (rows_place hfit 0 [] ∅)
  rintro ⟨offsets, labels, size⟩ -
  dsimp only
  split
  · intro builder later found _ hrun
    cases hrun
  · exact yields_lift_bind fun wider _ => yields_pure fun _ _ => trivial

theorem rows_layoutFrom (name : String) {instructions : List Instruction}
    (h : ∀ instruction ∈ instructions, instruction.Fits) (wide : List Bool) :
    Yields (layoutFrom name instructions wide) fun _ _ => True := by
  induction hn : wide.count false using Nat.strong_induction_on generalizing wide with
  | h n ih =>
    rw [layoutFrom_eq]
    apply rows_bind (rows_pass name h wide)
    rintro ⟨layout, wider⟩ -
    split
    next hfewer => exact ih _ (hn ▸ hfewer) wider rfl
    next => exact yields_pure fun _ _ => trivial

/-- The layout of instructions that fit is found without gaps. -/
theorem yields_layout (name : String) {instructions : List Instruction}
    (h : ∀ instruction ∈ instructions, instruction.Fits) :
    Yields (layout name instructions) (LaidOut name instructions) := by
  have hlasts := (lasts_layoutFrom name (widens_none instructions)).mono
    fun _ _ hfound => hfound.2.laidOut hfound.1
  exact hlasts.yields (rows_layoutFrom name h _)

end Encode
end JvmArchive
