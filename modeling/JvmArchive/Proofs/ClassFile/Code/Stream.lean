import JvmArchive.ClassFile.Encode.Code
import JvmArchive.Proofs.ClassFile.Code.Switches

/-!
# Code arrays read back

The instructions of a method one after the other: what writing them collects, and that reading to the
end of the bytes gives them again, each with its offset, unless the bounds of a switch cross.
-/
namespace JvmArchive.Encode
open PoolBuilder PoolWriter Reader Decode

variable {offset : Label → Except WriteError Nat} {places : List Nat} {final : PoolBuilder}

/-- The real entries among cells. -/
def realCells (cells : List (Instruction × Nat × Bool)) : List (Instruction × Nat × Bool) :=
  cells.filter fun cell => !cell.1.isPseudo

theorem realCells_pseudo {next : Instruction} {pc : Nat} {wide : Bool}
    {rest : List (Instruction × Nat × Bool)} (h : next.isPseudo = true) :
    realCells ((next, pc, wide) :: rest) = realCells rest := by simp [realCells, h]

theorem realCells_real {next : Instruction} {pc : Nat} {wide : Bool}
    {rest : List (Instruction × Nat × Bool)} (h : next.isPseudo = false) :
    realCells ((next, pc, wide) :: rest) = (next, pc, wide) :: realCells rest := by simp [realCells, h]

/-- Entries that the layout has placed. -/
def AllSited (offset : Label → Except WriteError Nat) (places : List Nat)
    (cells : List (Instruction × Nat × Bool)) : Prop :=
  ∀ cell ∈ cells, Sited offset places cell.2.1 cell.2.2 cell.1

/-- The chunks hold the real instructions, one each. -/
def TellsCells (offset : Label → Except WriteError Nat) (places : List Nat)
    (cells : List (Instruction × Nat × Bool)) (final : PoolBuilder) (chunks : List (List UInt8)) :
    Prop :=
  List.Forall₂
    (fun cell chunk => ∃ op operands, chunk = op :: operands ∧
      TellsInstruction offset places cell.2.1 cell.2.2 cell.1 final op operands)
    (realCells cells) chunks

/-- A line with the offset of its label. -/
def LineAt (offset : Label → Except WriteError Nat) (line : Label × UInt16) (found : Nat × UInt16) :
    Prop :=
  offset line.1 = .ok found.1 ∧ line.2 = found.2

/-- What writing cells has put to the parts that were there. -/
structure Collects (offset : Label → Except WriteError Nat) (places : List Nat)
    (cells : List (Instruction × Nat × Bool)) (parts : CodeParts) (final : PoolBuilder)
    (later : CodeParts) : Prop where
  lines : ∃ found, later.lines = found.reverse ++ parts.lines ∧
    List.Forall₂ (LineAt offset) (Instruction.lines (cells.map (·.1))) found
  code : ∃ chunks : List (List UInt8),
    later.chunks.reverse.flatten = parts.chunks.reverse.flatten ++ chunks.flatten ∧
      later.size = parts.size + chunks.flatten.length ∧
      ∀ stop, Fills final parts.size cells stop → AllSited offset places cells →
        later.size = stop ∧ TellsCells offset places cells final chunks

theorem Fills.cons_inv {pc stop pc' : Nat} {next : Instruction} {wide : Bool}
    {rest : List (Instruction × Nat × Bool)} (h : Fills final pc ((next, pc', wide) :: rest) stop) :
    pc' = pc ∧ ∃ size, instructionSize pc wide next final = .ok (size, final) ∧
      Fills final (pc + size) rest stop := by
  cases h with
  | cons hsize hrest => exact ⟨rfl, _, hsize, hrest⟩

/-- An entry that takes no room leaves the code as it is. -/
theorem collects_pseudo {next : Instruction} {pc : Nat} {wide : Bool}
    {rest : List (Instruction × Nat × Bool)} {parts middle later : CodeParts}
    (hpseudo : next.isPseudo = true) (h : Collects offset places rest middle final later)
    (hlines : ∃ found, later.lines = found.reverse ++ parts.lines ∧
      List.Forall₂ (LineAt offset) (Instruction.lines (((next, pc, wide) :: rest).map (·.1))) found)
    (hchunks : middle.chunks.reverse.flatten = parts.chunks.reverse.flatten)
    (hsize : middle.size = parts.size) :
    Collects offset places ((next, pc, wide) :: rest) parts final later := by
  refine ⟨hlines, ?_⟩
  obtain ⟨chunks, hflatten, hlater, hcode⟩ := h.code
  refine ⟨chunks, by rw [hflatten, hchunks], by rw [hlater, hsize], ?_⟩
  intro stop hfills hsited
  obtain ⟨-, size, hnext, hrest⟩ := hfills.cons_inv
  rw [instructionSize_pseudo hpseudo hnext, Nat.add_zero, ← hsize] at hrest
  rw [TellsCells, realCells_pseudo hpseudo]
  exact hcode stop hrest fun cell hcell => hsited cell (List.mem_cons_of_mem _ hcell)

/-- A real entry puts its bytes to the code. -/
theorem collects_real {next : Instruction} {pc : Nat} {wide : Bool}
    {rest : List (Instruction × Nat × Bool)} {parts later : CodeParts} {bytes : List UInt8}
    (hreal : next.isPseudo = false)
    (hbytes : parts.size = pc → TellsPlaced offset places pc wide next final bytes)
    (h : Collects offset places rest
      { parts with chunks := bytes :: parts.chunks, size := parts.size + bytes.length } final later) :
    Collects offset places ((next, pc, wide) :: rest) parts final later := by
  obtain ⟨hlines, chunks, hflatten, hlater, hcode⟩ := h
  refine ⟨?_, bytes :: chunks, ?_, ?_, ?_⟩
  · cases next <;> first | cases hreal; done | exact hlines
  · rw [hflatten]
    simp
  · rw [hlater]
    simp [Nat.add_assoc]
  · intro stop hfills hsited
    obtain ⟨rfl, size, hnext, hrest⟩ := hfills.cons_inv
    obtain ⟨op, operands, rfl, htells⟩ := hbytes rfl (hsited _ List.mem_cons_self)
    rw [htells.size] at hnext
    cases hnext
    obtain ⟨hstop, hrest'⟩ :=
      hcode stop hrest fun cell hcell => hsited cell (List.mem_cons_of_mem _ hcell)
    rw [TellsCells, realCells_real hreal]
    exact ⟨hstop, .cons ⟨op, operands, rfl, htells⟩ hrest'⟩

variable (offset places) in
theorem yields_codeParts {cells : List (Instruction × Nat × Bool)}
    (h : ∀ cell ∈ cells, cell.1.Fits) (parts : CodeParts) :
    Yields (codeParts offset cells parts) (Collects offset places cells parts) := by
  induction cells generalizing parts with
  | nil =>
    apply yields_pure
    intro final _
    refine ⟨⟨[], rfl, .nil⟩, [], by simp, by simp, ?_⟩
    intro stop hfills _
    cases hfills
    exact ⟨rfl, .nil⟩
  | cons cell rest ih =>
    obtain ⟨next, pc, wide⟩ := cell
    have hrest := fun parts => ih (fun cell hcell => h cell (List.mem_cons_of_mem _ hcell)) parts
    have hnext : next.Fits := h _ List.mem_cons_self
    cases hpseudo : next.isPseudo with
    | false =>
      have hcode : codeParts offset ((next, pc, wide) :: rest) parts =
          instruction offset pc parts.size wide next >>= fun bytes => codeParts offset rest
            { parts with chunks := bytes :: parts.chunks, size := parts.size + bytes.length } := by
        cases next <;> first | cases hpseudo; done | rfl
      rw [hcode]
      apply (yields_instruction hpseudo hnext).bind
      intro bytes
      apply (hrest _).mono
      intro final later _ hcollects hbytes
      exact collects_real hpseudo hbytes hcollects
    | true =>
      cases next with
      | line number start =>
        apply yields_lift_bind
        intro place hplace
        apply (hrest _).mono
        intro final later _ hcollects
        obtain ⟨found, hfound, hlines⟩ := hcollects.lines
        refine collects_pseudo rfl hcollects ?_ rfl rfl
        refine ⟨(place, number) :: found, by simp [hfound], .cons ⟨hplace, rfl⟩ hlines⟩
      | frame frame =>
        apply (hrest _).mono
        intro final later _ hcollects
        exact collects_pseudo rfl hcollects hcollects.lines rfl rfl
      | label label =>
        apply (hrest { parts with chunks := [] :: parts.chunks, size := parts.size + 0 }).mono
        intro final later _ hcollects
        exact collects_pseudo rfl hcollects hcollects.lines (by simp) rfl
      | _ => cases hpseudo

/-- A decoded instruction at the offset of its entry. -/
def Decoded (offset : Label → Except WriteError Nat) (table : LabelTable)
    (cell : Instruction × Nat × Bool) (found : Nat × Instruction) : Prop :=
  found.1 = cell.2.1 ∧ Instruction.Matches (Meets offset table) cell.1 found.2

/-- At the end of the code nothing more is read. -/
theorem instructionsWithin_end (pool : ConstantPool) (bound : Nat) (read : List (Nat × Instruction))
    (table : LabelTable) (pc : Nat) :
    instructionsWithin pool bound read table ⟨pc, []⟩ = .ok ((read.reverse, table), ⟨pc, []⟩) := by
  cases bound <;> rfl

/-- One instruction is read and then the others. -/
theorem instructionsWithin_step {pool : ConstantPool} {bound : Nat} {read : List (Nat × Instruction)}
    {table later : LabelTable} {pc : Nat} {op : Opcode} {operands rest : List UInt8}
    {next : Instruction} (h : Reads (Decode.instruction pool pc op table) operands (next, later)) :
    instructionsWithin pool (bound + 1) read table ⟨pc, op :: operands ++ rest⟩ =
      instructionsWithin pool bound ((pc, next) :: read) later
        ⟨pc + (operands.length + 1), rest⟩ := by
  have hstep : instructionsWithin pool (bound + 1) read table ⟨pc, op :: operands ++ rest⟩ =
      (Decode.instruction pool pc op table ⟨pc + 1, operands ++ rest⟩).bind fun result =>
        instructionsWithin pool bound ((pc, result.1.1) :: read) result.1.2 result.2 := rfl
  rw [hstep, h (pc + 1) rest, Nat.add_comm operands.length 1, ← Nat.add_assoc]
  rfl

/-- What is wrong with one instruction is wrong with the code. -/
theorem instructionsWithin_fails {pool : ConstantPool} {bound : Nat} {read : List (Nat × Instruction)}
    {table : LabelTable} {pc : Nat} {op : Opcode} {operands rest : List UInt8} {error : FormatError}
    (h : Fails (Decode.instruction pool pc op table) operands error) :
    instructionsWithin pool (bound + 1) read table ⟨pc, op :: operands ++ rest⟩ = .error error := by
  have hstep : instructionsWithin pool (bound + 1) read table ⟨pc, op :: operands ++ rest⟩ =
      (Decode.instruction pool pc op table ⟨pc + 1, operands ++ rest⟩).bind fun result =>
        instructionsWithin pool bound ((pc, result.1.1) :: read) result.1.2 result.2 := rfl
  rw [hstep, h (pc + 1) rest]
  rfl

/-- Reading to the end of the code gives the real entries in order. -/
theorem instructionsWithin_run {cells : List (Instruction × Nat × Bool)} {pc stop : Nat}
    (hfills : Fills final pc cells stop) {chunks : List (List UInt8)}
    (h : TellsCells offset places cells final chunks)
    (hcross : ∀ cell ∈ cells, cell.1.crosses = false) {bound : Nat} (hbound : chunks.length ≤ bound)
    (read : List (Nat × Instruction)) {table : LabelTable} (hsound : table.Sound places) :
    ∃ found later, instructionsWithin final.toPool bound read table ⟨pc, chunks.flatten⟩ =
        .ok ((read.reverse ++ found, later), ⟨stop, []⟩) ∧
      later.Sound places ∧ LabelTable.Extends table later ∧
      ∀ last, LabelTable.Extends later last →
        List.Forall₂ (Decoded offset last) (realCells cells) found := by
  induction hfills generalizing chunks bound read table with
  | nil pc =>
    cases h
    refine ⟨[], table, ?_, hsound, .refl table, fun _ _ => .nil⟩
    rw [List.append_nil]
    exact instructionsWithin_end final.toPool bound read table pc
  | @cons pc size stop wide next rest hsize hrest ih =>
    rw [List.forall_mem_cons] at hcross
    cases hpseudo : next.isPseudo with
    | true =>
      rw [TellsCells, realCells_pseudo hpseudo] at h
      rw [realCells_pseudo hpseudo]
      rw [instructionSize_pseudo hpseudo hsize, Nat.add_zero] at ih
      exact ih h hcross.2 hbound read hsound
    | false =>
      rw [TellsCells, realCells_real hpseudo] at h
      rw [realCells_real hpseudo]
      cases h with
      | @cons _ chunk _ chunks hchunk hchunks =>
        obtain ⟨op, operands, rfl, htells⟩ := hchunk
        have hlength := htells.size
        rw [hsize] at hlength
        cases hlength
        obtain ⟨bound, rfl⟩ : ∃ n, bound = n + 1 :=
          ⟨bound - 1, by rw [List.length_cons] at hbound; omega⟩
        obtain ⟨back, middle, hread, hmiddle, hextends, hback⟩ := htells.asks hcross.1 table hsound
        obtain ⟨found, later, hrun, hlater, hextends', hfound⟩ :=
          ih hchunks hcross.2 (Nat.le_of_succ_le_succ hbound) ((pc, back) :: read) hmiddle
        refine ⟨(pc, back) :: found, later, ?_, hlater, hextends.trans hextends', ?_⟩
        · rw [List.flatten_cons, instructionsWithin_step hread]
          rw [List.reverse_cons, List.append_assoc] at hrun
          exact hrun
        · intro last hlast
          exact .cons ⟨rfl, hback last (hextends'.trans hlast)⟩ (hfound last hlast)

/-- Reading stops at the first switch whose bounds cross. -/
theorem instructionsWithin_refuses {cells : List (Instruction × Nat × Bool)} {pc stop : Nat}
    (hfills : Fills final pc cells stop) {chunks : List (List UInt8)}
    (h : TellsCells offset places cells final chunks)
    (hcross : ∃ cell ∈ cells, cell.1.crosses = true) {bound : Nat} (hbound : chunks.length ≤ bound)
    (read : List (Nat × Instruction)) {table : LabelTable} (hsound : table.Sound places) :
    ∃ detail, instructionsWithin final.toPool bound read table ⟨pc, chunks.flatten⟩ =
      .error (.malformed "tableswitch" detail) := by
  induction hfills generalizing chunks bound read table with
  | nil pc =>
    obtain ⟨cell, hcell, -⟩ := hcross
    cases hcell
  | @cons pc size stop wide next rest hsize hrest ih =>
    have hlater : next.crosses = false → ∃ cell ∈ rest, cell.1.crosses = true := by
      intro hnext
      obtain ⟨cell, hcell, hcross⟩ := hcross
      rcases List.mem_cons.1 hcell with rfl | hmem
      · rw [hnext] at hcross
        cases hcross
      · exact ⟨cell, hmem, hcross⟩
    cases hpseudo : next.isPseudo with
    | true =>
      have hnext : next.crosses = false := by
        cases next <;> first | rfl | cases hpseudo
      rw [TellsCells, realCells_pseudo hpseudo] at h
      rw [instructionSize_pseudo hpseudo hsize, Nat.add_zero] at ih
      exact ih h (hlater hnext) hbound read hsound
    | false =>
      rw [TellsCells, realCells_real hpseudo] at h
      cases h with
      | @cons _ chunk _ chunks hchunk hchunks =>
        obtain ⟨op, operands, rfl, htells⟩ := hchunk
        have hlength := htells.size
        rw [hsize] at hlength
        cases hlength
        obtain ⟨bound, rfl⟩ : ∃ n, bound = n + 1 :=
          ⟨bound - 1, by rw [List.length_cons] at hbound; omega⟩
        rw [List.flatten_cons]
        cases hnext : next.crosses with
        | true =>
          obtain ⟨detail, hfails⟩ := htells.refuses hnext table hsound
          exact ⟨detail, instructionsWithin_fails hfails⟩
        | false =>
          obtain ⟨back, middle, hread, hmiddle, -⟩ := htells.asks hnext table hsound
          rw [instructionsWithin_step hread]
          exact ih hchunks (hlater hnext) (Nat.le_of_succ_le_succ hbound) ((pc, back) :: read) hmiddle

/-- Every real instruction takes a byte at least. -/
theorem TellsCells.length_le {cells : List (Instruction × Nat × Bool)} {chunks : List (List UInt8)}
    (h : TellsCells offset places cells final chunks) : chunks.length ≤ chunks.flatten.length := by
  unfold TellsCells at h
  generalize realCells cells = real at h
  induction h with
  | nil => exact Nat.le_refl _
  | cons hchunk _ ih =>
    obtain ⟨op, operands, rfl, -⟩ := hchunk
    simp only [List.length_cons, List.flatten_cons, List.length_append]
    omega

/-- The code array of a method gives its real instructions. -/
theorem instructions_of_tellsCells {cells : List (Instruction × Nat × Bool)} {stop : Nat}
    (hfills : Fills final 0 cells stop) {chunks : List (List UInt8)}
    (h : TellsCells offset places cells final chunks)
    (hcross : ∀ cell ∈ cells, cell.1.crosses = false)
    (hsound : LabelTable.Sound places { codeLength := chunks.flatten.length }) :
    ∃ found later, Decode.instructions final.toPool chunks.flatten = .ok (found, later) ∧
      later.Sound places ∧ later.codeLength = chunks.flatten.length ∧
      ∀ last, LabelTable.Extends later last →
        List.Forall₂ (Decoded offset last) (realCells cells) found := by
  obtain ⟨found, later, hrun, hlater, hextends, hfound⟩ :=
    instructionsWithin_run hfills h hcross h.length_le [] hsound
  refine ⟨found, later, ?_, hlater, hextends.codeLength, hfound⟩
  simp only [Decode.instructions, Reader.onBytes, StateT.run, hrun]
  rfl

theorem instructions_of_crosses {cells : List (Instruction × Nat × Bool)} {stop : Nat}
    (hfills : Fills final 0 cells stop) {chunks : List (List UInt8)}
    (h : TellsCells offset places cells final chunks)
    (hcross : ∃ cell ∈ cells, cell.1.crosses = true)
    (hsound : LabelTable.Sound places { codeLength := chunks.flatten.length }) :
    ∃ detail, Decode.instructions final.toPool chunks.flatten =
      .error (.malformed "tableswitch" detail) := by
  obtain ⟨detail, hrun⟩ := instructionsWithin_refuses hfills h hcross h.length_le [] hsound
  refine ⟨detail, ?_⟩
  simp only [Decode.instructions, Reader.onBytes, StateT.run, hrun]
  rfl

end JvmArchive.Encode
