import JvmArchive.Proofs.ClassFile.Code.Instructions

/-!
# Switches read back

A switch states its targets one after the other behind zeros that depend on where it stands. A table
switch whose bounds cross is rejected. Main statement: `yields_instruction`, for every kind of
instruction.
-/
namespace JvmArchive.Encode
open PoolBuilder PoolWriter Reader Decode

variable {offset : Label → Except WriteError Nat} {places : List Nat} {pc : Nat} {wide : Bool}
  {next : Instruction} {final : PoolBuilder}

/-- The chunks of a list of targets, one after the other. -/
theorem asks_farTargets (hsited : Sited offset places pc wide next) {labels : List Label}
    {chunks : List (List UInt8)} (h : labels.mapM (farTarget offset pc) = .ok chunks) :
    chunks.flatten.length = 4 * labels.length ∧
      Asks places
        (timesWithLabels labels.length (liftM Reader.int32 >>= fun delta => branchFrom pc delta))
        chunks.flatten fun table found => List.Forall₂ (Meets offset table) labels found := by
  have hchunks := forall₂_of_mapM h
  constructor
  · clear h
    induction hchunks with
    | nil => rfl
    | @cons label chunk labels chunks hlabel _ ih =>
      obtain ⟨place, -, rfl⟩ := farTarget_ok hlabel
      rw [List.flatten_cons, List.length_append, ih, List.length_cons, Bytes.length_ofUInt32]
      omega
  · apply asks_times
    apply hchunks.flip.imp
    intro chunk label hlabel
    exact asks_farTarget hsited hlabel

theorem asks_tableSwitch {low high : Int32} {default : Label} {targets : List Label}
    (hsited : Sited offset places pc wide next) (hcross : ¬high < low)
    (hcount : (targets.length : Int) = high.toInt - low.toInt + 1) {first : List UInt8}
    {chunks : List (List UInt8)} (hfirst : farTarget offset pc default = .ok first)
    (hchunks : targets.mapM (farTarget offset pc) = .ok chunks) :
    Asks places (Decode.tableSwitch pc)
      (List.replicate (switchPadding pc) 0 ++ (first ++ (Bytes.ofUInt32 low.toUInt32 ++
        (Bytes.ofUInt32 high.toUInt32 ++ chunks.flatten))))
      fun table back =>
        Instruction.Matches (Meets offset table) (.tableSwitch low high default targets) back := by
  obtain ⟨hlength, htargets⟩ := asks_farTargets hsited hchunks
  have hskip := reads_skip (List.replicate (switchPadding pc) 0)
  rw [List.length_replicate] at hskip
  have hnumber : (high.toInt - low.toInt + 1).toNat = targets.length := by omega
  unfold Decode.tableSwitch
  apply asks_read hskip
  rw [← bind_assoc]
  apply (asks_farTarget hsited hfirst).bind
  intro default'
  apply asks_read (reads_int32 low)
  apply asks_read (reads_int32 high)
  simp only [if_neg hcross, hnumber]
  refine asks_remaining ?_
    (htargets.bind_pure (f := fun found => .tableSwitch low high default' found) ?_)
  · intro n hn
    rw [if_pos (by omega)]
  · intro table found hfound hdefault
    exact .tableSwitch hdefault hfound

theorem refuses_tableSwitch {low high : Int32} {default : Label}
    (hsited : Sited offset places pc wide next) (hcross : high < low) {first : List UInt8}
    (hfirst : farTarget offset pc default = .ok first) (rest : List UInt8) :
    Refuses places (Decode.tableSwitch pc)
      (List.replicate (switchPadding pc) 0 ++ (first ++ (Bytes.ofUInt32 low.toUInt32 ++
        (Bytes.ofUInt32 high.toUInt32 ++ rest)))) "tableswitch" := by
  have hskip := reads_skip (List.replicate (switchPadding pc) 0)
  rw [List.length_replicate] at hskip
  unfold Decode.tableSwitch
  apply refuses_read hskip
  rw [← bind_assoc]
  apply (asks_farTarget hsited hfirst).bind_refuses
  intro default'
  apply refuses_read (reads_int32 low)
  apply refuses_read (reads_int32 high)
  simp only [if_pos hcross]
  intro table _
  exact ⟨_, fun _ _ => rfl⟩

/-- The bytes are an opcode and operands, as many as the layout says. They are read as the instruction,
but rejected if its bounds cross. -/
structure TellsInstruction (offset : Label → Except WriteError Nat) (places : List Nat) (pc : Nat)
    (wide : Bool) (next : Instruction) (final : PoolBuilder) (op : Opcode) (operands : List UInt8) :
    Prop where
  size : instructionSize pc wide next final = .ok (operands.length + 1, final)
  asks : next.crosses = false →
    Asks places (Decode.instruction final.toPool pc op) operands fun table back =>
      Instruction.Matches (Meets offset table) next back
  refuses : next.crosses = true →
    Refuses places (Decode.instruction final.toPool pc op) operands "tableswitch"

/-- The bytes of an instruction that has been placed. -/
def TellsPlaced (offset : Label → Except WriteError Nat) (places : List Nat) (pc : Nat)
    (wide : Bool) (next : Instruction) (final : PoolBuilder) (bytes : List UInt8) : Prop :=
  Sited offset places pc wide next → ∃ op operands, bytes = op :: operands ∧
    TellsInstruction offset places pc wide next final op operands

theorem ReadsInstruction.tells {bytes : List UInt8}
    (h : ReadsInstruction offset places pc wide next final bytes) (hcross : next.crosses = false) :
    ∃ op operands, bytes = op :: operands ∧
      TellsInstruction offset places pc wide next final op operands := by
  obtain ⟨op, operands, rfl, hsize, hasks⟩ := h
  refine ⟨op, operands, rfl, hsize, fun _ => hasks, fun htrue => ?_⟩
  rw [hcross] at htrue
  cases htrue

theorem yields_tableSwitch {low high : Int32} {default : Label} {targets : List Label} {written : Nat}
    (h : (Instruction.tableSwitch low high default targets).Fits) :
    Yields (instruction offset pc written wide (.tableSwitch low high default targets))
      fun final bytes => written = pc →
        TellsPlaced offset places pc wide (.tableSwitch low high default targets) final bytes := by
  apply yields_lift_bind
  intro first hfirst
  apply yields_lift_bind
  intro chunks hchunks
  apply yields_pure
  rintro final - rfl hsited
  have hlength := (asks_farTargets hsited hchunks).1
  let operands := List.replicate (switchPadding written) 0 ++ (first ++
    (Bytes.ofUInt32 low.toUInt32 ++ (Bytes.ofUInt32 high.toUInt32 ++ chunks.flatten)))
  refine ⟨Opcode.tableswitch, operands, by simp [switchStart, operands], ?_, fun hcross => ?_,
    fun hcross => ?_⟩
  · obtain ⟨place, -, rfl⟩ := farTarget_ok hfirst
    have hsize : instructionSize written wide (.tableSwitch low high default targets) final =
        .ok (1 + switchPadding written + 12 + 4 * targets.length, final) := rfl
    rw [hsize]
    congr 2
    simp only [operands, List.length_append, List.length_replicate, Bytes.length_ofUInt32, hlength]
    omega
  · exact asks_tableSwitch hsited (of_decide_eq_false hcross) h hfirst hchunks
  · exact refuses_tableSwitch hsited (of_decide_eq_true hcross) hfirst _

/-- A row of a lookup switch. -/
def switchRow (offset : Label → Except WriteError Nat) (pc : Nat) (row : Int32 × Label) :
    Except WriteError (List UInt8) := do
  return Bytes.ofUInt32 row.1.toUInt32 ++ (← farTarget offset pc row.2)

theorem switchRow_ok {row : Int32 × Label} {bytes : List UInt8}
    (h : switchRow offset pc row = .ok bytes) :
    ∃ target, farTarget offset pc row.2 = .ok target ∧ bytes = Bytes.ofUInt32 row.1.toUInt32 ++ target := by
  unfold switchRow at h
  cases htarget : farTarget offset pc row.2 with
  | error error =>
    rw [htarget] at h
    cases h
  | ok target =>
    rw [htarget] at h
    cases h
    exact ⟨target, rfl, rfl⟩

/-- The rows of a lookup switch, one after the other. -/
theorem asks_switchRows (hsited : Sited offset places pc wide next) {rows : List (Int32 × Label)}
    {chunks : List (List UInt8)} (h : rows.mapM (switchRow offset pc) = .ok chunks) :
    chunks.flatten.length = 8 * rows.length ∧
      Asks places
        (timesWithLabels rows.length (liftM Reader.int32 >>= fun key => liftM Reader.int32 >>= fun delta =>
          branchFrom pc delta >>= fun target => pure (key, target)))
        chunks.flatten fun table found =>
          List.Forall₂ (fun row back => row.1 = back.1 ∧ Meets offset table row.2 back.2) rows found := by
  have hchunks := forall₂_of_mapM h
  constructor
  · clear h
    induction hchunks with
    | nil => rfl
    | @cons row chunk rows chunks hrow _ ih =>
      obtain ⟨target, htarget, rfl⟩ := switchRow_ok hrow
      obtain ⟨place, -, rfl⟩ := farTarget_ok htarget
      simp only [List.flatten_cons, List.length_append, ih, List.length_cons, Bytes.length_ofUInt32]
      omega
  · apply asks_times
    apply hchunks.flip.imp
    intro chunk row hrow
    obtain ⟨target, htarget, rfl⟩ := switchRow_ok hrow
    apply asks_read (reads_int32 row.1)
    rw [← bind_assoc]
    apply (asks_farTarget hsited htarget).bind_pure
    intro table label hlabel
    exact ⟨rfl, hlabel⟩

/-- Keys and targets that are read in pairs. -/
theorem forall₂_unzip {table : LabelTable} {keys : List Int32} {targets : List Label}
    {found : List (Int32 × Label)} (hlength : targets.length = keys.length)
    (h : List.Forall₂ (fun row back => row.1 = back.1 ∧ Meets offset table row.2 back.2)
      (keys.zip targets) found) :
    keys = found.map (·.1) ∧ List.Forall₂ (Meets offset table) targets (found.map (·.2)) := by
  induction keys generalizing targets found with
  | nil =>
    obtain rfl := List.length_eq_zero_iff.1 hlength
    cases h
    exact ⟨rfl, .nil⟩
  | cons key keys ih =>
    obtain ⟨target, targets, rfl⟩ := List.exists_cons_of_length_eq_add_one hlength
    rw [List.zip_cons_cons] at h
    cases h with
    | @cons _ back _ found hrow hrest =>
      obtain ⟨hkeys, htargets⟩ := ih (by simpa using hlength) hrest
      have hkey : key = back.1 := hrow.1
      rw [List.map_cons, List.map_cons, ← hkeys, ← hkey]
      exact ⟨rfl, .cons hrow.2 htargets⟩

theorem asks_lookupSwitch {default : Label} {keys : List Int32} {targets : List Label}
    (hsited : Sited offset places pc wide (.lookupSwitch default keys targets))
    (hcount : targets.length = keys.length) {first : List UInt8} {chunks : List (List UInt8)}
    (hfirst : farTarget offset pc default = .ok first)
    (hchunks : (keys.zip targets).mapM (switchRow offset pc) = .ok chunks) :
    Asks places (Decode.lookupSwitch pc)
      (List.replicate (switchPadding pc) 0 ++
        (first ++ (Bytes.ofNat32 keys.length ++ chunks.flatten)))
      fun table back =>
        Instruction.Matches (Meets offset table) (.lookupSwitch default keys targets) back := by
  obtain ⟨hlength, hrows⟩ := asks_switchRows hsited hchunks
  have hzip : (keys.zip targets).length = keys.length := by simp [hcount]
  rw [hzip] at hlength hrows
  have hskip := reads_skip (List.replicate (switchPadding pc) 0)
  rw [List.length_replicate] at hskip
  have hfew := hsited.keys default keys targets rfl
  have hread : Reads Reader.int32 (Bytes.ofNat32 keys.length) (Int32.ofNat keys.length) :=
    reads_int32 (Int32.ofNat keys.length)
  have hnumber : (Int32.ofNat keys.length).toInt = keys.length := by
    apply Int32.toInt_ofNat_of_lt
    omega
  have hpositive : ¬Int32.ofNat keys.length < 0 := by
    rw [Int32.lt_iff_toInt_lt, hnumber]
    simp
  unfold Decode.lookupSwitch
  apply asks_read hskip
  rw [← bind_assoc]
  apply (asks_farTarget hsited hfirst).bind
  intro default'
  apply asks_read hread
  simp only [if_neg hpositive, hnumber, Int.toNat_natCast]
  refine asks_remaining ?_
    (hrows.bind_pure (f := fun rows => .lookupSwitch default' (rows.map (·.1)) (rows.map (·.2))) ?_)
  · intro n hn
    rw [if_pos (by omega)]
  · intro table found hfound hdefault
    obtain ⟨hkeys, htargets⟩ := forall₂_unzip hcount hfound
    rw [← hkeys]
    exact .lookupSwitch hdefault htargets

theorem yields_lookupSwitch {default : Label} {keys : List Int32} {targets : List Label}
    {written : Nat} (h : (Instruction.lookupSwitch default keys targets).Fits) :
    Yields (instruction offset pc written wide (.lookupSwitch default keys targets))
      fun final bytes => written = pc → Sited offset places pc wide (.lookupSwitch default keys targets) →
        ReadsInstruction offset places pc wide (.lookupSwitch default keys targets) final bytes := by
  apply yields_lift_bind
  intro first hfirst
  apply yields_lift_bind
  intro chunks hchunks
  apply yields_pure
  rintro final - rfl hsited
  have hasks := asks_lookupSwitch hsited h hfirst hchunks
  have hlength := (asks_switchRows hsited hchunks).1
  obtain ⟨place, -, rfl⟩ := farTarget_ok hfirst
  refine ⟨Opcode.lookupswitch, _, by simp [switchStart], ?_, hasks⟩
  have hsize : instructionSize written wide (.lookupSwitch default keys targets) final =
      .ok (1 + switchPadding written + 8 + 8 * keys.length, final) := rfl
  have hzip : (keys.zip targets).length = keys.length := by simpa using Nat.le_of_eq h.symm
  rw [hsize]
  congr 2
  simp only [switchStart, List.length_append, List.length_cons, List.length_replicate,
    Bytes.length_ofUInt32, Bytes.length_ofNat32, hlength, hzip]
  omega

/-- The bytes of an instruction that fits are read as the instruction, or rejected. -/
theorem yields_instruction {written : Nat} (hreal : next.isPseudo = false) (h : next.Fits) :
    Yields (instruction offset pc written wide next) fun final bytes => written = pc →
      TellsPlaced offset places pc wide next final bytes := by
  have hplain : ∀ {next : Instruction}, next.crosses = false →
      Yields (instruction offset pc written wide next) (ReadsInstruction offset places pc wide next) →
        Yields (instruction offset pc written wide next) fun final bytes => written = pc →
          TellsPlaced offset places pc wide next final bytes :=
    fun hcross hyields => hyields.mono fun _ _ _ hread _ _ => hread.tells hcross
  cases next with
  | label => cases hreal
  | line => cases hreal
  | frame => cases hreal
  | simple op =>
    refine hplain rfl (yields_pure fun final _ => ⟨op, [], rfl, rfl, ?_⟩)
    rw [instruction_simple final.toPool pc h]
    exact asks_pure fun _ => .plain rfl
  | int op operand => exact hplain rfl (yields_pure fun _ _ => readsInstruction_int h)
  | var op slot => exact hplain rfl (yields_pure fun _ _ => readsInstruction_var h)
  | type op class_ => exact hplain rfl (yields_type h)
  | field op owner name desc => exact hplain rfl (yields_fieldAccess h)
  | method op owner name desc interface => exact hplain rfl (yields_call h)
  | invokeDynamic name desc bootstrap arguments => exact hplain rfl (yields_dynamicCall h)
  | jump op target => exact (yields_jump h).mono fun _ _ _ hread _ hsited => (hread hsited).tells rfl
  | ldc constant => exact hplain rfl (yields_ldc h)
  | iinc slot increment => exact hplain rfl (yields_pure fun _ _ => readsInstruction_iinc)
  | tableSwitch low high default targets => exact yields_tableSwitch h
  | lookupSwitch default keys targets =>
    exact (yields_lookupSwitch h).mono fun _ _ _ hread hpc hsited => (hread hpc hsited).tells rfl
  | multiANewArray desc dimensions => exact hplain rfl (yields_multiANewArray h)

end JvmArchive.Encode
