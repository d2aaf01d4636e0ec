import JvmArchive.ClassFile.Node
import Mathlib.Data.List.Forall2

/-!
# Places in code

A label names a place between the real instructions of a method, whatever pseudo-instructions stand
around it. Two lists of instructions say the same if their real instructions agree one by one and their
labels name the same places.
-/
namespace JvmArchive

namespace Instruction

/-- Whether an entry is a frame. -/
def isFrame : Instruction → Bool
  | .frame _ => true
  | _ => false

/-- The real instructions of a list. -/
def real (instructions : List Instruction) : List Instruction :=
  instructions.filter fun instruction => !instruction.isPseudo

/-- How many real instructions stand before a label; of several places the last counts. -/
def placeOf : List Instruction → Label → Option Nat
  | [], _ => none
  | .label other :: rest, wanted =>
    (placeOf rest wanted).or (if other = wanted then some 0 else none)
  | instruction :: rest, wanted =>
    if instruction.isPseudo then placeOf rest wanted else (placeOf rest wanted).map (· + 1)

/-- The lines of a list with their labels, in order. -/
def lines (instructions : List Instruction) : List (Label × UInt16) :=
  instructions.filterMap fun
    | .line number start => some (start, number)
    | _ => none

/-- The lines that start at a place, in order. -/
def linesAt (instructions : List Instruction) (place : Nat) : List UInt16 :=
  ((lines instructions).filter fun line => placeOf instructions line.1 = some place).map (·.2)

/-- An instruction and its wide form, if it is a jump that has one. -/
def IsFormOf (op form : Opcode) : Prop :=
  form = op ∨ op = Opcode.goto ∧ form = Opcode.gotoW ∨ op = Opcode.jsr ∧ form = Opcode.jsrW

/-- Two real instructions say the same, given which labels do; only a jump may have become wide. -/
inductive Matches (same : Label → Label → Prop) : Instruction → Instruction → Prop
  | plain {instruction : Instruction} (h : instruction.targets = []) :
    Matches same instruction instruction
  | jump {op form : Opcode} {target target' : Label} (hop : IsFormOf op form)
      (htarget : same target target') : Matches same (.jump op target) (.jump form target')
  | tableSwitch {low high : Int32} {default default' : Label} {targets targets' : List Label}
      (hdefault : same default default') (htargets : List.Forall₂ same targets targets') :
    Matches same (.tableSwitch low high default targets) (.tableSwitch low high default' targets')
  | lookupSwitch {keys : List Int32} {default default' : Label} {targets targets' : List Label}
      (hdefault : same default default') (htargets : List.Forall₂ same targets targets') :
    Matches same (.lookupSwitch default keys targets) (.lookupSwitch default' keys targets')

theorem Matches.mono {same same' : Label → Label → Prop} {a b : Instruction} (h : Matches same a b)
    (himp : ∀ label label', same label label' → same' label label') : Matches same' a b := by
  cases h with
  | plain h => exact .plain h
  | jump hop htarget => exact .jump hop (himp _ _ htarget)
  | tableSwitch hdefault htargets =>
    exact .tableSwitch (himp _ _ hdefault) (htargets.imp fun _ _ h => himp _ _ h)
  | lookupSwitch hdefault htargets =>
    exact .lookupSwitch (himp _ _ hdefault) (htargets.imp fun _ _ h => himp _ _ h)

/-- What says the same as real instructions is real. -/
theorem isPseudo_of_matches {same : Label → Label → Prop} {xs ys : List Instruction}
    (h : List.Forall₂ (Matches same) xs ys) (hxs : ∀ x ∈ xs, x.isPseudo = false) :
    ∀ y ∈ ys, y.isPseudo = false := by
  induction h with
  | nil => simp
  | @cons x y xs ys hxy _ ih =>
    have hx : x.isPseudo = false := hxs x List.mem_cons_self
    have hy : y.isPseudo = false := by
      cases hxy with
      | plain => exact hx
      | _ => rfl
    rw [List.forall_mem_cons]
    exact ⟨hy, ih fun other hother => hxs other (List.mem_cons_of_mem _ hother)⟩

theorem placeOf_label (other label : Label) (rest : List Instruction) :
    placeOf (.label other :: rest) label =
      (placeOf rest label).or (if other = label then some 0 else none) := rfl

theorem placeOf_pseudo {instruction : Instruction} (h : instruction.isPseudo = true)
    (hlabel : ∀ other, instruction ≠ .label other) (rest : List Instruction) (label : Label) :
    placeOf (instruction :: rest) label = placeOf rest label := by
  cases instruction <;> first | exact absurd rfl (hlabel _) | rfl | cases h

theorem placeOf_real {instruction : Instruction} (h : instruction.isPseudo = false)
    (rest : List Instruction) (label : Label) :
    placeOf (instruction :: rest) label = (placeOf rest label).map (· + 1) := by
  cases instruction <;> first | rfl | cases h

end Instruction
end JvmArchive
