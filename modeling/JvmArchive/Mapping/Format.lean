import JvmArchive.Mapping.Error
import JvmArchive.Mapping.ProGuard
import JvmArchive.Mapping.Srg

/-!
# Mapping files

The formats in which mappings are exchanged, each read line by line and written from a store.
-/
namespace JvmArchive.Mapping

inductive Format
  | proGuard
  | srg
  deriving Repr, DecidableEq, Inhabited

namespace Format

/-- The direction of a store that has been read. A ProGuard file tells how names were made
unreadable, so its store restores them; an SRG file names first what there is. -/
def direction : Format → Direction
  | proGuard => .reversing
  | srg => .applying

/-- Reads numbered lines one after the other. -/
def readLines {σ : Type} (read : σ → List Char → Except String σ) :
    List (Option (List Char)) → Nat → σ → Except LoadError σ
  | [], _, state => pure state
  | none :: _, _, _ => throw (.unreadable "stream did not contain valid UTF-8")
  | some line :: rest, number, state =>
    match read state line with
    | .ok state => readLines read rest (number + 1) state
    | .error details => throw (.malformed number details (String.ofList line))

/-- Reads the lines of a file into a new store; a line that is no text is an error when its turn
comes. -/
def ofLines (format : Format) (lines : List (Option (List Char))) : Except LoadError Store :=
  let store := Store.empty format.direction
  match format with
  | proGuard => do
    let reader ← readLines ProGuard.Reader.readLine lines 1 { store }
    pure reader.store.completeDescriptors
  | srg => readLines Srg.readLine lines 1 store

/-- Reads a text. -/
def ofText (format : Format) (text : String) : Except LoadError Store :=
  format.ofLines ((Text.lines '\n' '\r' text.toList).map some)

/-- Reads the bytes of a file. -/
def ofBytes (format : Format) (bytes : List UInt8) : Except LoadError Store :=
  format.ofLines ((Text.lines 0x0A 0x0D bytes).map fun line =>
    (String.fromUTF8? ⟨line.toArray⟩).map String.toList)

/-- What a path leads to. -/
inductive Origin
  | nothing
  | directory
  | file (bytes : List UInt8)
  deriving Repr, DecidableEq, Inhabited

/-- Loads what a path leads to. -/
def load (format : Format) : Origin → Except LoadError Store
  | .nothing => throw .notFound
  | .directory => throw (.unreadable "Is a directory (os error 21)")
  | .file bytes => format.ofBytes bytes

/-- Writes a store. The direction is part of neither format. -/
def write (format : Format) (store : Store) : String :=
  match format with
  | proGuard => ProGuard.write store
  | srg => Srg.write store

end Format
end JvmArchive.Mapping
