import JvmArchive.Archive.Zip.Read

/-!
# Writing zip containers

A container whose files are stored as they are, in their order, with a directory and a comment behind
them.
-/
namespace JvmArchive.Zip

/-- A number in so many bytes, the lowest first. -/
def bytesOf : Nat → Nat → List UInt8
  | 0, _ => []
  | width + 1, n => n.toUInt8 :: bytesOf width (n / 256)

/-- The flag that says that names are UTF-8, if a name is more than ASCII. -/
def nameFlags (name : String) : Nat := if name.toList.all (·.toNat < 0x80) then 0 else 0x0800

/-- What the header of a file and its entry in the directory have in common. -/
def commonFields (entry : ArchiveEntry) : List UInt8 :=
  bytesOf 2 20 ++ bytesOf 2 (nameFlags entry.path) ++ bytesOf 2 storedMethod ++
    bytesOf 2 0 ++ bytesOf 2 0x21 ++ bytesOf 4 (Checksum.crc32 entry.data).toNat ++
    bytesOf 4 entry.data.length ++ bytesOf 4 entry.data.length ++
    bytesOf 2 (Text.utf8 entry.path.toList).length ++ bytesOf 2 0

/-- A file with its header. -/
def localRecord (entry : ArchiveEntry) : List UInt8 :=
  bytesOf 4 localSignature ++ commonFields entry ++ Text.utf8 entry.path.toList ++ entry.data

/-- The entry of a file in the directory, given the offset of its header. -/
def directoryRecord (entry : ArchiveEntry) (offset : Nat) : List UInt8 :=
  bytesOf 4 directorySignature ++ bytesOf 2 20 ++ commonFields entry ++
    bytesOf 2 0 ++ bytesOf 2 0 ++ bytesOf 2 0 ++ bytesOf 4 0 ++ bytesOf 4 offset ++
    Text.utf8 entry.path.toList

/-- The directory of files whose headers start at an offset. -/
def directoryRecords : List ArchiveEntry → Nat → List UInt8
  | [], _ => []
  | entry :: rest, offset =>
    directoryRecord entry offset ++ directoryRecords rest (offset + (localRecord entry).length)

/-- The record at the end. -/
def endRecordBytes (count directorySize directoryOffset : Nat) (comment : List UInt8) :
    List UInt8 :=
  bytesOf 4 endSignature ++ bytesOf 2 0 ++ bytesOf 2 0 ++ bytesOf 2 count ++ bytesOf 2 count ++
    bytesOf 4 directorySize ++ bytesOf 4 directoryOffset ++ bytesOf 2 comment.length ++ comment

/-- Writes a container. -/
def write (archive : Archive) : List UInt8 :=
  let files := archive.entries.flatMap localRecord
  let directory := directoryRecords archive.entries 0
  files ++ directory ++
    endRecordBytes archive.entries.length directory.length files.length
      (Text.utf8 (archive.comment.getD "").toList)

end JvmArchive.Zip
