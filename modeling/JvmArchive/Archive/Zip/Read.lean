import JvmArchive.Archive.Entry
import JvmArchive.Archive.Error
import JvmArchive.Archive.Zip.Inflate
import JvmArchive.Text.Utf8

/-!
# Reading zip containers

The files of a zip container as its directory lists them. The directory is found from the record at the
end of the container; bytes before the first file and behind the last record do no harm. Files are stored
or deflated, and the checksum of each is tested. Listing the files comes first and reading them second, so
that there can be something between the two. Unless an archive says that a name is UTF-8, it is in the
characters of the first personal computers, code page 437.
-/

/-! ## Names -/

namespace JvmArchive.Text

/-- The characters of the upper half of the bytes. The lower half is ASCII. -/
def codePageUpper : List Char :=
  ("ÇüéâäàåçêëèïîìÄÅÉæÆôöòûùÿÖÜ¢£¥₧ƒáíóúñÑªº¿⌐¬½¼¡«»" ++
    "░▒▓│┤╡╢╖╕╣║╗╝╜╛┐└┴┬├─┼╞╟╚╔╩╦╠═╬╧╨╤╥╙╘╒╓╫╪┘┌█▄▌▐▀" ++
    "αßΓπΣσµτΦΘΩδ∞φε∩≡±≥≤⌠⌡÷≈°∙·√ⁿ²■\u00A0").toList

/-- The character of a byte. -/
def ofCodePage (b : UInt8) : Char :=
  if b < 0x80 then Char.ofNat b.toNat else codePageUpper.getD (b.toNat - 0x80) ' '

end JvmArchive.Text

/-! ## Checksums -/

namespace JvmArchive.Checksum

/-- The polynomial of the cyclic redundancy check of thirty-two bits, its highest power left out and its
lowest ones first. -/
def polynomial : UInt32 := 0xEDB88320

/-- Divides the lowest bit off a remainder. -/
def shiftBit (remainder : UInt32) : UInt32 :=
  if remainder &&& 1 = 1 then (remainder >>> 1) ^^^ polynomial else remainder >>> 1

/-- Takes a byte into a remainder. -/
def addByte (remainder : UInt32) (b : UInt8) : UInt32 :=
  (List.range 8).foldl (fun remainder _ => shiftBit remainder) (remainder ^^^ b.toUInt32)

/-- The checksum of data. -/
def crc32 (bytes : List UInt8) : UInt32 := bytes.foldl addByte 0xFFFFFFFF ^^^ 0xFFFFFFFF

end JvmArchive.Checksum

/-! ## Containers -/

namespace JvmArchive.Zip

def localSignature : Nat := 0x04034b50
def directorySignature : Nat := 0x02014b50
def endSignature : Nat := 0x06054b50
def wideEndSignature : Nat := 0x06064b50
def wideLocatorSignature : Nat := 0x07064b50

/-- The number that is written as a list of bytes, the lowest first. -/
def numberOf (bytes : List UInt8) : Nat := bytes.foldr (fun b n => n * 256 + b.toNat) 0

/-- The bytes of a container, and the largest offset to which reading can go. -/
structure Source where
  data : Array UInt8
  reach : Nat
  deriving Repr, Inhabited

/-- In memory reading can go to any offset, whether there are bytes or not. -/
def Source.ofMemory (bytes : List UInt8) : Source := ⟨bytes.toArray, UInt64.size - 1⟩

/-- The size that no file exceeds: so many blocks of 4096 bytes as have numbers of 32 bits. -/
def maxFileSize : Nat := 0xFFFFFFFF000

/-- In a file reading can go as far as files can be long. -/
def Source.ofFile (bytes : List UInt8) : Source := ⟨bytes.toArray, maxFileSize⟩

/-- Reading from a container, which may be at fault. -/
abbrev Reading := Except ContainerFault

/-- The bytes at an offset, all of which have to be there. -/
def bytesAt (data : Array UInt8) (offset count : Nat) : Reading (List UInt8) :=
  if offset + count ≤ data.size then pure (data.extract offset (offset + count)).toList
  else throw .ended

/-- The number in so many bytes at an offset. -/
def numberAt (data : Array UInt8) (offset width : Nat) : Reading Nat :=
  numberOf <$> bytesAt data offset width

/-- Whether a number of four bytes stands at an offset. -/
def hasSignature (data : Array UInt8) (offset signature : Nat) : Bool :=
  match numberAt data offset 4 with
  | .ok n => n == signature
  | .error _ => false

/-! ## Finding the directory -/

/-- The length of the record at the end without its comment. -/
def endLength : Nat := 22

/-- The last place between two offsets at which the record at the end may start. -/
def lastEnd? (data : Array UInt8) (lowest : Nat) : Nat → Option Nat
  | 0 => if hasSignature data 0 endSignature then some 0 else none
  | offset + 1 =>
    if hasSignature data (offset + 1) endSignature then some (offset + 1)
    else if lowest ≤ offset then lastEnd? data lowest offset
    else none

/-- The record at the end of a container. -/
structure EndRecord where
  offset : Nat
  disk : Nat
  directoryDisk : Nat
  fileCount : Nat
  totalCount : Nat
  directorySize : Nat
  directoryOffset : Nat
  comment : List UInt8
  deriving Repr, Inhabited

/-- Finds the record at the end, which a comment may follow. -/
def endRecord (data : Array UInt8) : Reading EndRecord := do
  if data.size < endLength then throw (.damaged .length)
  match lastEnd? data (data.size - (endLength + 0xFFFF)) (data.size - endLength) with
  | none => throw (.damaged .endMissing)
  | some offset =>
    let field (at_ width : Nat) := numberAt data (offset + at_) width
    let commentLength ← field 20 2
    pure
      { offset
        disk := ← field 4 2
        directoryDisk := ← field 6 2
        fileCount := ← field 8 2
        totalCount := ← field 10 2
        directorySize := ← field 12 4
        directoryOffset := ← field 16 4
        comment := ← bytesAt data (offset + endLength) commentLength }

/-- Whether a number of the record has no room in it and stands elsewhere. -/
def EndRecord.isTooSmall (record : EndRecord) : Bool :=
  record.disk == 0xFFFF || record.directoryDisk == 0xFFFF || record.fileCount == 0xFFFF ||
    record.totalCount == 0xFFFF || record.directorySize == 0xFFFFFFFF ||
    record.directoryOffset == 0xFFFFFFFF

/-- Where the directory starts, how many files it lists, and how far all offsets are shifted. -/
structure Directory where
  start : Nat
  fileCount : Nat
  shift : Nat
  deriving Repr, Inhabited

/-- The first place from an offset on, up to a bound, at which a wide record starts. -/
def firstWideEnd? (data : Array UInt8) (offset : Nat) : Nat → Option Nat
  | 0 => none
  | room + 1 =>
    if hasSignature data offset wideEndSignature then some offset
    else firstWideEnd? data (offset + 1) room

/-- The least length of the records with wide numbers before the record at the end. -/
def wideLength : Nat := 60

/-- The directory of a container with wide numbers, given the place of their locator. -/
def wideDirectory (data : Array UInt8) (record : EndRecord) (locator : Nat) :
    Reading Directory := do
  let disk ← numberAt data (locator + 4) 4
  let nominal ← numberAt data (locator + 8) 8
  if !record.isTooSmall && record.disk != disk then throw (.unsupported .severalDisks)
  if record.offset < wideLength then throw (.damaged .wideEndRoom)
  match firstWideEnd? data nominal (record.offset - wideLength + 1 - nominal) with
  | none => throw (.damaged .wideEndMissing)
  | some offset =>
    let field (at_ width : Nat) := numberAt data (offset + at_) width
    if (← field 16 4) != (← field 20 4) then throw (.unsupported .severalDisks)
    let start := (← field 48 8) + (offset - nominal)
    if UInt64.size ≤ start then throw (.damaged .directoryBounds)
    pure { start, fileCount := ← field 32 8, shift := offset - nominal }

/-- The directory that the record at the end tells. -/
def directory (data : Array UInt8) (record : EndRecord) : Reading Directory := do
  if !record.isTooSmall && record.disk != record.directoryDisk then
    throw (.unsupported .severalDisks)
  let locatorDistance := 20 + endLength + record.comment.length
  if locatorDistance ≤ data.size &&
      hasSignature data (data.size - locatorDistance) wideLocatorSignature then
    wideDirectory data record (data.size - locatorDistance)
  else
    if record.offset < record.directorySize + record.directoryOffset then
      throw (.damaged .directoryBounds)
    let start := record.offset - record.directorySize
    pure { start, fileCount := record.fileCount, shift := start - record.directoryOffset }

/-! ## Reading the directory -/

/-- What the directory says of a file. -/
structure FileHeader where
  name : String
  isEncrypted : Bool
  method : Nat
  checksum : Nat
  compressedSize : Nat
  size : Nat
  start : Nat
  /-- Whether the file is locked with a cipher. -/
  isLocked : Bool := false
  deriving Repr, Inhabited

/-- The number that says that a number stands in an extra field. -/
def wideMark : Nat := 0xFFFFFFFF

/-- A number or the wide one in front of some bytes, and the bytes behind it. -/
def readWide? (value : Nat) (bytes : List UInt8) : Option (Nat × List UInt8) :=
  if value ≠ wideMark then some (value, bytes)
  else if bytes.length < 8 then none
  else some (numberOf (bytes.take 8), bytes.drop 8)

/-- Takes wide numbers over, as far as there are any. The bytes behind them are left, if none are
lacking. -/
def readWideField (header : FileHeader) (bytes : List UInt8) :
    FileHeader × Option (List UInt8) :=
  match readWide? header.size bytes with
  | none => (header, none)
  | some (size, bytes) =>
    let header := { header with size }
    match readWide? header.compressedSize bytes with
    | none => (header, none)
    | some (compressedSize, bytes) =>
      let header := { header with compressedSize }
      match readWide? header.start bytes with
      | none => (header, none)
      | some (start, bytes) => ({ header with start }, some bytes)

/-- Takes over that a file is locked. A field too short for its contents is passed over. -/
def readLockField (header : FileHeader) (length : Nat) (bytes : List UInt8) :
    Reading (FileHeader × Option (List UInt8)) := do
  if length ≠ 7 then throw (.unsupported .cipherLength)
  if bytes.length < 7 then return (header, none)
  let version := numberOf (bytes.take 2)
  let vendor := numberOf ((bytes.drop 2).take 2)
  let strength := numberOf ((bytes.drop 4).take 1)
  if vendor ≠ 0x4541 then throw (.damaged .cipherVendor)
  if !(1 ≤ version && version ≤ 2) then throw (.damaged .cipherVersion)
  if !(1 ≤ strength && strength ≤ 3) then throw (.damaged .cipherStrength)
  let header :=
    { header with isLocked := true, method := numberOf ((bytes.drop 5).take 2) }
  pure (header, some (bytes.drop 7))

/-- Reads the extra fields of a file, as many as are complete. -/
def readExtra : Nat → FileHeader → List UInt8 → Reading FileHeader
  | 0, header, _ => pure header
  | steps + 1, header, bytes =>
    if bytes.length < 4 then pure header
    else do
      let kind := numberOf (bytes.take 2)
      let length := numberOf ((bytes.drop 2).take 2)
      let body := bytes.drop 4
      if kind = 0x0001 then
        match readWideField header body with
        | (header, none) => pure header
        | (header, some rest) =>
          readExtra steps header (rest.drop (length - (body.length - rest.length)))
      else if kind = 0x9901 then
        match ← readLockField header length body with
        | (header, none) => pure header
        | (header, some rest) => readExtra steps header (rest.drop length)
      else readExtra steps header (body.drop length)

/-- The text of a name. -/
def decodeName (isUtf8 : Bool) (bytes : List UInt8) : String :=
  String.ofList (if isUtf8 then Text.decodeLossy bytes else bytes.map Text.ofCodePage)

/-- The method that says that the real one stands in an extra field. -/
def lockedMethod : Nat := 99

/-- Reads what the directory says of one file, and where it goes on. -/
def fileHeader (data : Array UInt8) (shift offset : Nat) : Reading (FileHeader × Nat) := do
  let field (at_ width : Nat) := numberAt data (offset + at_) width
  if (← field 0 4) ≠ directorySignature then throw (.damaged .directorySignature)
  let flags ← field 8 2
  let nameLength ← field 28 2
  let extraLength ← field 30 2
  let commentLength ← field 32 2
  let start ← field 42 4
  let name ← bytesAt data (offset + 46) nameLength
  let extra ← bytesAt data (offset + 46 + nameLength) extraLength
  let _ ← bytesAt data (offset + 46 + nameLength + extraLength) commentLength
  let header ← readExtra extra.length
    { name := decodeName (flags.testBit 11) name
      isEncrypted := flags.testBit 0
      method := ← field 10 2
      checksum := ← field 16 4
      compressedSize := ← field 20 4
      size := ← field 24 4
      start } extra
  if header.method = lockedMethod && !header.isLocked then throw (.damaged .cipherMissing)
  if UInt64.size ≤ header.start + shift then throw (.damaged .fileBounds)
  pure ({ header with start := header.start + shift },
    offset + 46 + nameLength + extraLength + commentLength)

/-- Reads so many entries of the directory. -/
def fileHeaders (data : Array UInt8) (shift : Nat) : Nat → Nat → Reading (List FileHeader)
  | 0, _ => pure []
  | n + 1, offset => do
    let (header, offset) ← fileHeader data shift offset
    return header :: (← fileHeaders data shift n offset)

/-! ## Reading files -/

def storedMethod : Nat := 0
def deflatedMethod : Nat := 8

/-- The data of a file as it stands in the container, cut off where the container ends. -/
def fileContent (source : Source) (header : FileHeader) : Reading (List UInt8) := do
  if header.isEncrypted then throw (.unsupported .encryption)
  if source.reach < header.start then throw .outOfReach
  if (← numberAt source.data header.start 4) ≠ localSignature then
    throw (.damaged .fileSignature)
  let nameLength ← numberAt source.data (header.start + 26) 2
  let extraLength ← numberAt source.data (header.start + 28) 2
  if header.method ≠ storedMethod ∧ header.method ≠ deflatedMethod then
    throw (.unsupported .compression)
  if header.isLocked then throw (.unsupported .encryption)
  let start := header.start + 30 + nameLength + extraLength
  pure (source.data.extract start (start + header.compressedSize)).toList

/-- The data of a file from what stands in the container. -/
def restore (header : FileHeader) (content : List UInt8) : Except DataFault (List UInt8) := do
  let bytes ←
    if header.method = storedMethod then pure content
    else
      match Inflate.inflate content with
      | .ok bytes => pure bytes.toList
      | .error fault => throw (.stream fault)
  if (Checksum.crc32 bytes).toNat = header.checksum then pure bytes else throw .checksum

/-- Whether a name is that of a directory. -/
def isDirectory (name : String) : Bool :=
  match name.toList.getLast? with
  | some c => c = '/' || c = '\\'
  | none => false

/-- Reads the listed files, but for directories. -/
def readFiles (source : Source) : List FileHeader → Except ArchiveError (List ArchiveEntry)
  | [] => pure []
  | header :: rest =>
    match fileContent source header with
    | .error fault => throw (.container fault)
    | .ok content =>
      if isDirectory header.name then readFiles source rest
      else
        match restore header content with
        | .error fault => throw (.unreadable fault)
        | .ok bytes => do
          return { path := header.name, data := bytes } :: (← readFiles source rest)

/-- A container whose files have been listed. -/
structure Container where
  source : Source
  headers : List FileHeader
  comment : List UInt8
  deriving Repr, Inhabited

/-- Lists the files of a container. -/
def Container.list (source : Source) : Reading Container := do
  let record ← endRecord source.data
  let directory ← directory source.data record
  if source.reach < directory.start then throw (.damaged .directoryReach)
  let headers ← fileHeaders source.data directory.shift directory.fileCount directory.start
  pure { source, headers, comment := record.comment }

/-- Reads the files of a container. -/
def Container.read (container : Container) : Except ArchiveError Archive := do
  let entries ← readFiles container.source container.headers
  let comment :=
    if container.comment.isEmpty then none
    else some (String.ofList (Text.decodeLossy container.comment))
  pure { entries, comment }

/-- Lists and reads the files of a container. -/
def Source.read (source : Source) : Except ArchiveError Archive :=
  match Container.list source with
  | .ok container => container.read
  | .error fault => throw (.container fault)

/-- Reads a container that is in memory. -/
def read (bytes : List UInt8) : Except ArchiveError Archive := (Source.ofMemory bytes).read

/-- Reads a container that is a file on a disk. -/
def readOnDisk (bytes : List UInt8) : Except ArchiveError Archive := (Source.ofFile bytes).read

end JvmArchive.Zip
