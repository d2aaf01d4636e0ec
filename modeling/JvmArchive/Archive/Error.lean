/-!
# Archive errors

What can be wrong with an archive, with the container that holds it and with its manifest.
-/
namespace JvmArchive

/-- Why compressed data cannot be restored. -/
inductive StreamFault
  /-- The data are over before their last block is. -/
  | incomplete
  /-- There are bits that mean nothing. -/
  | corrupt
  deriving Repr, DecidableEq, Inhabited

def StreamFault.message : StreamFault → String
  | incomplete => "incomplete deflate stream"
  | corrupt => "corrupt deflate stream"

/-- Why the data of a file cannot be restored. -/
inductive DataFault
  | stream (fault : StreamFault)
  /-- The data do not have the checksum that the container tells. -/
  | checksum
  deriving Repr, DecidableEq, Inhabited

def DataFault.message : DataFault → String
  | stream fault => fault.message
  | checksum => "Invalid checksum"

/-- What about a container is not supported. -/
inductive UnsupportedFeature
  | severalDisks
  | compression
  | encryption
  /-- The length of what is told of a cipher. -/
  | cipherLength
  deriving Repr, DecidableEq, Inhabited

def UnsupportedFeature.message : UnsupportedFeature → String
  | severalDisks => "Support for multi-disk files is not implemented"
  | compression => "Compression method not supported"
  | encryption => "Password required to decrypt file"
  | cipherLength => "AES extra data field has an unsupported length"

/-- What in a container does not fit. -/
inductive ContainerDamage
  /-- The container is too short for any record. -/
  | length
  | endMissing
  /-- There is no room for the record at the end with wide numbers. -/
  | wideEndRoom
  | wideEndMissing
  /-- The directory would start before the container or behind all numbers. -/
  | directoryBounds
  /-- The directory would start where no byte can be read. -/
  | directoryReach
  | directorySignature
  | fileSignature
  /-- The header of a file would start behind all numbers. -/
  | fileBounds
  /-- A file is locked, but nothing is told of the cipher. -/
  | cipherMissing
  | cipherVendor
  | cipherVersion
  | cipherStrength
  deriving Repr, DecidableEq, Inhabited

def ContainerDamage.message : ContainerDamage → String
  | length => "Invalid zip header"
  | endMissing => "Could not find central directory end"
  | wideEndRoom => "File cannot contain ZIP64 central directory end"
  | wideEndMissing => "Could not find ZIP64 central directory end"
  | directoryBounds => "Invalid central directory size or offset"
  | directoryReach => "Could not seek to start of central directory"
  | directorySignature => "Invalid Central Directory header"
  | fileSignature => "Invalid local file header"
  | fileBounds => "Archive header is too large"
  | cipherMissing => "AES encryption without AES extra data field"
  | cipherVendor => "Invalid AES vendor"
  | cipherVersion => "Invalid AES vendor version"
  | cipherStrength => "Invalid AES encryption strength"

/-- Why a container cannot be read. -/
inductive ContainerFault
  /-- The container ends inside a record. -/
  | ended
  /-- A record would start where no byte can be read. -/
  | outOfReach
  | damaged (damage : ContainerDamage)
  | unsupported (feature : UnsupportedFeature)
  deriving Repr, DecidableEq, Inhabited

def ContainerFault.message : ContainerFault → String
  | ended => "failed to fill whole buffer"
  | outOfReach => "Invalid argument (os error 22)"
  | damaged damage => "invalid Zip archive: " ++ damage.message
  | unsupported feature => "unsupported Zip archive: " ++ feature.message

inductive ArchiveError
  /-- The data of an entry cannot be restored. -/
  | unreadable (fault : DataFault)
  /-- The container is damaged or uses what is not supported. -/
  | container (fault : ContainerFault)
  /-- There is no archive at the path. -/
  | notFound
  /-- A line of the manifest cannot be read. -/
  | manifest (line : Nat) (details : String)
  deriving Repr, DecidableEq, Inhabited

def ArchiveError.message : ArchiveError → String
  | unreadable fault => "archive i/o error: " ++ fault.message
  | container fault => "zip container error: " ++ fault.message
  | notFound => "could not open archive"
  | manifest line details =>
    "malformed manifest at line " ++ toString line ++ ": " ++ details

end JvmArchive
