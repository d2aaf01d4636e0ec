import JvmArchive.Archive.Error

/-!
# Inflating

The decompression of deflated data: blocks of literal bytes and of repetitions of what came before, under
Huffman codes that a block brings along or that are fixed. A code is canonical: it is given by the length
of each symbol's word alone. Data that end before their last block does, or that hold bits that mean
nothing, cannot be inflated at all, whichever comes first; what stands behind the last block does not
count.
-/
namespace JvmArchive.Inflate

/-- The bits of a byte, the low ones first. -/
def bitsOfByte (b : UInt8) : List Bool := (List.range 8).map fun i => b.toNat.testBit i

/-- The bits of data in the order in which they are read. -/
def bitsOf (bytes : List UInt8) : List Bool := bytes.flatMap bitsOfByte

/-- The number of some bits, the low ones first. -/
def numberOf (bits : List Bool) : Nat :=
  bits.foldr (fun bit n => 2 * n + (if bit then 1 else 0)) 0

/-- Reading bits, which may be too few or mean nothing. -/
abbrev Reader := StateT (List Bool) (Except StreamFault)

/-- The number of the next bits. -/
def readNumber (n : Nat) : Reader Nat := fun bits =>
  if (bits.take n).length < n then .error .incomplete
  else .ok (numberOf (bits.take n), bits.drop n)

/-! ## Huffman codes -/

/-- A canonical code: how many symbols have words of each length from one on, and the symbols ordered by
the length of their words and then by number. -/
structure Code where
  counts : List Nat
  symbols : Array Nat
  deriving Repr, Inhabited

namespace Code

/-- The longest word of a code. -/
def maxLength : Nat := 15

/-- The code in which each symbol has a word of the given length; no word where that is zero. -/
def ofLengths (lengths : List Nat) : Code where
  counts := (List.range maxLength).map fun n => lengths.count (n + 1)
  symbols :=
    ((List.range maxLength).flatMap fun n =>
      (lengths.zipIdx.filter (·.1 = n + 1)).map (·.2)).toArray

/-- The share of all words that a code uses, in units of the longest words. -/
def usedShare (code : Code) : Nat :=
  code.counts.zipIdx.foldl (fun share (count, n) => share + count * Nat.pow 2 (maxLength - 1 - n)) 0

/-- Whether each sequence of bits starts with exactly one word. -/
def isComplete (code : Code) : Bool := code.usedShare == Nat.pow 2 maxLength

/-- Whether a block may bring a code along for its bytes or distances: it is complete, or it has no word
at all, or a single one of one bit. -/
def isUsable (code : Code) : Bool :=
  code.isComplete || code.symbols.isEmpty ||
    (code.symbols.size == 1 && code.counts.head? == some 1)

/-- Reads on through the lengths of words. The word read so far, the first word of this length and the
index of its symbol come along. That bits are no word is known only after the longest words, so that data
may be over before. -/
def readSymbolFrom (code : Code) : List Nat → Nat → Nat → Nat → Reader Nat
  | [], _, _, _ => throw .corrupt
  | count :: counts, word, first, index => do
    let word := 2 * word + (← readNumber 1)
    if word < first + count then
      match code.symbols[index + (word - first)]? with
      | some symbol => pure symbol
      | none => throw .corrupt
    else readSymbolFrom code counts word (2 * (first + count)) (index + count)

/-- Reads one word and gives its symbol. -/
def readSymbol (code : Code) : Reader Nat := readSymbolFrom code code.counts 0 0 0

end Code

/-! ## Blocks -/

/-- The shortest repetitions that the length symbols stand for, and the bits that say how much longer. -/
def lengthTable : List (Nat × Nat) :=
  [(3, 0), (4, 0), (5, 0), (6, 0), (7, 0), (8, 0), (9, 0), (10, 0), (11, 1), (13, 1), (15, 1),
    (17, 1), (19, 2), (23, 2), (27, 2), (31, 2), (35, 3), (43, 3), (51, 3), (59, 3), (67, 4),
    (83, 4), (99, 4), (115, 4), (131, 5), (163, 5), (195, 5), (227, 5), (258, 0)]

/-- The shortest distances that the distance symbols stand for, and the bits that say how much farther. -/
def distanceTable : List (Nat × Nat) :=
  [(1, 0), (2, 0), (3, 0), (4, 0), (5, 1), (7, 1), (9, 2), (13, 2), (17, 3), (25, 3), (33, 4),
    (49, 4), (65, 5), (97, 5), (129, 6), (193, 6), (257, 7), (385, 7), (513, 8), (769, 8),
    (1025, 9), (1537, 9), (2049, 10), (3073, 10), (4097, 11), (6145, 11), (8193, 12),
    (12289, 12), (16385, 13), (24577, 13)]

/-- Reads the number that a symbol and the bits after it stand for. -/
def readExtended (table : List (Nat × Nat)) (symbol : Nat) : Reader Nat :=
  match table[symbol]? with
  | some (least, bits) => return least + (← readNumber bits)
  | none => throw .corrupt

/-- What the symbols of a block say. -/
inductive Item
  | literal (byte : UInt8)
  /-- Bytes that stand some distance before the end come again. -/
  | repetition (length distance : Nat)
  | stop
  deriving Repr, DecidableEq, Inhabited

/-- Reads one item of a block. -/
def readItem (literals distances : Code) : Reader Item := do
  let symbol ← literals.readSymbol
  if symbol < 256 then return .literal symbol.toUInt8
  else if symbol = 256 then return .stop
  else
    let length ← readExtended lengthTable (symbol - 257)
    let distance ← readExtended distanceTable (← distances.readSymbol)
    return .repetition length distance

/-- The byte at a distance before the end. Before the first byte there are zeros. -/
def byteBefore (output : Array UInt8) (distance : Nat) : UInt8 :=
  if distance ≤ output.size then output.getD (output.size - distance) 0 else 0

/-- Repeats bytes from a distance before the end. -/
def repeatBytes (output : Array UInt8) (distance : Nat) : Nat → Array UInt8
  | 0 => output
  | n + 1 => repeatBytes (output.push (byteBefore output distance)) distance n

/-- Reads items up to the end of a block. Every item takes a bit at least, so that as many steps as there
are bits are enough. -/
def readItems (literals distances : Code) : Nat → Array UInt8 → Reader (Array UInt8)
  | 0, _, _ => .error .incomplete
  | steps + 1, output, bits =>
    match (readItem literals distances).run bits with
    | .error fault => .error fault
    | .ok (.literal byte, bits) => readItems literals distances steps (output.push byte) bits
    | .ok (.repetition length distance, bits) =>
      readItems literals distances steps (repeatBytes output distance length) bits
    | .ok (.stop, bits) => .ok (output, bits)

/-- Reads the symbols of a block under its codes. -/
def codedBlock (codes : Code × Code) (output : Array UInt8) : Reader (Array UInt8) := do
  readItems codes.1 codes.2 ((← get).length + 1) output

/-- The codes of blocks that bring none along. A few symbols of theirs have words but no meaning. -/
def fixedCodes : Code × Code :=
  (.ofLengths (List.replicate 144 8 ++ List.replicate 112 9 ++ List.replicate 24 7 ++
      List.replicate 8 8),
    .ofLengths (List.replicate 32 5))

/-- The order in which the lengths for the code of lengths are given. -/
def lengthOrder : List Nat :=
  [16, 17, 18, 0, 8, 7, 9, 6, 10, 5, 11, 4, 12, 3, 13, 2, 14, 1, 15]

/-- Reads the lengths of words until there are enough. Some symbols repeat the length before or zero. -/
def readLengths (code : Code) (wanted : Nat) : Nat → List Nat → Reader (List Nat)
  | 0, _ => throw .incomplete
  | steps + 1, lengths => do
    if wanted ≤ lengths.length then
      if lengths.length = wanted then return lengths else throw .corrupt
    let symbol ← code.readSymbol
    if symbol < 16 then readLengths code wanted steps (lengths ++ [symbol])
    else if symbol = 16 then
      match lengths.getLast? with
      | none => throw .corrupt
      | some last =>
        let n ← readNumber 2
        readLengths code wanted steps (lengths ++ List.replicate (3 + n) last)
    else
      let n ← if symbol = 17 then (3 + ·) <$> readNumber 3 else (11 + ·) <$> readNumber 7
      readLengths code wanted steps (lengths ++ List.replicate n 0)

/-- Reads the lengths of the words for lengths. -/
def readLengthLengths : List Nat → Reader (List (Nat × Nat))
  | [] => pure []
  | symbol :: symbols => do
    let length ← readNumber 3
    return (symbol, length) :: (← readLengthLengths symbols)

/-- How many symbols for bytes and repetitions there may be, and how many for distances. -/
def maxLiterals : Nat := 286
def maxDistances : Nat := 30

/-- Reads the codes that a block brings along. -/
def readCodes : Reader (Code × Code) := do
  let literalCount := 257 + (← readNumber 5)
  let distanceCount := 1 + (← readNumber 5)
  let lengthCount := 4 + (← readNumber 4)
  if maxLiterals < literalCount || maxDistances < distanceCount then throw .corrupt
  let pairs ← readLengthLengths (lengthOrder.take lengthCount)
  let code := Code.ofLengths ((List.range 19).map fun symbol => (pairs.lookup symbol).getD 0)
  if !code.isComplete then throw .corrupt
  let wanted := literalCount + distanceCount
  let lengths ← readLengths code wanted (wanted + 1) []
  let literals := Code.ofLengths (lengths.take literalCount)
  let distances := Code.ofLengths (lengths.drop literalCount)
  if !(literals.isUsable && distances.isUsable) then throw .corrupt
  pure (literals, distances)

/-- Passes over the bits that are left of the byte read last. -/
def align : Reader Unit := modify fun bits => bits.drop (bits.length % 8)

/-- Reads bytes as they are. -/
def readBytes : Nat → Array UInt8 → Reader (Array UInt8)
  | 0, output => pure output
  | n + 1, output => do readBytes n (output.push (← readNumber 8).toUInt8)

/-- A block of bytes as they are, from the next byte on, behind their number and its complement. -/
def storedBlock (output : Array UInt8) : Reader (Array UInt8) := do
  align
  let length ← readNumber 16
  let check ← readNumber 16
  if length + check ≠ 0xFFFF then throw .corrupt
  readBytes length output

/-- The blocks of data one after the other, the number of which is bounded by that of the bits. -/
def blocks : Nat → Array UInt8 → Reader (Array UInt8)
  | 0, _ => throw .incomplete
  | steps + 1, output => do
    let last ← readNumber 1
    let kind ← readNumber 2
    let output ← match kind with
      | 0 => storedBlock output
      | 1 => codedBlock fixedCodes output
      | 2 => codedBlock (← readCodes) output
      | _ => throw .corrupt
    if last = 1 then pure output else blocks steps output

/-- Inflates data. -/
def inflate (bytes : List UInt8) : Except StreamFault (Array UInt8) :=
  let bits := bitsOf bytes
  ((blocks (bits.length + 1) #[]).run bits).map (·.1)

end JvmArchive.Inflate
