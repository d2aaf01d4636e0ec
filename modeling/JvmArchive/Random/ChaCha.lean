/-!
# ChaCha with twelve rounds

A stream of random words from a seed: the key stream of the cipher ChaCha with twelve rounds, a block
counter of 64 bits and an empty nonce. The key is spread from the seed by a congruential generator.
-/
namespace JvmArchive.Random

/-- The state that the rounds of the cipher work on. -/
abbrev Block := Vector UInt32 16

def rotateLeft (x n : UInt32) : UInt32 := (x <<< n) ||| (x >>> (32 - n))

/-- Adds the second word to the first and turns the third, on which the sum is laid. -/
def mix (block : Block) (a b d : Fin 16) (n : UInt32) : Block :=
  let block := block.set a (block[a] + block[b])
  block.set d (rotateLeft (block[d] ^^^ block[a]) n)

def quarterRound (block : Block) (a b c d : Fin 16) : Block :=
  mix (mix (mix (mix block a b d 16) c d b 12) a b d 8) c d b 7

/-- Two rounds: over the columns of the block, then over its diagonals. -/
def doubleRound (block : Block) : Block :=
  let block := quarterRound block 0 4 8 12
  let block := quarterRound block 1 5 9 13
  let block := quarterRound block 2 6 10 14
  let block := quarterRound block 3 7 11 15
  let block := quarterRound block 0 5 10 15
  let block := quarterRound block 1 6 11 12
  let block := quarterRound block 2 7 8 13
  quarterRound block 3 4 9 14

/-- The words that every block starts with. -/
def constants : Vector UInt32 4 := #v[0x61707865, 0x3320646e, 0x79622d32, 0x6b206574]

/-- A block before the rounds: the constants, the key, the counter and the empty nonce. -/
def initialBlock (key : Vector UInt32 8) (counter : UInt64) : Block :=
  constants ++ key ++ #v[counter.toUInt32, (counter >>> 32).toUInt32, 0, 0]

/-- The words of a block of the key stream. -/
def keyBlock (key : Vector UInt32 8) (counter : UInt64) : Block :=
  let initial := initialBlock key counter
  let mixed := (List.range 6).foldl (fun block _ => doubleRound block) initial
  initial.zipWith (· + ·) mixed

/-- One step of the generator that spreads a seed: its next state and the word it gives, the upper bits
turned by the topmost ones. -/
def spread (state : UInt64) : UInt32 × UInt64 :=
  let state := state * 6364136223846793005 + 11634580027462260723
  let x := (((state >>> 18) ^^^ state) >>> 27).toUInt32
  let turn := (state >>> 59).toUInt32
  (rotateLeft x ((32 - turn) &&& 31), state)

/-- The first words that a seed is spread to. -/
def spreadWords : Nat → UInt64 → List UInt32
  | 0, _ => []
  | n + 1, state =>
    let (word, state) := spread state
    word :: spreadWords n state

theorem length_spreadWords (n : Nat) (state : UInt64) : (spreadWords n state).length = n := by
  induction n generalizing state with
  | zero => rfl
  | succ n ih => simp [spreadWords, ih]

def keyOfSeed (seed : UInt64) : Vector UInt32 8 :=
  ⟨(spreadWords 8 seed).toArray, by simp [length_spreadWords]⟩

/-- A place in a key stream. -/
structure Generator where
  key : Vector UInt32 8
  counter : UInt64 := 0
  /-- What is left of the block before the counter. -/
  pending : List UInt32 := []
  deriving Repr, DecidableEq, Inhabited

namespace Generator

def ofSeed (seed : UInt64) : Generator := { key := keyOfSeed seed }

/-- The next word. -/
def next (generator : Generator) : UInt32 × Generator :=
  match generator.pending with
  | word :: pending => (word, { generator with pending })
  | [] =>
    let block := keyBlock generator.key generator.counter
    (block[0],
      { generator with counter := generator.counter + 1, pending := block.toList.tail })

/-- After so many words the stream starts again, so a search over it that has not ended by then will
never end. -/
def period : Nat := 16 * UInt64.size

end Generator
end JvmArchive.Random
