/-! # Random words

A seed determines a sequence of 32-bit words: the key stream of ChaCha with eight rounds, whose key
is expanded from the seed by a permuted congruential generator. A source of randomness is a position
in such a sequence.
-/
namespace Petri.Random
set_option autoImplicit false

/-- Shifts take their amount modulo 32, so a rotation by 0 is the identity. -/
def rotateLeft (w n : UInt32) : UInt32 := (w <<< n) ||| (w >>> (32 - n))

def rotateRight (w n : UInt32) : UInt32 := (w >>> n) ||| (w <<< (32 - n))

/-! ## Keys -/

def expand (state : UInt64) : UInt64 := state * 6364136223846793005 + 11634580027462260723

def permute (state : UInt64) : UInt32 :=
  rotateRight (((state >>> 18) ^^^ state) >>> 27).toUInt32 (state >>> 59).toUInt32

def keyWords : Nat → UInt64 → List UInt32
  | 0, _ => []
  | n + 1, state => permute (expand state) :: keyWords n (expand state)

def key (seed : Nat) : List UInt32 := keyWords 8 seed.toUInt64

/-! ## Blocks -/

/-- Four words; a block has four such rows. -/
structure Row where
  a : UInt32
  b : UInt32
  c : UInt32
  d : UInt32
  deriving DecidableEq

namespace Row

def map (f : UInt32 → UInt32) (r : Row) : Row := ⟨f r.a, f r.b, f r.c, f r.d⟩

def zip (f : UInt32 → UInt32 → UInt32) (r s : Row) : Row :=
  ⟨f r.a s.a, f r.b s.b, f r.c s.c, f r.d s.d⟩

/-- Moves each word one place to the front, the first to the end. -/
def turn (r : Row) : Row := ⟨r.b, r.c, r.d, r.a⟩

def words (r : Row) : List UInt32 := [r.a, r.b, r.c, r.d]

def ofWords : List UInt32 → Row
  | [a, b, c, d] => ⟨a, b, c, d⟩
  | _ => ⟨0, 0, 0, 0⟩

end Row

structure Block where
  r0 : Row
  r1 : Row
  r2 : Row
  r3 : Row
  deriving DecidableEq

namespace Block

def columns (x : Block) : Block :=
  let half (m n : UInt32) (x : Block) : Block :=
    let r0 := x.r0.zip (· + ·) x.r1
    let r3 := (x.r3.zip (· ^^^ ·) r0).map (rotateLeft · m)
    let r2 := x.r2.zip (· + ·) r3
    let r1 := (x.r1.zip (· ^^^ ·) r2).map (rotateLeft · n)
    ⟨r0, r1, r2, r3⟩
  half 8 7 (half 16 12 x)

/-- Puts the diagonals where the columns are. -/
def slant (x : Block) : Block := ⟨x.r0, x.r1.turn, x.r2.turn.turn, x.r3.turn.turn.turn⟩

def unslant (x : Block) : Block := ⟨x.r0, x.r1.turn.turn.turn, x.r2.turn.turn, x.r3.turn⟩

def doubleRound (x : Block) : Block := x.columns.slant.columns.unslant

def add (x y : Block) : Block :=
  ⟨x.r0.zip (· + ·) y.r0, x.r1.zip (· + ·) y.r1, x.r2.zip (· + ·) y.r2, x.r3.zip (· + ·) y.r3⟩

def words (x : Block) : List UInt32 := x.r0.words ++ x.r1.words ++ x.r2.words ++ x.r3.words

/-- Block `n` before the rounds: constants, key and block number. -/
def start (key : List UInt32) (n : Nat) : Block where
  r0 := ⟨0x61707865, 0x3320646e, 0x79622d32, 0x6b206574⟩
  r1 := Row.ofWords (key.take 4)
  r2 := Row.ofWords (key.drop 4)
  r3 := ⟨n.toUInt32, (n >>> 32).toUInt32, 0, 0⟩

def ofKey (key : List UInt32) (n : Nat) : Block :=
  let x := start key n
  (x.doubleRound.doubleRound.doubleRound.doubleRound).add x

end Block

/-! ## Sources -/

structure Source where
  key : List UInt32
  /-- The words of the current block that are still to be taken. -/
  pending : List UInt32 := []
  block : Nat := 0
  deriving DecidableEq

namespace Source

def ofSeed (seed : Nat) : Source := { key := Random.key seed }

def draw (source : Source) : Nat × Source :=
  match source.pending with
  | word :: rest => (word.toNat, { source with pending := rest })
  | [] =>
    let block := Block.ofKey source.key source.block
    (block.r0.a.toNat,
      { source with pending := block.words.tail, block := source.block + 1 })

end Source
end Petri.Random
