import FreenetHarness.Parity.Format

/-! # A block from its seed

A block's bytes are expanded from sixteen random ones, so a file carries the seed and a
later role rebuilds the same block under the same key. The hash, the block crate's encoding
and the key of a contract are what the libraries give. -/
namespace FreenetHarness.Mint
open FreenetHarness.Lib.Text FreenetHarness.Lib.Number FreenetHarness.Parity

abbrev Bytes := List UInt8

/-- What minting takes from the libraries. -/
structure Crates where
  blake3 : Bytes → Bytes
  blake3_length : ∀ bytes, (blake3 bytes).length = 32
  /-- The kind of a raw block. -/
  raw : UInt8
  /-- A body of some kind, as a block's state: the kind takes one byte. -/
  encode : UInt8 → Bytes → Bytes
  encode_length : ∀ kind body, (encode kind body).length = body.length + 1
  /-- The instance id of a contract of this code and these parameters, as it prints. -/
  contractId : Bytes → Bytes → Str
  isWord_contractId : ∀ code params, IsWord (contractId code params)

/-- The expansion loop: one hash of the seed and a counter after another. -/
def bodyLoop (c : Crates) (seed : Seed) (size : Nat) (out : Bytes) (counter : UInt64) : Bytes :=
  if out.length < size then
    bodyLoop c seed size (out ++ c.blake3 (seed.bytes ++ toLeBytes counter)) (counter + 1)
  else out
termination_by size - out.length
decreasing_by
  rw [List.length_append, c.blake3_length]
  omega

/-- The body for a given seed and size. -/
def bodyFromSeed (c : Crates) (seed : Seed) (size : Nat) : Bytes :=
  (bodyLoop c seed size [] 0).take size

/-- A block that is ready to be put: its key and its state. -/
structure Minted where
  id : Str
  state : Bytes
  deriving DecidableEq

def mintSeeded (c : Crates) (code : Bytes) (seed : Seed) (size : Nat) : Minted :=
  let state := c.encode c.raw (bodyFromSeed c seed size)
  { id := c.contractId code (c.blake3 state), state }

theorem le_length_bodyLoop (c : Crates) (seed : Seed) (size : Nat) (out : Bytes)
    (counter : UInt64) : size ≤ (bodyLoop c seed size out counter).length := by
  fun_induction bodyLoop c seed size out counter with
  | case1 out counter h ih => exact ih
  | case2 out counter h => exact Nat.le_of_not_lt h

/-- The body has exactly the size asked for. -/
theorem length_bodyFromSeed (c : Crates) (seed : Seed) (size : Nat) :
    (bodyFromSeed c seed size).length = size := by
  rw [bodyFromSeed, List.length_take, min_eq_left (le_length_bodyLoop ..)]

/-- The state is one byte longer than the body. -/
theorem length_state (c : Crates) (code : Bytes) (seed : Seed) (size : Nat) :
    (mintSeeded c code seed size).state.length = size + 1 := by
  rw [mintSeeded, c.encode_length, length_bodyFromSeed]

theorem isWord_id (c : Crates) (code : Bytes) (seed : Seed) (size : Nat) :
    IsWord (mintSeeded c code seed size).id := c.isWord_contractId ..

end FreenetHarness.Mint
