import IsrTransfer.Data.Buffer

/-!
# Memory, as LZ4 uses it (`lib/lz4.c`)

The compressor and the decompressor read a block of memory and write to another.  Every access is
checked: one outside of the memory, or a `memcpy` between regions that overlap, is `outside`.  So
a result that says a function never ends in `outside` says that its accesses are in bounds.

The copies that write more than they have to (`LZ4_wildCopy8`, `LZ4_wildCopy32`) do so here too,
eight or thirty-two bytes at a time until they have reached the end.  That the bytes behind the
end are within the memory, and do no harm there, is for the callers to show.
-/

namespace IsrTransfer

open Buffer

/-- Why LZ4 stops early. -/
inductive Lz4Stop where
  /-- `_output_error` of the decompressor. -/
  | corrupt
  /-- `return 0` of the compressor. -/
  | noRoom
  /-- An access that is undefined. -/
  | outside
  /-- A loop that has used up its bound on iterations. -/
  | outOfFuel
  deriving DecidableEq

abbrev Lz4Run (α : Type) : Type := Except Lz4Stop α

/-- `MINMATCH`. -/
def lz4MinMatch : Nat := 4

/-- `LASTLITERALS`. -/
def lz4LastLiterals : Nat := 5

/-- `MFLIMIT`. -/
def lz4MfLimit : Nat := 12

/-- `MATCH_SAFEGUARD_DISTANCE`. -/
def lz4MatchSafeguardDistance : Nat := 12

/-- `FASTLOOP_SAFE_DISTANCE`. -/
def lz4FastLoopSafeDistance : Nat := 64

/-- `ML_MASK` and `RUN_MASK`. -/
def lz4Mask : Nat := 15

/-! ## Accesses to memory -/

/-- Where a copy reads from: the block, or what has been written. -/
inductive Lz4From where
  | block (src : List UInt8)
  | output

/-- One byte of the block. -/
def lz4Read (src : List UInt8) (ip : Nat) : Lz4Run UInt8 :=
  match src[ip]? with
  | some b => return b
  | none => throw .outside

/-- `n` bytes of a memory. -/
def lz4Load (src : List UInt8) (ip n : Nat) : Lz4Run (List UInt8) :=
  if ip + n ≤ src.length then return slice src ip n else throw .outside

/-- `LZ4_readLE16`. -/
def lz4ReadLE16 (src : List UInt8) (ip : Nat) : Lz4Run Nat := do
  let low ← lz4Read src ip
  let high ← lz4Read src (ip + 1)
  return low.toNat + 256 * high.toNat

/-- Write to the output. -/
def lz4Write (dst : List UInt8) (d : Nat) (bytes : List UInt8) : Lz4Run (List UInt8) :=
  if d + bytes.length ≤ dst.length then return splice dst d bytes else throw .outside

/-- `LZ4_memcpy` of `n` bytes from `s` to `d`. -/
def lz4Memcpy (src : Lz4From) (dst : List UInt8) (d s n : Nat) : Lz4Run (List UInt8) :=
  match src with
  | .block src => if s + n ≤ src.length then lz4Write dst d (slice src s n) else throw .outside
  | .output => if s + n ≤ d then lz4Write dst d (slice dst s n) else throw .outside

/-- `n` times `*op++ = *match++`. -/
def lz4CopyBytes (dst : List UInt8) (d s : Nat) : (n : Nat) → Lz4Run (List UInt8)
  | 0 => return dst
  | n + 1 => do
    let b ← lz4Read dst s
    lz4CopyBytes (← lz4Write dst d [b]) (d + 1) (s + 1) n

/-- `LZ4_wildCopy8`, with a bound on the iterations. -/
def lz4WildCopy8 (src : Lz4From) (e : Nat) : (fuel : Nat) → (dst : List UInt8) → (d s : Nat) →
    Lz4Run (List UInt8)
  | 0, _, _, _ => throw .outOfFuel
  | fuel + 1, dst, d, s => do
    let dst ← lz4Memcpy src dst d s 8
    if d + 8 < e then lz4WildCopy8 src e fuel dst (d + 8) (s + 8) else return dst

/-- `LZ4_wildCopy32`, with a bound on the iterations. -/
def lz4WildCopy32 (src : Lz4From) (e : Nat) : (fuel : Nat) → (dst : List UInt8) → (d s : Nat) →
    Lz4Run (List UInt8)
  | 0, _, _, _ => throw .outOfFuel
  | fuel + 1, dst, d, s => do
    let dst ← lz4Memcpy src dst d s 16
    let dst ← lz4Memcpy src dst (d + 16) (s + 16) 16
    if d + 32 < e then lz4WildCopy32 src e fuel dst (d + 32) (s + 32) else return dst

end IsrTransfer
