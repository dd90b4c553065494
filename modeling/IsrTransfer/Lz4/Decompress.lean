import IsrTransfer.Lz4.Memory

/-!
# Decompressing a block (`lib/lz4.c`, `LZ4_decompress_generic`)

The decoder as `LZ4_decompress_safe` instantiates it: a full block, no dictionary, on a machine
with 64-bit pointers for which `LZ4_FAST_DEC_LOOP` is set.  `src` is the memory of the block and
`srcSize` the length it is said to have; `dst` is the memory that is written to, and what it
holds before is arbitrary.

A label of the source that is jumped to is a function of its own; `Lz4Next` says where to go on.
The bodies of the two loops are functions too (`lz4FastSequence`, `lz4SafeSequence`), so that the
loops are one (`lz4DecodeSequences`): the fast one never comes back once it has been left.

Limits such as `iend - RUN_MASK` may lie before the beginning of the memory when the block is
short.  They are integers here, and are compared as such.
-/

namespace IsrTransfer

open Buffer

/-! ## Copying matches -/

def inc32table (offset : Nat) : Nat := [0, 1, 2, 1, 0, 4, 4, 4].getD offset 0

def dec64table (offset : Nat) : Int := [0, 0, 0, -1, -4, 1, 2, 3].getD offset 0

/-- The first eight bytes of a match whose offset is at most seven, from `s` to `d`; and where
the match goes on. -/
def lz4SpreadMatch (dst : List UInt8) (d s offset : Nat) : Lz4Run (List UInt8 × Nat) := do
  let dst ← lz4Write dst d [0, 0, 0, 0]
  let dst ← lz4CopyBytes dst d s 4
  let dst ← lz4Memcpy .output dst (d + 4) (s + inc32table offset) 4
  return (dst, ((s + inc32table offset : Nat) - dec64table offset).toNat)

/-- The first eight bytes of any match, as `LZ4_memcpy_using_offset_base` and the safe loop begin
to copy it. -/
def lz4BeginMatch (dst : List UInt8) (d s offset : Nat) : Lz4Run (List UInt8 × Nat) := do
  if offset < 8 then lz4SpreadMatch dst d s offset
  else
    let dst ← lz4Memcpy .output dst d s 8
    return (dst, s + 8)

/-- A match of at most eighteen bytes whose offset is eight at least. -/
def lz4ShortMatch (dst : List UInt8) (d s : Nat) : Lz4Run (List UInt8) := do
  let dst ← lz4Memcpy .output dst d s 8
  let dst ← lz4Memcpy .output dst (d + 8) (s + 8) 8
  lz4Memcpy .output dst (d + 16) (s + 16) 2

/-- `LZ4_memcpy_using_offset_base`. -/
def lz4MemcpyUsingOffsetBase (dst : List UInt8) (d s e offset : Nat) :
    Lz4Run (List UInt8) := do
  let (dst, s) ← lz4BeginMatch dst d s offset
  lz4WildCopy8 .output e (e - d) dst (d + 8) s

/-- The loop at the end of `LZ4_memcpy_using_offset`. -/
def lz4FillPattern (v : List UInt8) (e : Nat) : (fuel : Nat) → (dst : List UInt8) → (d : Nat) →
    Lz4Run (List UInt8)
  | 0, _, _ => throw .outOfFuel
  | fuel + 1, dst, d =>
    if d < e then do
      lz4FillPattern v e fuel (← lz4Write dst d v) (d + 8)
    else return dst

/-- `LZ4_memcpy_using_offset`. -/
def lz4MemcpyUsingOffset (dst : List UInt8) (d s e offset : Nat) : Lz4Run (List UInt8) := do
  if offset = 1 then
    let b ← lz4Read dst s
    let v := List.replicate 8 b
    lz4FillPattern v e (e - d) (← lz4Write dst d v) (d + 8)
  else if offset = 2 then
    let two ← lz4Load dst s 2
    let v := two ++ two ++ (two ++ two)
    lz4FillPattern v e (e - d) (← lz4Write dst d v) (d + 8)
  else if offset = 4 then
    let four ← lz4Load dst s 4
    let v := four ++ four
    lz4FillPattern v e (e - d) (← lz4Write dst d v) (d + 8)
  else lz4MemcpyUsingOffsetBase dst d s e offset

/-! ## Lengths -/

/-- The loop of `read_variable_length`. -/
def readVariableLengthLoop (src : List UInt8) (ilimit : Int) :
    (fuel : Nat) → (ip length : Nat) → Lz4Run (Nat × Nat)
  | 0, _, _ => throw .outOfFuel
  | fuel + 1, ip, length => do
    let s ← lz4Read src ip
    if ilimit < (ip + 1 : Nat) then throw .corrupt
    else if s = 255 then readVariableLengthLoop src ilimit fuel (ip + 1) (length + s.toNat)
    else return (length + s.toNat, ip + 1)

/-- `read_variable_length`: the length, and where reading goes on. -/
def readVariableLength (src : List UInt8) (ip : Nat) (ilimit : Int) (initialCheck : Bool) :
    Lz4Run (Nat × Nat) :=
  if initialCheck = true ∧ ilimit ≤ ip then throw .corrupt
  else readVariableLengthLoop src ilimit src.length ip 0

/-! ## The decoder

The two loops of `LZ4_decompress_generic` and the jumps between them.  Each label of the source
that is jumped to is a definition, and an iteration ends by saying where decoding goes on
(`Lz4Next`). -/

/-- Where decoding goes on: with the next sequence, in the fast loop or in the safe one, or
nowhere, `op` bytes having been written. -/
inductive Lz4Next where
  | fast (ip op : Nat) (dst : List UInt8)
  | safe (ip op : Nat) (dst : List UInt8)
  | done (op : Nat) (dst : List UInt8)
  deriving DecidableEq

section Decoder

variable (src : List UInt8) (srcSize : Int)

/-- The end of the safe loop's body: a match of `length` bytes for `op`, of which eight have been
copied; the others are at `s`. -/
def lz4EndMatch (ip op length : Nat) (dst : List UInt8) (s : Nat) : Lz4Run Lz4Next :=
  let cpy := op + length
  if dst.length < cpy + lz4MatchSafeguardDistance then
    if dst.length < cpy + lz4LastLiterals then throw .corrupt
    -- `oCopyLimit` is seven bytes before the end
    else if op + 8 + 7 < dst.length then do
      let dst' ← lz4WildCopy8 .output (dst.length - 7) dst.length dst (op + 8) s
      let dst' ← lz4CopyBytes dst' (dst.length - 7) (s + (dst.length - 7 - (op + 8)))
        (cpy - (dst.length - 7))
      return .safe ip cpy dst'
    else do
      return .safe ip cpy (← lz4CopyBytes dst (op + 8) s (cpy - (op + 8)))
  else do
    let dst ← lz4Memcpy .output dst (op + 8) s 8
    if 16 < length then
      return .safe ip cpy (← lz4WildCopy8 .output cpy length dst (op + 16) (s + 8))
    else return .safe ip cpy dst

/-- From `safe_match_copy` on; `length` is that of the match. -/
def lz4SafeMatchCopy (ip op offset length : Nat) (dst : List UInt8) : Lz4Run Lz4Next :=
  -- the match begins before the output
  if op < offset then throw .corrupt
  else do
    let (dst, s) ← lz4BeginMatch dst op (op - offset) offset
    lz4EndMatch ip op length dst s

/-- From `_copy_match` on; `length` is what the token says. -/
def lz4CopyMatch (ip op offset length : Nat) (dst : List UInt8) : Lz4Run Lz4Next := do
  if length = lz4Mask then
    let (addl, ip) ← readVariableLength src ip (srcSize - 4) false
    lz4SafeMatchCopy ip op offset (length + addl + lz4MinMatch) dst
  else lz4SafeMatchCopy ip op offset (length + lz4MinMatch) dst

/-- From `safe_literal_copy` on. -/
def lz4SafeLiteralCopy (token length ip op : Nat) (dst : List UInt8) : Lz4Run Lz4Next :=
  if dst.length < op + length + lz4MfLimit ∨ srcSize < (ip + length + 8 : Nat) then
    if (ip + length : Nat) ≠ srcSize ∨ dst.length < op + length then throw .corrupt
    else do
      return .done (op + length) (← lz4Memcpy (.block src) dst op ip length)
  else do
    let dst ← lz4WildCopy8 (.block src) (op + length) (length + 1) dst op ip
    let offset ← lz4ReadLE16 src (ip + length)
    lz4CopyMatch src srcSize (ip + length + 2) (op + length) offset (token % 16) dst

/-- The second stage of the safe loop's shortcut. -/
def lz4ShortcutMatch (token ip op : Nat) (dst : List UInt8) : Lz4Run Lz4Next := do
  let offset ← lz4ReadLE16 src ip
  if token % 16 ≠ lz4Mask ∧ 8 ≤ offset ∧ offset ≤ op then
    return .safe (ip + 2) (op + (token % 16 + lz4MinMatch))
      (← lz4ShortMatch dst op (op - offset))
  else lz4CopyMatch src srcSize (ip + 2) op offset (token % 16) dst

/-- The two-stage shortcut of the safe loop. -/
def lz4Shortcut (token ip op : Nat) (dst : List UInt8) : Lz4Run Lz4Next := do
  let dst ← lz4Memcpy (.block src) dst op ip 16
  lz4ShortcutMatch src srcSize token (ip + token / 16) (op + token / 16) dst

/-- An iteration of the safe loop. -/
def lz4SafeSequence (ip op : Nat) (dst : List UInt8) : Lz4Run Lz4Next := do
  let token := (← lz4Read src ip).toNat
  let ip := ip + 1
  let length := token / 16
  if length ≠ lz4Mask ∧ (ip + 16 : Nat) < srcSize ∧ op + 32 ≤ dst.length then
    lz4Shortcut src srcSize token ip op dst
  else if length = lz4Mask then
    let (addl, ip) ← readVariableLength src ip (srcSize - 15) true
    lz4SafeLiteralCopy src srcSize token (length + addl) ip op dst
  else lz4SafeLiteralCopy src srcSize token length ip op dst

/-- The end of an iteration of the fast loop: a match that ends far before the output does. -/
def lz4FastMatchCopy (ip op offset length : Nat) (dst : List UInt8) : Lz4Run Lz4Next :=
  if op < offset then throw .corrupt
  else do
    let cpy := op + length
    if offset < 16 then
      return .fast ip cpy (← lz4MemcpyUsingOffset dst op (op - offset) cpy offset)
    else return .fast ip cpy (← lz4WildCopy32 .output cpy length dst op (op - offset))

/-- The second half of an iteration of the fast loop, from `get offset` on. -/
def lz4FastMatch (token ip op : Nat) (dst : List UInt8) : Lz4Run Lz4Next := do
  let offset ← lz4ReadLE16 src ip
  let ip := ip + 2
  if token % 16 = lz4Mask then
    let (addl, ip) ← readVariableLength src ip (srcSize - 4) false
    let length := token % 16 + addl + lz4MinMatch
    if dst.length ≤ op + length + lz4FastLoopSafeDistance then
      lz4SafeMatchCopy ip op offset length dst
    else lz4FastMatchCopy ip op offset length dst
  else
    let length := token % 16 + lz4MinMatch
    if dst.length ≤ op + length + lz4FastLoopSafeDistance then
      lz4SafeMatchCopy ip op offset length dst
    else if offset ≤ op ∧ 8 ≤ offset then
      return .fast ip (op + length) (← lz4ShortMatch dst op (op - offset))
    else lz4FastMatchCopy ip op offset length dst

/-- An iteration of the fast loop. -/
def lz4FastSequence (ip op : Nat) (dst : List UInt8) : Lz4Run Lz4Next := do
  let token := (← lz4Read src ip).toNat
  let ip := ip + 1
  let length := token / 16
  if length = lz4Mask then
    let (addl, ip) ← readVariableLength src ip (srcSize - 15) true
    let length := length + addl
    if dst.length < op + length + 32 ∨ srcSize < (ip + length + 32 : Nat) then
      lz4SafeLiteralCopy src srcSize token length ip op dst
    else
      let dst ← lz4WildCopy32 (.block src) (op + length) length dst op ip
      lz4FastMatch src srcSize token (ip + length) (op + length) dst
  else if (ip + 17 : Nat) ≤ srcSize then
    let dst ← lz4Memcpy (.block src) dst op ip 16
    lz4FastMatch src srcSize token (ip + length) (op + length) dst
  else lz4SafeLiteralCopy src srcSize token length ip op dst

/-- One sequence after the other: the number of bytes written, and the output. -/
def lz4DecodeSequences : (fuel : Nat) → Lz4Next → Lz4Run (Nat × List UInt8)
  | _, .done op dst => return (op, dst)
  | 0, _ => throw .outOfFuel
  | fuel + 1, .fast ip op dst => do
    lz4DecodeSequences fuel (← lz4FastSequence src srcSize ip op dst)
  | fuel + 1, .safe ip op dst => do
    lz4DecodeSequences fuel (← lz4SafeSequence src srcSize ip op dst)

/-- `LZ4_decompress_generic`; every sequence takes a byte at least. -/
def lz4DecompressGeneric (dst : List UInt8) : Lz4Run (Nat × List UInt8) :=
  if dst.length = 0 then
    if srcSize ≠ 1 then throw .corrupt
    else do
      if (← lz4Read src 0) = 0 then return (0, dst) else throw .corrupt
  else if srcSize = 0 then throw .corrupt
  else if dst.length < lz4FastLoopSafeDistance then
    lz4DecodeSequences src srcSize (src.length + 1) (.safe 0 0 dst)
  else lz4DecodeSequences src srcSize (src.length + 1) (.fast 0 0 dst)

end Decoder

/-- `LZ4_decompress_safe` into memory that holds `dst`.  A negative result is `corrupt`. -/
def lz4DecompressSafe (src : List UInt8) (compressedSize maxDecompressedSize : Int)
    (dst : List UInt8) : Lz4Run (Nat × List UInt8) :=
  if maxDecompressedSize < 0 then throw .corrupt
  else lz4DecompressGeneric src compressedSize (dst.take maxDecompressedSize.toNat)

end IsrTransfer
