import IsrTransfer.Transport

/-!
# The data stream (`lib/isr.c`, file transmission and reception)

A file travels as its bytes followed by eight bytes of checksum, either as they are or cut into
blocks, each compressed on its own and preceded by its compressed length.  The sender reads until
the end of the file; the receiver counts down from the length it was told.

LZ4 is a parameter here.  `Lz4` records what its header promises of every call, that no more is
written than the destination holds; that decompression undoes compression is a separate
hypothesis, `Lz4.RoundTrip`, for those results that need it.  The functions of `lib/lz4.c` are
embedded elsewhere, and satisfy both.

## Bounds on the loops

The loops that receive without compression count down, and are given the length as their bound.
The senders end when a read gives nothing, and the receiver of compressed data may wrap around in
its subtraction and go on, so these take their bound from outside as `fuel`.  A loop that has used
it up spins (`outOfFuel`) and returns nothing, so no result about what a function returns is true
for lack of fuel; where it matters that it returns, enough fuel is part of the statement.
-/

namespace IsrTransfer

open Effect Posix

/-- The two functions of LZ4 that are used. -/
structure Lz4 where
  /-- `LZ4_compress_default`: the compressed bytes, none if it fails. -/
  compressDefault : (src : List UInt8) → (dstCapacity : Nat) → List UInt8
  /-- `LZ4_decompress_safe`: `none` is a negative result. -/
  decompressSafe : (src : List UInt8) → (compressedSize dstCapacity : Int) →
    Option (List UInt8)
  compressDefault_le : ∀ src cap, (compressDefault src cap).length ≤ cap
  decompressSafe_le : ∀ src size cap out,
    decompressSafe src size cap = some out → (out.length : Int) ≤ cap

/-- `LZ4_MAX_INPUT_SIZE`. -/
def lz4MaxInputSize : Nat := 0x7E000000

/-- `LZ4_compressBound` of a `uint32_t`, which is passed as an `int` and compared
as an `unsigned`. -/
def lz4CompressBound (isize : Nat) : Nat :=
  if lz4MaxInputSize < isize then 0 else isize + isize / 255 + 16

/-- Blocks of at most `blockSize` bytes compress, and decompress to themselves. -/
def Lz4.RoundTrip (L : Lz4) (blockSize : Nat) : Prop :=
  ∀ src : List UInt8, src ≠ [] → src.length ≤ blockSize →
    L.compressDefault src (lz4CompressBound blockSize) ≠ [] ∧
      L.decompressSafe (L.compressDefault src (lz4CompressBound blockSize))
        (L.compressDefault src (lz4CompressBound blockSize)).length blockSize = some src

/-- LZ4 on blocks of at most twelve bytes, which are too short to hold a match: a
token with the length in its upper half, and the bytes themselves. -/
def shortLz4 : Lz4 where
  compressDefault src cap :=
    if src.length ≤ 12 ∧ src.length < cap then UInt8.ofNat (16 * src.length) :: src else []
  decompressSafe src size cap :=
    match src with
    | [] => none
    | token :: literals =>
      if size = literals.length + 1 ∧ literals.length = token.toNat / 16 ∧
          literals.length < 15 ∧ (literals.length : Int) ≤ cap then some literals
      else none
  compressDefault_le src cap := by
    split
    · rename_i h
      exact Nat.succ_le_of_lt h.2
    · exact Nat.zero_le _
  decompressSafe_le src size cap out h := by
    split at h
    · exact absurd h (by simp)
    · split at h
      · rename_i hc
        rw [← Option.some.inj h]
        exact hc.2.2.2
      · exact absurd h (by simp)

theorem shortLz4_roundTrip {blockSize : Nat} (h : blockSize ≤ 12) :
    shortLz4.RoundTrip blockSize := by
  intro src hne hlen
  have hcap : src.length < lz4CompressBound blockSize := by
    unfold lz4CompressBound lz4MaxInputSize
    rw [if_neg (by omega)]
    omega
  have hc : shortLz4.compressDefault src (lz4CompressBound blockSize) =
      UInt8.ofNat (16 * src.length) :: src := if_pos ⟨by omega, hcap⟩
  have htoken : (UInt8.ofNat (16 * src.length)).toNat / 16 = src.length := by
    rw [UInt8.toNat_ofNat']
    omega
  rw [hc]
  refine ⟨List.cons_ne_nil _ _, if_pos ⟨?_, ?_, by omega, by omega⟩⟩
  · rw [List.length_cons]
    omega
  · exact htoken.symm

/-! ## Sending -/

/-- The loop of `isr_transmit_file_uncompressed`. -/
def isrTransmitFileUncompressedLoop (fd : Fd) : (fuel checksum : Nat) → Prog Int
  | 0, _ => outOfFuel
  | fuel + 1, checksum => do
    match ← isrRead fd isrIoBufsize with
    | none => return -1
    | some [] =>
      if (← netSendExact (toBe 8 checksum)) = -1 then return -1
      return toInt64 checksum
    | some (b :: buffer) =>
      let checksum := (checksum + isrCountByteValues (b :: buffer)) % word64
      if (← netSendExact (b :: buffer)) = -1 then return -1
      isrTransmitFileUncompressedLoop fd fuel checksum

/-- `isr_transmit_file_uncompressed`; `fuel` bounds the number of reads. -/
def isrTransmitFileUncompressed (fuel : Nat) (fd : Fd) : Prog Int :=
  isrTransmitFileUncompressedLoop fd fuel 0

/-- The loop of `isr_transmit_file_compressed`.  It ends alike at the end of the
file and after an error. -/
def isrTransmitFileCompressedLoop (L : Lz4) (fd : Fd) (uncompressedBlockSize : Nat) :
    (fuel checksum : Nat) → Prog Int
  | 0, _ => outOfFuel
  | fuel + 1, checksum => do
    match ← isrRead fd uncompressedBlockSize with
    | some (b :: buffer) =>
      let checksum := (checksum + isrCountByteValues (b :: buffer)) % word64
      let compressed :=
        L.compressDefault (b :: buffer) (lz4CompressBound uncompressedBlockSize)
      if compressed = [] then return -1
      if (← netSendExact (toBe 4 compressed.length)) = -1 then return -1
      if (← netSendExact compressed) = -1 then return -1
      isrTransmitFileCompressedLoop L fd uncompressedBlockSize fuel checksum
    | _ =>
      if (← netSendExact (toBe 8 checksum)) = -1 then return -1
      return toInt64 checksum

/-- `isr_transmit_file_compressed`. -/
def isrTransmitFileCompressed (L : Lz4) (fuel : Nat) (fd : Fd)
    (uncompressedBlockSize : Nat) : Prog Int := do
  if (← sysCall (.malloc uncompressedBlockSize)) = false then return -1
  if (← sysCall (.malloc (lz4CompressBound uncompressedBlockSize))) = false then return -1
  isrTransmitFileCompressedLoop L fd uncompressedBlockSize fuel 0

/-! ## Receiving -/

/-- The end of both receivers: read the checksum and compare. -/
def isrReceiveChecksum (checksum : Nat) : Prog Int := do
  match ← netRecvExact 8 8 with
  | none => return -1
  | some wireChecksum =>
    if ofBe wireChecksum ≠ checksum then return -2
    return toInt64 checksum

/-- The loop of `isr_receive_file_uncompressed`; each iteration makes `remaining`
smaller. -/
def isrReceiveFileUncompressedLoop (fd : Fd) :
    (fuel remaining checksum : Nat) → Prog Int
  | _, 0, checksum => isrReceiveChecksum checksum
  | 0, _ + 1, _ => outOfFuel
  | fuel + 1, remaining + 1, checksum => do
    let toRead := if remaining + 1 < isrIoBufsize then remaining + 1 else isrIoBufsize
    match ← netRecvExact isrIoBufsize toRead with
    | none => return -1
    | some buffer =>
      let checksum := (checksum + isrCountByteValues buffer) % word64
      if (← isrWriteAll fd buffer) = -1 then return -1
      isrReceiveFileUncompressedLoop fd fuel (remaining + 1 - toRead) checksum

/-- `isr_receive_file_uncompressed`. -/
def isrReceiveFileUncompressed (fd : Fd) (effectiveLength : Nat) : Prog Int :=
  isrReceiveFileUncompressedLoop fd effectiveLength effectiveLength 0

/-- The loop of `isr_receive_file_compressed`.  The subtraction is that of
`uint64_t`, so `remaining` may wrap around. -/
def isrReceiveFileCompressedLoop (L : Lz4) (fd : Fd) (uncompressedBlockSize : Nat) :
    (fuel remaining checksum : Nat) → Prog Int
  | _, 0, checksum => isrReceiveChecksum checksum
  | 0, _ + 1, _ => outOfFuel
  | fuel + 1, remaining + 1, checksum => do
    match ← netRecvExact 4 4 with
    | none => return -1
    | some blockSize =>
      match ← netRecvExact (lz4CompressBound uncompressedBlockSize) (ofBe blockSize) with
      | none => return -1
      | some compressed =>
        match L.decompressSafe compressed (toInt32 (ofBe blockSize))
            (toInt32 uncompressedBlockSize) with
        | some (b :: out) =>
          let checksum := (checksum + isrCountByteValues (b :: out)) % word64
          if (← isrWriteAll fd (b :: out)) = -1 then return -1
          isrReceiveFileCompressedLoop L fd uncompressedBlockSize fuel
            ((remaining + 1 + word64 - (b :: out).length) % word64) checksum
        | _ => return -1

/-- `isr_receive_file_compressed`; `fuel` bounds the number of blocks. -/
def isrReceiveFileCompressed (L : Lz4) (fuel : Nat) (fd : Fd)
    (uncompressedBlockSize effectiveLength : Nat) : Prog Int := do
  if (← sysCall (.malloc (lz4CompressBound uncompressedBlockSize))) = false then return -1
  if (← sysCall (.malloc uncompressedBlockSize)) = false then return -1
  isrReceiveFileCompressedLoop L fd uncompressedBlockSize fuel effectiveLength 0

end IsrTransfer
