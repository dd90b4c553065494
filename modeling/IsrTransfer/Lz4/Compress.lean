import IsrTransfer.Lz4.Memory
import IsrTransfer.Stream

/-!
# Compressing a block (`lib/lz4.c`, `LZ4_compress_generic_validated`)

The compressor as `LZ4_compress_default` instantiates it: no dictionary, no acceleration, on a
little-endian machine with 64-bit pointers.  `src` is the input and nothing else; `dst` is the
memory that is written to, as long as the capacity that is passed.

Positions are counted from the beginning of the input, as the indexes in the hash table are.  A
label that is jumped to is a phase of its own (`Lz4Phase`).

There are two kinds of tables, for inputs that are short enough to have indexes of sixteen bits
and for others, and two kinds of output: memory that is large enough for whatever comes out, and
memory in which every write has to be looked at before.  They are parameters here as they are
constants in the source, where the function is expanded four times.

The loops have bounds on their iterations, and reading or writing outside of the memory is a
result like the others.  That neither occurs is shown afterwards (`lz4CompressDefault_content`).
-/

namespace IsrTransfer

open Buffer

/-- `LZ4_DISTANCE_MAX`. -/
def lz4DistanceMax : Nat := 65535

/-- `LZ4_64Klimit`. -/
def lz464KLimit : Nat := 65536 + (lz4MfLimit - 1)

/-- `LZ4_minLength`. -/
def lz4MinLength : Nat := lz4MfLimit + 1

/-- `tableType_t`, of which only these occur. -/
inductive Lz4TableType where
  | byU32
  | byU16
  deriving DecidableEq

/-! ## The hash table -/

def ofLe : List UInt8 → Nat
  | [] => 0
  | b :: bs => b.toNat + 256 * ofLe bs

/-- `LZ4_HASHLOG`, and one more for small indexes. -/
def lz4HashLog : Lz4TableType → Nat
  | .byU32 => 12
  | .byU16 => 13

/-- `LZ4_hash4`. -/
def lz4Hash4 (sequence : Nat) (tableType : Lz4TableType) : Nat :=
  sequence * 2654435761 % 2 ^ 32 / 2 ^ (32 - lz4HashLog tableType)

/-- `LZ4_hash5`. -/
def lz4Hash5 (sequence : Nat) (tableType : Lz4TableType) : Nat :=
  sequence * 2 ^ 24 % 2 ^ 64 * 889523592379 % 2 ^ 64 / 2 ^ (64 - lz4HashLog tableType)

/-- `LZ4_hashPosition`. -/
def lz4HashPosition (src : List UInt8) (p : Nat) (tableType : Lz4TableType) : Lz4Run Nat := do
  if tableType ≠ .byU16 then return lz4Hash5 (ofLe (← lz4Load src p 8)) tableType
  else return lz4Hash4 (ofLe (← lz4Load src p 4)) tableType

/-- The values an entry can hold. -/
def lz4EntrySize : Lz4TableType → Nat
  | .byU32 => 2 ^ 32
  | .byU16 => 2 ^ 16

/-- `LZ4_putIndexOnHash`. -/
def lz4PutIndexOnHash (idx h : Nat) (table : List Nat) (tableType : Lz4TableType) :
    Lz4Run (List Nat) :=
  if h < table.length then return table.set h (idx % lz4EntrySize tableType) else throw .outside

/-- `LZ4_getIndexOnHash`. -/
def lz4GetIndexOnHash (h : Nat) (table : List Nat) : Lz4Run Nat :=
  match table[h]? with
  | some idx => return idx
  | none => throw .outside

section Compress

variable (src : List UInt8)

/-! ## Finding a match -/

/-- The loop of "Find a match", with a bound on the iterations: where the match begins, what it
repeats, and the table; or nothing, near the end of the input. -/
def lz4FindMatch (tableType : Lz4TableType) : (fuel : Nat) → (table : List Nat) →
    (forwardIp step searchMatchNb forwardH : Nat) → Lz4Run (Option (Nat × Nat × List Nat))
  | 0, _, _, _, _, _ => throw .outOfFuel
  | fuel + 1, table, ip, step, searchMatchNb, h => do
    let matchIndex ← lz4GetIndexOnHash h table
    -- `forwardIp` is past `mflimitPlusOne`
    if src.length + 1 < ip + step + lz4MfLimit then return none
    else
      let forwardH ← lz4HashPosition src (ip + step) tableType
      let table ← lz4PutIndexOnHash ip h table tableType
      if tableType ≠ .byU16 ∧ matchIndex + lz4DistanceMax < ip then
        lz4FindMatch tableType fuel table (ip + step) (searchMatchNb / 64) (searchMatchNb + 1)
          forwardH
      else if (← lz4Load src matchIndex 4) = (← lz4Load src ip 4) then
        return some (ip, matchIndex, table)
      else
        lz4FindMatch tableType fuel table (ip + step) (searchMatchNb / 64) (searchMatchNb + 1)
          forwardH

/-- The loop of "Catch up". -/
def lz4CatchUpLoop (anchor : Nat) : (ip m : Nat) → Lz4Run (Nat × Nat)
  | ip, 0 => return (ip, 0)
  | ip, m + 1 => do
    if anchor < ip then
      if (← lz4Read src (ip - 1)) = (← lz4Read src m) then lz4CatchUpLoop anchor (ip - 1) m
      else return (ip, m + 1)
    else return (ip, m + 1)

/-- "Catch up": the beginning of a match is moved back. -/
def lz4CatchUp (anchor ip m : Nat) : Lz4Run (Nat × Nat) := do
  if 0 < m then
    if (← lz4Read src (ip - 1)) = (← lz4Read src (m - 1)) then
      lz4CatchUpLoop src anchor (ip - 1) (m - 1)
    else return (ip, m)
  else return (ip, m)

/-- `LZ4_NbCommonBytes` of the difference of two words. -/
def lz4NbCommonBytes : (a b : List UInt8) → Nat
  | x :: a, y :: b => if x = y then lz4NbCommonBytes a b + 1 else 0
  | _, _ => 0

/-- A comparison at the end of `LZ4_count`, of `n` bytes. -/
def lz4CountStep (limit n pIn pMatch : Nat) : Lz4Run (Nat × Nat) := do
  if pIn + n ≤ limit then
    if (← lz4Load src pMatch n) = (← lz4Load src pIn n) then return (pIn + n, pMatch + n)
    else return (pIn, pMatch)
  else return (pIn, pMatch)

/-- The loop of `LZ4_count` and what follows it: where the match ends. -/
def lz4CountLoop (limit : Nat) : (fuel pIn pMatch : Nat) → Lz4Run Nat
  | 0, _, _ => throw .outOfFuel
  | fuel + 1, pIn, pMatch => do
    if pIn + 7 < limit then
      let a ← lz4Load src pMatch 8
      let b ← lz4Load src pIn 8
      if a = b then lz4CountLoop limit fuel (pIn + 8) (pMatch + 8)
      else return pIn + lz4NbCommonBytes a b
    else
      let (pIn, pMatch) ← lz4CountStep src limit 4 pIn pMatch
      let (pIn, pMatch) ← lz4CountStep src limit 2 pIn pMatch
      let (pIn, _) ← lz4CountStep src limit 1 pIn pMatch
      return pIn

/-- `LZ4_count`. -/
def lz4Count (pIn pMatch limit : Nat) : Lz4Run Nat := do
  return (← lz4CountLoop src limit (limit + 1) pIn pMatch) - pIn

/-! ## Writing a sequence -/

/-- The bytes that the loop for a length writes. -/
def lz4LengthBytes (len : Nat) : List UInt8 :=
  if 255 ≤ len then 255 :: lz4LengthBytes (len - 255) else [UInt8.ofNat len]
termination_by len

/-- The token of a sequence, and the rest of its number of literals. -/
def lz4EncodeRun (litLength op : Nat) (dst : List UInt8) : Lz4Run (Nat × List UInt8) := do
  if lz4Mask ≤ litLength then
    let dst ← lz4Write dst op [UInt8.ofNat (16 * lz4Mask)]
    let bytes := lz4LengthBytes (litLength - lz4Mask)
    return (op + 1 + bytes.length, ← lz4Write dst (op + 1) bytes)
  else return (op + 1, ← lz4Write dst op [UInt8.ofNat (16 * litLength)])

/-- "Encode Literals": those from `anchor` to `ip`. -/
def lz4EncodeLiterals (limitedOutput : Bool) (anchor ip op : Nat) (dst : List UInt8) :
    Lz4Run (Nat × List UInt8) :=
  let litLength := ip - anchor
  if limitedOutput = true ∧
      dst.length < op + 1 + litLength + (2 + 1 + lz4LastLiterals) + litLength / 255 then
    throw .noRoom
  else do
    let (op, dst) ← lz4EncodeRun litLength op dst
    return (op + litLength,
      ← lz4WildCopy8 (.block src) (op + litLength) (litLength + 1) dst op anchor)

/-- `*token += n`. -/
def lz4AddToToken (t n : Nat) (dst : List UInt8) : Lz4Run (List UInt8) := do
  lz4Write dst t [(← lz4Read dst t) + UInt8.ofNat n]

/-- The loop for the length of a match, four bytes at a time. -/
def lz4MatchLengthLoop : (fuel matchCode op : Nat) → (dst : List UInt8) →
    Lz4Run (Nat × Nat × List UInt8)
  | 0, _, _, _ => throw .outOfFuel
  | fuel + 1, matchCode, op, dst => do
    if 4 * 255 ≤ matchCode then
      lz4MatchLengthLoop fuel (matchCode - 4 * 255) (op + 4)
        (← lz4Write dst (op + 4) [255, 255, 255, 255])
    else return (matchCode, op, dst)

/-- The length of a match, into its token and behind its offset. -/
def lz4EncodeMatchLength (matchCode t op : Nat) (dst : List UInt8) : Lz4Run (Nat × List UInt8) := do
  if lz4Mask ≤ matchCode then
    let dst ← lz4AddToToken t lz4Mask dst
    let dst ← lz4Write dst op [255, 255, 255, 255]
    let (matchCode, op, dst) ← lz4MatchLengthLoop matchCode (matchCode - lz4Mask) op dst
    let op := op + matchCode / 255
    return (op + 1, ← lz4Write dst op [UInt8.ofNat (matchCode % 255)])
  else return (op, ← lz4AddToToken t matchCode dst)

/-- From `_next_match` to the end of "Encode MatchLength": where the match ends in the input, and
in the output. -/
def lz4EncodeMatch (limitedOutput : Bool) (ip m t op : Nat) (dst : List UInt8) :
    Lz4Run (Nat × Nat × List UInt8) := do
  let dst ← lz4Write dst op [UInt8.ofNat (ip - m), UInt8.ofNat ((ip - m) / 256)]
  let matchCode ← lz4Count src (ip + lz4MinMatch) (m + lz4MinMatch) (src.length - lz4LastLiterals)
  if limitedOutput = true ∧
      dst.length < op + 2 + (1 + lz4LastLiterals) + (matchCode + 240) / 255 then throw .noRoom
  else
    let (op, dst) ← lz4EncodeMatchLength matchCode t (op + 2) dst
    return (ip + matchCode + lz4MinMatch, op, dst)

/-- `_last_literals`: the number of bytes in the output, and the output. -/
def lz4LastLiteralRun (limitedOutput : Bool) (anchor op : Nat) (dst : List UInt8) :
    Lz4Run (Nat × List UInt8) :=
  let lastRun := src.length - anchor
  if limitedOutput = true ∧ dst.length < op + lastRun + 1 + (lastRun + 255 - lz4Mask) / 255 then
    throw .noRoom
  else do
    let (op, dst) ← lz4EncodeRun lastRun op dst
    return (op + lastRun, ← lz4Memcpy (.block src) dst op anchor lastRun)

/-! ## The compressor -/

inductive Lz4Phase where
  /-- At the top of the main loop, at `ip`, whose hash is `forwardH`. -/
  | findMatch (ip forwardH : Nat)
  /-- At `_next_match`: what is at `m` is repeated at `ip`, and the token is at `t`. -/
  | nextMatch (ip m t : Nat)
  /-- At `_last_literals`. -/
  | lastLiterals

/-- The other variables: the end of the sequences so far in the input and in the output, the output
and the hash table. -/
structure Lz4State where
  anchor : Nat
  op : Nat
  dst : List UInt8
  table : List Nat

/-- "Prepare next loop", after a match that ended at `ip`. -/
def lz4PrepareNextLoop (tableType : Lz4TableType) (ip : Nat) (s : Lz4State) :
    Lz4Run (Lz4Phase × Lz4State) := do
  return (.findMatch (ip + 1) (← lz4HashPosition src (ip + 1) tableType), s)

/-- "Fill table" and "Test next position", after a match that ended at `ip`. -/
def lz4TestNextPosition (tableType : Lz4TableType) (ip : Nat) (s : Lz4State) :
    Lz4Run (Lz4Phase × Lz4State) := do
  let table ←
    lz4PutIndexOnHash (ip - 2) (← lz4HashPosition src (ip - 2) tableType) s.table tableType
  let h ← lz4HashPosition src ip tableType
  let matchIndex ← lz4GetIndexOnHash h table
  let table ← lz4PutIndexOnHash ip h table tableType
  if tableType = .byU16 ∨ ip ≤ matchIndex + lz4DistanceMax then
    if (← lz4Load src matchIndex 4) = (← lz4Load src ip 4) then
      let dst ← lz4Write s.dst s.op [0]
      return (.nextMatch ip matchIndex s.op, { s with op := s.op + 1, dst := dst, table := table })
    else lz4PrepareNextLoop src tableType ip { s with table := table }
  else lz4PrepareNextLoop src tableType ip { s with table := table }

def lz4CompressStep (tableType : Lz4TableType) (limitedOutput : Bool) :
    Lz4Phase → Lz4State → Lz4Run (Lz4Phase × Lz4State)
  | .findMatch ip forwardH, s => do
    match ← lz4FindMatch src tableType src.length s.table ip 1 64 forwardH with
    | none => return (.lastLiterals, s)
    | some (ip, m, table) => do
      let (ip, m) ← lz4CatchUp src s.anchor ip m
      let (op, dst) ← lz4EncodeLiterals src limitedOutput s.anchor ip s.op s.dst
      return (.nextMatch ip m s.op, { s with op := op, dst := dst, table := table })
  | .nextMatch ip m t, s => do
    let (ip, op, dst) ← lz4EncodeMatch src limitedOutput ip m t s.op s.dst
    let s := { s with anchor := ip, op := op, dst := dst }
    -- the end of the match is at `mflimitPlusOne` or past it
    if src.length + 1 ≤ ip + lz4MfLimit then return (.lastLiterals, s)
    else lz4TestNextPosition src tableType ip s
  | .lastLiterals, s => return (.lastLiterals, s)

/-- From label to label, with a bound on their number. -/
def lz4CompressLoop (tableType : Lz4TableType) (limitedOutput : Bool) :
    (fuel : Nat) → Lz4Phase → Lz4State → Lz4Run (Nat × List UInt8)
  | _, .lastLiterals, s => lz4LastLiteralRun src limitedOutput s.anchor s.op s.dst
  | 0, _, _ => throw .outOfFuel
  | fuel + 1, phase, s => do
    let (phase, s) ← lz4CompressStep src tableType limitedOutput phase s
    lz4CompressLoop tableType limitedOutput fuel phase s

/-- `LZ4_compress_generic_validated`. -/
def lz4CompressGenericValidated (tableType : Lz4TableType) (limitedOutput : Bool)
    (dst : List UInt8) : Lz4Run (Nat × List UInt8) :=
  if src.length < lz4MinLength then lz4LastLiteralRun src limitedOutput 0 0 dst
  else do
    let table := List.replicate (2 ^ lz4HashLog tableType) 0
    let table ← lz4PutIndexOnHash 0 (← lz4HashPosition src 0 tableType) table tableType
    let forwardH ← lz4HashPosition src 1 tableType
    lz4CompressLoop src tableType limitedOutput (2 * src.length) (.findMatch 1 forwardH)
      { anchor := 0, op := 0, dst := dst, table := table }

/-- `LZ4_compress_generic`. -/
def lz4CompressGeneric (tableType : Lz4TableType) (limitedOutput : Bool) (dst : List UInt8) :
    Lz4Run (Nat × List UInt8) :=
  if lz4MaxInputSize < src.length then throw .noRoom
  else if src.length = 0 then
    if limitedOutput = true ∧ dst.length = 0 then throw .noRoom
    else do
      return (1, ← lz4Write dst 0 [0])
  else lz4CompressGenericValidated src tableType limitedOutput dst

/-- `LZ4_compress_default`, by `LZ4_compress_fast` and `LZ4_compress_fast_extState`: the number of
bytes in the output, and the output.  A result of zero is `noRoom`. -/
def lz4CompressDefault (dst : List UInt8) : Lz4Run (Nat × List UInt8) :=
  let tableType := if src.length < lz464KLimit then .byU16 else .byU32
  lz4CompressGeneric src tableType (decide (dst.length < lz4CompressBound src.length)) dst

end Compress

end IsrTransfer
