import IsrTransfer.Commands
import IsrTransfer.Paths

/-!
# Directory listings (`lib/isr.c`, `lib/isr-cli.c`)

A listing is a sequence of records --- kind, size, length of the name, name ---
followed by a checksum.  One function writes it, one prints what it reads, and one
turns what it reads into entries, in two passes of which the first only counts.

The array in which the server collects the entries grows as they come.  Its capacity is kept here,
because it decides when memory is asked for; its contents are the entries.  The loops over a
buffer go on at a rest of it, where the source has an offset.
-/

namespace IsrTransfer

open Effect Posix

/-- An entry of a listing: `entry_t` of the server, and what the client makes of
it (`isr_cli_dir_entry_t`). -/
structure IsrCliDirEntry where
  name : List UInt8
  size : Nat
  isDirectory : UInt8
  deriving DecidableEq

/-- The header of an entry on the wire: kind, size, length of the name. -/
def IsrCliDirEntry.header (e : IsrCliDirEntry) : List UInt8 :=
  e.isDirectory :: (toBe 8 e.size ++ toBe 2 (pathLen e.name))

/-! ## Sending -/

def sizeofEntry : Nat := 272

/-- Room for one more than `count` entries: the capacity of the array afterwards,
`none` if it has to grow and cannot. -/
def growEntries (count capacity : Nat) : Prog (Option Nat) := do
  if count < capacity then return some capacity
  if (← sysCall (.malloc (capacity * 2 * sizeofEntry))) = false then return none
  return some (capacity * 2)

/-- The loop over the directory: the entries so far, the capacity of the array, and
the size of the listing; `none` when the array cannot grow. -/
def collectEntries (path : List UInt8) : (names : List Name) →
    (entries : List IsrCliDirEntry) → (capacity totalSize : Nat) →
    Prog (Option (List IsrCliDirEntry × Nat))
  | [], entries, _, totalSize => return some (entries, totalSize)
  | name :: names, entries, capacity, totalSize => do
    if name = dot ∨ name = dotdot then collectEntries path names entries capacity totalSize
    else
      match ← growEntries entries.length capacity with
      | none => return none
      | some capacity =>
        let entryName := name.take 255
        let (isDir, size) := (← isrStat (snprintfPath path name isrPathMax)).getD (false, 0)
        let entry : IsrCliDirEntry :=
          { name := entryName, size := size, isDirectory := if isDir then 1 else 0 }
        collectEntries path names (entries ++ [entry]) capacity
          (totalSize + 1 + 8 + 2 + pathLen entryName)

/-- The loop that streams the entries; `none` is `-1`. -/
def sendEntries : (entries : List IsrCliDirEntry) → (checksum : Nat) → Prog (Option Nat)
  | [], checksum => return some checksum
  | e :: entries, checksum => do
    let checksum := (checksum + isrCountByteValues e.header) % word64
    let checksum := (checksum + isrCountByteValues (e.name.take (pathLen e.name))) % word64
    if (← netSendExact e.header) = -1 then return none
    if (← netSendExact (e.name.take (pathLen e.name))) = -1 then return none
    sendEntries entries checksum

/-- `isr_transmit_recv_directory_listing`. -/
def isrTransmitRecvDirectoryListing (path : List UInt8) : Prog Int := do
  if (← sysCall (.malloc (256 * sizeofEntry))) = false then return -1
  match ← sysCall (.opendir path) with
  | none => return -1
  | some names =>
    match ← collectEntries path names [] 256 0 with
    | none => return -1
    | some (entries, totalSize) =>
      if (← isrSendRecvConfirmation isrRecvTypeDirectory totalSize) = -1 then return -1
      match ← netRecvExact 1 1 with
      | none => return -1
      | some go =>
        if go = [isrRecvUnable] then return 0
        match ← sendEntries entries 0 with
        | none => return -1
        | some checksum =>
          if (← netSendExact (toBe 8 checksum)) = -1 then return -1
          return 0

/-! ## Receiving -/

/-- The loop of `isr_receive_directory_listing` at `rest`; every iteration reads at
least the eleven bytes of a header. -/
def printEntries : (fuel : Nat) → (rest : List UInt8) → Prog Unit
  | 0, _ => return ()
  | fuel + 1, rest => do
    if rest.length < 11 then return ()
    let type := rest.headD 0
    let size := ofBe ((rest.drop 1).take 8)
    let nameLen := ofBe ((rest.drop 9).take 2)
    let rest := rest.drop 11
    if rest.length < nameLen then return ()
    let name := cstr ((rest.take nameLen).take (isrPathMax - 1))
    if type = 1 then
      sysCall (.print ⟨"  [DIR]  %s\n", [.str name]⟩)
    else
      sysCall (.print ⟨"  %10lu  %s\n", [.num size, .str name]⟩)
    printEntries fuel (rest.drop nameLen)

/-- Read `effectiveLength` bytes and a checksum; `none` if anything fails.  Both
receivers begin like this, `recv_verified_listing` and
`isr_receive_directory_listing`; the result tells a wrong checksum apart. -/
def receiveListing (effectiveLength : Nat) : Prog (Option (List UInt8 × Bool)) := do
  if (← sysCall (.malloc effectiveLength)) = false then return none
  match ← netRecvExact effectiveLength effectiveLength with
  | none => return none
  | some buf =>
    match ← netRecvExact 8 8 with
    | none => return none
    | some wireChecksum => return some (buf, ofBe wireChecksum = isrCountByteValues buf)

/-- `isr_receive_directory_listing`. -/
def isrReceiveDirectoryListing (effectiveLength : Nat) : Prog Int := do
  match ← receiveListing effectiveLength with
  | none => return -1
  | some (buf, good) =>
    if good = false then return -1
    printEntries buf.length buf
    return 0

def recvVerifiedListing (effectiveLength : Nat) : Prog (Option (List UInt8)) := do
  match ← receiveListing effectiveLength with
  | none => return none
  | some (buf, good) =>
    if good = false then
      sysCall (.eprint ⟨"Checksum mismatch for directory listing\n", []⟩)
      return none
    return some buf

/-- The first pass of `isr_cli_parse_directory_listing`. -/
def countEntries : (fuel : Nat) → (rest : List UInt8) → Nat
  | 0, _ => 0
  | fuel + 1, rest =>
    if rest.length < 11 then 0
    else
      let nameLen := ofBe ((rest.drop 9).take 2)
      let rest := rest.drop 11
      if rest.length < nameLen then 0
      else countEntries fuel (rest.drop nameLen) + 1

/-- The second pass, at most `count` entries; `none` if a name finds no memory. -/
def parseEntries : (count : Nat) → (rest : List UInt8) →
    Prog (Option (List IsrCliDirEntry))
  | 0, _ => return some []
  | count + 1, rest => do
    if rest.length < 11 then return some []
    let isDirectory := rest.headD 0
    let size := ofBe ((rest.drop 1).take 8)
    let nameLen := ofBe ((rest.drop 9).take 2)
    let rest := rest.drop 11
    if rest.length < nameLen then return some []
    if (← sysCall (.malloc (nameLen + 1))) = false then return none
    match ← parseEntries count (rest.drop nameLen) with
    | none => return none
    | some entries => return some (⟨rest.take nameLen, size, isDirectory⟩ :: entries)

def sizeofDirEntry : Nat := 24

/-- `isr_cli_parse_directory_listing`: the entries, a null pointer if there are
none, and `*entry_count`. -/
def isrCliParseDirectoryListing (buf : List UInt8) :
    Prog (Option (List IsrCliDirEntry) × Nat) := do
  let count := countEntries buf.length buf
  if count = 0 then return (none, 0)
  if (← sysCall (.malloc (count * sizeofDirEntry))) = false then return (none, 0)
  match ← parseEntries count buf with
  | none => return (none, 0)
  | some entries => return (some entries, entries.length)

end IsrTransfer
