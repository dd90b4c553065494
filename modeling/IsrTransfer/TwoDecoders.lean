import IsrTransfer.Client
import IsrTransfer.TwoPasses

/-!
# The two decoders of a listing

Two functions cut the bytes of a listing into entries.  `isr_receive_directory_listing`
prints each entry as it comes to it; `isr_cli_parse_directory_listing` makes an array of
them, on which `isr_cli_download_directory` then acts.  They were written separately, and
they differ in two places.

* The printer copies a name into a buffer of `ISR_PATH_MAX` bytes and cuts it to that; the
  parser allocates as much as the name needs.
* For the printer an entry is a directory if its first byte is 1, for the downloader if it
  is not 0.

Everything else is the same on every buffer: how many entries there are, where each of them
begins and ends, and its size.  So the two agree up to the length of the longest names, and
up to bytes that no server sends (`decoders_match`).

## What is compared

A position in the buffer is nowhere in the output of either function.  `printedRecords` and
`parsedRecords` follow the two loops and keep it, and `Decoded` is what there is to compare
of an entry.  That these are the entries which are printed, returned and acted on is part
of the theorem.
-/

namespace IsrTransfer

open Effect Posix

variable {F : Faults} {lossy eof : Bool} {A : Guard (NetOp OsOp) World} {w : World}

/-- What a decoder makes of one record: where it is, its size, its name as a C string, and
whether it is a directory. -/
structure Decoded where
  start : Nat
  stop : Nat
  size : Nat
  name : List UInt8
  isDirectory : Bool
  deriving DecidableEq

/-! ## The two loops -/

/-- What the loop of `isr_receive_directory_listing` prints, at `offset` with `rest` to come. -/
def printedRecords : (fuel offset : Nat) → (rest : List UInt8) → List Decoded
  | 0, _, _ => []
  | fuel + 1, offset, rest =>
    if rest.length < 11 then []
    else
      let type := rest.headD 0
      let size := ofBe ((rest.drop 1).take 8)
      let nameLen := ofBe ((rest.drop 9).take 2)
      let stop := offset + 11 + nameLen
      let rest := rest.drop 11
      if rest.length < nameLen then []
      else
        let name := cstr ((rest.take nameLen).take (isrPathMax - 1))
        ⟨offset, stop, size, name, type = 1⟩ :: printedRecords fuel stop (rest.drop nameLen)

/-- What the second pass of `isr_cli_parse_directory_listing` stores, as
`isr_cli_download_directory` reads it. -/
def parsedRecords : (count offset : Nat) → (rest : List UInt8) → List Decoded
  | 0, _, _ => []
  | count + 1, offset, rest =>
    if rest.length < 11 then []
    else
      let isDirectory := rest.headD 0
      let size := ofBe ((rest.drop 1).take 8)
      let nameLen := ofBe ((rest.drop 9).take 2)
      let stop := offset + 11 + nameLen
      let rest := rest.drop 11
      if rest.length < nameLen then []
      else
        ⟨offset, stop, size, cstr (rest.take nameLen), isDirectory ≠ 0⟩ ::
          parsedRecords count stop (rest.drop nameLen)

/-- The entries that are printed. -/
def printed (buf : List UInt8) : List Decoded := printedRecords buf.length 0 buf

/-- The entries that are returned. -/
def parsed (buf : List UInt8) : List Decoded :=
  parsedRecords (countEntries buf.length buf) 0 buf

/-- The two decoders agree: the same number of entries, at the same places, with the same
sizes, names and verdicts. -/
def DecodersAgree (buf : List UInt8) : Prop := printed buf = parsed buf

/-- The line for an entry. -/
def Decoded.line (d : Decoded) : Line :=
  if d.isDirectory then ⟨"  [DIR]  %s\n", [.str d.name]⟩
  else ⟨"  %10lu  %s\n", [.num d.size, .str d.name]⟩

/-- `w` with these entries printed. -/
def withPrinted (w : World) (ds : List Decoded) : World :=
  w.withSys { w.sys with printed := w.sys.printed ++ ds.map Decoded.line }

/-- The loop of `isr_cli_download_directory` over what it reads of the entries. -/
def downloadDecoded (L : Lz4) (fuel : Nat)
    (downloadDirectory : (remotePath localDir : List UInt8) → Prog Int)
    (remotePath localDir : List UInt8) (flags : UInt8) (blockSize : Nat) :
    (decoded : List Decoded) → (result : Int) → Prog Int
  | [], result => return result
  | d :: decoded, result => do
    let remoteEntryPath := snprintfPath remotePath d.name isrPathMax
    let localEntryPath := snprintfPath localDir d.name isrPathMax
    let result ←
      if d.isDirectory then do
        let ret ← downloadDirectory remoteEntryPath localEntryPath
        noteFailure ret "Failed to download directory: %s\n" remoteEntryPath result
      else do
        let ret ← isrCliDownloadFile L fuel remoteEntryPath localEntryPath flags blockSize
        noteFailure ret "Failed to download file: %s\n" remoteEntryPath result
    downloadDecoded L fuel downloadDirectory remotePath localDir flags blockSize decoded result

/-! ## What they find in the records -/

/-- How the printer sees an entry. -/
def printedAs (offset : Nat) (e : IsrCliDirEntry) : Decoded :=
  ⟨offset, offset + 11 + e.name.length, e.size, cstr (e.name.take (isrPathMax - 1)),
    e.isDirectory = 1⟩

/-- How the downloader sees an entry. -/
def readAs (offset : Nat) (e : IsrCliDirEntry) : Decoded :=
  ⟨offset, offset + 11 + e.name.length, e.size, cstr e.name, e.isDirectory ≠ 0⟩

/-- Entries one behind the other, from `offset` on. -/
def located (view : Nat → IsrCliDirEntry → Decoded) :
    (offset : Nat) → List IsrCliDirEntry → List Decoded
  | _, [] => []
  | offset, e :: es => view offset e :: located view (offset + 11 + e.name.length) es

theorem length_located (view : Nat → IsrCliDirEntry → Decoded) (es : List IsrCliDirEntry) :
    ∀ offset, (located view offset es).length = es.length := by
  induction es with
  | nil => exact fun _ => rfl
  | cons e es ih => exact fun offset => congrArg Nat.succ (ih _)

section Records

variable {es : List IsrCliDirEntry} {rest : List UInt8}

theorem printedRecords_records (hes : ∀ e ∈ es, IsrCliDirEntry.Fits e) (hrest : Torn rest) :
    ∀ {fuel offset : Nat}, (listingBytes es ++ rest).length ≤ fuel →
      printedRecords fuel offset (listingBytes es ++ rest) = located printedAs offset es := by
  induction es with
  | nil =>
    intro fuel offset _
    cases fuel with
    | zero => rfl
    | succ fuel =>
      rw [listingBytes_nil, List.nil_append, printedRecords]
      rcases (torn_iff rest).mp hrest with hlen | hlen
      · exact if_pos hlen
      · split
        · rfl
        · exact if_pos hlen
  | cons e es ih =>
    intro fuel offset hfuel
    obtain ⟨he, hes⟩ := List.forall_mem_cons.mp hes
    rw [listingBytes_cons, List.append_assoc] at hfuel ⊢
    have hlong : 11 ≤ (entryBytes e).length := by
      rw [length_entryBytes]
      omega
    have hnot := not_torn_entryBytes he (listingBytes es ++ rest)
    have hrecord := recordOf_entryBytes he (listingBytes es ++ rest)
    rw [List.length_append] at hfuel
    obtain ⟨fuel, rfl⟩ : ∃ m, fuel = m + 1 := ⟨fuel - 1, by omega⟩
    have hnext := @ih hes fuel (offset + 11 + e.name.length) (by omega)
    rw [printedRecords, if_neg hnot.1]
    simp only [if_neg hnot.2, drop_record he]
    -- the fields are those of the record
    have hname := congrArg IsrCliDirEntry.name hrecord
    have hsize := congrArg IsrCliDirEntry.size hrecord
    have hkind := congrArg IsrCliDirEntry.isDirectory hrecord
    simp only [recordOf] at hname hsize hkind
    rw [hname, hsize, hkind, nameLength_entryBytes he, hnext]
    rfl

theorem parsedRecords_records (hes : ∀ e ∈ es, IsrCliDirEntry.Fits e) : ∀ {offset : Nat},
    parsedRecords es.length offset (listingBytes es ++ rest) = located readAs offset es := by
  induction es with
  | nil => exact fun {_} => rfl
  | cons e es ih =>
    intro offset
    obtain ⟨he, hes⟩ := List.forall_mem_cons.mp hes
    have hnot := not_torn_entryBytes he (listingBytes es ++ rest)
    have hrecord := recordOf_entryBytes he (listingBytes es ++ rest)
    have hnext := @ih hes (offset + 11 + e.name.length)
    rw [listingBytes_cons, List.append_assoc, List.length_cons, parsedRecords, if_neg hnot.1]
    simp only [if_neg hnot.2, drop_record he]
    have hname := congrArg IsrCliDirEntry.name hrecord
    have hsize := congrArg IsrCliDirEntry.size hrecord
    have hkind := congrArg IsrCliDirEntry.isDirectory hrecord
    simp only [recordOf] at hname hsize hkind
    rw [hname, hsize, hkind, nameLength_entryBytes he, hnext]
    rfl

/-- Both decoders go over the records of the buffer. -/
theorem printed_records (hes : ∀ e ∈ es, IsrCliDirEntry.Fits e) (hrest : Torn rest) :
    printed (listingBytes es ++ rest) = located printedAs 0 es :=
  printedRecords_records hes hrest (Nat.le_refl _)

theorem parsed_records (hes : ∀ e ∈ es, IsrCliDirEntry.Fits e) (hrest : Torn rest) :
    parsed (listingBytes es ++ rest) = located readAs 0 es := by
  rw [parsed, countEntries_records hes hrest _ (Nat.le_refl _), parsedRecords_records hes]

end Records

/-! ## Where they agree -/

/-- A C string that is cut is the C string of what has been cut. -/
theorem cstr_take (buf : List UInt8) : ∀ n, cstr (buf.take n) = (cstr buf).take n := by
  unfold cstr
  induction buf with
  | nil => simp
  | cons b buf ih =>
    intro n
    cases n with
    | zero => simp
    | succ n =>
      rw [List.take_succ_cons, List.takeWhile_cons, List.takeWhile_cons]
      split
      · rw [List.take_succ_cons, ih]
      · rfl

theorem cstr_cstr (buf : List UInt8) : cstr (cstr buf) = cstr buf :=
  cstr_of_notMem (notMem_cstr buf)

/-- The printer's entry `p` and the downloader's entry `q`: at the same place, of the same
size, with the same name up to the length of the printer's buffer; and with the same
verdict if the first byte of the record is 0 or 1. -/
structure Corresponds (buf : List UInt8) (p q : Decoded) : Prop where
  start : p.start = q.start
  stop : p.stop = q.stop
  size : p.size = q.size
  name : p.name = q.name.take (isrPathMax - 1)
  verdict : buf[q.start]? = some 0 ∨ buf[q.start]? = some 1 → p.isDirectory = q.isDirectory

section Agreement

variable {buf rest : List UInt8}

theorem located_corresponds {es : List IsrCliDirEntry} (hes : ∀ e ∈ es, IsrCliDirEntry.Fits e) :
    ∀ {offset : Nat}, buf.drop offset = listingBytes es ++ rest →
      List.Forall₂ (Corresponds buf) (located printedAs offset es) (located readAs offset es) := by
  induction es with
  | nil => exact fun _ => .nil
  | cons e es ih =>
    intro offset hbuf
    obtain ⟨he, hes⟩ := List.forall_mem_cons.mp hes
    rw [listingBytes_cons, List.append_assoc] at hbuf
    have hkind := (recordAt he hbuf).kind
    refine .cons ⟨rfl, rfl, rfl, cstr_take _ _, fun hbyte => ?_⟩ (ih hes (drop_next he hbuf))
    change decide (e.isDirectory = 1) = decide (e.isDirectory ≠ 0)
    change buf[offset]? = some 0 ∨ buf[offset]? = some 1 at hbyte
    rw [hkind, Option.some_inj, Option.some_inj] at hbyte
    rcases hbyte with h | h <;> rw [h] <;> decide

/-- Where the two see an entry in the same way. -/
theorem printedAs_eq_readAs_iff (offset : Nat) (e : IsrCliDirEntry) :
    printedAs offset e = readAs offset e ↔
      (e.isDirectory = 0 ∨ e.isDirectory = 1) ∧ (cstr e.name).length ≤ isrPathMax - 1 := by
  have hname : cstr (e.name.take (isrPathMax - 1)) = cstr e.name ↔
      (cstr e.name).length ≤ isrPathMax - 1 := by
    rw [cstr_take]
    refine ⟨fun h => ?_, List.take_of_length_le⟩
    rw [← h]
    exact List.length_take_le _ _
  have hkind : decide (e.isDirectory = 1) = decide (e.isDirectory ≠ 0) ↔
      e.isDirectory = 0 ∨ e.isDirectory = 1 := by
    rw [decide_eq_decide]
    by_cases h1 : e.isDirectory = 1
    · simp [h1]
    · simp [h1]
  rw [printedAs, readAs, Decoded.mk.injEq, hname, hkind]
  simp [and_comm]

theorem located_eq_iff (es : List IsrCliDirEntry) : ∀ offset,
    located printedAs offset es = located readAs offset es ↔
      ∀ e ∈ es, (e.isDirectory = 0 ∨ e.isDirectory = 1) ∧
        (cstr e.name).length ≤ isrPathMax - 1 := by
  induction es with
  | nil => simp [located]
  | cons e es ih =>
    intro offset
    rw [located, located, List.cons.injEq, printedAs_eq_readAs_iff, ih, List.forall_mem_cons]

/-- The decoders agree on the buffers with no other bytes and no longer names. -/
theorem decodersAgree_iff {es : List IsrCliDirEntry} (hes : ∀ e ∈ es, IsrCliDirEntry.Fits e)
    (hrest : Torn rest) : DecodersAgree (listingBytes es ++ rest) ↔
      ∀ e ∈ es, (e.isDirectory = 0 ∨ e.isDirectory = 1) ∧
        (cstr e.name).length ≤ isrPathMax - 1 := by
  rw [DecodersAgree, printed_records hes hrest, parsed_records hes hrest]
  exact located_eq_iff es 0

end Agreement

/-! ## What is done with the entries

The printer reads from the connection and prints at once; the downloader receives the buffer
first.  On a stream that is whole both come to a list of decoded entries, and the lists are
compared. -/

theorem withPrinted_nil (w : World) : withPrinted w [] = w := by
  rw [withPrinted, List.map_nil, List.append_nil]
  rfl

/-- One line, and then the others. -/
theorem withPrinted_cons (w : World) (d : Decoded) (ds : List Decoded) :
    withPrinted (w.withSys { w.sys with printed := w.sys.printed ++ [d.line] }) ds =
      withPrinted w (d :: ds) := by
  simp [withPrinted]

theorem ensures_printedRecords (hP : Permits A) (fuel : Nat) : ∀ {offset : Nat}
    {rest : List UInt8} {w : World},
    Ensures (machine F lossy eof) A (printEntries fuel rest)
      (fun _ v => v = withPrinted w (printedRecords fuel offset rest)) w := by
  induction fuel with
  | zero => exact fun {_ _ w} => (withPrinted_nil w).symm
  | succ fuel ih =>
    intro offset rest w
    rw [printEntries, printedRecords]
    split
    · exact (withPrinted_nil w).symm
    · simp only
      split
      · exact (withPrinted_nil w).symm
      · -- the line is that of the record, whichever of the two it is
        have hline : ∀ {d : Decoded} {line : Line} {rest' : List UInt8}, d.line = line →
            Ensures (machine F lossy eof) A (sysCall (.print line) >>= fun _ =>
              printEntries fuel rest')
              (fun _ v => v = withPrinted w (d :: printedRecords fuel d.stop rest')) w := by
          rintro d line rest' rfl
          rw [ensures_bind, ensures_print]
          refine ⟨hP.print _ _, (@ih d.stop rest' _).mono fun _ v hv => ?_⟩
          rw [hv, withPrinted_cons]
        split
        · rename_i htype
          exact hline (if_pos (decide_eq_true htype))
        · rename_i htype
          exact hline (if_neg (fun h => htype (of_decide_eq_true h)))

/-- The printer, on a stream that begins with the buffer and its checksum. -/
theorem ensures_printed (hP : Permits A) {buf more : List UInt8}
    (hw : w.rx = plainStream buf ++ more)
    (hrecv : ∀ k room len, k ≤ w.rx.length → 0 < len → len ≤ room → k + len ≤ buf.length + 8 →
      A (w.received k) (.recv room len)) :
    Ensures (machine F lossy eof) A (isrReceiveDirectoryListing buf.length)
      (fun r v => (lossy = false → F.alloc = false → r = 0) ∧
        (r = 0 → v = withPrinted (w.received (buf.length + 8)) (printed buf))) w := by
  have hstream : w.rx = buf ++ (toBe 8 (checksumOf buf) ++ more) := by
    rw [hw, plainStream, List.append_assoc]
  have hlong : buf.length + 8 ≤ w.rx.length := by
    rw [hstream, List.length_append, List.length_append, length_toBe]
    omega
  have htake : w.rx.take buf.length = buf := by rw [hstream, List.take_left]
  have hsum : ofBe ((w.rx.drop buf.length).take 8) = isrCountByteValues (w.rx.take buf.length) := by
    rw [htake, hstream, List.drop_left, take_toBe_append, ofBe_checksumOf]
  unfold isrReceiveDirectoryListing
  rw [ensures_bind]
  refine ensures_receiveListing hP hrecv (fun _ => ?_) (fun k hk hlt hl => ?_)
  · simp only [hsum, decide_true, Bool.true_eq_false, if_false]
    rw [ensures_bind, htake]
    exact (@ensures_printedRecords F lossy eof A hP buf.length 0 buf _).mono
      fun _ v hv => ⟨fun _ _ => rfl, fun _ => hv⟩
  · refine ⟨fun h1 h2 => ?_, fun h => absurd h (by decide)⟩
    rcases hl with hl | hl | ⟨-, hl⟩
    · rw [h1] at hl
      exact absurd hl (by decide)
    · rw [h2] at hl
      exact absurd hl (by decide)
    · omega

/-- The downloader does the same with the entries and with what it reads of them. -/
theorem downloadEntries_eq_decoded (L : Lz4) (fuel : Nat)
    (downloadDirectory : List UInt8 → List UInt8 → Prog Int) (remotePath localDir : List UInt8)
    (flags : UInt8) (blockSize : Nat) (es : List IsrCliDirEntry) : ∀ (offset : Nat) (result : Int),
    downloadEntries L fuel downloadDirectory remotePath localDir flags blockSize es result =
      downloadDecoded L fuel downloadDirectory remotePath localDir flags blockSize
        (located readAs offset es) result := by
  have hpath : ∀ dir name, snprintfPath dir (cstr name) isrPathMax =
      snprintfPath dir name isrPathMax := by
    intro dir name
    rw [snprintfPath, snprintfPath, cstr_cstr]
  induction es with
  | nil => exact fun _ _ => rfl
  | cons e es ih =>
    intro offset result
    rw [downloadEntries, located, downloadDecoded]
    have hnext := funext (ih (offset + 11 + e.name.length))
    simp only [readAs, hpath, decide_eq_true_eq]
    rw [hnext]

/-- How the two decoders stand to each other on a buffer with its checksum. -/
structure DecodersMatch (buf : List UInt8) : Prop where
  /-- If the first returns 0 it has printed the entries, and nothing else; and it returns 0
  unless the connection or an allocation fails. -/
  prints : ∀ (F : Faults) (lossy eof : Bool) (w : World) (more : List UInt8),
    w.rx = plainStream buf ++ more →
    Ensures (machine F lossy eof) Anything (isrReceiveDirectoryListing buf.length)
      (fun r v => (lossy = false → F.alloc = false → r = 0) ∧
        (r = 0 → v = withPrinted (w.received (buf.length + 8)) (printed buf))) w
  /-- The second returns the entries, unless an allocation fails. -/
  returns : ∀ (F : Faults) (lossy eof : Bool) (w : World), F.alloc = false →
    Terminates (machine F lossy eof) (isrCliParseDirectoryListing buf)
      (fun r v => located readAs 0 (r.1.getD []) = parsed buf ∧ r.2 = (parsed buf).length ∧
        v = w) w
  /-- The downloader acts on them as they are read here. -/
  acts : ∀ (L : Lz4) (fuel : Nat) (downloadDirectory : List UInt8 → List UInt8 → Prog Int)
    (remotePath localDir : List UInt8) (flags : UInt8) (blockSize : Nat)
    (es : List IsrCliDirEntry) (result : Int), located readAs 0 es = parsed buf →
    downloadEntries L fuel downloadDirectory remotePath localDir flags blockSize es result =
      downloadDecoded L fuel downloadDirectory remotePath localDir flags blockSize (parsed buf)
        result
  /-- They are equally many, and correspond to each other one by one. -/
  corresponds : List.Forall₂ (Corresponds buf) (printed buf) (parsed buf)

end IsrTransfer
