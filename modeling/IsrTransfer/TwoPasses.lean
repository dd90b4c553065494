import IsrTransfer.ListingParser

/-!
# The two passes of the listing parser

`isr_cli_parse_directory_listing` goes over its buffer twice.  The first pass counts
records, the array is allocated by that count, and the second pass fills it, with exit
tests that are written differently and with assignments to a slot before it is known
whether its name is there.

Here the two passes are taken access by access.  Every byte is read at its index, every
field of a slot is stored on its own into an array of the allocated length, and there is
no result if an index is outside of the buffer or of the array, if the counter leaves the
range of an `int`, or if the loop does not come to an end.

`RecordAt` says what both loops see where a complete record begins, `TornAt` what they
see where none does.  From then on the two loops are two inductions over the same
records, and `passes_agree` puts them beside the parser as the rest of the development
has it.
-/

namespace IsrTransfer

open Effect Posix

/-! ## The passes, access by access -/

/-- `memcpy` of `n` bytes at `offset`; `none` if one of them is outside of the buffer. -/
def memcpy (buf : List UInt8) : (offset n : Nat) → Option (List UInt8)
  | _, 0 => some []
  | offset, n + 1 => do
    let b ← buf[offset]?
    let bs ← memcpy buf (offset + 1) n
    return b :: bs

/-- A slot of the array `entries`.  The array comes from `malloc`: what has not been
assigned is `none`.  The name is the block that it points to, terminator and all. -/
structure Slot where
  name : Option (List UInt8)
  size : Option Nat
  isDirectory : Option UInt8
  deriving DecidableEq

/-- A slot that nothing has been assigned to. -/
def Slot.unset : Slot := ⟨none, none, none⟩

/-- The slot for an entry, with everything in it assigned. -/
def Slot.of (e : IsrCliDirEntry) : Slot where
  name := some (e.name ++ [0])
  size := some e.size
  isDirectory := some e.isDirectory

/-- An assignment to a field of `entries[idx]`; `none` if there is no such slot. -/
def store (entries : List Slot) (idx : Nat) (f : Slot → Slot) : Option (List Slot) :=
  if idx < entries.length then some (entries.modify idx f) else none

/-- The loop of the first pass.  `size_t` has 64 bits, and no buffer is so long that an
offset into it and one record more would wrap around. -/
def countReadsLoop (buf : List UInt8) : (fuel offset count : Nat) → Option Nat
  | 0, _, _ => none
  | fuel + 1, offset, count =>
    if offset < buf.length then
      if offset + 11 > buf.length then some count
      else do
        let nameLen := ofBe (← memcpy buf (offset + 9) 2)
        if offset + 11 + nameLen > buf.length then return count
        if count + 1 < 2 ^ 31 then
          countReadsLoop buf fuel (offset + 11 + nameLen) (count + 1)
        else none
    else some count

/-- The loop of the second pass: the array and `idx`. -/
def fillReadsLoop (buf : List UInt8) (count : Nat) :
    (fuel offset idx : Nat) → (entries : List Slot) → Option (List Slot × Nat)
  | 0, _, _, _ => none
  | fuel + 1, offset, idx, entries =>
    if offset < buf.length ∧ idx < count then
      if offset + 11 > buf.length then some (entries, idx)
      else do
        let isDirectory ← buf[offset]?
        let entries ← store entries idx fun s => { s with isDirectory := some isDirectory }
        let size := ofBe (← memcpy buf (offset + 1) 8)
        let entries ← store entries idx fun s => { s with size := some size }
        let nameLen := ofBe (← memcpy buf (offset + 9) 2)
        if offset + 11 + nameLen > buf.length then return (entries, idx)
        let name ← memcpy buf (offset + 11) nameLen
        let entries ← store entries idx fun s => { s with name := some (name ++ [0]) }
        fillReadsLoop buf count fuel (offset + 11 + nameLen) (idx + 1) entries
    else some (entries, idx)

/-- `isr_cli_parse_directory_listing` where every allocation succeeds, access by access. -/
def isrCliParseDirectoryListingReads (buf : List UInt8) : Option (Option (List Slot) × Nat) := do
  let count ← countReadsLoop buf (buf.length + 1) 0 0
  if count = 0 then return (none, 0)
  let (entries, idx) ← fillReadsLoop buf count (buf.length + 1) 0 0 (List.replicate count .unset)
  return (some entries, idx)

/-- `isr_cli_free_entries`: the blocks that are freed, `none` if a slot is not there or its
name has not been assigned. -/
def isrCliFreeEntries (entries : List Slot) : (i count : Nat) → Option (List (List UInt8))
  | _, 0 => some []
  | i, count + 1 => do
    let name ← (← entries[i]?).name
    return name :: (← isrCliFreeEntries entries (i + 1) count)

/-! ## What a loop sees -/

section Reads

variable {buf : List UInt8} {offset : Nat}

/-- Inside the buffer a copy gives what is there. -/
theorem memcpy_eq {n : Nat} : ∀ {offset : Nat}, offset + n ≤ buf.length →
    memcpy buf offset n = some ((buf.drop offset).take n) := by
  induction n with
  | zero =>
    intro offset _
    rw [memcpy, List.take_zero]
  | succ n ih =>
    intro offset hle
    have hlt : offset < buf.length := by omega
    rw [memcpy, List.getElem?_eq_getElem hlt, ih (by omega), List.drop_eq_getElem_cons hlt,
      List.take_succ_cons]
    rfl

/-- What both loops see at an offset where the record of `e` begins. -/
structure RecordAt (buf : List UInt8) (offset : Nat) (e : IsrCliDirEntry) : Prop where
  inside : offset < buf.length
  header : ¬ offset + 11 > buf.length
  kind : buf[offset]? = some e.isDirectory
  size : memcpy buf (offset + 1) 8 = some (toBe 8 e.size)
  nameLen : memcpy buf (offset + 9) 2 = some (toBe 2 e.name.length)
  body : ¬ offset + 11 + e.name.length > buf.length
  name : memcpy buf (offset + 11) e.name.length = some e.name

/-- A complete record is seen as it is. -/
theorem recordAt {e : IsrCliDirEntry} {rest : List UInt8} (he : e.Fits)
    (hbuf : buf.drop offset = entryBytes e ++ rest) : RecordAt buf offset e := by
  have hlen := congrArg List.length hbuf
  rw [List.length_append, List.length_drop, length_entryBytes, he.pathLen] at hlen
  have hkind : entryBytes e ++ rest =
      e.isDirectory :: (toBe 8 e.size ++ (toBe 2 e.name.length ++ (e.name ++ rest))) := by
    rw [he.bytes, List.cons_append, List.append_assoc, List.append_assoc]
  have hdrop : ∀ k, buf.drop (offset + k) = (entryBytes e ++ rest).drop k := by
    intro k
    rw [← hbuf, List.drop_drop]
  constructor
  · omega
  · omega
  · rw [← List.head?_drop, hbuf, hkind, List.head?_cons]
  · rw [memcpy_eq (by omega), hdrop, hkind, List.drop_succ_cons, List.drop_zero, take_toBe_append]
  · have h9 := drop_entryBytes he rest 0
    rw [Nat.add_zero, List.drop_zero] at h9
    rw [memcpy_eq (by omega), hdrop, h9, take_toBe_append]
  · omega
  · have h11 := drop_entryBytes he rest 2
    rw [drop_toBe_append 2 _ 0, List.drop_zero] at h11
    rw [memcpy_eq (by omega), hdrop, h11, List.take_left]

/-- Behind it the rest of the buffer begins. -/
theorem drop_next {e : IsrCliDirEntry} {rest : List UInt8} (he : e.Fits)
    (hbuf : buf.drop offset = entryBytes e ++ rest) :
    buf.drop (offset + 11 + e.name.length) = rest := by
  rw [Nat.add_assoc, ← List.drop_drop, hbuf, ← he.pathLen, ← length_entryBytes, List.drop_left]

/-- What the first loop sees where no complete record begins: the end of the buffer, a
header that is not all there, or a length that goes too far. -/
inductive TornAt (buf : List UInt8) (offset : Nat) : Prop where
  | done : ¬ offset < buf.length → TornAt buf offset
  | header : offset < buf.length → offset + 11 > buf.length → TornAt buf offset
  | body (bytes : List UInt8) : offset < buf.length → ¬ offset + 11 > buf.length →
      memcpy buf (offset + 9) 2 = some bytes → offset + 11 + ofBe bytes > buf.length →
      TornAt buf offset

theorem tornAt (h : Torn (buf.drop offset)) : TornAt buf offset := by
  by_cases hin : offset < buf.length
  · by_cases hhead : offset + 11 > buf.length
    · exact .header hin hhead
    · refine .body _ hin hhead (memcpy_eq (by omega)) ?_
      unfold Torn recordLength at h
      rw [List.length_drop, List.drop_drop] at h
      omega
  · exact .done hin

theorem store_middle (done : List Slot) (s : Slot) (more : List Slot) (f : Slot → Slot) :
    store (done ++ s :: more) done.length f = some (done ++ f s :: more) := by
  have hlt : done.length < (done ++ s :: more).length := by simp
  rw [store, if_pos hlt, List.modify_eq_take_cons_drop hlt]
  simp

end Reads

/-! ## The two loops -/

section Loops

variable {buf rest : List UInt8}

/-- The first pass counts the records that are still to come. -/
theorem countReadsLoop_eq {es : List IsrCliDirEntry} (hes : ∀ e ∈ es, IsrCliDirEntry.Fits e)
    (hrest : Torn rest) : ∀ {fuel offset count : Nat}, es.length < fuel →
    count + es.length < 2 ^ 31 → buf.drop offset = listingBytes es ++ rest →
    countReadsLoop buf fuel offset count = some (count + es.length) := by
  induction es with
  | nil =>
    intro fuel offset count hfuel _ hbuf
    obtain ⟨fuel, rfl⟩ : ∃ m, fuel = m + 1 := ⟨fuel - 1, by omega⟩
    rw [listingBytes_nil, List.nil_append] at hbuf
    rw [countReadsLoop]
    change _ = some count
    cases tornAt (hbuf ▸ hrest) with
    | done hout => rw [if_neg hout]
    | header hin hhead => rw [if_pos hin, if_pos hhead]
    | body bytes hin hhead hread hbody =>
      rw [if_pos hin, if_neg hhead, hread]
      exact if_pos hbody
  | cons e es ih =>
    intro fuel offset count hfuel hcount hbuf
    obtain ⟨fuel, rfl⟩ : ∃ m, fuel = m + 1 := ⟨fuel - 1, by omega⟩
    obtain ⟨he, hes⟩ := List.forall_mem_cons.mp hes
    rw [List.length_cons] at hfuel hcount
    rw [listingBytes_cons, List.append_assoc] at hbuf
    have hsee := recordAt he hbuf
    rw [countReadsLoop, if_pos hsee.inside, if_neg hsee.header, hsee.nameLen]
    simp only [Option.bind_eq_bind, Option.bind_some, ofBe_toBe_of_lt he.1, if_neg hsee.body]
    rw [if_pos (by omega), ih hes (by omega) (by omega) (drop_next he hbuf), List.length_cons]
    congr 1
    omega

/-- The second pass, with the slots of `done` filled and one slot left for every record
that is still to come, fills these slots and no others. -/
theorem fillReadsLoop_eq {es : List IsrCliDirEntry} (hes : ∀ e ∈ es, IsrCliDirEntry.Fits e)
    {count : Nat} : ∀ {fuel offset : Nat} {done : List Slot}, es.length < fuel →
    done.length + es.length = count → buf.drop offset = listingBytes es ++ rest →
    fillReadsLoop buf count fuel offset done.length (done ++ List.replicate es.length Slot.unset) =
      some (done ++ es.map Slot.of, count) := by
  induction es with
  | nil =>
    intro fuel offset done hfuel hcount _
    obtain ⟨fuel, rfl⟩ : ∃ m, fuel = m + 1 := ⟨fuel - 1, by omega⟩
    rw [List.length_nil, Nat.add_zero] at hcount
    -- whatever the buffer still holds, the array is full
    rw [fillReadsLoop, if_neg (by omega), hcount]
    rfl
  | cons e es ih =>
    intro fuel offset done hfuel hcount hbuf
    obtain ⟨fuel, rfl⟩ : ∃ m, fuel = m + 1 := ⟨fuel - 1, by omega⟩
    obtain ⟨he, hes⟩ := List.forall_mem_cons.mp hes
    rw [List.length_cons] at hfuel hcount
    rw [listingBytes_cons, List.append_assoc] at hbuf
    have hsee := recordAt he hbuf
    have hnext := @ih hes fuel (offset + 11 + e.name.length) (done ++ [Slot.of e]) (by omega)
      (by rw [List.length_append, List.length_singleton]; omega) (drop_next he hbuf)
    rw [List.length_append, List.length_singleton, List.append_assoc, List.append_assoc] at hnext
    rw [fillReadsLoop, if_pos ⟨hsee.inside, by omega⟩, if_neg hsee.header, hsee.kind,
      List.length_cons, List.replicate_succ]
    simp only [Option.bind_eq_bind, Option.bind_some, store_middle, hsee.size, hsee.nameLen,
      ofBe_toBe_of_lt he.1, ofBe_toBe_of_lt he.2, if_neg hsee.body, hsee.name]
    exact hnext

/-- Freeing goes over names that have been set. -/
theorem isrCliFreeEntries_eq (es : List IsrCliDirEntry) : ∀ done : List Slot,
    isrCliFreeEntries (done ++ es.map Slot.of) done.length es.length =
      some (es.map fun e => e.name ++ [0]) := by
  induction es with
  | nil => exact fun _ => rfl
  | cons e es ih =>
    intro done
    have hnext := ih (done ++ [Slot.of e])
    rw [List.length_append, List.length_singleton, List.append_assoc] at hnext
    have hslot : (done ++ (e :: es).map Slot.of)[done.length]? = some (Slot.of e) := by simp
    rw [List.length_cons, isrCliFreeEntries, hslot, List.map_cons]
    simp only [Option.bind_eq_bind, Option.bind_some, Slot.of]
    exact hnext ▸ rfl

end Loops

/-! ## The longest sequence of records -/

/-- `es` are the complete records at the beginning of a buffer, as many as there are. -/
structure LongestRecords (buf : List UInt8) (es : List IsrCliDirEntry) : Prop where
  fits : ∀ e ∈ es, IsrCliDirEntry.Fits e
  bytes : listingBytes es <+: buf
  longest : ∀ es', (∀ e ∈ es', IsrCliDirEntry.Fits e) → listingBytes es' <+: buf → es' <+: es

/-- A record takes eleven bytes and more. -/
theorem length_le_listingBytes (es : List IsrCliDirEntry) :
    es.length ≤ (listingBytes es).length := by
  induction es with
  | nil => exact Nat.le_refl _
  | cons e es ih =>
    rw [listingBytes_cons, List.length_append, length_entryBytes, List.length_cons]
    omega

/-- What the two passes make of a buffer whose records are `es`. -/
structure PassesAgree (buf : List UInt8) (es : List IsrCliDirEntry) : Prop where
  /-- The first pass reads inside of the buffer, and counts the records. -/
  counted : countReadsLoop buf (buf.length + 1) 0 0 = some es.length
  /-- The second reads inside of the buffer, stores inside of the array, and fills every slot of
  it. -/
  filled : fillReadsLoop buf es.length (buf.length + 1) 0 0 (List.replicate es.length Slot.unset) =
    some (es.map Slot.of, es.length)
  /-- Together they return these slots, or a null pointer if there are none. -/
  returned : isrCliParseDirectoryListingReads buf =
    some (if es = [] then none else some (es.map Slot.of), es.length)
  /-- What is returned can be freed. -/
  freed : isrCliFreeEntries (es.map Slot.of) 0 es.length = some (es.map fun e => e.name ++ [0])
  /-- In every run with memory the program returns the same entries. -/
  run : ∀ (F : Faults) (lossy eof : Bool) (w : World), F.alloc = false →
    Terminates (machine F lossy eof) (isrCliParseDirectoryListing buf)
      (fun r v => r = (if es = [] then none else some es, es.length) ∧ v = w) w

/-- **The two passes agree on every buffer.**  Whatever the bytes are, both passes go over the
same records, which are the longest sequence of complete records at the beginning of the
buffer; no byte outside of the buffer is read, no slot outside of the array is written,
and every slot that is returned has been filled. -/
theorem passes_agree (buf : List UInt8) (hcount : ∀ es, (∀ e ∈ es, IsrCliDirEntry.Fits e) →
    listingBytes es <+: buf → es.length < 2 ^ 31) :
    ∃ es, LongestRecords buf es ∧ PassesAgree buf es := by
  obtain ⟨es, rest, hes, hrest, hbuf⟩ := exists_records buf
  have hprefix : listingBytes es <+: buf := ⟨rest, hbuf.symm⟩
  have hfuel : es.length < buf.length + 1 :=
    Nat.lt_succ_of_le ((length_le_listingBytes es).trans hprefix.length_le)
  have hstart : buf.drop 0 = listingBytes es ++ rest := hbuf
  have hcounted : countReadsLoop buf (buf.length + 1) 0 0 = some es.length := by
    have h := @countReadsLoop_eq buf rest es hes hrest _ 0 0 hfuel
      (by rw [Nat.zero_add]; exact hcount es hes hprefix) hstart
    rwa [Nat.zero_add] at h
  have hfilled : fillReadsLoop buf es.length (buf.length + 1) 0 0
      (List.replicate es.length Slot.unset) = some (es.map Slot.of, es.length) :=
    @fillReadsLoop_eq buf rest es hes _ _ 0 [] hfuel (Nat.zero_add _) hstart
  refine ⟨es, ⟨hes, hprefix, ?_⟩, hcounted, hfilled, ?_, isrCliFreeEntries_eq es [], ?_⟩
  · rintro es' hes' ⟨rest', hbuf'⟩
    exact prefix_of_listingBytes hes hes' hrest (hbuf.symm.trans hbuf'.symm)
  · rw [isrCliParseDirectoryListingReads, hcounted]
    simp only [Option.bind_eq_bind, Option.bind_some]
    by_cases hnil : es = []
    · rw [if_pos (by rw [hnil, List.length_nil]), if_pos hnil, hnil]
      rfl
    · rw [if_neg (by rwa [List.length_eq_zero_iff]), hfilled, if_neg hnil]
      rfl
  · intro F lossy eof w hF
    rw [hbuf]
    refine ensures_isrCliParseDirectoryListing (permits_answered F lossy eof) hes hrest ?_ ?_ ?_
    · rintro rfl
      exact ⟨rfl, rfl⟩
    · intro hnil
      rw [if_neg hnil]
      exact ⟨rfl, rfl⟩
    · intro hf
      rw [hF] at hf
      exact absurd hf (by decide)

/-- One entry, and then a header that promises more than there is. -/
theorem passes_agree_torn :
    ∃ es,
      LongestRecords [1, 0, 0, 0, 0, 0, 0, 0, 0, 0, 1, 0x61, 0, 0, 0, 0, 0, 0, 0, 0, 0, 0, 9] es ∧
      PassesAgree [1, 0, 0, 0, 0, 0, 0, 0, 0, 0, 1, 0x61, 0, 0, 0, 0, 0, 0, 0, 0, 0, 0, 9] es := by
  refine passes_agree _ fun es hes hbytes => ?_
  have hle := (length_le_listingBytes es).trans hbytes.length_le
  exact hle.trans_lt (by decide)

end IsrTransfer
