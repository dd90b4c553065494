import IsrTransfer.ListingRules

/-!
# What the parser of a listing finds

Any buffer is a sequence of complete records followed by something that does not begin
with one, in exactly one way.  `isr_cli_parse_directory_listing` finds these records and
no others: its first pass counts them, its second pass stores them, and neither looks at
what is left over (`ensures_isrCliParseDirectoryListing`).

A record says itself how long it is, and so the first record of a buffer can be read off
(`recordOf`), whatever follows it (`recordOf_entryBytes`).  What is left over may be nothing, a
part of a header, or a header that promises more than there is (`Torn`); for both passes this is
the place to stop, though they test for it in different ways (`torn_iff`).  The records of a
buffer are found by induction on its length (`exists_records`), and there are no others
(`prefix_of_listingBytes`).

The second pass may find no memory for a name.  Then it returns what a listing without entries
gives, and this is a case of the rule.
-/

namespace IsrTransfer

open Effect Posix

variable {F : Faults} {lossy eof : Bool} {A : Guard (NetOp OsOp) World} {w : World}

/-! ## Records

A record is eleven bytes and a name, and the length of the name is in the last two of the
eleven. Every buffer is cut into records in one way, until something is left that is too short
(`exists_records`, `prefix_of_listingBytes`).  Both passes of the parser follow this cut. -/

/-- What the fields of a record can hold. -/
def IsrCliDirEntry.Fits (e : IsrCliDirEntry) : Prop :=
  e.name.length < 256 ^ 2 ∧ e.size < 256 ^ 8

/-- The length of the record that a buffer begins with, going by its header. -/
def recordLength (buf : List UInt8) : Nat := 11 + ofBe ((buf.drop 9).take 2)

/-- The record that a buffer begins with. -/
def recordOf (buf : List UInt8) : IsrCliDirEntry where
  name := (buf.drop 11).take (ofBe ((buf.drop 9).take 2))
  size := ofBe ((buf.drop 1).take 8)
  isDirectory := buf.headD 0

/-- The buffer ends before its first record does. -/
def Torn (buf : List UInt8) : Prop := buf.length < recordLength buf

theorem torn_nil : Torn [] := show 0 < 11 by decide

/-- The tests of the parser, one for the header and one for the name. -/
theorem torn_iff (buf : List UInt8) : Torn buf ↔
    buf.length < 11 ∨ (buf.drop 11).length < ofBe ((buf.drop 9).take 2) := by
  unfold Torn recordLength
  rw [List.length_drop]
  omega

section Fits

variable {e : IsrCliDirEntry} (h : e.Fits) (rest : List UInt8)

include h

theorem IsrCliDirEntry.Fits.pathLen : pathLen e.name = e.name.length := Nat.mod_eq_of_lt h.1

theorem IsrCliDirEntry.Fits.bytes : entryBytes e =
    e.isDirectory :: (toBe 8 e.size ++ (toBe 2 e.name.length ++ e.name)) := by
  have hlen := h.pathLen
  rw [entryBytes, IsrCliDirEntry.header, hlen, List.take_length, List.cons_append,
    List.append_assoc]

/-- What is left of a buffer behind the first eight bytes of its first size. -/
theorem drop_entryBytes (k : Nat) : (entryBytes e ++ rest).drop (9 + k) =
    (toBe 2 e.name.length ++ (e.name ++ rest)).drop k := by
  have hbytes : entryBytes e ++ rest =
      e.isDirectory :: (toBe 8 e.size ++ (toBe 2 e.name.length ++ (e.name ++ rest))) := by
    rw [h.bytes, List.cons_append, List.append_assoc, List.append_assoc]
  have hnine : 9 + k = (8 + k) + 1 := by omega
  rw [hbytes, hnine, List.drop_succ_cons, drop_toBe_append]

theorem nameLength_entryBytes :
    ofBe (((entryBytes e ++ rest).drop 9).take 2) = e.name.length := by
  have hdrop := drop_entryBytes h rest 0
  rw [List.drop_zero, Nat.add_zero] at hdrop
  rw [hdrop, take_toBe_append, ofBe_toBe_of_lt h.1]

/-- A record is read back, whatever follows it. -/
theorem recordOf_entryBytes : recordOf (entryBytes e ++ rest) = e := by
  have hname : ((entryBytes e ++ rest).drop 11).take e.name.length = e.name := by
    have hdrop := drop_entryBytes h rest 2
    rw [drop_toBe_append 2 _ 0, List.drop_zero] at hdrop
    rw [hdrop, List.take_left]
  have hsize : ofBe (((entryBytes e ++ rest).drop 1).take 8) = e.size := by
    rw [h.bytes, List.cons_append, List.drop_succ_cons, List.drop_zero, List.append_assoc,
      take_toBe_append, ofBe_toBe_of_lt h.2]
  rw [recordOf, nameLength_entryBytes h, hname, hsize, h.bytes]
  rfl

theorem recordLength_entryBytes :
    recordLength (entryBytes e ++ rest) = (entryBytes e).length := by
  rw [recordLength, nameLength_entryBytes h, length_entryBytes, h.pathLen]

/-- Neither pass stops at a record that is complete. -/
theorem not_torn_entryBytes : ¬ (entryBytes e ++ rest).length < 11 ∧
    ¬ ((entryBytes e ++ rest).drop 11).length <
      ofBe (((entryBytes e ++ rest).drop 9).take 2) := by
  have hnot : ¬ Torn (entryBytes e ++ rest) := by
    unfold Torn
    rw [recordLength_entryBytes h, List.length_append]
    omega
  rwa [torn_iff, not_or] at hnot

/-- Both passes go on behind it. -/
theorem drop_record : ((entryBytes e ++ rest).drop 11).drop
    (ofBe (((entryBytes e ++ rest).drop 9).take 2)) = rest := by
  have hlength : 11 + ofBe (((entryBytes e ++ rest).drop 9).take 2) = (entryBytes e).length :=
    recordLength_entryBytes h rest
  rw [List.drop_drop, hlength, List.drop_left]

end Fits

/-- A buffer that holds its first record begins with the bytes of it. -/
theorem entryBytes_recordOf {buf : List UInt8} (h : ¬ Torn buf) :
    (recordOf buf).Fits ∧ buf = entryBytes (recordOf buf) ++ buf.drop (recordLength buf) := by
  have hlen : 11 + ofBe ((buf.drop 9).take 2) ≤ buf.length := Nat.not_lt.mp h
  have htwo : ((buf.drop 9).take 2).length = 2 := by
    rw [List.length_take, List.length_drop]
    omega
  have height : ((buf.drop 1).take 8).length = 8 := by
    rw [List.length_take, List.length_drop]
    omega
  have hname : (recordOf buf).name.length = ofBe ((buf.drop 9).take 2) := by
    rw [recordOf, List.length_take, List.length_drop]
    omega
  have hfits : (recordOf buf).Fits := by
    refine ⟨?_, ?_⟩
    · have hlt := ofBe_lt ((buf.drop 9).take 2)
      rwa [htwo, ← hname] at hlt
    · have hlt := ofBe_lt ((buf.drop 1).take 8)
      rwa [height] at hlt
  refine ⟨hfits, ?_⟩
  have hsize : toBe 8 (recordOf buf).size = (buf.drop 1).take 8 := by
    have hbe := toBe_ofBe ((buf.drop 1).take 8)
    rwa [height] at hbe
  have hnameLen : toBe 2 (recordOf buf).name.length = (buf.drop 9).take 2 := by
    have hbe := toBe_ofBe ((buf.drop 9).take 2)
    rw [htwo] at hbe
    rw [hname, hbe]
  rw [hfits.bytes, hsize, hnameLen]
  cases buf with
  | nil => simp at hlen
  | cons b buf =>
    have h8 : (buf.drop 8).drop 2 = buf.drop 10 := List.drop_drop
    have h10 : (buf.drop 10).drop (ofBe ((buf.drop 8).take 2)) =
        buf.drop (10 + ofBe ((buf.drop 8).take 2)) := List.drop_drop
    have hall : (b :: buf).drop (recordLength (b :: buf)) =
        buf.drop (10 + ofBe ((buf.drop 8).take 2)) := by
      have hsucc : recordLength (b :: buf) = 10 + ofBe ((buf.drop 8).take 2) + 1 := by
        simp only [recordLength, List.drop_succ_cons]
        omega
      rw [hsucc, List.drop_succ_cons]
    rw [hall]
    simp only [recordOf, List.drop_succ_cons, List.drop_zero, List.headD_cons, List.cons_append,
      List.append_assoc]
    rw [← h10, List.take_append_drop, ← h8, List.take_append_drop, List.take_append_drop]

/-- Every buffer is complete records, and then something that begins with none. -/
theorem exists_records (buf : List UInt8) : ∃ es rest,
    (∀ e ∈ es, IsrCliDirEntry.Fits e) ∧ Torn rest ∧ buf = listingBytes es ++ rest := by
  induction hn : buf.length using Nat.strong_induction_on generalizing buf with
  | _ n ih =>
    by_cases htorn : Torn buf
    · exact ⟨[], buf, by simp, htorn, rfl⟩
    · obtain ⟨hfits, hbuf⟩ := entryBytes_recordOf htorn
      have hshort : (buf.drop (recordLength buf)).length < n := by
        have hle : recordLength buf ≤ buf.length := Nat.not_lt.mp htorn
        have hpos : 0 < recordLength buf := Nat.add_pos_left (by decide) _
        rw [List.length_drop]
        omega
      obtain ⟨es, rest, hes, hrest, hdrop⟩ := ih _ hshort _ rfl
      refine ⟨recordOf buf :: es, rest, List.forall_mem_cons.mpr ⟨hfits, hes⟩, hrest, ?_⟩
      rw [listingBytes_cons, List.append_assoc, ← hdrop]
      exact hbuf

/-- The bytes of a listing begin with no other entries than its own, even if something that
is no record follows them. -/
theorem prefix_of_listingBytes {es es' : List IsrCliDirEntry} {rest rest' : List UInt8}
    (hes : ∀ e ∈ es, IsrCliDirEntry.Fits e) (hes' : ∀ e ∈ es', IsrCliDirEntry.Fits e)
    (hrest : Torn rest) (h : listingBytes es ++ rest = listingBytes es' ++ rest') :
    es' <+: es := by
  induction es' generalizing es with
  | nil => exact List.nil_prefix
  | cons e' es' ih =>
    have hfits' := List.forall_mem_cons.mp hes'
    rw [listingBytes_cons e', List.append_assoc] at h
    cases es with
    | nil =>
      rw [listingBytes_nil, List.nil_append] at h
      have hnot := not_torn_entryBytes hfits'.1 (listingBytes es' ++ rest')
      rw [← h] at hnot
      exact absurd ((torn_iff rest).mp hrest) (not_or.mpr hnot)
    | cons e es =>
      have hfits := List.forall_mem_cons.mp hes
      rw [listingBytes_cons, List.append_assoc] at h
      obtain rfl : e = e' := by
        rw [← recordOf_entryBytes hfits.1 (listingBytes es ++ rest), h,
          recordOf_entryBytes hfits'.1]
      exact (List.prefix_cons_inj e).mpr (ih hfits.2 hfits'.2 (List.append_cancel_left h))

/-! ## The two passes -/

/-- The first pass counts the complete records. -/
theorem countEntries_records {es : List IsrCliDirEntry} {rest : List UInt8}
    (hes : ∀ e ∈ es, IsrCliDirEntry.Fits e) (hrest : Torn rest) :
    ∀ fuel, (listingBytes es ++ rest).length ≤ fuel →
      countEntries fuel (listingBytes es ++ rest) = es.length := by
  induction es with
  | nil =>
    intro fuel _
    cases fuel with
    | zero => rfl
    | succ fuel =>
      rw [listingBytes_nil, List.nil_append, countEntries]
      rcases (torn_iff rest).mp hrest with hlen | hlen
      · rw [if_pos hlen, List.length_nil]
      · split
        · rfl
        · exact if_pos hlen
  | cons e es ih =>
    intro fuel hfuel
    obtain ⟨he, hes⟩ := List.forall_mem_cons.mp hes
    rw [listingBytes_cons, List.append_assoc] at hfuel ⊢
    have hlong : 11 ≤ (entryBytes e).length := by
      rw [length_entryBytes]
      omega
    have hnot := not_torn_entryBytes he (listingBytes es ++ rest)
    cases fuel with
    | zero =>
      rw [List.length_append] at hfuel
      omega
    | succ fuel =>
      have hle : (listingBytes es ++ rest).length ≤ fuel := by
        rw [List.length_append] at hfuel
        omega
      rw [countEntries, if_neg hnot.1]
      simp only [if_neg hnot.2, drop_record he]
      rw [ih hes fuel hle, List.length_cons]

/-- The second pass stores them, or does not find the memory for a name. -/
theorem ensures_parseEntries (hP : Permits A) {es : List IsrCliDirEntry} {rest : List UInt8}
    (hes : ∀ e ∈ es, IsrCliDirEntry.Fits e) :
    ∀ {Q : Option (List IsrCliDirEntry) → World → Prop}, Q (some es) w →
      (F.alloc → Q none w) →
      Ensures (machine F lossy eof) A (parseEntries es.length (listingBytes es ++ rest)) Q w := by
  induction es with
  | nil => exact fun hQ _ => hQ
  | cons e es ih =>
    intro Q hQ hfail
    obtain ⟨he, hes⟩ := List.forall_mem_cons.mp hes
    rw [listingBytes_cons, List.append_assoc, List.length_cons, parseEntries]
    have hnot := not_torn_entryBytes he (listingBytes es ++ rest)
    have hrecord := recordOf_entryBytes he (listingBytes es ++ rest)
    rw [if_neg hnot.1]
    simp only [if_neg hnot.2, drop_record he]
    rw [ensures_bind, ensures_malloc]
    refine ⟨hP.malloc _ _, ?_, fun hf => hfail hf⟩
    rw [if_neg (by decide), ensures_bind]
    refine ih hes ?_ hfail
    change Q (some (recordOf (entryBytes e ++ (listingBytes es ++ rest)) :: es)) w
    rw [hrecord]
    exact hQ

/-- The rule for `isr_cli_parse_directory_listing`. -/
theorem ensures_isrCliParseDirectoryListing (hP : Permits A) {es : List IsrCliDirEntry}
    {rest : List UInt8} (hes : ∀ e ∈ es, IsrCliDirEntry.Fits e) (hrest : Torn rest)
    {Q : Option (List IsrCliDirEntry) × Nat → World → Prop}
    (hempty : es = [] → Q (none, 0) w) (hok : es ≠ [] → Q (some es, es.length) w)
    (hfail : F.alloc → Q (none, 0) w) :
    Ensures (machine F lossy eof) A (isrCliParseDirectoryListing (listingBytes es ++ rest)) Q
      w := by
  unfold isrCliParseDirectoryListing
  simp only [countEntries_records hes hrest _ (Nat.le_refl _)]
  by_cases hes0 : es = []
  · rw [if_pos (by rw [hes0, List.length_nil])]
    exact hempty hes0
  · rw [if_neg (by rwa [List.length_eq_zero_iff]), ensures_bind, ensures_malloc]
    refine ⟨hP.malloc _ _, ?_, fun hf => hfail hf⟩
    rw [if_neg (by decide), ensures_bind]
    exact ensures_parseEntries hP hes (hok hes0) hfail

end IsrTransfer
