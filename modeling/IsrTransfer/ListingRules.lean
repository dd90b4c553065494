import IsrTransfer.Listing
import IsrTransfer.StreamRules

/-!
# What the listing functions do

The server turns the names of a directory into entries, in the order in which it
gets them (`Collected`), and what it then sends is determined by the entries
(`listingBytes`).

What `readdir` and `stat` give is up to the system, so that `Collected` is a relation.  The rest
of the server's work is a function of the entries: their bytes, the length of these, and their
checksum, which the loop sums up record by record and which is the checksum of the whole
(`ensures_sendEntries`).

The two receivers begin with the same steps and differ in what they say about a wrong checksum;
so there is one rule for what they have in common (`ensures_receiveListing`).  A receiver asks for
no more bytes than were announced and eight more, and this is in the rules, because a wait for
bytes that do not come is a matter of how many are asked for.
-/

namespace IsrTransfer

open Effect Posix

variable {F : Faults} {lossy eof : Bool} {A : Guard (NetOp OsOp) World} {w : World}

/-- An entry on the wire. -/
def entryBytes (e : IsrCliDirEntry) : List UInt8 := e.header ++ e.name.take (pathLen e.name)

/-- The entries of a listing on the wire. -/
def listingBytes (es : List IsrCliDirEntry) : List UInt8 := (es.map entryBytes).flatten

@[simp] theorem listingBytes_nil : listingBytes [] = [] := rfl

@[simp] theorem listingBytes_cons (e : IsrCliDirEntry) (es : List IsrCliDirEntry) :
    listingBytes (e :: es) = entryBytes e ++ listingBytes es := rfl

@[simp] theorem length_header (e : IsrCliDirEntry) : e.header.length = 11 := by
  simp [IsrCliDirEntry.header]

theorem length_entryBytes (e : IsrCliDirEntry) : (entryBytes e).length = 11 + pathLen e.name := by
  have hle : pathLen e.name ≤ e.name.length := Nat.mod_le _ _
  rw [entryBytes, List.length_append, length_header, List.length_take, Nat.min_eq_left hle]

/-- The entry the server makes of a name, given what `stat` says. -/
def entryOf (name : Name) (r : Option (Bool × Nat)) : IsrCliDirEntry where
  name := name.take 255
  size := (r.getD (false, 0)).2
  isDirectory := if (r.getD (false, 0)).1 then 1 else 0

/-- `es` are the entries the server makes of `names`. -/
inductive Collected (s : Sys) (path : List UInt8) :
    List Name → List IsrCliDirEntry → Prop where
  | nil : Collected s path [] []
  | skip {name : Name} {names : List Name} {es : List IsrCliDirEntry} :
      name = dot ∨ name = dotdot → Collected s path names es →
        Collected s path (name :: names) es
  | entry {name : Name} {names : List Name} {es : List IsrCliDirEntry}
      {r : Option (Bool × Nat)} : ¬ (name = dot ∨ name = dotdot) →
        s.StatStep (snprintfPath path name isrPathMax) r → Collected s path names es →
        Collected s path (name :: names) (entryOf name r :: es)

theorem ensures_growEntries (hP : Permits A) {count capacity : Nat}
    {Q : Option Nat → World → Prop} (hfail : F.alloc → Q none w)
    (hQ : ∀ n, Q (some n) w) :
    Ensures (machine F lossy eof) A (growEntries count capacity) Q w := by
  unfold growEntries
  split
  · exact hQ capacity
  · rw [ensures_bind, ensures_malloc]
    exact ⟨hP.malloc _ _, hQ (capacity * 2), hfail⟩

/-- The loop over the directory gives the entries, or finds no memory for them. -/
theorem ensures_collectEntries (hP : Permits A) {path : List UInt8}
    {Q : Option (List IsrCliDirEntry × Nat) → World → Prop}
    (hstat : ∀ p, A w (.sys (.stat p))) (names : List Name) :
    ∀ {entries : List IsrCliDirEntry} {capacity totalSize : Nat},
    (F.alloc → Q none w) →
    (∀ es, Collected w.sys path names es →
      Q (some (entries ++ es, totalSize + (listingBytes es).length)) w) →
    Ensures (machine F lossy eof) A (collectEntries path names entries capacity totalSize) Q w := by
  induction names with
  | nil =>
    intro entries capacity totalSize _ hQ
    have hq := hQ [] .nil
    rw [List.append_nil] at hq
    exact hq
  | cons name names ih =>
    intro entries capacity totalSize hfail hQ
    rw [collectEntries]
    split
    case isTrue hdots => exact ih hfail fun es hes => hQ es (.skip hdots hes)
    case isFalse hdots =>
      rw [ensures_bind]
      refine ensures_growEntries hP hfail fun n => ?_
      rw [ensures_bind, ensures_stat]
      refine ⟨hstat _, fun r hr => ?_⟩
      refine ih hfail fun es hes => ?_
      have hq := hQ (entryOf name r :: es) (.entry hdots hr hes)
      have hlen : totalSize + (listingBytes (entryOf name r :: es)).length =
          totalSize + 1 + 8 + 2 + pathLen (name.take 255) + (listingBytes es).length := by
        rw [listingBytes_cons, List.length_append, length_entryBytes]
        simp only [entryOf]
        omega
      rw [hlen] at hq
      rw [List.append_assoc]
      exact hq

/-- The entries are streamed, and their bytes summed up. -/
theorem ensures_sendEntries (hP : Permits A) {Q : Option Nat → World → Prop}
    (es : List IsrCliDirEntry) : ∀ {done : List UInt8} {w : World},
    Q (some (checksumOf (done ++ listingBytes es))) (w.sent (listingBytes es)) →
    (lossy → ∀ data, Q none (w.sent data)) →
    Ensures (machine F lossy eof) A (sendEntries es (checksumOf done)) Q w := by
  induction es with
  | nil =>
    intro done w hQ _
    rw [listingBytes_nil, List.append_nil, Proc.sent_nil] at hQ
    exact hQ
  | cons e es ih =>
    intro done w hQ hfail
    rw [sendEntries]
    simp only [checksumOf_append]
    refine ensures_sendOr hP ?_ (fun hl k _ => hfail hl _)
    refine ensures_sendOr hP ?_ (fun hl k _ => by rw [Proc.sent_sent]; exact hfail hl _)
    rw [Proc.sent_sent, List.append_assoc]
    refine ih ?_ fun hl data => by rw [Proc.sent_sent]; exact hfail hl _
    rw [Proc.sent_sent, List.append_assoc]
    exact hQ

/-- What has to be shown about `isr_transmit_recv_directory_listing`. -/
structure ListingCases (F : Faults) (lossy eof : Bool) (A : Guard (NetOp OsOp) World)
    (path : List UInt8) (Q : Int → World → Prop) (w : World) : Prop where
  /-- The directory is opened. -/
  opendir : A w (.sys (.opendir path))
  /-- An entry is looked up. -/
  stat : ∀ p, A w (.sys (.stat p))
  /-- There is no memory, or the directory cannot be opened. -/
  fail : (F.alloc ∨ F.opens ∨ w.sys.OpendirStep path none) → Q (-1) w
  /-- The confirmation does not get through. -/
  cut : ∀ n k, lossy → k < sizeofRecvConfirmation →
    Q (-1) (w.sent ((confirmation isrRecvTypeDirectory n).take k))
  /-- The client's answer is received. -/
  recv : ∀ n, A (w.sent (confirmation isrRecvTypeDirectory n)) (.recv 1 1)
  /-- The client does not answer. -/
  silent : ∀ n, (lossy ∨ (eof ∧ w.rx = [])) →
    Q (-1) (w.sent (confirmation isrRecvTypeDirectory n))
  /-- The client does not want the listing. -/
  unable : ∀ n rest, w.rx = isrRecvUnable :: rest →
    Q 0 ((w.received 1).sent (confirmation isrRecvTypeDirectory n))
  /-- The listing is streamed. -/
  data : ∀ names es go rest, w.sys.OpendirStep path (some names) → Collected w.sys path names es →
    w.rx = go :: rest → go ≠ isrRecvUnable →
    Q 0 ((w.received 1).sent (confirmation isrRecvTypeDirectory (listingBytes es).length ++
      plainStream (listingBytes es)))
  /-- The listing does not get through. -/
  lost : ∀ go rest, w.rx = go :: rest → go ≠ isrRecvUnable → lossy → ∀ data,
    Q (-1) ((w.received 1).sent data)

theorem ensures_isrTransmitRecvDirectoryListing (hP : Permits A) {path : List UInt8}
    {Q : Int → World → Prop} (h : ListingCases F lossy eof A path Q w) :
    Ensures (machine F lossy eof) A (isrTransmitRecvDirectoryListing path) Q w := by
  unfold isrTransmitRecvDirectoryListing
  rw [ensures_bind, ensures_malloc]
  refine ⟨hP.malloc _ _, ?_, fun hf => h.fail (Or.inl hf)⟩
  rw [if_neg (by decide), ensures_bind, ensures_opendir]
  refine ⟨h.opendir, fun r hr => ?_, fun hf => h.fail (Or.inr (Or.inl hf))⟩
  cases r with
  | none => exact h.fail (Or.inr (Or.inr hr))
  | some names =>
    simp only
    rw [ensures_bind]
    refine ensures_collectEntries hP h.stat names (fun hf => h.fail (Or.inl hf)) fun es hes => ?_
    rw [List.nil_append, Nat.zero_add]
    simp only
    rw [ensures_bind]
    refine ensures_isrSendRecvConfirmation hP ?_ (fun hl k hk => ?_)
    · rw [if_neg (by decide), ensures_bind]
      refine ensures_netRecvByte (h.recv _) (fun go rest hrx => ?_) (h.silent _)
      rw [Proc.sent_rx] at hrx
      by_cases hgo : go = isrRecvUnable
      · subst hgo
        exact h.unable _ rest hrx
      · have hne : ¬ [go] = [isrRecvUnable] := by simpa using hgo
        simp only [if_neg hne]
        rw [ensures_bind]
        change Ensures _ _ (sendEntries es (checksumOf [])) _ _
        refine ensures_sendEntries hP es ?_ (fun hl data => ?_)
        · refine ensures_sendOr hP ?_ (fun hl k _ => ?_)
          · have hq := h.data names es go rest hr hes hrx hgo
            rw [ensures_pure, List.nil_append, Proc.sent_sent, Proc.received_sent,
              Proc.sent_sent]
            exact hq
          · rw [Proc.received_sent, Proc.sent_sent, Proc.sent_sent]
            exact h.lost go rest hrx hgo hl _
        · rw [Proc.received_sent, Proc.sent_sent]
          exact h.lost go rest hrx hgo hl _
    · rw [if_pos rfl]
      exact h.cut _ k hl hk

/-! ## Receiving -/

/-- The rule for the part that both receivers have in common. -/
theorem ensures_receiveListing (hP : Permits A) {n : Nat}
    {Q : Option (List UInt8 × Bool) → World → Prop}
    (hrecv : ∀ k room len, k ≤ w.rx.length → 0 < len → len ≤ room → k + len ≤ n + 8 →
      A (w.received k) (.recv room len))
    (hok : n + 8 ≤ w.rx.length →
      Q (some (w.rx.take n, ofBe ((w.rx.drop n).take 8) = isrCountByteValues (w.rx.take n)))
        (w.received (n + 8)))
    (hfail : ∀ k, k ≤ w.rx.length → k < n + 8 →
      (lossy ∨ F.alloc ∨ (eof ∧ k = w.rx.length)) → Q none (w.received k)) :
    Ensures (machine F lossy eof) A (receiveListing n) Q w := by
  unfold receiveListing
  rw [ensures_bind, ensures_malloc]
  refine ⟨hP.malloc _ _, ?_, fun hf => ?_⟩
  · rw [if_neg (by decide), ensures_bind]
    refine ensures_netRecvExact (fun k hk hkr => ?_) (fun hlen => ?_) (fun k hk hkr hl => ?_)
    · exact hrecv k _ _ hkr (by omega) (by omega) (by omega)
    · simp only
      rw [ensures_bind]
      refine ensures_netRecvExact (fun k hk hkr => ?_) (fun hlen8 => ?_) (fun k hk hkr hl => ?_)
      · rw [Proc.received_rx, List.length_drop] at hkr
        rw [Proc.received_received]
        exact hrecv (n + k) _ _ (by omega) (by omega) (by omega) (by omega)
      · rw [Proc.received_rx, List.length_drop] at hlen8
        rw [Proc.received_received]
        exact hok (by omega)
      · rw [Proc.received_rx, List.length_drop] at hkr hl
        rw [Proc.received_received]
        refine hfail (n + k) (by omega) (by omega) ?_
        rcases hl with hl | ⟨he, hl⟩
        · exact Or.inl hl
        · exact Or.inr (Or.inr ⟨he, by omega⟩)
    · refine hfail k hkr (by omega) ?_
      rcases hl with hl | hl
      · exact Or.inl hl
      · exact Or.inr (Or.inr hl)
  · rw [if_pos rfl]
    have h := hfail 0 (Nat.zero_le _) (by omega) (Or.inr (Or.inl hf))
    rwa [Proc.received_zero] at h

/-- The rule for `recv_verified_listing`. -/
theorem ensures_recvVerifiedListing (hP : Permits A) {n : Nat}
    {Q : Option (List UInt8) → World → Prop}
    (hrecv : ∀ k room len, k ≤ w.rx.length → 0 < len → len ≤ room → k + len ≤ n + 8 →
      A (w.received k) (.recv room len))
    (hok : n + 8 ≤ w.rx.length →
      ofBe ((w.rx.drop n).take 8) = isrCountByteValues (w.rx.take n) →
      Q (some (w.rx.take n)) (w.received (n + 8)))
    (hbad : n + 8 ≤ w.rx.length →
      ofBe ((w.rx.drop n).take 8) ≠ isrCountByteValues (w.rx.take n) →
      Q none ((w.received (n + 8)).withSys { w.sys with
        errors := w.sys.errors ++ [⟨"Checksum mismatch for directory listing\n", []⟩] }))
    (hfail : ∀ k, k ≤ w.rx.length → k < n + 8 →
      (lossy ∨ F.alloc ∨ (eof ∧ k = w.rx.length)) → Q none (w.received k)) :
    Ensures (machine F lossy eof) A (recvVerifiedListing n) Q w := by
  unfold recvVerifiedListing
  rw [ensures_bind]
  refine ensures_receiveListing hP hrecv (fun hlen => ?_) hfail
  by_cases hsum : ofBe ((w.rx.drop n).take 8) = isrCountByteValues (w.rx.take n)
  · simp only [hsum, decide_true, Bool.true_eq_false, if_false]
    exact hok hlen hsum
  · simp only [hsum, decide_false, if_true]
    rw [ensures_bind, ensures_eprint]
    exact ⟨hP.eprint _ _, hbad hlen hsum⟩

/-- `v` is `w` with some lines on standard output. -/
def Prints (w v : World) : Prop :=
  ∃ lines, v = w.withSys { w.sys with printed := w.sys.printed ++ lines }

theorem Prints.refl (w : World) : Prints w w := ⟨[], by rw [List.append_nil]; rfl⟩

theorem ensures_printEntries (hP : Permits A) {Q : Unit → World → Prop} (fuel : Nat) :
    ∀ {rest : List UInt8} {w : World}, (∀ v, Prints w v → Q () v) →
    Ensures (machine F lossy eof) A (printEntries fuel rest) Q w := by
  induction fuel with
  | zero => exact fun h => h _ (Prints.refl _)
  | succ fuel ih =>
    intro rest w h
    have hnow : Q () w := h w (Prints.refl w)
    have hprint : ∀ line rest', Ensures (machine F lossy eof) A (do
        sysCall (.print line)
        printEntries fuel rest') Q w := by
      intro line rest'
      rw [ensures_bind, ensures_print]
      refine ⟨hP.print _ _, ih fun v hv => ?_⟩
      obtain ⟨lines, rfl⟩ := hv
      exact h _ ⟨line :: lines, by simp⟩
    rw [printEntries]
    split
    · exact hnow
    · simp only
      split
      · exact hnow
      · split
        · exact hprint _ _
        · exact hprint _ _

/-- The rule for `isr_receive_directory_listing`. -/
theorem ensures_isrReceiveDirectoryListing (hP : Permits A) {n : Nat} {Q : Int → World → Prop}
    (hrecv : ∀ k room len, k ≤ w.rx.length → 0 < len → len ≤ room → k + len ≤ n + 8 →
      A (w.received k) (.recv room len))
    (hok : n + 8 ≤ w.rx.length →
      ofBe ((w.rx.drop n).take 8) = isrCountByteValues (w.rx.take n) → ∀ v,
      Prints (w.received (n + 8)) v → Q 0 v)
    (hbad : n + 8 ≤ w.rx.length →
      ofBe ((w.rx.drop n).take 8) ≠ isrCountByteValues (w.rx.take n) →
      Q (-1) (w.received (n + 8)))
    (hfail : ∀ k, k ≤ w.rx.length → k < n + 8 →
      (lossy ∨ F.alloc ∨ (eof ∧ k = w.rx.length)) → Q (-1) (w.received k)) :
    Ensures (machine F lossy eof) A (isrReceiveDirectoryListing n) Q w := by
  unfold isrReceiveDirectoryListing
  rw [ensures_bind]
  refine ensures_receiveListing hP hrecv (fun hlen => ?_) hfail
  by_cases hsum : ofBe ((w.rx.drop n).take 8) = isrCountByteValues (w.rx.take n)
  · simp only [hsum, decide_true, Bool.true_eq_false, if_false]
    rw [ensures_bind]
    exact ensures_printEntries hP _ fun v hv => hok hlen hsum v hv
  · simp only [hsum, decide_false, if_true]
    exact hbad hlen hsum

end IsrTransfer
