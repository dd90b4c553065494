import IsrTransfer.ListingParser

/-!
# A directory listing survives the wire

The server computes the length of a listing while it collects the entries, the client
cuts the bytes into entries again.  In between there are four computations that have to
agree: the length that is announced, the bytes that are streamed, the checksum that is
summed up record by record, and the two passes of the parser.

They do so for every directory whose entries fit into the fields (`listing_roundTrip`):
names are at most 255 bytes long, because a file system has no others, sizes are below
`2 ^ 64`, and there are fewer than `2 ^ 31` entries, so that the whole length fits too.

## The entries

The entries are those of the directory, in the order in which the system names them, which is any;
`.` and `..` are left out, and nothing else is (`Collected.names`).  For each there is what `stat`
says of it at that moment (`Collected.exists_stat`).  It may say that there is nothing, as for a
link that leads nowhere, and then the entry goes out as a file of size 0.

## Both sides

`ListingSent` is what the server has done, as a change of its side of the connection, and
`ListingReceived` is what any client makes of such bytes, with anything after them.  So the round
trip is put together from a rule for the server, which gives the entries, and a rule for the
receiver, in which the parser finds the entries again (`ensures_isrCliParseDirectoryListing`).  That
the server does send the listing if nothing fails is a part of its own, since a rule about all runs
does not say that there is one.
-/

namespace IsrTransfer

open Effect Posix

/-! ## The entries of a directory -/

theorem ValidName.pathLen {n : Name} (h : ValidName n) : pathLen n = n.length :=
  Nat.mod_eq_of_lt (h.2.2.2.2.2.trans_lt (by decide))

/-- What a directory lists has a legal name, apart from `.` and `..`. -/
theorem validName_of_opendir {s : Sys} {path : List UInt8} {names : List Name}
    (h : s.OpendirStep path (some names)) {n : Name} (hn : n ∈ names)
    (hdots : ¬ (n = dot ∨ n = dotdot)) : ValidName n := by
  unfold Sys.OpendirStep at h
  split at h
  · exact absurd h (by simp)
  · split at h
    case h_1 l _ _ =>
      obtain ⟨names', hperm, hnames⟩ := h
      obtain rfl := Option.some.inj hnames
      have hmem := hperm.mem_iff.mp hn
      rw [List.mem_cons, List.mem_cons, ← or_assoc] at hmem
      obtain ⟨nd, hnode⟩ := FS.mem_children.mp (hmem.resolve_left hdots)
      exact (s.fs.ok _ (FS.mem_of_node hnode)).1
    case h_2 => exact absurd h (by simp)

/-- The entries carry the names, uncut and in order. -/
theorem Collected.names {s : Sys} {path : List UInt8} {names : List Name}
    {es : List IsrCliDirEntry} (h : Collected s path names es)
    (hvalid : ∀ n ∈ names, ¬ (n = dot ∨ n = dotdot) → ValidName n) :
    es.map IsrCliDirEntry.name = names.filter fun n => ¬ (n = dot ∨ n = dotdot) := by
  induction h with
  | nil => rfl
  | skip hdots _ ih =>
    rw [List.filter_cons_of_neg (by simpa only [decide_eq_true_eq, not_not] using hdots)]
    exact ih fun n hn => hvalid n (List.mem_cons_of_mem _ hn)
  | @entry name names es r hdots hstat _ ih =>
    have hlen := (hvalid name List.mem_cons_self hdots).2.2.2.2.2
    have hname : (entryOf name r).name = name := List.take_of_length_le hlen
    rw [List.filter_cons_of_pos (by simpa only [decide_eq_true_eq] using hdots), List.map_cons,
      hname, ih fun n hn => hvalid n (List.mem_cons_of_mem _ hn)]

/-- A name has room for 255 bytes. -/
theorem Collected.length_name {s : Sys} {path : List UInt8} {names : List Name}
    {es : List IsrCliDirEntry} (h : Collected s path names es) :
    ∀ e ∈ es, e.name.length ≤ 255 := by
  induction h with
  | nil => simp
  | skip _ _ ih => exact ih
  | entry _ _ _ ih =>
    refine List.forall_mem_cons.mpr ⟨?_, ih⟩
    rw [entryOf, List.length_take]
    exact Nat.min_le_left _ _

/-- An entry says what `stat` said. -/
theorem Collected.exists_stat {s : Sys} {path : List UInt8} {names : List Name}
    {es : List IsrCliDirEntry} (h : Collected s path names es) : ∀ e ∈ es, ∃ n r, n ∈ names ∧
      ¬ (n = dot ∨ n = dotdot) ∧ s.StatStep (snprintfPath path n isrPathMax) r ∧
      e = entryOf n r := by
  induction h with
  | nil => simp
  | skip _ _ ih =>
    intro e he
    obtain ⟨n, r, hn, hstat⟩ := ih e he
    exact ⟨n, r, List.mem_cons_of_mem _ hn, hstat⟩
  | @entry name names es r hdots hstat _ ih =>
    refine List.forall_mem_cons.mpr ⟨⟨name, r, List.mem_cons_self, hdots, hstat, rfl⟩, ?_⟩
    intro e he
    obtain ⟨n, r, hn, hstat⟩ := ih e he
    exact ⟨n, r, List.mem_cons_of_mem _ hn, hstat⟩

/-- A record takes at most 266 bytes. -/
theorem length_listingBytes_le {es : List IsrCliDirEntry} (h : ∀ e ∈ es, e.name.length ≤ 255) :
    (listingBytes es).length ≤ 266 * es.length := by
  induction es with
  | nil => simp
  | cons e es ih =>
    obtain ⟨he, hes⟩ := List.forall_mem_cons.mp h
    have hle : pathLen e.name ≤ e.name.length := Nat.mod_le _ _
    have hrest := ih hes
    rw [listingBytes_cons, List.length_append, length_entryBytes, List.length_cons]
    omega

/-! ## The law

Sending and receiving are apart, with the bytes between them.  `ListingSent` is about what the
server has put on the wire, `ListingReceived` about every client that finds these bytes,
whatever else is on its connection. -/

/-- A client that finds the listing on its connection, whatever follows it, takes the
bytes and their checksum, and makes of them the entries that have been sent: as many
records as there are bytes for. -/
def ListingReceived (es : List IsrCliDirEntry) : Prop :=
  ∀ (G : Faults) (eof : Bool) (following : List UInt8) (u : World), G.alloc = false →
    u.rx = plainStream (listingBytes es) ++ following →
    Terminates (machine G false eof) (recvVerifiedListing (listingBytes es).length)
      (fun buf v => buf = some (listingBytes es) ∧ v = u.received (plainStream
        (listingBytes es)).length ∧ v.rx = following) u ∧
    Terminates (machine G false eof) (isrCliParseDirectoryListing (listingBytes es))
      (fun r v => r = (if es = [] then none else some es, es.length) ∧ v = u ∧
        (es.map fun e => 11 + e.name.length).sum = (listingBytes es).length) u

/-- The server in the state `v` has announced the length of a listing and streamed it,
since it was in the state `w`. -/
def ListingSent (w v : World) (es : List IsrCliDirEntry) : Prop :=
  v.tx = w.tx ++ (confirmation isrRecvTypeDirectory (listingBytes es).length ++
      plainStream (listingBytes es)) ∧
    IsrRecvConfirmation.ofBytes (confirmation isrRecvTypeDirectory (listingBytes es).length) =
      ⟨isrRecvTypeDirectory, (listingBytes es).length⟩

/-- Entries that fit their fields are received. -/
theorem listingReceived {es : List IsrCliDirEntry} (hes : ∀ e ∈ es, IsrCliDirEntry.Fits e) :
    ListingReceived es := by
  intro G eof following u hG hrx
  have hstream : u.rx =
      listingBytes es ++ (toBe 8 (checksumOf (listingBytes es)) ++ following) := by
    rw [hrx, plainStream, List.append_assoc]
  have hlen : (plainStream (listingBytes es)).length = (listingBytes es).length + 8 := by
    rw [plainStream, List.length_append, length_toBe]
  have hlong : (listingBytes es).length + 8 ≤ u.rx.length := by
    rw [hrx, List.length_append, hlen]
    exact Nat.le_add_right _ _
  have htake : u.rx.take (listingBytes es).length = listingBytes es := by
    rw [hstream, List.take_left]
  have hsum : ofBe ((u.rx.drop (listingBytes es).length).take 8) =
      isrCountByteValues (u.rx.take (listingBytes es).length) := by
    rw [htake, hstream, List.drop_left, take_toBe_append, ofBe_checksumOf]
  have hnofail : ¬ G.alloc = true := by simp [hG]
  have hP := permits_answered G false eof
  constructor
  · refine ensures_recvVerifiedListing hP ?_ ?_ ?_ ?_
    · exact fun k room len _ hpos _ hk => answered_recv_within hpos (hk.trans hlong)
    · intro _ _
      refine ⟨congrArg some htake, by rw [hlen], ?_⟩
      rw [Proc.received_rx, ← hlen, hrx, List.drop_left]
    · exact fun _ hne => absurd hsum hne
    · intro k hk hshort hl
      rcases hl with hl | hl | ⟨-, hend⟩
      · exact absurd hl (by decide)
      · exact absurd hl hnofail
      · omega
  · have hcount : (es.map fun e => 11 + e.name.length).sum = (listingBytes es).length := by
      rw [listingBytes, List.length_flatten, List.map_map]
      refine congrArg List.sum (List.map_congr_left fun e he => ?_)
      rw [Function.comp_apply, length_entryBytes, (hes e he).pathLen]
    have hparse := @ensures_isrCliParseDirectoryListing G false eof _ u hP es [] hes torn_nil
      (fun r v => r = (if es = [] then none else some es, es.length) ∧ v = u ∧
        (es.map fun e => 11 + e.name.length).sum = (listingBytes es).length)
      (fun h => ⟨by rw [if_pos h, h, List.length_nil], rfl, hcount⟩)
      (fun h => ⟨by rw [if_neg h], rfl, hcount⟩) (fun hf => absurd hf hnofail)
    rwa [List.append_nil] at hparse

/-- **The round trip of a directory listing.**  A server whose client wants the listing
and for which nothing fails sends it.  Whenever it has, the entries are those of the
directory, in the order in which the system named them; and if they fit their fields, the
length that was announced is the number of bytes that followed, the checksum is right,
and the client makes the same entries of them. -/
theorem listing_roundTrip {F : Faults} {lossy eof : Bool} {path rest : List UInt8} {w : World}
    (hgo : w.rx = isrRecvGo :: rest) :
    (F.alloc = false → F.opens = false → lossy = false →
      (∃ l, w.sys.resolve path = some l ∧ w.sys.fs.node l = some .dir) →
      Terminates (machine F lossy eof) (isrTransmitRecvDirectoryListing path)
        (fun r _ => r = 0) w) ∧
    ∀ v, Reaches (machine F lossy eof) (isrTransmitRecvDirectoryListing path) w (.ret 0) v →
      ∃ names es, w.sys.OpendirStep path (some names) ∧ Collected w.sys path names es ∧
        (es.map IsrCliDirEntry.name = names.filter fun n => ¬ (n = dot ∨ n = dotdot)) ∧
        (es.length < 2 ^ 31 → (∀ e ∈ es, e.size < word64) →
          ListingSent w v es ∧ ListingReceived es) := by
  have hne : ∀ go rest', w.rx = go :: rest' → go = isrRecvGo := fun go rest' hrx =>
    (List.cons.inj (hrx.symm.trans hgo)).1
  have hsome : w.rx ≠ [] := by
    rw [hgo]
    exact List.cons_ne_nil _ _
  constructor
  · rintro hFa hFo hl ⟨l, hresolve, hnode⟩
    have hdir : ¬ w.sys.OpendirStep path none := by simp [Sys.OpendirStep, hresolve, hnode]
    have hnofail : ¬ F.alloc = true := by simp [hFa]
    refine ensures_isrTransmitRecvDirectoryListing (permits_answered F lossy eof) ?_
    constructor
    · exact answered_opendir path
    · exact fun p => answered_stat p
    · intro hf
      rcases hf with hf | hf | hf
      · exact absurd hf hnofail
      · exact absurd hf (by simp [hFo])
      · exact absurd hf hdir
    · exact fun _ _ hlossy => absurd hlossy (by simp [hl])
    · exact fun n => answered_recv (by decide) (Or.inl hsome)
    · rintro n (hlossy | ⟨-, hnil⟩)
      · exact absurd hlossy (by simp [hl])
      · exact absurd hnil hsome
    · exact fun _ _ _ => rfl
    · exact fun _ _ _ _ _ _ _ _ => rfl
    · exact fun _ _ _ _ hlossy => absurd hlossy (by simp [hl])
  · intro v hrun
    have hall : Ensures (machine F lossy eof) Anything (isrTransmitRecvDirectoryListing path)
        (fun r v => r = 0 → ∃ names es, w.sys.OpendirStep path (some names) ∧
          Collected w.sys path names es ∧ v.tx = w.tx ++
            (confirmation isrRecvTypeDirectory (listingBytes es).length ++
              plainStream (listingBytes es))) w := by
      have hminus : ¬ (-1 : Int) = 0 := by decide
      refine ensures_isrTransmitRecvDirectoryListing permits_anything ?_
      constructor
      · trivial
      · exact fun _ => trivial
      · exact fun _ h => absurd h hminus
      · exact fun _ _ _ _ h => absurd h hminus
      · exact fun _ => trivial
      · exact fun _ _ h => absurd h hminus
      · intro n rest' hrx
        exact absurd (hne _ _ hrx) (by decide)
      · exact fun names es go rest' hdir hes _ _ _ => ⟨names, es, hdir, hes, rfl⟩
      · exact fun _ _ _ _ _ _ h => absurd h hminus
    obtain ⟨names, es, hdir, hes, htx⟩ := hall.of_reaches hrun rfl
    refine ⟨names, es, hdir, hes, hes.names fun n hn => validName_of_opendir hdir hn, ?_⟩
    intro hcount hsizes
    have hname := hes.length_name
    have hlen := length_listingBytes_le hname
    refine ⟨⟨htx, ?_⟩, listingReceived fun e he => ⟨?_, hsizes e he⟩⟩
    · have hfits : (listingBytes es).length < 256 ^ 8 := by omega
      rw [confirmation, ofBytes_recvConfirmation, Nat.mod_eq_of_lt hfits]
    · exact (hname e he).trans_lt (by decide)

/-- The directory `/` with the file `/f` of three bytes and the directory `/d` in it. -/
def fileAndDirectory : Sys :=
  .initial (((FS.empty.makeFile [[0x66]]).setData 0 [1, 2, 3]).makeDir [[0x64]])

theorem listing_roundTrip_fileAndDirectory : ∃ v es,
    Reaches (machine Faults.none false true) (isrTransmitRecvDirectoryListing [slash])
      (Proc.start fileAndDirectory [isrRecvGo]) (.ret 0) v ∧
      (es.map fun e => (e.name, e.isDirectory)).Perm [([0x66], 0), ([0x64], 1)] ∧
      ListingSent (Proc.start fileAndDirectory [isrRecvGo]) v es ∧ ListingReceived es := by
  have hlist := @listing_roundTrip Faults.none false true [slash] []
    (Proc.start fileAndDirectory [isrRecvGo]) rfl
  obtain ⟨r, v, hrun, rfl⟩ := (hlist.1 rfl rfl rfl ⟨[], by decide, rfl⟩).exists_ret
  obtain ⟨names, es, ⟨names', hperm, hnames⟩, hes, hname, hall⟩ := hlist.2 v hrun
  obtain rfl := Option.some.inj hnames
  have hlisted : (names.filter fun n => ¬ (n = dot ∨ n = dotdot)).Perm [[0x66], [0x64]] :=
    (hperm.filter _).trans (by decide)
  -- what `stat` says of the two
  have hentry : ∀ e ∈ es, e.size < word64 ∧
      e.isDirectory = if e.name = [0x64] then 1 else 0 := by
    intro e he
    obtain ⟨n, r, hn, hdots, hstat, rfl⟩ := hes.exists_stat e he
    have hmem := hlisted.mem_iff.mp (List.mem_filter.mpr ⟨hn, decide_eq_true hdots⟩)
    rcases List.mem_pair.mp hmem with rfl | rfl
    · obtain rfl : r = some (false, 3) := hstat
      decide
    · obtain ⟨size, hsize, rfl⟩ : ∃ size < word64, r = some (true, size) := hstat
      exact ⟨hsize, rfl⟩
  have hpairs : (es.map fun e => (e.name, e.isDirectory)) =
      (es.map IsrCliDirEntry.name).map fun n => (n, if n = [0x64] then 1 else 0) := by
    rw [List.map_map]
    exact List.map_congr_left fun e he => Prod.ext rfl (hentry e he).2
  have hcount : es.length = 2 := by
    rw [← List.length_map (f := IsrCliDirEntry.name), hname]
    exact hlisted.length_eq
  refine ⟨v, es, hrun, ?_, hall (by omega) fun e he => (hentry e he).1⟩
  rw [hpairs, hname]
  exact hlisted.map _

end IsrTransfer
