import IsrTransfer.AnsweringServer
import Mathlib.Data.Set.Finite.List
import Mathlib.Logic.Relation

/-!
# How deep a recursive download goes

`isr_cli_download_directory` calls itself for every directory entry of a listing, and the
only thing that changes from one call to the next is the path: a slash and the name are
appended, and what comes out is cut to `ISR_PATH_MAX - 1` bytes.  A path that has not been
cut is longer than the one before.  One that is as long as it can be is the same as the one
before, whatever the name is, and `snprintf`'s result, which tells, is not looked at.

So the recursion ends, and at a depth of `ISR_PATH_MAX` at most, unless the server lists a
directory in answer to a path of 4095 bytes that the client comes to; and in that case it
does not end (`downloadDepth_iff`).

## Calls and directories

The number of nested calls and the directories below a path are tied together by
`depthBounded_iff_below`, for any bound.  One direction is a rule for the recursion.  The
other needs runs: a client that has done with the entries before comes to the one that
matters (`decided_download`).

A download may come to its end or use up its calls, according to what the server has.  `Decided`
says both at once of a program, so that it composes: of two programs in sequence the second is
only started if the first comes to its end (`Decided.bind`).  This is what makes the loop over the
entries go through, in which the calls are used up in the first directory that is too deep, and
all entries before it have been downloaded.

The local system may fail in any way, and the network as well; that only makes the client come to
its end sooner.  The server is a function of the path, which is what it is told: it cannot know
how many calls there have been.

## Paths as long as they can be

What remains is about paths.  A path that fills the buffer stays as it is (`snprintfPath_full`),
so a server that lists a directory for it does so for ever (`Stuck.below`).  Any other grows with
each call (`Descends.length_lt`), and there is room for 4095 bytes; so a server with more
directories one in the other than that comes to such a path (`exists_stuck`), by induction on the
room that is left.
-/

namespace IsrTransfer

open Effect Posix

variable {S : List UInt8 → List UInt8} {F : Faults} {lossy eof : Bool} {w : World}

/-! ## The directories below a path -/

/-- The server's listing for `path` has a directory entry, for which the client asks for
`path'`. -/
def Descends (S : List UInt8 → List UInt8) (path path' : List UInt8) : Prop :=
  ∃ es rest e, Lists (S (requested path)) (listingBytes es ++ rest) ∧
    (∀ e ∈ es, IsrCliDirEntry.Fits e) ∧ Torn rest ∧ e ∈ es ∧ e.isDirectory ≠ 0 ∧
    path' = snprintfPath path e.name isrPathMax

/-- There are directories below `path`, `n` of them one in the other. -/
def Below (S : List UInt8 → List UInt8) : (n : Nat) → (path : List UInt8) → Prop
  | 0, _ => True
  | n + 1, path => ∃ path', Descends S path path' ∧ Below S n path'

/-- Against the server `S`, a download of `path` comes to its end with at most `depth` nested
calls, whatever the network and the local system do: with fuel for the data, none of its runs
uses up the calls. -/
def DepthBounded (S : List UInt8 → List UInt8) (path : List UInt8) (depth : Nat) : Prop :=
  ∀ (L : Lz4) (flags : UInt8) (blockSize : Nat) (localDir : List UInt8) (F : Faults)
    (lossy eof : Bool) (w : World), Answers S w → ∃ fuel₀, ∀ fuel, fuel₀ ≤ fuel → ∀ q v,
    Reaches (answering S F lossy eof)
      (isrCliDownloadDirectory L fuel flags blockSize depth path localDir) w q v →
    Here NotSpin (fun _ _ => True) q v

/-- Only so many paths can be asked for, so that there is a bound on what the server has for
any of them. -/
theorem exists_fuel (S : List UInt8 → List UInt8) :
    ∃ fuel, ∀ path, (S (requested path)).length < fuel := by
  have hbytes : Finite UInt8 := Finite.of_injective UInt8.toFin fun _ _ => UInt8.toFin_inj.mp
  obtain ⟨b, hb⟩ := ((List.finite_length_lt UInt8 65536).image fun p => (S p).length).bddAbove
  refine ⟨b + 1, fun path => Nat.lt_succ_of_le (hb ⟨requested path, ?_, rfl⟩)⟩
  have hlen : (requested path).length ≤ pathLen path := List.length_take_le _ _
  exact hlen.trans_lt (Nat.mod_lt _ (by decide))

/-! ## No deeper than there are directories -/

section Bounded

variable {L : Lz4} {fuel : Nat} {flags : UInt8} {blockSize : Nat}

/-- A call with `depth` more left is for a path with fewer directories below it. -/
theorem directoryCases_notSpin (hfuel : ∀ path, (S (requested path)).length < fuel) :
    DirectoryCases F lossy eof NotSpin (Answers S) L fuel flags blockSize
      fun depth path _ => ¬ Below S depth path where
  toPermits := tolerates_notSpin.toPermits
  connect _ := trivial
  recv _ _ _ _ := trivial
  spin _ _ _ hbelow := absurd trivial hbelow
  mkdir _ _ _ _ _ := tolerates_notSpin.mkdirs
  redirected _ _ _ _ _ hw := ensures_isrCliDownloadFile_notSpin (hfuel _) hw
  entry := by
    intro depth path _ s input es rest e hbelow hw hlists hes hrest he
    have hinput : input = S (requested path) := hw _ _ _ List.prefix_rfl
    refine ⟨fun hdir hb => hbelow ?_, fun _ v hv => ?_⟩
    · exact ⟨_, ⟨es, rest, e, hinput ▸ hlists, hes, hrest, he, hdir, rfl⟩, hb⟩
    · exact ensures_isrCliDownloadFile_notSpin (hfuel _) hv

/-- The recursion. -/
theorem download_notSpin (hfuel : ∀ path, (S (requested path)).length < fuel) (depth : Nat)
    {path localDir : List UInt8} (hbelow : ¬ Below S depth path) (hw : Answers S w) :
    Ensures (answering S F lossy eof) NotSpin
      (isrCliDownloadDirectory L fuel flags blockSize depth path localDir)
      (fun _ v => Answers S v) w :=
  ensures_isrCliDownloadDirectory (directoryCases_notSpin hfuel) depth hbelow hw

end Bounded

/-! ## As deep as there are directories

That no run uses up its depth, unless there are so many directories one in the other, has been
shown above.  For the converse there has to be a run that does, and to get to the call that is
too deep it has to come to the end of all the calls before. So there are runs of both kinds in
one induction: `Decided` says that there is one that uses up the depth if `C` holds, and one
that returns if it does not. -/

def Spins {α : Type} (S : List UInt8 → List UInt8) (p : Prog α) (w : World) : Prop :=
  ∃ k v, Reaches (answering S Faults.none false true) p w (.call (.sys .spin) k) v

def Returns {α : Type} (S : List UInt8 → List UInt8) (p : Prog α) (w : World) : Prop :=
  ∃ a v, Reaches (answering S Faults.none false true) p w (.ret a) v

/-- A run uses up the fuel if `C`, and comes to the end if not. -/
structure Decided {α : Type} (S : List UInt8 → List UInt8) (p : Prog α) (w : World) (C : Prop) :
    Prop where
  spins : C → Spins S p w
  returns : ¬ C → Returns S p w

section Decided

variable {α β : Type} {p q : Prog α} {v : World} {C D : Prop}

theorem Decided.congr (h : Decided S p w C) (hcd : C ↔ D) : Decided S p w D :=
  ⟨fun hd => h.spins (hcd.mpr hd), fun hd => h.returns fun hc => hd (hcd.mp hc)⟩

theorem Decided.of_reaches (hr : Reaches (answering S Faults.none false true) p w q v)
    (h : Decided S q v C) : Decided S p w C := by
  refine ⟨fun hc => ?_, fun hc => ?_⟩
  · obtain ⟨k, u, hu⟩ := h.spins hc
    exact ⟨k, u, hr.trans hu⟩
  · obtain ⟨a, u, hu⟩ := h.returns hc
    exact ⟨a, u, hr.trans hu⟩

theorem Decided.of_returns (h : Returns S p w) (hc : ¬ C) : Decided S p w C :=
  ⟨fun h' => absurd h' hc, fun _ => h⟩

/-- Two programs in sequence: the fuel is used up by the first, or by the second. -/
theorem Decided.bind {f : α → Prog β} (h : Decided S p w C) (hw : Answers S w)
    (hf : ∀ a v, Answers S v → Decided S (f a) v D) : Decided S (p >>= f) w (C ∨ D) := by
  by_cases hc : C
  · obtain ⟨k, u, hu⟩ := h.spins hc
    exact ⟨fun _ => ⟨_, u, hu.bind f⟩, fun hcd => absurd (Or.inl hc) hcd⟩
  · obtain ⟨a, u, hu⟩ := h.returns hc
    refine ((hf a u (hu.restrict hw)).congr ?_).of_reaches (hu.bind f)
    exact ⟨Or.inr, fun hcd => hcd.resolve_left hc⟩

end Decided

section Deep

variable {L : Lz4} {fuel : Nat} {flags : UInt8} {blockSize : Nat}

theorem decided_noteFailure {ret result : Int} {format : String} {path : List UInt8}
    (hw : Answers S w) : Decided S (noteFailure ret format path result) w False := by
  refine .of_returns ?_ not_false
  unfold noteFailure
  split
  · exact ⟨-1, _, .step (r := ()) ⟨⟨_, rfl, rfl⟩, hw⟩ (.refl _ _)⟩
  · exact ⟨result, w, .refl _ _⟩

/-- The loop over the entries uses up the fuel in the first directory that is too deep. -/
theorem decided_downloadEntries {depth : Nat} {path localDir : List UInt8}
    (hfuel : ∀ path, (S (requested path)).length < fuel)
    (ih : ∀ {path localDir : List UInt8} {w : World}, Answers S w →
      Decided S (isrCliDownloadDirectory L fuel flags blockSize depth path localDir) w
        (Below S depth path)) (es : List IsrCliDirEntry) :
    ∀ {result : Int} {w : World}, Answers S w →
    Decided S (downloadEntries L fuel (isrCliDownloadDirectory L fuel flags blockSize depth) path
        localDir flags blockSize es result) w
      (∃ e ∈ es, e.isDirectory ≠ 0 ∧ Below S depth (snprintfPath path e.name isrPathMax)) := by
  induction es with
  | nil => exact fun {result w} _ => .of_returns ⟨result, w, .refl _ _⟩ (by simp)
  | cons e es ihes =>
    intro result w hw
    obtain ⟨format, name, heq⟩ := @downloadEntries_cons L fuel flags blockSize depth path
      localDir e es result
    have hentry : Decided S (downloadEntry L fuel flags blockSize depth path localDir e) w
        (e.isDirectory ≠ 0 ∧ Below S depth (snprintfPath path e.name isrPathMax)) := by
      unfold downloadEntry
      split
      case isTrue hdir => exact (ih hw).congr ⟨fun h => ⟨hdir, h⟩, And.right⟩
      case isFalse hfile =>
        exact .of_returns (exists_run_isrCliDownloadFile (hfuel _) w) fun h => hfile h.1
    rw [heq]
    refine ((hentry.bind hw fun _ _ => decided_noteFailure).bind hw fun _ _ => ihes).congr ?_
    simp

/-- The recursion. -/
theorem decided_download (hfuel : ∀ path, (S (requested path)).length < fuel) (depth : Nat) :
    ∀ {path localDir : List UInt8} {w : World}, Answers S w →
    Decided S (isrCliDownloadDirectory L fuel flags blockSize depth path localDir) w
      (Below S depth path) := by
  have hP := tolerates_proceeds.toPermits
  induction depth with
  | zero => exact fun {_ _ w} _ => ⟨fun _ => ⟨_, w, .refl _ _⟩, fun h => absurd trivial h⟩
  | succ depth ih =>
    intro path localDir w hw
    rw [isrCliDownloadDirectory_succ]
    obtain ⟨conf, v, hconnect, hv, hlong, hconf⟩ := @exists_recvConnect S path flags blockSize w
    refine .of_reaches (hconnect.bind _) ?_
    rw [Program.ret_bind]
    -- without a listing there is no directory
    have hnone : ∀ {u : World} {p : Prog Int}, Returns S p u →
        (∀ buf, ¬ Lists (S (requested path)) buf) → Decided S p u (Below S (depth + 1) path) := by
      intro u p hreturns hno
      refine .of_returns hreturns ?_
      rintro ⟨_, ⟨_, _, _, hlists, -⟩, -⟩
      exact hno _ hlists
    cases conf with
    | none =>
      refine hnone ⟨-1, v, .refl _ _⟩ fun buf hlists => ?_
      refine absurd rfl (hlong ?_)
      have hlen := hlists.length
      rw [List.length_drop] at hlen
      omega
    | some c =>
      obtain ⟨rfl, rfl⟩ := hconf c rfl
      rw [Option.elim_some]
      have hend : ∀ {format : String} {args : List Arg}, format ∉ failureFormats →
          (confirmationOf (S (requested path))).responseType ≠ isrRecvTypeDirectory →
          Decided S (complain format args >>= fun _ => netClose >>= fun _ => pure (-1))
            (confirmedWorld w.sys (S (requested path)) (recvCommandBytes path flags blockSize))
            (Below S (depth + 1) path) := by
        intro format args hformat htype
        obtain ⟨r, u, hrun, -, -⟩ := hv.exists_run
          (@ensures_complainClose Faults.none false true _ _ hP Int format args (-1)
            (fun _ _ => True) hformat fun _ _ => trivial)
        exact hnone ⟨r, u, hrun⟩ fun _ hlists => htype hlists.type
      unfold afterConfirmation
      split
      case isTrue htype => exact hend (by decide) (by rw [htype]; decide)
      split
      case isTrue htype => exact hend (by decide) (by rw [htype]; decide)
      split
      case isTrue htype =>
        obtain ⟨r, u, hrun⟩ := @exists_run_isrCliDownloadFile S L fuel flags blockSize path
          (snprintfPath localDir (basename path) isrPathMax) (hfuel path)
          (confirmedWorld w.sys (S (requested path)) (recvCommandBytes path flags blockSize))
        refine hnone ⟨r, u, .step (r := ()) ⟨rfl, hv.answers⟩ hrun⟩ fun _ hlists => ?_
        exact absurd (htype.symm.trans hlists.type) (by decide)
      split
      case isTrue htype => exact hend (by decide) htype
      rename_i htype
      obtain ⟨r, u, hfetch, hr, hu⟩ := hv.exists_run
        (@ensures_fetchEntries Faults.none false true _ localDir hP tolerates_proceeds.recv
          (fun _ => tolerates_proceeds.mkdirs) w.sys _ (recvCommandBytes path flags blockSize)
          (not_not.mp htype))
      refine .of_reaches (hfetch.bind _) ?_
      rw [Program.ret_bind]
      cases r with
      | none =>
        refine .of_returns ⟨-1, u, .refl _ _⟩ ?_
        rintro ⟨_, ⟨es, rest, _, hlists, hes, hrest, -⟩, -⟩
        exact absurd (hr.all rfl rfl es rest hlists hes hrest) (by simp)
      | some fetched =>
        obtain ⟨es, rest, hlists, hes, hrest, -⟩ := hr.listed fetched rfl
        obtain rfl := Option.some.inj (hr.all rfl rfl es rest hlists hes hrest)
        refine (decided_downloadEntries hfuel ih fetched hu.answers).congr ⟨?_, ?_⟩
        · rintro ⟨e, he, hdir, hb⟩
          exact ⟨_, ⟨fetched, rest, e, hlists, hes, hrest, he, hdir, rfl⟩, hb⟩
        · rintro ⟨_, ⟨es, rest', e, hlists', hes', hrest', he, hdir, rfl⟩, hb⟩
          obtain rfl := Option.some.inj (hr.all rfl rfl es rest' hlists' hes' hrest')
          exact ⟨e, he, hdir, hb⟩

end Deep

/-- **Nested calls and nested directories.**  The download stays within `depth` calls exactly
if the server has no `depth` directories one in the other. -/
theorem depthBounded_iff_below (S : List UInt8 → List UInt8) (path : List UInt8) (depth : Nat) :
    DepthBounded S path depth ↔ ¬ Below S depth path := by
  obtain ⟨b, hb⟩ := exists_fuel S
  constructor
  · intro h hbelow
    obtain ⟨fuel₀, hall⟩ := h shortLz4 0 0 [] Faults.none false true
      (Proc.start (Sys.initial .empty) []) (answers_start _ _)
    have hfuel : ∀ path, (S (requested path)).length < max fuel₀ b := fun path =>
      (hb path).trans_le (Nat.le_max_right _ _)
    obtain ⟨k, v, hrun⟩ := (decided_download hfuel depth (answers_start _ _)).spins hbelow
    exact hall _ (Nat.le_max_left _ _) _ _ hrun
  · intro hbelow L flags blockSize localDir F lossy eof w hw
    refine ⟨b, fun fuel hfuel => ensures_iff_reaches.mp ?_⟩
    refine (download_notSpin (fun path => ?_) depth hbelow hw).mono fun _ _ _ => trivial
    exact (hb path).trans_le hfuel

/-! ## The length of the path

The client appends the name of an entry to its path and cuts the result to the buffer.  So the
path gets longer with every directory until it fills the buffer, and from then on it stays the
same.  A server that still lists a directory for that path is asked for it again and again
(`Stuck`); without such a path the depth is bounded by the length that is left. -/

/-- A path that fills the buffer stays as it is. -/
theorem snprintfPath_full {path : List UInt8} (hnul : 0 ∉ path) {size : Nat}
    (hlen : path.length = size - 1) (name : List UInt8) : snprintfPath path name size = path := by
  rw [snprintfPath, cstr_of_notMem hnul, ← hlen, List.take_left]

theorem Descends.notMem {path path' : List UInt8} (h : Descends S path path') :
    (0 : UInt8) ∉ path' := by
  obtain ⟨_, _, e, -, -, -, -, -, rfl⟩ := h
  exact notMem_snprintfPath _ _ _

/-- From a path that is as long as it can be the client comes to no other. -/
theorem Descends.eq_of_full {path path' : List UInt8} (h : Descends S path path')
    (hnul : 0 ∉ path) (hlen : path.length = isrPathMax - 1) : path' = path := by
  obtain ⟨_, _, e, -, -, -, -, -, rfl⟩ := h
  exact snprintfPath_full hnul hlen _

/-- Every path after the first fits the buffer, and has a slash in it. -/
theorem Descends.length {path path' : List UInt8} (h : Descends S path path') :
    0 < path'.length ∧ path'.length < isrPathMax := by
  obtain ⟨_, _, e, -, -, -, -, -, rfl⟩ := h
  have hmax : isrPathMax = 4096 := rfl
  rw [length_snprintfPath]
  omega

/-- It is longer than the one before, which was not as long as it can be. -/
theorem Descends.length_lt {path path' : List UInt8} (h : Descends S path path')
    (hnul : 0 ∉ path) (hlen : path.length < isrPathMax - 1) : path.length < path'.length := by
  obtain ⟨_, _, e, -, -, -, -, -, rfl⟩ := h
  rw [length_snprintfPath, cstr_of_notMem hnul]
  omega

/-- `path` is as long as it can be, and the server lists a directory for it. -/
def Stuck (S : List UInt8 → List UInt8) (path : List UInt8) : Prop :=
  path.length = isrPathMax - 1 ∧ ∃ path', Descends S path path'

/-- Below such a path there is no end. -/
theorem Stuck.below {path : List UInt8} (h : Stuck S path) (hnul : 0 ∉ path) (n : Nat) :
    Below S n path := by
  obtain ⟨hlen, path', hdesc⟩ := h
  induction n with
  | zero => trivial
  | succ n ih =>
    obtain rfl := hdesc.eq_of_full hnul hlen
    exact ⟨_, hdesc, ih⟩

/-- More directories one in the other than there is room for lead to such a path. -/
theorem exists_stuck (n : Nat) : ∀ {path : List UInt8}, 0 ∉ path → path.length < isrPathMax →
    isrPathMax ≤ n + path.length → Below S n path →
    ∃ path', Relation.ReflTransGen (Descends S) path path' ∧ Stuck S path' := by
  induction n with
  | zero =>
    intro path _ hlen hroom _
    omega
  | succ n ih =>
    rintro path hnul hlen hroom ⟨path', hdesc, hbelow⟩
    by_cases hfull : path.length = isrPathMax - 1
    · exact ⟨path, .refl, hfull, path', hdesc⟩
    · have hlonger := hdesc.length_lt hnul (by omega)
      obtain ⟨stuck, hleads, hstuck⟩ := ih hdesc.notMem hdesc.length.2 (by omega) hbelow
      exact ⟨stuck, hleads.head hdesc, hstuck⟩

theorem notMem_of_leads {path path' : List UInt8}
    (h : Relation.ReflTransGen (Descends S) path path') (hnul : 0 ∉ path) : 0 ∉ path' := by
  cases h with
  | refl => exact hnul
  | tail _ hdesc => exact hdesc.notMem

/-- Nor is there one below the paths that lead to it. -/
theorem below_of_leads {path stuck : List UInt8} (hnul : 0 ∉ path)
    (hleads : Relation.ReflTransGen (Descends S) path stuck) (hstuck : Stuck S stuck) :
    ∀ n, Below S n path := by
  have hnul' := notMem_of_leads hleads hnul
  induction hleads using Relation.ReflTransGen.head_induction_on with
  | refl => exact hstuck.below hnul'
  | head hdesc _ ih =>
    intro n
    cases n with
    | zero => trivial
    | succ n => exact ⟨_, hdesc, ih hdesc.notMem n⟩

theorem below_iff_exists_stuck {path : List UInt8} (hnul : 0 ∉ path) :
    Below S isrPathMax path ↔
      ∃ stuck, Relation.ReflTransGen (Descends S) path stuck ∧ Stuck S stuck := by
  constructor
  · -- the first path can have any length, the others cannot
    rintro ⟨path', hdesc, hbelow⟩
    have hlen := hdesc.length
    have hmax : isrPathMax = 4095 + 1 := rfl
    obtain ⟨stuck, hleads, hstuck⟩ := exists_stuck 4095 hdesc.notMem hlen.2 (by omega) hbelow
    exact ⟨stuck, hleads.head hdesc, hstuck⟩
  · rintro ⟨stuck, hleads, hstuck⟩
    exact below_of_leads hnul hleads hstuck _

/-- None of the paths of 4095 bytes that a download of `remotePath` comes to is answered with a
listing that has a directory in it. -/
def NeverStuck (S : List UInt8 → List UInt8) (remotePath : List UInt8) : Prop :=
  ∀ path, Relation.ReflTransGen (Descends S) remotePath path → ¬ Stuck S path

/-- **How deep a recursive download goes.**  Against a server that is a function of the path,
a download ends with at most `ISR_PATH_MAX` nested calls exactly if it never comes to a path
that is as long as it can be and answered with a directory; if it does there is no bound at
all. -/
theorem downloadDepth_iff (S : List UInt8 → List UInt8) (remotePath : List UInt8)
    (hnul : 0 ∉ remotePath) :
    (DepthBounded S remotePath isrPathMax ↔ NeverStuck S remotePath) ∧
      (NeverStuck S remotePath ∨ ∀ depth, ¬ DepthBounded S remotePath depth) := by
  constructor
  · rw [depthBounded_iff_below, below_iff_exists_stuck hnul, not_exists]
    exact forall_congr' fun path => not_and
  · by_cases h : NeverStuck S remotePath
    · exact Or.inl h
    · obtain ⟨stuck, hstuck⟩ := not_forall.mp h
      rw [Classical.not_imp, not_not] at hstuck
      refine Or.inr fun depth => ?_
      rw [depthBounded_iff_below, not_not]
      exact below_of_leads hnul hstuck.1 hstuck.2 depth

/-- A listing on the wire is the listing that the client gets. -/
theorem lists_directoryInput {buf : List UInt8} (hbuf : buf.length < word64) :
    Lists (directoryInput buf) buf := by
  have hconf := confirmationOf_directoryInput hbuf
  constructor
  · rw [hconf]
  · rw [hconf, drop_directoryInput, plainStream, List.length_append, length_toBe]
  · rw [hconf, drop_directoryInput, plainStream, List.take_left]
  · rw [hconf, drop_directoryInput, plainStream, List.drop_left, take_toBe, ofBe_checksumOf]

/-- Where the server sends a listing, the client descends to the directories that it names. -/
theorem descends_iff {path path' : List UInt8} {es : List IsrCliDirEntry}
    (hS : S (requested path) = directoryInput (listingBytes es))
    (hes : ∀ e ∈ es, IsrCliDirEntry.Fits e) (hlen : (listingBytes es).length < word64) :
    Descends S path path' ↔
      ∃ e ∈ es, e.isDirectory ≠ 0 ∧ path' = snprintfPath path e.name isrPathMax := by
  have hlists : Lists (S (requested path)) (listingBytes es) := by
    rw [hS]
    exact lists_directoryInput hlen
  constructor
  · rintro ⟨es', rest, e, hlists', hes', -, he, hdir, hpath⟩
    have hbytes : listingBytes es ++ [] = listingBytes es' ++ rest := by
      rw [List.append_nil, hlists.listing, hlists'.listing]
    exact ⟨e, (prefix_of_listingBytes hes hes' torn_nil hbytes).subset he, hdir, hpath⟩
  · rintro ⟨e, he, hdir, hpath⟩
    refine ⟨es, [], e, ?_, hes, torn_nil, he, hdir, hpath⟩
    rwa [List.append_nil]

theorem fits_a : ∀ e ∈ ([⟨[0x61], 0, 1⟩] : List IsrCliDirEntry), e.Fits :=
  List.forall_mem_singleton.mpr ⟨by decide, by decide⟩

/-- A server that has the directory `r/a`, and nothing in it. -/
theorem downloadDepth_shallow :
    DepthBounded
      (fun path => directoryInput (listingBytes (if path = [0x72] then [⟨[0x61], 0, 1⟩] else [])))
      [0x72] isrPathMax := by
  refine (downloadDepth_iff _ _ (by decide)).1.mpr ?_
  rintro path hleads ⟨hlong, -⟩
  have hback : path = [0x72] ∨ path = [0x72, slash, 0x61] := by
    clear hlong
    induction hleads with
    | refl => exact Or.inl rfl
    | tail _ hstep ih =>
      rcases ih with rfl | rfl
      · obtain ⟨e, he, -, rfl⟩ := (descends_iff rfl fits_a (by decide)).mp hstep
        obtain rfl := List.mem_singleton.mp he
        exact Or.inr rfl
      · obtain ⟨e, he, -⟩ := (@descends_iff _ _ _ [] rfl (by simp) (by decide)).mp hstep
        exact absurd he List.not_mem_nil
  rcases hback with rfl | rfl
  · exact absurd hlong (by decide)
  · exact absurd hlong (by decide)

/-- A server that answers every request with a directory `a`. -/
theorem downloadDepth_endless :
    ¬ DepthBounded (fun _ => directoryInput (listingBytes [⟨[0x61], 0, 1⟩])) [0x72] isrPathMax := by
  rw [depthBounded_iff_below, not_not]
  suffices hall : ∀ n path, Below (fun _ => directoryInput (listingBytes [⟨[0x61], 0, 1⟩])) n path
    from hall _ _
  intro n
  induction n with
  | zero => exact fun _ => trivial
  | succ n ih =>
    intro path
    have hdesc := (@descends_iff (fun _ => directoryInput (listingBytes [⟨[0x61], 0, 1⟩])) path
      _ _ rfl fits_a (by decide)).mpr ⟨_, List.mem_singleton_self _, by decide, rfl⟩
    exact ⟨_, hdesc, ih _⟩

end IsrTransfer
