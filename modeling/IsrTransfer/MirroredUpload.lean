import IsrTransfer.Effect.AcceptLoop
import IsrTransfer.FileStore
import IsrTransfer.SendTalks
import IsrTransfer.TreePaths
import IsrTransfer.UploadFailures

/-!
# A recursive upload stores the tree

A client that uploads a directory talks to the server on one connection after the other, and
may be far ahead of it or wait for it.  When both have come to an end, the server has a file
with the same bytes for every file of the tree, and something for every directory, apart from
what is below a call that has failed by itself; and nothing else on the server has changed
(`upload_mirrors`).  It does not matter how the steps of the two interleave, nor what fails.

## What a confirmed directory is

The client asks for a directory before it sends what is in it, and goes on when the server has
confirmed.  What the server confirms is that the last call of `mkdir` has made a directory, or has
found something there, which may be a file (see `MkdirRecursive`).  With a backslash in the path
it may have made another one.  So `Stored` promises a directory where there was no file, and only
for paths without backslashes.  For files there is no such condition: a file that is confirmed is
at its place with its bytes.

## Parts of an upload

An upload is put together from operations with one connection each.  What a part of it has
done is said of the connections that it has had, whenever the server gets to them (`Done`): if the
handler is run on them, from any state in which the files are as promised, then the files are as
promised afterwards, they have changed only at the places of the part, and the part's own result
holds.

In this form nothing is said about when the server does its work, and parts that follow each other
compose (`Done.trans`): the server's work on the connections of both is its work on those of the
first and then of the second.  A copy that has been stored stays while the following parts change
other places (`Stored.later`), and each part is for places of its own, since entries of different
names have different places (`not_suffix_of_ne`).

## The recursion

The local tree is only read, so that it is the same one for all parts (`Sys.SameTree`).  One entry
is a file or a directory (`done_uploadEntry`), the loop goes over the names that `readdir` has
given (`done_uploadEntries`), and the recursion is an induction on the depth
(`uploads_uploadFailures`).  In the end the connections of the client are those that the
server has been through, in the same order, whatever the interleaving was (`AcceptLoop.serialized`);
so what has been done whenever the server gets to them has been done (`uploadMirrors_of_calls`).
-/

namespace IsrTransfer

open Effect Posix

variable {F G : Faults} {lossy : Bool} {L : Lz4} {fuel fuel' : Nat} {flags : UInt8}
  {blockSize : Nat}
variable {root remotePath localDir : List UInt8} {l k : Loc} {s t t' t'' : Sys}
  {c c₁ c' : Caller Sys}

/-! ## The tree, and its copy -/

/-- The names lead from `dir` through directories to an entry. -/
def Holds (s : Sys) : (dir : List UInt8) → List Name → Prop
  | _, [] => True
  | dir, n :: q =>
    (∃ k, s.resolve dir = some k ∧ n ∈ s.fs.children k) ∧ Holds s (dir ++ slash :: n) q

/-- The entry of the local tree that `q` leads to has its copy on the server, whose files were
`t` before.  Where a file stood before, it may be taken for a directory. -/
structure Stored (root remotePath localDir : List UInt8) (k : Loc) (s t t' : Sys)
    (q : List Name) : Prop where
  file : ∀ content, s.bytesAt (under localDir q) = some content →
    t'.fs.contents (q.reverse ++ k) = some content ∧
      t'.resolve (root ++ slash :: under remotePath q) = some (q.reverse ++ k)
  dir : s.LeadsDir (under localDir q) → backslash ∉ root → backslash ∉ under remotePath q →
    t'.fs.node (q.reverse ++ k) = some .dir ∨ t.fs.contents (q.reverse ++ k) ≠ none

section Stored

variable {q : List Name} {n : Name} {X : Loc → Prop}

theorem stored_cons : Stored root remotePath localDir k s t t' (n :: q) ↔
    Stored root (remotePath ++ slash :: n) (localDir ++ slash :: n) (n :: k) s t t' q := by
  have hplace : (n :: q).reverse ++ k = q.reverse ++ n :: k := by
    rw [List.reverse_cons, List.append_assoc, List.singleton_append]
  constructor
  · rintro ⟨hfile, hdir⟩
    rw [hplace, under_cons, under_cons] at hfile hdir
    exact ⟨hfile, hdir⟩
  · rintro ⟨hfile, hdir⟩
    constructor
    · rw [hplace, under_cons, under_cons]
      exact hfile
    · rw [hplace, under_cons, under_cons]
      exact hdir

/-- **A copy stays**, while other places change. -/
theorem Stored.later (h : Stored root remotePath localDir k s t t' q) (h' : t'.ChangedAt X t'')
    (hX : ¬ X (q.reverse ++ k)) : Stored root remotePath localDir k s t t'' q where
  file content hbytes := by
    obtain ⟨hcontents, hresolve⟩ := h.file content hbytes
    refine ⟨(h'.others _ hX).trans hcontents, ?_⟩
    unfold Sys.resolve at hresolve ⊢
    rw [h'.cwd]
    exact FS.resolve_grows h'.grows hresolve
  dir hdir hroot hpath := (h.dir hdir hroot hpath).imp_left (h'.grows.keep _ _)

/-- What other places were before does not matter. -/
theorem Stored.earlier (h : Stored root remotePath localDir k s t' t'' q) (h' : t.ChangedAt X t')
    (hX : ¬ X (q.reverse ++ k)) : Stored root remotePath localDir k s t t'' q where
  file := h.file
  dir hdir hroot hpath := (h.dir hdir hroot hpath).imp_right fun hne => by
    rwa [h'.others _ hX] at hne

/-- A file whose bytes are at its place. -/
theorem stored_of_file {content : List UInt8} {j : Loc} {i : Nat}
    (hj : s.resolve localDir = some j) (hi : s.fs.node j = some (.file i))
    (hcontent : s.fs.data i = content) (hstored : StoredAt root l t remotePath content t')
    (hholds : Holds s localDir q) :
    Stored root remotePath localDir (placeOf l remotePath) s t t' q := by
  cases q with
  | nil =>
    constructor
    · intro content' hbytes
      rw [under_nil, Sys.bytesAt_of_resolve hj, FS.contents_of_file hi, hcontent] at hbytes
      obtain rfl := Option.some.inj hbytes
      rw [under_nil]
      exact ⟨hstored.bytes, hstored.leads⟩
    · rintro ⟨j', hj', hdir⟩ - -
      rw [under_nil] at hj'
      obtain rfl := Option.some.inj (hj.symm.trans hj')
      exact absurd (hi.symm.trans hdir) (by simp)
  | cons n q =>
    obtain ⟨⟨j', hj', hn⟩, -⟩ := hholds
    obtain rfl := Option.some.inj (hj.symm.trans hj')
    obtain ⟨nd, hnd⟩ := FS.mem_children.mp hn
    exact absurd (hi.symm.trans (FS.node_parent hnd)) (by simp)

end Stored

/-! ## Parts of an upload -/

/-- A part of an upload, after which the client is `c'`.  Whenever the server gets to its
connections, it changes files at the places `X` at most, and from `t` to `t'` as `Z` says. -/
structure Done (G : Faults) (lossy : Bool) (L : Lz4) (fuel' : Nat) (root : List UInt8) (l : Loc)
    (s : Sys) (c c' : Caller Sys) (X : Loc → Prop) (Z : Sys → Sys → Prop) : Prop where
  tree : s.SameTree c'.proc.sys
  still : c'.proc.sys.script = none
  served : ∃ es, c'.talks = es.reverse ++ c.talks ∧ ∀ t t', Rooted root l t →
    Handles (Sys.step G) lossy (serveConnection L fuel' root) t es t' →
    Rooted root l t' ∧ t.ChangedAt X t' ∧ Z t t'

section Done

variable {X Y : Loc → Prop} {Z W : Sys → Sys → Prop}

theorem Done.mono (h : Done G lossy L fuel' root l s c c' X Z) (hX : ∀ j, X j → Y j)
    (hZ : ∀ t t', Rooted root l t → Z t t' → W t t') :
    Done G lossy L fuel' root l s c c' Y W := by
  obtain ⟨htree, hstill, es, hes, hserved⟩ := h
  refine ⟨htree, hstill, es, hes, fun t t' ht hrun => ?_⟩
  obtain ⟨ht', hchanged, hz⟩ := hserved t t' ht hrun
  exact ⟨ht', hchanged.mono hX, hZ t t' ht hz⟩

/-- **One part after the other.**  The connections of the two parts follow each other, and the
server goes on from the state that the first part has left. -/
theorem Done.trans (h : Done G lossy L fuel' root l s c c₁ X Z)
    (h' : Done G lossy L fuel' root l s c₁ c' Y W) :
    Done G lossy L fuel' root l s c c' (fun j => X j ∨ Y j)
      (fun t t'' => ∃ t', Rooted root l t' ∧ t.ChangedAt X t' ∧ t'.ChangedAt Y t'' ∧ Z t t' ∧
        W t' t'') := by
  obtain ⟨-, -, es, hes, hserved⟩ := h
  obtain ⟨htree, hstill, es', hes', hserved'⟩ := h'
  refine ⟨htree, hstill, es ++ es', ?_, fun t t'' ht hrun => ?_⟩
  · rw [hes', hes, List.reverse_append, List.append_assoc]
  · obtain ⟨t', hrun, hrun'⟩ := handles_append.mp hrun
    obtain ⟨ht', hX, hz⟩ := hserved t t' ht hrun
    obtain ⟨ht'', hY, hw⟩ := hserved' t' t'' ht' hrun'
    exact ⟨ht'', (hX.mono fun _ => Or.inl).trans (hY.mono fun _ => Or.inr), t', ht', hX, hY, hz,
      hw⟩

/-- Nothing has been said on a connection, and the files are the same. -/
structure Silent (c c' : Caller Sys) : Prop where
  tree : c.proc.sys.SameTree c'.proc.sys
  script : c'.proc.sys.script = c.proc.sys.script
  talks : c'.talks = c.talks

theorem Silent.refl (c : Caller Sys) : Silent c c := ⟨.refl _, rfl, rfl⟩

theorem Silent.done (h : Silent c c') (hc : s.SameTree c.proc.sys)
    (hs : c.proc.sys.script = none) (hZ : ∀ t, Z t t) :
    Done G lossy L fuel' root l s c c' X Z := by
  refine ⟨hc.trans h.tree, h.script.trans hs, [], h.talks, fun t t' ht hrun => ?_⟩
  cases hrun
  exact ⟨ht, .refl _ _, hZ t⟩

/-- After a part, nothing more is said. -/
theorem Done.silent (h : Done G lossy L fuel' root l s c c₁ X Z) (h' : Silent c₁ c') :
    Done G lossy L fuel' root l s c c' X Z := by
  obtain ⟨htree, hstill, es, hes, hserved⟩ := h
  exact ⟨htree.trans h'.tree, h'.script.trans hstill, es, h'.talks.trans hes, hserved⟩

/-- An operation with one connection. -/
theorem SentCall.done {path : List UInt8} {P : Talk → Prop} {r : Int}
    (h : SentCall path flags blockSize P c r c') (h0 : (0 : UInt8) ∉ path)
    (htree : s.SameTree c'.proc.sys) (hstill : c'.proc.sys.script = none)
    (hP : ∀ e t w x, P e → Rooted root l t → Reaches (machine G lossy true)
      (serveConnection L fuel' root) (.start t e.up) (.ret x) w → w.tx = e.down → Z t w.sys) :
    Done G lossy L fuel' root l s c c' (PlaceIs root l (requested path))
      (fun t t' => r = 0 → Z t t') := by
  cases h with
  | unsent hr htalks =>
    refine ⟨htree, hstill, [], htalks, fun t t' ht hrun => ?_⟩
    cases hrun
    exact ⟨ht, .refl _ _, fun h => absurd h hr⟩
  | @sent n e htalks hbegun hok =>
    refine ⟨htree, hstill, [e], htalks, fun t t' ht hrun => ?_⟩
    cases hrun with
    | cons hrun hdown hnil =>
      cases hnil
      obtain ⟨ht', hchanged⟩ := changedAt_of_begun ht h0 hbegun hrun
      exact ⟨ht', hchanged, fun hr => hP e t _ _ (hok hr) ht hrun hdown⟩

end Done

/-! ## One entry

An entry is a file or a directory, and is sent in one call or by recursion.  On the way the
server changes what is below the entry's path and nothing beside it. -/

section Rules

theorem ensures_complain_silent {format : String} {args : List Arg} :
    Ensures (Caller.step (Sys.step F) lossy true) Anything (complain format args)
      (fun _ c' => Silent c c') c :=
  Caller.ensures_sys fun _ s' hs' => by
    obtain rfl := hs'
    exact ⟨⟨rfl, rfl⟩, rfl, rfl⟩

theorem ensures_noteFailure_silent {ret result : Int} {format : String} {path : List UInt8} :
    Ensures (Caller.step (Sys.step F) lossy true) Anything (noteFailure ret format path result)
      (fun _ c' => Silent c c') c := by
  unfold noteFailure
  split
  · rw [ensures_bind]
    exact ensures_complain_silent.mono fun _ _ h => h
  · exact .refl c

theorem sys_of_reaches {ρ : Type} {op : OsOp ρ} {r : ρ}
    (h : Reaches (Caller.step (Sys.step F) lossy true) (sysCall op) c (.ret r) c') :
    ∃ s', Sys.step F c.proc.sys op r s' ∧ c' = ⟨c.proc.withSys s', c.past⟩ :=
  (show Ensures (Caller.step (Sys.step F) lossy true) Anything (sysCall op)
    (fun r c' => ∃ s', Sys.step F c.proc.sys op r s' ∧ c' = ⟨c.proc.withSys s', c.past⟩) c from
    Caller.ensures_sys fun _ s' hs' => ⟨s', hs', rfl⟩).of_reaches h

end Rules

/-- The entry that `q` leads to is not below a call that has failed, and its local path fits
into the buffers. -/
def Uploaded (s : Sys) (localDir : List UInt8) (failed : List (List Name)) (q : List Name) : Prop :=
  Holds s localDir q ∧ (∀ d ∈ failed, ¬ d <+: q) ∧ (under localDir q).length < isrPathMax

/-- What is to be shown of `isr_cli_send_directory`, or of its recursive calls.  The server may
have been asked for a path that does not fit; then nothing is known about its place. -/
def Uploads (F G : Faults) (lossy : Bool) (L : Lz4) (fuel' : Nat) (root : List UInt8) (l : Loc)
    (s : Sys) (upload : List UInt8 → List UInt8 → Prog (List (List Name))) : Prop :=
  ∀ remotePath localDir k c c' failed, (0 : UInt8) ∉ remotePath → (0 : UInt8) ∉ localDir →
    ((root ++ slash :: requested remotePath).length < pathMax →
      placeOf l (requested remotePath) = k) →
    s.SameTree c.proc.sys → c.proc.sys.script = none →
    Reaches (Caller.step (Sys.step F) lossy true) (upload remotePath localDir) c (.ret failed) c' →
    Done G lossy L fuel' root l s c c' (k <:+ ·) fun t t' => ∀ q, Uploaded s localDir failed q →
      (root ++ slash :: requested remotePath).length < pathMax ∧
        Stored root (requested remotePath) localDir k s t t' q

section Entry

variable {upload : List UInt8 → List UInt8 → Prog (List (List Name))} {n : Name}
  {failed : List (List Name)}

/-- Nothing is said about what is below a call that has failed. -/
theorem not_uploaded {q : List Name} {d : List Name} (hd : d ∈ failed) (hpre : d <+: q) :
    ¬ Uploaded s localDir failed q :=
  fun h => h.2.1 d hd hpre

/-- Entries of different names have different places. -/
theorem not_suffix_of_ne {m : Name} (hne : m ≠ n) (q : List Name) :
    ¬ m :: k <:+ (n :: q).reverse ++ k := by
  intro hsuf
  rw [List.reverse_cons, List.append_assoc, List.singleton_append] at hsuf
  have hboth := List.suffix_of_suffix_length_le hsuf (List.suffix_append q.reverse (n :: k)) le_rfl
  exact hne (List.cons.inj (hboth.eq_of_length rfl)).1

variable (hup : Uploads F G lossy L fuel' root l s upload) (hblocks : BlocksOk L flags blockSize)
  (hshort : ∀ j content, s.fs.contents j = some content → content.length < word64)
include hup hblocks hshort

/-- **One entry.**  Whatever the server does for it is below the entry's place. -/
theorem done_uploadEntry (hremote : (0 : UInt8) ∉ remotePath) (hlocal : (0 : UInt8) ∉ localDir)
    (hplace : (root ++ slash :: requested remotePath).length < pathMax →
      placeOf l (requested remotePath) = k) (hn : ValidName n) (hc : s.SameTree c.proc.sys)
    (hs : c.proc.sys.script = none)
    (h : Reaches (Caller.step (Sys.step F) lossy true)
      (uploadEntry L fuel flags blockSize upload remotePath localDir n) c (.ret failed) c') :
    Done G lossy L fuel' root l s c c' (n :: k <:+ ·) fun t t' => ∀ q,
      Uploaded s localDir failed (n :: q) →
        Stored root (requested remotePath) localDir k s t t' (n :: q) := by
  -- the place of the entry, unless its path does not fit
  have hentry : (root ++ slash :: requested (snprintfPath remotePath n isrPathMax)).length <
      pathMax → requested (snprintfPath remotePath n isrPathMax) =
        requested remotePath ++ slash :: n ∧
      placeOf l (requested (snprintfPath remotePath n isrPathMax)) = n :: k := by
    intro hfits
    obtain ⟨hsame, hreq⟩ := uncut_of_fits hremote hn hfits
    rw [hreq] at hfits ⊢
    refine ⟨by rw [hsame], ?_⟩
    rw [placeOf_entry hn, ← hsame, hplace]
    rw [hsame]
    simp only [List.length_append, List.length_cons] at hfits ⊢
    omega
  have hlocalPath : ∀ {q}, Uploaded s localDir failed (n :: q) →
      snprintfPath localDir n isrPathMax = localDir ++ slash :: n := by
    rintro q ⟨-, -, hlen⟩
    rw [under_cons] at hlen
    exact snprintfPath_of_short hlocal hn.2.2.2.2.1 ((length_le_under _ q).trans_lt hlen)
  unfold uploadEntry at h
  obtain ⟨st, c₁, hstat, hrest⟩ := Reaches.of_bind h
  obtain ⟨s', ⟨hst, rfl⟩, rfl⟩ := sys_of_reaches hstat
  have hc₁ : (⟨c.proc.withSys c.proc.sys, c.past⟩ : Caller Sys) = c := rfl
  rw [hc₁] at hrest
  rcases st with - | ⟨isDir, size⟩
  · -- nothing is found
    obtain ⟨_, c₂, hcomplain, hret⟩ := Reaches.of_bind hrest
    cases hret
    refine (ensures_complain_silent.of_reaches hcomplain).done hc hs fun t q hq => ?_
    exact absurd hq (not_uploaded List.mem_cons_self
      (List.cons_prefix_cons.mpr ⟨rfl, List.nil_prefix⟩))
  cases isDir with
  | true =>
    obtain ⟨failed', c₂, hcall, hrest⟩ := Reaches.of_bind hrest
    obtain ⟨_, c₃, hnote, hret⟩ := Reaches.of_bind hrest
    cases hret
    have hdone := hup _ _ (n :: k) _ _ _ (notMem_snprintfPath _ _ _) (notMem_snprintfPath _ _ _)
      (fun hfits => (hentry hfits).2) hc hs hcall
    refine (hdone.silent (ensures_noteFailure_silent.of_reaches hnote)).mono (fun _ hj => hj) ?_
    intro t t' _ hall q hq
    rw [hlocalPath hq] at hall
    obtain ⟨hholds, hfailed, hlen⟩ := hq
    obtain ⟨hfits, hstored⟩ := hall q ⟨hholds.2, fun d hd hpre => hfailed _
      (List.mem_map_of_mem hd) (List.cons_prefix_cons.mpr ⟨rfl, hpre⟩), by rwa [← under_cons]⟩
    rw [(hentry hfits).1] at hstored
    exact stored_cons.mpr hstored
  | false =>
    obtain ⟨ret, c₂, hcall, hrest⟩ := Reaches.of_bind hrest
    obtain ⟨_, c₃, hnote, hret⟩ := Reaches.of_bind hrest
    cases hret
    obtain ⟨j, i, hj, hi, -⟩ := Sys.statStep_file hst
    obtain ⟨htree, hsent⟩ := (ensures_isrCliSendFile_talk hs hj hi).of_reaches hcall
    have hs₂ : c₂.proc.sys.script = none := script_of_reaches (Caller.reaches_proc hcall) hs
    rw [hc.fs] at hi hsent
    rw [hc.resolve] at hj
    have hlen := hshort j _ (FS.contents_of_file hi)
    have hdone : Done G lossy L fuel' root l s c c₂ _ fun t t' => ret = 0 →
        (root ++ slash :: requested (snprintfPath remotePath n isrPathMax)).length < pathMax ∧
          StoredAt root l t (requested (snprintfPath remotePath n isrPathMax)) (s.fs.data i) t' :=
      hsent.done (notMem_snprintfPath _ _ _) (hc.trans htree) hs₂ fun e t w x he ht hrun hdown =>
        stored_of_fileSent ht (notMem_snprintfPath _ _ _) hblocks hlen he hrun hdown
    refine (hdone.silent (ensures_noteFailure_silent.of_reaches hnote)).mono ?_ ?_
    · rintro j' ⟨hfits, rfl⟩
      exact (hentry hfits).2 ▸ List.suffix_rfl
    · intro t t' _ hall q hq
      by_cases hok : ret = 0
      · obtain ⟨hfits, hstored⟩ := hall hok
        obtain ⟨hreq, hentryPlace⟩ := hentry hfits
        rw [hlocalPath hq] at hj
        have hcopy := stored_of_file hj hi rfl hstored hq.1.2
        rw [hentryPlace, hreq] at hcopy
        exact stored_cons.mpr hcopy
      · rw [if_neg hok] at hq
        exact absurd hq (not_uploaded List.mem_cons_self
          (List.cons_prefix_cons.mpr ⟨rfl, List.nil_prefix⟩))

/-- **The loop over the entries**, by induction on the list of names.  Two names of one
directory are different, so what is stored for one is left alone by the others. -/
theorem done_uploadEntries (hremote : (0 : UInt8) ∉ remotePath) (hlocal : (0 : UInt8) ∉ localDir)
    (hplace : (root ++ slash :: requested remotePath).length < pathMax →
      placeOf l (requested remotePath) = k) (names : List Name) :
    (∀ n ∈ names, ¬ (n = dot ∨ n = dotdot) → ValidName n) → names.Nodup →
    ∀ {c c' : Caller Sys} {failed : List (List Name)}, s.SameTree c.proc.sys →
    c.proc.sys.script = none →
    Reaches (Caller.step (Sys.step F) lossy true)
      (uploadEntries L fuel flags blockSize upload remotePath localDir names) c (.ret failed) c' →
    Done G lossy L fuel' root l s c c' (fun j => ∃ n ∈ names, n :: k <:+ j) fun t t' =>
      ∀ n ∈ names, ¬ (n = dot ∨ n = dotdot) → ∀ q, Uploaded s localDir failed (n :: q) →
        Stored root (requested remotePath) localDir k s t t' (n :: q) := by
  induction names with
  | nil =>
    intro _ _ c c' failed hc hs h
    cases h
    exact (Silent.refl c).done hc hs fun t n hn => absurd hn List.not_mem_nil
  | cons n names ih =>
    intro hvalid hnodup c c' failed hc hs h
    obtain ⟨hn, hvalid⟩ := List.forall_mem_cons.mp hvalid
    obtain ⟨hnew, hnodup⟩ := List.nodup_cons.mp hnodup
    rw [uploadEntries] at h
    by_cases hdots : n = dot ∨ n = dotdot
    · rw [if_pos hdots] at h
      refine (ih hvalid hnodup hc hs h).mono ?_ ?_
      · rintro j ⟨m, hm, hj⟩
        exact ⟨m, List.mem_cons_of_mem n hm, hj⟩
      · intro t t' _ hall m hm hmdots
        rcases List.mem_cons.mp hm with rfl | hm
        · exact absurd hdots hmdots
        · exact hall m hm hmdots
    · rw [if_neg hdots] at h
      obtain ⟨failed₁, c₁, hentry, hrest⟩ := Reaches.of_bind h
      obtain ⟨failed₂, c₂, hentries, hret⟩ := Reaches.of_bind hrest
      cases hret
      have hone := done_uploadEntry hup hblocks hshort hremote hlocal hplace (hn hdots) hc hs hentry
      have hall := ih hvalid hnodup hone.tree hone.still hentries
      refine (hone.trans hall).mono ?_ ?_
      · rintro j (hj | ⟨m, hm, hj⟩)
        · exact ⟨n, List.mem_cons_self, hj⟩
        · exact ⟨m, List.mem_cons_of_mem n hm, hj⟩
      · rintro t t'' - ⟨t', -, hbefore, hafter, hfirst, hothers⟩ m hm hmdots q
          ⟨hholds, hfailed, hlen⟩
        rcases List.mem_cons.mp hm with rfl | hm
        · refine (hfirst q ⟨hholds, fun d hd => hfailed d (List.mem_append_left _ hd), hlen⟩).later
            hafter ?_
          rintro ⟨m', hm', hj⟩
          refine not_suffix_of_ne ?_ q hj
          rintro rfl
          exact hnew hm'
        · refine (hothers m hm hmdots q
            ⟨hholds, fun d hd => hfailed d (List.mem_append_right _ hd), hlen⟩).earlier hbefore ?_
          refine not_suffix_of_ne ?_ q
          rintro rfl
          exact hnew hm

end Entry

/-! ## The recursion

The entries are sent in the order in which the local system lists them.  What has been stored
for one is there after the others, since their places are different. -/

/-- A directory that has been confirmed, as a part of the upload. -/
theorem done_mkdir {r : Int} (hremote : (0 : UInt8) ∉ remotePath) (hc : s.SameTree c.proc.sys)
    (hs : c.proc.sys.script = none)
    (h : Reaches (Caller.step (Sys.step F) lossy true) (isrCliSendMkdir remotePath) c (.ret r) c') :
    Done G lossy L fuel' root l s c c' (PlaceIs root l (requested remotePath)) fun t t' => r = 0 →
      LastMade G root (requested remotePath) t t' := by
  obtain ⟨htree, hsent⟩ := ensures_isrCliSendMkdir_talk.of_reaches h
  exact hsent.done hremote (hc.trans htree) (script_of_reaches (Caller.reaches_proc h) hs)
    fun e t w x he _ hrun hdown => lastMade_of_mkdirSent hremote he hrun hdown

theorem stored_of_lastMade (ht : Rooted root l t) (h : LastMade G root remotePath t t')
    (ht' : Rooted root l t') (hdir : s.LeadsDir localDir) :
    Stored root remotePath localDir (placeOf l remotePath) s t t' [] where
  file content hbytes := by
    obtain ⟨j, hj, hnode⟩ := hdir
    rw [under_nil, Sys.bytesAt_of_resolve hj, FS.contents_eq_some] at hbytes
    obtain ⟨i, hi, -⟩ := hbytes
    exact absurd (hnode.symm.trans hi) (by simp)
  dir _ hroot hpath := by
    rw [under_nil] at hpath
    rw [List.reverse_nil, List.nil_append]
    have hne := h.stands ht hroot hpath
    obtain ⟨nd, hnd⟩ := Option.ne_none_iff_exists'.mp hne
    cases nd with
    | dir => exact Or.inl hnd
    | file i =>
      right
      rw [← h.contents, FS.contents_of_file hnd]
      simp
    | link target => exact absurd hnd (ht'.noLinks _ target (FS.suffix_descend l _))

/-- The names that a directory lists. -/
theorem names_of_opendir {path : List UInt8} {names : List Name}
    (h : s.OpendirStep path (some names)) : ∃ j, s.resolve path = some j ∧
      s.fs.node j = some .dir ∧ names.Nodup ∧ ∀ n ∈ s.fs.children j, n ∈ names := by
  unfold Sys.OpendirStep at h
  split at h
  · exact absurd h (by simp)
  · rename_i j hj
    split at h
    · rename_i hdir
      obtain ⟨names', hperm, heq⟩ := h
      obtain rfl := Option.some.inj heq
      refine ⟨j, hj, hdir, hperm.nodup_iff.mpr ?_, fun n hn => ?_⟩
      · have hvalid : ∀ n ∈ s.fs.children j, n ≠ dot ∧ n ≠ dotdot := by
          intro n hn
          obtain ⟨nd, hnd⟩ := FS.mem_children.mp hn
          have hvalid := FS.validName_of_node hnd
          exact ⟨hvalid.2.1, hvalid.2.2.1⟩
        rw [List.nodup_cons, List.nodup_cons, List.mem_cons, not_or]
        exact ⟨⟨by decide, fun hmem => (hvalid _ hmem).1 rfl⟩, fun hmem => (hvalid _ hmem).2 rfl,
          FS.nodup_children _ _⟩
      · exact hperm.mem_iff.mpr (List.mem_cons_of_mem _ (List.mem_cons_of_mem _ hn))
    · exact absurd h (by simp)

/-- **The upload of a directory**, by induction on the depth of the calls.  Each call makes
the directory, lists the local one, and goes through the names. -/
theorem uploads_uploadFailures (hblocks : BlocksOk L flags blockSize)
    (hshort : ∀ j content, s.fs.contents j = some content → content.length < word64)
    (depth : Nat) :
    Uploads F G lossy L fuel' root l s (uploadFailures L fuel flags blockSize depth) := by
  induction depth with
  | zero =>
    intro remotePath localDir k c c' failed _ _ _ _ _ h
    cases h with
    | @step ρ op k c c₁ c' r q hstep _ => exact r.elim
  | succ depth ih =>
    intro remotePath localDir k c c' failed hremote hlocal hplace hc hs h
    rw [uploadFailures] at h
    obtain ⟨ret, c₁, hmkdir, hrest⟩ := Reaches.of_bind h
    have hmade : Done G lossy L fuel' root l s c c₁ _ _ := done_mkdir hremote hc hs hmkdir
    have hbelow : ∀ j, PlaceIs root l (requested remotePath) j → k <:+ j := by
      rintro j ⟨hfits, rfl⟩
      exact hplace hfits ▸ List.suffix_rfl
    have hfailed : ∀ {c₂ : Caller Sys}, Silent c₁ c₂ → Done G lossy L fuel' root l s c c₂ (k <:+ ·)
        fun t t' => ∀ q, Uploaded s localDir [[]] q →
          (root ++ slash :: requested remotePath).length < pathMax ∧
            Stored root (requested remotePath) localDir k s t t' q :=
      fun hsilent => (hmade.silent hsilent).mono hbelow fun t t' _ _ q hq =>
        absurd hq (not_uploaded List.mem_cons_self List.nil_prefix)
    by_cases hret : ret = 0
    swap
    · rw [if_pos hret] at hrest
      obtain ⟨_, c₂, hcomplain, hret⟩ := Reaches.of_bind hrest
      cases hret
      exact hfailed (ensures_complain_silent.of_reaches hcomplain)
    rw [if_neg (not_not.mpr hret)] at hrest
    obtain ⟨listed, c₂, hopendir, hrest⟩ := Reaches.of_bind hrest
    obtain ⟨s', ⟨hlisted, rfl⟩, rfl⟩ := sys_of_reaches hopendir
    have hc₁ : (⟨c₁.proc.withSys c₁.proc.sys, c₁.past⟩ : Caller Sys) = c₁ := rfl
    rw [hc₁] at hrest
    cases listed with
    | none =>
      obtain ⟨_, c₂, hcomplain, hret⟩ := Reaches.of_bind hrest
      cases hret
      exact hfailed (ensures_complain_silent.of_reaches hcomplain)
    | some names =>
      have hnames : c₁.proc.sys.OpendirStep localDir (some names) :=
        hlisted.resolve_right fun h => absurd h.2 (by simp)
      obtain ⟨j, hj, hdir, hnodup, hchildren⟩ := names_of_opendir hnames
      rw [hmade.tree.resolve] at hj
      rw [hmade.tree.fs] at hdir hchildren
      have hentries := done_uploadEntries ih hblocks hshort hremote hlocal hplace names
        (fun n hn hdots => validName_of_opendir hnames hn hdots) hnodup hmade.tree hmade.still hrest
      refine (hmade.trans hentries).mono ?_ ?_
      · rintro i (hi | ⟨n, -, hi⟩)
        · exact hbelow i hi
        · exact (List.suffix_cons n k).trans hi
      · rintro t t'' ht ⟨t', ht', hbefore, hafter, hmkdirs, hall⟩ q hq
        have hlast := hmkdirs hret
        refine ⟨hlast.fits, ?_⟩
        obtain rfl := hplace hlast.fits
        cases q with
        | nil =>
          refine (stored_of_lastMade ht hlast ht' ⟨j, hj, hdir⟩).later hafter ?_
          rintro ⟨n, -, hsuf⟩
          have hle := hsuf.length_le
          rw [List.reverse_nil, List.nil_append, List.length_cons] at hle
          omega
        | cons n q =>
          obtain ⟨⟨j', hj', hn⟩, -⟩ := hq.1
          obtain rfl := Option.some.inj (hj.symm.trans hj')
          obtain ⟨nd, hnd⟩ := FS.mem_children.mp hn
          have hvalid := FS.validName_of_node hnd
          refine (hall n (hchildren n hn) (fun h => h.elim hvalid.2.1 hvalid.2.2.1) q hq).earlier
            hbefore ?_
          rintro ⟨-, hself⟩
          have hlen := congrArg List.length hself
          rw [List.length_append, List.length_reverse, List.length_cons] at hlen
          omega

/-! ## A whole upload -/

/-- What an upload that has returned `r` has done, when the server has been through all of its
connections: `d` is where the client and the server are then. -/
structure UploadMirrors (F : Faults) (lossy : Bool) (L : Lz4) (fuel depth : Nat) (flags : UInt8)
    (blockSize : Nat) (remotePath localDir root : List UInt8) (l : Loc) (s t : Sys) (r : Int)
    (d : AcceptLoop OsOp Sys Unit Int Int) : Prop where
  /-- The local files are as they were, and on the server only what is below the remote path has
  changed. -/
  tree : s.SameTree (d.party ()).sys
  rooted : Rooted root l d.sys
  others : t.ChangedAt (fun j => placeOf l (requested remotePath) <:+ j) d.sys
  /-- Some calls have failed, as the client has found out; whatever is not below them is stored. -/
  stored : ∃ failed c, Reaches (Caller.step (Sys.step F) lossy true)
      (uploadFailures L fuel flags blockSize depth remotePath localDir) (.start s) (.ret failed) c ∧
    c.talks = (d.party ()).opened.map d.talk ++ [⟨[], []⟩] ∧ r = resultOf 0 failed ∧
    ∀ q, Uploaded s localDir failed q → Stored root (requested remotePath) localDir
      (placeOf l (requested remotePath)) s t d.sys q

/-- The connections of the client are those of the server, in the same order, so that what has been
done whenever the server gets to them has been done. -/
theorem uploadMirrors_of_calls {p : Prog Int} {depth : Nat} {T : Nat → Sys}
    {failed : List (List Name)} {d : AcceptLoop OsOp Sys Unit Int Int}
    (hblocks : BlocksOk L flags blockSize) (hremote : (0 : UInt8) ∉ remotePath)
    (hlocal : (0 : UInt8) ∉ localDir) (hs : s.script = none)
    (hshort : ∀ j content, s.fs.contents j = some content → content.length < word64)
    (ht : Rooted root l t)
    (hserial : AcceptLoop.Serialized (fun _ => Sys.step F) (Sys.step G) lossy (fun _ => p)
      (fun _ => s) (serveConnection L fuel' root) t d T)
    (hall : d.results.length = d.made) (hsys : c.proc.sys = (d.party ()).sys)
    (htalks : c.talks = (d.party ()).opened.map d.talk ++ [⟨[], []⟩])
    (hupload : Reaches (Caller.step (Sys.step F) lossy true)
      (uploadFailures L fuel flags blockSize depth remotePath localDir) (.start s) (.ret failed)
      c) :
    UploadMirrors F lossy L fuel depth flags blockSize remotePath localDir root l s t
      (resultOf 0 failed) d := by
  have hdone : Done G lossy L fuel' root l s (.start s) c
      (placeOf l (requested remotePath) <:+ ·) _ :=
    uploads_uploadFailures hblocks hshort depth _ _ _ _ _ _ hremote hlocal (fun _ => rfl)
      (.refl s) hs hupload
  obtain ⟨htree, -, es, hes, hserved⟩ := hdone
  have hsame : es = (List.range d.made).map d.talk := by
    have hboth : es.reverse ++ [⟨[], []⟩] = (d.party ()).opened.map d.talk ++ [⟨[], []⟩] :=
      hes.symm.trans htalks
    have hopened : (d.party ()).opened = (List.range d.made).reverse := hserial.opened_eq
    rw [hopened, List.map_reverse] at hboth
    exact List.reverse_injective (List.append_cancel_right hboth)
  obtain ⟨hrooted, hothers, hstored⟩ := hserved t d.sys ht (hsame ▸ hserial.handles hall)
  refine ⟨hsys ▸ htree, hrooted, hothers, failed, c, hupload, htalks, rfl, fun q hq => ?_⟩
  exact (hstored q hq).2

/-- The tree under `/`, with one file of three bytes, is sent as `x` to an empty server, in at
most `n` turns. -/
def sentThreeBytes (n : Nat) : AcceptLoop OsOp Sys Unit Int Int :=
  AcceptLoop.turns (fun _ s op => s.answer op) (serveConnection shortLz4 n [slash]) [()] n
    (.initial (fun _ => isrCliSendDirectory shortLz4 n isrFlagUseCompression 8 2 [0x78] [slash])
      (fun _ => threeBytes) (serveConnection shortLz4 n [slash]) (.initial .empty))

theorem short_threeBytes (j : Loc) (content : List UInt8)
    (h : threeBytes.fs.contents j = some content) : content.length < word64 := by
  obtain ⟨i, -, rfl⟩ := FS.contents_eq_some.mp h
  cases i with
  | zero => decide
  | succ i => exact (show [].length < word64 by decide)

end IsrTransfer
