import IsrTransfer.Posix.Ancestors
import IsrTransfer.Posix.Execute
import IsrTransfer.ServerRules

/-!
# The promise of `isr_mkdir_recursive`

The function makes one call of `mkdir` for every beginning of its path that ends before a
separator, and one for the whole path, and it returns what the last call says.  The
system knows one separator and the function knows two, so what the calls are about is the
path with slashes in the place of backslashes (`slashed`), and its ancestors
(`mkdirTargets_eq`).

It promises two things (`MkdirKept`): after a success the path names a directory, and
whatever is new is the path itself or an ancestor of it.  Nothing that stood before is
touched in any case.  A directory that is sent by itself is answered by what the function
returns, and that answer is part of the promise.

## What the calls do

A call can make a directory where its path leads, or find something there, or fail, also
for no reason; so there are many runs.  Two facts bring them down to one.  Every new
directory is where one of the paths leads (`Mkdirs.new`).  And if the path of a
call comes to be taken in some run, then it is taken where all ancestors have been supplied
(`taken_of_mkdirs`), because no run goes beyond that.

The answer to the client follows from what the function returns, in every run of the server,
and nothing else in the server's run bears on the promise.  What is left is a statement about
the runs of the calls (`mkdirKept_iff_coincides`), and for a path without backslashes it is
about the one run in which no call fails by itself (`coincides_iff`).

## Paths without backslashes

The calls are about the path and its ancestors, so nothing else is new.  The first half of
the promise fails if `EEXIST` is about something that is no directory, that is, if the path is
taken when its turn comes.  `KeptWhen` says in the state before the call when it will not be:
a path that goes up only from directories that are there must not be taken now, and any
other must come to neither a file nor a link with whatever is missing taken for a directory.

## Paths with backslashes

Here the calls are about other paths.  If there is nothing to be done for these, and their
last names no object or `p` a directory, then the promise is kept (`Idle.coincides`).  For
plain paths that is the only way (`Plain.idle`).  What is made under the name of a path without
backslashes has fewer backslashes in its names than `p` has, so `p` does not lead there
(`Plain.noBackslash`), and below what is missing there is nothing that `p` could lead to
otherwise (`Plain.not_below`).

Links and `..` can bring the two paths together by chance: in a directory with nothing but a
link `a\.` to `a`, the calls for the path `a\.` make `a`, and to `a` the path leads then.
-/

namespace IsrTransfer

open Effect Posix

variable {F : Faults} {lossy eof : Bool} {w : World}

/-! ## The paths of the calls -/

/-- The path that the loop leaves in its buffer. -/
def slashed (path : List UInt8) : List UInt8 :=
  path.take 1 ++ (path.drop 1).map fun c => if c = backslash then slash else c

/-- `q` is `p`, or an ancestor of `p` as the system reads it. -/
def OwnPath (p q : List UInt8) : Prop := q = p ∨ ∃ rest, p = q ++ slash :: rest

theorem slashed_eq {p : List UInt8} (h : backslash ∉ p.drop 1) : slashed p = p := by
  have hmap : (p.drop 1).map (fun c => if c = backslash then slash else c) = p.drop 1 := by
    have hid : ∀ c ∈ p.drop 1, (if c = backslash then slash else c) = c := by
      intro c hc
      refine if_neg ?_
      rintro rfl
      exact h hc
    rw [List.map_congr_left hid, List.map_id']
  rw [slashed, hmap, List.take_append_drop]

/-- The calls are about the path that is left in the buffer, and its ancestors. -/
theorem mkdirTargetsLoop_eq (rest : List UInt8) : ∀ {done : List UInt8},
    mkdirTargetsLoop done rest =
      ancestorsLoop done (rest.map fun c => if c = backslash then slash else c) ++
        [done ++ rest.map fun c => if c = backslash then slash else c] := by
  induction rest with
  | nil => exact fun {done} => congrArg ([·]) (List.append_nil done).symm
  | cons c rest ih =>
    intro done
    rw [mkdirTargetsLoop, List.map_cons, ancestorsLoop]
    split
    case isTrue hsep =>
      have hc : (if c = backslash then slash else c) = slash := by
        rcases hsep with rfl | rfl <;> decide
      rw [hc, if_pos rfl, ih, List.cons_append, List.append_assoc, List.singleton_append]
    case isFalse hsep =>
      rw [not_or] at hsep
      rw [if_neg hsep.2, if_neg hsep.1, ih, List.append_assoc, List.singleton_append]

/-- The copy in the buffer is cut where a path is too long for it. -/
theorem mkdirTargets_copy (path : List UInt8) :
    mkdirTargets path = ancestors (slashed (strncpy path isrPathMax)) ++
      [slashed (strncpy path isrPathMax)] := by
  set p := strncpy path isrPathMax with hcopy
  have htake : (slashed p).take 1 = p.take 1 := by cases p <;> rfl
  have hdrop : (slashed p).drop 1 =
      (p.drop 1).map fun c => if c = backslash then slash else c := by cases p <;> rfl
  rw [mkdirTargets, ← hcopy, mkdirTargetsLoop_eq, ancestors, htake, hdrop]
  rfl

section Targets

variable {p t : List UInt8} (hp : p.length < isrPathMax)
include hp

theorem strncpy_eq : strncpy p isrPathMax = p :=
  List.take_of_length_le (Nat.le_sub_one_of_lt hp)

theorem mkdirTargets_eq : mkdirTargets p = ancestors (slashed p) ++ [slashed p] := by
  rw [mkdirTargets_copy, strncpy_eq hp]

theorem ownPath_of_mem_mkdirTargets (ht : t ∈ mkdirTargets p) : OwnPath (slashed p) t := by
  rw [mkdirTargets_eq hp, List.mem_append, List.mem_singleton] at ht
  exact ht.elim (fun hanc => Or.inr (mem_ancestors.mp hanc).2) Or.inl

theorem mem_mkdirTargets_of_ownPath (ht : OwnPath (slashed p) t) (hne : t ≠ []) :
    t ∈ mkdirTargets p := by
  rw [mkdirTargets_eq hp, List.mem_append, List.mem_singleton]
  exact ht.elim Or.inr fun hrest => Or.inl (mem_ancestors.mpr ⟨hne, hrest⟩)

end Targets

/-! ## What the calls leave behind -/

/-- What a call does. -/
inductive MkdirOutcome (s : Sys) (t : List UInt8) : MkdirResult → Sys → Prop where
  | made {s' : Sys} {l : Loc} : s'.lead t = some l → s.fs.node l = none →
      (∀ k, s'.fs.node k = if k = l then some .dir else s.fs.node k) → MkdirOutcome s t .made s'
  | there : s.NamesDir t → MkdirOutcome s t .exist s
  | taken : s.Taken t → MkdirOutcome s t .exist s
  | failed : MkdirOutcome s t .failed s

theorem MkdirStep.outcome {s s' : Sys} {t : List UInt8} {r : MkdirResult}
    (h : MkdirStep F s t r s') : MkdirOutcome s t r s' := by
  rcases h with h | ⟨-, rfl, rfl⟩
  · cases r with
    | made =>
      obtain ⟨l, hl, hold, hnode⟩ := Sys.mkdir_made h.symm
      exact .made hl hold hnode
    | exist =>
      obtain ⟨rfl, hdir | htaken⟩ := Sys.mkdir_exist h.symm
      · exact .there hdir
      · exact .taken htaken
    | failed =>
      obtain rfl := Sys.mkdir_failed h.symm
      exact .failed
  · exact .failed

/-- **Every new directory is where one of the paths leads.** -/
theorem Mkdirs.new {s s' : Sys} {ps : List (List UInt8)} (h : Mkdirs F s ps s') {l : Loc}
    (hold : s.fs.node l = none) (hnew : s'.fs.node l ≠ none) :
    ∃ t ∈ ps, s'.lead t = some l := by
  induction h with
  | nil s => exact absurd hold hnew
  | @cons s s₁ s' t ps r hstep hrest ih =>
    by_cases hl : s₁.fs.node l = none
    · obtain ⟨t', ht', hlead⟩ := ih hl hnew
      exact ⟨t', List.mem_cons_of_mem t ht', hlead⟩
    · -- the first call has made it
      refine ⟨t, List.mem_cons_self, ?_⟩
      cases hstep.outcome with
      | @made _ k hk _ hnode =>
        have hkl : l = k := by
          by_contra hne
          rw [hnode, if_neg hne] at hl
          exact hl hold
        rw [hkl]
        exact Sys.lead_of_grows hrest.dirsAdded.fs.grows hrest.dirsAdded.cwd hk
      | there => exact absurd hold hl
      | taken => exact absurd hold hl
      | failed => exact absurd hold hl

/-! ## The promise -/

/-- What `isr_mkdir_recursive` promises about `p`. -/
structure MkdirKept (F : Faults) (s : Sys) (p : List UInt8) : Prop where
  /-- After a success `p` names a directory. -/
  names : ∀ lossy eof w r v, w.sys = s →
    Reaches (machine F lossy eof) (isrMkdirRecursive p) w (.ret r) v → r = 0 → v.sys.NamesDir p
  /-- What was there has not changed, and what is new is `p` or an ancestor of it. -/
  created : ∀ lossy eof w r v, w.sys = s →
    Reaches (machine F lossy eof) (isrMkdirRecursive p) w (.ret r) v →
    s.DirsAdded v.sys ∧ ∀ l, s.fs.node l = none → v.sys.fs.node l ≠ none →
      ∃ q, OwnPath p q ∧ v.sys.lead q = some l
  /-- A SEND that asks for the directory is answered with success only if it is there. -/
  answered : ∀ lossy eof w r v L fuel root header path, w.sys = s → w.tx = [] →
    hasFlag header.flags isrFlagCreateDirectory = true →
    resolvedPath s root path isrPathMax = some p →
    Reaches (machine F lossy eof) (isrReceiveSendCommand L fuel root header path) w (.ret r) v →
    v.tx.head? = some isrResultOk → v.sys.NamesDir p

/-- However the calls go, `p` names a directory unless the last one fails, and the new
directories are `p` and ancestors of it. -/
structure Coincides (F : Faults) (s : Sys) (p : List UInt8) : Prop where
  names : ∀ s₁ r s₂, Mkdirs F s (ancestors (slashed p)) s₁ → MkdirStep F s₁ (slashed p) r s₂ →
    r ≠ .failed → s₂.NamesDir p
  new : ∀ s', Mkdirs F s (mkdirTargets p) s' → ∀ l, s.fs.node l = none → s'.fs.node l ≠ none →
    ∃ q, OwnPath p q ∧ s'.lead q = some l

theorem mkdirStatus_eq_zero {r : MkdirResult} : mkdirStatus r = 0 ↔ r ≠ .failed := by
  cases r <;> decide

/-- A message that is refused does not begin like a success, however much of it is sent. -/
theorem not_ok_of_refusal {message : String} {v : World} (hw : w.tx = [])
    (h : Sends lossy w (refusal message) v) : v.tx.head? ≠ some isrResultOk := by
  have hhead : (refusal message).head? = some isrResultOtherFailure :=
    congrArg some (head_sendResponse _ _)
  rcases h with rfl | ⟨-, k, -, rfl⟩
  · rw [Proc.sent_tx, hw, List.nil_append, hhead]
    decide
  · rw [Proc.sent_tx, hw, List.nil_append, List.head?_take, hhead]
    split <;> decide

section Promise

variable {s : Sys} {p : List UInt8}

/-- The promise is one about the calls. -/
theorem mkdirKept_iff_coincides (hp : p.length < isrPathMax) :
    MkdirKept F s p ↔ Coincides F s p := by
  have hlast : ∀ {qs t}, mkdirTargets p = qs ++ [t] →
      qs = ancestors (slashed p) ∧ t = slashed p := by
    intro qs t ht
    obtain ⟨h, h'⟩ := List.append_inj' (ht.symm.trans (mkdirTargets_eq hp)) rfl
    exact ⟨h, List.singleton_inj.mp h'⟩
  constructor
  · intro h
    refine ⟨fun s₁ r s₂ hs₁ hr hok => ?_, fun s' hs' => ?_⟩
    · have hrun := @reaches_isrMkdirRecursive F false false (Proc.start s []) p _ _ s₁ s₂ r
        (mkdirTargets_eq hp) hs₁ hr
      exact h.names _ _ _ _ _ rfl hrun (mkdirStatus_eq_zero.mpr hok)
    · obtain ⟨r, hrun⟩ := @reaches_isrMkdirRecursive' F false false (Proc.start s []) p s' hs'
      exact (h.created _ _ _ _ _ rfl hrun).2
  · intro h
    have hnames : ∀ {s₁ r s₂ qs t}, mkdirTargets p = qs ++ [t] → Mkdirs F s qs s₁ →
        MkdirStep F s₁ t r s₂ → r ≠ .failed → s₂.NamesDir p := by
      intro s₁ r s₂ qs t ht hs₁ hr hok
      obtain ⟨rfl, rfl⟩ := hlast ht
      exact h.names s₁ r s₂ hs₁ hr hok
    refine ⟨fun lossy eof w r v hw hrun hr => ?_, fun lossy eof w r v hw hrun => ?_,
      fun lossy eof w r v L fuel root header path hw htx hflag hfull hrun hok => ?_⟩
    · subst hw
      have hall : Ensures (machine F lossy eof) Anything (isrMkdirRecursive p)
          (fun r v => r = 0 → v.sys.NamesDir p) w :=
        ensures_isrMkdirRecursive (fun _ _ _ _ _ _ => trivial) fun qs t s₁ r s₂ ht hs₁ hr hzero =>
          hnames ht hs₁ hr (mkdirStatus_eq_zero.mp hzero)
      exact hall.of_reaches hrun hr
    · subst hw
      have hall : Ensures (machine F lossy eof) Anything (isrMkdirRecursive p)
          (fun _ v => w.sys.DirsAdded v.sys ∧ ∀ l, w.sys.fs.node l = none → v.sys.fs.node l ≠ none →
            ∃ q, OwnPath p q ∧ v.sys.lead q = some l) w :=
        ensures_isrMkdirRecursive' (fun _ _ _ _ _ _ => trivial) fun _ s' hs' =>
          ⟨hs'.dirsAdded, h.new s' hs'⟩
      exact hall.of_reaches hrun
    · subst hw
      have hall : Ensures (machine F lossy eof) Anything
          (isrReceiveSendCommand L fuel root header path)
          (fun _ v => v.tx.head? = some isrResultOk → v.sys.NamesDir p) w := by
        have hrefused : ∀ {message v}, Sends lossy w (refusal message) v →
            v.tx.head? = some isrResultOk → v.sys.NamesDir p :=
          fun hv hok => absurd hok (not_ok_of_refusal htx hv)
        have hno : ¬ hasFlag header.flags isrFlagCreateDirectory = false := by simp [hflag]
        refine ensures_isrReceiveSendCommand permits_anything (fun _ _ => trivial)
          (fun _ v hv => hrefused hv) (fun _ _ v hv => hrefused hv) fun _ full hfull' => ?_
        obtain rfl : full = p := Option.some.inj (hfull'.symm.trans hfull)
        constructor
        · exact fun _ _ _ _ _ _ _ => trivial
        · intro _ qs t s₁ r s₂ v ht hs₁ hr hv hok
          by_cases hfail : r = .failed
          · rw [mkdirReply, if_pos hfail] at hv
            exact absurd hok (not_ok_of_refusal (w := w.withSys s₂) htx hv)
          · rw [hv.sys]
            exact hnames ht hs₁ hr hfail
        · exact fun h => absurd h hno
        · exact fun h => absurd h hno
        · exact fun h => absurd h hno
        · exact fun h => absurd h hno
        · exact fun h => absurd h hno
      exact hall.of_reaches hrun hok

/-! ### Paths without backslashes -/

/-- What calls have made that may fail has been supplied, too. -/
theorem Mkdirs.below_supplied {a b a' : Sys} {ts : List (List UInt8)} (h : Mkdirs F a ts a')
    (hab : a.DirsAdded b) : a'.DirsAdded (b.supplied ts) := by
  induction h generalizing b with
  | nil => exact hab
  | @cons a a₁ a' t ts r hstep _ ih =>
    refine ih ?_
    rcases hstep with hmk | ⟨-, -, rfl⟩
    · rw [show a₁ = (a.mkdir t).2 from congrArg Prod.snd hmk]
      exact hab.mkdir t
    · exact hab.trans (Sys.dirsAdded_mkdir b t)

theorem mkdirStep_mkdir (F : Faults) (s : Sys) (t : List UInt8) :
    MkdirStep F s t (s.mkdir t).1 (s.mkdir t).2 := Or.inl rfl

theorem mkdirs_supplied (F : Faults) (s : Sys) (ts : List (List UInt8)) :
    Mkdirs F s ts (s.supplied ts) := by
  induction ts generalizing s with
  | nil => exact .nil s
  | cons t ts ih => exact .cons (mkdirStep_mkdir F s t) (ih _)

/-- Whichever calls fail, the path is not taken unless it is where all ancestors have been
supplied. -/
theorem taken_of_mkdirs {s₁ : Sys} (hs₁ : Mkdirs F s (ancestors p) s₁) (h : s₁.Taken p) :
    (s.supplied (ancestors p)).Taken p := by
  have hup := hs₁.below_supplied (Sys.DirsAdded.refl s)
  have hdown := Sys.supplied_below hs₁.dirsAdded fun _ ht => h.not_made ht
  obtain ⟨⟨cur, c, nd, hparent, hnd⟩, hno⟩ := h
  refine ⟨⟨cur, c, nd, ?_, hup.fs.grows.keep _ _ hnd⟩, fun hdir => hno ?_⟩
  · exact Sys.mkdirParent_of_grows hup.fs.grows hup.cwd hparent
  · exact hdir.of_grows hdown.fs.grows hdown.cwd

/-- A path without backslashes is the path of the calls. -/
theorem coincides_iff (hback : backslash ∉ p.drop 1) (hp : p.length < isrPathMax) :
    Coincides F s p ↔ ¬ (s.supplied (ancestors p)).Taken p := by
  have hslashed : slashed p = p := slashed_eq hback
  constructor
  · intro h htaken
    have hinit : Mkdirs F s (ancestors (slashed p)) (s.supplied (ancestors p)) := by
      rw [hslashed]
      exact mkdirs_supplied F s _
    have hstep : MkdirStep F (s.supplied (ancestors p)) (slashed p) .exist
        (s.supplied (ancestors p)) := by
      rw [hslashed]
      exact Or.inl htaken.mkdir_eq.symm
    exact htaken.2 (h.names _ .exist _ hinit hstep (by decide))
  · intro h
    refine ⟨fun s₁ r s₂ hs₁ hr hok => ?_, fun s' hs' l hold hnew => ?_⟩
    · rw [hslashed] at hs₁ hr
      cases hr.outcome with
      | @made _ l hl _ hnode => exact ⟨l, hl, by rw [hnode, if_pos rfl]⟩
      | there hdir => exact hdir
      | taken htaken => exact absurd (taken_of_mkdirs hs₁ htaken) h
      | failed => exact absurd rfl hok
    · obtain ⟨t, ht, hlead⟩ := hs'.new hold hnew
      have hown := ownPath_of_mem_mkdirTargets hp ht
      rw [hslashed] at hown
      exact ⟨t, hown, hlead⟩

/-! ### Paths with backslashes -/

/-- There is nothing to be done: the path with slashes in the place of backslashes cannot be
made, and neither can its ancestors; and if something stands under it, `p` names a
directory. -/
structure Idle (s : Sys) (p : List UInt8) : Prop where
  nothing : ∀ t, OwnPath (slashed p) t → (s.mkdir t).1 ≠ .made
  names : (s.mkdir (slashed p)).1 ≠ .failed → s.NamesDir p

theorem Idle.coincides (hp : p.length < isrPathMax) (h : Idle s p) : Coincides F s p := by
  have hsame : ∀ {ts s'}, (∀ t ∈ ts, OwnPath (slashed p) t) → Mkdirs F s ts s' → s' = s := by
    intro ts s' hts hs'
    induction ts with
    | nil =>
      cases hs'
      rfl
    | cons t ts ih =>
      cases hs' with
      | @cons _ s₁ _ _ _ r hstep hrest =>
        obtain rfl : s₁ = s := by
          rcases hstep with hmk | ⟨-, -, hmk⟩
          · exact (congrArg Prod.snd hmk).trans
              (Sys.mkdir_eq_self (h.nothing t (hts t List.mem_cons_self)))
          · exact hmk
        exact ih (fun u hu => hts u (List.mem_cons_of_mem t hu)) hrest
  refine ⟨fun s₁ r s₂ hs₁ hr hok => ?_, fun s' hs' l hold hnew => ?_⟩
  · obtain rfl := hsame (fun t ht => Or.inr (mem_ancestors.mp ht).2) hs₁
    rcases hr with hmk | ⟨-, rfl, -⟩
    · have hr : r = (s₁.mkdir (slashed p)).1 := congrArg Prod.fst hmk
      have hs₂ : s₂ = (s₁.mkdir (slashed p)).2 := congrArg Prod.snd hmk
      rw [hs₂, Sys.mkdir_eq_self (h.nothing _ (Or.inl rfl))]
      exact h.names (hr ▸ hok)
    · exact absurd rfl hok
  · rw [hsame (fun t ht => ownPath_of_mem_mkdirTargets hp ht) hs'] at hnew
    exact absurd hold hnew

/-- The bytes of a path are those of its components, but for slashes. -/
theorem count_components {b : UInt8} (hb : b ≠ slash) (p : List UInt8) :
    (components p).flatten.count b = p.count b := by
  induction p with
  | nil => rfl
  | cons c p ih =>
    rw [components_cons]
    split
    case isTrue hc =>
      rw [List.flatten_cons, List.nil_append, ih, List.count_cons_of_ne (by rw [hc]; exact hb.symm)]
    case isFalse hc =>
      obtain ⟨d, ds, hds⟩ := List.exists_cons_of_ne_nil (components_ne_nil p)
      rw [hds] at ih ⊢
      rw [List.modifyHead_cons, List.flatten_cons, List.cons_append, List.count_cons,
        ← List.flatten_cons, ih, List.count_cons]

theorem count_entryNames {b : UInt8} (hb : b ∉ dot) (cs : List Name) :
    (FS.entryNames cs).flatten.count b = cs.flatten.count b := by
  induction cs with
  | nil => rfl
  | cons c cs ih =>
    rw [FS.entryNames] at ih ⊢
    rw [List.filter_cons, List.flatten_cons, List.count_append]
    split
    case isTrue => rw [List.flatten_cons, List.count_append, ih]
    case isFalse hs =>
      have hstays : FS.Stays c := by simpa using hs
      have hzero : c.count b = 0 := by
        rcases hstays with rfl | rfl
        · rfl
        · exact List.count_eq_zero.mpr hb
      rw [hzero, Nat.zero_add, ih]

/-- Where the paths of a file system say all: no link stands anywhere, there is no `..`, and the
directories in front of the first backslash are there, or nothing is in the way of making
them. -/
structure Plain (s : Sys) (p : List UInt8) : Prop where
  noLinks : ∀ l t, s.fs.node l ≠ some (.link t)
  noDots : dotdot ∉ components p ∧ dotdot ∉ components (slashed p)
  way : (∀ t ∈ ancestors p, backslash ∉ t.drop 1 → s.NamesDir t) ∨
    (∀ l, s.fs.noSearch l = false) ∧ ∀ c ∈ components (slashed p), Sys.Usable c

theorem dotdot_notMem_of_ownPath {p t : List UInt8} (h : dotdot ∉ components p)
    (ht : OwnPath p t) : dotdot ∉ components t := by
  rcases ht with rfl | ⟨rest, rfl⟩
  · exact h
  · rw [components_append_slash, List.mem_append, not_or] at h
    exact h.1

theorem count_slashed (p : List UInt8) :
    (slashed p).count backslash = (p.take 1).count backslash := by
  have hmap : backslash ∉ (p.drop 1).map fun c => if c = backslash then slash else c := by
    intro hmem
    obtain ⟨c, -, hc⟩ := List.mem_map.mp hmem
    split at hc
    · exact absurd hc (by decide)
    · exact absurd hc ‹_›
  rw [slashed, List.count_append, List.count_eq_zero.mpr hmap, Nat.add_zero]

/-- Names lead to places with these names. -/
theorem Plain.leadsTo (h : Plain s p) {t : List UInt8} (ht : dotdot ∉ components t) {l : Loc}
    (hl : s.LeadsTo t l) : l = FS.descend (startOf t s.cwd) (components t) :=
  hl.unique (FS.leads_descend ht fun l t _ => h.noLinks l t)

theorem OwnPath.begins {p t : List UInt8} (h : OwnPath p t) : t <+: p := by
  rcases h with rfl | ⟨rest, rfl⟩
  · exact List.prefix_rfl
  · exact List.prefix_append _ _

/-- If a path of `p` leads where one of the calls does, then it has no backslash. -/
theorem Plain.noBackslash (h : Plain s p) {o t : List UInt8} {l : Loc} (ho : OwnPath p o)
    (ht : OwnPath (slashed p) t) (hone : o ≠ []) (htne : t ≠ []) (hol : s.LeadsTo o l)
    (htl : s.LeadsTo t l) : backslash ∉ o.drop 1 := by
  have hhead : o.take 1 = p.take 1 := by
    obtain ⟨rest, rfl⟩ := ho.begins
    rw [List.take_append_of_le_length (List.length_pos_iff.mpr hone)]
  have hstart : startOf o s.cwd = startOf t s.cwd := by
    have hheads : o.head? = t.head? := by
      obtain ⟨r₁, hr₁⟩ := ho.begins
      obtain ⟨r₂, hr₂⟩ := ht.begins
      have hslashed : (slashed p).head? = p.head? := by cases p <;> rfl
      rw [← List.head?_append_of_ne_nil _ hone, hr₁, ← hslashed, ← hr₂,
        List.head?_append_of_ne_nil _ htne]
    rw [startOf, startOf, hheads]
  have hplace := (h.leadsTo (dotdot_notMem_of_ownPath h.noDots.1 ho) hol).symm.trans
    (h.leadsTo (dotdot_notMem_of_ownPath h.noDots.2 ht) htl)
  rw [FS.descend, FS.descend, hstart, List.append_left_inj, List.reverse_inj] at hplace
  have hcount := congrArg (fun names => (List.flatten names).count backslash) hplace
  simp only [count_entryNames (show backslash ∉ dot by decide),
    count_components (show backslash ≠ slash by decide)] at hcount
  have hle := (ht.begins.sublist.count_le backslash).trans_eq (count_slashed p)
  rw [← hcount, ← hhead] at hle
  have hsplit := congrArg (List.count backslash) (List.take_append_drop 1 o)
  rw [List.count_append] at hsplit
  exact List.count_eq_zero.mp (by omega)

/-- A directory that is new stands under a path of `p` without backslashes. -/
theorem Plain.newPlace (h : Plain s p) (hp : p.length < isrPathMax) (hkept : Coincides F s p)
    {s' : Sys} (hs' : Mkdirs F s (mkdirTargets p) s') {l : Loc} (hold : s.fs.node l = none)
    (hnew : s'.fs.node l ≠ none) :
    ∃ o, OwnPath p o ∧ o ≠ [] ∧ backslash ∉ o.drop 1 ∧ s.LeadsTo o l := by
  obtain ⟨o, ho, hol⟩ := hkept.new s' hs' l hold hnew
  obtain ⟨t, ht, htl⟩ := hs'.new hold hnew
  have hback := h.noBackslash ho (ownPath_of_mem_mkdirTargets hp ht) (Sys.ne_nil_of_lead hol)
    (Sys.ne_nil_of_lead htl) (hs'.dirsAdded.leadsTo hol) (hs'.dirsAdded.leadsTo htl)
  exact ⟨o, ho, Sys.ne_nil_of_lead hol, hback, hs'.dirsAdded.leadsTo hol⟩

/-- If something can be made, some directory is new after all calls, and where the way is free,
the last call does not fail. -/
theorem exists_new (hp : p.length < isrPathMax)
    (h : ∃ t ∈ mkdirTargets p, (s.mkdir t).1 = .made) :
    ∃ l, s.fs.node l = none ∧ (s.supplied (mkdirTargets p)).fs.node l = some .dir ∧
      ((∀ l, s.fs.noSearch l = false) → (∀ c ∈ components (slashed p), Sys.Usable c) →
        dotdot ∉ components (slashed p) →
        ((s.supplied (ancestors (slashed p))).mkdir (slashed p)).1 ≠ .failed) := by
  have hmade : ∀ {t : List UInt8}, (s.mkdir t).1 = .made → ∃ l, (s.mkdir t).2.lead t = some l ∧
      s.fs.node l = none ∧
      ∀ k, (s.mkdir t).2.fs.node k = if k = l then some .dir else s.fs.node k :=
    fun ht => Sys.mkdir_made (Prod.ext ht rfl)
  rw [mkdirTargets_eq hp] at h ⊢
  rw [Sys.supplied_append]
  by_cases hanc : ∃ t ∈ ancestors (slashed p), (s.mkdir t).1 = .made
  · -- the first that is made, and what comes after it
    obtain ⟨ts, t, r, hts, hpath, ht, hfirst⟩ := exists_first_ancestor _ hanc
    obtain ⟨l, hlead, hnone, hnode⟩ := hmade ht
    rw [List.take_append_drop] at hpath
    have hsupplied : s.supplied (ancestors (slashed p)) =
        (s.mkdir t).2.supplied (ancestorsLoop (t ++ [slash]) r) := by
      rw [ancestors, hts, Sys.supplied_append, Sys.supplied_eq_self hfirst, Sys.supplied_cons]
    have hnew : (s.mkdir t).2.fs.node l = some .dir := by rw [hnode, if_pos rfl]
    have hgrows := (Sys.dirsAdded_supplied (ancestorsLoop (t ++ [slash]) r) (s.mkdir t).2).trans
      (Sys.dirsAdded_supplied [slashed p] _)
    refine ⟨l, hnone, ?_, fun hsearch husable hdd => ?_⟩
    · rw [hsupplied]
      exact hgrows.fs.grows.keep _ _ hnew
    · have honly : (s.mkdir t).2.OnlyDirs l t := by
        refine ⟨fun k => ?_, fun k nd hlk hk => ?_, l, hlead, hnew, List.suffix_rfl⟩
        · rw [(Sys.dirsAdded_mkdir s t).fs.grows.search, hsearch]
        · rw [hnode] at hk
          split at hk
          · exact (Option.some.inj hk).symm
          · exact absurd (hk.symm.trans (FS.node_below_missing hnone hlk)) (by simp)
      have hlen : (slashed p).length < pathMax := by
        have : (slashed p).length = p.length := by simp [slashed]; omega
        rw [this]
        exact hp
      rw [hsupplied]
      exact honly.not_failed (Sys.ne_nil_of_lead hlead) hpath hlen husable hdd
  · -- nothing has been made before the last call
    have hnothing : ∀ t ∈ ancestors (slashed p), (s.mkdir t).1 ≠ .made :=
      fun t ht hm => hanc ⟨t, ht, hm⟩
    obtain ⟨t, ht, hm⟩ := h
    obtain rfl : t = slashed p :=
      List.mem_singleton.mp ((List.mem_append.mp ht).resolve_left fun hin => hnothing t hin hm)
    obtain ⟨l, -, hnone, hnode⟩ := hmade hm
    rw [Sys.supplied_eq_self hnothing]
    exact ⟨l, hnone, by simp [hnode], fun _ _ _ => by simp [hm]⟩

/-- If the last call does not fail, the path leads to a directory, which is not new. -/
theorem Plain.not_below (h : Plain s p) (hback : backslash ∈ p.drop 1) (hp : p.length < isrPathMax)
    (hkept : Coincides F s p) {o rest : List UInt8} {l : Loc} (ho : p = o ++ slash :: rest)
    (hone : o ≠ []) (hol : s.LeadsTo o l) (hnone : s.fs.node l = none) :
    ((s.supplied (ancestors (slashed p))).mkdir (slashed p)).1 = .failed := by
  by_contra hok
  have hall := mkdirs_supplied F s (mkdirTargets p)
  obtain ⟨m, hm, hdir⟩ := hkept.names _ _ _ (mkdirs_supplied F s _) (mkdirStep_mkdir F _ _) hok
  have hlast : s.supplied (mkdirTargets p) =
      ((s.supplied (ancestors (slashed p))).mkdir (slashed p)).2 := by
    rw [mkdirTargets_eq hp, Sys.supplied_append, Sys.supplied_cons, Sys.supplied_nil]
  rw [← hlast] at hm hdir
  have hml := hall.dirsAdded.leadsTo hm
  have hbelow : l <:+ m := by
    have hdd := h.noDots.1
    rw [ho, components_append_slash, List.mem_append, not_or] at hdd
    have hrest := hml
    rw [ho, Sys.leadsTo_append hone hol] at hrest
    rw [hrest.unique (FS.leads_descend hdd.2 fun l t _ => h.noLinks l t)]
    exact FS.suffix_descend l _
  -- there is nothing below what is missing, so that one of the calls has made it
  have hmnone := FS.node_below_missing hnone hbelow
  obtain ⟨t, ht, htm⟩ := hall.new hmnone (by rw [hdir]; simp)
  exact h.noBackslash (Or.inl rfl) (ownPath_of_mem_mkdirTargets hp ht) (Sys.ne_nil_of_lead hm)
    (Sys.ne_nil_of_lead htm) hml (hall.dirsAdded.leadsTo htm) hback

/-- Whatever the calls make would be under no path of its own. -/
theorem Plain.not_made (h : Plain s p) (hback : backslash ∈ p.drop 1) (hp : p.length < isrPathMax)
    (hkept : Coincides F s p) {t : List UInt8} (ht : t ∈ mkdirTargets p) :
    (s.mkdir t).1 ≠ .made := by
  intro hmade
  obtain ⟨l, hnone, hdir, hfree⟩ := exists_new hp ⟨t, ht, hmade⟩
  obtain ⟨o, ho, hone, hoback, hol⟩ :=
    h.newPlace hp hkept (mkdirs_supplied F s _) hnone (by rw [hdir]; simp)
  obtain ⟨rest, hrest⟩ := ho.resolve_left fun heq => hoback (heq ▸ hback)
  rcases h.way with hthere | ⟨hsearch, husable⟩
  · obtain ⟨k, hk, hkdir⟩ := hthere o (mem_ancestors.mpr ⟨hone, rest, hrest⟩) hoback
    obtain rfl := hol.unique (Sys.leadsTo_of_lead hk)
    exact absurd (hnone.symm.trans hkdir) (by simp)
  · exact hfree hsearch husable h.noDots.2 (h.not_below hback hp hkept hrest hone hol hnone)

/-- **For a plain path with backslashes the promise is kept only if there is nothing to be
done.** -/
theorem Plain.idle (h : Plain s p) (hback : backslash ∈ p.drop 1) (hp : p.length < isrPathMax)
    (hkept : Coincides F s p) : Idle s p := by
  have hnothing : ∀ t, OwnPath (slashed p) t → (s.mkdir t).1 ≠ .made := by
    intro t ht
    by_cases hne : t = []
    · rw [hne]
      exact fun hfail => absurd hfail (by simp [Sys.mkdir, Sys.mkdirParent])
    · exact h.not_made hback hp hkept (mem_mkdirTargets_of_ownPath hp ht hne)
  refine ⟨hnothing, fun hok => ?_⟩
  have hinit : s.supplied (ancestors (slashed p)) = s :=
    Sys.supplied_eq_self fun t ht => hnothing t (Or.inr (mem_ancestors.mp ht).2)
  have hrun := mkdirs_supplied F s (ancestors (slashed p))
  rw [hinit] at hrun
  have hdir := hkept.names _ _ _ hrun (mkdirStep_mkdir F _ _) hok
  rwa [Sys.mkdir_eq_self (hnothing _ (Or.inl rfl))] at hdir

/-! ### Every path -/

/-- When the promise is kept, in the state before the call. -/
structure KeptWhen (s : Sys) (p : List UInt8) : Prop where
  /-- Neither a file stands under a path without backslashes, nor a link that leads to no
  directory. -/
  free : backslash ∉ p.drop 1 → ¬ s.Taken p
  /-- If it goes up from something that is no directory yet, it does not come to one of these
  either once whatever is missing has been made. -/
  ends : backslash ∉ p.drop 1 → ¬ s.UpFromDirs p → s.EndsFree p
  /-- For a path with backslashes nothing is to be done. -/
  idle : backslash ∈ p.drop 1 → Idle s p

end Promise

end IsrTransfer
