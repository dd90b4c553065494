import IsrTransfer.Posix.Destination

/-!
# The directories above a path

A path names an object in a directory, and its ancestors name the directories on the way
there: what stands in front of one of its slashes (`ancestors`).  Programs that are given a
path make these one after the other, whichever of them can be made, and come to the state
that has been *supplied* with them (`Sys.supplied`).

## What is supplied

Two states that differ in directories only come to states that differ in directories only
(`Sys.DirsAdded.mkdir`), and a state in which none of the directories can be made is one that
nothing is missing in: whoever starts below it stays below it (`Sys.supplied_below`).  So it
does not matter in which state one starts, or which of the calls have failed on the way, as
long as the ancestors are there in the end.

## Paths that are taken

A path can only be taken if its ancestors are there (`Sys.Taken.not_made`).  Making them may
bring one to a path that is taken: `a/../f` leads nowhere as long as there is no `a`, and to
the file `f` afterwards.  It takes a `..` to come back from a directory that has just been
made, because there is nothing in it.  So a path that goes up only from directories that were
there is taken afterwards if and only if it has been taken before
(`Sys.Taken.of_supplied`, `Sys.Taken.supplied_eq`).

## Paths that go up from what is missing

For the others one has to say before the calls where they will come to.  `Leads` does that: it
takes whatever is missing for a directory.  If neither a file nor a link is there, the path is
not taken, whichever directories have been added; nor is it if it goes on behind a file,
because then it comes to nothing (`Sys.EndsFree.not_taken`).

The converse needs that one really gets there.  It holds where nothing else can be in the way
(`Sys.Passable.taken`): the calls are followed from one ancestor to the next, and each of them
names a directory once it has been asked for (`Sys.supplied_not_failed` is the induction).
With links it is false.  A link may lead to a directory only because the call before has made
it, and what `Leads` sees behind the link need not be what a walk comes to.
-/

namespace IsrTransfer
namespace Posix

/-! ## Ancestors -/

/-- What stands in front of the slashes of `rest`, each with `done` in front of it. -/
def ancestorsLoop : (done rest : List UInt8) → List (List UInt8)
  | _, [] => []
  | done, c :: rest =>
    if c = slash then done :: ancestorsLoop (done ++ [slash]) rest
    else ancestorsLoop (done ++ [c]) rest

/-- The ancestors of a path as the system reads it, the outermost first. -/
def ancestors (path : List UInt8) : List (List UInt8) := ancestorsLoop (path.take 1) (path.drop 1)

theorem mem_ancestorsLoop {q : List UInt8} (rest : List UInt8) : ∀ {done : List UInt8},
    q ∈ ancestorsLoop done rest ↔ ∃ r₁ r₂, rest = r₁ ++ slash :: r₂ ∧ q = done ++ r₁ := by
  induction rest with
  | nil =>
    intro done
    refine iff_of_false List.not_mem_nil ?_
    rintro ⟨r₁, r₂, h, -⟩
    exact absurd h.symm (by simp)
  | cons c rest ih =>
    intro done
    have hlater : (∃ r₁ r₂, rest = r₁ ++ slash :: r₂ ∧ q = done ++ [c] ++ r₁) ↔
        ∃ r₁ r₂, c :: rest = (c :: r₁) ++ slash :: r₂ ∧ q = done ++ (c :: r₁) := by
      simp only [List.cons_append, List.cons.injEq, true_and, List.append_assoc,
        List.nil_append]
    rw [ancestorsLoop]
    split
    case isTrue hc =>
      subst hc
      rw [List.mem_cons, ih, hlater]
      constructor
      · rintro (rfl | ⟨r₁, r₂, h⟩)
        · exact ⟨[], rest, rfl, (List.append_nil _).symm⟩
        · exact ⟨_, r₂, h⟩
      · rintro ⟨r₁, r₂, h, rfl⟩
        cases r₁ with
        | nil => exact Or.inl (List.append_nil _)
        | cons b r₁ =>
          obtain ⟨rfl, -⟩ := List.cons.inj h
          exact Or.inr ⟨r₁, r₂, h, rfl⟩
    case isFalse hc =>
      rw [ih, hlater]
      constructor
      · rintro ⟨r₁, r₂, h⟩
        exact ⟨_, r₂, h⟩
      · rintro ⟨r₁, r₂, h, rfl⟩
        cases r₁ with
        | nil => exact absurd (List.cons.inj h).1 hc
        | cons b r₁ =>
          obtain ⟨rfl, -⟩ := List.cons.inj h
          exact ⟨r₁, r₂, h, rfl⟩

theorem ancestorsLoop_append {c : List UInt8} (hc : slash ∉ c) (rest : List UInt8) :
    ∀ {done : List UInt8}, ancestorsLoop done (c ++ slash :: rest) =
      (done ++ c) :: ancestorsLoop (done ++ c ++ [slash]) rest := by
  induction c with
  | nil =>
    intro done
    rw [List.nil_append, ancestorsLoop, if_pos rfl, List.append_nil]
  | cons b c ih =>
    intro done
    rw [List.mem_cons, not_or] at hc
    rw [List.cons_append, ancestorsLoop, if_neg (Ne.symm hc.1), ih hc.2]
    simp only [List.append_assoc, List.singleton_append]

/-- An ancestor stands in front of a slash, and something stands in front of the slash. -/
theorem mem_ancestors {p q : List UInt8} :
    q ∈ ancestors p ↔ q ≠ [] ∧ ∃ rest, p = q ++ slash :: rest := by
  rw [ancestors, mem_ancestorsLoop]
  cases p with
  | nil => simp
  | cons b p =>
    constructor
    · rintro ⟨r₁, r₂, h, rfl⟩
      refine ⟨by simp, r₂, ?_⟩
      rw [List.append_assoc, ← h]
      exact (List.take_append_drop 1 _).symm
    · rintro ⟨hq, rest, h⟩
      obtain ⟨b', q, rfl⟩ := List.exists_cons_of_ne_nil hq
      obtain ⟨rfl, rfl⟩ := List.cons.inj h
      exact ⟨q, rest, rfl, rfl⟩

/-- The first ancestor with a property, and the ancestors that come after it. -/
theorem exists_first_ancestor {P : List UInt8 → Prop} (rest : List UInt8) :
    ∀ {done : List UInt8}, (∃ t ∈ ancestorsLoop done rest, P t) →
      ∃ ts t r, ancestorsLoop done rest = ts ++ t :: ancestorsLoop (t ++ [slash]) r ∧
        done ++ rest = t ++ slash :: r ∧ P t ∧ ∀ u ∈ ts, ¬ P u := by
  induction rest with
  | nil =>
    rintro done ⟨t, ht, -⟩
    exact absurd ht List.not_mem_nil
  | cons c rest ih =>
    intro done h
    rw [ancestorsLoop] at h ⊢
    split at h
    case isTrue hc =>
      rw [if_pos hc]
      subst hc
      by_cases hdone : P done
      · exact ⟨[], done, rest, rfl, rfl, hdone, fun u hu => absurd hu List.not_mem_nil⟩
      · obtain ⟨t, ht, hPt⟩ := h
        obtain ⟨ts, t, r, hts, heq, hP, hfirst⟩ :=
          ih ⟨t, (List.mem_cons.mp ht).resolve_left fun h => hdone (h ▸ hPt), hPt⟩
        refine ⟨done :: ts, t, r, by rw [hts, List.cons_append], ?_, hP, fun u hu => ?_⟩
        · rw [← heq, List.append_assoc, List.singleton_append]
        · rcases List.mem_cons.mp hu with rfl | hu
          · exact hdone
          · exact hfirst u hu
    case isFalse hc =>
      rw [if_neg hc]
      obtain ⟨ts, t, r, hts, heq, hP, hfirst⟩ := ih h
      refine ⟨ts, t, r, hts, ?_, hP, hfirst⟩
      rw [← heq, List.append_assoc, List.singleton_append]

/-! ## Supplying directories -/

/-- A directory that stands in both may be added to the smaller one. -/
theorem FS.DirsAdded.makeDir {a b : FS} (h : a.DirsAdded b) {l : Loc}
    (hins : a.Insertable l .dir a.fresh) (hl : b.node l = some .dir) :
    (a.makeDir l).DirsAdded b := by
  have hnode : ∀ k, (a.makeDir l).node k = if k = l then some .dir else a.node k := by
    intro k
    rw [FS.makeDir, dif_pos hins, FS.node_insert]
  have hadded := FS.dirsAdded_makeDir a l
  refine ⟨⟨fun k nd hk => ?_, fun k t hk => ?_, ?_, ?_⟩, ?_, ?_, fun k nd hk => ?_⟩
  · rw [hnode] at hk
    split at hk
    · rename_i hkl
      rw [hkl, hl, ← hk]
    · exact h.grows.keep k nd hk
  · exact hadded.grows.keep k _ (h.grows.link k t hk)
  · exact h.grows.search.trans hadded.grows.search.symm
  · exact Nat.le_of_eq (hadded.fresh.trans h.fresh.symm)
  · exact h.data.trans hadded.data.symm
  · exact h.fresh.trans hadded.fresh.symm
  · rw [hnode]
    split
    · rename_i hkl
      rw [hkl, hl] at hk
      exact Or.inl hk
    · exact h.new k nd hk

namespace Sys

variable {a b s s' : Sys} {p t : List UInt8} {ts : List (List UInt8)} {cur l : Loc} {c : Name}

theorem dirsAdded_mkdir (s : Sys) (t : List UInt8) : s.DirsAdded (s.mkdir t).2 := by
  by_cases h : (s.mkdir t).1 = .made
  · obtain ⟨cur, c, hmakes⟩ := makesAt_of_made h
    rw [hmakes.mkdir_eq]
    exact ⟨_, FS.dirsAdded_makeDir _ _, rfl⟩
  · rw [mkdir_eq_self h]
    exact DirsAdded.refl s

/-- What can be made can still be made later, unless it has been made. -/
theorem MakesAt.of_dirsAdded (h : a.MakesAt t cur c) (hab : a.DirsAdded b) :
    b.MakesAt t cur c ∨ b.fs.node (c :: cur) = some .dir := by
  have hparent := mkdirParent_of_grows hab.fs.grows hab.cwd h.parent
  cases hn : b.fs.node (c :: cur) with
  | none =>
    refine Or.inl ⟨hparent, h.insertable.1, ?_, hn, Nat.le_refl _, trivial⟩
    exact hab.fs.grows.keep _ _ h.insertable.2.1
  | some nd =>
    rcases hab.fs.new _ nd hn with hold | ⟨-, rfl⟩
    · exact absurd (h.insertable.2.2.1.symm.trans hold) (by simp)
    · exact Or.inr rfl

theorem MakesAt.dirsAdded (h : a.MakesAt t cur c) (hab : a.DirsAdded b)
    (hdir : b.fs.node (c :: cur) = some .dir) : (a.mkdir t).2.DirsAdded b := by
  obtain ⟨fs, hfs, rfl⟩ := hab
  rw [h.mkdir_eq]
  exact ⟨fs, hfs.makeDir h.insertable hdir, rfl⟩

/-- States that differ in directories only still do after one more call. -/
theorem DirsAdded.mkdir (h : a.DirsAdded b) (t : List UInt8) :
    (a.mkdir t).2.DirsAdded (b.mkdir t).2 := by
  have hb := h.trans (dirsAdded_mkdir b t)
  by_cases hmade : (a.mkdir t).1 = .made
  · obtain ⟨cur, c, hmakes⟩ := makesAt_of_made hmade
    refine hmakes.dirsAdded hb ?_
    rcases hmakes.of_dirsAdded h with hagain | hdir
    · rw [hagain.mkdir_eq]
      exact (by simp [FS.makeDir, hagain.insertable, FS.node_insert] :
        (b.fs.makeDir (c :: cur)).node (c :: cur) = some .dir)
    · exact (dirsAdded_mkdir b t).fs.grows.keep _ _ hdir
  · rw [mkdir_eq_self hmade]
    exact hb

/-- The state with the directories `ts` made one after the other, those that can be. -/
def supplied (s : Sys) (ts : List (List UInt8)) : Sys := ts.foldl (fun s t => (s.mkdir t).2) s

@[simp] theorem supplied_nil (s : Sys) : s.supplied [] = s := rfl

@[simp] theorem supplied_cons (s : Sys) (t : List UInt8) (ts : List (List UInt8)) :
    s.supplied (t :: ts) = (s.mkdir t).2.supplied ts := rfl

theorem supplied_append (s : Sys) (ts us : List (List UInt8)) :
    s.supplied (ts ++ us) = (s.supplied ts).supplied us := List.foldl_append

theorem dirsAdded_supplied (ts : List (List UInt8)) : ∀ s : Sys, s.DirsAdded (s.supplied ts) := by
  induction ts with
  | nil => exact DirsAdded.refl
  | cons t ts ih => exact fun s => (dirsAdded_mkdir s t).trans (ih _)

/-- Where none of the directories can be made, nothing is missing. -/
theorem supplied_eq_self (h : ∀ t ∈ ts, (s.mkdir t).1 ≠ .made) : s.supplied ts = s := by
  induction ts with
  | nil => rfl
  | cons t ts ih =>
    rw [supplied_cons, mkdir_eq_self (h t List.mem_cons_self)]
    exact ih fun u hu => h u (List.mem_cons_of_mem t hu)

/-- **Whoever starts below a state in which nothing is missing stays below it.**  The calls
can only make directories that are there in the larger state. -/
theorem supplied_below (h : a.DirsAdded b) (hb : ∀ t ∈ ts, (b.mkdir t).1 ≠ .made) :
    (a.supplied ts).DirsAdded b := by
  induction ts generalizing a with
  | nil => exact h
  | cons t ts ih =>
    refine ih ?_ fun u hu => hb u (List.mem_cons_of_mem t hu)
    have hstep := h.mkdir t
    rwa [mkdir_eq_self (hb t List.mem_cons_self)] at hstep

/-! ## Paths that are taken -/

theorem startOf_append {q : List UInt8} (hq : q ≠ []) (r : List UInt8) (cwd : Loc) :
    startOf (q ++ r) cwd = startOf q cwd := by
  obtain ⟨b, q, rfl⟩ := List.exists_cons_of_ne_nil hq
  rfl

/-- Of two components of a path, the last that is not empty comes last. -/
theorem last_component {ds ds' es : List Name} {c c' : Name} {m : Nat} (hc' : c' ≠ [])
    (h : ds ++ c :: List.replicate m [] = ds' ++ c' :: es) :
    ds = ds' ∧ c = c' ∨ ∃ es', ds = ds' ++ c' :: es' ∧ es = es' ++ c :: List.replicate m [] := by
  rcases List.append_eq_append_iff.mp h with ⟨as, hds, has⟩ | ⟨as, hds, has⟩
  · cases as with
    | nil => exact Or.inl ⟨by rw [hds, List.append_nil], (List.cons.inj has).1⟩
    | cons x as =>
      have hmem : c' ∈ List.replicate m ([] : Name) := by
        rw [(List.cons.inj has).2]
        exact List.mem_append_right _ List.mem_cons_self
      exact absurd (List.eq_of_mem_replicate hmem) hc'
  · cases as with
    | nil => exact Or.inl ⟨by rw [hds, List.append_nil], (List.cons.inj has).1.symm⟩
    | cons x as =>
      obtain ⟨rfl, hes⟩ := List.cons.inj has
      exact Or.inr ⟨as, hds, hes⟩

/-- A path that names a directory is there already. -/
theorem NamesDir.mkdir_eq (h : s.NamesDir p) : s.mkdir p = (.exist, s) := by
  obtain ⟨l, hlead, hdir⟩ := h
  unfold lead at hlead
  split at hlead
  · exact absurd hlead (by simp)
  rename_i hpath
  rw [← List.dropLast_append_getLast (components_ne_nil _)] at hlead
  obtain ⟨k, b, hk, hlast⟩ := FS.walk_of_append _ hlead
  unfold mkdir mkdirParent
  simp only [if_neg hpath, hk, if_pos (FS.enterable_of_walk hlast)]
  split
  · rfl
  · rename_i hname
    rw [not_or] at hname
    split
    · rfl
    · rename_i hnone
      rw [FS.walk_cons_missing hname.1 hname.2 hnone hlast, hnone] at hdir
      exact absurd hdir (by simp)

/-- What stands under a path that is taken is no directory. -/
theorem Taken.place (h : s.Taken p) : ∃ cur c nd ds m,
    components p = ds ++ c :: List.replicate m [] ∧
      s.fs.walk symloopMax (startOf p s.cwd) ds = some cur ∧
        s.fs.node (c :: cur) = some nd ∧ nd ≠ .dir := by
  obtain ⟨⟨cur, c, nd, hparent, hnd⟩, hno⟩ := h
  obtain ⟨ds, m, hcomps, hwalk⟩ := walk_of_mkdirParent hparent
  refine ⟨cur, c, nd, ds, m, hcomps, hwalk, hnd, ?_⟩
  rintro rfl
  obtain ⟨hs, hd⟩ := not_stays_of_valid (FS.validName_of_node hnd)
  have hstep : s.fs.walk 0 cur [c] = some (c :: cur) :=
    FS.walkWith_object (lead_of_mkdirParent (l := cur) hparent).1 hs hd hnd (by simp)
  exact hno ⟨c :: cur, (lead_of_mkdirParent hparent).2 hstep, hnd⟩

/-- **The ancestors of a path that is taken are there**, in the sense that no call makes one
of them. -/
theorem Taken.not_made (h : s.Taken p) (ht : t ∈ ancestors p) : (s.mkdir t).1 ≠ .made := by
  intro hmade
  obtain ⟨htne, rest, rfl⟩ := mem_ancestors.mp ht
  obtain ⟨cur, c, nd, ds, m, hcomps, hwalk, hnd, -⟩ := h.place
  obtain ⟨cur', c', hmakes⟩ := makesAt_of_made hmade
  obtain ⟨ds', m', hcomps', hwalk'⟩ := walk_of_mkdirParent hmakes.parent
  obtain ⟨hvalid, -, hnone, -⟩ := hmakes.insertable
  rw [startOf_append htne] at hwalk
  rw [components_append_slash, hcomps', List.append_assoc, List.cons_append] at hcomps
  rcases last_component hvalid.1 hcomps.symm with ⟨rfl, rfl⟩ | ⟨es, rfl, -⟩
  · obtain rfl := Option.some.inj (hwalk.symm.trans hwalk')
    exact absurd (hnd.symm.trans hnone) (by simp)
  · -- the walk cannot have gone on behind what is missing
    obtain ⟨hs, hd⟩ := not_stays_of_valid hvalid
    obtain ⟨k, b, hk, hrest⟩ := FS.walk_of_append _ hwalk
    obtain rfl := Option.some.inj (hk.symm.trans hwalk')
    obtain rfl := FS.walk_cons_missing hs hd hnone hrest
    exact absurd ((FS.node_parent hnd).symm.trans hnone) (by simp)

/-- A path that is taken is so where nothing is missing. -/
theorem Taken.supplied_eq (h : s.Taken p) : s.supplied (ancestors p) = s :=
  supplied_eq_self fun _ ht => h.not_made ht

/-- The directories that the path goes up from are there. -/
def UpFromDirs (s : Sys) (p : List UInt8) : Prop :=
  ∀ t rest, t ≠ [] → p = t ++ slash :: rest → dotdot ∈ components rest → s.NamesDir t

theorem upFromDirs_of_notMem (h : dotdot ∉ components p) : s.UpFromDirs p := by
  rintro t rest - rfl hmem
  rw [components_append_slash] at h
  exact absurd (List.mem_append_right _ hmem) h

/-- **A path that is taken once its ancestors are there has been taken before**, if it only goes
up from directories that were there: in a directory that has just been made there is nothing to
come to. -/
theorem Taken.of_supplied (hup : s.UpFromDirs p) (h : (s.supplied (ancestors p)).Taken p) :
    s.Taken p := by
  by_cases hall : ∀ t ∈ ancestors p, (s.mkdir t).1 ≠ .made
  · rwa [supplied_eq_self hall] at h
  exfalso
  simp only [not_forall, not_not] at hall
  obtain ⟨t, ht, hmade⟩ := hall
  have hnot := h.not_made ht
  obtain ⟨htne, rest, hp⟩ := mem_ancestors.mp ht
  have hrest : dotdot ∉ components rest := by
    intro hmem
    rw [(hup t rest htne hp hmem).mkdir_eq] at hmade
    exact absurd hmade (by simp)
  have hadded := dirsAdded_supplied (ancestors p) s
  obtain ⟨cur, c, nd, ds, m, hcomps, hwalk, hnd, hne⟩ := h.place
  obtain ⟨cur', c', hmakes⟩ := makesAt_of_made hmade
  obtain ⟨ds', m', hcomps', hwalk'⟩ := walk_of_mkdirParent hmakes.parent
  obtain ⟨hvalid, -, hnone, -⟩ := hmakes.insertable
  have hdir : (s.supplied (ancestors p)).fs.node (c' :: cur') = some .dir := by
    refine (hmakes.of_dirsAdded hadded).resolve_left fun hagain => hnot ?_
    rw [hagain.mkdir_eq]
  have hwalk₁ := FS.walk_grows hadded.fs.grows _ hwalk'
  have hstart : startOf p (s.supplied (ancestors p)).cwd = startOf t s.cwd := by
    rw [hadded.cwd, hp, startOf_append htne]
  rw [hstart] at hwalk
  have hold : s.fs.node (c :: cur) = some nd :=
    (hadded.fs.new _ nd hnd).resolve_right fun hnew => hne hnew.2
  have hsplit := hcomps
  rw [hp, components_append_slash, hcomps', List.append_assoc, List.cons_append] at hsplit
  rcases last_component hvalid.1 hsplit.symm with ⟨rfl, rfl⟩ | ⟨es, rfl, hbehind⟩
  · obtain rfl := Option.some.inj (hwalk.symm.trans hwalk₁)
    exact absurd (hnd.symm.trans hdir) (by simpa using hne)
  · -- behind a directory that is new, names lead to what is new
    obtain ⟨hs, hd⟩ := not_stays_of_valid hvalid
    have hleads := (FS.leads_append (FS.leads_of_walk _ hwalk₁)).mp (FS.leads_of_walk _ hwalk)
    rw [FS.leads_name hs hd fun t => by rw [hdir]; simp,
      FS.leads_iff_of_grows hadded.fs.grows] at hleads
    have hes : dotdot ∉ es := by
      intro hmem
      have hin : dotdot ∈ List.replicate m' [] ++ components rest := by
        rw [hbehind]
        exact List.mem_append_left _ hmem
      rcases List.mem_append.mp hin with hempty | hin
      · exact absurd (List.eq_of_mem_replicate hempty) (by decide)
      · exact hrest hin
    obtain rfl := hleads.unique (FS.leads_descend hes (FS.noLinksBelow_of_missing hnone))
    have hsuf := (FS.suffix_descend (c' :: cur') es).trans (List.suffix_cons c _)
    exact absurd (hold.symm.trans (FS.node_below_missing hnone hsuf)) (by simp)

/-! ## Below a directory that has just been made

There is nothing in such a directory.  So once a call has made one, nothing stands in the way of
the calls after it, as long as their components are usable and do not lead up and out of there
again. -/

/-- One more slash asks for nothing more. -/
theorem lead_slash (hp : p ≠ []) (hlen : (p ++ [slash]).length < pathMax) :
    s.lead (p ++ [slash]) = s.lead p := by
  have hlen' : p.length < pathMax := by
    rw [List.length_append] at hlen
    omega
  rw [lead, lead, if_neg (not_or.mpr ⟨by simp, Nat.not_le.mpr hlen⟩),
    if_neg (not_or.mpr ⟨hp, Nat.not_le.mpr hlen'⟩), startOf_append hp,
    List.rdropWhile_concat_pos _ _ _ (by simp)]

theorem walk_of_lead (h : s.lead p = some l) (hl : s.fs.Enterable l) :
    s.fs.walk symloopMax (startOf p s.cwd) (components p) = some l := by
  unfold lead at h
  split at h
  · exact absurd h (by simp)
  obtain ⟨m, hm⟩ : ∃ m, p.rtakeWhile (· = slash) = List.replicate m slash :=
    ⟨_, List.eq_replicate_of_mem fun b hb => by simpa using List.mem_rtakeWhile_imp hb⟩
  have hstay : ∀ m, s.fs.walk 0 l (List.replicate m []) = some l := by
    intro m
    induction m with
    | zero => rfl
    | succ m ih => exact (FS.walkWith_stays hl (Or.inl rfl)).trans ih
  have hall := FS.walk_append_plain hl.1 (hstay m) _ h
  rwa [← components_append_slashes, ← hm, List.rdropWhile_append_rtakeWhile] at hall

/-- A path with a last component that is not empty names an entry of the directory that the
others lead to. -/
theorem mkdirParent_of_components {ds : List Name} (hcomps : components p = ds ++ [c])
    (hne : c ≠ []) (hlen : p.length < pathMax)
    (hwalk : s.fs.walk symloopMax (startOf p s.cwd) ds = some cur) (hcur : s.fs.Enterable cur) :
    s.mkdirParent p = some (cur, c) := by
  have hp : p ≠ [] := by
    rintro rfl
    obtain ⟨-, hc⟩ := List.append_inj' (show ([] : List Name) ++ [[]] = ds ++ [c] from hcomps) rfl
    exact hne (List.singleton_inj.mp hc).symm
  have hdrop : p.rdropWhile (· = slash) = p := by
    rw [List.rdropWhile_eq_self_iff]
    intro hp hlast
    have hslash : p.dropLast ++ slash :: [] = p := by
      rw [← of_decide_eq_true hlast, List.dropLast_append_getLast]
    rw [← hslash, components_append_slash] at hcomps
    obtain ⟨-, hc⟩ := List.append_inj' hcomps rfl
    exact hne (List.singleton_inj.mp hc).symm
  unfold mkdirParent
  simp only [hdrop, hcomps, List.dropLast_concat, List.getLast_concat, hwalk, if_pos hcur]
  exact if_neg (not_or.mpr ⟨hp, Nat.not_le.mpr hlen⟩)

/-- One more name is that of an entry of the directory. -/
theorem mkdirParent_component (h : s.lead p = some l) (hl : s.fs.Enterable l) (hp : p ≠ [])
    (hlen : (p ++ slash :: c).length < pathMax) (hc : slash ∉ c) (hne : c ≠ []) :
    s.mkdirParent (p ++ slash :: c) = some (l, c) := by
  have hcomps : components (p ++ slash :: c) = components p ++ [c] := by
    rw [components_append_slash, components_of_notMem hc]
  refine mkdirParent_of_components hcomps hne hlen ?_ hl
  rw [startOf_append hp]
  exact walk_of_lead h hl

/-- A component that may be walked through, or be the name of a new directory. -/
def Usable (c : Name) : Prop := c = [] ∨ c = dot ∨ c = dotdot ∨ ValidName c

/-- Where a component leads. -/
def next (k : Loc) (c : Name) : Loc :=
  if FS.Stays c then k else if c = dotdot then k.tail else c :: k

theorem suffix_next (hc : c ≠ dotdot) : l <:+ next l c := by
  rw [next, if_neg hc]
  split
  · exact List.suffix_rfl
  · exact List.suffix_cons c l

/-- With a component that is usable, a call does not fail. -/
theorem mkdir_not_failed (h : s.mkdirParent p = some (cur, c)) (husable : Usable c) :
    (s.mkdir p).1 ≠ .failed := by
  unfold mkdir
  simp only [h]
  split
  · simp
  · rename_i hname
    rw [not_or] at hname
    split
    · simp
    · rename_i hnone
      have hvalid : ValidName c := by
        rcases husable with rfl | rfl | rfl | hvalid
        · exact absurd (Or.inl rfl) hname.1
        · exact absurd (Or.inr rfl) hname.1
        · exact absurd rfl hname.2
        · exact hvalid
      rw [if_pos ⟨hvalid, (lead_of_mkdirParent (l := cur) h).1.1, hnone, Nat.le_refl _, trivial⟩]
      simp

/-- Unless a file or a link is in the way, the path names a directory afterwards. -/
theorem mkdir_next (h : s.mkdirParent p = some (cur, c)) (husable : Usable c)
    (hentry : ∀ nd, s.fs.node (c :: cur) = some nd → nd = .dir) :
    (s.mkdir p).2.lead p = some (next cur c) ∧
      (s.mkdir p).2.fs.node (next cur c) = some .dir := by
  have henter := (lead_of_mkdirParent (l := cur) h).1
  -- if the path names a directory, nothing happens
  have hthere : s.fs.walk 0 cur [c] = some (next cur c) → s.fs.node (next cur c) = some .dir →
      (s.mkdir p).2.lead p = some (next cur c) ∧
        (s.mkdir p).2.fs.node (next cur c) = some .dir := by
    intro hwalk hdir
    have hlead := (lead_of_mkdirParent h).2 hwalk
    rw [NamesDir.mkdir_eq ⟨_, hlead, hdir⟩]
    exact ⟨hlead, hdir⟩
  by_cases hs : FS.Stays c
  · rw [next, if_pos hs] at hthere ⊢
    exact hthere (FS.walkWith_stays henter hs) henter.1
  rw [next, if_neg hs] at hthere ⊢
  by_cases hd : c = dotdot
  · subst hd
    rw [if_pos rfl] at hthere ⊢
    refine hthere (FS.walkWith_dotdot henter) ?_
    cases cur with
    | nil => rfl
    | cons n cur => exact FS.node_parent henter.1
  rw [if_neg hd] at hthere ⊢
  cases hn : s.fs.node (c :: cur) with
  | some nd =>
    obtain rfl := hentry nd hn
    exact hthere (FS.walkWith_object henter hs hd hn (by simp)) hn
  | none =>
    have hmade : (s.mkdir p).1 = .made := by
      have hok := mkdir_not_failed h husable
      unfold mkdir at hok ⊢
      simp only [h, if_neg (not_or.mpr ⟨hs, hd⟩), hn] at hok ⊢
      split
      · rfl
      · rename_i hins
        exact absurd (by rw [if_neg hins]) hok
    obtain ⟨cur', c', hmakes⟩ := makesAt_of_made hmade
    obtain ⟨rfl, rfl⟩ := Prod.mk.inj (Option.some.inj (h.symm.trans hmakes.parent))
    have hadded := dirsAdded_mkdir s p
    have hlead : s.lead p = some (c :: cur) := (lead_of_mkdirParent h).2
      (FS.walkWith_missing henter hs hd hn hmakes.insertable.1.2.2.2.2.2)
    refine ⟨lead_of_grows hadded.fs.grows hadded.cwd hlead, ?_⟩
    rw [hmakes.mkdir_eq]
    simp [FS.makeDir, hmakes.insertable, FS.node_insert]

theorem mem_components {q : List UInt8} (hc : slash ∉ c)
    (hq : q = p ++ slash :: c ∨ ∃ r, q = p ++ slash :: c ++ slash :: r) : c ∈ components q := by
  have hmem : c ∈ components (p ++ slash :: c) := by
    rw [components_append_slash, components_of_notMem hc]
    exact List.mem_append_right _ List.mem_cons_self
  rcases hq with rfl | ⟨r, rfl⟩
  · exact hmem
  · rw [components_append_slash]
    exact List.mem_append_left _ hmem

/-- **The calls for a path, one after the other**: what holds of every ancestor once it has been
asked for decides about the last call. -/
theorem supplied_not_failed {I : Sys → List UInt8 → Prop} {q : List UInt8}
    (hnext : ∀ {a p c r}, I a p → p ≠ [] → slash ∉ c → q = p ++ slash :: c ++ slash :: r →
      I (a.mkdir (p ++ slash :: c)).2 (p ++ slash :: c))
    (hlast : ∀ {a p c}, I a p → p ≠ [] → slash ∉ c → q = p ++ slash :: c →
      (a.mkdir (p ++ slash :: c)).1 ≠ .failed) (rest : List UInt8) :
    ∀ {a : Sys} {p : List UInt8} {c : Name}, I a p → p ≠ [] → slash ∉ c →
      q = p ++ slash :: c ++ rest →
      ((a.supplied (ancestorsLoop (p ++ slash :: c) rest)).mkdir q).1 ≠ .failed := by
  induction rest with
  | nil =>
    intro a p c h hp hc hq
    rw [List.append_nil] at hq
    rw [hq]
    exact hlast h hp hc hq
  | cons b rest ih =>
    intro a p c h hp hc hq
    rw [ancestorsLoop]
    split
    case isTrue hb =>
      subst hb
      exact ih (c := []) (hnext h hp hc hq) (by simp) List.not_mem_nil (by simpa using hq)
    case isFalse hb =>
      have hstep := ih (p := p) (c := c ++ [b]) h hp
      simp only [List.append_assoc, List.cons_append, List.nil_append] at hstep hq ⊢
      refine hstep ?_ hq
      simp [hc, Ne.symm hb]

/-- The path leads to a directory at `l` or below it, and there are only directories there. -/
structure OnlyDirs (s : Sys) (l : Loc) (p : List UInt8) : Prop where
  search : ∀ k, s.fs.noSearch k = false
  dirs : ∀ k nd, l <:+ k → s.fs.node k = some nd → nd = .dir
  leads : ∃ k, s.lead p = some k ∧ s.fs.node k = some .dir ∧ l <:+ k

/-- One more component that is usable does not lead away from there. -/
theorem OnlyDirs.mkdir (h : s.OnlyDirs l p) (hp : p ≠ [])
    (hlen : (p ++ slash :: c).length < pathMax) (hc : slash ∉ c) (husable : Usable c)
    (hdd : c ≠ dotdot) :
    (s.mkdir (p ++ slash :: c)).1 ≠ .failed ∧
      (s.mkdir (p ++ slash :: c)).2.OnlyDirs l (p ++ slash :: c) := by
  obtain ⟨hsearch, hdirs, k, hlead, hdir, hsuf⟩ := h
  by_cases hne : c = []
  · subst hne
    have hthere := (lead_slash hp hlen).trans hlead
    rw [NamesDir.mkdir_eq ⟨k, hthere, hdir⟩]
    exact ⟨by simp, hsearch, hdirs, k, hthere, hdir, hsuf⟩
  have hparent := mkdirParent_component hlead ⟨hdir, hsearch k⟩ hp hlen hc hne
  have hadded := dirsAdded_mkdir s (p ++ slash :: c)
  obtain ⟨hlead', hdir'⟩ := mkdir_next hparent husable
    fun nd hnd => hdirs _ nd (hsuf.trans (List.suffix_cons _ _)) hnd
  refine ⟨mkdir_not_failed hparent husable, fun j => ?_, fun j nd hlj hj => ?_,
    _, hlead', hdir', hsuf.trans (suffix_next hdd)⟩
  · rw [hadded.fs.grows.search, hsearch]
  · rcases hadded.fs.new j nd hj with hold | ⟨-, rfl⟩
    · exact hdirs j nd hlj hold
    · rfl

/-- **Once a directory has been made, all that are asked for below it can be**, and the whole path
too. -/
theorem OnlyDirs.not_failed (h : s.OnlyDirs l p) (hp : p ≠ []) {q rest : List UInt8}
    (hq : q = p ++ slash :: rest) (hlen : q.length < pathMax)
    (husable : ∀ c ∈ components q, Usable c) (hdd : dotdot ∉ components q) :
    ((s.supplied (ancestorsLoop (p ++ [slash]) rest)).mkdir q).1 ≠ .failed := by
  have hstep : ∀ {a : Sys} {p : List UInt8} {c : Name}, a.OnlyDirs l p → p ≠ [] → slash ∉ c →
      p ++ slash :: c <+: q → c ∈ components q →
      (a.mkdir (p ++ slash :: c)).1 ≠ .failed ∧
        (a.mkdir (p ++ slash :: c)).2.OnlyDirs l (p ++ slash :: c) := by
    intro a p c h hp hc hpre hmem
    refine h.mkdir hp (hpre.length_le.trans_lt hlen) hc (husable c hmem) ?_
    rintro rfl
    exact hdd hmem
  refine supplied_not_failed (I := fun a p => a.OnlyDirs l p) (fun h hp hc hq => ?_)
    (fun h hp hc hq => ?_) rest (c := []) h hp List.not_mem_nil (by rw [hq]; simp)
  · exact (hstep h hp hc ⟨_, hq.symm⟩ (mem_components hc (Or.inr ⟨_, hq⟩))).2
  · exact (hstep h hp hc ⟨[], by rw [hq, List.append_nil]⟩ (mem_components hc (Or.inl hq))).1

/-! ## Paths that go up from what is missing -/

/-- The last component of the path is the name `c` in `k`, if whatever is missing on its way is a
directory. -/
def ComesTo (s : Sys) (p : List UInt8) (k : Loc) (c : Name) : Prop :=
  ∃ ds m, components p = ds ++ c :: List.replicate m [] ∧ s.fs.Leads (startOf p s.cwd) ds k

/-- The path goes on behind a file. -/
def ThroughFile (s : Sys) (p : List UInt8) : Prop :=
  ∃ ds es k i, components p = ds ++ es ∧ (∃ e ∈ es, e ≠ []) ∧
    s.fs.Leads (startOf p s.cwd) ds k ∧ s.fs.node k = some (.file i)

/-- With whatever is missing on its way taken for a directory, the path comes neither to a file nor
to a link; or it goes on behind a file, so that it comes to nothing. -/
def EndsFree (s : Sys) (p : List UInt8) : Prop :=
  s.ThroughFile p ∨ ∀ k c nd, s.ComesTo p k c → s.fs.node (c :: k) = some nd → nd = .dir

/-- **Such a path is not taken**, whichever directories are added. -/
theorem EndsFree.not_taken (h : s.EndsFree p) (hs : s.DirsAdded s') : ¬ s'.Taken p := by
  intro htaken
  obtain ⟨cur, c, nd, ds, m, hcomps, hwalk, hnd, hne⟩ := htaken.place
  have hold : s.fs.node (c :: cur) = some nd :=
    (hs.fs.new _ nd hnd).resolve_right fun hnew => hne hnew.2
  rw [hs.cwd] at hwalk
  have hleads : ∀ {ds b k}, s'.fs.walk b (startOf p s.cwd) ds = some k →
      s.fs.Leads (startOf p s.cwd) ds k := fun hwalk =>
    (FS.leads_iff_of_grows hs.fs.grows).mp (FS.leads_of_walk _ hwalk)
  rcases h with ⟨ds', es, k, i, hcomps', ⟨e, he, hene⟩, hk, hfile⟩ | hfree
  · -- the walk cannot have gone on behind the file
    have hempty : ∀ {as : List Name}, c :: List.replicate m [] = as ++ es → as = [] := by
      intro as has
      cases as with
      | nil => rfl
      | cons x as =>
        have hmem : e ∈ List.replicate m ([] : Name) := by
          rw [(List.cons.inj has).2]
          exact List.mem_append_right _ he
        exact absurd (List.eq_of_mem_replicate hmem) hene
    have hsplit : ∃ as, ds = ds' ++ as := by
      rcases List.append_eq_append_iff.mp (hcomps.symm.trans hcomps') with
        ⟨as, hds, has⟩ | ⟨as, hds, -⟩
      · exact ⟨[], by rw [hds, hempty has, List.append_nil, List.append_nil]⟩
      · exact ⟨as, hds⟩
    obtain ⟨as, rfl⟩ := hsplit
    obtain ⟨k', b, hk', hrest⟩ := FS.walk_of_append _ hwalk
    obtain rfl := (hleads hk').unique hk
    have hdir : s'.fs.node k' = some .dir := by
      cases as with
      | nil =>
        obtain rfl : k' = cur := by cases b <;> exact Option.some.inj hrest
        exact FS.node_parent hnd
      | cons a as => exact (FS.enterable_of_walk hrest).1
    exact absurd (hdir.symm.trans (hs.fs.grows.keep _ _ hfile)) (by simp)
  · exact hne (hfree cur c nd ⟨ds, m, hcomps, hleads hwalk⟩ hold)

/-- Where the path can go everywhere: there are no links, every directory may be searched, and all
components are usable.  It does not end in a slash. -/
structure Passable (s : Sys) (p : List UInt8) : Prop where
  noLinks : ∀ l t, s.fs.node l ≠ some (.link t)
  search : ∀ l, s.fs.noSearch l = false
  here : s.fs.node s.cwd = some .dir
  names : ∀ c ∈ components p, Usable c
  last : (components p).getLast? ≠ some []

section Passable

variable {q : List UInt8} (hq : s.Passable q) (hlen : q.length < pathMax)
include hq

theorem Passable.enterable (hs : s.DirsAdded a) {k : Loc} (hk : a.fs.node k = some .dir) :
    a.fs.Enterable k :=
  ⟨hk, by rw [hs.fs.grows.search, hq.search]⟩

/-- An ancestor names a directory once it has been asked for. -/
theorem Passable.namesDir (hno : ¬ s.ThroughFile q) (hs : s.DirsAdded a) {r : List UInt8}
    (ht : t ≠ []) (hqt : q = t ++ slash :: r) (hparent : a.mkdirParent t = some (cur, c))
    (hc : c ∈ components t) : (a.mkdir t).2.NamesDir t := by
  have hcomps : components q = components t ++ components r := by
    rw [hqt, components_append_slash]
  have hmem : c ∈ components q := by
    rw [hcomps]
    exact List.mem_append_left _ hc
  refine ⟨_, mkdir_next hparent (hq.names c hmem) fun nd hnd => ?_⟩
  cases nd with
  | dir => rfl
  | link target => exact absurd (hs.fs.grows.link _ _ hnd) (hq.noLinks _ _)
  | file i =>
    -- the path would go on behind it
    obtain ⟨hstays, hdots⟩ := not_stays_of_valid (FS.validName_of_node hnd)
    have hlead : a.lead t = some (c :: cur) := (lead_of_mkdirParent hparent).2
      (FS.walkWith_object (lead_of_mkdirParent (l := cur) hparent).1 hstays hdots hnd (by simp))
    have hleads := hs.leadsTo hlead
    have hold : s.fs.node (c :: cur) = some (.file i) :=
      (hs.fs.new _ _ hnd).resolve_right fun hnew => absurd hnew.2 (by simp)
    have hlast := hq.last
    rw [hcomps, List.getLast?_append_of_ne_nil _ (components_ne_nil r),
      List.getLast?_eq_some_getLast (components_ne_nil r)] at hlast
    have hbehind : ∃ e ∈ components r, e ≠ [] :=
      ⟨_, List.getLast_mem (components_ne_nil r), fun hnil => hlast (congrArg some hnil)⟩
    refine absurd ⟨components t, components r, _, i, hcomps, hbehind, ?_, hold⟩ hno
    rw [hqt, startOf_append ht]
    exact hleads

include hlen

/-- The first call is about an entry of the root, or of the directory that relative paths begin
in. -/
theorem Passable.first {b : UInt8} {c₀ : List UInt8} (hc₀ : slash ∉ c₀) (hpre : b :: c₀ <+: q) :
    s.NamesDir (b :: c₀) ∨
      ∃ cur c, s.mkdirParent (b :: c₀) = some (cur, c) ∧ c ∈ components (b :: c₀) := by
  have hlen₀ : (b :: c₀).length < pathMax := hpre.length_le.trans_lt hlen
  by_cases hb : b = slash
  · subst hb
    have hcomps : components (slash :: c₀) = [[]] ++ [c₀] := by
      rw [components_cons, if_pos rfl, components_of_notMem hc₀]
      rfl
    have hroot : s.fs.Enterable [] := ⟨rfl, hq.search []⟩
    by_cases hne : c₀ = []
    · subst hne
      have hlead : s.lead [slash] = s.fs.walk symloopMax [] [[]] := rfl
      exact Or.inl ⟨[], hlead.trans (FS.walkWith_stays hroot (Or.inl rfl)), rfl⟩
    · refine Or.inr ⟨[], c₀, mkdirParent_of_components hcomps hne hlen₀ ?_ hroot, ?_⟩
      · exact FS.walkWith_stays hroot (Or.inl rfl)
      · rw [hcomps]
        exact List.mem_append_right _ List.mem_cons_self
  · have hcomps : components (b :: c₀) = [] ++ [b :: c₀] :=
      components_of_notMem (List.not_mem_cons_of_ne_of_not_mem (Ne.symm hb) hc₀)
    have hstart : startOf (b :: c₀) s.cwd = s.cwd := by simp [startOf, hb]
    refine Or.inr ⟨s.cwd, b :: c₀, mkdirParent_of_components hcomps (by simp) hlen₀ ?_
      ⟨hq.here, hq.search _⟩, ?_⟩
    · rw [hstart]
      rfl
    · rw [hcomps]
      exact List.mem_append_right _ List.mem_cons_self

/-- **The last call does not fail**, unless the path goes on behind a file. -/
theorem Passable.not_failed (hno : ¬ s.ThroughFile q) :
    ((s.supplied (ancestors q)).mkdir q).1 ≠ .failed := by
  obtain ⟨b, q', rfl⟩ : ∃ b q', q = b :: q' := by
    refine List.exists_cons_of_ne_nil ?_
    rintro rfl
    exact hq.last rfl
  by_cases hslash : slash ∈ q'
  · obtain ⟨c₀, r, rfl, hc₀⟩ := List.eq_append_cons_of_mem hslash
    have hfirst : (s.mkdir (b :: c₀)).2.NamesDir (b :: c₀) := by
      rcases hq.first hlen hc₀ ⟨slash :: r, rfl⟩ with hthere | ⟨cur, c, hparent, hc⟩
      · rw [hthere.mkdir_eq]
        exact hthere
      · exact hq.namesDir hno (DirsAdded.refl s) (by simp) rfl hparent hc
    have hancestors : ancestors (b :: (c₀ ++ slash :: r)) =
        (b :: c₀) :: ancestorsLoop (b :: c₀ ++ [slash]) r := ancestorsLoop_append hc₀ r
    rw [hancestors, supplied_cons]
    refine supplied_not_failed (I := fun a p => s.DirsAdded a ∧ a.NamesDir p) ?_ ?_ r (c := [])
      ⟨dirsAdded_mkdir s _, hfirst⟩ (by simp) List.not_mem_nil (by simp)
    · rintro a p c r' ⟨hs, j, hj, hdir⟩ hp hc heq
      have hlen' : (p ++ slash :: c).length < pathMax :=
        (show p ++ slash :: c <+: _ from ⟨_, heq.symm⟩).length_le.trans_lt hlen
      refine ⟨hs.trans (dirsAdded_mkdir a _), ?_⟩
      by_cases hne : c = []
      · subst hne
        have hthere : a.NamesDir (p ++ [slash]) := ⟨j, (lead_slash hp hlen').trans hj, hdir⟩
        rw [hthere.mkdir_eq]
        exact hthere
      · have hparent := mkdirParent_component hj (hq.enterable hs hdir) hp hlen' hc hne
        exact hq.namesDir hno hs (by simp) heq hparent (mem_components hc (Or.inl rfl))
    · rintro a p c ⟨hs, j, hj, hdir⟩ hp hc heq
      have hne : c ≠ [] := by
        rintro rfl
        refine hq.last ?_
        rw [heq, components_append_slash, List.getLast?_append_of_ne_nil _ (components_ne_nil [])]
        rfl
      have hparent := mkdirParent_component hj (hq.enterable hs hdir) hp (heq ▸ hlen) hc hne
      exact mkdir_not_failed hparent (hq.names c (mem_components hc (Or.inl heq)))
  · have hcomps : ancestors (b :: q') = [] := by
      refine List.eq_nil_iff_forall_not_mem.mpr fun t ht => ?_
      obtain ⟨htne, rest, heq⟩ := mem_ancestors.mp ht
      obtain ⟨b', t, rfl⟩ := List.exists_cons_of_ne_nil htne
      rw [(List.cons.inj heq).2] at hslash
      exact hslash (List.mem_append_right _ List.mem_cons_self)
    rw [hcomps, supplied_nil]
    rcases hq.first hlen hslash List.prefix_rfl with hthere | ⟨cur, c, hparent, hc⟩
    · rw [hthere.mkdir_eq]
      simp
    · exact mkdir_not_failed hparent (hq.names c hc)

/-- **A path that comes to a file or a link is taken once its ancestors are there**, if it can go
everywhere. -/
theorem Passable.taken (h : ¬ s.EndsFree q) : (s.supplied (ancestors q)).Taken q := by
  simp only [EndsFree, not_or, not_forall] at h
  obtain ⟨hno, k, c, nd, ⟨ds, m, hcomps, hleads⟩, hnd, hne⟩ := h
  have hadded := dirsAdded_supplied (ancestors q) s
  have hok := hq.not_failed hlen hno
  generalize s.supplied (ancestors q) = b at hadded hok ⊢
  obtain ⟨⟨cur, c'⟩, hparent⟩ : ∃ place, b.mkdirParent q = some place := by
    cases hparent : b.mkdirParent q with
    | none => exact absurd (by rw [Sys.mkdir, hparent]) hok
    | some place => exact ⟨place, rfl⟩
  obtain ⟨ds', m', hcomps', hwalk⟩ := walk_of_mkdirParent hparent
  have hnoslash : ∀ {ds c m}, components q = ds ++ c :: List.replicate m [] → m = 0 := by
    intro ds c m hcomps
    by_contra hm
    obtain ⟨m, rfl⟩ := Nat.exists_eq_succ_of_ne_zero hm
    refine hq.last ?_
    rw [hcomps, List.replicate_succ', ← List.cons_append, ← List.append_assoc,
      List.getLast?_concat]
  obtain rfl := hnoslash hcomps
  obtain rfl := hnoslash hcomps'
  obtain ⟨rfl, hc⟩ := List.append_inj' (hcomps.symm.trans hcomps') rfl
  obtain rfl : c = c' := (List.cons.inj hc).1
  have hcur : cur = k := by
    have hcur := (FS.leads_iff_of_grows hadded.fs.grows).mp (FS.leads_of_walk _ hwalk)
    rw [hadded.cwd] at hcur
    exact hcur.unique hleads
  subst hcur
  refine ⟨⟨cur, c, nd, hparent, hadded.fs.grows.keep _ _ hnd⟩, ?_⟩
  rintro ⟨l, hlead, hdir⟩
  have hlink : ∀ t, s.fs.node (c :: cur) ≠ some (.link t) := hq.noLinks _
  obtain ⟨hs, hd⟩ := not_stays_of_valid (FS.validName_of_node hnd)
  have hplace : s.LeadsTo q (c :: cur) := by
    unfold LeadsTo
    rw [hcomps]
    exact hleads.append (.name hs hd hlink (.here _))
  obtain rfl := (hadded.leadsTo hlead).unique hplace
  exact hne (Option.some.inj ((hadded.fs.grows.keep _ _ hnd).symm.trans hdir))

end Passable

end Sys

end Posix
end IsrTransfer
