import IsrTransfer.Posix.Directories
import IsrTransfer.Posix.RealPath

/-!
# Where a path would lead

A walk stops where something is missing.  Programs make what is missing and go on, so what matters
to them is where a path leads if the directories on its way are there (`Leads`).  That is a matter
of the symbolic links alone: what else stands in the file system, what may be searched and how
many links a walk may follow only decides whether one gets there.

`Leads` is a relation and not a function, since a path may go round in circles through its links.
It leads to one place at most (`Leads.unique`), and it can be cut at any component
(`leads_append`); the lemmas about the first component read it as equations.

## Results

* `leads_iff_of_grows`: where a path leads does not change while a file system grows, since no
  links are made.  So a statement about the destination of a path may be made in the state
  before a program runs, and used in any state of its run.
* `leads_of_walk`: a walk that succeeds has come to the place.
* `Sys.leadsTo_of_made`: a directory that `mkdir` makes is at the place.
* `Continues.leadsTo`: a path that continues a real path leads on from there by its names, where
  there are no links.
-/

namespace IsrTransfer
namespace Posix

namespace FS

variable {fs fs' : FS} {cur k l : Loc} {c : Name} {cs ds : List Name}

/-- The components `cs` lead from `cur` to `l`, if whatever is missing on the way is a
directory. -/
inductive Leads (fs : FS) : (cur : Loc) → (cs : List Name) → (l : Loc) → Prop where
  | here (cur : Loc) : Leads fs cur [] cur
  | stays {cur l : Loc} {c : Name} {cs : List Name} :
      Stays c → Leads fs cur cs l → Leads fs cur (c :: cs) l
  | up {cur l : Loc} {cs : List Name} :
      Leads fs cur.tail cs l → Leads fs cur (dotdot :: cs) l
  | link {cur l : Loc} {c : Name} {cs : List Name} {t : List UInt8} :
      ¬ Stays c → c ≠ dotdot → fs.node (c :: cur) = some (.link t) →
      Leads fs (startOf t cur) (components t ++ cs) l → Leads fs cur (c :: cs) l
  | name {cur l : Loc} {c : Name} {cs : List Name} :
      ¬ Stays c → c ≠ dotdot → (∀ t, fs.node (c :: cur) ≠ some (.link t)) →
      Leads fs (c :: cur) cs l → Leads fs cur (c :: cs) l

/-! ## The first component -/

theorem leads_nil : fs.Leads cur [] l ↔ cur = l := by
  constructor
  · intro h
    cases h
    rfl
  · rintro rfl
    exact .here _

theorem leads_stays (hc : Stays c) : fs.Leads cur (c :: cs) l ↔ fs.Leads cur cs l := by
  constructor
  · intro h
    cases h with
    | stays _ h => exact h
    | up h => exact absurd hc (by decide)
    | link hs => exact absurd hc hs
    | name hs => exact absurd hc hs
  · exact .stays hc

theorem leads_up : fs.Leads cur (dotdot :: cs) l ↔ fs.Leads cur.tail cs l := by
  constructor
  · intro h
    cases h with
    | stays hs _ => exact absurd hs (by decide)
    | up h => exact h
    | link _ hd => exact absurd rfl hd
    | name _ hd => exact absurd rfl hd
  · exact .up

theorem leads_link {t : List UInt8} (hs : ¬ Stays c) (hd : c ≠ dotdot)
    (hn : fs.node (c :: cur) = some (.link t)) :
    fs.Leads cur (c :: cs) l ↔ fs.Leads (startOf t cur) (components t ++ cs) l := by
  constructor
  · intro h
    cases h with
    | stays hs' _ => exact absurd hs' hs
    | up _ => exact absurd rfl hd
    | @link _ _ _ _ t' _ _ hn' h =>
      obtain rfl : t = t' := Node.link.inj (Option.some.inj (hn.symm.trans hn'))
      exact h
    | name _ _ hno _ => exact absurd hn (hno t)
  · exact .link hs hd hn

theorem leads_name (hs : ¬ Stays c) (hd : c ≠ dotdot)
    (hn : ∀ t, fs.node (c :: cur) ≠ some (.link t)) :
    fs.Leads cur (c :: cs) l ↔ fs.Leads (c :: cur) cs l := by
  constructor
  · intro h
    cases h with
    | stays hs' _ => exact absurd hs' hs
    | up _ => exact absurd rfl hd
    | link _ _ hn' _ => exact absurd hn' (hn _)
    | name _ _ _ h => exact h
  · exact .name hs hd hn

/-- There is at most one such place. -/
theorem Leads.unique (h : fs.Leads cur cs k) : fs.Leads cur cs l → k = l := by
  induction h with
  | here => exact leads_nil.mp
  | stays hs _ ih => exact fun h => ih ((leads_stays hs).mp h)
  | up _ ih => exact fun h => ih (leads_up.mp h)
  | link hs hd hn _ ih => exact fun h => ih ((leads_link hs hd hn).mp h)
  | name hs hd hn _ ih => exact fun h => ih ((leads_name hs hd hn).mp h)

/-! ## Paths in parts -/

theorem Leads.append (h : fs.Leads cur cs k) (hk : fs.Leads k ds l) :
    fs.Leads cur (cs ++ ds) l := by
  induction h with
  | here => exact hk
  | stays hs _ ih => exact .stays hs (ih hk)
  | up _ ih => exact .up (ih hk)
  | link hs hd hn _ ih =>
    rw [List.cons_append]
    refine .link hs hd hn ?_
    rw [← List.append_assoc]
    exact ih hk
  | name hs hd hn _ ih => exact .name hs hd hn (ih hk)

/-- Once the first part leads somewhere, the rest leads on from there. -/
theorem leads_append (h : fs.Leads cur cs k) : fs.Leads cur (cs ++ ds) l ↔ fs.Leads k ds l := by
  refine ⟨fun hl => ?_, h.append⟩
  induction h with
  | here => exact hl
  | stays hs _ ih => exact ih ((leads_stays hs).mp hl)
  | up _ ih => exact ih (leads_up.mp hl)
  | link hs hd hn _ ih =>
    rw [List.cons_append, leads_link hs hd hn, ← List.append_assoc] at hl
    exact ih hl
  | name hs hd hn _ ih => exact ih ((leads_name hs hd hn).mp hl)

/-- Components that name no entry lead nowhere else. -/
theorem descend_replicate (cur : Loc) (m : Nat) : descend cur (List.replicate m []) = cur := by
  induction m with
  | zero => rfl
  | succ m ih => rw [List.replicate_succ, descend_stays (Or.inl rfl), ih]

/-- Without links on the way, names are all there is to it. -/
theorem leads_descend (hcs : dotdot ∉ cs) (hlinks : fs.NoLinksBelow cur) :
    fs.Leads cur cs (descend cur cs) := by
  induction cs generalizing cur with
  | nil => exact .here _
  | cons c cs ih =>
    rw [List.mem_cons, not_or] at hcs
    by_cases hs : Stays c
    · rw [descend_stays hs]
      exact .stays hs (ih hcs.2 hlinks)
    · rw [descend_name hs]
      exact .name hs (Ne.symm hcs.1) (fun t => hlinks _ t (List.suffix_cons _ _))
        (ih hcs.2 (hlinks.mono (List.suffix_cons _ _)))

/-- Neither the place nor what is above it is a link, if that is so at the start. -/
theorem Leads.noLink (h : fs.Leads cur cs l) :
    (∀ a, a <:+ cur → ∀ t, fs.node a ≠ some (.link t)) →
    ∀ a, a <:+ l → ∀ t, fs.node a ≠ some (.link t) := by
  induction h with
  | here => exact id
  | stays _ _ ih => exact ih
  | @up cur _ _ _ ih => exact fun hcur => ih fun a ha => hcur a (ha.trans (List.tail_suffix cur))
  | @link cur _ _ _ t _ _ _ _ ih =>
    refine fun hcur => ih fun a ha => ?_
    unfold startOf at ha
    split at ha
    · obtain rfl := List.suffix_nil.mp ha
      exact hcur _ List.nil_suffix
    · exact hcur a ha
  | name _ _ hn _ ih =>
    refine fun hcur => ih fun a ha => ?_
    rcases List.suffix_cons_iff.mp ha with rfl | ha
    · exact hn
    · exact hcur a ha

theorem noLinksBelow_of_missing (h : fs.node cur = none) : fs.NoLinksBelow cur :=
  fun l t hl hn => absurd (hn.symm.trans (node_below_missing h hl)) (by simp)

/-- The names of a directory lead to it. -/
theorem leads_real (h : fs.node l = some .dir) : fs.Leads [] l.reverse l := by
  induction l with
  | nil => exact .here _
  | cons n l ih =>
    obtain ⟨hs, hd⟩ := not_stays_of_valid (validName_of_node h)
    rw [List.reverse_cons]
    refine (ih (node_parent h)).append (.name hs hd (fun t ht => ?_) (.here _))
    exact absurd (h.symm.trans ht) (by simp)

/-- The names of an object that is no link lead to it. -/
theorem leads_object {nd : Node} (h : fs.node l = some nd) (hno : ∀ t, nd ≠ .link t) :
    fs.Leads [] l.reverse l := by
  cases l with
  | nil => exact .here _
  | cons n l =>
    obtain ⟨hs, hd⟩ := not_stays_of_valid (validName_of_node h)
    rw [List.reverse_cons]
    refine (leads_real (node_parent h)).append (.name hs hd (fun t ht => ?_) (.here _))
    exact hno t (Option.some.inj (h.symm.trans ht))

/-! ## Walks -/

/-- **A walk that succeeds has come to the place.**  The converse fails, since on the way of
`Leads` anything may be missing. -/
theorem leads_of_walkWith {follow : Loc → List Name → Option Loc}
    (hf : ∀ cur cs l, follow cur cs = some l → fs.Leads cur cs l) (cs : List Name) :
    ∀ {cur l : Loc}, fs.walkWith follow cur cs = some l → fs.Leads cur cs l := by
  induction cs with
  | nil => exact fun h => leads_nil.mpr (Option.some.inj h)
  | cons c cs ih =>
    intro cur l h
    obtain ⟨-, ⟨hs, h'⟩ | ⟨rfl, h'⟩ | ⟨hs, hd, ⟨hn, rfl, -, rfl⟩ | ⟨t, hn, h'⟩ |
      ⟨nd, hn, hl, h'⟩⟩⟩ := walkWith_cons_cases h
    · exact .stays hs (ih h')
    · exact .up (ih h')
    · exact .name hs hd (fun t ht => absurd (hn.symm.trans ht) (by simp)) (.here _)
    · exact .link hs hd hn (hf _ _ _ h')
    · exact .name hs hd (fun t ht => hl t (Option.some.inj (hn.symm.trans ht))) (ih h')

theorem leads_of_walk (b : Nat) : ∀ {cur l : Loc} {cs : List Name},
    fs.walk b cur cs = some l → fs.Leads cur cs l := by
  induction b with
  | zero => exact fun h => leads_of_walkWith (fun _ _ _ h => absurd h (by simp)) _ h
  | succ b ih => exact fun h => leads_of_walkWith (fun _ _ _ h => ih h) _ h

/-! ## Growth

From here on the state is that of a whole system: paths begin in the working directory, or at
`/`, and slashes at the end are treated as `mkdir` treats them. -/

/-- **Growth does not change where a path leads.**  What is added is no link, and what was
missing had been taken for a directory anyway. -/
theorem leads_iff_of_grows (hg : fs.Grows fs') : fs'.Leads cur cs l ↔ fs.Leads cur cs l := by
  constructor
  · intro h
    induction h with
    | here => exact .here _
    | stays hs _ ih => exact .stays hs ih
    | up _ ih => exact .up ih
    | link hs hd hn _ ih => exact .link hs hd (hg.link _ _ hn) ih
    | name hs hd hn _ ih => exact .name hs hd (fun t ht => hn t (hg.keep _ _ ht)) ih
  · intro h
    induction h with
    | here => exact .here _
    | stays hs _ ih => exact .stays hs ih
    | up _ ih => exact .up ih
    | link hs hd hn _ ih => exact .link hs hd (hg.keep _ _ hn) ih
    | name hs hd hn _ ih => exact .name hs hd (fun t ht => hn t (hg.link _ _ ht)) ih

end FS

namespace Sys

variable {s s' : Sys} {path : List UInt8} {k l : Loc}

/-- Where a path leads if the directories on its way are there. -/
def LeadsTo (s : Sys) (path : List UInt8) (l : Loc) : Prop :=
  s.fs.Leads (startOf path s.cwd) (components path) l

theorem LeadsTo.unique (h : s.LeadsTo path k) (h' : s.LeadsTo path l) : k = l :=
  FS.Leads.unique h h'

theorem leadsTo_iff_of_grows (hg : s.fs.Grows s'.fs) (hcwd : s'.cwd = s.cwd) :
    s'.LeadsTo path l ↔ s.LeadsTo path l := by
  unfold LeadsTo
  rw [hcwd]
  exact FS.leads_iff_of_grows hg

theorem leadsTo_of_resolve (h : s.resolve path = some l) : s.LeadsTo path l := by
  unfold resolve FS.resolve at h
  split at h
  · exact absurd h (by simp)
  · exact FS.leads_of_walk _ h

/-- What stands after a slash leads on from what stands before. -/
theorem leadsTo_append {p rest : List UInt8} (hp : p ≠ []) (h : s.LeadsTo p k) :
    s.LeadsTo (p ++ slash :: rest) l ↔ s.fs.Leads k (components rest) l := by
  obtain ⟨b, p, rfl⟩ := List.exists_cons_of_ne_nil hp
  unfold LeadsTo
  rw [components_append_slash]
  exact FS.leads_append h

/-- Slashes at the end ask for nothing more. -/
theorem leadsTo_of_lead (h : s.lead path = some l) : s.LeadsTo path l := by
  unfold lead at h
  split at h
  · exact absurd h (by simp)
  · rename_i hpath
    have hwalk := FS.leads_of_walk _ h
    obtain ⟨n, hn⟩ : ∃ n, path.rtakeWhile (· = slash) = List.replicate n slash :=
      ⟨_, List.eq_replicate_of_mem fun b hb => by
        simpa using List.mem_rtakeWhile_imp hb⟩
    have htail : ∀ (n : Nat) (q : List UInt8),
        s.fs.Leads (startOf path s.cwd) (components q) l →
        s.fs.Leads (startOf path s.cwd) (components (q ++ List.replicate n slash)) l := by
      intro n
      induction n with
      | zero => exact fun q hq => by rwa [List.replicate_zero, List.append_nil]
      | succ n ih =>
        intro q hq
        have h1 := ih (q ++ [slash]) (by
          rw [components_append_slash]
          exact hq.append (.stays (Or.inl rfl) (.here _)))
        rwa [List.append_assoc, List.singleton_append, ← List.replicate_succ] at h1
    unfold LeadsTo
    have hall := htail n _ hwalk
    rwa [← hn, List.rdropWhile_append_rtakeWhile] at hall

theorem ne_nil_of_lead (h : s.lead path = some l) : path ≠ [] := by
  rintro rfl
  exact absurd h (by simp [lead])

/-- Where a path leads once directories have been added. -/
theorem DirsAdded.leadsTo (h : s.DirsAdded s') (hl : s'.lead path = some l) : s.LeadsTo path l :=
  (leadsTo_iff_of_grows h.fs.grows h.cwd).mp (leadsTo_of_lead hl)

/-- Slashes at the end are empty components. -/
theorem components_append_slashes (m : Nat) (p : List UInt8) :
    components (p ++ List.replicate m slash) = components p ++ List.replicate m [] := by
  induction m generalizing p with
  | zero => rw [List.replicate_zero, List.replicate_zero, List.append_nil, List.append_nil]
  | succ m ih =>
    rw [List.replicate_succ, ← List.singleton_append, ← List.append_assoc, ih,
      components_append_slash, List.replicate_succ, List.append_assoc]
    rfl

/-- Where `mkdir` would make a directory, in terms of the components of its path. -/
theorem walk_of_mkdirParent {cur : Loc} {c : Name} (h : s.mkdirParent path = some (cur, c)) :
    ∃ ds m, components path = ds ++ c :: List.replicate m [] ∧
      s.fs.walk symloopMax (startOf path s.cwd) ds = some cur := by
  unfold mkdirParent at h
  simp only at h
  split at h
  · exact absurd h (by simp)
  · split at h
    · exact absurd h (by simp)
    · rename_i k hk
      split at h
      swap
      · exact absurd h (by simp)
      obtain ⟨rfl, rfl⟩ := Prod.mk.inj (Option.some.inj h)
      obtain ⟨m, hm⟩ : ∃ m, path.rtakeWhile (· = slash) = List.replicate m slash :=
        ⟨_, List.eq_replicate_of_mem fun b hb => by simpa using List.mem_rtakeWhile_imp hb⟩
      refine ⟨_, m, ?_, hk⟩
      rw [← List.singleton_append, ← List.append_assoc, List.dropLast_append_getLast,
        ← components_append_slashes, ← hm, List.rdropWhile_append_rtakeWhile]

theorem components_of_mkdirParent {cur : Loc} {c : Name} (h : s.mkdirParent path = some (cur, c)) :
    ∃ ds m, components path = ds ++ c :: List.replicate m [] ∧
      s.fs.Leads (startOf path s.cwd) ds cur := by
  obtain ⟨ds, m, hcomps, hwalk⟩ := walk_of_mkdirParent h
  exact ⟨ds, m, hcomps, FS.leads_of_walk _ hwalk⟩

/-- **A directory that is made is where the path leads**, also as seen before. -/
theorem leadsTo_of_made (h : s.mkdir path = (.made, s')) (hdirs : s.DirsAdded s') :
    ∃ l, s.LeadsTo path l ∧ s.fs.node l = none ∧
      ∀ k, s'.fs.node k = if k = l then some .dir else s.fs.node k := by
  obtain ⟨l, hlead, hnone, hnode⟩ := mkdir_made h
  exact ⟨l, hdirs.leadsTo hlead, hnone, hnode⟩

end Sys

section Continues

variable {s : Sys} {p : List UInt8} {l : Loc} {cs : List Name}

theorem Continues.startOf_eq (h : Continues p l cs) (cwd : Loc) : startOf p cwd = [] := by
  obtain ⟨hcomps, hne⟩ := h
  obtain ⟨c, ds, hcons⟩ := List.exists_cons_of_ne_nil hne
  exact startOf_of_components cwd (hcons ▸ hcomps)

/-- A path that continues a real path leads on from there. -/
theorem Continues.leadsTo (h : Continues p l cs) (hdd : dotdot ∉ cs)
    (hl : s.fs.node l = some .dir) (hlinks : s.fs.NoLinksBelow l) :
    s.LeadsTo p (FS.descend l cs) := by
  unfold Sys.LeadsTo
  rw [h.startOf_eq, h.1, FS.leads_stays (Or.inl rfl)]
  exact (FS.leads_real hl).append (FS.leads_descend hdd hlinks)

end Continues

end Posix
end IsrTransfer
