import IsrTransfer.Posix.FileSystem

/-!
# Path resolution

A path is split at every `/`; an empty component stands for a repeated or a trailing slash and,
like `.`, stays where it is --- but only in a directory that may be searched.  `walkWith` goes
through the components, and hands a symbolic link it meets to `follow`, with the link's target put
in front of what is left; `walk` ties the knot, with a budget for the links.  The last component
may be missing: the walk then ends at the place where the object would be.

The recursion is in two layers because a link makes the list of components longer.  `walkWith` is
structural in that list and does not know what `follow` does; `walk` is structural in the budget.
A fact about walks is therefore proved twice, for `walkWith` under the assumption that `follow`
has it, and for `walk` by induction on the budget.

## Results

* `walk_grows`: a walk that succeeds gives the same place in every file system that has grown
  from the first.
* `walk_back`: a walk that ends at an object which stood before already, and meets no link,
  succeeds before as well.
* `walk_append_plain`, `walk_of_append`: a walk can be cut between two components.
* `walk_plain`: where there are no links a walk only reads names, and ends at `descend`.
-/

namespace IsrTransfer
namespace Posix

/-- The components of a path. -/
def components (path : List UInt8) : List Name := path.splitOn slash

theorem components_ne_nil (path : List UInt8) : components path ≠ [] :=
  List.splitOn_ne_nil _ _

/-- A slash separates components. -/
theorem components_append_slash (p q : List UInt8) :
    components (p ++ slash :: q) = components p ++ components q :=
  List.splitOn_append_cons_self p q

theorem components_of_notMem {p : List UInt8} (h : slash ∉ p) : components p = [p] :=
  List.splitOn_eq_singleton h

theorem components_cons (b : UInt8) (p : List UInt8) :
    components (b :: p) =
      if b = slash then [] :: components p else (components p).modifyHead (List.cons b) := by
  unfold components
  rw [List.splitOn_cons_eq_if_modifyHead]
  simp only [beq_iff_eq]

/-- Where the resolution of a path starts. -/
def startOf (path : List UInt8) (cwd : Loc) : Loc :=
  if path.head? = some slash then [] else cwd

namespace FS

/-- A directory that may be searched. -/
def Enterable (fs : FS) (l : Loc) : Prop := fs.node l = some .dir ∧ fs.noSearch l = false

instance (fs : FS) (l : Loc) : Decidable (fs.Enterable l) :=
  inferInstanceAs (Decidable (fs.node l = some .dir ∧ fs.noSearch l = false))

/-- A component that names no entry. -/
def Stays (c : Name) : Prop := c = [] ∨ c = dot

instance : DecidablePred Stays := fun c => inferInstanceAs (Decidable (c = [] ∨ c = dot))

/-- Go through the components from `cur`; `follow` continues behind a link. -/
def walkWith (fs : FS) (follow : Loc → List Name → Option Loc) :
    Loc → List Name → Option Loc
  | cur, [] => some cur
  | cur, c :: cs =>
    if fs.Enterable cur then
      if Stays c then fs.walkWith follow cur cs
      else if c = dotdot then fs.walkWith follow cur.tail cs
      else
        match fs.node (c :: cur) with
        | none => if cs = [] ∧ c.length ≤ nameMax then some (c :: cur) else none
        | some (.link t) => follow (startOf t cur) (components t ++ cs)
        | some _ => fs.walkWith follow (c :: cur) cs
    else none

/-- Resolve components, following at most `budget` links. -/
def walk (fs : FS) : (budget : Nat) → Loc → List Name → Option Loc
  | 0 => fs.walkWith fun _ _ => none
  | b + 1 => fs.walkWith (fs.walk b)

/-- Where a path leads, links followed; the last component may be missing. -/
def resolve (fs : FS) (cwd : Loc) (path : List UInt8) : Option Loc :=
  if path = [] ∨ pathMax ≤ path.length then none
  else fs.walk symloopMax (startOf path cwd) (components path)

section Cases

variable {fs : FS} {follow : Loc → List Name → Option Loc} {cur l : Loc} {c : Name}
variable {cs : List Name}

@[simp] theorem walkWith_nil : fs.walkWith follow cur [] = some cur := rfl

@[simp] theorem walk_nil (b : Nat) : fs.walk b cur [] = some cur := by
  cases b <;> rfl

/-- The ways in which a walk can take its first step. -/
theorem walkWith_cons_cases (h : fs.walkWith follow cur (c :: cs) = some l) :
    fs.Enterable cur ∧
      ((Stays c ∧ fs.walkWith follow cur cs = some l) ∨
        (c = dotdot ∧ fs.walkWith follow cur.tail cs = some l) ∨
        (¬ Stays c ∧ c ≠ dotdot ∧
          ((fs.node (c :: cur) = none ∧ cs = [] ∧ c.length ≤ nameMax ∧ l = c :: cur) ∨
            (∃ t, fs.node (c :: cur) = some (.link t) ∧
              follow (startOf t cur) (components t ++ cs) = some l) ∨
            (∃ nd, fs.node (c :: cur) = some nd ∧ (∀ t, nd ≠ .link t) ∧
              fs.walkWith follow (c :: cur) cs = some l)))) := by
  rw [walkWith] at h
  split at h
  case isFalse => exact absurd h (by simp)
  case isTrue henter =>
    refine ⟨henter, ?_⟩
    split at h
    · exact Or.inl ⟨‹_›, h⟩
    · split at h
      · exact Or.inr (Or.inl ⟨‹_›, h⟩)
      · refine Or.inr (Or.inr ⟨‹_›, ‹_›, ?_⟩)
        split at h
        · split at h
          · rename_i hnode hlast
            exact Or.inl ⟨hnode, hlast.1, hlast.2, (Option.some.inj h).symm⟩
          · exact absurd h (by simp)
        · exact Or.inr (Or.inl ⟨_, ‹_›, h⟩)
        · rename_i nd hlink hnode
          exact Or.inr (Or.inr ⟨nd, hnode, fun t ht => hlink t ht, h⟩)

theorem walkWith_stays (he : fs.Enterable cur) (hc : Stays c) :
    fs.walkWith follow cur (c :: cs) = fs.walkWith follow cur cs := by
  rw [walkWith, if_pos he, if_pos hc]

theorem walkWith_dotdot (he : fs.Enterable cur) :
    fs.walkWith follow cur (dotdot :: cs) = fs.walkWith follow cur.tail cs := by
  rw [walkWith, if_pos he, if_neg (by decide), if_pos rfl]

theorem walkWith_link {t : List UInt8} (he : fs.Enterable cur) (hs : ¬ Stays c)
    (hd : c ≠ dotdot) (hn : fs.node (c :: cur) = some (.link t)) :
    fs.walkWith follow cur (c :: cs) = follow (startOf t cur) (components t ++ cs) := by
  rw [walkWith, if_pos he, if_neg hs, if_neg hd, hn]

theorem walkWith_missing (he : fs.Enterable cur) (hs : ¬ Stays c) (hd : c ≠ dotdot)
    (hn : fs.node (c :: cur) = none) (hc : c.length ≤ nameMax) :
    fs.walkWith follow cur [c] = some (c :: cur) := by
  rw [walkWith, if_pos he, if_neg hs, if_neg hd, hn]
  exact if_pos ⟨rfl, hc⟩

theorem walkWith_object {nd : Node} (he : fs.Enterable cur) (hs : ¬ Stays c)
    (hd : c ≠ dotdot) (hn : fs.node (c :: cur) = some nd) (hl : ∀ t, nd ≠ .link t) :
    fs.walkWith follow cur (c :: cs) = fs.walkWith follow (c :: cur) cs := by
  rw [walkWith, if_pos he, if_neg hs, if_neg hd, hn]
  cases nd with
  | link t => exact absurd rfl (hl t)
  | dir => rfl
  | file i => rfl

end Cases

/-! ## Walks and growth

A walk asks what stands under a name and whether a directory may be searched.  Growth changes
neither for what was there, so a walk that has succeeded still succeeds. -/

theorem Enterable.grows {fs fs' : FS} {l : Loc} (h : fs.Enterable l) (hg : fs.Grows fs') :
    fs'.Enterable l :=
  ⟨hg.keep l _ h.1, by rw [hg.search, h.2]⟩

theorem walkWith_grows {fs fs' : FS} (hg : fs.Grows fs')
    {follow follow' : Loc → List Name → Option Loc}
    (hf : ∀ cur cs l, follow cur cs = some l → follow' cur cs = some l)
    (cs : List Name) : ∀ {cur l : Loc}, fs.walkWith follow cur cs = some l →
      fs'.walkWith follow' cur cs = some l := by
  induction cs with
  | nil => exact fun h => h
  | cons c cs ih =>
    intro cur l h
    obtain ⟨he, ⟨hs, h'⟩ | ⟨rfl, h'⟩ | ⟨hs, hd, ⟨hn, rfl, hc, rfl⟩ | ⟨t, hn, h'⟩ |
      ⟨nd, hn, hl, h'⟩⟩⟩ := walkWith_cons_cases h
    · rw [walkWith_stays (he.grows hg) hs]
      exact ih h'
    · rw [walkWith_dotdot (he.grows hg)]
      exact ih h'
    · -- the place may have been taken since, but not by a link
      cases hn' : fs'.node (c :: cur) with
      | none => exact walkWith_missing (he.grows hg) hs hd hn' hc
      | some nd =>
        rw [walkWith_object (he.grows hg) hs hd hn' ?_, walkWith_nil]
        rintro t rfl
        exact absurd ((hg.link _ _ hn').symm.trans hn) (by simp)
    · rw [walkWith_link (he.grows hg) hs hd (hg.keep _ _ hn)]
      exact hf _ _ _ h'
    · rw [walkWith_object (he.grows hg) hs hd (hg.keep _ _ hn) hl]
      exact ih h'

/-- **A walk that succeeds leads to the same place after growth**, by induction on the budget
for links. -/
theorem walk_grows {fs fs' : FS} (hg : fs.Grows fs') (b : Nat) :
    ∀ {cur : Loc} {cs : List Name} {l : Loc}, fs.walk b cur cs = some l →
      fs'.walk b cur cs = some l := by
  induction b with
  | zero => exact fun h => walkWith_grows hg (fun _ _ _ h => h) _ h
  | succ b ih => exact fun h => walkWith_grows hg (fun _ _ _ h => ih h) _ h

theorem resolve_grows {fs fs' : FS} (hg : fs.Grows fs') {cwd l : Loc} {path : List UInt8}
    (h : fs.resolve cwd path = some l) : fs'.resolve cwd path = some l := by
  rw [resolve] at h ⊢
  split at h
  · exact absurd h (by simp)
  · rw [if_neg ‹_›]
    exact walk_grows hg _ h

/-- A walk that leads to a directory goes on from there, if it meets no more links. -/
theorem walkWith_append_plain {fs : FS} {follow : Loc → List Name → Option Loc} {es : List Name}
    {k l : Loc} (hk : fs.node k = some .dir) (hes : fs.walk 0 k es = some l)
    (hf : ∀ cur cs, follow cur cs = some k → follow cur (cs ++ es) = some l) (ds : List Name) :
    ∀ {cur : Loc}, fs.walkWith follow cur ds = some k →
      fs.walkWith follow cur (ds ++ es) = some l := by
  induction ds with
  | nil =>
    intro cur h
    obtain rfl : cur = k := Option.some.inj h
    exact walkWith_grows (Grows.refl fs) (fun _ _ _ h => absurd h (by simp)) es hes
  | cons c ds ih =>
    intro cur h
    obtain ⟨he, ⟨hs, h'⟩ | ⟨rfl, h'⟩ | ⟨hs, hd, ⟨hn, -, -, rfl⟩ | ⟨t, hn, h'⟩ |
      ⟨nd, hn, hl, h'⟩⟩⟩ := walkWith_cons_cases h
    · rw [List.cons_append, walkWith_stays he hs]
      exact ih h'
    · rw [List.cons_append, walkWith_dotdot he]
      exact ih h'
    · exact absurd (hn.symm.trans hk) (by simp)
    · rw [List.cons_append, walkWith_link he hs hd hn, ← List.append_assoc]
      exact hf _ _ h'
    · rw [List.cons_append, walkWith_object he hs hd hn hl]
      exact ih h'

theorem walk_append_plain {fs : FS} {es : List Name} {k l : Loc} (hk : fs.node k = some .dir)
    (hes : fs.walk 0 k es = some l) (b : Nat) : ∀ {cur : Loc} {ds : List Name},
      fs.walk b cur ds = some k → fs.walk b cur (ds ++ es) = some l := by
  induction b with
  | zero =>
    exact fun h => walkWith_append_plain hk hes (fun _ _ h => absurd h (by simp)) _ h
  | succ b ih => exact fun h => walkWith_append_plain hk hes (fun _ _ h => ih h) _ h

/-- A walk goes through the first components to where these lead, and on from there. -/
theorem walkWith_of_append {fs : FS} {follow : Loc → List Name → Option Loc} {es : List Name}
    {m : Loc} {b : Nat} (hb : ∀ k, fs.walkWith follow k es = fs.walk b k es)
    (hf : ∀ cur cs, follow cur (cs ++ es) = some m →
      ∃ k b', follow cur cs = some k ∧ fs.walk b' k es = some m) (ds : List Name) :
    ∀ {cur : Loc}, fs.walkWith follow cur (ds ++ es) = some m →
      ∃ k b', fs.walkWith follow cur ds = some k ∧ fs.walk b' k es = some m := by
  induction ds with
  | nil => exact fun {cur} h => ⟨cur, b, rfl, (hb cur).symm.trans h⟩
  | cons c ds ih =>
    intro cur h
    rw [List.cons_append] at h
    obtain ⟨he, ⟨hs, h'⟩ | ⟨rfl, h'⟩ | ⟨hs, hd, ⟨hn, hnil, hc, rfl⟩ | ⟨t, hn, h'⟩ |
      ⟨nd, hn, hl, h'⟩⟩⟩ := walkWith_cons_cases h
    · rw [walkWith_stays he hs]
      exact ih h'
    · rw [walkWith_dotdot he]
      exact ih h'
    · obtain ⟨rfl, rfl⟩ := List.append_eq_nil_iff.mp hnil
      exact ⟨c :: cur, b, walkWith_missing he hs hd hn hc, walk_nil b⟩
    · rw [walkWith_link he hs hd hn]
      rw [← List.append_assoc] at h'
      exact hf _ _ h'
    · rw [walkWith_object he hs hd hn hl]
      exact ih h'

theorem walk_of_append {fs : FS} {es : List Name} {m : Loc} (b : Nat) :
    ∀ {cur : Loc} {ds : List Name}, fs.walk b cur (ds ++ es) = some m →
      ∃ k b', fs.walk b cur ds = some k ∧ fs.walk b' k es = some m := by
  induction b with
  | zero =>
    exact fun h => walkWith_of_append (b := 0) (fun _ => rfl) (fun _ _ h => absurd h (by simp)) _ h
  | succ b ih =>
    exact fun h => walkWith_of_append (b := b + 1) (fun _ => rfl) (fun _ _ h => ih h) _ h

theorem enterable_of_walk {fs : FS} {b : Nat} {cur l : Loc} {c : Name} {cs : List Name}
    (h : fs.walk b cur (c :: cs) = some l) : fs.Enterable cur := by
  cases b <;> exact (walkWith_cons_cases h).1

/-- Where an entry is missing a walk has come to its end. -/
theorem walk_cons_missing {fs : FS} {b : Nat} {cur l : Loc} {c : Name} {cs : List Name}
    (hs : ¬ Stays c) (hd : c ≠ dotdot) (hn : fs.node (c :: cur) = none)
    (h : fs.walk b cur (c :: cs) = some l) : l = c :: cur := by
  have hstep : ∀ {follow}, fs.walkWith follow cur (c :: cs) = some l → l = c :: cur := by
    intro follow h
    obtain ⟨-, ⟨hs', -⟩ | ⟨hd', -⟩ | ⟨-, -, ⟨-, -, -, hl⟩ | ⟨t, hn', -⟩ | ⟨nd, hn', -⟩⟩⟩ :=
      walkWith_cons_cases h
    · exact absurd hs' hs
    · exact absurd hd' hd
    · exact hl
    · exact absurd (hn.symm.trans hn') (by simp)
    · exact absurd (hn.symm.trans hn') (by simp)
  cases b <;> exact hstep h

/-! ## Walks that meet no link

Without links the budget does not matter and a walk is a matter of names: where it leads is
`descend`, and what can fail is only that something is missing on the way. -/

/-- The components that name an entry. -/
def entryNames (cs : List Name) : List Name := cs.filter fun c => ¬ Stays c

/-- The place that components without `..` denote, read as names only. -/
def descend (cur : Loc) (cs : List Name) : Loc := (entryNames cs).reverse ++ cur

@[simp] theorem descend_nil (cur : Loc) : descend cur [] = cur := rfl

theorem descend_stays {c : Name} (h : Stays c) (cur : Loc) (cs : List Name) :
    descend cur (c :: cs) = descend cur cs := by
  simp [descend, entryNames, h]

theorem descend_name {c : Name} (h : ¬ Stays c) (cur : Loc) (cs : List Name) :
    descend cur (c :: cs) = descend (c :: cur) cs := by
  simp [descend, entryNames, h]

theorem descend_append (cur : Loc) (cs ds : List Name) :
    descend cur (cs ++ ds) = descend (descend cur cs) ds := by
  simp [descend, entryNames]

theorem suffix_descend (cur : Loc) (cs : List Name) : cur <:+ descend cur cs :=
  List.suffix_append _ _

/-- No link stands at `root` or below it. -/
def NoLinksBelow (fs : FS) (root : Loc) : Prop :=
  ∀ l t, root <:+ l → fs.node l ≠ some (.link t)

theorem NoLinksBelow.grows {fs fs' : FS} {root : Loc} (h : fs.NoLinksBelow root)
    (hg : fs.Grows fs') : fs'.NoLinksBelow root :=
  fun l t hl hn => h l t hl (hg.link l t hn)

theorem NoLinksBelow.mono {fs : FS} {root cur : Loc} (h : fs.NoLinksBelow root)
    (hc : root <:+ cur) : fs.NoLinksBelow cur :=
  fun l t hl => h l t (hc.trans hl)

/-- **Where there are no links, a walk only reads names.**  The components must not go up:
where `..` leads depends on what has been entered. -/
theorem walkWith_plain {fs : FS} {follow : Loc → List Name → Option Loc} (cs : List Name)
    (hcs : dotdot ∉ cs) : ∀ {cur l : Loc}, fs.NoLinksBelow cur →
      fs.walkWith follow cur cs = some l → l = descend cur cs := by
  induction cs with
  | nil => exact fun _ h => (Option.some.inj h).symm
  | cons c cs ih =>
    rw [List.mem_cons, not_or] at hcs
    intro cur l hlinks h
    have hbelow : fs.NoLinksBelow (c :: cur) := hlinks.mono (List.suffix_cons _ _)
    obtain ⟨-, ⟨hs, h⟩ | ⟨rfl, -⟩ | ⟨hs, -, ⟨-, rfl, -, rfl⟩ | ⟨t, hn, -⟩ | ⟨nd, -, -, h⟩⟩⟩ :=
      walkWith_cons_cases h
    · rw [descend_stays hs]
      exact ih hcs.2 hlinks h
    · exact absurd rfl hcs.1
    · rw [descend_name hs, descend_nil]
    · exact absurd hn (hlinks _ t (List.suffix_cons _ _))
    · rw [descend_name hs]
      exact ih hcs.2 hbelow h

theorem walk_plain {fs : FS} {b : Nat} {cs : List Name} (hcs : dotdot ∉ cs) {cur l : Loc}
    (hlinks : fs.NoLinksBelow cur) (h : fs.walk b cur cs = some l) : l = descend cur cs := by
  cases b <;> exact walkWith_plain cs hcs hlinks h

/-- Without links on the way, a walk goes on from the object that its first part leads
to. -/
theorem walkWith_append {fs : FS} {follow : Loc → List Name → Option Loc} {es : List Name}
    {k : Loc} {nd : Node} (ds : List Name) (hds : dotdot ∉ ds) (hk : fs.node k = some nd) :
    ∀ {cur : Loc}, fs.NoLinksBelow cur → fs.walkWith follow cur ds = some k →
      fs.walkWith follow cur (ds ++ es) = fs.walkWith follow k es := by
  induction ds with
  | nil =>
    intro cur _ h
    rw [Option.some.inj h, List.nil_append]
  | cons c ds ih =>
    rw [List.mem_cons, not_or] at hds
    intro cur hlinks h
    have hbelow : fs.NoLinksBelow (c :: cur) := hlinks.mono (List.suffix_cons _ _)
    obtain ⟨he, ⟨hs, h⟩ | ⟨rfl, -⟩ | ⟨hs, hd, ⟨hn, -, -, rfl⟩ | ⟨t, hn, -⟩ |
      ⟨nd', hn, hnl, h⟩⟩⟩ := walkWith_cons_cases h
    · rw [List.cons_append, walkWith_stays he hs]
      exact ih hds.2 hlinks h
    · exact absurd rfl hds.1
    · exact absurd (hn.symm.trans hk) (by simp)
    · exact absurd hn (hlinks _ t (List.suffix_cons _ _))
    · rw [List.cons_append, walkWith_object he hs hd hn hnl]
      exact ih hds.2 hbelow h

theorem walk_append {fs : FS} {b : Nat} {ds es : List Name} {cur k : Loc} {nd : Node}
    (hds : dotdot ∉ ds) (hlinks : fs.NoLinksBelow cur) (h : fs.walk b cur ds = some k)
    (hk : fs.node k = some nd) : fs.walk b cur (ds ++ es) = fs.walk b k es := by
  cases b <;> exact walkWith_append ds hds hk hlinks h

/-- The components that name no entry do not matter to where a walk leads. -/
theorem walkWith_entryNames {fs : FS} {follow : Loc → List Name → Option Loc} {k : Loc}
    (ds : List Name) (hds : dotdot ∉ ds) : ∀ {cur : Loc}, fs.NoLinksBelow cur →
      fs.walkWith follow cur ds = some k → fs.walkWith follow cur (entryNames ds) = some k := by
  induction ds with
  | nil => exact fun _ h => h
  | cons c ds ih =>
    rw [List.mem_cons, not_or] at hds
    intro cur hlinks h
    have hbelow : fs.NoLinksBelow (c :: cur) := hlinks.mono (List.suffix_cons _ _)
    obtain ⟨he, ⟨hs, h⟩ | ⟨rfl, -⟩ | ⟨hs, hd, ⟨hn, rfl, hc, rfl⟩ | ⟨t, hn, -⟩ |
      ⟨nd', hn, hnl, h⟩⟩⟩ := walkWith_cons_cases h
    · have hskip : entryNames (c :: ds) = entryNames ds := by simp [entryNames, hs]
      rw [hskip]
      exact ih hds.2 hlinks h
    · exact absurd rfl hds.1
    · have hlast : entryNames [c] = [c] := by simp [entryNames, hs]
      rw [hlast]
      exact walkWith_missing he hs hd hn hc
    · exact absurd hn (hlinks _ t (List.suffix_cons _ _))
    · have hkeep : entryNames (c :: ds) = c :: entryNames ds := by simp [entryNames, hs]
      rw [hkeep, walkWith_object he hs hd hn hnl]
      exact ih hds.2 hbelow h

theorem walk_entryNames {fs : FS} {b : Nat} {ds : List Name} {cur k : Loc} (hds : dotdot ∉ ds)
    (hlinks : fs.NoLinksBelow cur) (h : fs.walk b cur ds = some k) :
    fs.walk b cur (entryNames ds) = some k := by
  cases b <;> exact walkWith_entryNames ds hds hlinks h

/-- An empty component at `/`. -/
theorem walk_stays {fs : FS} {b : Nat} {cs : List Name} (hs : fs.noSearch [] = false) :
    fs.walk b [] ([] :: cs) = fs.walk b [] cs := by
  cases b <;> exact walkWith_stays ⟨node_nil fs, hs⟩ (Or.inl rfl)

/-- Without links on the way, a walk to an object that stood before already
succeeds before. -/
theorem walkWith_back {fs fs' : FS} (hg : fs.Grows fs')
    {follow follow' : Loc → List Name → Option Loc} (cs : List Name)
    (hcs : dotdot ∉ cs) : ∀ {cur l : Loc} {nd : Node}, fs'.NoLinksBelow cur →
      fs'.walkWith follow' cur cs = some l → fs.node l = some nd →
      fs.walkWith follow cur cs = some l := by
  induction cs with
  | nil => exact fun _ h _ => h
  | cons c cs ih =>
    rw [List.mem_cons, not_or] at hcs
    intro cur l nd hlinks h hl
    have hbelow : fs'.NoLinksBelow (c :: cur) := hlinks.mono (List.suffix_cons _ _)
    have hsuf : cur <:+ l := by
      rw [walkWith_plain (c :: cs) (by simp [hcs]) hlinks h]
      exact suffix_descend _ _
    obtain ⟨he', hcases⟩ := walkWith_cons_cases h
    have hcur : fs.node cur = some .dir := by
      by_cases hcl : cur = l
      · have := hg.keep _ _ hl
        rw [← hcl] at hl this
        rw [hl, ← this, he'.1]
      · exact node_of_suffix hsuf hcl hl
    have he : fs.Enterable cur := ⟨hcur, by rw [← hg.search, he'.2]⟩
    obtain ⟨hs, h⟩ | ⟨rfl, -⟩ | ⟨hs, hd, ⟨hn, -, -, rfl⟩ | ⟨t, hn, -⟩ | ⟨nd', hn, hnl, h⟩⟩ := hcases
    · rw [walkWith_stays he hs]
      exact ih hcs.2 hlinks h hl
    · exact absurd rfl hcs.1
    · exact absurd ((hg.keep _ _ hl).symm.trans hn) (by simp)
    · exact absurd hn (hlinks _ t (List.suffix_cons _ _))
    · have hsuf' : c :: cur <:+ l := by
        rw [walkWith_plain cs hcs.2 hbelow h]
        exact suffix_descend _ _
      -- what stands at `c :: cur` afterwards is no link, and it stood before
      obtain ⟨nd₀, hn₀⟩ : ∃ nd₀, fs.node (c :: cur) = some nd₀ := by
        by_cases hcl : c :: cur = l
        · exact ⟨nd, hcl ▸ hl⟩
        · exact ⟨_, node_of_suffix hsuf' hcl hl⟩
      have hnl₀ : ∀ t, nd₀ ≠ .link t := by
        rintro t rfl
        exact absurd (hg.keep _ _ hn₀) (hlinks _ t (List.suffix_cons _ _))
      rw [walkWith_object he hs hd hn₀ hnl₀]
      exact ih hcs.2 hbelow h hl

theorem walk_back {fs fs' : FS} (hg : fs.Grows fs') {b : Nat} {cs : List Name}
    (hcs : dotdot ∉ cs) {cur l : Loc} {nd : Node} (hlinks : fs'.NoLinksBelow cur)
    (h : fs'.walk b cur cs = some l) (hl : fs.node l = some nd) :
    fs.walk b cur cs = some l := by
  cases b <;> exact walkWith_back hg cs hcs hlinks h hl

end FS

/-- A name of an object is a component that names an entry. -/
theorem not_stays_of_valid {n : Name} (h : ValidName n) : ¬ FS.Stays n ∧ n ≠ dotdot :=
  ⟨fun hs => hs.elim h.1 h.2.1, h.2.2.1⟩

end Posix
end IsrTransfer
