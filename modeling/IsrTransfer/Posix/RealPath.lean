import IsrTransfer.Posix.Machine

/-!
# Real paths

`render` writes a location as the path that `realpath` gives for it.  Such a path has the
location's own names as its components (`components_renderNames`), so that walking it meets no
link (`walk_real`); and a path that continues a real path leads to where the rest leads from there
(`Continues.resolve`).

`Canonical` is what a program knows of a directory whose real path it has asked for, and it stays
true while the file system grows.  `Continues` is the form of every path that a program makes by
appending to such a path: it does not say with how many slashes, only what the components are.

`Continues.resolve_back` is the rule for later states.  A path that leads to an object which stood
before already leads there before, if no link stands on its way; so what is found at the end of a
run, and was there at its beginning, was found under that path at the beginning as well.
-/

namespace IsrTransfer
namespace Posix

theorem slash_notMem_of_valid {n : Name} (h : ValidName n) : slash ∉ n := h.2.2.2.1

/-- Every name on the way to an object is legal. -/
theorem FS.validNames {fs : FS} {l : Loc} {nd : Node} (h : fs.node l = some nd) :
    ∀ n ∈ l, ValidName n := by
  induction l generalizing nd with
  | nil => simp
  | cons n l ih =>
    intro m hm
    rcases List.mem_cons.mp hm with rfl | hm
    · exact FS.validName_of_node h
    · exact ih (FS.node_parent h) m hm

/-- The components of a real path are the names of the location. -/
theorem components_renderNames {l : Loc} (h : ∀ n ∈ l, slash ∉ n) :
    components (renderNames l) = [] :: l.reverse := by
  induction l with
  | nil => rfl
  | cons n l ih =>
    rw [renderNames, components_append_slash, ih fun m hm => h m (List.mem_cons_of_mem n hm),
      components_of_notMem (h n List.mem_cons_self), List.reverse_cons, List.cons_append]

theorem render_of_ne_nil {l : Loc} (h : l ≠ []) : render l = renderNames l := if_neg h

/-- A path whose first component is empty and not the only one is absolute. -/
theorem startOf_of_components {path : List UInt8} {c : Name} {cs : List Name} (cwd : Loc)
    (h : components path = [] :: c :: cs) : startOf path cwd = [] := by
  cases path with
  | nil => simp [components] at h
  | cons b p =>
    rw [components_cons] at h
    split at h
    · rename_i hb
      rw [startOf, hb]
      exact if_pos rfl
    · exfalso
      revert h
      cases components p <;> simp

namespace FS

variable {fs : FS} {l cur k : Loc} {cs : List Name}

/-- The directories above `l` may be searched. -/
def Searchable (fs : FS) (l : Loc) : Prop := ∀ a, a <:+ l → a ≠ l → fs.noSearch a = false

/-- **Walking a real path meets nothing but the directories it names.** -/
theorem walkWith_real {follow : Loc → List Name → Option Loc} (hl : fs.node l = some .dir) :
    ∀ {cs : List Name}, fs.walkWith follow [] (l.reverse ++ cs) = some k ↔
      fs.Searchable l ∧ fs.walkWith follow l cs = some k := by
  induction l with
  | nil =>
    intro cs
    refine ⟨fun h => ⟨fun a ha hne => absurd (List.suffix_nil.mp ha) hne, h⟩, And.right⟩
  | cons n l ih =>
    intro cs
    have hp := node_parent hl
    obtain ⟨hstay, hdd⟩ := not_stays_of_valid (validName_of_node hl)
    rw [List.reverse_cons, List.append_assoc, ih hp]
    have hstep : fs.walkWith follow l ([n] ++ cs) = some k ↔
        fs.noSearch l = false ∧ fs.walkWith follow (n :: l) cs = some k := by
      constructor
      · intro h
        have he := (walkWith_cons_cases h).1
        refine ⟨he.2, ?_⟩
        rw [← walkWith_object he hstay hdd hl (by simp)]
        exact h
      · rintro ⟨hs, h⟩
        rw [List.singleton_append, walkWith_object ⟨hp, hs⟩ hstay hdd hl (by simp)]
        exact h
    rw [hstep]
    constructor
    · rintro ⟨hs, hsl, h⟩
      refine ⟨fun a ha hne => ?_, h⟩
      rcases List.suffix_cons_iff.mp ha with rfl | ha
      · exact absurd rfl hne
      · by_cases hal : a = l
        · rw [hal, hsl]
        · exact hs a ha hal
    · rintro ⟨hs, h⟩
      refine ⟨fun a ha hne => hs a (ha.trans (List.suffix_cons _ _)) ?_,
        hs l (List.suffix_cons _ _) (fun h => List.cons_ne_self n l h.symm), h⟩
      rintro rfl
      have hlen := ha.length_le
      rw [List.length_cons] at hlen
      omega

/-- The same after the empty component in front of an absolute path. -/
theorem walk_real {b : Nat} (hl : fs.node l = some .dir) :
    fs.walk b [] ([] :: (l.reverse ++ cs)) = some k ↔
      fs.noSearch [] = false ∧ fs.Searchable l ∧ fs.walk b l cs = some k := by
  have hroot : ∀ {follow : Loc → List Name → Option Loc} {ds : List Name},
      fs.walkWith follow [] ([] :: ds) = some k ↔
        fs.noSearch [] = false ∧ fs.walkWith follow [] ds = some k := by
    intro follow ds
    constructor
    · intro h
      have he := (walkWith_cons_cases h).1
      rw [walkWith_stays he (Or.inl rfl)] at h
      exact ⟨he.2, h⟩
    · rintro ⟨hs, h⟩
      rw [walkWith_stays ⟨node_nil fs, hs⟩ (Or.inl rfl)]
      exact h
  cases b with
  | zero => exact hroot.trans (and_congr_right fun _ => walkWith_real hl)
  | succ b => exact hroot.trans (and_congr_right fun _ => walkWith_real hl)

end FS

/-- `path` is the real path of the directory `l`. -/
structure Canonical (fs : FS) (path : List UInt8) (l : Loc) : Prop where
  path_eq : path = render l
  dir : fs.node l = some .dir
  short : path.length < pathMax

theorem Canonical.grows {fs fs' : FS} {path : List UInt8} {l : Loc} (h : Canonical fs path l)
    (hg : fs.Grows fs') : Canonical fs' path l :=
  ⟨h.path_eq, hg.keep l _ h.dir, h.short⟩

/-- `path` continues the real path of `l` with the components `cs`. -/
def Continues (path : List UInt8) (l : Loc) (cs : List Name) : Prop :=
  components path = [] :: (l.reverse ++ cs) ∧ l.reverse ++ cs ≠ []

/-- Where a path leads that continues a real path. -/
theorem Continues.resolve {fs : FS} {path : List UInt8} {l cwd k : Loc} {cs : List Name}
    (h : Continues path l cs) (hl : fs.node l = some .dir) :
    fs.resolve cwd path = some k ↔ path.length < pathMax ∧ fs.noSearch [] = false ∧
      fs.Searchable l ∧ fs.walk symloopMax l cs = some k := by
  obtain ⟨hcomp, hne⟩ := h
  have hstart : startOf path cwd = [] := by
    cases hx : l.reverse ++ cs with
    | nil => exact absurd hx hne
    | cons c ds => exact startOf_of_components cwd (hx ▸ hcomp)
  have hnil : path ≠ [] := by
    rintro rfl
    have : components [] = [[]] := rfl
    rw [this] at hcomp
    exact hne (List.cons.inj hcomp).2.symm
  unfold FS.resolve
  split
  · rename_i hbad
    have hlong : pathMax ≤ path.length := hbad.resolve_left hnil
    refine ⟨fun h => absurd h (by simp), fun h => absurd h.1 (by omega)⟩
  · rename_i hok
    rw [hstart, hcomp, FS.walk_real hl]
    exact ⟨fun h => ⟨by omega, h⟩, And.right⟩

/-- **A path that leads to an object which stood before already leads there
before**, if no link stands on its way. -/
theorem Continues.resolve_back {fs fs' : FS} {path : List UInt8} {l cwd k : Loc}
    {cs : List Name} {nd : Node} (h : Continues path l cs) (hcs : dotdot ∉ cs)
    (hl : fs.node l = some .dir) (hg : fs.Grows fs') (hlinks : fs'.NoLinksBelow l)
    (hk : fs'.resolve cwd path = some k) (hnd : fs.node k = some nd) :
    fs.resolve cwd path = some k := by
  rw [h.resolve (hg.keep l _ hl)] at hk
  obtain ⟨hlen, hroot, hsearch, hwalk⟩ := hk
  rw [h.resolve hl]
  refine ⟨hlen, by rw [← hg.search, hroot], ?_, FS.walk_back hg hcs hlinks hwalk hnd⟩
  intro a ha hne
  rw [← hg.search, hsearch a ha hne]

end Posix
end IsrTransfer
