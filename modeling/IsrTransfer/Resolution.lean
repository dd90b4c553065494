import IsrTransfer.PathRules
import IsrTransfer.Validation
import IsrTransfer.Posix.RealPath

/-!
# What `isr_resolve_path` makes of a path

Under a root without links the resolved path continues the root's real path, and it
has the same entry names as the path the client sent (`resolvedPath_plain`): only
`.` and empty components may have gone.  In particular nothing is cut off, because
a real path is never longer than the path it was found by (`length_render_le`).

The function splits its path at the last slash.  There are two cases: the directory has a real
path, which is put in the place of what was sent, or it has none, because something is missing
or because it may not be searched, and then the path stays as it was (`resolvedPath_eq`).  In
both the path that comes out is compared with the root, byte by byte.

For components this means that the last one is kept, and of the others those that name an entry
(`continues_real`).  Without links and without `..` these are the names of the place, and so the
real path of the directory begins with that of the root (`render_prefix`), the comparison goes
well, and a walk along the new path is a walk along the old one (`resolvedPath_means`).
-/

namespace IsrTransfer

open Effect Posix

/-! ## Strings -/

theorem strrchr_eq_none {c : UInt8} {s : List UInt8} (h : strrchr c s = none) : c ∉ s := by
  induction s with
  | nil => simp
  | cons b s ih =>
    rw [strrchr] at h
    split at h
    · exact absurd h (by simp)
    · rename_i hnone
      split at h
      · exact absurd h (by simp)
      · rename_i hb
        rw [List.mem_cons, not_or]
        exact ⟨fun hc => hb hc.symm, ih hnone⟩

/-- `strrchr` splits a string at the last occurrence. -/
theorem strrchr_eq_some {c : UInt8} {s : List UInt8} {i : Nat} (h : strrchr c s = some i) :
    ∃ a b, s = a ++ c :: b ∧ c ∉ b ∧ a.length = i := by
  induction s generalizing i with
  | nil => simp [strrchr] at h
  | cons b s ih =>
    rw [strrchr] at h
    split at h
    · rename_i j hj
      obtain ⟨a, t, rfl, ht, rfl⟩ := ih hj
      refine ⟨b :: a, t, rfl, ht, ?_⟩
      rw [List.length_cons]
      exact Option.some.inj h
    · rename_i hnone
      split at h
      · rename_i hb
        refine ⟨[], s, by rw [hb, List.nil_append], strrchr_eq_none hnone, ?_⟩
        exact Option.some.inj h
      · exact absurd h (by simp)

theorem strrchr_append {c : UInt8} {a b : List UInt8} (hb : c ∉ b) :
    strrchr c (a ++ c :: b) = some a.length := by
  have hnone : ∀ {t : List UInt8}, c ∉ t → strrchr c t = none := by
    intro t ht
    cases hr : strrchr c t with
    | none => rfl
    | some i =>
      obtain ⟨x, y, rfl, -⟩ := strrchr_eq_some hr
      exact absurd (List.mem_append_right x List.mem_cons_self) ht
  induction a with
  | nil =>
    rw [List.nil_append, strrchr, hnone hb]
    exact if_pos rfl
  | cons d a ih => rw [List.cons_append, strrchr, ih, List.length_cons]

/-! ## Lengths -/

/-- The bytes that components take in a path, a slash for each. -/
def pathWeight (cs : List Name) : Nat := (cs.map fun c => c.length + 1).sum

@[simp] theorem pathWeight_nil : pathWeight [] = 0 := rfl

@[simp] theorem pathWeight_cons (c : Name) (cs : List Name) :
    pathWeight (c :: cs) = c.length + 1 + pathWeight cs := by
  simp [pathWeight]

@[simp] theorem pathWeight_append (cs ds : List Name) :
    pathWeight (cs ++ ds) = pathWeight cs + pathWeight ds := by
  simp [pathWeight]

@[simp] theorem pathWeight_reverse (cs : List Name) : pathWeight cs.reverse = pathWeight cs := by
  simp [pathWeight, List.sum_reverse]

theorem pathWeight_components (p : List UInt8) : pathWeight (components p) = p.length + 1 := by
  induction p with
  | nil => rfl
  | cons c p ih =>
    obtain ⟨hd, tl, hcomp⟩ : ∃ hd tl, components p = hd :: tl :=
      List.exists_cons_of_ne_nil (components_ne_nil p)
    rw [hcomp, pathWeight_cons] at ih
    rw [components_cons, List.length_cons]
    split
    · rw [hcomp, pathWeight_cons, pathWeight_cons, List.length_nil]
      omega
    · rw [hcomp, List.modifyHead_cons, pathWeight_cons, List.length_cons]
      omega

theorem pathWeight_entryNames_le (cs : List Name) :
    pathWeight (FS.entryNames cs) ≤ pathWeight cs := by
  induction cs with
  | nil => simp [FS.entryNames]
  | cons c cs ih =>
    unfold FS.entryNames at ih ⊢
    rw [List.filter_cons]
    split
    · rw [pathWeight_cons, pathWeight_cons]
      omega
    · rw [pathWeight_cons]
      omega

theorem length_renderNames (l : Loc) : (renderNames l).length = pathWeight l := by
  induction l with
  | nil => rfl
  | cons n l ih =>
    rw [renderNames, List.length_append, ih, pathWeight_cons, List.length_cons]
    omega

/-- The real path of a place is not longer than a path that leads there without
links. -/
theorem length_render_le {path : List UInt8} {l : Loc} {cs : List Name}
    (h : Continues path l cs) : (render (FS.descend l cs)).length ≤ path.length := by
  have hweight : path.length + 1 = 1 + (pathWeight l + pathWeight cs) := by
    rw [← pathWeight_components, h.1, pathWeight_cons, pathWeight_append, pathWeight_reverse]
    rfl
  have hpos : 0 < path.length := by
    rcases Nat.eq_zero_or_pos path.length with h0 | h0
    · obtain rfl := List.eq_nil_of_length_eq_zero h0
      have hnil : components [] = [[]] := rfl
      have hc := h.1
      rw [hnil] at hc
      exact absurd (List.cons.inj hc).2.symm h.2
    · exact h0
  unfold render
  split
  · exact hpos
  · have hle := pathWeight_entryNames_le cs
    rw [length_renderNames, FS.descend, pathWeight_append, pathWeight_reverse]
    omega

/-! ## `isr_resolve_path`

The buffer of the function holds the root, a slash and the path.  It is taken apart at the last
slash, the first part is replaced by its real path if it has one, and the result is put together
again.  In components this is one list that is walked in two ways. -/

theorem render_ne_nil (l : Loc) : render l ≠ [] := by
  unfold render
  split
  · simp
  · rename_i hl
    obtain ⟨n, l', rfl⟩ := List.exists_cons_of_ne_nil hl
    simp [renderNames]

/-- `realpath` gives the real path of an object. -/
theorem realpath_eq_some {s : Sys} {path rp : List UInt8} (h : s.realpath path = some rp) :
    ∃ k nd, s.resolve path = some k ∧ s.fs.node k = some nd ∧ rp = render k ∧
      rp.length < pathMax := by
  unfold Sys.realpath at h
  split at h
  · exact absurd h (by simp)
  · rename_i k hk
    split at h
    · exact absurd h (by simp)
    · rename_i hok
      rw [not_or] at hok
      obtain ⟨nd, hnd⟩ := Option.ne_none_iff_exists'.mp hok.1
      obtain rfl := Option.some.inj h
      exact ⟨k, nd, hk, hnd, rfl, by omega⟩

/-- The two `strncat` put a slash and the name after a real path, as far as there is
room. -/
theorem strncat_slash {rp : List UInt8} (b : List UInt8) (hrp : rp.length < pathMax) :
    (strncat (strncat rp [slash] isrPathMax) b isrPathMax).length < pathMax ∧
      (rp.length + 1 + b.length < pathMax →
        strncat (strncat rp [slash] isrPathMax) b isrPathMax = rp ++ slash :: b) ∧
      (strncat (strncat rp [slash] isrPathMax) b isrPathMax = rp ∨
        ∃ b', b' <+: b ∧
          strncat (strncat rp [slash] isrPathMax) b isrPathMax = rp ++ slash :: b') := by
  have hmax : isrPathMax = pathMax := rfl
  unfold strncat
  refine ⟨?_, fun hlen => ?_, ?_⟩
  · rw [List.length_append, List.length_append, List.length_take, List.length_take]
    omega
  · have hslash : ([slash] : List UInt8).take (isrPathMax - rp.length - 1) = [slash] :=
      List.take_of_length_le (by rw [List.length_singleton]; omega)
    have hname : b.take (isrPathMax - (rp.length + 1) - 1) = b :=
      List.take_of_length_le (by omega)
    rw [hslash, List.length_append, List.length_singleton, hname, List.append_assoc,
      List.singleton_append]
  · by_cases hroom : rp.length + 1 < pathMax
    · have hslash : ([slash] : List UInt8).take (isrPathMax - rp.length - 1) = [slash] :=
        List.take_of_length_le (by rw [List.length_singleton]; omega)
      rw [hslash]
      exact Or.inr ⟨_, List.take_prefix _ b, by rw [List.append_assoc, List.singleton_append]⟩
    · have hno : isrPathMax - rp.length - 1 = 0 := by omega
      rw [hno, List.take_zero, List.append_nil, hno, List.take_zero, List.append_nil]
      exact Or.inl rfl

/-- What `isr_resolve_path` computes from a path that fits: the path as it was sent, or
the real path of its parent with the last component, which may be cut, put back.  This
is checked against the root. -/
theorem resolvedPath_eq {s : Sys} {root relative : List UInt8} (hroot : root ≠ [])
    (hlen : (root ++ slash :: relative).length < pathMax) :
    ∃ a b resolved, root ++ slash :: relative = a ++ slash :: b ∧ slash ∉ b ∧
      ((s.realpath a = none ∧ resolved = a ++ slash :: b) ∨
        ∃ rp, s.realpath a = some rp ∧
          (rp.length + 1 + b.length < pathMax → resolved = rp ++ slash :: b) ∧
          (resolved = rp ∨ ∃ b', b' <+: b ∧ resolved = rp ++ slash :: b')) ∧
      resolvedPath s root relative isrPathMax =
        if root.isPrefixOf resolved then some resolved else none := by
  have hmax : isrPathMax = pathMax := rfl
  have h4096 : pathMax = 4096 := rfl
  have hcopy : ∀ t : List UInt8, t.length < pathMax → strncpy t isrPathMax = t := by
    intro t ht
    exact List.take_of_length_le (by omega)
  -- the last slash is not the first byte
  obtain ⟨i, hi⟩ : ∃ i, strrchr slash (root ++ slash :: relative) = some (i + 1) := by
    cases hr : strrchr slash (root ++ slash :: relative) with
    | none => exact absurd (List.mem_append_right _ List.mem_cons_self) (strrchr_eq_none hr)
    | some j =>
      cases j with
      | succ i => exact ⟨i, rfl⟩
      | zero =>
        obtain ⟨a, b, heq, hb, ha⟩ := strrchr_eq_some hr
        obtain rfl := List.eq_nil_of_length_eq_zero ha
        obtain ⟨r, root', rfl⟩ := List.exists_cons_of_ne_nil hroot
        rw [List.nil_append, List.cons_append, List.cons.injEq] at heq
        rw [← heq.2] at hb
        exact absurd (List.mem_append_right _ List.mem_cons_self) hb
  obtain ⟨a, b, heq, hb, ha⟩ := strrchr_eq_some hi
  have htake : (root ++ slash :: relative).take (i + 1) = a := by
    rw [heq, ← ha, List.take_left]
  have hdrop : (root ++ slash :: relative).drop (i + 2) = b := by
    have hsplit : a ++ slash :: b = (a ++ [slash]) ++ b := by simp
    rw [heq, hsplit, show i + 2 = (a ++ [slash]).length by simp [ha], List.drop_left]
  have hblen : b.length < pathMax := by
    have hl : (a ++ slash :: b).length < pathMax := heq ▸ hlen
    rw [List.length_append, List.length_cons] at hl
    omega
  -- the check, and the copy to the caller
  have hcheck : ∀ resolved : List UInt8, resolved.length < pathMax →
      (if root.isPrefixOf resolved = false then none
        else some (strncpy resolved isrPathMax)) =
        if root.isPrefixOf resolved then some resolved else none := by
    intro resolved hres
    rw [hcopy resolved hres]
    cases root.isPrefixOf resolved <;> rfl
  have hresolved : ∀ resolved, (s.realpath a).elim (root ++ slash :: relative)
      (fun rp => strncat (strncat rp [slash] isrPathMax) b isrPathMax) = resolved →
      resolved.length < pathMax → resolvedPath s root relative isrPathMax =
        if root.isPrefixOf resolved then some resolved else none := by
    rintro resolved rfl hshort
    refine Eq.trans ?_ (hcheck _ hshort)
    unfold resolvedPath
    simp only
    rw [if_neg (by omega), hcopy _ hlen, hi]
    simp only [htake, hdrop, hcopy b hblen]
    cases s.realpath a <;> rfl
  cases hrp : s.realpath a with
  | none =>
    rw [hrp] at hresolved
    exact ⟨a, b, _, heq, hb, Or.inl ⟨hrp, heq⟩, hresolved _ rfl hlen⟩
  | some rp =>
    rw [hrp] at hresolved
    obtain ⟨-, -, -, -, -, hrplen⟩ := realpath_eq_some hrp
    obtain ⟨hshort, hall, hform⟩ := strncat_slash b hrplen
    exact ⟨a, b, _, heq, hb, Or.inr ⟨rp, hrp, hall, hform⟩, hresolved _ rfl hshort⟩

/-- A path that does not fit is refused. -/
theorem resolvedPath_of_long {s : Sys} {root relative : List UInt8}
    (hlen : pathMax ≤ (root ++ slash :: relative).length) :
    resolvedPath s root relative isrPathMax = none := by
  unfold resolvedPath
  exact if_pos hlen

/-- The components of a real path after the names: `/` ends with an empty one. -/
def realTail (l : Loc) : List Name := if l = [] then [[]] else []

theorem components_render {l : Loc} (h : ∀ n ∈ l, slash ∉ n) :
    components (render l) = [] :: (l.reverse ++ realTail l) := by
  unfold render realTail
  split
  · rename_i hl
    rw [hl]
    rfl
  · rw [components_renderNames h, List.append_nil]

theorem entryNames_entryNames (cs : List Name) :
    FS.entryNames (FS.entryNames cs) = FS.entryNames cs := by
  simp [FS.entryNames]

theorem entryNames_append (cs ds : List Name) :
    FS.entryNames (cs ++ ds) = FS.entryNames cs ++ FS.entryNames ds := by
  simp [FS.entryNames]

theorem entryNames_realTail (l : Loc) : FS.entryNames (realTail l) = [] := by
  unfold realTail
  split
  · rfl
  · rfl

/-- The path that `isr_resolve_path` starts from, in components. -/
theorem continues_sent {fs : FS} {root relative : List UInt8} {l : Loc}
    (hroot : Canonical fs root l) (hvalid : dotdot ∉ components relative) :
    Continues (root ++ slash :: relative) l (realTail l ++ components relative) ∧
      dotdot ∉ realTail l ++ components relative ∧
      FS.entryNames (realTail l ++ components relative) =
        FS.entryNames (components relative) := by
  have hnames : ∀ n ∈ l, slash ∉ n := fun n hn =>
    slash_notMem_of_valid (FS.validNames hroot.dir n hn)
  refine ⟨⟨?_, fun hnil => ?_⟩, ?_, ?_⟩
  · rw [components_append_slash, hroot.path_eq, components_render hnames,
      List.cons_append, List.append_assoc]
  · exact components_ne_nil relative (List.append_eq_nil_iff.mp
      (List.append_eq_nil_iff.mp hnil).2).2
  · rw [List.mem_append, not_or]
    refine ⟨?_, hvalid⟩
    unfold realTail
    split
    · decide
    · simp
  · rw [entryNames_append, entryNames_realTail, List.nil_append]

/-- The components up to the last slash, and the one after it. -/
theorem Continues.parent {a b : List UInt8} {l : Loc} {cs : List Name} (hb : slash ∉ b)
    (hcs : cs ≠ []) (h : Continues (a ++ slash :: b) l cs) :
    ∃ ds, cs = ds ++ [b] ∧ components a = [] :: (l.reverse ++ ds) := by
  have hcomp := h.1
  rw [components_append_slash, components_of_notMem hb] at hcomp
  have hlast := congrArg List.getLast? hcomp
  rw [List.getLast?_concat] at hlast
  obtain ⟨ds, x, rfl⟩ : ∃ ds x, cs = ds ++ [x] :=
    ⟨_, _, (List.dropLast_append_getLast hcs).symm⟩
  rw [← List.append_assoc, ← List.cons_append, List.getLast?_concat] at hlast
  obtain rfl := Option.some.inj hlast
  rw [← List.append_assoc, ← List.cons_append] at hcomp
  exact ⟨ds, rfl, List.append_cancel_right hcomp⟩

/-- What comes of a path whose parent has a real path: the names of the parent, and the
last component again. -/
theorem continues_real {s : Sys} {a b rp : List UInt8} {l : Loc} {ds : List Name}
    (hlinks : s.fs.NoLinksBelow l) (hdir : s.fs.node l = some .dir) (hb : slash ∉ b)
    (hdd : dotdot ∉ ds) (hparent : components a = [] :: (l.reverse ++ ds))
    (hrp : s.realpath a = some rp) :
    Continues (rp ++ slash :: b) l
        (FS.entryNames ds ++ (realTail (FS.descend l ds) ++ [b])) ∧
      rp = render (FS.descend l ds) ∧ rp.length ≤ a.length ∧
      s.fs.noSearch [] = false ∧ s.fs.walk symloopMax l ds = some (FS.descend l ds) ∧
      ∃ nd, s.fs.node (FS.descend l ds) = some nd := by
  obtain ⟨k, nd, hk, hnd, rfl, -⟩ := realpath_eq_some hrp
  have hcont : Continues a l ds := by
    refine ⟨hparent, fun hnil => ?_⟩
    have ha : a = [] := by
      have hw := pathWeight_components a
      rw [hparent, hnil] at hw
      exact List.eq_nil_of_length_eq_zero (by simpa using hw.symm)
    rw [ha] at hk
    simp [Sys.resolve, FS.resolve] at hk
  unfold Sys.resolve at hk
  rw [hcont.resolve hdir] at hk
  obtain ⟨-, hsearch, -, hwalk⟩ := hk
  obtain rfl : k = FS.descend l ds := FS.walk_plain hdd hlinks hwalk
  refine ⟨⟨?_, by simp⟩, rfl, length_render_le hcont, hsearch, hwalk, nd, hnd⟩
  rw [components_append_slash, components_of_notMem hb,
    components_render fun n hn => slash_notMem_of_valid (FS.validNames hnd n hn), FS.descend]
  simp

/-- The real path of a directory begins that of everything below it. -/
theorem render_prefix {l k : Loc} (h : l <:+ k) (b : List UInt8) :
    (render l).isPrefixOf (render k ++ slash :: b) = true := by
  rw [List.isPrefixOf_iff_prefix]
  obtain ⟨m, rfl⟩ := h
  have hnames : ∀ m : Loc, renderNames l <+: renderNames (m ++ l) := by
    intro m
    induction m with
    | nil => exact List.prefix_rfl
    | cons n m ih => exact ih.trans (List.prefix_append _ _)
  by_cases hl : l = []
  · -- the real path of `/` is the first byte of every real path
    subst hl
    have hslash : ∀ k : Loc, [slash] <+: render k := by
      intro k
      induction k with
      | nil => exact List.prefix_rfl
      | cons n k ih =>
        by_cases hk : k = []
        · subst hk
          exact ⟨n, rfl⟩
        · rw [render_of_ne_nil hk] at ih
          exact ih.trans (List.prefix_append _ _)
    exact (hslash _).trans (List.prefix_append _ _)
  · rw [render_of_ne_nil hl, render_of_ne_nil (by simp [hl])]
    exact (hnames m).trans (List.prefix_append _ _)

/-- **Under a root without links the resolved path means what the client sent.**  Both
continue the root's real path, with the same names of entries, and walking the one is
walking the other. -/
theorem resolvedPath_means {s : Sys} {root relative : List UInt8} {l : Loc}
    (hroot : Canonical s.fs root l) (hlinks : s.fs.NoLinksBelow l)
    (hvalid : dotdot ∉ components relative)
    (hlen : (root ++ slash :: relative).length < pathMax) :
    ∃ full cs cs₀, resolvedPath s root relative isrPathMax = some full ∧
      full.length ≤ (root ++ slash :: relative).length ∧
      Continues full l cs ∧ Continues (root ++ slash :: relative) l cs₀ ∧ dotdot ∉ cs ∧
      FS.entryNames cs = FS.entryNames (components relative) ∧
      s.fs.walk symloopMax l cs = s.fs.walk symloopMax l cs₀ := by
  obtain ⟨a, b, resolved, heq, hb, hcases, hresolved⟩ :=
    resolvedPath_eq (s := s) (hroot.path_eq ▸ render_ne_nil l) hlen
  obtain ⟨hsent, hdd, hentry⟩ := continues_sent hroot hvalid
  have hne : realTail l ++ components relative ≠ [] :=
    fun hnil => components_ne_nil relative (List.append_eq_nil_iff.mp hnil).2
  have hprefix : root.isPrefixOf (root ++ slash :: relative) = true :=
    List.isPrefixOf_iff_prefix.mpr (List.prefix_append _ _)
  rcases hcases with ⟨-, rfl⟩ | ⟨rp, hrp, hfull, -⟩
  · rw [← heq, if_pos hprefix] at hresolved
    exact ⟨_, _, _, hresolved, Nat.le_refl _, hsent, hsent, hdd, hentry, rfl⟩
  have hsent' := hsent
  rw [heq] at hsent'
  obtain ⟨ds, hds, hparent⟩ := Continues.parent hb hne hsent'
  rw [hds, List.mem_append, not_or] at hdd
  obtain ⟨hreal, hrender, hle, hsearch, hwalk, nd, hnd⟩ :=
    continues_real hlinks hroot.dir hb hdd.1 hparent hrp
  have hlenab : rp.length + 1 + b.length ≤ (root ++ slash :: relative).length := by
    rw [heq, List.length_append, List.length_cons]
    omega
  obtain rfl := hfull (by omega)
  have hprefix' : root.isPrefixOf (rp ++ slash :: b) = true := by
    rw [hroot.path_eq, hrender]
    exact render_prefix (FS.suffix_descend l ds) b
  rw [if_pos hprefix'] at hresolved
  refine ⟨_, _, _, hresolved, ?_, hreal, hsent, ?_, ?_, ?_⟩
  · rw [List.length_append, List.length_cons]
    omega
  · intro hmem
    rcases List.mem_append.mp hmem with hmem | hmem
    · exact hdd.1 (List.mem_of_mem_filter hmem)
    · rcases List.mem_append.mp hmem with hmem | hmem
      · unfold realTail at hmem
        split at hmem
        · exact absurd hmem (by decide)
        · simp at hmem
      · exact hdd.2 hmem
  · rw [entryNames_append, entryNames_entryNames, entryNames_append, entryNames_realTail,
      List.nil_append, ← entryNames_append, ← hds, hentry]
  · -- both walks come by the parent
    have hdd' : dotdot ∉ FS.entryNames ds := fun hmem => hdd.1 (List.mem_of_mem_filter hmem)
    have hnames := FS.walk_entryNames hdd.1 hlinks hwalk
    rw [hds, FS.walk_append hdd.1 hlinks hwalk hnd, FS.walk_append hdd' hlinks hnames hnd]
    unfold realTail
    split
    case isTrue hroot' => rw [hroot', List.singleton_append, FS.walk_stays hsearch]
    case isFalse => rw [List.nil_append]

/-- What follows for a path that has been resolved. -/
theorem resolvedPath_plain {s : Sys} {root relative full : List UInt8} {l : Loc}
    (hroot : Canonical s.fs root l) (hlinks : s.fs.NoLinksBelow l)
    (hvalid : dotdot ∉ components relative)
    (h : resolvedPath s root relative isrPathMax = some full) :
    full.length < pathMax ∧ ∃ cs, Continues full l cs ∧ dotdot ∉ cs ∧
      FS.entryNames cs = FS.entryNames (components relative) := by
  have hlen : (root ++ slash :: relative).length < pathMax := by
    by_contra hlong
    rw [resolvedPath_of_long (Nat.not_lt.mp hlong)] at h
    exact absurd h (by simp)
  obtain ⟨full', cs, -, hfull, hle, hcont, -, hdd, hentry, -⟩ :=
    resolvedPath_means hroot hlinks hvalid hlen
  obtain rfl := Option.some.inj (hfull.symm.trans h)
  exact ⟨by omega, cs, hcont, hdd, hentry⟩

end IsrTransfer
