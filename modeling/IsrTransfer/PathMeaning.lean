import IsrTransfer.Resolution

/-!
# `isr_resolve_path` preserves meaning

Under a root without links, the path that `isr_resolve_path` gives out leads to where the path
that the client sent leads under the root, whether something is there or not.  It fails for one
reason only: root and path together do not fit into the buffer.

The function replaces the parent by its real path, when there is one, and leaves the path as it is
otherwise.  So the components may differ in those that name no entry, and in nothing else
(`SamePlace`).

Everything about paths has been said in `resolvedPath_means`; here it becomes a statement about
runs of the function, which makes one call, `realpath`, and leaves the system as it is.
-/

namespace IsrTransfer

open Effect Posix

variable {F : Faults} {lossy eof : Bool} {w : World}

/-- What `isr_resolve_path` is to give out for the path `sent`: a path to the same
place with the same last component, which has the names `names` as its components. -/
structure SamePlace (s : Sys) (sent : List UInt8) (names : List Name) (out : List UInt8) :
    Prop where
  place : s.resolve out = s.resolve sent
  names : FS.entryNames (components out) = names
  short : out.length < isrPathMax
  /-- The last component is complete, and in front of it stands what stood there, or its
  real path. -/
  last : ∃ dir name, sent = dir ++ slash :: name ∧ slash ∉ name ∧
    (out = sent ∨ ∃ rp, s.realpath dir = some rp ∧ out = rp ++ slash :: name)

/-- Two paths that continue the same real path and walk alike lead to the same place. -/
theorem resolve_eq_of_walk {s : Sys} {p q : List UInt8} {l : Loc} {cs ds : List Name}
    (hl : s.fs.node l = some .dir) (hp : Continues p l cs) (hq : Continues q l ds)
    (hplen : p.length < pathMax) (hqlen : q.length < pathMax)
    (hwalk : s.fs.walk symloopMax l cs = s.fs.walk symloopMax l ds) :
    s.resolve p = s.resolve q := by
  refine Option.ext fun k => ?_
  unfold Sys.resolve
  rw [hp.resolve hl, hq.resolve hl, hwalk]
  simp only [hplen, hqlen]

theorem samePlace_of_resolvedPath {s : Sys} {root relative : List UInt8} {l : Loc}
    (hroot : Canonical s.fs root l) (hlinks : s.fs.NoLinksBelow l)
    (hvalid : dotdot ∉ components relative)
    (hlen : (root ++ slash :: relative).length < pathMax) :
    ∃ out, resolvedPath s root relative isrPathMax = some out ∧
      SamePlace s (root ++ slash :: relative)
        (FS.entryNames (components root) ++ FS.entryNames (components relative)) out := by
  obtain ⟨out, cs, cs₀, hout, hle, hcont, hsent, -, hentry, hwalk⟩ :=
    resolvedPath_means hroot hlinks hvalid hlen
  have hshort : out.length < pathMax := by omega
  refine ⟨out, hout, ?_, ?_, hshort, ?_⟩
  · exact resolve_eq_of_walk hroot.dir hcont hsent hshort hlen hwalk
  · have hnames : ∀ n ∈ l, slash ∉ n := fun n hn =>
      slash_notMem_of_valid (FS.validNames hroot.dir n hn)
    have hempty : ∀ ds : List Name, FS.entryNames ([] :: ds) = FS.entryNames ds := fun _ => rfl
    rw [hcont.1, hroot.path_eq, components_render hnames, hempty, hempty, entryNames_append,
      entryNames_append, entryNames_realTail, List.append_nil, hentry]
  · obtain ⟨a, b, resolved, heq, hb, hcases, hresolved⟩ :=
      resolvedPath_eq (s := s) (hroot.path_eq ▸ render_ne_nil l) hlen
    obtain rfl : resolved = out := by
      rw [hout] at hresolved
      split at hresolved
      · exact (Option.some.inj hresolved).symm
      · exact absurd hresolved (by simp)
    refine ⟨a, b, heq, hb, ?_⟩
    rcases hcases with ⟨-, h⟩ | ⟨rp, hrp, hfull, -⟩
    · exact Or.inl (h.trans heq.symm)
    · refine Or.inr ⟨rp, hrp, hfull ?_⟩
      obtain ⟨hsent₀, hdd, -⟩ := continues_sent hroot hvalid
      have hne : realTail l ++ components relative ≠ [] :=
        fun hnil => components_ne_nil relative (List.append_eq_nil_iff.mp hnil).2
      rw [heq] at hsent₀
      obtain ⟨ds, hds, hparent⟩ := Continues.parent hb hne hsent₀
      rw [hds, List.mem_append, not_or] at hdd
      have hrple : rp.length ≤ a.length :=
        (continues_real hlinks hroot.dir hb hdd.1 hparent hrp).2.2.1
      rw [heq, List.length_append, List.length_cons] at hlen
      omega

/-- **`isr_resolve_path` preserves meaning.**  It returns, it succeeds exactly when the
path fits, and what it then gives out means what the client sent. -/
theorem resolvePath_preserves {root relative : List UInt8} {l : Loc}
    (hroot : Canonical w.sys.fs root l) (hlinks : w.sys.fs.NoLinksBelow l)
    (hvalid : isrValidatePath relative = 0) :
    Terminates (machine F lossy eof) (isrResolvePath root relative isrPathMax)
      (fun r v => v = w ∧ (r.isSome ↔ (root ++ slash :: relative).length < isrPathMax) ∧
        ∀ out, r = some out → SamePlace w.sys (root ++ slash :: relative)
          (FS.entryNames (components root) ++ FS.entryNames (components relative)) out) w := by
  have hdd : dotdot ∉ components relative :=
    dotdot_notMem_of_valid (by rw [hvalid]; decide)
  refine ensures_isrResolvePath (fun path => ?_) ⟨rfl, ?_, ?_⟩
  · exact answered_sys ⟨_, _, rfl, rfl⟩
  · rcases Nat.lt_or_ge (root ++ slash :: relative).length pathMax with hlen | hlen
    · obtain ⟨out, hout, -⟩ := samePlace_of_resolvedPath hroot hlinks hdd hlen
      rw [hout]
      exact ⟨fun _ => hlen, fun _ => rfl⟩
    · rw [resolvedPath_of_long hlen]
      exact ⟨fun h => absurd h (by simp), fun h => absurd hlen (Nat.not_le.mpr h)⟩
  · intro out hout
    rcases Nat.lt_or_ge (root ++ slash :: relative).length pathMax with hlen | hlen
    · obtain ⟨out', hout', hsame⟩ := samePlace_of_resolvedPath hroot hlinks hdd hlen
      obtain rfl := Option.some.inj (hout'.symm.trans hout)
      exact hsame
    · rw [resolvedPath_of_long hlen] at hout
      exact absurd hout (by simp)

/-- The path `x/./f` under the root `/`, where there is nothing but a directory `x`: the
parent is replaced by its real path, and the file is still missing. -/
theorem resolvePath_preserves_missing :
    Terminates (machine Faults.none false false)
      (isrResolvePath [slash] [0x78, slash, 0x2E, slash, 0x66] isrPathMax)
      (fun r v => v = Proc.start (.initial (FS.empty.makeDir [[0x78]])) [] ∧
        (r.isSome ↔ ([slash] ++ slash :: [0x78, slash, 0x2E, slash, 0x66]).length < isrPathMax) ∧
        ∀ out, r = some out → SamePlace (.initial (FS.empty.makeDir [[0x78]]))
          ([slash] ++ slash :: [0x78, slash, 0x2E, slash, 0x66]) [[0x78], [0x66]] out)
      (Proc.start (.initial (FS.empty.makeDir [[0x78]])) []) := by
  have hnode : ∀ l t, (FS.empty.makeDir [[0x78]]).node l ≠ some (.link t) := by
    intro l t
    have hins : FS.empty.Insertable [[0x78]] .dir FS.empty.fresh := by decide
    have hmake : FS.empty.makeDir [[0x78]] = FS.empty.insert [[0x78]] .dir FS.empty.fresh hins :=
      dif_pos hins
    rw [hmake, FS.node_insert]
    split
    · simp
    · cases l <;> simp [FS.node, nodeAt, FS.empty]
  exact resolvePath_preserves (w := Proc.start (.initial (FS.empty.makeDir [[0x78]])) []) (l := [])
    ⟨rfl, rfl, by decide⟩ (fun l t _ => hnode l t) (by decide)

end IsrTransfer
