import IsrTransfer.MkdirRecursive
import IsrTransfer.Posix.Destination

/-!
# The jail of the server

`isr_resolve_path` replaces the directory of a path by its real path, leaves the last
component as it is, and compares the first bytes of what comes out with the root.  What is
opened or made under the resulting path is where the path leads, links followed; so the root
can be left

* through a last component that is a link,
* to a sibling of the root whose name begins like the root's,
* below a directory that is missing, which has no real path: then nothing is compared but
  the root with itself,
* behind a last component that has been cut off because the real path is longer,
* where `isr_mkdir_recursive` reads a slash for a backslash.

All but the fourth are shown on small file systems (`staysInRoot_left`).

`Harmless` says of a request, in the state in which it arrives, that none of this is the
case.  Requests that are harmless keep the server inside over any run
(`staysInRoot_of_harmless`); in particular all requests are harmless that have no backslash,
under a root without links (`harmless_of_noLinks`).

## The path that is resolved

`resolvedPath_eq_realized` says what `isr_resolve_path` computes where nothing is cut off: the
path with the real path of its directory (`realized`), if that begins with the root.  It leads
where the path of the request leads, however many links there are (`leadsTo_realized`); the
comparison of bytes is the only thing that may go wrong.  `WellAimed` says that it does not: of a
path that leads out, the real path of the directory is known and does not begin like the root.
Then paths that lead out are refused (`WellAimed.refused`), and those that are accepted lead to a
place inside (`WellAimed.accepted`).

`Posix.Sys.LeadsTo` speaks of a place, where something stands or something can be made.  So it is
said at once of files that are opened and of files and directories that are new.

## The directories on the way

A SEND makes the directories in front of a file, or the whole path.  A directory that is new is
where an ancestor of the path leads, and nothing stood there; a walk that goes on to the end of
the path from there, without `..`, only goes down, and so the directory is inside if the end is
(`inside_of_missing`).  The names cannot lead up, since the path has been checked and a real path
has none that do (`dotdot_notMem_realized`).

This is about the path with its slashes.  Where it has a backslash, the calls of `mkdir` are about
another path (see `MkdirRecursive`), and nothing has looked at that one.  `HarmlessSend.slashes`
asks for what is needed there, of those requests only that come to `isr_mkdir_recursive`.

## Runs

That a program stays inside is said of its operations: what is opened, listed or made is at `l` or
below it, in the state in which the operation comes (`InRoot`).  The handlers are shown to keep to
it by their rules (`send_inRoot`, `recv_inRoot`), and with it goes what a client gets that has
asked for something outside (`RequestsRefused`).  What is new after a run was made by one of its
operations (`inside_of_reaches`), and a run of the server is a run of connections; the root stays
the real path of `l`, since nothing that is there is ever removed.
-/

namespace IsrTransfer

open Effect Posix

variable {F : Faults} {lossy eof : Bool} {w : World}

/-! ## A path and its last component

`isr_resolve_path` resolves what stands in front of the last slash, and compares the result with
the root as strings.  So a path that leads out is noticed only if its directory is there, and
the root's bytes are not a prefix of where that is (`WellAimed`). -/

/-- `dir` and `name` are what stands before and after the last slash of `path`. -/
structure Splits (path dir name : List UInt8) : Prop where
  eq : path = dir ++ slash :: name
  last : slash ∉ name

theorem Splits.unique {path dir name dir' name' : List UInt8} (h : Splits path dir name)
    (h' : Splits path dir' name') : dir = dir' ∧ name = name' := by
  have heq := h.eq.symm.trans h'.eq
  have hlen : dir.length = dir'.length := by
    have hchr := strrchr_append h.last (a := dir)
    rw [heq, strrchr_append h'.last] at hchr
    exact (Option.some.inj hchr).symm
  obtain ⟨hdir, hname⟩ := List.append_inj heq hlen
  exact ⟨hdir, (List.cons.inj hname).2⟩

/-- The path of a request has the root in front of its last slash. -/
theorem Splits.root {root relative dir name : List UInt8}
    (h : Splits (root ++ slash :: relative) dir name) : root <+: dir := by
  rcases List.append_eq_append_iff.mp h.eq with ⟨rest, hdir, -⟩ | ⟨rest, hroot, hname⟩
  · exact ⟨rest, hdir.symm⟩
  · cases rest with
    | nil => exact ⟨[], by rw [hroot, List.append_nil, List.append_nil]⟩
    | cons b rest =>
      rw [List.cons_append, List.cons.injEq] at hname
      exact absurd (hname.2 ▸ List.mem_append_right rest List.mem_cons_self) h.last

/-- The path with the real path of its directory, if that has one. -/
def realized (s : Sys) (dir name : List UInt8) : List UInt8 :=
  (s.realpath dir).getD dir ++ slash :: name

section Resolved

variable {s : Sys} {root relative dir name : List UInt8} {l t : Loc}

/-- The path is long enough to be one, and short enough. -/
def Checked (root relative : List UInt8) : Prop :=
  isrValidatePath relative ≠ -1 ∧ (root ++ slash :: relative).length < pathMax

/-- Of a request for `relative`, a path that leads out of `l` is recognised as such. -/
structure WellAimed (s : Sys) (root : List UInt8) (l : Loc) (relative : List UInt8) : Prop where
  /-- Nothing of the last component is cut off. -/
  fits : ∀ dir name rp, Splits (root ++ slash :: relative) dir name → s.realpath dir = some rp →
    root <+: rp ++ slash :: name → rp.length + 1 + name.length < pathMax
  /-- If the path leads out, then its directory is there, and where it is, the path does not
  begin with the bytes of the root. -/
  recognised : ∀ t, s.LeadsTo (root ++ slash :: relative) t → ¬ l <:+ t →
    ∃ dir name rp, Splits (root ++ slash :: relative) dir name ∧ s.realpath dir = some rp ∧
      ¬ root <+: rp ++ slash :: name

def LeadsOut (s : Sys) (root : List UInt8) (l : Loc) (path : List UInt8) : Prop :=
  ∃ t, s.LeadsTo (root ++ slash :: path) t ∧ ¬ l <:+ t

/-- What `isr_resolve_path` computes, where nothing is cut off. -/
theorem resolvedPath_eq_realized (hroot : root ≠ [])
    (hlen : (root ++ slash :: relative).length < pathMax) :
    ∃ dir name, Splits (root ++ slash :: relative) dir name ∧
      (¬ root <+: realized s dir name → resolvedPath s root relative isrPathMax = none) ∧
      ((∀ rp, s.realpath dir = some rp → root <+: rp ++ slash :: name →
          rp.length + 1 + name.length < pathMax) → root <+: realized s dir name →
        (realized s dir name).length < pathMax ∧
        resolvedPath s root relative isrPathMax = some (realized s dir name)) := by
  obtain ⟨dir, name, resolved, heq, hname, hcases, hresolved⟩ := resolvedPath_eq (s := s) hroot hlen
  refine ⟨dir, name, ⟨heq, hname⟩, fun hno => ?_, fun hfits hprefix => ?_⟩
  · rw [hresolved, if_neg]
    intro hpre
    refine hno ((List.isPrefixOf_iff_prefix.mp hpre).trans ?_)
    unfold realized
    rcases hcases with ⟨hnone, rfl⟩ | ⟨rp, hrp, -, rfl | ⟨name', hname', rfl⟩⟩
    · rw [hnone]
      exact List.prefix_rfl
    · rw [hrp]
      exact List.prefix_append _ _
    · rw [hrp]
      exact (List.prefix_append_right_inj _).mpr ((List.prefix_cons_inj _).mpr hname')
  · have hall : resolved = realized s dir name ∧ resolved.length < pathMax := by
      unfold realized at hprefix ⊢
      rcases hcases with ⟨hnone, rfl⟩ | ⟨rp, hrp, hfull, -⟩
      · rw [hnone]
        exact ⟨rfl, heq ▸ hlen⟩
      · rw [hrp] at hprefix ⊢
        have hshort := hfits rp hrp hprefix
        refine ⟨hfull hshort, ?_⟩
        rw [hfull hshort, List.length_append, List.length_cons]
        omega
    rw [hresolved, hall.1, if_pos (List.isPrefixOf_iff_prefix.mpr hprefix)]
    exact ⟨hall.1 ▸ hall.2, rfl⟩

/-- A real path leads to the object whose path it is. -/
theorem leadsTo_render {nd : Node} (h : s.fs.node l = some nd) (hno : ∀ t, nd ≠ .link t) :
    s.LeadsTo (render l) l := by
  have hcomp := components_render fun n hn => slash_notMem_of_valid (FS.validNames h n hn)
  have hne : l.reverse ++ realTail l ≠ [] := by
    unfold realTail
    split <;> simp_all
  obtain ⟨c, cs, hcs⟩ := List.exists_cons_of_ne_nil hne
  unfold Sys.LeadsTo
  rw [startOf_of_components s.cwd (hcs ▸ hcomp), hcomp]
  refine .stays (Or.inl rfl) ((FS.leads_object h hno).append ?_)
  unfold realTail
  split
  · exact .stays (Or.inl rfl) (.here _)
  · exact .here _

/-- What has a real path is no link. -/
theorem leadsTo_of_realpath {rp : List UInt8} (hdir : startOf dir s.cwd = [])
    (h : s.realpath dir = some rp) :
    ∃ k nd, s.LeadsTo dir k ∧ s.fs.node k = some nd ∧ (∀ t, nd ≠ .link t) ∧ rp = render k := by
  obtain ⟨k, nd, hk, hnd, hrp, -⟩ := realpath_eq_some h
  have hleads := Sys.leadsTo_of_resolve hk
  refine ⟨k, nd, hleads, hnd, ?_, hrp⟩
  rintro t rfl
  unfold Sys.LeadsTo at hleads
  rw [hdir] at hleads
  refine hleads.noLink (fun a ha t => ?_) k List.suffix_rfl t hnd
  rw [List.suffix_nil.mp ha, FS.node_nil]
  simp

theorem head_render (l : Loc) : (render l).head? = some slash := by
  by_cases hl : l = []
  · rw [hl]
    rfl
  rw [render_of_ne_nil hl]
  induction l with
  | nil => exact absurd rfl hl
  | cons n l ih =>
    by_cases h : l = []
    · rw [h]
      rfl
    · rw [renderNames, List.head?_append, ih h, Option.some_or]

theorem startOf_of_root {path : List UInt8} (cwd : Loc) (hroot : render l <+: path) :
    startOf path cwd = [] := by
  obtain ⟨rest, rfl⟩ := hroot
  rw [startOf, List.head?_append, head_render, Option.some_or, if_pos rfl]

/-- **The real path of the directory leads where the path leads.**  So checking the one is
checking the other, as far as the check looks. -/
theorem leadsTo_realized (hroot : root = render l)
    (h : Splits (root ++ slash :: relative) dir name) :
    s.LeadsTo (realized s dir name) t ↔ s.LeadsTo (root ++ slash :: relative) t := by
  have hpre : render l <+: dir := hroot ▸ h.root
  have hne : dir ≠ [] := fun hnil => render_ne_nil l (List.prefix_nil.mp (hnil ▸ hpre))
  rw [h.eq]
  unfold realized
  cases hrp : s.realpath dir with
  | none => exact Iff.rfl
  | some rp =>
    obtain ⟨k, nd, hk, hnd, hno, rfl⟩ := leadsTo_of_realpath (startOf_of_root _ hpre) hrp
    rw [Option.getD_some, Sys.leadsTo_append (render_ne_nil k) (leadsTo_render hnd hno),
      Sys.leadsTo_append hne hk]

/-- A path that leads out is refused. -/
theorem WellAimed.refused (h : WellAimed s root l relative) (hroot : root = render l)
    (ht : s.LeadsTo (root ++ slash :: relative) t) (hout : ¬ l <:+ t) :
    resolvedPath s root relative isrPathMax = none := by
  rcases Nat.lt_or_ge (root ++ slash :: relative).length pathMax with hlen | hlen
  · obtain ⟨dir, name, rp, hsplit, hrp, hno⟩ := h.recognised t ht hout
    obtain ⟨dir', name', hsplit', hnone, -⟩ :=
      resolvedPath_eq_realized (s := s) (hroot ▸ render_ne_nil l) hlen
    obtain ⟨rfl, rfl⟩ := hsplit.unique hsplit'
    refine hnone ?_
    rw [realized, hrp]
    exact hno
  · exact resolvedPath_of_long hlen

/-- Where nothing is cut off, paths that lead out are refused exactly if they are recognised
as such. -/
theorem wellAimed_iff_refused (hroot : root = render l)
    (hlen : (root ++ slash :: relative).length < pathMax)
    (hfits : ∀ dir name rp, Splits (root ++ slash :: relative) dir name →
      s.realpath dir = some rp → root <+: rp ++ slash :: name →
      rp.length + 1 + name.length < pathMax) :
    WellAimed s root l relative ↔
      (LeadsOut s root l relative → resolvedPath s root relative isrPathMax = none) := by
  constructor
  · rintro h ⟨t, ht, hout⟩
    exact h.refused hroot ht hout
  · refine fun h => ⟨hfits, fun t ht hout => ?_⟩
    obtain ⟨dir, name, hsplit, -, hsome⟩ :=
      resolvedPath_eq_realized (s := s) (hroot ▸ render_ne_nil l) hlen
    have hno : ¬ root <+: realized s dir name := by
      intro hprefix
      obtain ⟨-, heq⟩ := hsome (fun rp => hfits dir name rp hsplit) hprefix
      exact absurd ((h ⟨t, ht, hout⟩).symm.trans heq) (by simp)
    unfold realized at hno
    cases hrp : s.realpath dir with
    | none =>
      rw [hrp] at hno
      exact absurd (hsplit.root.trans (List.prefix_append dir _)) hno
    | some rp =>
      rw [hrp] at hno
      exact ⟨dir, name, rp, hsplit, hrp, hno⟩

/-- A path that is accepted leads to a place inside. -/
theorem WellAimed.accepted {full : List UInt8} (h : WellAimed s root l relative)
    (hroot : root = render l) (hfull : resolvedPath s root relative isrPathMax = some full) :
    ∃ dir name, Splits (root ++ slash :: relative) dir name ∧ full = realized s dir name ∧
      full.length < pathMax ∧ ∀ t, s.LeadsTo full t → l <:+ t := by
  rcases Nat.lt_or_ge (root ++ slash :: relative).length pathMax with hlen | hlen
  · obtain ⟨dir, name, hsplit, hnone, hsome⟩ :=
      resolvedPath_eq_realized (s := s) (hroot ▸ render_ne_nil l) hlen
    have hprefix : root <+: realized s dir name := by
      by_contra hno
      exact absurd ((hnone hno).symm.trans hfull) (by simp)
    obtain ⟨hshort, heq⟩ := hsome (fun rp => h.fits dir name rp hsplit) hprefix
    obtain rfl := Option.some.inj (hfull.symm.trans heq)
    refine ⟨dir, name, hsplit, rfl, hshort, fun t ht => ?_⟩
    by_contra hout
    have hrefused := h.refused hroot ((leadsTo_realized hroot hsplit).mp ht) hout
    exact absurd (hrefused.symm.trans hfull) (by simp)
  · exact absurd ((resolvedPath_of_long hlen).symm.trans hfull) (by simp)

/-! ## Directories on the way -/

/-- Names do not lead up in the path that has been resolved. -/
theorem dotdot_notMem_realized (hroot : Canonical s.fs root l)
    (hvalid : isrValidatePath relative ≠ -1)
    (h : Splits (root ++ slash :: relative) dir name) :
    dotdot ∉ components (realized s dir name) := by
  have hnames : ∀ {k : Loc} {nd : Node}, s.fs.node k = some nd → dotdot ∉ k.reverse := by
    intro k nd hk hmem
    exact (FS.validNames hk _ (List.mem_reverse.mp hmem)).2.2.1 rfl
  have hsent : dotdot ∉ components (root ++ slash :: relative) := by
    obtain ⟨hcont, hdd, -⟩ := continues_sent hroot (dotdot_notMem_of_valid hvalid)
    rw [hcont.1, List.mem_cons, List.mem_append, not_or, not_or]
    exact ⟨by decide, hnames hroot.dir, hdd⟩
  unfold realized
  cases hrp : s.realpath dir with
  | none => exact h.eq ▸ hsent
  | some rp =>
    obtain ⟨k, nd, -, hnd, rfl, -⟩ := realpath_eq_some hrp
    rw [h.eq, components_append_slash, List.mem_append, not_or] at hsent
    have htail : dotdot ∉ realTail k := by
      unfold realTail
      split <;> decide
    rw [Option.getD_some, components_append_slash,
      components_render fun n hn => slash_notMem_of_valid (FS.validNames hnd n hn)]
    simp only [List.mem_append, List.mem_cons, not_or]
    exact ⟨⟨by decide, hnames hnd, htail⟩, hsent.2⟩

/-- A place where nothing is, on the way to a place inside, is inside. -/
theorem inside_of_missing {full q : List UInt8} {m : Loc} {nd : Node} (hl : s.fs.node l = some nd)
    (hfull : ∀ t, s.LeadsTo full t → l <:+ t) (hdd : dotdot ∉ components full)
    (hown : OwnPath full q) (hq : q ≠ []) (hm : s.LeadsTo q m) (hnone : s.fs.node m = none) :
    l <:+ m := by
  rcases hown with rfl | ⟨rest, rfl⟩
  · exact hfull m hm
  rw [components_append_slash, List.mem_append, not_or] at hdd
  -- from there on names are all there is to the path
  have hrest := FS.leads_descend hdd.2 (FS.noLinksBelow_of_missing hnone)
  have hin := hfull _ ((Sys.leadsTo_append hq hm).mpr hrest)
  rcases List.suffix_or_suffix_of_suffix hin (FS.suffix_descend m _) with hlm | hml
  · exact hlm
  · by_cases heq : m = l
    · rw [heq, hl] at hnone
      exact absurd hnone (by simp)
    · exact absurd ((FS.node_of_suffix hml heq hl).symm.trans hnone) (by simp)

/-- Where slashes are read for backslashes in `p`, nothing is to be made outside. -/
def SlashesHarmless (s : Sys) (l : Loc) (p : List UInt8) : Prop :=
  backslash ∈ p.drop 1 → ∀ q, OwnPath (slashed p) q → ∀ m, s.LeadsTo q m →
    s.fs.node m ≠ none ∨ l <:+ m

/-- The directories that are made for a path that leads to a place inside. -/
theorem inside_of_mem_mkdirTargets {full p q : List UInt8} {m : Loc} {nd : Node}
    (hl : s.fs.node l = some nd) (hfull : ∀ t, s.LeadsTo full t → l <:+ t)
    (hdd : dotdot ∉ components full) (hlen : full.length < pathMax) (hp : OwnPath full p)
    (hslashes : SlashesHarmless s l p) (hq : q ∈ mkdirTargets p) (hne : q ≠ [])
    (hm : s.LeadsTo q m) (hnone : s.fs.node m = none) : l <:+ m := by
  have hplen : p.length < isrPathMax := by
    rcases hp with rfl | ⟨rest, rfl⟩
    · exact hlen
    · rw [List.length_append] at hlen
      exact Nat.lt_of_le_of_lt (Nat.le_add_right _ _) hlen
  have hown := ownPath_of_mem_mkdirTargets hplen hq
  by_cases hback : backslash ∈ p.drop 1
  · exact (hslashes hback q hown m hm).resolve_left fun h => h hnone
  · rw [slashed_eq hback] at hown
    refine inside_of_missing hl hfull hdd ?_ hne hm hnone
    rcases hp with rfl | ⟨rest, rfl⟩
    · exact hown
    · rcases hown with rfl | ⟨rest', rfl⟩
      · exact Or.inr ⟨rest, rfl⟩
      · exact Or.inr ⟨rest' ++ slash :: rest, by rw [List.append_assoc, List.cons_append]⟩

end Resolved

/-! ## What is asked of the server -/

/-- Files that are opened, directories that are listed and directories that are made are at
`l` or below it. -/
def InRoot (l : Loc) : Guard (NetOp OsOp) World := fun _ w op =>
  match op with
  | .sys (.openRead path) => ∀ k, w.sys.resolve path = some k → l <:+ k
  | .sys (.openWrite path) => ∀ k, w.sys.resolve path = some k → l <:+ k
  | .sys (.opendir path) => ∀ k, w.sys.resolve path = some k → l <:+ k
  | .sys (.mkdir path) => ∀ s', w.sys.mkdir path = (.made, s') →
      ∀ k, w.sys.fs.node k = none → s'.fs.node k ≠ none → l <:+ k
  | _ => True

theorem permits_inRoot (l : Loc) : Permits (InRoot l) :=
  ⟨fun _ _ _ => trivial, fun _ => trivial, fun _ _ _ => trivial, fun _ _ _ _ => trivial,
    fun _ _ => trivial, fun _ _ => trivial, fun _ _ => trivial, fun _ _ => trivial⟩

section Created

variable {l k : Loc}

/-- What one operation adds to the file system is inside. -/
theorem inside_of_step {ρ : Type} {op : NetOp OsOp ρ} {r : ρ} {v : World}
    (hr : machine F lossy eof w op r v) (hop : InRoot l w op) (hold : w.sys.fs.node k = none)
    (hnew : v.sys.fs.node k ≠ none) : l <:+ k := by
  have hsame : v.sys.fs.node k ≠ w.sys.fs.node k := fun h => hnew (h.trans hold)
  cases op with
  | connect => rcases hr with ⟨-, input, rfl⟩ | ⟨-, -, rfl⟩ <;> exact absurd rfl hsame
  | send data => rcases hr with ⟨k, -, -, -, rfl⟩ | ⟨-, -, rfl⟩ <;> exact absurd rfl hsame
  | recv room len => rcases hr with ⟨k, -, -, -, -, rfl⟩ | ⟨-, -, rfl⟩ <;> exact absurd rfl hsame
  | close =>
    obtain rfl : v = w := hr
    exact absurd rfl hsame
  | sys op =>
    obtain ⟨s', hs, rfl⟩ := hr
    change s'.fs.node k ≠ w.sys.fs.node k at hsame
    cases op with
    | mkdir path =>
      rcases hs with hs | ⟨-, -, rfl⟩
      · cases r with
        | made => exact hop s' hs.symm k hold hnew
        | exist =>
          obtain ⟨rfl, -⟩ := Sys.mkdir_exist hs.symm
          exact absurd rfl hsame
        | failed =>
          obtain rfl := Sys.mkdir_failed hs.symm
          exact absurd rfl hsame
      · exact absurd rfl hsame
    | openWrite path =>
      rcases hs with hs | ⟨-, -, rfl⟩
      · cases r with
        | none =>
          have hnone := Sys.openWrite_none (congrArg Prod.fst hs.symm)
          rw [← hs] at hnone
          obtain rfl : s' = w.sys := hnone
          exact absurd rfl hsame
        | some fd =>
          obtain ⟨j, i, hj, hopened⟩ := Sys.opened_of_openWrite hs.symm
          rw [hopened.node] at hsame
          by_cases hkj : k = j
          · exact hkj ▸ hop j hj
          · exact absurd (if_neg hkj) hsame
      · exact absurd rfl hsame
    | openRead path =>
      rcases hs with hs | ⟨-, -, rfl⟩
      · have hfs := Sys.openRead_fs w.sys path
        rw [← hs] at hfs
        exact absurd (congrArg (FS.node · k) hfs) hsame
      · exact absurd rfl hsame
    | read fd len =>
      rcases hs with hs | ⟨-, -, rfl⟩
      · exact absurd (congrArg (FS.node · k) (Sys.onlyRead_of_readStep hs).fs) hsame
      · exact absurd rfl hsame
    | write fd data =>
      rcases hs with ⟨n, -, -, -, rfl⟩ | ⟨-, -, rfl⟩
      · exact absurd (Sys.write_node w.sys fd _ k) hsame
      · exact absurd rfl hsame
    | spin => exact hs.elim
    | close fd =>
      obtain rfl : s' = w.sys := hs
      exact absurd rfl hsame
    | stat path | realpath path | opendir path | malloc size =>
      obtain rfl : s' = w.sys := hs.2
      exact absurd rfl hsame
    | print line | eprint line =>
      rw [show s' = _ from hs] at hsame
      exact absurd rfl hsame

theorem inside_of_reaches {α : Type} {p q : Prog α} {Q : α → World → Prop} {v : World}
    (hr : Reaches (machine F lossy eof) p w q v)
    (h : Ensures (machine F lossy eof) (InRoot l) p Q w) (hold : w.sys.fs.node k = none)
    (hnew : v.sys.fs.node k ≠ none) : l <:+ k := by
  induction hr with
  | refl => exact absurd hold hnew
  | @step ρ op f w u v r q hstep _ ih =>
    by_cases hu : u.sys.fs.node k = none
    · exact ih (h.2 r u hstep) hu hnew
    · exact inside_of_step hstep h.1 hold hu

end Created

/-! ## One request

The path that has been resolved leads inside.  The calls that follow are about it and about the
directories on its way, and the condition says of those that they are inside, too. -/

section Request

variable {L : Lz4} {fuel : Nat} {root path : List UInt8} {l : Loc}

/-- The path whose directories a SEND makes: the whole path, if it asks for a directory, and
what is in front of the last component, if it does not. -/
def madePath (s : Sys) (flags : UInt8) (dir name : List UInt8) : List UInt8 :=
  if hasFlag flags isrFlagCreateDirectory then realized s dir name else (s.realpath dir).getD dir

/-- A SEND comes to `isr_mkdir_recursive`: its path is resolved, and a directory is asked for,
or a file that is accepted. -/
def MakesDirectories (s : Sys) (root : List UInt8) (flags : UInt8) (path : List UInt8) : Prop :=
  (hasFlag flags isrFlagCreateDirectory = true ∧
    ∃ full, resolvedPath s root path isrPathMax = some full) ∨ Accepts s root flags path

/-- What is said of a SEND with a path that is checked. -/
structure HarmlessSend (s : Sys) (root : List UInt8) (l : Loc) (flags : UInt8)
    (path : List UInt8) : Prop where
  aimed : WellAimed s root l path
  slashes : MakesDirectories s root flags path → ∀ dir name,
    Splits (root ++ slash :: path) dir name → SlashesHarmless s l (madePath s flags dir name)

/-- What has been sent of a reply, if nothing has been sent before. -/
theorem Sends.tx_prefix {data : List UInt8} {v : World} (h : Sends lossy w data v)
    (hw : w.tx = []) : v.tx <+: data := by
  have htx : ∀ d, (w.sent d).tx = d := fun d => by rw [Proc.sent_tx, hw, List.nil_append]
  rcases h with rfl | ⟨-, k, -, rfl⟩
  · exact (htx data).symm ▸ List.prefix_rfl
  · exact (htx _).symm ▸ List.take_prefix _ _

/-- A path that leads inside is opened inside, whatever directories have been made since. -/
theorem inside_of_resolve {s s' : Sys} {full : List UInt8} {k : Loc} (hdirs : s.DirsAdded s')
    (hfull : ∀ t, s.LeadsTo full t → l <:+ t) (hk : s'.resolve full = some k) : l <:+ k :=
  hfull k ((Sys.leadsTo_iff_of_grows hdirs.fs.grows hdirs.cwd).mp (Sys.leadsTo_of_resolve hk))

/-- A call of `isr_mkdir_recursive`, in the state in which it comes. -/
theorem mkdir_inRoot {full p q : List UInt8} {ps qs : List (List UInt8)} {s : Sys} {nd : Node}
    (hl : w.sys.fs.node l = some nd) (hfull : ∀ t, w.sys.LeadsTo full t → l <:+ t)
    (hdd : dotdot ∉ components full) (hlen : full.length < pathMax) (hp : OwnPath full p)
    (hslashes : SlashesHarmless w.sys l p) (hps : mkdirTargets p = ps ++ q :: qs)
    (hs : Mkdirs F w.sys ps s) : InRoot l (w.withSys s) (.sys (.mkdir q)) := by
  intro s' hmade k hold hnew
  have hq : q ≠ [] := by
    rintro rfl
    have hfailed : s.mkdir [] = (.failed, s) := rfl
    exact absurd (congrArg Prod.fst (hfailed.symm.trans hmade)) (by simp)
  have hstep : MkdirStep F s q .made s' := Or.inl hmade.symm
  obtain ⟨m, hm, hnone, hnode⟩ := Sys.leadsTo_of_made hmade hstep.dirsAdded
  obtain rfl : k = m := by
    by_contra hne
    exact hnew ((hnode k).trans ((if_neg hne).trans hold))
  refine inside_of_mem_mkdirTargets hl hfull hdd hlen hp hslashes (q := q) ?_ hq ?_ ?_
  · rw [hps]
    exact List.mem_append_right _ List.mem_cons_self
  · exact (Sys.leadsTo_iff_of_grows hs.dirsAdded.fs.grows hs.dirsAdded.cwd).mp hm
  · by_contra hthere
    obtain ⟨nd', hnd'⟩ := Option.ne_none_iff_exists'.mp hthere
    exact absurd ((hs.dirsAdded.fs.grows.keep _ _ hnd').symm.trans hnone) (by simp)

/-- The directory of a path that has been resolved. -/
theorem isrParentDir_realized {s : Sys} {dir name parent : List UInt8} (hname : slash ∉ name)
    (hlen : (realized s dir name).length < pathMax)
    (h : isrParentDir (realized s dir name) isrPathMax = some parent) :
    parent = (s.realpath dir).getD dir := by
  have hmax : isrPathMax = pathMax := rfl
  unfold isrParentDir at h
  rw [List.take_of_length_le (by omega)] at h
  unfold realized at h
  simp only [strrchr_append hname, Option.map_some, List.take_left] at h
  exact (Option.some.inj h).symm

/-- What is resolved has been checked. -/
theorem checked_of_resolvedPath {s : Sys} {full : List UInt8} (hvalid : isrValidatePath path ≠ -1)
    (hfull : resolvedPath s root path isrPathMax = some full) : Checked root path := by
  refine ⟨hvalid, ?_⟩
  by_contra hlong
  exact absurd ((resolvedPath_of_long (Nat.not_lt.mp hlong)).symm.trans hfull) (by simp)

theorem send_inRoot {header : IsrSendCommandHeader} (hroot : Canonical w.sys.fs root l)
    (htx : w.tx = [])
    (h : Checked root path → HarmlessSend w.sys root l header.flags path) :
    Ensures (machine F lossy eof) (InRoot l) (isrReceiveSendCommand L fuel root header path)
      (fun r v => LeadsOut w.sys root l path → r = -1 ∧ v.sys.fs = w.sys.fs ∧
        ∃ message, v.tx <+: refusal message) w := by
  have hP := permits_inRoot l
  refine ensures_isrReceiveSendCommand hP (fun _ _ => trivial)
    (fun _ v hv _ => ⟨rfl, by rw [hv.sys], _, hv.tx_prefix htx⟩)
    (fun _ _ v hv _ => ⟨rfl, by rw [hv.sys], _, hv.tx_prefix htx⟩) fun hvalid full hfull => ?_
  obtain ⟨haimed, hslashes⟩ := h (checked_of_resolvedPath hvalid hfull)
  obtain ⟨dir, name, hsplit, rfl, hlen, hin⟩ := haimed.accepted hroot.path_eq hfull
  have hdd := dotdot_notMem_realized hroot hvalid hsplit
  -- what is accepted does not lead out, so that nothing is asked of the results
  have hno : ∀ {P : Prop}, LeadsOut w.sys root l path → P := by
    rintro P ⟨t, ht, hout⟩
    exact absurd (hin t ((leadsTo_realized hroot.path_eq hsplit).mpr ht)) hout
  have haccept : ∀ present, hasFlag header.flags isrFlagCreateDirectory = false →
      Accepts w.sys root header.flags path →
      AcceptCases F lossy eof (InRoot l) L fuel header (realized w.sys dir name) present
        (fun r v => LeadsOut w.sys root l path → r = -1 ∧ v.sys.fs = w.sys.fs ∧
          ∃ message, v.tx <+: refusal message) w := by
    intro present hflag haccepts
    constructor
    · intro ps q qs s hps hs
      unfold parentTargets at hps
      cases hparent : isrParentDir (realized w.sys dir name) isrPathMax with
      | none =>
        rw [hparent] at hps
        exact absurd hps (by simp)
      | some parent =>
        rw [hparent] at hps
        obtain rfl := isrParentDir_realized hsplit.last hlen hparent
        have hmade : madePath w.sys header.flags dir name = (w.sys.realpath dir).getD dir := by
          rw [madePath, hflag]
          rfl
        exact mkdir_inRoot hroot.dir hin hdd hlen (Or.inr ⟨name, rfl⟩)
          (hmade ▸ hslashes (Or.inr haccepts) dir name hsplit) hps hs
    · exact fun s hs k hk => inside_of_resolve hs.dirsAdded hin hk
    · exact fun _ _ _ _ _ => hno
    · exact fun _ _ _ => hno
    · intro s fd s' _ _
      exact ensures_receiveFile_outline hP (fun _ _ _ _ _ _ => trivial) (fun _ _ => trivial)
        fun _ _ _ _ _ => hno
  constructor
  · intro hflag ps q qs s hps hs
    have hmade : madePath w.sys header.flags dir name = realized w.sys dir name := if_pos hflag
    exact mkdir_inRoot hroot.dir hin hdd hlen (Or.inl rfl)
      (hmade ▸ hslashes (Or.inl ⟨hflag, _, hfull⟩) dir name hsplit) hps hs
  · exact fun _ _ _ _ _ _ _ _ _ _ _ => hno
  · exact fun _ => trivial
  · exact fun _ _ _ _ _ => hno
  · exact fun _ _ _ _ _ _ => hno
  · exact fun hflag hstat => haccept false hflag ⟨hvalid, hflag, _, hfull, Or.inl hstat⟩
  · exact fun hflag size hstat hover =>
      haccept true hflag ⟨hvalid, hflag, _, hfull, Or.inr ⟨hover, size, hstat⟩⟩

theorem recv_inRoot {header : IsrRecvCommandHeader} (hroot : Canonical w.sys.fs root l)
    (htx : w.tx = []) (h : Checked root path → WellAimed w.sys root l path) :
    Ensures (machine F lossy eof) (InRoot l) (isrReceiveRecvCommand L fuel root header path)
      (fun r v => LeadsOut w.sys root l path → r = -1 ∧ v.sys.fs = w.sys.fs ∧
        v.tx <+: confirmation isrResultOtherFailure 0) w := by
  have hP := permits_inRoot l
  have haccepted : isrValidatePath path ≠ -1 → ∀ full,
      resolvedPath w.sys root path isrPathMax = some full →
      (∀ t, w.sys.LeadsTo full t → l <:+ t) ∧ ¬ LeadsOut w.sys root l path := by
    intro hvalid full hfull
    obtain ⟨dir, name, hsplit, rfl, -, hin⟩ :=
      (h (checked_of_resolvedPath hvalid hfull)).accepted hroot.path_eq hfull
    refine ⟨hin, ?_⟩
    rintro ⟨t, ht, hout⟩
    exact hout (hin t ((leadsTo_realized hroot.path_eq hsplit).mpr ht))
  refine ensures_isrReceiveRecvCommand hP (fun _ _ => trivial)
    (fun _ v hv _ => ⟨rfl, by rw [hv.sys], hv.tx_prefix htx⟩) (fun _ _ _ => trivial)
    (fun hvalid full hfull _ _ _ hout => absurd hout (haccepted hvalid full hfull).2)
    (fun hvalid full size hfull _ => ?_) (fun hvalid full size hfull _ => ?_)
  · obtain ⟨hin, hno⟩ := haccepted hvalid full hfull
    refine ensures_isrTransmitRecvDirectoryListing hP ?_
    constructor
    · exact fun k hk => hin k (Sys.leadsTo_of_resolve hk)
    · exact fun _ => trivial
    · exact fun _ hout => absurd hout hno
    · exact fun _ _ _ _ hout => absurd hout hno
    · exact fun _ => trivial
    · exact fun _ _ hout => absurd hout hno
    · exact fun _ _ _ hout => absurd hout hno
    · exact fun _ _ _ _ _ _ _ _ hout => absurd hout hno
    · exact fun _ _ _ _ _ _ hout => absurd hout hno
  · obtain ⟨hin, hno⟩ := haccepted hvalid full hfull
    constructor
    · exact fun _ _ _ hout => absurd hout hno
    · exact trivial
    · exact fun _ hout => absurd hout hno
    · exact fun _ _ hout => absurd hout hno
    · exact fun _ _ _ _ k hk => hin k (Sys.leadsTo_of_resolve hk)
    · exact fun _ _ _ _ _ hout => absurd hout hno
    · intro go rest fd s _ _ _
      exact ensures_transmitFile_outline hP (fun _ _ => trivial) fun _ _ _ _ hout => absurd hout hno

end Request

/-! ## One connection -/

/-- The request on a connection, if there is one, is harmless in the state in which it
arrives. -/
structure Harmless (root : List UInt8) (l : Loc) (s : Sys) (input : List UInt8) : Prop where
  send : input.head? = some isrCommandSend → Checked root (cstr (sendPath input)) →
    HarmlessSend s root l (sendHeader input).flags (cstr (sendPath input))
  recv : input.head? = some isrCommandRecv → Checked root (cstr (recvPath input)) →
    WellAimed s root l (cstr (recvPath input))

/-- A request for a path that leads out has been refused: nothing is returned but failure,
nothing has changed, and what has been sent is the reply that says so, or a beginning of
it. -/
structure RequestsRefused (root : List UInt8) (l : Loc) (s : Sys) (input : List UInt8) (r : Int)
    (v : World) : Prop where
  send : input.head? = some isrCommandSend → LeadsOut s root l (cstr (sendPath input)) →
    r = -1 ∧ v.sys.fs = s.fs ∧ ∃ message, v.tx <+: refusal message
  recv : input.head? = some isrCommandRecv → LeadsOut s root l (cstr (recvPath input)) →
    r = -1 ∧ v.sys.fs = s.fs ∧ v.tx <+: confirmation isrResultOtherFailure 0

section Connection

variable {L : Lz4} {fuel : Nat} {root input : List UInt8} {l : Loc} {s : Sys}

/-- **One connection**, whatever the client sends, and wherever it breaks off. -/
theorem connection_inRoot (hroot : Canonical s.fs root l) (h : Harmless root l s input) :
    Ensures (machine F lossy eof) (InRoot l) (serveConnection L fuel root)
      (RequestsRefused root l s input) (Proc.start s input) := by
  have hP := permits_inRoot l
  -- no request has been read
  have hnone : ∀ k (v : World), v.sys.fs = s.fs → v.tx = ((Proc.start s input).received k).tx →
      RequestsRefused root l s input (-1) v := by
    intro k v hfs htx
    have hnil : v.tx = [] := htx
    exact ⟨fun _ _ => ⟨rfl, hfs, "", hnil ▸ List.nil_prefix⟩,
      fun _ _ => ⟨rfl, hfs, hnil ▸ List.nil_prefix⟩⟩
  refine ensures_serveConnection hP (ensures_isrReceiveCommand hP ?_)
  constructor
  · exact fun _ _ _ _ _ _ _ => trivial
  · exact fun k _ _ _ => hnone k _ rfl rfl
  · exact fun k _ _ _ => hnone k _ rfl rfl
  · exact fun _ _ _ _ _ _ => hnone 1 _ rfl rfl
  · intro hcmd _ _
    have hhead : input.head? = some isrCommandSend := hcmd
    refine (send_inRoot (w := (Proc.start s input).received _) hroot rfl (h.send hhead)).mono ?_
    intro r v hr
    refine ⟨fun _ => hr, fun hrecv => ?_⟩
    rw [hhead] at hrecv
    exact absurd hrecv (by decide)
  · intro hcmd _ _
    have hhead : input.head? = some isrCommandRecv := hcmd
    refine (recv_inRoot (w := (Proc.start s input).received _) hroot rfl (h.recv hhead)).mono ?_
    intro r v hr
    refine ⟨fun hsend => ?_, fun _ => hr⟩
    rw [hhead] at hsend
    exact absurd hsend (by decide)

end Connection

/-! ## A root without links

Here the condition is a matter of bytes: where a path leads is read off its names. -/

/-- The bytes of a component are bytes of the path. -/
theorem mem_of_mem_components {p : List UInt8} {c : Name} {b : UInt8} (hc : c ∈ components p)
    (hb : b ∈ c) : b ∈ p := by
  induction p generalizing c with
  | nil =>
    obtain rfl := List.mem_singleton.mp (show c ∈ [[]] from hc)
    exact hb
  | cons a p ih =>
    rw [components_cons] at hc
    split at hc
    · rcases List.mem_cons.mp hc with rfl | hc
      · exact absurd hb List.not_mem_nil
      · exact List.mem_cons_of_mem a (ih hc hb)
    · obtain ⟨hd, tl, hcomp⟩ := List.exists_cons_of_ne_nil (components_ne_nil p)
      rw [hcomp, List.modifyHead_cons] at hc
      rcases List.mem_cons.mp hc with rfl | hc
      · rcases List.mem_cons.mp hb with rfl | hb
        · exact List.mem_cons_self
        · exact List.mem_cons_of_mem a (ih (hcomp ▸ List.mem_cons_self) hb)
      · exact List.mem_cons_of_mem a (ih (hcomp ▸ List.mem_cons_of_mem hd hc) hb)

/-- The bytes of a real path are slashes and the bytes of the names. -/
theorem mem_render {l : Loc} {b : UInt8} (hb : b ∈ render l) : b = slash ∨ ∃ n ∈ l, b ∈ n := by
  have hnames : ∀ {l : Loc}, b ∈ renderNames l → b = slash ∨ ∃ n ∈ l, b ∈ n := by
    intro l
    induction l with
    | nil => exact fun h => absurd h List.not_mem_nil
    | cons n l ih =>
      intro h
      rw [renderNames, List.mem_append, List.mem_cons] at h
      rcases h with h | h | h
      · rcases ih h with hslash | ⟨m, hm, hbm⟩
        · exact Or.inl hslash
        · exact Or.inr ⟨m, List.mem_cons_of_mem n hm, hbm⟩
      · exact Or.inl h
      · exact Or.inr ⟨n, List.mem_cons_self, h⟩
  unfold render at hb
  split at hb
  · exact Or.inl (List.mem_singleton.mp hb)
  · exact hnames hb

section NoLinks

variable {root relative : List UInt8} {l t : Loc} {s : Sys}

/-- Without links the path of a request leads where its names say. -/
theorem leadsTo_sent (hroot : Canonical s.fs root l) (hlinks : s.fs.NoLinksBelow l)
    (hvalid : isrValidatePath relative ≠ -1) (ht : s.LeadsTo (root ++ slash :: relative) t) :
    l <:+ t := by
  obtain ⟨hcont, hdd, -⟩ := continues_sent hroot (dotdot_notMem_of_valid hvalid)
  have hstart : startOf (root ++ slash :: relative) s.cwd = [] := by
    refine startOf_of_root (l := l) s.cwd ?_
    rw [← hroot.path_eq]
    exact List.prefix_append _ _
  unfold Sys.LeadsTo at ht
  rw [hstart, hcont.1, FS.leads_stays (Or.inl rfl),
    FS.leads_append (FS.leads_real hroot.dir)] at ht
  rw [ht.unique (FS.leads_descend hdd hlinks)]
  exact FS.suffix_descend l _

/-- The real path of the directory is made of the names that have been sent. -/
theorem wellAimed_of_noLinks (hroot : Canonical s.fs root l) (hlinks : s.fs.NoLinksBelow l)
    (hchecked : Checked root relative) : WellAimed s root l relative ∧
      ∀ dir name, Splits (root ++ slash :: relative) dir name →
        backslash ∉ root ++ slash :: relative → backslash ∉ realized s dir name := by
  obtain ⟨hvalid, hlen⟩ := hchecked
  have hreal : ∀ {dir name rp}, Splits (root ++ slash :: relative) dir name →
      s.realpath dir = some rp → rp.length ≤ dir.length ∧
        (backslash ∉ root ++ slash :: relative → backslash ∉ rp) := by
    intro dir name rp hsplit hrp
    obtain ⟨hcont, hdd, -⟩ := continues_sent hroot (dotdot_notMem_of_valid hvalid)
    have hne : realTail l ++ components relative ≠ [] := fun hnil =>
      components_ne_nil relative (List.append_eq_nil_iff.mp hnil).2
    rw [hsplit.eq] at hcont
    obtain ⟨ds, hds, hparent⟩ := Continues.parent hsplit.last hne hcont
    rw [hds, List.mem_append, not_or] at hdd
    obtain ⟨-, hrender, hle, -⟩ :=
      continues_real hlinks hroot.dir hsplit.last hdd.1 hparent hrp
    refine ⟨hle, fun hback hmem => hback ?_⟩
    rw [hrender] at hmem
    rcases mem_render hmem with hslash | ⟨n, hn, hbn⟩
    · exact absurd hslash (by decide)
    · -- every name comes from the root or from the request
      refine mem_of_mem_components (c := n) ?_ hbn
      rw [hsplit.eq, components_append_slash, hparent]
      refine List.mem_append_left _ (List.mem_cons_of_mem _ ?_)
      rw [List.mem_append, List.mem_reverse]
      rcases List.mem_append.mp hn with hn | hn
      · exact Or.inr (List.mem_of_mem_filter (List.mem_reverse.mp hn))
      · exact Or.inl hn
  refine ⟨⟨fun dir name rp hsplit hrp _ => ?_, fun t ht hout => ?_⟩,
    fun dir name hsplit hback => ?_⟩
  · have hle := (hreal hsplit hrp).1
    rw [hsplit.eq, List.length_append, List.length_cons] at hlen
    omega
  · exact absurd (leadsTo_sent hroot hlinks hvalid ht) hout
  · unfold realized
    have hsent := hback
    rw [hsplit.eq, List.mem_append, not_or] at hsent
    rw [List.mem_append, not_or]
    refine ⟨?_, hsent.2⟩
    cases hrp : s.realpath dir with
    | none => exact hsent.1
    | some rp => exact (hreal hsplit hrp).2 hback

/-- **Under a root without links** every request is harmless that has no backslash, if the
root has none either. -/
theorem harmless_of_noLinks {input : List UInt8} (hroot : Canonical s.fs root l)
    (hlinks : s.fs.NoLinksBelow l) (hback : backslash ∉ root)
    (hinput : backslash ∉ cstr (sendPath input)) : Harmless root l s input := by
  refine ⟨fun _ hchecked => ?_, fun _ hchecked => (wellAimed_of_noLinks hroot hlinks hchecked).1⟩
  obtain ⟨haimed, hreal⟩ := wellAimed_of_noLinks hroot hlinks hchecked
  have hsent : backslash ∉ root ++ slash :: cstr (sendPath input) := by
    rw [List.mem_append, List.mem_cons, not_or, not_or]
    exact ⟨hback, by decide, hinput⟩
  refine ⟨haimed, fun _ dir name hsplit hin => absurd (List.mem_of_mem_drop hin) ?_⟩
  have hfull := hreal dir name hsplit hsent
  unfold madePath
  split
  · exact hfull
  · exact fun hmem => hfull (List.mem_append_left _ hmem)

end NoLinks

/-! ## Runs -/

/-- Runs of the server in which every request satisfies `C`, in the state in which it
arrives. -/
inductive RunWith (C : Sys → List UInt8 → Prop) (F : Faults) (L : Lz4) (root : List UInt8) :
    Sys → List (List UInt8) → Sys → Prop where
  | nil (s : Sys) : RunWith C F L root s [] s
  | cons {s s' : Sys} {input : List UInt8} {inputs : List (List UInt8)} {fuel : Nat} {r : Int}
      {v : World} :
      C s input → Reaches (machine F true true) (serveConnection L fuel root)
        (Proc.start s input) (.ret r) v →
      RunWith C F L root v.sys inputs s' → RunWith C F L root s (input :: inputs) s'

/-- In runs from `s` whose requests satisfy `C` the server stays at `l` and below it. -/
structure StaysInRoot (C : Sys → List UInt8 → Prop) (F : Faults) (L : Lz4) (root : List UInt8)
    (l : Loc) (s : Sys) : Prop where
  /-- What there is after some requests, and was not there before. -/
  created : ∀ inputs s', RunWith C F L root s inputs s' → ∀ k, s.fs.node k = none →
    s'.fs.node k ≠ none → l <:+ k
  /-- What is done for the next one, at any point, and how it ends. -/
  next : ∀ inputs s' fuel input q v, RunWith C F L root s inputs s' → C s' input →
    Reaches (machine F true true) (serveConnection L fuel root) (Proc.start s' input) q v →
    Here (InRoot l) (RequestsRefused root l s' input) q v

section Runs

variable {C : Sys → List UInt8 → Prop} {L : Lz4} {root : List UInt8} {l : Loc} {s s' : Sys}
  {inputs : List (List UInt8)}

theorem RunWith.grows (h : RunWith C F L root s inputs s') : s.fs.Grows s'.fs := by
  induction h with
  | nil => exact FS.Grows.refl _
  | cons _ hrun _ ih => exact FS.Grows.trans (grows_of_reaches hrun) ih

theorem ServerRun.runWith {input : List UInt8} (h : ServerRun F L root s [input] s')
    (hC : C s input) : RunWith C F L root s [input] s' := by
  cases h with
  | cons hrun hrest =>
    cases hrest
    exact .cons hC hrun (.nil _)

theorem RunWith.inside (h : RunWith (Harmless root l) F L root s inputs s')
    (hroot : Canonical s.fs root l) {k : Loc} (hold : s.fs.node k = none)
    (hnew : s'.fs.node k ≠ none) : l <:+ k := by
  induction h with
  | nil => exact absurd hold hnew
  | @cons s s' input inputs fuel r v hinput hrun hrest ih =>
    by_cases hv : v.sys.fs.node k = none
    · exact ih (hroot.grows (grows_of_reaches hrun)) hv hnew
    · exact inside_of_reaches hrun (connection_inRoot hroot hinput) hold hv

/-- **The jail of the server**, in every run in which all requests are harmless in the state
in which they arrive. -/
theorem staysInRoot_of_harmless (F : Faults) (L : Lz4) {root : List UInt8} {l : Loc} {s : Sys}
    (hroot : Canonical s.fs root l) : StaysInRoot (Harmless root l) F L root l s where
  created _ _ hrun _ hold hnew := hrun.inside hroot hold hnew
  next _ _ _ _ _ _ hrun hinput hreach :=
    ((connection_inRoot (hroot.grows hrun.grows) hinput).of_reaches hreach).here

end Runs

/-! ## With links -/

/-- Put a link at a place. -/
def makeLink (fs : FS) (l : Loc) (t : List UInt8) : FS :=
  if h : fs.Insertable l (.link t) fs.fresh then fs.insert l (.link t) fs.fresh h else fs

/-- A file is sent to `/r/x`, where `/r` is the root and `x` is a link to `f` beside it. -/
theorem staysInRoot_of_harmless_link : ∃ s',
    RunWith (Harmless [slash, 0x72] [[0x72]]) Faults.none shortLz4 [slash, 0x72]
      (.initial (makeLink (FS.empty.makeDir [[0x72]]) [[0x78], [0x72]] [0x66]))
      [sendCommandBytes [0x78] 0 1 1 ++ plainStream [7]] s' ∧
    s'.fs.contents [[0x66], [0x72]] = some [7] ∧ ([[0x72]] : Loc) <:+ [[0x66], [0x72]] := by
  have hsplit : Splits [slash, 0x72, slash, 0x78] [slash, 0x72] [0x78] := ⟨rfl, by decide⟩
  have hpath : cstr (sendPath (sendCommandBytes [0x78] 0 1 1 ++ plainStream [7])) = [0x78] := by
    decide +kernel
  have hreal : (Sys.initial (makeLink (FS.empty.makeDir [[0x72]]) [[0x78], [0x72]] [0x66])).realpath
      [slash, 0x72] = some [slash, 0x72] := by decide +kernel
  have hleads : (Sys.initial (makeLink (FS.empty.makeDir [[0x72]]) [[0x78], [0x72]] [0x66])).LeadsTo
      [slash, 0x72, slash, 0x78] [[0x66], [0x72]] :=
    Sys.leadsTo_of_resolve (by decide +kernel)
  have hharmless : Harmless [slash, 0x72] [[0x72]]
      (.initial (makeLink (FS.empty.makeDir [[0x72]]) [[0x78], [0x72]] [0x66]))
      (sendCommandBytes [0x78] 0 1 1 ++ plainStream [7]) := by
    refine ⟨fun _ _ => ?_, fun hhead => absurd hhead (by decide)⟩
    rw [hpath]
    refine ⟨⟨fun dir name rp hs hrp _ => ?_, fun t ht hout => ?_⟩,
      fun _ dir name hs hback => ?_⟩
    · obtain ⟨rfl, rfl⟩ := hsplit.unique hs
      obtain rfl := Option.some.inj (hreal.symm.trans hrp)
      decide
    · exact absurd (hleads.unique ht ▸ ⟨[[0x66]], rfl⟩) hout
    · obtain ⟨rfl, rfl⟩ := hsplit.unique hs
      exact absurd hback (by decide +kernel)
  obtain ⟨s', hs', hfile⟩ := Option.map_eq_some_iff.mp
    (show ((serveAll shortLz4 1 [slash, 0x72] (.initial
        (makeLink (FS.empty.makeDir [[0x72]]) [[0x78], [0x72]] [0x66]))
        [sendCommandBytes [0x78] 0 1 1 ++ plainStream [7]]).map fun s' =>
          s'.fs.contents [[0x66], [0x72]]) = some (some [7]) by decide +kernel)
  have hrun := (serverRun_of_serveAll (F := Faults.none) hs').runWith hharmless
  have hkept := @staysInRoot_of_harmless Faults.none shortLz4 [slash, 0x72] [[0x72]]
    (.initial (makeLink (FS.empty.makeDir [[0x72]]) [[0x78], [0x72]] [0x66]))
    ⟨rfl, by decide +kernel, by decide⟩
  refine ⟨s', hrun, hfile, hkept.created _ _ hrun _ (by decide +kernel) fun hnone => ?_⟩
  obtain ⟨i, hi, -⟩ := FS.contents_eq_some.mp hfile
  exact absurd (hi.symm.trans hnone) (by simp)

/-- A request after which something new stands outside. -/
theorem not_staysInRoot {fs : FS} {root : List UInt8} {l : Loc} (input : List UInt8) (k : Loc)
    (hout : ¬ l <:+ k) (hold : fs.node k = none)
    (hrun : ((serveAll shortLz4 1 root (.initial fs) [input]).map fun s' =>
      (s'.fs.node k).isSome) = some true) :
    ¬ StaysInRoot (fun _ _ => True) Faults.none shortLz4 root l (.initial fs) := by
  intro h
  obtain ⟨s', hs', hnew⟩ := Option.map_eq_some_iff.mp hrun
  have hrun' := (serverRun_of_serveAll (F := Faults.none) hs').runWith
    (C := fun _ _ => True) trivial
  refine hout (h.created _ _ hrun' k hold fun hnone => ?_)
  rw [hnone] at hnew
  exact absurd hnew (by simp)

/-- **The root is left** in each of these ways: the last component is a link to `/o`; `x` is a
link to the sibling `/rb` of the root; nothing stands at `x/d`, and `x` is a link to `/o`; and
the root is called `a\b`. -/
theorem staysInRoot_left :
    ¬ StaysInRoot (fun _ _ => True) Faults.none shortLz4 [slash, 0x72] [[0x72]]
      (.initial (makeLink (FS.empty.makeDir [[0x72]]) [[0x78], [0x72]] [slash, 0x6F])) ∧
    ¬ StaysInRoot (fun _ _ => True) Faults.none shortLz4 [slash, 0x72] [[0x72]]
      (.initial (makeLink ((FS.empty.makeDir [[0x72]]).makeDir [[0x72, 0x62]])
        [[0x78], [0x72]] [slash, 0x72, 0x62])) ∧
    ¬ StaysInRoot (fun _ _ => True) Faults.none shortLz4 [slash, 0x72] [[0x72]]
      (.initial (makeLink ((FS.empty.makeDir [[0x72]]).makeDir [[0x6F]])
        [[0x78], [0x72]] [slash, 0x6F])) ∧
    ¬ StaysInRoot (fun _ _ => True) Faults.none shortLz4 [slash, 0x61, backslash, 0x62]
      [[0x61, backslash, 0x62]] (.initial (FS.empty.makeDir [[0x61, backslash, 0x62]])) := by
  refine ⟨?_, ?_, ?_, ?_⟩
  · exact not_staysInRoot (sendCommandBytes [0x78] 0 1 1 ++ plainStream [7]) [[0x6F]]
      (by decide) (by decide +kernel) (by decide +kernel)
  · exact not_staysInRoot (sendCommandBytes [0x78, slash, 0x66] 0 1 1 ++ plainStream [7])
      [[0x66], [0x72, 0x62]] (by decide) (by decide +kernel) (by decide +kernel)
  · exact not_staysInRoot (sendCommandBytes [0x78, slash, 0x64, slash, 0x66] 0 1 1 ++
      plainStream [7]) [[0x64], [0x6F]] (by decide) (by decide +kernel) (by decide +kernel)
  · exact not_staysInRoot (sendCommandBytes [0x66] 0 1 1 ++ plainStream [7]) [[0x61]]
      (by decide) (by decide +kernel) (by decide +kernel)

end IsrTransfer
