import Mathlib.Data.List.Chain
import Mathlib.Data.List.Perm.Subperm
import Stencil.Proofs.Visits

/-!
# Cycles are reported, and what is reported are cycles

The files of a shelf and their links are a graph: there is an edge from a file to the
canonical path of each of its links that leads to a file. Extraction walks this graph
from the root, and a trail is a simple path in it.

A reported chain is the end of a trail, from the file that the link leads back to,
and that file again; the last edge is the link itself. This is kept along every link,
whatever the files write.

The other way round, suppose no cycle is reported. A file at the end of a trail has
all its links followed. None of them leads back into the trail, none is too deep,
because a trail that does not repeat a file is no longer than the shelf, and none is
called off; so the link's file is assembled at the end of a longer trail. Every walk
from the root is a trail in this way, and a trail goes through no file twice.
-/

namespace Stencil

open Relation

theorem transGen_of_isChain {α : Type u} {R : α → α → Prop} {a b : α} (l : List α)
    (h : List.IsChain R (a :: l ++ [b])) : TransGen R a b := by
  induction l generalizing a with
  | nil => exact .single (by simpa using h)
  | cons c rest ih =>
      obtain ⟨hfirst, hrest⟩ := List.isChain_cons_cons.mp h
      exact .head hfirst (ih hrest)

namespace Shelf

/-- Whether a file can be scanned and has a link to an existing file with the given canonical
path. -/
def Edge (S : Shelf) (o : Options) (p q : Path) : Prop :=
  ∃ text link, S.read p = .ok text ∧ (Scan.ofText text).error = none ∧
    (∃ t ∈ (Scan.ofText text).tokens, t.content = .link link) ∧
    S.canonicalize ((S.setting o).targetOf p link) = .ok q

/-- Whether a chain is a simple cycle among the files that can be reached from a file. -/
structure CycleFrom (S : Shelf) (o : Options) (start : Path) (chain : List Path) : Prop where
  closed : ∃ p between, chain = p :: between ++ [p] ∧ (p :: between).Nodup
  edges : chain.IsChain (S.Edge o)
  reached : ∀ p ∈ chain, ReflTransGen (S.Edge o) start p

variable {S : Shelf} {o : Options} {root start : Path} {depth : Nat} {trail : List Path}
  {path referrer : Path} {text : String} {w : Watch} {d : Directive} {link : Link}

theorem edge_of_linkIn (hread : S.read referrer = .ok text) (hlink : Setting.LinkIn text d link)
    (hcanon : S.canonicalize ((S.setting o).targetOf referrer link) = .ok path) :
    S.Edge o referrer path :=
  ⟨text, link, hread, hlink.1, Directive.exists_link_iff.mp ⟨d, hlink.2⟩, hcanon⟩

/-! ## Reported chains are cycles -/

/-- Whether a trail is a simple path of the graph from the start to a file. -/
structure TrailTo (S : Shelf) (o : Options) (start : Path) (trail : List Path) (last : Path) :
    Prop where
  last : trail.getLast? = some last
  nodup : trail.Nodup
  edges : trail.IsChain (S.Edge o)
  reached : ∀ p ∈ trail, ReflTransGen (S.Edge o) start p

theorem TrailTo.mem (h : S.TrailTo o start trail path) : path ∈ trail := List.mem_of_getLast? h.last

theorem TrailTo.single (S : Shelf) (o : Options) (start : Path) : S.TrailTo o start [start] start :=
  ⟨rfl, by simp, by simp, fun p hp => by rw [List.mem_singleton.mp hp]⟩

theorem TrailTo.isChain_append (h : S.TrailTo o start trail referrer)
    (hedge : S.Edge o referrer path) : (trail ++ [path]).IsChain (S.Edge o) := by
  refine h.edges.append (by simp) fun p hp q hq => ?_
  rw [h.last] at hp
  cases hp
  cases hq
  exact hedge

theorem TrailTo.reaches (h : S.TrailTo o start trail referrer) (hedge : S.Edge o referrer path) :
    ∀ p ∈ trail ++ [path], ReflTransGen (S.Edge o) start p := by
  intro p hp
  rcases List.mem_append.mp hp with hp | hp
  · exact h.reached p hp
  · rw [List.mem_singleton.mp hp]
    exact (h.reached referrer h.mem).tail hedge

theorem TrailTo.append (h : S.TrailTo o start trail referrer) (hedge : S.Edge o referrer path)
    (hmem : path ∉ trail) : S.TrailTo o start (trail ++ [path]) path :=
  ⟨by simp, List.nodup_append.mpr ⟨h.nodup, by simp, fun p hp q hq heq => by
      rw [List.mem_singleton.mp hq] at heq; exact hmem (heq ▸ hp)⟩,
    h.isChain_append hedge, h.reaches hedge⟩

/-- The end of a trail from a file that its last file links to, and that file again. -/
theorem TrailTo.cycleFrom (h : S.TrailTo o start trail referrer) (hedge : S.Edge o referrer path)
    (hmem : path ∈ trail) : S.CycleFrom o start (Setting.cycle trail path) := by
  obtain ⟨before, between, rfl⟩ := List.append_of_mem hmem
  have hnodup := List.nodup_append.mp h.nodup
  have hbefore : ∀ p ∈ before, (p != path) = true := by
    intro p hp
    rw [bne_iff_ne]
    exact hnodup.2.2 p hp path (by simp)
  have hcycle : Setting.cycle (before ++ path :: between) path = path :: between ++ [path] := by
    rw [Setting.cycle, List.dropWhile_append_of_pos hbefore, List.dropWhile_cons_of_neg (by simp)]
  have hsplit : before ++ path :: between ++ [path] = before ++ (path :: between ++ [path]) := by
    simp
  rw [hcycle]
  refine ⟨⟨path, between, rfl, hnodup.2.1⟩, ?_, fun p hp => ?_⟩
  · exact (hsplit ▸ h.isChain_append hedge).right_of_append
  · exact h.reaches hedge p (hsplit ▸ List.mem_append_right _ hp)

/-- Whether all cycles reported in a ledger are cycles. -/
def Sound (S : Shelf) (o : Options) (start : Path) (l : Ledger) : Prop :=
  ∀ p ∈ l.problems, ∀ chain, p.cause = .importCycle chain → S.CycleFrom o start chain

theorem Sound.append {a b : Ledger} (ha : S.Sound o start a) (hb : S.Sound o start b) :
    S.Sound o start (a ++ b) := fun p hp => (List.mem_append.mp hp).elim (ha p) (hb p)

theorem kept_sound (S : Shelf) (o : Options) (start : Path) :
    S.Kept o
      (fun trail referrer d link => S.TrailTo o start trail referrer ∧
        ∃ text, S.read referrer = .ok text ∧ Setting.LinkIn text d link)
      (fun _ => S.Sound o start) := by
  refine ⟨fun _ => ⟨fun hplain p hp chain hcause => ?_, .append⟩, ?_, ?_, ?_⟩
  · rcases hplain.problems p hp with h | h <;> rw [Problem.kind, hcause] at h <;> cases h
  · rintro trail referrer d link path text e next ⟨htrail, text', hread', hlink⟩ hcanon hmem hread
      hnext
    exact ⟨htrail.append (edge_of_linkIn hread' hlink hcanon) hmem, text, hread, hnext⟩
  · rintro trail referrer d link w out ⟨htrail, text, hread, hlink⟩ hend
    refine .append (fun p hp => absurd hp List.not_mem_nil) ?_
    intro p hp chain hcause
    cases hend with
    | unresolved => rw [List.mem_singleton.mp hp] at hcause; cases hcause
    | recursive => cases hp
    | cycle path hcanon hmem =>
        rw [List.mem_singleton.mp hp] at hcause
        cases hcause
        exact htrail.cycleFrom (edge_of_linkIn hread hlink hcanon) hmem
    | tooDeep => rw [List.mem_singleton.mp hp] at hcause; cases hcause
  · intro trail referrer d link path text assembled l _ _ _ _ hl
    exact .append (fun p hp => absurd hp List.not_mem_nil) hl

/-! ## Cycles are reported -/

/-- A file that is assembled is on the shelf under its canonical path. -/
theorem read_of_assembles (h : (S.setting o).Assembles root none depth trail path text w) :
    S.read path = .ok text ∧ S.canonicalize path = .ok path := by
  cases h with
  | root h =>
      cases h with
      | file hcanon hread => exact ⟨hread, (canonicalize_canonical hcanon).1⟩
  | link h hfollows hcanon hmem hraised hread => exact ⟨hread, (canonicalize_canonical hcanon).1⟩

theorem mem_keys_of_canonicalize (h : S.canonicalize path = .ok path) :
    path ∈ Assoc.keys S.files := by
  obtain ⟨⟨text, hread⟩, hnormal⟩ := canonicalize_eq_ok_iff.mp h
  rw [read, ← hnormal] at hread
  by_contra hkeys
  rw [(Assoc.find?_eq_none_iff path S.files).mpr hkeys] at hread
  cases hread

/-- The trail of a file that is assembled ends in that file and goes through files of the shelf,
through none of them twice. -/
theorem trail_of_assembles (h : (S.setting o).Assembles root none depth trail path text w) :
    path ∈ trail ∧ trail.Nodup ∧ ∀ p ∈ trail, p ∈ Assoc.keys S.files := by
  have hpath := mem_keys_of_canonicalize (read_of_assembles h).2
  induction h with
  | root h =>
      refine ⟨by simp, by simp, fun p hp => ?_⟩
      rw [List.mem_singleton.mp hp]
      exact hpath
  | link h hfollows hcanon hmem hraised hread ih =>
      obtain ⟨-, hnodup, hkeys⟩ := ih (mem_keys_of_canonicalize (read_of_assembles h).2)
      refine ⟨by simp, List.nodup_append.mpr ⟨hnodup, by simp, fun p hp q hq heq => ?_⟩,
        fun p hp => ?_⟩
      · rw [List.mem_singleton.mp hq] at heq
        exact hmem (heq ▸ hp)
      · rcases List.mem_append.mp hp with hp | hp
        · exact hkeys p hp
        · rw [List.mem_singleton.mp hp]
          exact hpath

/-- With a limit that the shelf does not exceed there is depth left at the end of every trail. -/
theorem exists_depth_of_assembles (hfiles : S.files.length ≤ o.maxImportDepth)
    (h : (S.setting o).Assembles root none depth trail path text w) : ∃ n, depth = n + 1 := by
  obtain ⟨-, hnodup, hkeys⟩ := trail_of_assembles h
  have hlength : trail.length ≤ S.files.length := by
    have := (List.subperm_of_subset hnodup hkeys).length_le
    rwa [Assoc.keys, List.length_map] at this
  have hsum : depth + trail.length = o.maxImportDepth + 1 := h.depth_add_length
  exact ⟨depth - 1, by omega⟩

/-- Whether an extraction reports a cycle. -/
def ReportsCycle (S : Shelf) (o : Options) (root : Path) : Prop :=
  ∃ p ∈ (Extraction.run (S.setting o) root none).problems, p.isImportCycle = true

/-- The link behind an edge from a file that is assembled is followed. -/
theorem exists_follows_of_edge (h : (S.setting o).Assembles root none depth trail referrer text w)
    (hedge : S.Edge o referrer path) :
    ∃ d link w', (S.setting o).Follows depth trail referrer text w d link w' ∧
      S.canonicalize ((S.setting o).targetOf referrer link) = .ok path ∧ w'.raised = false := by
  obtain ⟨text', link, hread', herror, htoken, hcanon⟩ := hedge
  obtain rfl : text = text' := by
    have := (read_of_assembles h).1.symm.trans hread'
    cases this
    rfl
  have hlink : ∃ d ∈ Directive.ofTokens 0 (Scan.ofText text).tokens, d.meaning = .link link :=
    Directive.exists_link_iff.mpr htoken
  obtain ⟨d, hd, hmeaning⟩ := hlink
  obtain ⟨w', hfollows⟩ := Setting.exists_follows (s := S.setting o) ⟨herror, hd, hmeaning⟩
    depth trail referrer w
  exact ⟨d, link, w', hfollows, hcanon,
    (calm_of_follows hfollows (calm_of_assembles h)).raised⟩

/-- Where no cycle is reported, every edge from a file that is assembled leads to one that is
assembled at the end of a longer trail. -/
theorem assembles_of_edge (hallow : o.allowRecursiveImports = false)
    (hfiles : S.files.length ≤ o.maxImportDepth) (hquiet : ¬ S.ReportsCycle o root)
    (h : (S.setting o).Assembles root none depth trail referrer text w)
    (hedge : S.Edge o referrer path) :
    ∃ n next w', (S.setting o).Assembles root none n (trail ++ [path]) path next w' := by
  obtain ⟨n, rfl⟩ := exists_depth_of_assembles hfiles h
  obtain ⟨d, link, w', hfollows, hcanon, hraised⟩ := exists_follows_of_edge h hedge
  have hmem : path ∉ trail := by
    intro hmem
    refine hquiet ⟨.ofLocation (.importCycle (Setting.cycle trail path)) referrer d.range.first,
      (hfollows.part.trans h.part).mem_problems ?_, rfl⟩
    rw [Setting.follow_apply, Setting.enter_cycle (s := S.setting o) hcanon hmem hallow]
    exact List.mem_singleton_self _
  obtain ⟨next, hread⟩ := exists_read_of_canonicalize hcanon
  exact ⟨n, next, _, .link h hfollows hcanon hmem hraised hread⟩

/-- Where no cycle is reported, every walk from a file that is assembled makes its trail longer. -/
theorem assembles_of_walk (hallow : o.allowRecursiveImports = false)
    (hfiles : S.files.length ≤ o.maxImportDepth) (hquiet : ¬ S.ReportsCycle o root)
    (h : (S.setting o).Assembles root none depth trail referrer text w)
    (hwalk : TransGen (S.Edge o) referrer path) :
    ∃ more n next w',
      (S.setting o).Assembles root none n (trail ++ more ++ [path]) path next w' := by
  induction hwalk with
  | single hedge =>
      obtain ⟨n, next, w', h'⟩ := assembles_of_edge hallow hfiles hquiet h hedge
      exact ⟨[], n, next, w', by simpa using h'⟩
  | tail _ hedge ih =>
      obtain ⟨more, n, next, w', h'⟩ := ih
      obtain ⟨n', next', w'', h''⟩ := assembles_of_edge hallow hfiles hquiet h' hedge
      exact ⟨more ++ [_], n', next', w'', by simpa using h''⟩

theorem not_walk_of_quiet (hallow : o.allowRecursiveImports = false)
    (hfiles : S.files.length ≤ o.maxImportDepth) (hquiet : ¬ S.ReportsCycle o root)
    (h : (S.setting o).Assembles root none depth trail path text w) :
    ¬ TransGen (S.Edge o) path path := by
  intro hwalk
  obtain ⟨more, n, next, w', h'⟩ := assembles_of_walk hallow hfiles hquiet h hwalk
  obtain ⟨-, hnodup, -⟩ := trail_of_assembles h'
  have hmem : path ∈ trail ++ more := List.mem_append_left _ (trail_of_assembles h).1
  exact (List.nodup_append.mp hnodup).2.2 path hmem path (by simp) rfl

/-- An extraction from a root on the shelf, with a limit that the shelf does not exceed, reports a
cycle exactly if one can be reached from the root, and every chain that it reports is one. -/
theorem reportsCycle_iff (hroot : S.canonicalize (o.placeOf root) = .ok start)
    (hallow : o.allowRecursiveImports = false) (hfiles : S.files.length ≤ o.maxImportDepth) :
    (S.ReportsCycle o root ↔
      ∃ p, ReflTransGen (S.Edge o) start p ∧ TransGen (S.Edge o) p p) ∧
    ∀ p ∈ (Extraction.run (S.setting o) root none).problems, ∀ chain,
      p.cause = .importCycle chain → S.CycleFrom o start chain := by
  obtain ⟨text, hread⟩ := exists_read_of_canonicalize hroot
  have hopens : (S.setting o).Opens root none start text _ := .file hroot hread
  have hsound : S.Sound o start (Extraction.run (S.setting o) root none).ledger :=
    (kept_sound S o start).ledger_run hopens fun d link hlink =>
      ⟨.single S o start, text, hread, hlink⟩
  refine ⟨⟨?_, ?_⟩, hsound⟩
  · rintro ⟨p, hp, hcycle⟩
    unfold Problem.isImportCycle at hcycle
    split at hcycle
    · next chain hcause =>
        obtain ⟨⟨q, between, rfl, -⟩, hedges, hreached⟩ := hsound p hp chain hcause
        exact ⟨q, hreached q (by simp), transGen_of_isChain between hedges⟩
    · cases hcycle
  · rintro ⟨p, hreach, hwalk⟩
    by_contra hquiet
    rcases reflTransGen_iff_eq_or_transGen.mp hreach with rfl | hreach
    · exact not_walk_of_quiet hallow hfiles hquiet (.root hopens) hwalk
    · obtain ⟨more, n, next, w', h⟩ := assembles_of_walk hallow hfiles hquiet (.root hopens) hreach
      exact not_walk_of_quiet hallow hfiles hquiet h hwalk

/-- Two files that import each other. -/
def ring : Shelf := ⟨[(⟨"/a.tmpl"⟩, "// [R](r)"), (⟨"/r.tmpl"⟩, "// [A](a)")]⟩

theorem reportsCycle_iff_ring :
    let o := Options.standard ⟨"/"⟩
    let chain : List Path := [⟨"/r.tmpl"⟩, ⟨"/a.tmpl"⟩, ⟨"/r.tmpl"⟩]
    ring.canonicalize (o.placeOf ⟨"r.tmpl"⟩) = .ok ⟨"/r.tmpl"⟩ ∧ o.allowRecursiveImports = false ∧
      ring.files.length ≤ o.maxImportDepth ∧ ring.ReportsCycle o ⟨"r.tmpl"⟩ ∧
      (∃ p, ReflTransGen (ring.Edge o) ⟨"/r.tmpl"⟩ p ∧ TransGen (ring.Edge o) p p) ∧
      ring.CycleFrom o ⟨"/r.tmpl"⟩ chain := by
  intro o chain
  have hroot : ring.canonicalize (o.placeOf ⟨"r.tmpl"⟩) = .ok ⟨"/r.tmpl"⟩ := by decide +kernel
  have hfiles : ring.files.length ≤ o.maxImportDepth := by decide
  have hreports : ring.ReportsCycle o ⟨"r.tmpl"⟩ := by
    unfold ReportsCycle
    decide +kernel
  have hchain : ∃ p ∈ (Extraction.run (ring.setting o) ⟨"r.tmpl"⟩ none).problems,
      p.cause = .importCycle chain := by decide +kernel
  obtain ⟨p, hp, hcause⟩ := hchain
  obtain ⟨hiff, hcycles⟩ := reportsCycle_iff hroot rfl hfiles
  exact ⟨hroot, rfl, hfiles, hreports, hiff.mp hreports, hcycles p hp chain hcause⟩

end Shelf

end Stencil
