import Stencil.Proofs.WrittenSoFar

/-!
# The import limit is exact

A link leads too deep if its file would stand at the end of a trail that is one file longer than
the limit allows. Such a trail is a simple path of the graph of files and links, as long as that.
Conversely, a simple path from the root is a trail as far as the limit allows, because each of its
links is followed and leads to a file that is not on the trail before it; so the last link of a
path that is one file longer is followed too, and found to lead too deep.

Where nothing leads too deep the limit is never asked for in vain, and a run under a higher limit
takes the same steps.
-/

namespace Stencil

namespace Setting

/-- A setting with another import limit. -/
def limited (s : Setting) (limit : Nat) : Setting :=
  { s with options := { s.options with maxImportDepth := limit } }

variable {s : Setting} {stack : ActiveStack} {referrer : Path} {d : Directive} {link : Link}
  {w : Watch} {limit : Nat}

/-- A call that does not lead too deep has the same reply under a higher limit. -/
theorem call_limited (hle : s.options.maxImportDepth ≤ limit)
    (hshallow : ∀ p ∈ (s.call stack referrer d link w).ledger.problems, p.isTooDeep = false) :
    (s.limited limit).call stack referrer d link w = s.call stack referrer d link w := by
  have hreplies := s.call_replies stack referrer d link w
  generalize s.call stack referrer d link w = out at hshallow hreplies
  have hhigher (hdeep : ¬ s.options.maxImportDepth < stack.paths.length) :
      ¬ (s.limited limit).options.maxImportDepth < stack.paths.length := by
    show ¬ limit < _
    omega
  refine Replies.call_eq (s := s.limited limit) ?_
  cases hreplies with
  | unresolved error h => exact .unresolved error h
  | recursive path h hmem hallow => exact .recursive path h hmem hallow
  | cycle path h hmem hallow => exact .cycle path h hmem hallow
  | tooDeep path h hmem hdeep => cases hshallow _ (List.mem_singleton_self _)
  | silent path h hmem hdeep hraised hreported =>
      exact .silent path h hmem (hhigher hdeep) hraised hreported
  | cancelled path h hmem hdeep hraised hreported =>
      exact .cancelled path h hmem (hhigher hdeep) hraised hreported
  | unreadable path error h hmem hdeep hraised hread =>
      exact .unreadable path error h hmem (hhigher hdeep) hraised hread
  | file path text h hmem hdeep hraised hread =>
      exact .file path text h hmem (hhigher hdeep) hraised hread

/-- An extraction in which nothing leads too deep is the same under a higher limit. -/
theorem run_limited {root : Path} {text? : Option String}
    (hshallow : ∀ p ∈ (Extraction.run s root text?).problems, p.isTooDeep = false)
    (hle : s.options.maxImportDepth ≤ limit) :
    Extraction.run (s.limited limit) root text? = Extraction.run s root text? := by
  have hkept : (Comparison.same Eq).Kept s (s.limited limit) :=
    Comparison.kept_dropping Comparison.hides_nothing rfl rfl
  have habreast : (Comparison.same Eq).Abreast s (s.limited limit) root text? := by
    intro n
    induction n with
    | zero =>
        exact Comparison.states_start hkept
          (Comparison.alike_openRoot Comparison.hides_nothing rfl rfl rfl fun _ => rfl)
    | succ n ih =>
        rw [Function.iterate_succ_apply', Function.iterate_succ_apply']
        refine ih.step hkept fun stack referrer d link w w' hcalls _ hw => ?_
        cases hw
        rw [call_limited hle fun p hp => hshallow p (hcalls.mem_problems hp)]
        exact ⟨rfl, Comparison.ledger_same.mpr rfl, rfl⟩
  exact Comparison.run_eq_of_same habreast

end Setting

namespace Shelf

/-- Whether some files are a path of imports from the first of them, through no file twice. -/
structure ImportPath (S : Shelf) (o : Options) (start : Path) (files : List Path) : Prop where
  head : files.head? = some start
  nodup : files.Nodup
  edges : files.IsChain (S.Edge o)

variable {S : Shelf} {o : Options} {root start : Path} {depth : Nat} {trail files : List Path}
  {path last : Path} {text : String} {w : Watch}

/-! ## What is reported is a path -/

/-- Whether for everything that a ledger reports as too deep there is a path as deep as that. -/
def Deepens (S : Shelf) (o : Options) (start : Path) (l : Ledger) : Prop :=
  ∀ p ∈ l.problems, ∀ link depth limit, p.cause = .tooDeep link depth limit →
    ∃ files, S.ImportPath o start files ∧ files.length = depth + 1

theorem Deepens.append {a b : Ledger} (ha : S.Deepens o start a) (hb : S.Deepens o start b) :
    S.Deepens o start (a ++ b) := fun p hp => (List.mem_append.mp hp).elim (ha p) (hb p)

theorem head?_longer (h : trail.head? = some start) :
    (trail ++ files).head? = some start := by
  rw [List.head?_append, h]
  rfl

theorem kept_deepens (S : Shelf) (o : Options) (start : Path) :
    S.Kept o
      (fun trail referrer d link => trail.head? = some start ∧ S.TrailTo o start trail referrer ∧
        ∃ text, S.read referrer = .ok text ∧ Setting.LinkIn text d link)
      (fun _ => S.Deepens o start) := by
  refine ⟨fun _ => ⟨fun hplain p hp link depth limit hcause => ?_, .append⟩, ?_, ?_, ?_⟩
  · rcases hplain.problems p hp with h | h <;> rw [Problem.kind, hcause] at h <;> cases h
  · intro trail referrer d link path text e next hT hcanon hmem hread hnext
    obtain ⟨hhead, htrail, text', hread', hlink⟩ := hT
    exact ⟨head?_longer hhead, htrail.append (edge_of_linkIn hread' hlink hcanon) hmem, text, hread,
      hnext⟩
  · intro trail referrer d link w out hT hend
    obtain ⟨hhead, htrail, text, hread, hlink⟩ := hT
    refine .append (fun p hp => absurd hp List.not_mem_nil) ?_
    intro p hp link' depth limit hcause
    cases hend with
    | unresolved => rw [List.mem_singleton.mp hp] at hcause; cases hcause
    | recursive => cases hp
    | cycle => rw [List.mem_singleton.mp hp] at hcause; cases hcause
    | tooDeep path hcanon hmem =>
        rw [List.mem_singleton.mp hp] at hcause
        cases hcause
        have hlonger := htrail.append (edge_of_linkIn hread hlink hcanon) hmem
        exact ⟨trail ++ [path], ⟨head?_longer hhead, hlonger.nodup, hlonger.edges⟩, by simp⟩
  · intro trail referrer d link path text assembled l _ _ _ _ hl
    exact .append (fun p hp => absurd hp List.not_mem_nil) hl

/-! ## Paths are reported -/

/-- The last import of a path is an edge to a file that is not on the path before it. -/
theorem ImportPath.last_import (h : S.ImportPath o start (trail ++ [path]))
    (hlast : trail.getLast? = some last) :
    S.ImportPath o start trail ∧ S.Edge o last path ∧ path ∉ trail := by
  obtain ⟨hhead, hnodup, hedges⟩ := h
  have hne : trail ≠ [] := by
    intro hnil
    rw [hnil] at hlast
    cases hlast
  rw [List.head?_append_of_ne_nil _ hne] at hhead
  have hedge := hedges
  rw [List.isChain_append] at hedge
  refine ⟨⟨hhead, hnodup.sublist (List.sublist_append_left _ _), hedges.left_of_append⟩,
    hedge.2.2 last hlast path rfl, fun hmem => ?_⟩
  exact (List.nodup_append.mp hnodup).2.2 path hmem path (by simp) rfl

/-- A path from the root that the limit allows is a trail, and its last file is assembled. -/
theorem assembles_of_importPath (hopens : (S.setting o).Opens root none start text w)
    (h : S.ImportPath o start trail) (hlast : trail.getLast? = some last)
    (hdepth : depth + trail.length = o.maxImportDepth + 1) :
    ∃ next w', (S.setting o).Assembles root none depth trail last next w' := by
  induction trail using List.reverseRecOn generalizing last depth with
  | nil => cases hlast
  | append_singleton before path ih =>
      obtain rfl : path = last := by simpa using hlast
      rw [List.length_append, List.length_singleton] at hdepth
      cases hbefore : before.getLast? with
      | none =>
          obtain rfl : before = [] := List.getLast?_eq_none_iff.mp hbefore
          obtain rfl : path = start := by simpa using h.head
          obtain rfl : depth = o.maxImportDepth := by simpa using hdepth
          exact ⟨text, w, .root hopens⟩
      | some referrer =>
          obtain ⟨hshorter, hedge, hmem⟩ := h.last_import hbefore
          have hleft : depth + 1 + before.length = o.maxImportDepth + 1 := by omega
          obtain ⟨text', w', hassembles⟩ := ih hshorter hbefore hleft
          obtain ⟨d, link, w'', hfollows, hcanon, hraised⟩ :=
            exists_follows_of_edge hassembles hedge
          obtain ⟨next, hread⟩ := exists_read_of_canonicalize hcanon
          exact ⟨next, _, .link hassembles hfollows hcanon hmem hraised hread⟩

/-- The last import of a path that is one import longer leads too deep. -/
theorem exists_isTooDeep_of_importPath (hopens : (S.setting o).Opens root none start text w)
    (h : S.ImportPath o start files) (hlength : files.length = o.maxImportDepth + 2) :
    ∃ p ∈ (Extraction.run (S.setting o) root none).problems, p.isTooDeep = true := by
  rcases List.eq_nil_or_concat' files with rfl | ⟨trail, path, rfl⟩
  · cases hlength
  rw [List.length_append, List.length_singleton] at hlength
  cases hlast : trail.getLast? with
  | none =>
      rw [List.getLast?_eq_none_iff.mp hlast] at hlength
      cases hlength
  | some referrer =>
      obtain ⟨hshorter, hedge, hmem⟩ := h.last_import hlast
      have hdepth : 0 + trail.length = o.maxImportDepth + 1 := by omega
      obtain ⟨text', w', hassembles⟩ := assembles_of_importPath hopens hshorter hlast hdepth
      obtain ⟨d, link, w'', hfollows, hcanon, -⟩ := exists_follows_of_edge hassembles hedge
      refine ⟨.ofLocation (.tooDeep link.path trail.length o.maxImportDepth) referrer d.range.first,
        (hfollows.part.trans hassembles.part).mem_problems ?_, rfl⟩
      rw [Setting.follow_apply]
      simp only [Setting.deeper]
      rw [Setting.enter_tooDeep (s := S.setting o) hcanon hmem]
      exact List.mem_singleton_self _

/-- An extraction reports that an import leads too deep exactly if there is a path of one import
more than the limit, from the root and through no file twice; and if it does not, it is the same
under every higher limit. -/
theorem depth_limit_exact (hroot : S.canonicalize (o.placeOf root) = .ok start) :
    ((∃ p ∈ (Extraction.run (S.setting o) root none).problems, p.isTooDeep = true) ↔
      ∃ files, S.ImportPath o start files ∧ files.length = o.maxImportDepth + 2) ∧
    ((∀ p ∈ (Extraction.run (S.setting o) root none).problems, p.isTooDeep = false) →
      ∀ limit, o.maxImportDepth ≤ limit →
        Extraction.run (S.setting { o with maxImportDepth := limit }) root none =
          Extraction.run (S.setting o) root none) := by
  obtain ⟨text, hread⟩ := exists_read_of_canonicalize hroot
  have hopens : (S.setting o).Opens root none start text _ := .file hroot hread
  refine ⟨⟨?_, ?_⟩, fun hshallow limit hle => Setting.run_limited hshallow hle⟩
  · intro h
    obtain ⟨p, hp, hdeep⟩ := h
    have hdeepens : S.Deepens o start (Extraction.run (S.setting o) root none).ledger :=
      (kept_deepens S o start).ledger_run hopens fun d link hlink =>
        ⟨rfl, .single S o start, text, hread, hlink⟩
    unfold Problem.isTooDeep at hdeep
    split at hdeep
    · next link depth limit hcause =>
        obtain rfl := S.tooDeepAt_run o .never root none p hp link depth limit hcause
        exact hdeepens p hp link _ limit hcause
    · cases hdeep
  · intro h
    obtain ⟨files, hpath, hlength⟩ := h
    exact exists_isTooDeep_of_importPath hopens hpath hlength

/-- Three files of which each imports the next. -/
def row : Shelf :=
  ⟨[(⟨"/a.tmpl"⟩, "// [B](b)"), (⟨"/b.tmpl"⟩, "1"), (⟨"/r.tmpl"⟩, "// [A](a)")]⟩

theorem depth_limit_exact_row :
    let o (limit : Nat) := { Options.standard ⟨"/"⟩ with maxImportDepth := limit }
    let e (limit : Nat) := Extraction.run (row.setting (o limit)) ⟨"r.tmpl"⟩ none
    row.canonicalize ((o 1).placeOf ⟨"r.tmpl"⟩) = .ok ⟨"/r.tmpl"⟩ ∧
      (∃ p ∈ (e 1).problems, p.isTooDeep = true) ∧
      (∃ files, row.ImportPath (o 1) ⟨"/r.tmpl"⟩ files ∧ files.length = 3) ∧
      row.canonicalize ((o 2).placeOf ⟨"r.tmpl"⟩) = .ok ⟨"/r.tmpl"⟩ ∧
      (∀ p ∈ (e 2).problems, p.isTooDeep = false) ∧ e 7 = e 2 := by
  intro o e
  have hroot : row.canonicalize ((o 1).placeOf ⟨"r.tmpl"⟩) = .ok ⟨"/r.tmpl"⟩ := by decide +kernel
  have hreports : ∃ p ∈ (e 1).problems, p.isTooDeep = true := by decide +kernel
  have hquiet : ∀ p ∈ (e 2).problems, p.isTooDeep = false := by decide +kernel
  exact ⟨hroot, hreports, (depth_limit_exact (o := o 1) hroot).1.mp hreports, hroot, hquiet,
    (depth_limit_exact (o := o 2) hroot).2 hquiet 7 (by decide)⟩

end Shelf

end Stencil
