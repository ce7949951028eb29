import Stencil.Proofs.Agreement

/-!
# What an import gives is what its file gives

A file that is imported is assembled in the middle of an extraction, behind other
files, at the end of a trail and with less depth left. None of that reaches its value,
its map or its problems, as long as nothing in the extraction is recursive or too
deep: following the link gives and writes exactly what an extraction gives and writes
that starts at the file.

The comparison is the general one of two runs, here from one shelf. The standalone
extraction has the shorter trail and the greater depth, and the terms rule out all
that trail and depth decide.
-/

namespace Stencil

/-- The terms of an extraction in which no file is imported into itself, no link goes too deep and
nothing is called off. -/
def Terms.unrestricted : Terms where
  record r := r.isRecursive = false
  problem p := p.isTooDeep = false ∧ p.kind ≠ .cancelled
  dependency _ := True

theorem Terms.secure_unrestricted (S : Shelf) : Terms.unrestricted.Secure S S :=
  ⟨fun _ h => h.2, fun _ _ h => h, fun _ _ _ h => h, fun _ _ h => h⟩

namespace Shelf

variable {S : Shelf} {o : Options} {root : Path} {text? : Option String} {depth : Nat}
  {trail : List Path} {referrer target : Path} {d : Directive} {link : Link} {w : Watch}

/-- A canonical path that starts at the filesystem's root is its own place, from wherever it is
seen. -/
theorem opens_canonical {p : Path} (hcanon : S.canonicalize p = .ok target)
    (habsolute : target.text.startsWith "/") {text : String} (hread : S.read target = .ok text) :
    (S.setting o).Opens target none target text
      (Run.read S.loader .never target (Run.initialWatch .never)).watch := by
  have hnormal : target.normalize = target := by
    rw [(canonicalize_eq_ok_iff.mp hcanon).2, Path.normalize_normalize]
  have hplace : o.placeOf target = target := by
    rw [Options.placeOf, Path.join_of_startsWith habsolute, hnormal]
  refine .file ?_ hread
  change S.canonicalize (o.placeOf target) = .ok target
  rw [hplace]
  exact (canonicalize_canonical hcanon).1

/-- Following a link to a file says what an extraction from that file says. -/
theorem follow_repeated (hdepth : depth ≤ o.maxImportDepth + 1) (hw : w.Calm)
    (hmeets : ((S.setting o).follow depth trail referrer d link w).ledger.Meets .unrestricted)
    (hcanon : S.canonicalize ((S.setting o).targetOf referrer link) = .ok target)
    (habsolute : target.text.startsWith "/") :
    let followed := (S.setting o).follow depth trail referrer d link w
    let alone := Extraction.run (S.setting o) target none
    followed.value = ⟨alone.value, alone.map⟩ ∧ followed.ledger.problems = alone.problems := by
  intro followed alone
  simp only [followed]
  rw [Setting.follow_apply] at hmeets ⊢
  obtain ⟨hrecord, hrest⟩ := Ledger.meets_append hmeets
  have hnonrecursive := hrecord.records _ (List.mem_singleton_self _)
  have hend := (S.setting o).enter_ends trail referrer d link ((S.setting o).deeper depth) w
  generalize hout : (S.setting o).enter trail referrer d link ((S.setting o).deeper depth) w = out
    at hend hrest hnonrecursive
  generalize hnext : (S.setting o).deeper depth = next at hend
  cases hend with
  | unresolved error h => exact absurd (h.symm.trans hcanon) (by simp)
  | recursive path h hmem hallow =>
      exact absurd hnonrecursive (by simp [Setting.record, Terms.unrestricted])
  | cycle path h hmem hallow =>
      exact absurd hnonrecursive (by simp [Setting.record, Terms.unrestricted])
  | tooDeep path h hmem =>
      exact absurd (hrest.problems _ (List.mem_singleton_self _)).1
        (by simp [Problem.isTooDeep, Problem.ofLocation])
  | silent path next h hmem hraised => exact absurd (hraised.symm.trans hw.raised) (by simp)
  | cancelled path next h hmem hraised => exact absurd (hraised.symm.trans hw.raised) (by simp)
  | unreadable path error next h hmem hraised hread =>
      exact absurd hread (read_ne_error h error)
  | file path text next h hmem hraised hread =>
      obtain rfl : path = target := by
        have := h.symm.trans hcanon
        cases this
        rfl
      obtain ⟨n, rfl, rfl⟩ := Setting.deeper_eq_some _ hnext
      have hstands : Terms.unrestricted.Stands n (trail ++ [path]) o.maxImportDepth [path] :=
        .freer (fun _ h => h) (fun _ h => h.1) (by omega) (by simp)
      obtain ⟨hvalue, hledger, -, -⟩ := Setting.repeats_assembleText (c := .unrestricted)
        (S.setting o) (S.setting o) rfl
        (fun e link _ => repeats_follow (Terms.secure_unrestricted S) hstands path e link)
        (Run.read S.loader .never path w).watch
        (Run.read S.loader .never path (Run.initialWatch .never)).watch hw.reported rfl hrest
      have hopens := opens_canonical (o := o) hcanon habsolute hread
      have hrun : alone = _ := hopens.run_eq
      rw [hrun]
      have hproblems := congrArg Ledger.problems hledger.symm
      exact ⟨hvalue.symm, hproblems⟩

/-- A link that is followed in an extraction without recursion, excess of depth or cancellation
gives the value and the map of an extraction that starts at the link's file. The problems that
it adds are the problems of that extraction, one after the other. -/
theorem follow_eq_run
    (hrec : ∀ r ∈ (Extraction.run (S.setting o) root text?).ledger.imports, r.isRecursive = false)
    (hdeep : ∀ p ∈ (Extraction.run (S.setting o) root text?).problems, p.isTooDeep = false)
    (hresolves : (S.setting o).Resolves root text? depth trail referrer d link w)
    (hcanon : S.canonicalize ((S.setting o).targetOf referrer link) = .ok target)
    (habsolute : target.text.startsWith "/") :
    let followed := (S.setting o).follow depth trail referrer d link w
    let alone := Extraction.run (S.setting o) target none
    followed.value.value = alone.value ∧ followed.value.map = alone.map ∧
      followed.ledger.problems = alone.problems ∧
      ∃ before after, (Extraction.run (S.setting o) root text?).problems =
        before ++ alone.problems ++ after := by
  intro followed alone
  have hmeets : followed.ledger.Meets .unrestricted :=
    ⟨fun r hr => hrec r (hresolves.part.mem_imports hr),
      fun p hp => ⟨hdeep p (hresolves.part.mem_problems hp),
        uncancelled_run S o root text? p (hresolves.part.mem_problems hp)⟩,
      fun _ _ => trivial⟩
  have hdepth : depth ≤ o.maxImportDepth + 1 := by
    obtain ⟨text, w₀, hassembles, -⟩ := hresolves
    have : depth + trail.length = o.maxImportDepth + 1 := hassembles.depth_add_length
    omega
  obtain ⟨hvalue, hproblems⟩ :=
    follow_repeated hdepth (calm_of_resolves hresolves) hmeets hcanon habsolute
  obtain ⟨before, after, hpart⟩ := hresolves.part.problems
  exact ⟨congrArg Assembled.value hvalue, congrArg Assembled.map hvalue, hproblems, before, after,
    hproblems ▸ hpart⟩

/-- A root that imports a file. -/
def pair : Shelf := ⟨[(⟨"/a.tmpl"⟩, "1"), (⟨"/r.tmpl"⟩, "// [A](a)")]⟩

/-- The link of the root in `pair`. -/
def pairLink : Directive := ⟨0, .link ⟨"A", "a"⟩, "// [A](a)", ⟨⟨0, 0, 0⟩, ⟨9, 0, 9⟩⟩⟩

theorem follow_eq_run_pair :
    let o := Options.standard ⟨"/"⟩
    let e := Extraction.run (pair.setting o) ⟨"r.tmpl"⟩ none
    let alone := Extraction.run (pair.setting o) ⟨"/a.tmpl"⟩ none
    let r : Path := ⟨"/r.tmpl"⟩
    let link : Link := ⟨"A", "a"⟩
    (∀ r ∈ e.ledger.imports, r.isRecursive = false) ∧ (∀ p ∈ e.problems, p.isTooDeep = false) ∧
      pair.canonicalize ((pair.setting o).targetOf r link) = .ok ⟨"/a.tmpl"⟩ ∧
      ∃ w, (pair.setting o).Resolves ⟨"r.tmpl"⟩ none 10 [r] r pairLink link w ∧
        ((pair.setting o).follow 10 [r] r pairLink link w).value.value = alone.value := by
  intro o e alone r link
  have hrec : ∀ r ∈ e.ledger.imports, r.isRecursive = false := by decide +kernel
  have hdeep : ∀ p ∈ e.problems, p.isTooDeep = false := by decide +kernel
  have hcanon : pair.canonicalize ((pair.setting o).targetOf r link) = .ok ⟨"/a.tmpl"⟩ := by
    decide +kernel
  have hopens : (pair.setting o).Opens ⟨"r.tmpl"⟩ none r "// [A](a)" _ :=
    .file (by decide +kernel) (by decide +kernel)
  have hlink : Setting.LinkIn "// [A](a)" pairLink link :=
    ⟨by decide +kernel, by decide +kernel, by decide +kernel⟩
  obtain ⟨w, hfollows⟩ := Setting.exists_follows (s := pair.setting o) hlink 10 [r] r _
  have hresolves : (pair.setting o).Resolves ⟨"r.tmpl"⟩ none 10 [r] r pairLink link w :=
    ⟨_, _, .root hopens, hfollows⟩
  exact ⟨hrec, hdeep, hcanon, w, hresolves,
    (follow_eq_run hrec hdeep hresolves hcanon (by decide +kernel)).1⟩

end Shelf

end Stencil
