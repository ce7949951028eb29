import Stencil.Proofs.LinkVisits
import Stencil.Proofs.SideBySide

/-!
# What some options do not change

Default values reach what a template gives and nothing else. Which link a directive takes, where
a link leads and what is written about it are the same whatever the values are; a value is only
looked at where its members are spread, and there it may be a problem. So two extractions that
differ in default values go side by side, with tables that know the same links.

Without a source map, all is as it is with one but the maps. With recursive imports allowed, all
is as it is without but for one answer to a call: that a link leads back is not a problem then.
-/

namespace Stencil

namespace Comparison

variable {s s' : Setting}

/-! ## Default values -/

/-- Two extractions that follow the same links, whatever they give. -/
def unsteered : Comparison where
  value _ _ := True
  ledger l l' := l'.withoutValues.dropping Problem.isNotSpreadable =
    l.withoutValues.dropping Problem.isNotSpreadable
  watch := Eq

/-- Whatever the directives of a template stand for, but for members of objects it has the same
problems. -/
theorem dropping_ownProblems {scope scope' : Scope} (hpath : scope'.path = scope.path)
    (t t' : Table) (demand : Demand) :
    Ledger.dropping Problem.isNotSpreadable { problems := scope'.ownProblems t' demand } =
      Ledger.dropping Problem.isNotSpreadable { problems := scope.ownProblems t demand } := by
  cases demand with
  | value d => rfl
  | members d =>
      -- What there may be is hidden.
      have hhidden (scope : Scope) (t : Table) :
          (scope.ownProblems t (.members d)).filter (fun p => !p.isNotSpreadable) = [] := by
        simp only [Scope.ownProblems]
        split <;> rfl
      simp only [Ledger.dropping, hhidden]
  | fault f => simp only [Scope.ownProblems, hpath]

theorem kept_unsteered : unsteered.Kept s s' where
  refl _ := trivial
  append := by
    intro a a' b b' ha hb
    show Ledger.dropping _ _ = Ledger.dropping _ _
    rw [Ledger.withoutValues_append, Ledger.withoutValues_append, Ledger.dropping_append,
      Ledger.dropping_append, ha, hb]
  counts _ := rfl
  record _ _ _ _ _ _ := rfl
  own demand h := dropping_ownProblems h.path _ _ demand
  assembled _ := trivial

theorem alike_unsteered (out : Outcome α) : unsteered.Alike out out := ⟨rfl, rfl, rfl⟩

/-! ## The source map -/

/-- Two extractions of which one has the maps of the other or none. -/
def unmapped : Comparison where
  value a a' := a'.value = a.value
  ledger l l' := l' = l
  watch := Eq

theorem kept_unmapped (hgiven : s'.options.defaultValues = s.options.defaultValues) :
    unmapped.Kept s s' where
  refl _ := rfl
  append ha hb := by
    cases ha
    cases hb
    rfl
  counts _ := rfl
  record referrer d link path isRecursive h := by
    show ({ imports := [_] } : Ledger) = _
    unfold Setting.record
    rw [h]
  own demand h := by
    show ({ problems := _ } : Ledger) = _
    rw [h.scope_eq hgiven, h.table.ownProblems_eq rfl fun _ _ => id]
  assembled h := by
    show Draft.read _ _ = Draft.read _ _
    rw [h.scope_eq hgiven, h.tokens, h.table.read_eq rfl fun _ _ => id]

theorem alike_unmapped (out : Outcome α) : unmapped.Alike out out := ⟨rfl, rfl, rfl⟩

end Comparison

/-! ## Recursive imports -/

theorem Problem.kind_of_isImportCycle {p : Problem} (h : p.isImportCycle = true) :
    p.kind = .circularImport := by
  unfold isImportCycle at h
  split at h
  · next chain hcause => rw [kind, hcause]; rfl
  · cases h

namespace Setting

def givenValues (s : Setting) (values : List (String × Json)) : Setting :=
  { s with options := { s.options with defaultValues := values } }

def unmapped (s : Setting) : Setting :=
  { s with options := { s.options with buildSourceMap := false } }

/-- A setting in which links may lead back. -/
def tolerant (s : Setting) : Setting :=
  { s with options := { s.options with allowRecursiveImports := true } }

/-- That links may lead back hides the problem that one does, and changes no reply. -/
theorem call_tolerant (s : Setting) (stack : ActiveStack) (referrer : Path) (d : Directive)
    (link : Link) (w : Watch) :
    (Comparison.dropping Problem.isImportCycle Eq).Alike
      (s.call stack referrer d link w) (s.tolerant.call stack referrer d link w) := by
  have hreplies := s.call_replies stack referrer d link w
  generalize s.call stack referrer d link w = out at hreplies
  have htolerant : s.tolerant.Replies stack referrer d link w
      ⟨out.value, out.ledger.dropping Problem.isImportCycle, out.watch⟩ := by
    cases hreplies with
    | unresolved error h => exact .unresolved error h
    | recursive path h hmem hallow | cycle path h hmem hallow => exact .recursive path h hmem rfl
    | tooDeep path h hmem hdeep => exact .tooDeep path h hmem hdeep
    | silent path h hmem hdeep hraised hreported =>
        exact .silent path h hmem hdeep hraised hreported
    | cancelled path h hmem hdeep hraised hreported =>
        exact .cancelled path h hmem hdeep hraised hreported
    | unreadable path error h hmem hdeep hraised hread =>
        exact .unreadable path error h hmem hdeep hraised hread
    | file path text h hmem hdeep hraised hread =>
        have hopened (w' : Watch) : (openText path text w').ledger.dropping Problem.isImportCycle =
            (openText path text w').ledger :=
          Comparison.dropping_eq_self (fun _ => Problem.kind_of_isImportCycle)
            (kind_openText path text w')
        dsimp only
        rw [hopened]
        exact .file path text h hmem hdeep hraised hread
  rw [htolerant.call_eq]
  exact ⟨rfl, rfl, rfl⟩

end Setting

/-! ## Extractions -/

namespace Extraction

variable (s : Setting) (root : Path) (text? : Option String)

theorem ledger_givenValues (values : List (String × Json)) :
    (run (s.givenValues values) root text?).ledger.withoutValues.dropping
        Problem.isNotSpreadable =
      (run s root text?).ledger.withoutValues.dropping Problem.isNotSpreadable := by
  -- Neither the root nor a call depends on the values.
  have habreast : Comparison.unsteered.Abreast s (s.givenValues values) root text? :=
    Comparison.abreast_of_calls Comparison.kept_unsteered (Comparison.alike_unsteered _)
      fun stack referrer d link w w' hw => by
        cases hw
        exact Comparison.alike_unsteered (s.call stack referrer d link w)
  exact habreast.run_alike.2

theorem map_unmapped : (run s.unmapped root text?).map = .empty := by
  rcases s.unmapped.opens_or_nothing root text? with ⟨path, text, w, hopens⟩ | hnothing
  · rw [hopens.map_eq]
    cases hscan : (Scan.ofText text).error with
    | some error => rw [Setting.assembleText_error _ hscan]; rfl
    | none => rw [Setting.assembleText_ok _ hscan]; rfl
  · show (s.unmapped.extractRoot root text? _).value.map = _
    rw [hnothing]
    rfl

theorem run_unmapped : run s.unmapped root text? = { run s root text? with map := .empty } := by
  have habreast : Comparison.unmapped.Abreast s s.unmapped root text? :=
    Comparison.abreast_of_calls (Comparison.kept_unmapped rfl) (Comparison.alike_unmapped _)
      fun stack referrer d link w w' hw => by
        cases hw
        exact Comparison.alike_unmapped (s.call stack referrer d link w)
  obtain ⟨hvalue, hledger⟩ := habreast.run_alike
  refine ext_assembled ?_ hledger
  show (⟨_, _⟩ : Assembled) = ⟨_, _⟩
  rw [map_unmapped]
  exact congrArg (Assembled.mk · _) hvalue

theorem run_tolerant :
    run s.tolerant root text? =
      { run s root text? with
        ledger := (run s root text?).ledger.dropping Problem.isImportCycle } := by
  have hhidden (p : Problem) : p.isImportCycle = true → p.kind = .circularImport :=
    Problem.kind_of_isImportCycle
  have habreast : (Comparison.dropping Problem.isImportCycle Eq).Abreast s s.tolerant root text? :=
    Comparison.abreast_of_calls (Comparison.kept_dropping hhidden rfl rfl)
      (Comparison.alike_openRoot hhidden rfl rfl rfl fun _ => rfl)
      fun stack referrer d link w w' hw => by
        cases hw
        exact s.call_tolerant stack referrer d link w
  exact Comparison.run_eq_dropping habreast

end Extraction

/-- Default values change what is extracted, and what is reported of values that cannot give
members to an object. Which files are asked for, what else is reported and what is recorded of
each link beside its value are the same for all default values. -/
theorem Extraction.default_values_steer_nothing (s : Setting) (values : List (String × Json))
    (root : Path) (text? : Option String) :
    let e := Extraction.run s root text?
    let e' :=
      Extraction.run { s with options := { s.options with defaultValues := values } } root text?
    e'.ledger.dependencies = e.ledger.dependencies ∧
    e'.counts = e.counts ∧
    e'.ledger.imports.map ImportRecord.withoutValue =
      e.ledger.imports.map ImportRecord.withoutValue ∧
    e'.problems.filter (fun p => !p.isNotSpreadable) =
      e.problems.filter (fun p => !p.isNotSpreadable) := by
  intro e e'
  have hledger : e'.ledger.withoutValues.dropping Problem.isNotSpreadable =
      e.ledger.withoutValues.dropping Problem.isNotSpreadable :=
    Extraction.ledger_givenValues s root text? values
  simp only [Ledger.dropping, Ledger.withoutValues, Ledger.mk.injEq] at hledger
  obtain ⟨himports, hproblems, hdependencies, hvariables, hcontrols, hbytes⟩ := hledger
  have hlength : e'.ledger.imports.length = e.ledger.imports.length := by
    rw [← List.length_map ImportRecord.withoutValue, himports, List.length_map]
  refine ⟨hdependencies, ?_, himports, hproblems⟩
  rw [counts, counts, hlength, hvariables, hcontrols, hbytes]

/-- Without a source map all but the map is the same, and the map is empty. With recursive imports
allowed all but the problems is the same, and of these the import cycles are missing. -/
theorem Extraction.two_options_observe (s : Setting) (root : Path) (text? : Option String) :
    let e := Extraction.run s root text?
    let unmapped : Setting := { s with options := { s.options with buildSourceMap := false } }
    let tolerant : Setting :=
      { s with options := { s.options with allowRecursiveImports := true } }
    Extraction.run unmapped root text? = { e with map := .empty } ∧
      Extraction.run tolerant root text? =
        { e with ledger :=
          { e.ledger with problems := e.problems.filter fun p => !p.isImportCycle } } :=
  ⟨Extraction.run_unmapped s root text?, Extraction.run_tolerant s root text?⟩

end Stencil
