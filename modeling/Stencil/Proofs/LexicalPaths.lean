import Mathlib.Data.List.Induction
import Stencil.Proofs.NormalPath

/-!
# Normal forms stand for their paths

Going on from a path writes one text behind the other, and what is read of the text is the steps
of the one and then the steps of the other (`route_join`). The normal form is come to step by
step, and of the steps before a place it keeps only where they lead. So a path may be brought
into normal form before something is joined to it, and nothing is lost by it.

In the text of a normal form a piece between slashes is a step, as it is: no dot is left, two
dots stand only in front, and behind the root there are none (`clean_normalize`).

A shelf knows a path by its normal form alone. All paths with one normal form find the text that
was last put under any of them (`read_ofList`), and the normal form is one of those paths. Main
statement: `normal_forms_are_canonical`.
-/

namespace Stencil

namespace Path

/-! ## Going on from a path -/

theorem segments_append (first second : List Char) :
    segments (first ++ '/' :: second) = segments first ++ segments second := by
  induction first with
  | nil => simp [segments]
  | cons c first ih =>
      by_cases hslash : c = '/'
      · rw [List.cons_append, segments, if_pos hslash, ih, segments, if_pos hslash,
          List.cons_append]
      · obtain ⟨segment, more, hfirst⟩ := List.exists_cons_of_ne_nil (segments_ne_nil first)
        rw [hfirst, List.cons_append] at ih
        rw [List.cons_append, segments_cons hslash ih, segments_cons hslash hfirst,
          List.cons_append]

/-- Whether a path starts at the root. -/
def IsRooted (p : Path) : Prop := p.text.toList.head? = some '/'

theorem startsWith_iff {p : Path} : p.text.startsWith "/" = true ↔ p.IsRooted := by
  rw [String.startsWith_string_iff, IsRooted, List.head?_eq_some_iff]
  exact ⟨fun ⟨rest, h⟩ => ⟨rest, h.symm⟩, fun ⟨rest, h⟩ => ⟨rest, h.symm⟩⟩

theorem endsWith_iff {p : Path} :
    p.text.endsWith "/" = true ↔ ∃ front, p.text.toList = front ++ ['/'] := by
  have hslice : p.text.endsWith "/" = true ↔ "/".toList <:+ p.text.toSlice.copy.toList :=
    String.Slice.endsWith_string_iff
  rw [hslice, String.copy_toSlice]
  exact ⟨fun ⟨front, h⟩ => ⟨front, h.symm⟩, fun ⟨front, h⟩ => ⟨front, h.symm⟩⟩

theorem rooted_route {p : Path} : p.route.rooted = true ↔ p.IsRooted := decide_eq_true_iff

/-- What is read of two texts with a slash between them: the steps of the one and then those of
the other. -/
theorem steps_append_slash (chars more : List Char) :
    (Route.ofChars (chars ++ '/' :: more)).steps =
      (Route.ofChars chars).steps ++ (Route.ofChars more).steps := by
  simp only [Route.ofChars, segments_append, List.filterMap_append]

/-- A text that begins as another one starts where that one starts. -/
theorem ofChars_append {chars more : List Char} {next : List Step} (hne : chars ≠ [])
    (hsteps : (Route.ofChars (chars ++ more)).steps = (Route.ofChars chars).steps ++ next) :
    Route.ofChars (chars ++ more) = (Route.ofChars chars).append next := by
  obtain ⟨c, chars, rfl⟩ := List.exists_cons_of_ne_nil hne
  rw [Route.append, ← hsteps]
  rfl

/-- Joining appends what is read of the two paths. -/
theorem route_join {p next : Path} (h : ¬ next.IsRooted) :
    (p.join next).route = p.route.append next.route.steps := by
  have hnext : ¬ next.text.startsWith "/" = true := fun hslash => h (startsWith_iff.mp hslash)
  unfold join
  rw [if_neg hnext]
  by_cases hempty : p.text.isEmpty = true
  · have hp : p = ⟨""⟩ := congrArg Path.mk (String.isEmpty_iff.mp hempty)
    have hrelative : next.route.rooted = false := by
      rwa [← Bool.not_eq_true, rooted_route]
    rw [if_pos hempty, hp, Route.append]
    show (⟨next.route.rooted, next.route.steps⟩ : Route) = ⟨false, next.route.steps⟩
    rw [hrelative]
  · have hne : p.text.toList ≠ [] := fun hnil =>
      hempty (String.isEmpty_iff.mpr (String.toList_eq_nil_iff.mp hnil))
    rw [if_neg hempty]
    split
    · next hends =>
        -- The slash that `p` ends in is the one between the two.
        obtain ⟨front, hfront⟩ := endsWith_iff.mp hends
        have htext : (p.text ++ next.text).toList = p.text.toList ++ next.text.toList :=
          String.toList_append
        rw [route, htext]
        refine ofChars_append hne ?_
        rw [hfront, List.append_assoc, List.singleton_append, steps_append_slash,
          steps_append_slash]
        exact congrArg (· ++ _) (List.append_nil _).symm
    · have htext : (p.text ++ "/" ++ next.text).toList =
          p.text.toList ++ '/' :: next.text.toList := by simp
      rw [route, htext]
      exact ofChars_append hne (steps_append_slash _ _)

end Path

namespace Route

theorem normal_normal (r : Route) : r.normal.normal = r.normal :=
  normal_of_settled (settled_normal r)

/-- Only where the first steps lead matters for the normal form of more of them. -/
theorem normal_append (r : Route) (next : List Step) :
    (r.normal.append next).normal = (r.append next).normal := by
  have hplace : r.normal.steps.foldl (take r.rooted) [] = r.steps.foldl (take r.rooted) [] := by
    have hsteps : (r.normal.steps.foldl (take r.rooted) []).reverse = r.normal.steps :=
      congrArg Route.steps (normal_normal r)
    rw [← List.reverse_reverse (r.normal.steps.foldl (take r.rooted) []), hsteps]
    exact List.reverse_reverse _
  simp only [normal, append, List.foldl_append] at hplace ⊢
  rw [hplace]

end Route

namespace Path

theorem isRooted_normalize {p : Path} : p.normalize.IsRooted ↔ p.IsRooted := by
  rw [← rooted_route, route_normalize, ← rooted_route]
  rfl

/-- A path may be brought into normal form before it is gone on from. -/
theorem normalize_join (p next : Path) :
    (p.normalize.join next).normalize = (p.join next).normalize := by
  by_cases hnext : next.IsRooted
  · rw [join_of_startsWith (startsWith_iff.mpr hnext),
      join_of_startsWith (startsWith_iff.mpr hnext)]
  · have hjoin (q : Path) :
        (q.join next).normalize = (q.route.append next.route.steps).normal.toPath := by
      rw [normalize, route_join hnext]
    rw [hjoin, hjoin, route_normalize, Route.normal_append]

/-! ## The text of a normal form -/

/-- What stands between the slashes of a path. -/
def pieces (p : Path) : List (List Char) := (segments p.text.toList).filter (· ≠ [])

theorem filter_segments_stepChars {steps : List Step} (h : ∀ step ∈ steps, step.Proper) :
    (segments (Route.stepChars steps)).filter (· ≠ []) = steps.map Step.chars := by
  induction steps with
  | nil => rfl
  | cons step rest ih =>
      have hstep := h step List.mem_cons_self
      have hrest := ih fun s hs => h s (List.mem_cons_of_mem _ hs)
      cases rest with
      | nil =>
          rw [Route.stepChars, segments_of_slash_notMem hstep.slash_notMem]
          simp [hstep.chars_ne_nil]
      | cons next more =>
          rw [Route.stepChars, segments_append_slash hstep.slash_notMem,
            List.filter_cons_of_pos (by simpa using hstep.chars_ne_nil), hrest]
          · rfl
          · simp

theorem pieces_toPath {r : Route} (h : ∀ step ∈ r.steps, step.Proper) :
    r.toPath.pieces = r.steps.map Step.chars := by
  obtain ⟨rooted, steps⟩ := r
  rw [← filter_segments_stepChars h, pieces, Route.toPath, String.toList_ofList]
  cases rooted with
  | false => rfl
  | true =>
      rw [if_pos rfl, List.singleton_append, segments, if_pos rfl]
      rfl

/-- Whether the pieces of a path are what they stand for: there is no dot, and what goes up stands
in front and not behind the root. -/
structure Clean (p : Path) : Prop where
  noDot : ['.'] ∉ p.pieces
  upsInFront : ∃ ups names, p.pieces = List.replicate ups ['.', '.'] ++ names ∧
    ['.', '.'] ∉ names ∧ (p.IsRooted → ups = 0)

theorem clean_normalize (p : Path) : p.normalize.Clean := by
  have hproper : ∀ step ∈ p.route.normal.steps, step.Proper :=
    Route.proper_of_mem_normal fun _ h => Route.proper_of_mem_ofChars h
  have hpieces : p.normalize.pieces = p.route.normal.steps.map Step.chars := pieces_toPath hproper
  obtain ⟨ups, names, hsteps, hroot⟩ := Route.settled_normal p.route
  have hname (name : List Char) (hmem : name ∈ names) : (Step.name name).Proper :=
    hproper _ (by rw [hsteps]; exact List.mem_append_right _ (List.mem_map_of_mem hmem))
  have hchars : p.normalize.pieces = List.replicate ups ['.', '.'] ++ names := by
    rw [hpieces, hsteps, List.map_append, List.map_replicate, List.map_map]
    exact congrArg _ (List.map_id names)
  refine ⟨fun hdot => ?_, ups, names, hchars, fun hdots => (hname _ hdots).2.2.1 rfl, fun h => ?_⟩
  · rw [hchars] at hdot
    rcases List.mem_append.mp hdot with hdot | hdot
    · exact absurd (List.eq_of_mem_replicate hdot) (by decide)
    · exact (hname _ hdot).2.1 rfl
  · exact hroot (rooted_route.mpr (isRooted_normalize.mp h))

end Path

/-! ## Shelves -/

namespace Shelf

/-- The text that was last put under any path with the normal form of `p`. -/
def lastText? (files : List (Path × String)) (p : Path) : Option String :=
  (files.findRev? fun file => file.1.normalize = p.normalize).map Prod.snd

theorem ofList_concat (files : List (Path × String)) (path : Path) (text : String) :
    ofList (files ++ [(path, text)]) = (ofList files).add path text := by
  rw [ofList, List.foldl_append]
  rfl

theorem find?_ofList (files : List (Path × String)) (p : Path) :
    Assoc.find? p.normalize (ofList files).files = lastText? files p := by
  induction files using List.reverseRecOn with
  | nil => rfl
  | append_singleton files file ih =>
      obtain ⟨path, text⟩ := file
      rw [ofList_concat, add, Assoc.find?_insert, ih]
      simp only [lastText?, List.findRev?_eq_find?_reverse, List.reverse_append,
        List.reverse_singleton, List.singleton_append, List.find?_cons]
      by_cases hsame : path.normalize = p.normalize
      · simp [hsame]
      · simp [hsame]

theorem read_ofList {files : List (Path × String)} {p : Path} {text : String} :
    (ofList files).read p = .ok text ↔ lastText? files p = some text := by
  rw [read, find?_ofList]
  cases lastText? files p <;> simp

theorem read_congr (s : Shelf) {p q : Path} (h : p.normalize = q.normalize) {text : String} :
    s.read p = .ok text ↔ s.read q = .ok text := by
  rw [← read_normalize, h, read_normalize]

theorem canonicalize_congr (s : Shelf) {p q : Path} (h : p.normalize = q.normalize) {place : Path} :
    s.canonicalize p = .ok place ↔ s.canonicalize q = .ok place := by
  rw [canonicalize_eq_ok_iff, canonicalize_eq_ok_iff, ← holds_normalize, h, holds_normalize]

/-- Normal forms are fixed, clean, and as good to go on from as the paths they belong to; and a
shelf finds the same text under a path, its canonical path and all other paths with the same
normal form, namely what was last put under one of them. -/
theorem normal_forms_are_canonical :
    (∀ p : Path, p.normalize.normalize = p.normalize ∧ p.normalize.Clean ∧
      (p.normalize.IsRooted ↔ p.IsRooted)) ∧
    (∀ p next : Path, (p.join next).normalize = (p.normalize.join next).normalize) ∧
    ∀ files : List (Path × String),
      let s := ofList files
      (∀ p, (∃ place, s.canonicalize p = .ok place) ↔ ∃ text, s.read p = .ok text) ∧
      (∀ p place, s.canonicalize p = .ok place →
        s.canonicalize place = .ok place ∧ s.read place = s.read p) ∧
      (∀ p q, p.normalize = q.normalize →
        (∀ place, s.canonicalize p = .ok place ↔ s.canonicalize q = .ok place) ∧
        ∀ text, s.read p = .ok text ↔ s.read q = .ok text) ∧
      ∀ p text, s.read p = .ok text ↔ lastText? files p = some text := by
  refine ⟨fun p => ⟨p.normalize_normalize, p.clean_normalize, Path.isRooted_normalize⟩,
    fun p next => (p.normalize_join next).symm, fun files => ?_⟩
  intro s
  refine ⟨fun p => ?_, fun p place hplace => ?_,
    fun p q h => ⟨fun _ => s.canonicalize_congr h, fun _ => s.read_congr h⟩,
    fun p text => read_ofList⟩
  · simp only [canonicalize_eq_ok_iff, exists_and_left, exists_eq, and_true, Holds]
  · refine ⟨(canonicalize_canonical hplace).1, ?_⟩
    obtain ⟨text, hread⟩ := exists_read_of_canonicalize hplace
    obtain ⟨-, rfl⟩ := canonicalize_eq_ok_iff.mp hplace
    rw [hread, read_normalize.mp hread]

end Shelf

end Stencil
