import Stencil.Shelf

/-!
# Normal forms are fixed points

A path in normal form reads back as the route it was written from, because the
steps of a route are proper: a name is not empty, holds no slash, and is neither of
the two names that stand for moves. And a route in normal form has its steps up in
front, so that bringing it into normal form again takes every step as it comes. The
two together make `normalize` idempotent.

For a shelf this means that a canonical path finds the text it was found for, which
is all that an extraction ever relies on.
-/

namespace Stencil

/-! ## Reading a written route -/

/-- A step that its own characters denote. -/
def Step.Proper : Step → Prop
  | .up => True
  | .name chars => chars ≠ [] ∧ chars ≠ ['.'] ∧ chars ≠ ['.', '.'] ∧ '/' ∉ chars

theorem Step.Proper.chars_ne_nil {step : Step} (h : step.Proper) : step.chars ≠ [] := by
  cases step with
  | up => simp [Step.chars]
  | name chars => exact h.1

theorem Step.Proper.slash_notMem {step : Step} (h : step.Proper) : '/' ∉ step.chars := by
  cases step with
  | up => simp [Step.chars]
  | name chars => exact h.2.2.2

theorem Step.ofSegment?_chars {step : Step} (h : step.Proper) :
    Step.ofSegment? step.chars = some step := by
  cases step with
  | up => rfl
  | name chars =>
      obtain ⟨hnil, hdot, hdots, -⟩ := h
      simp only [Step.chars]
      unfold Step.ofSegment?
      split
      · exact absurd rfl hnil
      · exact absurd rfl hdot
      · exact absurd rfl hdots
      · rfl

theorem Step.proper_of_ofSegment? {segment : List Char} {step : Step} (hs : '/' ∉ segment)
    (h : Step.ofSegment? segment = some step) : step.Proper := by
  unfold Step.ofSegment? at h
  split at h
  · cases h
  · cases h
  · cases h; trivial
  · next hnil hdot hdots => cases h; exact ⟨hnil, hdot, hdots, hs⟩

namespace Path

theorem segments_ne_nil (chars : List Char) : segments chars ≠ [] := by
  cases chars with
  | nil => simp [segments]
  | cons c rest =>
      rw [segments]
      split
      · simp
      · split <;> simp

theorem segments_cons {c : Char} (h : c ≠ '/') {rest segment : List Char}
    {more : List (List Char)} (hr : segments rest = segment :: more) :
    segments (c :: rest) = (c :: segment) :: more := by
  rw [segments, if_neg h, hr]

theorem segments_append_slash {xs : List Char} (h : '/' ∉ xs) (ys : List Char) :
    segments (xs ++ '/' :: ys) = xs :: segments ys := by
  induction xs with
  | nil => simp [segments]
  | cons c rest ih =>
      rw [List.mem_cons, not_or] at h
      exact segments_cons (Ne.symm h.1) (ih h.2)

theorem segments_of_slash_notMem {xs : List Char} (h : '/' ∉ xs) : segments xs = [xs] := by
  induction xs with
  | nil => rfl
  | cons c rest ih =>
      rw [List.mem_cons, not_or] at h
      exact segments_cons (Ne.symm h.1) (ih h.2)

theorem slash_notMem_of_mem_segments {chars segment : List Char}
    (h : segment ∈ segments chars) : '/' ∉ segment := by
  induction chars generalizing segment with
  | nil =>
      rw [segments, List.mem_singleton] at h
      simp [h]
  | cons c rest ih =>
      rw [segments] at h
      split at h
      · rcases List.mem_cons.mp h with rfl | h
        · simp
        · exact ih h
      · next hc =>
          split at h
          · next hn => exact absurd hn (segments_ne_nil rest)
          · next first more hr =>
              rw [hr] at ih
              rcases List.mem_cons.mp h with rfl | h
              · rw [List.mem_cons, not_or]
                exact ⟨Ne.symm hc, ih (by simp)⟩
              · exact ih (List.mem_cons_of_mem _ h)

end Path

namespace Route

theorem proper_of_mem_ofChars {chars : List Char} {step : Step}
    (h : step ∈ (ofChars chars).steps) : step.Proper := by
  obtain ⟨segment, hseg, hstep⟩ := List.mem_filterMap.mp h
  exact Step.proper_of_ofSegment? (Path.slash_notMem_of_mem_segments hseg) hstep

/-- The steps are what the pieces between slashes denote. -/
theorem filterMap_segments_stepChars {steps : List Step} (h : ∀ step ∈ steps, step.Proper) :
    (Path.segments (stepChars steps)).filterMap Step.ofSegment? = steps := by
  induction steps with
  | nil => rfl
  | cons step rest ih =>
      have hstep := h step (by simp)
      have hrest := ih fun s hs => h s (by simp [hs])
      cases rest with
      | nil =>
          rw [stepChars, Path.segments_of_slash_notMem hstep.slash_notMem]
          simp [Step.ofSegment?_chars hstep]
      | cons next more =>
          rw [stepChars, Path.segments_append_slash hstep.slash_notMem,
            List.filterMap_cons_some (Step.ofSegment?_chars hstep), hrest]
          simp

theorem head?_stepChars_ne_slash {steps : List Step} (h : ∀ step ∈ steps, step.Proper) :
    (stepChars steps).head? ≠ some '/' := by
  cases steps with
  | nil => simp [stepChars]
  | cons step rest =>
      have hstep := h step (by simp)
      obtain ⟨c, cs, hc⟩ := List.exists_cons_of_ne_nil hstep.chars_ne_nil
      have hmem : '/' ∉ c :: cs := hc ▸ hstep.slash_notMem
      have hne : c ≠ '/' := fun e => hmem (by simp [e])
      cases rest with
      | nil => simp [stepChars, hc, hne]
      | cons next more => simp [stepChars, hc, hne]

theorem route_toPath {r : Route} (h : ∀ step ∈ r.steps, step.Proper) : r.toPath.route = r := by
  obtain ⟨rooted, steps⟩ := r
  have hsteps := filterMap_segments_stepChars h
  cases rooted with
  | false =>
      have hhead := head?_stepChars_ne_slash h
      simp [Path.route, toPath, ofChars, hsteps, hhead]
  | true =>
      have hsegments : Path.segments ('/' :: stepChars steps)
          = [] :: Path.segments (stepChars steps) := by
        rw [Path.segments, if_pos rfl]
      simp only [Path.route, toPath, ofChars, if_pos, String.toList_ofList, List.cons_append,
        List.nil_append, hsegments, List.head?_cons, decide_true]
      rw [List.filterMap_cons_none (by rfl), hsteps]

/-! ## The normal form of a route -/

/-- Steps with all moves up in front; at the root there are none. -/
def Settled (rooted : Bool) (steps : List Step) : Prop :=
  ∃ (ups : Nat) (names : List (List Char)),
    steps = List.replicate ups .up ++ names.map .name ∧ (rooted = true → ups = 0)

theorem settled_nil (rooted : Bool) : Settled rooted [] := ⟨0, [], rfl, fun _ => rfl⟩

/-- One step keeps the steps to the place, read from the front, settled. -/
theorem settled_take {rooted : Bool} {place : List Step} (h : Settled rooted place.reverse)
    (step : Step) : Settled rooted (take rooted place step).reverse := by
  obtain ⟨ups, names, hplace, hroot⟩ := h
  cases step with
  | name chars =>
      refine ⟨ups, names ++ [chars], ?_, hroot⟩
      simp [take, hplace]
  | up =>
      rcases List.eq_nil_or_concat names with rfl | ⟨before, last, rfl⟩
      · -- Only moves up lead here, so one more of them is all there is to do.
        have hups : place = List.replicate ups .up := by
          have := congrArg List.reverse hplace
          simpa using this
        cases ups with
        | zero =>
            subst hups
            cases rooted with
            | true => exact settled_nil true
            | false => exact ⟨1, [], rfl, fun e => absurd e (by simp)⟩
        | succ ups =>
            subst hups
            refine ⟨ups + 2, [], ?_, fun e => absurd (hroot e) (by simp)⟩
            rw [List.replicate_succ, take, ← List.replicate_succ, ← List.replicate_succ]
            simp
      · have hlast : place =
            .name last :: (List.replicate ups Step.up ++ before.map Step.name).reverse := by
          have := congrArg List.reverse hplace
          simpa using this
        refine ⟨ups, before, ?_, hroot⟩
        rw [hlast, take]
        simp

theorem settled_foldl_take {rooted : Bool} (steps : List Step) {place : List Step}
    (h : Settled rooted place.reverse) :
    Settled rooted (steps.foldl (take rooted) place).reverse := by
  induction steps generalizing place with
  | nil => exact h
  | cons step rest ih => exact ih (settled_take h step)

theorem settled_normal (r : Route) : Settled r.rooted r.normal.steps :=
  settled_foldl_take r.steps (settled_nil _)

theorem foldl_take_names (rooted : Bool) (names : List (List Char)) (place : List Step) :
    (names.map Step.name).foldl (take rooted) place = (names.map Step.name).reverse ++ place := by
  induction names generalizing place with
  | nil => rfl
  | cons name rest ih => simp [take, ih]

theorem foldl_take_ups (ups count : Nat) :
    (List.replicate ups Step.up).foldl (take false) (List.replicate count .up)
      = List.replicate (ups + count) .up := by
  induction ups generalizing count with
  | zero => simp
  | succ ups ih =>
      have htake : take false (List.replicate count .up) .up = List.replicate (count + 1) .up := by
        cases count <;> simp [take, List.replicate_succ]
      rw [List.replicate_succ, List.foldl_cons, htake, ih, Nat.add_right_comm, Nat.add_assoc]

theorem normal_of_settled {r : Route} (h : Settled r.rooted r.steps) : r.normal = r := by
  obtain ⟨rooted, steps⟩ := r
  obtain ⟨ups, names, hsteps, hroot⟩ := h
  simp only at hsteps hroot
  subst hsteps
  cases rooted with
  | true =>
      rw [hroot rfl]
      simp [normal, foldl_take_names]
  | false =>
      have hups := foldl_take_ups ups 0
      simp only [List.replicate_zero, Nat.add_zero] at hups
      simp [normal, hups, foldl_take_names]

/-- Bringing a route into normal form makes up no names. -/
theorem mem_foldl_take {rooted : Bool} {step : Step} (hstep : step ≠ .up) {steps place : List Step}
    (h : step ∈ steps.foldl (take rooted) place) : step ∈ steps ∨ step ∈ place := by
  induction steps generalizing place with
  | nil => exact Or.inr h
  | cons next rest ih =>
      rcases ih h with hmem | hmem
      · exact Or.inl (List.mem_cons_of_mem _ hmem)
      · cases next with
        | name chars =>
            rcases List.mem_cons.mp hmem with rfl | hmem
            · exact Or.inl (by simp)
            · exact Or.inr hmem
        | up =>
            refine Or.inr ?_
            match place with
            | .name _ :: before => exact List.mem_cons_of_mem _ hmem
            | .up :: before => simpa [take, hstep] using hmem
            | [] =>
                simp only [take] at hmem
                split at hmem
                · cases hmem
                · exact absurd (List.mem_singleton.mp hmem) hstep

theorem proper_of_mem_normal {r : Route} (h : ∀ step ∈ r.steps, step.Proper) :
    ∀ step ∈ r.normal.steps, step.Proper := by
  intro step hstep
  cases step with
  | up => trivial
  | name chars =>
      have hmem := List.mem_reverse.mp hstep
      rcases mem_foldl_take (by simp) hmem with hmem | hmem
      · exact h _ hmem
      · cases hmem

end Route

/-! ## Paths and shelves -/

theorem Path.route_normalize (p : Path) : p.normalize.route = p.route.normal :=
  Route.route_toPath (Route.proper_of_mem_normal fun _ h => Route.proper_of_mem_ofChars h)

theorem Path.normalize_normalize (p : Path) : p.normalize.normalize = p.normalize := by
  have hnormal : p.route.normal.normal = p.route.normal :=
    Route.normal_of_settled (Route.settled_normal p.route)
  rw [Path.normalize, Path.route_normalize, hnormal]
  rfl

/-- A path that starts at the root is seen alike from everywhere. -/
theorem Path.join_of_startsWith {next : Path} (h : next.text.startsWith "/") (p : Path) :
    p.join next = next := by
  rw [Path.join, if_pos h]

namespace Shelf

variable {s : Shelf} {p q : Path} {text : String}

/-- Whether there is a text under a path. -/
def Holds (s : Shelf) (p : Path) : Prop := ∃ text, s.read p = .ok text

theorem canonicalize_eq_ok_iff : s.canonicalize p = .ok q ↔ s.Holds p ∧ q = p.normalize := by
  unfold canonicalize Holds read
  cases Assoc.find? p.normalize s.files with
  | none => simp
  | some text => simp [eq_comm]

theorem canonicalize_eq_error_iff {e : LoadError} :
    s.canonicalize p = .error e ↔ ¬ s.Holds p ∧ e = .missing p := by
  unfold canonicalize Holds read
  cases Assoc.find? p.normalize s.files with
  | none => simp [eq_comm]
  | some text => simp

theorem read_normalize : s.read p.normalize = .ok text ↔ s.read p = .ok text := by
  unfold read
  rw [Path.normalize_normalize]
  cases Assoc.find? p.normalize s.files <;> simp

theorem holds_normalize : s.Holds p.normalize ↔ s.Holds p := by
  simp only [Holds, read_normalize]

/-- A canonical path is its own canonical path, and there is a text under it. -/
theorem canonicalize_canonical (h : s.canonicalize p = .ok q) :
    s.canonicalize q = .ok q ∧ s.Holds q := by
  obtain ⟨hp, rfl⟩ := canonicalize_eq_ok_iff.mp h
  have hq : s.Holds p.normalize := holds_normalize.mpr hp
  exact ⟨canonicalize_eq_ok_iff.mpr ⟨hq, (Path.normalize_normalize p).symm⟩, hq⟩

/-- What is read under a canonical path is found from all paths that are written like it. -/
theorem canonicalize_of_read (hpath : q = p.normalize) (hread : s.read q = .ok text) :
    s.canonicalize p = .ok q := by
  subst hpath
  exact canonicalize_eq_ok_iff.mpr ⟨⟨text, read_normalize.mp hread⟩, rfl⟩

theorem exists_read_of_canonicalize (h : s.canonicalize p = .ok q) :
    ∃ text, s.read q = .ok text := (canonicalize_canonical h).2

theorem read_ne_error (h : s.canonicalize p = .ok q) (error : LoadError) :
    s.read q ≠ .error error := by
  obtain ⟨text, hread⟩ := exists_read_of_canonicalize h
  simp [hread]

end Shelf

end Stencil
