import Mathlib.Data.List.Induction
import Stencil.Proofs.Keeping

/-!
# What takes place in an extraction

An extraction is one run, but the theory speaks of things that take place inside it:
a file being assembled, a link being followed. Each of them happens under a watch of
its own, and what it writes is a stretch of the extraction's ledger.

A link of a template is followed at the first demand that needs it, with all demands
before it met. `Assembles` follows the links from the root: it says which files are
assembled, with what trail and how much depth left. The table of a template has a
value for a link only where the link was followed, and after all demands it has one
for every link of the template.
-/

namespace Stencil

/-- Whether a ledger is a stretch of another. -/
def Ledger.Part (a b : Ledger) : Prop := ∃ before after, b = before ++ a ++ after

namespace Ledger

theorem Part.refl (a : Ledger) : a.Part a := ⟨.empty, .empty, by simp⟩

theorem Part.trans {a b c : Ledger} (h : a.Part b) (h' : b.Part c) : a.Part c := by
  obtain ⟨before, after, rfl⟩ := h
  obtain ⟨before', after', rfl⟩ := h'
  exact ⟨before' ++ before, after ++ after', by simp only [append_assoc]⟩

theorem part_append_left (a b : Ledger) : a.Part (a ++ b) := ⟨.empty, b, by simp⟩

theorem part_append_right (a b : Ledger) : b.Part (a ++ b) := ⟨a, .empty, by simp⟩

theorem Part.problems {a b : Ledger} (h : a.Part b) :
    ∃ before after, b.problems = before ++ a.problems ++ after := by
  obtain ⟨before, after, rfl⟩ := h
  exact ⟨before.problems, after.problems, rfl⟩

theorem Part.mem_problems {a b : Ledger} (h : a.Part b) {p : Problem} (hp : p ∈ a.problems) :
    p ∈ b.problems := by
  obtain ⟨before, after, hb⟩ := h.problems
  rw [hb]
  exact List.mem_append_left _ (List.mem_append_right _ hp)

theorem Part.problems_eq_nil {a b : Ledger} (h : a.Part b) (hb : b.problems = []) :
    a.problems = [] :=
  List.eq_nil_iff_forall_not_mem.mpr fun p hp => by
    have hin := h.mem_problems hp
    rw [hb] at hin
    cases hin

theorem Part.mem_imports {a b : Ledger} (h : a.Part b) {r : ImportRecord} (hr : r ∈ a.imports) :
    r ∈ b.imports := by
  obtain ⟨before, after, rfl⟩ := h
  exact List.mem_append_left _ (List.mem_append_right _ hr)

end Ledger

/-! ## Links of one template -/

namespace Scope

variable (s : Scope)

/-- Whether a link is followed, under the watch `w'`, while demands are met from the watch `w`
on. -/
def Follows (demands : List Demand) (w : Watch) (d : Directive) (link : Link) (w' : Watch) : Prop :=
  ∃ before demand after asked, demands = before ++ demand :: after ∧
    demand.directive? = some asked ∧ s.linkOf? asked = some (d, link) ∧
    Assoc.find? d.number (s.meetAll [] before w).value = none ∧
    w' = (s.meetAll [] before w).watch

variable {s} {demands : List Demand} {w w' : Watch} {d : Directive} {link : Link}

theorem Follows.append (h : s.Follows demands w d link w') (more : List Demand) :
    s.Follows (demands ++ more) w d link w' := by
  obtain ⟨before, demand, after, asked, rfl, h⟩ := h
  exact ⟨before, demand, after ++ more, asked, by simp, h⟩

theorem part_learn {t : Table} {asked : Directive} (hlink : s.linkOf? asked = some (d, link))
    (hnew : Assoc.find? d.number t = none) {demand : Demand}
    (hasked : demand.directive? = some asked) (w : Watch) :
    (s.follow d link w).ledger.Part (s.meet t demand w).ledger := by
  cases demand with
  | value e =>
      cases hasked
      rw [meet_value, learn_new hlink hnew]
      exact .refl _
  | members e =>
      cases hasked
      rw [meet_members, learn_new hlink hnew]
      exact Ledger.part_append_left _ _
  | fault f => cases hasked

theorem Follows.part (h : s.Follows demands w d link w') :
    (s.follow d link w').ledger.Part (s.meetAll [] demands w).ledger := by
  obtain ⟨before, demand, after, asked, rfl, hasked, hlink, hnew, rfl⟩ := h
  simp only [meetAll_append, meetAll_cons]
  exact (part_learn hlink hnew hasked _).trans
    ((Ledger.part_append_left _ _).trans (Ledger.part_append_right _ _))

/-- What the table has was brought by a link that was followed. -/
theorem exists_follows {n : Nat} {a : Assembled}
    (h : Assoc.find? n (s.meetAll [] demands w).value = some a) :
    ∃ d link w', s.Follows demands w d link w' ∧ d.number = n ∧ a = (s.follow d link w').value := by
  induction demands using List.reverseRecOn generalizing a with
  | nil => cases h
  | append_singleton before demand ih =>
      cases hbefore : Assoc.find? n (s.meetAll [] before w).value with
      | some b =>
          have hkept := extends_meetAll (s := s) (s.meetAll [] before w).value [demand]
            (s.meetAll [] before w).watch n b hbefore
          obtain ⟨d, link, w', hfollows, hnumber, hvalue⟩ := ih hbefore
          rw [meetAll_append, hkept] at h
          cases h
          exact ⟨d, link, w', hfollows.append _, hnumber, hvalue⟩
      | none =>
          -- The table had nothing before the last demand, so that one followed the link.
          obtain ⟨asked, hasked, hlearn⟩ : ∃ asked, demand.directive? = some asked ∧
              Assoc.find? n (s.learn (s.meetAll [] before w).value asked
                (s.meetAll [] before w).watch).value = some a := by
            simp only [meetAll_append, meetAll_cons, meetAll_nil] at h
            cases demand with
            | value e => exact ⟨e, rfl, h⟩
            | members e => rw [meet_members] at h; exact ⟨e, rfl, h⟩
            | fault f => rw [meet_fault, hbefore] at h; cases h
          rcases learn_cases (s.meetAll [] before w).value asked (s.meetAll [] before w).watch with
            ⟨-, hsame⟩ | ⟨d, link, hlink, hnew, hadd⟩
          · rw [hsame, hbefore] at hlearn
            cases hlearn
          · rw [hadd, Assoc.find?_insert] at hlearn
            split at hlearn
            · next hnumber =>
                cases hlearn
                exact ⟨d, link, _, ⟨before, demand, [], asked, rfl, hasked, hlink, hnew, rfl⟩,
                  hnumber, rfl⟩
            · rw [hbefore] at hlearn
              cases hlearn

end Scope

namespace Setting

variable (s : Setting)

def scopeAt (depth : Nat) (trail : List Path) (path : Path) (text : String) : Scope :=
  s.scope path (Scan.ofText text).tokens (s.follow depth trail path)

/-- What each directive of a text stands for once the text has been assembled. -/
def lookAt (depth : Nat) (trail : List Path) (path : Path) (text : String)
    (w : Watch) : Look :=
  (s.scopeAt depth trail path text).seen
    ((s.scopeAt depth trail path text).meetAll [] (demands (Scan.ofText text).tokens) w).value

/-- Whether a link is followed while a text is assembled at the end of a trail. -/
def Follows (depth : Nat) (trail : List Path) (path : Path) (text : String) (w : Watch)
    (d : Directive) (link : Link) (w' : Watch) : Prop :=
  (Scan.ofText text).error = none ∧
    (s.scopeAt depth trail path text).Follows (demands (Scan.ofText text).tokens) w d link w'

variable {s} {depth : Nat} {trail : List Path} {path : Path} {text : String} {w w' : Watch}
  {d : Directive} {link : Link}

theorem Follows.linkIn (h : s.Follows depth trail path text w d link w') : LinkIn text d link := by
  obtain ⟨herror, before, demand, after, asked, hdemands, hasked, hlink, -⟩ := h
  have hmem : demand ∈ demands (Scan.ofText text).tokens := by rw [hdemands]; simp
  exact ⟨herror, s.mem_of_linkOf? (within_demands hmem hasked) hlink⟩

theorem Follows.part (h : s.Follows depth trail path text w d link w') :
    (s.follow depth trail path d link w').ledger.Part
      (s.assembleText path text (s.follow depth trail path) w).ledger := by
  rw [assembleText_ok s h.1]
  exact (Scope.Follows.part h.2).trans
    ((Ledger.part_append_right _ _).trans (Ledger.part_append_right _ _))

/-- Every link of a template is followed when the template is assembled. -/
theorem exists_follows (h : LinkIn text d link) (depth : Nat) (trail : List Path) (path : Path)
    (w : Watch) : ∃ w', s.Follows depth trail path text w d link w' := by
  obtain ⟨herror, hmem, hmeaning⟩ := h
  have hlink : (s.scopeAt depth trail path text).linkOf? d = some (d, link) :=
    s.linkOf?_of_meaning hmeaning
  have hknows := Scope.knows_meetAll (s := s.scopeAt depth trail path text)
    (value_mem_demands hmem (by rw [Directive.isLink, hmeaning])) rfl [] w
  rw [Scope.Knows, hlink] at hknows
  obtain ⟨a, ha⟩ := Option.isSome_iff_exists.mp hknows
  obtain ⟨e, other, w', hfollows, hnumber, -⟩ := Scope.exists_follows ha
  have hin : LinkIn text e other := Follows.linkIn ⟨herror, hfollows⟩
  obtain rfl := Directive.eq_of_number_eq hin.2.1 hmem hnumber
  have hother : other = link := by
    have := hin.2.2.symm.trans hmeaning
    cases this
    rfl
  exact ⟨w', herror, hother ▸ hfollows⟩

end Setting

/-! ## Files of one extraction -/

/-- The root's place, seen from the base directory. -/
def Options.placeOf (o : Options) (root : Path) : Path := (o.basePath.join root).normalize

namespace Setting

/-- Whether an extraction starts with a text under a path and a watch. -/
inductive Opens (s : Setting) (root : Path) : Option String → Path → String → Watch → Prop
  | given {path : Path} (text : String)
      (h : s.loader.canonicalize (s.options.placeOf root) = .ok path) :
      Opens s root (some text) path text (Run.initialWatch s.signal)
  | adrift {error : LoadError} (text : String)
      (h : s.loader.canonicalize (s.options.placeOf root) = .error error) :
      Opens s root (some text) (s.options.placeOf root) text (Run.initialWatch s.signal)
  | file {path : Path} {text : String}
      (h : s.loader.canonicalize (s.options.placeOf root) = .ok path)
      (hread : s.loader.read path = .ok text) :
      Opens s root none path text
        (Run.read s.loader s.signal path (Run.initialWatch s.signal)).watch

/-- Whether a text is assembled in an extraction, at the end of a trail and with `depth` further
imports allowed. -/
inductive Assembles (s : Setting) (root : Path) (text? : Option String) :
    Nat → List Path → Path → String → Watch → Prop
  | root {path : Path} {text : String} {w : Watch} (h : s.Opens root text? path text w) :
      Assembles s root text? s.options.maxImportDepth [path] path text w
  | link {depth : Nat} {trail : List Path} {referrer path : Path} {text next : String}
      {w w' : Watch} {d : Directive} {link : Link}
      (h : Assembles s root text? (depth + 1) trail referrer text w)
      (hfollows : s.Follows (depth + 1) trail referrer text w d link w')
      (hcanon : s.loader.canonicalize (s.targetOf referrer link) = .ok path)
      (hmem : path ∉ trail) (hraised : w'.raised = false)
      (hread : s.loader.read path = .ok next) :
      Assembles s root text? depth (trail ++ [path]) path next
        (Run.read s.loader s.signal path w').watch

variable {s : Setting} {root : Path} {text? : Option String} {depth : Nat} {trail : List Path}
  {referrer path : Path} {text : String} {w w' : Watch} {d : Directive} {link : Link}

theorem Opens.extractRoot_eq (h : s.Opens root text? path text w) :
    s.extractRoot root text? (Run.initialWatch s.signal) = s.assembleRoot path text w := by
  cases h with
  | given text h =>
      unfold Options.placeOf at h
      unfold extractRoot
      simp only [h]
  | adrift text h =>
      unfold Options.placeOf at h
      unfold extractRoot
      simp only [h]
      rfl
  | file h hread =>
      unfold Options.placeOf at h
      unfold extractRoot
      simp only [h, Run.bind_apply, Run.read, hread, Ledger.empty_append]

theorem Opens.run_eq (h : s.Opens root text? path text w) :
    Extraction.run s root text? =
      let out := s.assembleRoot path text w
      ⟨out.value.value, out.value.map, out.ledger⟩ := by
  rw [Extraction.run, h.extractRoot_eq]

theorem Opens.map_eq (h : s.Opens root text? path text w) :
    (Extraction.run s root text?).map =
      (s.assembleText path text (s.follow s.options.maxImportDepth [path] path) w).value.map := by
  rw [h.run_eq]
  rfl

theorem extractRoot_unresolved (root : Path) {error : LoadError}
    (h : s.loader.canonicalize (s.options.placeOf root) = .error error) (w : Watch) :
    s.extractRoot root none w =
      ⟨.nothing,
        { dependencies := [.absent (s.options.placeOf root)],
          problems := [.ofFile (.unresolvedRoot error) (s.options.placeOf root)] },
        w⟩ := by
  unfold Options.placeOf at h ⊢
  unfold extractRoot
  simp only [h, Run.bind_apply, Run.tell_apply, Run.report_apply, Run.pure_apply,
    Ledger.append_empty]
  rfl

theorem run_unresolved (root : Path) {error : LoadError}
    (h : s.loader.canonicalize (s.options.placeOf root) = .error error) :
    Extraction.run s root none =
      ⟨Assembled.nothing.value, Assembled.nothing.map,
        { dependencies := [.absent (s.options.placeOf root)],
          problems := [.ofFile (.unresolvedRoot error) (s.options.placeOf root)] }⟩ := by
  rw [Extraction.run, extractRoot_unresolved root h]

/-- An extraction starts with a text, or it says of the root why it does not. -/
theorem opens_or_fails (s : Setting) (root : Path) (text? : Option String) :
    (∃ path text w, s.Opens root text? path text w) ∨
      ∃ path cause w, s.extractRoot root text? (Run.initialWatch s.signal) =
        ⟨.nothing, { dependencies := [.absent path], problems := [.ofFile cause path] }, w⟩ := by
  cases hcanon : s.loader.canonicalize (s.options.placeOf root) with
  | error error =>
      cases text? with
      | some text => exact Or.inl ⟨_, text, _, .adrift text hcanon⟩
      | none => exact Or.inr ⟨_, _, _, extractRoot_unresolved root hcanon _⟩
  | ok path =>
      cases text? with
      | some text => exact Or.inl ⟨path, text, _, .given text hcanon⟩
      | none =>
          cases hread : s.loader.read path with
          | ok text => exact Or.inl ⟨path, text, _, .file hcanon hread⟩
          | error error =>
              refine Or.inr ⟨path, .unreadableRoot error,
                (Run.read s.loader s.signal path (Run.initialWatch s.signal)).watch, ?_⟩
              unfold Options.placeOf at hcanon
              unfold extractRoot
              simp only [hcanon, Run.bind_apply, Run.read, hread, Run.tell_apply,
                Run.report_apply, Run.pure_apply, Ledger.empty_append, Ledger.append_empty]
              rfl

/-- An extraction starts with a text, or it comes to nothing. -/
theorem opens_or_nothing (s : Setting) (root : Path) (text? : Option String) :
    (∃ path text w, s.Opens root text? path text w) ∨
      (s.extractRoot root text? (Run.initialWatch s.signal)).value = .nothing := by
  refine (s.opens_or_fails root text?).imp_right fun h => ?_
  obtain ⟨path, cause, w, h⟩ := h
  rw [h]

/-- What a file that is assembled writes is a stretch of the extraction's ledger. -/
theorem Assembles.part (h : s.Assembles root text? depth trail path text w) :
    (s.assembleText path text (s.follow depth trail path) w).ledger.Part
      (Extraction.run s root text?).ledger := by
  induction h with
  | root h =>
      rw [h.run_eq]
      exact .refl _
  | link h hfollows hcanon hmem hraised hread ih =>
      refine Ledger.Part.trans ?_ (hfollows.part.trans ih)
      rw [follow_apply]
      simp only [deeper]
      rw [enter_read hcanon hmem hraised hread]
      exact Ledger.part_append_right _ _

/-- Whether a link is followed in an extraction. -/
def Resolves (s : Setting) (root : Path) (text? : Option String) (depth : Nat)
    (trail : List Path) (referrer : Path) (d : Directive) (link : Link) (w' : Watch) : Prop :=
  ∃ text w, s.Assembles root text? depth trail referrer text w ∧
    s.Follows depth trail referrer text w d link w'

theorem Resolves.part (h : s.Resolves root text? depth trail referrer d link w') :
    (s.follow depth trail referrer d link w').ledger.Part (Extraction.run s root text?).ledger := by
  obtain ⟨text, w, hassembles, hfollows⟩ := h
  exact hfollows.part.trans hassembles.part

theorem Assembles.depth_add_length (h : s.Assembles root text? depth trail path text w) :
    depth + trail.length = s.options.maxImportDepth + 1 := by
  induction h with
  | root h => rfl
  | link h hfollows hcanon hmem hraised hread ih =>
      rw [List.length_append, List.length_singleton]
      omega

/-- What a link comes to in a text that is assembled with `depth` further imports allowed: nothing,
with problems at the link only, or what a file comes to that is assembled in its turn. -/
inductive Leads (s : Setting) (root : Path) (text? : Option String) (depth : Nat) (referrer : Path)
    (d : Directive) : Outcome Followed → Prop
  | nowhere {path : Path} {isRecursive : Bool} {w : Watch} (dependencies : List Dependency)
      (problems : List Problem) (hdependencies : ∀ x ∈ dependencies, x.digest = none)
      (hproblems : ∀ p ∈ problems, ∃ cause, p = .ofLocation cause referrer d.range.first) :
      Leads s root text? depth referrer d
        ⟨⟨path, isRecursive, .nothing⟩, { dependencies := dependencies, problems := problems }, w⟩
  | file {n : Nat} {trail : List Path} {path : Path} {text : String} {w : Watch} (hn : n < depth)
      (h : s.Assembles root text? n trail path text w) :
      Leads s root text? depth referrer d
        ⟨⟨path, false, (s.assembleText path text (s.follow n trail path) w).value⟩,
          (s.assembleText path text (s.follow n trail path) w).ledger,
          (s.assembleText path text (s.follow n trail path) w).watch⟩

theorem Assembles.leads (h : s.Assembles root text? depth trail referrer text w)
    (hfollows : s.Follows depth trail referrer text w d link w') :
    s.Leads root text? depth referrer d (s.enter trail referrer d link (s.deeper depth) w') := by
  have hend := s.enter_ends trail referrer d link (s.deeper depth) w'
  generalize s.enter trail referrer d link (s.deeper depth) w' = out at hend
  generalize hdeeper : s.deeper depth = next at hend
  have hnone : ∀ x ∈ ([] : List Dependency), x.digest = none := fun x hx => by cases hx
  have habsent (path : Path) : ∀ x ∈ [Dependency.absent path], x.digest = none := by
    intro x hx
    rw [List.mem_singleton.mp hx]
    rfl
  have hsilent : ∀ p ∈ ([] : List Problem), ∃ cause, p = .ofLocation cause referrer d.range.first :=
    fun p hp => by cases hp
  have hsingle (cause : Problem.Cause) :
      ∀ p ∈ [Problem.ofLocation cause referrer d.range.first],
        ∃ cause, p = .ofLocation cause referrer d.range.first :=
    fun p hp => ⟨cause, List.mem_singleton.mp hp⟩
  cases hend with
  | unresolved error hcanon => exact .nowhere _ _ (habsent _) (hsingle _)
  | recursive path hcanon hmem hallow => exact .nowhere [] [] hnone hsilent
  | cycle path hcanon hmem hallow => exact .nowhere [] _ hnone (hsingle _)
  | tooDeep path hcanon hmem => exact .nowhere [] _ hnone (hsingle _)
  | silent path next hcanon hmem hraised hreported => exact .nowhere [] [] hnone hsilent
  | cancelled path next hcanon hmem hraised hreported => exact .nowhere [] _ hnone (hsingle _)
  | unreadable path error next hcanon hmem hraised hread =>
      exact .nowhere _ _ (habsent _) (hsingle _)
  | file path text next hcanon hmem hraised hread =>
      obtain ⟨n, rfl, rfl⟩ := s.deeper_eq_some hdeeper
      exact .file (Nat.lt_succ_self n) (.link h hfollows hcanon hmem hraised hread)

end Setting

/-! ## What holds of everything that is assembled -/

/-- Whether what each directive stands for was given by a link, with something that holds of
all links, or is a value for a variable. -/
def Look.Grounded (look : Look) (given : List (String × Json)) (V : Assembled → Prop) : Prop :=
  ∀ d, (∃ a, V a ∧ look d = (a.value, some a.map)) ∨
    look d = (.null, none) ∨ ∃ expression, look d = (Placeholder.valueOf expression given, none)

namespace Setting

variable {s : Setting} {root : Path} {text? : Option String} {V : Assembled → Prop}

/-- What directives stand for in a text is what its links gave, so what holds of nothing and of the
texts one further in holds of it. -/
theorem Assembles.grounded {depth : Nat} {trail : List Path} {path : Path} {text : String}
    {w : Watch} (hnothing : V .nothing) (h : s.Assembles root text? depth trail path text w)
    (hscan : (Scan.ofText text).error = none)
    (hnext : ∀ n < depth, ∀ trail path text w, s.Assembles root text? n trail path text w →
      V (s.assembleText path text (s.follow n trail path) w).value) :
    (s.lookAt depth trail path text w).Grounded s.options.defaultValues V := by
  have hfollow : ∀ d link w', s.Follows depth trail path text w d link w' →
      V (s.follow depth trail path d link w').value := by
    intro d link w' hfollows
    rw [follow_apply]
    have hleads := h.leads hfollows
    generalize s.enter trail path d link (s.deeper depth) w' = out at hleads
    cases hleads with
    | nowhere => exact hnothing
    | file hn h' => exact hnext _ hn _ _ _ _ h'
  intro d
  rw [lookAt, Scope.seen]
  split
  · next e link hlink =>
      refine Or.inl ⟨_, ?_, rfl⟩
      cases hfind : Assoc.find? e.number ((s.scopeAt depth trail path text).meetAll []
          (demands (Scan.ofText text).tokens) w).value with
      | none => exact hnothing
      | some a =>
          obtain ⟨e', link', w', hfollows, -, rfl⟩ := Scope.exists_follows hfind
          exact hfollow e' link' w' ⟨hscan, hfollows⟩
  · refine Or.inr ?_
    rw [Scope.placeholder]
    split
    · exact Or.inl rfl
    · next expression hmeaning => exact Or.inr ⟨expression, rfl⟩

/-- What a text gives when directives stand for what they do. -/
def readWith (s : Setting) (path : Path) (text : String) (look : Look) : Assembled :=
  ⟨(Draft.ofTokens (Scan.ofText text).tokens).read look,
    if s.options.buildSourceMap then
      .ofList ((Draft.ofTokens (Scan.ofText text).tokens).entries path look)
    else .empty⟩

theorem value_assembleText {text : String} (hscan : (Scan.ofText text).error = none) (depth : Nat)
    (trail : List Path) (path : Path) (w : Watch) :
    (s.assembleText path text (s.follow depth trail path) w).value =
      s.readWith path text (s.lookAt depth trail path text w) := by
  rw [assembleText_ok s hscan]
  rfl

/-- What holds of nothing, and of a text wherever it holds of what the text's links gave, holds of
all that is assembled. The induction is on the depth that is left. -/
theorem Assembles.holds (hnothing : V .nothing)
    (htext : ∀ depth trail path text w, s.Assembles root text? depth trail path text w →
      (Scan.ofText text).error = none →
      (s.lookAt depth trail path text w).Grounded s.options.defaultValues V →
      V (s.readWith path text (s.lookAt depth trail path text w)))
    {depth : Nat} {trail : List Path} {path : Path} {text : String} {w : Watch}
    (h : s.Assembles root text? depth trail path text w) :
    V (s.assembleText path text (s.follow depth trail path) w).value := by
  induction depth using Nat.strongRecOn generalizing trail path text w with
  | ind depth ih =>
  cases hscan : (Scan.ofText text).error with
  | some error =>
      rw [assembleText_error s hscan]
      exact hnothing
  | none =>
      rw [value_assembleText hscan]
      exact htext depth trail path text w h hscan
        (h.grounded hnothing hscan fun n hn _ _ _ _ h' => ih n hn h')

/-- What holds of all that is assembled, and of nothing, holds of an extraction. -/
theorem holds_run (hnothing : V .nothing)
    (h : ∀ depth trail path text w, s.Assembles root text? depth trail path text w →
      V (s.assembleText path text (s.follow depth trail path) w).value) :
    V ⟨(Extraction.run s root text?).value, (Extraction.run s root text?).map⟩ := by
  rcases s.opens_or_nothing root text? with ⟨path, text, w, hopens⟩ | hfails
  · rw [hopens.run_eq]
    exact h _ _ _ _ _ (.root hopens)
  · rw [Extraction.run, hfails]
    exact hnothing

end Setting

/-! ## Extractions that are not called off -/

namespace Shelf

variable {S : Shelf} {o : Options} {root : Path} {text? : Option String} {depth : Nat}
  {trail : List Path} {path : Path} {text : String} {w w' : Watch} {d : Directive} {link : Link}
  {T : List Path → Path → Directive → Link → Prop} {L : List Path → Ledger → Prop}

theorem opens_or_unresolved (S : Shelf) (o : Options) (root : Path) (text? : Option String) :
    (∃ path text w, (S.setting o).Opens root text? path text w) ∨
      (text? = none ∧ S.canonicalize (o.placeOf root) = .error (.missing (o.placeOf root))) := by
  cases hcanon : S.canonicalize (o.placeOf root) with
  | error error =>
      match text? with
      | some text => exact Or.inl ⟨_, text, _, .adrift text hcanon⟩
      | none => exact Or.inr ⟨rfl, by rw [(canonicalize_eq_error_iff.mp hcanon).2]⟩
  | ok path =>
      match text? with
      | some text => exact Or.inl ⟨path, text, _, .given text hcanon⟩
      | none =>
          obtain ⟨text, hread⟩ := exists_read_of_canonicalize hcanon
          exact Or.inl ⟨path, text, _, .file hcanon hread⟩

theorem calm_of_opens (h : (S.setting o).Opens root text? path text w) : w.Calm := by
  cases h with
  | given => exact ⟨rfl, rfl⟩
  | adrift => exact ⟨rfl, rfl⟩
  | file => exact ⟨rfl, rfl⟩

/-- What is kept along every link is kept by the whole extraction. -/
theorem Kept.ledger_run (h : S.Kept o T L) (hopens : (S.setting o).Opens root text? path text w)
    (hT : ∀ d link, Setting.LinkIn text d link → T [path] path d link) :
    L [path] (Extraction.run (S.setting o) root text?).ledger := by
  have hkeeps : ((S.setting o).assembleRoot path text).Keeps (L [path]) :=
    Setting.keeps_assembleText _ (h.closed [path]) fun d link hlink =>
      h.keeps_follow o.maxImportDepth (hT d link hlink)
  rw [hopens.run_eq]
  exact (hkeeps w (calm_of_opens hopens)).2

theorem kept_trivially (S : Shelf) (o : Options) :
    S.Kept o (fun _ _ _ _ => True) (fun _ _ => True) :=
  ⟨fun _ => ⟨fun _ => trivial, fun _ _ => trivial⟩, fun _ _ _ _ _ => trivial,
    fun _ _ => trivial, fun _ _ _ _ _ => trivial⟩

theorem calm_of_follows (h : (S.setting o).Follows depth trail path text w d link w')
    (hw : w.Calm) : w'.Calm := by
  obtain ⟨-, before, demand, after, asked, -, -, -, -, rfl⟩ := h
  have hclosed : Ledger.Closed fun _ => True := (kept_trivially S o).closed trail
  have hkeeps : (((S.setting o).scopeAt depth trail path text).meetAll [] before).Keeps
      fun _ => True :=
    Scope.keeps_meetAll hclosed
      (fun _ _ _ _ e next _ => (kept_trivially S o).keeps_follow depth trivial) []
  exact (hkeeps w hw).1

theorem calm_of_assembles (h : (S.setting o).Assembles root text? depth trail path text w) :
    w.Calm := by
  induction h with
  | root h => exact calm_of_opens h
  | link h hfollows hcanon hmem hraised hread ih =>
      exact calm_read S o _ (calm_of_follows hfollows ih)

theorem calm_of_resolves (h : (S.setting o).Resolves root text? depth trail path d link w) :
    w.Calm := by
  obtain ⟨text, w₀, hassembles, hfollows⟩ := h
  exact calm_of_follows hfollows (calm_of_assembles hassembles)

def Uncancelled (l : Ledger) : Prop := ∀ p ∈ l.problems, p.kind ≠ .cancelled

theorem kept_uncancelled (S : Shelf) (o : Options) :
    S.Kept o (fun _ _ _ _ => True) (fun _ => Uncancelled) := by
  have happend : ∀ {a b : Ledger}, Uncancelled a → Uncancelled b → Uncancelled (a ++ b) :=
    fun ha hb p hp => (List.mem_append.mp hp).elim (ha p) (hb p)
  refine ⟨fun _ => ⟨fun hplain p hp => ?_, happend⟩, fun _ _ _ _ _ => trivial, ?_, ?_⟩
  · rcases hplain.problems p hp with h | h <;> rw [h] <;> simp
  · intro trail referrer d link w out _ hend
    refine happend (fun p hp => absurd hp List.not_mem_nil) fun p hp => ?_
    cases hend with
    | unresolved => rw [List.mem_singleton.mp hp]; exact Problem.Kind.noConfusion
    | recursive => cases hp
    | cycle => rw [List.mem_singleton.mp hp]; exact Problem.Kind.noConfusion
    | tooDeep => rw [List.mem_singleton.mp hp]; exact Problem.Kind.noConfusion
  · intro trail referrer d link path text assembled l _ _ _ _ hl
    exact happend (fun p hp => absurd hp List.not_mem_nil) hl

theorem uncancelled_run (S : Shelf) (o : Options) (root : Path) (text? : Option String) :
    Uncancelled (Extraction.run (S.setting o) root text?).ledger := by
  rcases opens_or_unresolved S o root text? with ⟨path, text, w, hopens⟩ | ⟨rfl, hmissing⟩
  · exact (kept_uncancelled S o).ledger_run hopens fun _ _ _ => trivial
  · intro p hp
    rw [Setting.run_unresolved (s := S.setting o) root hmissing] at hp
    rw [List.mem_singleton.mp hp]
    exact Problem.Kind.noConfusion

end Shelf

end Stencil
