import Mathlib.Algebra.GroupWithZero.Nat
import Stencil.Proofs.Visits

/-!
# What comes of each link

Every link that is followed has a record, and something comes of it. Its file is not
there or cannot be read; it leads back into the trail or too deep; the run has been
called off; or the file is read, and then it cannot be scanned or is assembled. What
comes of a link decides what the ledger has about it, one dependency at most and one
problem at most, and beside these the ledger has only what templates say about their
own syntax. So a ledger can be written as a row of lines, one for each record, and
what is summed up over the ledger is a sum over the lines.

That a run has been called off is told at the first link this stops. Whether it has
been told is kept in the watch, so the statement about a stretch of the ledger speaks
of the watch before and after it.

The induction is on the depth that is left. The lines of a file that is assembled
stand behind the line of its link.
-/

namespace Stencil

/-- What comes of following a link. -/
inductive Fate where
  | unresolved (error : LoadError)
  | unreadable (error : LoadError)
  /-- The file is on the trail; the chain goes from there back to it. -/
  | recursive (chain : List Path)
  | tooDeep (depth : Nat)
  /-- The run has been called off, which is told here or was told before. -/
  | cancelled (told : Bool)
  | unscannable (text : String) (error : ScanError)
  | assembled (text : String)

namespace Ledger

/-- A record with what came of its link. -/
structure Line where
  record : ImportRecord
  fate : Fate

namespace Line

/-- The file that was read. -/
def content? (l : Line) : Option (Path × String) :=
  match l.fate with
  | .unscannable text _ | .assembled text => some (l.record.resolved, text)
  | _ => none

def dependency? (l : Line) : Option Dependency :=
  match l.fate with
  | .unresolved _ | .unreadable _ => some (.absent l.record.resolved)
  | .recursive _ | .tooDeep _ | .cancelled _ => none
  | .unscannable text _ | .assembled text => some (.ofText l.record.resolved text)

def problem? (o : Options) (l : Line) : Option Problem :=
  let here (cause : Problem.Cause) := Problem.ofLocation cause l.record.file l.record.range.first
  match l.fate with
  | .unresolved error => some (here (.unresolvedLink l.record.written error))
  | .unreadable error => some (here (.unreadableLink l.record.written error))
  | .recursive chain => if o.allowRecursiveImports then none else some (here (.importCycle chain))
  | .tooDeep depth => some (here (.tooDeep l.record.written depth o.maxImportDepth))
  | .cancelled told => if told then some (here (.cancelled l.record.written)) else none
  | .unscannable _ error =>
      some (.ofLocation (.unclosed error) l.record.resolved error.range.first)
  | .assembled _ => none

/-- Whether the link was not followed although its file is there. -/
def isRefused (l : Line) : Bool :=
  match l.fate with
  | .recursive _ | .tooDeep _ | .cancelled _ => true
  | _ => false

def isCancelled (l : Line) : Bool :=
  match l.fate with
  | .cancelled _ => true
  | _ => false

/-- Whether what is written about a link is so. -/
def Holds (s : Setting) (l : Line) : Prop :=
  let r := l.record
  let canonical := s.loader.canonicalize
    (Link.target r.written r.file s.options.basePath s.options.templateExtension)
  match l.fate with
  | .unresolved error =>
      canonical = .error error ∧
        r.resolved = Link.target r.written r.file s.options.basePath s.options.templateExtension ∧
        r.isRecursive = false ∧ r.value = .null
  | .unreadable error =>
      canonical = .ok r.resolved ∧ s.loader.read r.resolved = .error error ∧
        r.isRecursive = false ∧ r.value = .null
  | .recursive _ => canonical = .ok r.resolved ∧ r.isRecursive = true ∧ r.value = .null
  | .tooDeep _ | .cancelled _ =>
      canonical = .ok r.resolved ∧ r.isRecursive = false ∧ r.value = .null
  | .unscannable text error =>
      canonical = .ok r.resolved ∧ s.loader.read r.resolved = .ok text ∧
        (Scan.ofText text).error = some error ∧ r.isRecursive = false ∧ r.value = .null
  | .assembled text =>
      canonical = .ok r.resolved ∧ s.loader.read r.resolved = .ok text ∧
        (Scan.ofText text).error = none ∧ r.isRecursive = false ∧
        ∃ depth trail w, r.value =
          (s.assembleText r.resolved text (s.follow depth trail r.resolved) w).value.value

end Line

/-- Whether a ledger is what some lines say, and problems of the syntax of templates. -/
structure Itemized (s : Setting) (lines : List Line) (l : Ledger) : Prop where
  holds : ∀ line ∈ lines, line.Holds s
  imports : l.imports = lines.map Line.record
  dependencies : l.dependencies = lines.filterMap Line.dependency?
  problems : l.problems.filter (fun p => p.kind ≠ .parseError) =
    lines.filterMap (Line.problem? s.options)
  byteCount : l.byteCount =
    ((lines.filterMap Line.content?).map fun c => c.2.utf8ByteSize).sum

variable {s : Setting} {first second : List Line} {a b : Ledger}

theorem itemized_own {problems : List Problem} (h : ∀ p ∈ problems, p.kind = .parseError) :
    Itemized s [] { problems } where
  holds _ h := absurd h List.not_mem_nil
  imports := rfl
  dependencies := rfl
  problems := List.filter_eq_nil_iff.mpr fun p hp => by simp [h p hp]
  byteCount := rfl

theorem Itemized.append (ha : Itemized s first a) (hb : Itemized s second b) :
    Itemized s (first ++ second) (a ++ b) where
  holds line hmem := (List.mem_append.mp hmem).elim (ha.holds line) (hb.holds line)
  imports := by rw [List.map_append, ← ha.imports, ← hb.imports]; rfl
  dependencies := by rw [List.filterMap_append, ← ha.dependencies, ← hb.dependencies]; rfl
  problems := by
    rw [List.filterMap_append, ← ha.problems, ← hb.problems, ← List.filter_append]
    rfl
  byteCount := by
    rw [List.filterMap_append, List.map_append, List.sum_append, ← ha.byteCount, ← hb.byteCount]
    rfl

/-! ## Being called off is told once -/

/-- Whether being called off is told at the first line it stops and at no other one; `told` says
whether it was told before. -/
def ToldOnce (told : Bool) : List Line → Prop
  | [] => True
  | line :: rest =>
      match line.fate with
      | .cancelled here => here = !told ∧ ToldOnce true rest
      | _ => ToldOnce told rest

def toldAfter (told : Bool) (lines : List Line) : Bool := told || lines.any Line.isCancelled

theorem toldOnce_append {told : Bool} (h : ToldOnce told first)
    (h' : ToldOnce (toldAfter told first) second) : ToldOnce told (first ++ second) := by
  induction first generalizing told with
  | nil => simpa [toldAfter] using h'
  | cons line rest ih =>
      obtain ⟨record, fate⟩ := line
      cases fate <;> simp only [List.cons_append, ToldOnce] at h ⊢
      case cancelled here => exact ⟨h.1, ih h.2 (by simpa [toldAfter, Line.isCancelled] using h')⟩
      all_goals exact ih h (by simpa [toldAfter, Line.isCancelled] using h')

theorem toldAfter_append (told : Bool) (first second : List Line) :
    toldAfter (toldAfter told first) second = toldAfter told (first ++ second) := by
  simp [toldAfter, Bool.or_assoc]

theorem ToldOnce.told_iff {told here : Bool} {line : Line}
    (h : ToldOnce told (first ++ line :: second)) (hfate : line.fate = .cancelled here) :
    here = true ↔ told = false ∧ ∀ earlier ∈ first, earlier.isCancelled = false := by
  induction first generalizing told with
  | nil =>
      rw [List.nil_append, ToldOnce, hfate] at h
      rw [h.1]
      cases told <;> simp
  | cons other rest ih =>
      obtain ⟨record, fate⟩ := other
      cases fate <;> simp only [List.cons_append, ToldOnce] at h
      case cancelled => simpa [Line.isCancelled] using ih h.2
      all_goals simpa [Line.isCancelled] using ih h

/-! ## One link -/

theorem Line.kind_problem? {o : Options} {line : Line} {p : Problem}
    (h : line.problem? o = some p) : p.kind ≠ .parseError := by
  obtain ⟨record, fate⟩ := line
  cases fate <;> simp only [problem?] at h
  case recursive | cancelled =>
    split at h
    · cases h <;> exact Problem.Kind.noConfusion
    · cases h <;> exact Problem.Kind.noConfusion
  all_goals cases h <;> exact Problem.Kind.noConfusion

/-- What a line says of itself. -/
def Line.ledger (o : Options) (line : Line) : Ledger where
  imports := [line.record]
  dependencies := line.dependency?.toList
  problems := (line.problem? o).toList
  byteCount := (line.content?.map fun c => c.2.utf8ByteSize).getD 0

theorem itemized_line {line : Line} (h : line.Holds s) :
    Itemized s [line] (line.ledger s.options) where
  holds other hmem := List.mem_singleton.mp hmem ▸ h
  imports := rfl
  dependencies := by cases hd : line.dependency? <;> simp [Line.ledger, hd]
  problems := by
    cases hp : line.problem? s.options with
    | none => simp [Line.ledger, hp]
    | some p => simp [Line.ledger, hp, Line.kind_problem? hp]
  byteCount := by cases hc : line.content? <;> simp [Line.ledger, hc]

/-- Whether a stretch of the ledger is lines, with the watch before and after it saying whether
being called off has been told. -/
def Reckoned (s : Setting) (w w' : Watch) (l : Ledger) : Prop :=
  ∃ lines, Itemized s lines l ∧ ToldOnce w.reported lines ∧
    w'.reported = toldAfter w.reported lines

theorem chained_reckoned (s : Setting) : Ledger.Chained (Reckoned s) where
  own w _ h := ⟨[], itemized_own h, trivial, by simp [toldAfter]⟩
  append := by
    rintro w w' w'' a b ⟨first, ha, htold, hw'⟩ ⟨second, hb, htold', hw''⟩
    refine ⟨first ++ second, ha.append hb, toldOnce_append htold (hw' ▸ htold'), ?_⟩
    rw [hw'', hw', toldAfter_append]

theorem reckoned_line {w w' : Watch} (line : Line) (h : line.Holds s)
    (htold : ToldOnce w.reported [line]) (hw : w'.reported = toldAfter w.reported [line]) :
    Reckoned s w w' (line.ledger s.options) := ⟨[line], itemized_line h, htold, hw⟩

/-- A line that is not about a cancellation, in front of other lines. -/
theorem Reckoned.cons {w w' : Watch} {line : Line} {l m : Ledger} (hm : Reckoned s w w' m)
    (h : line.Holds s) (hcancelled : line.isCancelled = false)
    (hl : l = line.ledger s.options ++ m) : Reckoned s w w' l := by
  obtain ⟨lines, hlines, htold, hw⟩ := hm
  refine ⟨line :: lines, hl ▸ (itemized_line h).append hlines, ?_, ?_⟩
  · obtain ⟨record, fate⟩ := line
    cases fate <;> first | exact htold | cases hcancelled
  · rw [hw, toldAfter, toldAfter, List.any_cons, hcancelled, Bool.false_or]

theorem reckoned_single {w w' : Watch} (line : Line) (h : line.Holds s)
    (hcancelled : line.isCancelled = false) (hw : w'.reported = w.reported) :
    Reckoned s w w' (line.ledger s.options) := by
  have hempty : Reckoned s w w' .empty :=
    ⟨[], itemized_own fun _ h => absurd h List.not_mem_nil, trivial, by simpa [toldAfter] using hw⟩
  exact hempty.cons h hcancelled (by rw [append_empty])

end Ledger

namespace Setting

open Ledger

variable {s : Setting} {trail : List Path} {referrer path : Path} {d : Directive} {link : Link}

theorem reckoned_assembleText (r : ImportRecord) (text : String)
    {follow : Directive → Link → Run Assembled} (w : Watch)
    (hfollow : ∀ d link, (follow d link).Writes (Reckoned s))
    (herror : ∀ error, (Scan.ofText text).error = some error →
      Line.Holds s ⟨r, .unscannable text error⟩)
    (hnone : (Scan.ofText text).error = none → Line.Holds s ⟨r, .assembled text⟩) :
    Reckoned s w (s.assembleText r.resolved text follow w).watch
      ({ imports := [r] } ++ (s.assembleText r.resolved text follow w).ledger) := by
  cases hscan : (Scan.ofText text).error with
  | some error =>
      rw [assembleText_error s hscan]
      refine Reckoned.cons ((chained_reckoned s).empty w) (herror error hscan) rfl ?_
      simp [Line.ledger, Line.dependency?, Line.problem?, Line.content?, readLedger, append_def,
        append, empty]
  | none =>
      rw [assembleText_ok s hscan]
      dsimp only
      have hmet := s.writes_meetAll (chained_reckoned s) r.resolved hscan
        (fun d link _ => hfollow d link) w
      generalize (s.scope r.resolved (Scan.ofText text).tokens follow).meetAll [] _ w = met
        at hmet ⊢
      obtain ⟨lines, hlines, htold, hw⟩ := hmet
      have hcounts : Itemized s [] (counts (Scan.ofText text).tokens) :=
        ⟨by simp, rfl, rfl, rfl, rfl⟩
      have hinner : Reckoned s w met.watch (counts (Scan.ofText text).tokens ++ met.ledger) :=
        ⟨lines, hcounts.append hlines, htold, hw⟩
      refine hinner.cons (hnone hscan) rfl ?_
      simp [Line.ledger, Line.dependency?, Line.problem?, Line.content?, readLedger, append_def,
        append]

theorem reckoned_ending {w : Watch} {follow : Option Following} {out : Outcome Followed}
    (hend : s.Ending trail referrer d link w follow out)
    (hfollow : ∀ next, follow = some next → ∃ n, next = s.follow n ∧
      ∀ trail referrer d link, (s.follow n trail referrer d link).Writes (Reckoned s)) :
    Reckoned s w out.watch ({ imports := [record referrer d link out.value] } ++ out.ledger) := by
  cases hend with
  | unresolved error hcanon =>
      exact reckoned_single ⟨record referrer d link ⟨_, _, _⟩, .unresolved error⟩
        ⟨hcanon, rfl, rfl, rfl⟩ rfl rfl
  | recursive path hcanon hmem hallow | cycle path hcanon hmem hallow =>
      have hline : Reckoned s w w (Line.ledger s.options
          ⟨record referrer d link ⟨path, true, .nothing⟩, .recursive (cycle trail path)⟩) :=
        reckoned_single _ ⟨hcanon, rfl, rfl⟩ rfl rfl
      rw [Line.ledger, Line.problem?, hallow] at hline
      exact hline
  | tooDeep path hcanon hmem =>
      exact reckoned_single ⟨record referrer d link ⟨_, _, _⟩, .tooDeep trail.length⟩
        ⟨hcanon, rfl, rfl⟩ rfl rfl
  | silent path next hcanon hmem hraised hreported =>
      exact reckoned_line ⟨record referrer d link ⟨_, _, _⟩, .cancelled false⟩
        ⟨hcanon, rfl, rfl⟩ (by rw [hreported]; exact ⟨rfl, trivial⟩) (by rw [hreported]; rfl)
  | cancelled path next hcanon hmem hraised hreported =>
      exact reckoned_line ⟨record referrer d link ⟨_, _, _⟩, .cancelled true⟩
        ⟨hcanon, rfl, rfl⟩ (by rw [hreported]; exact ⟨rfl, trivial⟩) (by rw [hreported]; rfl)
  | unreadable path error next hcanon hmem hraised hread =>
      exact reckoned_single ⟨record referrer d link ⟨_, _, _⟩, .unreadable error⟩
        ⟨hcanon, hread, rfl, rfl⟩ rfl rfl
  | file path text next hcanon hmem hraised hread =>
      obtain ⟨n, rfl, hnext⟩ := hfollow next rfl
      dsimp only
      generalize hw : (Run.read s.loader s.signal path w).watch = w'
      have hreported : w'.reported = w.reported := hw ▸ rfl
      have hfile := reckoned_assembleText (record referrer d link ⟨path, false,
          (s.assembleText path text (s.follow n (trail ++ [path]) path) w').value⟩) text w'
        (fun d link => hnext (trail ++ [path]) path d link)
        (fun error hscan => ⟨hcanon, hread, hscan, rfl, by
          simp only [record, assembleText_error s hscan, Assembled.nothing]⟩)
        fun hscan => ⟨hcanon, hread, hscan, rfl, n, _, _, rfl⟩
      unfold Reckoned at hfile ⊢
      rw [← hreported]
      exact hfile

theorem reckoned_follow (s : Setting) (depth : Nat) (trail : List Path) (referrer : Path)
    (d : Directive) (link : Link) :
    (s.follow depth trail referrer d link).Writes (Reckoned s) := by
  induction depth generalizing trail referrer d link with
  | zero =>
      intro w
      rw [follow_apply]
      exact reckoned_ending (s.enter_ends trail referrer d link none w) fun _ h => by cases h
  | succ depth ih =>
      intro w
      rw [follow_apply]
      refine reckoned_ending (s.enter_ends trail referrer d link (some (s.follow depth)) w) ?_
      rintro _ ⟨⟩
      exact ⟨depth, rfl, ih⟩

end Setting

/-! ## A whole extraction -/

namespace Ledger

variable {s : Setting} {lines : List Line} {l : Ledger}

theorem Itemized.length_dependencies (h : Itemized s lines l) :
    l.dependencies.length + lines.countP Line.isRefused = l.imports.length := by
  have hdependency : ∀ line : Line, line.dependency?.isSome = !line.isRefused := by
    rintro ⟨record, fate⟩
    cases fate <;> rfl
  have hcount : lines.countP (fun line => line.dependency?.isSome) =
      lines.countP fun line => !line.isRefused :=
    List.countP_congr fun line _ => by rw [hdependency]
  rw [h.dependencies, h.imports, List.length_filterMap_eq_countP, List.length_map, hcount,
    List.length_eq_countP_add_countP Line.isRefused, Nat.add_comm]
  simp only [Bool.not_eq_true, Bool.decide_eq_false]

theorem Itemized.countP_fileNotFound (h : Itemized s lines l) :
    l.problems.countP (fun p => p.kind = .fileNotFound) =
      l.dependencies.countP (fun d => d.digest = none) := by
  have hline : ∀ line : Line,
      ((line.problem? s.options).map fun p => decide (p.kind = .fileNotFound)).getD false =
        (line.dependency?.map fun d => decide (d.digest = none)).getD false := by
    rintro ⟨record, fate⟩
    cases fate <;> simp only [Line.problem?, Line.dependency?]
    case recursive | cancelled => split <;> rfl
    all_goals rfl
  have hfilter : l.problems.countP (fun p => p.kind = .fileNotFound) =
      (l.problems.filter fun p => p.kind ≠ .parseError).countP fun p => p.kind = .fileNotFound := by
    rw [List.countP_filter]
    exact List.countP_congr fun p _ => by cases p.kind <;> simp
  rw [hfilter, h.problems, h.dependencies, List.countP_filterMap, List.countP_filterMap]
  exact List.countP_congr fun line _ => by rw [hline]

theorem Itemized.filter_hashed (h : Itemized s lines l) :
    l.dependencies.filter (fun d => d.digest ≠ none) =
      (lines.filterMap Line.content?).map fun c => .ofText c.1 c.2 := by
  rw [h.dependencies, List.filter_filterMap, List.map_filterMap]
  refine congrArg (fun f => lines.filterMap f) (funext ?_)
  rintro ⟨record, fate⟩
  cases fate <;> rfl

end Ledger

/-- The ledger of an extraction whose root is opened and scans is the dependency on the root and
a row of lines, one for each record. -/
theorem Extraction.ledger_eq_lines {s : Setting} {root path : Path} {text? : Option String}
    {text : String} {w : Watch} (hopens : s.Opens root text? path text w)
    (hscan : (Scan.ofText text).error = none) :
    ∃ lines : List Ledger.Line,
      let l := (Extraction.run s root text?).ledger
      let contents := (path, text) :: lines.filterMap Ledger.Line.content?
      (∀ line ∈ lines, line.Holds s) ∧
      l.imports = lines.map Ledger.Line.record ∧
      l.dependencies = .ofText path text :: lines.filterMap Ledger.Line.dependency? ∧
      l.problems.filter (fun p => p.kind ≠ .parseError) =
        lines.filterMap (Ledger.Line.problem? s.options) ∧
      (∀ before line after told, lines = before ++ line :: after →
        line.fate = .cancelled told →
          (told = true ↔ ∀ earlier ∈ before, earlier.isCancelled = false)) ∧
      l.dependencies.length + lines.countP Ledger.Line.isRefused = 1 + l.imports.length ∧
      l.problems.countP (fun p => p.kind = .fileNotFound) =
        l.dependencies.countP (fun d => d.digest = none) ∧
      l.dependencies.filter (fun d => d.digest ≠ none) =
        contents.map (fun c => .ofText c.1 c.2) ∧
      l.byteCount = (contents.map fun c => c.2.utf8ByteSize).sum := by
  have hreported : w.reported = false := by cases hopens <;> rfl
  obtain ⟨lines, hlines, htold, -⟩ := s.writes_meetAll (Ledger.chained_reckoned s) path
    hscan (fun d link _ => Setting.reckoned_follow s s.options.maxImportDepth [path] path d link) w
  rw [hreported] at htold
  refine ⟨lines, ?_⟩
  rw [hopens.run_eq, Setting.assembleRoot, Setting.assembleText_ok s hscan]
  dsimp only
  generalize (s.scope path (Scan.ofText text).tokens _).meetAll [] _ w = met at hlines ⊢
  refine ⟨hlines.holds, hlines.imports, ?_, hlines.problems, ?_, ?_, ?_, ?_, ?_⟩
  · show .ofText path text :: met.ledger.dependencies = _
    rw [hlines.dependencies]
  · intro before line after told heq hfate
    rw [heq] at htold
    simpa using htold.told_iff hfate
  · show met.ledger.dependencies.length + 1 + _ = 1 + met.ledger.imports.length
    rw [← hlines.length_dependencies]
    omega
  · show met.ledger.problems.countP _ = (.ofText path text :: met.ledger.dependencies).countP _
    rw [List.countP_cons_of_neg (by simp [Dependency.ofText]), hlines.countP_fileNotFound]
  · show (.ofText path text :: met.ledger.dependencies).filter _ = _
    rw [List.filter_cons_of_pos (by simp [Dependency.ofText]), hlines.filter_hashed]
    rfl
  · show text.utf8ByteSize + (0 + met.ledger.byteCount) = _
    rw [Nat.zero_add, hlines.byteCount]
    rfl

namespace Shelf

/-- Links to a file, to none, to the file itself and to two more files. -/
def scatteredText : String := "// [A](a)\n// [M](m)\n// [R](r)\n// [B](b)\n// [C](c)"

def scattered : Shelf :=
  ⟨[(⟨"/r.tmpl"⟩, scatteredText), (⟨"/a.tmpl"⟩, "1"), (⟨"/b.tmpl"⟩, "2"), (⟨"/c.tmpl"⟩, "3")]⟩

end Shelf

/-- With a signal that comes while the first link's file is read, three of the five links are
refused. -/
theorem Extraction.ledger_eq_lines_scattered :
    let s : Setting :=
      ⟨.standard ⟨"/"⟩, Shelf.scattered.loader, ⟨false, fun _ path => path = ⟨"/a.tmpl"⟩⟩⟩
    let l := (Extraction.run s ⟨"r.tmpl"⟩ none).ledger
    (∃ w, s.Opens ⟨"r.tmpl"⟩ none ⟨"/r.tmpl"⟩ Shelf.scatteredText w) ∧
      (Scan.ofText Shelf.scatteredText).error = none ∧
      l.imports.length = 5 ∧ l.dependencies.length = 3 ∧
      ∃ lines : List Ledger.Line, (∀ line ∈ lines, line.Holds s) ∧
        l.imports = lines.map Ledger.Line.record ∧ lines.countP Ledger.Line.isRefused = 3 := by
  intro s l
  have hopens : s.Opens ⟨"r.tmpl"⟩ none ⟨"/r.tmpl"⟩ Shelf.scatteredText _ :=
    .file (by decide +kernel) (by decide +kernel)
  have hscan : (Scan.ofText Shelf.scatteredText).error = none := by decide +kernel
  have himports : l.imports.length = 5 := by decide +kernel
  have hdependencies : l.dependencies.length = 3 := by decide +kernel
  obtain ⟨lines, hholds, hrecords, -, -, -, hcount, -⟩ :=
    Extraction.ledger_eq_lines hopens hscan
  have hrefused : l.dependencies.length + lines.countP Ledger.Line.isRefused =
      1 + l.imports.length :=
    hcount
  exact ⟨⟨_, hopens⟩, hscan, himports, hdependencies, lines, hholds, hrecords, by omega⟩

end Stencil
