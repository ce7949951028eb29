import Stencil.Proofs.DraftDirectives
import Stencil.Proofs.NormalPath

/-!
# How following a link ends

Following a link asks its questions in a fixed order, and the first one with an
answer decides. There is one equation for each way it can end, and `Ending` lists the
ways, so that what holds of everything that is followed is proved by going through
them once.

Below that, the value and the ledger of a file are those of its demands, and the
record of a link stands in front of what its file wrote.
-/

namespace Stencil

/-- The way the files behind a link are followed in their turn. -/
abbrev Following := List Path → Path → Directive → Link → Run Assembled

namespace Setting

variable (s : Setting)

/-- Where a link in a file leads. -/
def targetOf (referrer : Path) (link : Link) : Path :=
  Link.target link.path referrer s.options.basePath s.options.templateExtension

/-- Where a link leads depends on the options only. -/
theorem targetOf_congr {s s' : Setting} (h : s'.options = s.options) (referrer : Path)
    (link : Link) : s'.targetOf referrer link = s.targetOf referrer link := by
  rw [targetOf, targetOf, h]

theorem canonicalize_targetOf_congr {s s' : Setting} (hoptions : s'.options = s.options)
    (hcanon : s'.loader.canonicalize = s.loader.canonicalize) (referrer : Path) (link : Link) :
    s'.loader.canonicalize (s'.targetOf referrer link) =
      s.loader.canonicalize (s.targetOf referrer link) := by
  rw [targetOf_congr hoptions, hcanon]

/-- What is watched while a file is read depends on the signal only. -/
theorem watch_read_congr {s s' : Setting} (h : s'.signal = s.signal) (path : Path) (w : Watch) :
    (Run.read s'.loader s'.signal path w).watch = (Run.read s.loader s.signal path w).watch := by
  simp only [Run.read, h]

/-- How links are followed with `depth` further imports allowed, if any is. -/
def deeper : Nat → Option Following
  | 0 => none
  | depth + 1 => some (s.follow depth)

theorem deeper_eq_none {depth : Nat} (h : s.deeper depth = none) : depth = 0 := by
  cases depth with
  | zero => rfl
  | succ n => cases h

theorem deeper_eq_some {depth : Nat} {next : Following} (h : s.deeper depth = some next) :
    ∃ n, depth = n + 1 ∧ next = s.follow n := by
  cases depth with
  | zero => cases h
  | succ n => exact ⟨n, rfl, (Option.some.inj h).symm⟩

theorem follow_apply (depth : Nat) (trail : List Path) (referrer : Path) (d : Directive)
    (link : Link) (w : Watch) :
    s.follow depth trail referrer d link w =
      let o := s.enter trail referrer d link (s.deeper depth) w
      ⟨o.value.assembled, { imports := [record referrer d link o.value] } ++ o.ledger,
        o.watch⟩ := by
  cases depth with
  | zero =>
      simp only [follow, Run.bind_apply, Run.heading, Run.pure_apply, Ledger.append_empty, deeper]
  | succ depth =>
      simp only [follow, Run.bind_apply, Run.heading, Run.pure_apply, Ledger.append_empty, deeper]

/-! ## The text of a file -/

/-- What is written about a text that has been read. -/
def readLedger (path : Path) (text : String) : Ledger :=
  { dependencies := [.ofText path text], byteCount := text.utf8ByteSize }

theorem assembleText_error {path : Path} {text : String} {error : ScanError}
    (h : (Scan.ofText text).error = some error) (follow : Directive → Link → Run Assembled)
    (w : Watch) :
    s.assembleText path text follow w =
      ⟨.nothing,
        readLedger path text ++
          { problems := [.ofLocation (.unclosed error) path error.range.first] },
        w⟩ := by
  simp only [assembleText, h, Run.bind_apply, Run.tell_apply, Run.report_apply, Run.pure_apply,
    Ledger.append_empty]
  rfl

theorem assembleText_ok {path : Path} {text : String} (h : (Scan.ofText text).error = none)
    (follow : Directive → Link → Run Assembled) (w : Watch) :
    s.assembleText path text follow w =
      let tokens := (Scan.ofText text).tokens
      let scope := s.scope path tokens follow
      let met := scope.meetAll [] (demands tokens) w
      ⟨s.reading scope tokens met.value, readLedger path text ++ (counts tokens ++ met.ledger),
        met.watch⟩ := by
  simp only [assembleText, h, Run.bind_apply, Run.tell_apply, assemble_apply]
  rfl

/-! ## The ways following a link ends -/

section Enter

variable {s} {trail : List Path} {referrer path : Path} {d : Directive} {link : Link}
  {follow : Option Following} {w : Watch}

theorem enter_unresolved {error : LoadError}
    (h : s.loader.canonicalize (s.targetOf referrer link) = .error error) :
    s.enter trail referrer d link follow w =
      ⟨⟨s.targetOf referrer link, false, .nothing⟩,
        { dependencies := [.absent (s.targetOf referrer link)],
          problems := [.ofLocation (.unresolvedLink link.path error) referrer d.range.first] },
        w⟩ := by
  unfold targetOf at h ⊢
  simp only [enter, h, Run.bind_apply, Run.tell_apply, Run.report_apply, Run.pure_apply,
    Ledger.append_empty]
  rfl

theorem enter_recursive (h : s.loader.canonicalize (s.targetOf referrer link) = .ok path)
    (hmem : path ∈ trail) (hallow : s.options.allowRecursiveImports = true) :
    s.enter trail referrer d link follow w = ⟨⟨path, true, .nothing⟩, .empty, w⟩ := by
  unfold targetOf at h
  simp only [enter, h, hmem, hallow, if_true]
  rfl

theorem enter_cycle (h : s.loader.canonicalize (s.targetOf referrer link) = .ok path)
    (hmem : path ∈ trail) (hallow : s.options.allowRecursiveImports = false) :
    s.enter trail referrer d link follow w =
      ⟨⟨path, true, .nothing⟩,
        { problems := [.ofLocation (.importCycle (cycle trail path)) referrer d.range.first] },
        w⟩ := by
  unfold targetOf at h
  simp only [enter, h, hmem, hallow, if_true]
  rfl

theorem enter_tooDeep (h : s.loader.canonicalize (s.targetOf referrer link) = .ok path)
    (hmem : path ∉ trail) :
    s.enter trail referrer d link none w =
      ⟨⟨path, false, .nothing⟩,
        { problems :=
            [.ofLocation (.tooDeep link.path trail.length s.options.maxImportDepth) referrer
              d.range.first] },
        w⟩ := by
  unfold targetOf at h
  simp only [enter, h, hmem, if_false]
  rfl

theorem enter_silent (h : s.loader.canonicalize (s.targetOf referrer link) = .ok path)
    (hmem : path ∉ trail) (hraised : w.raised = true) (hreported : w.reported = true)
    (next : Following) :
    s.enter trail referrer d link (some next) w = ⟨⟨path, false, .nothing⟩, .empty, w⟩ := by
  unfold targetOf at h
  simp only [enter, h, hmem, if_false, Run.watch_bind, hraised, hreported, if_true]
  rfl

theorem enter_cancelled (h : s.loader.canonicalize (s.targetOf referrer link) = .ok path)
    (hmem : path ∉ trail) (hraised : w.raised = true) (hreported : w.reported = false)
    (next : Following) :
    s.enter trail referrer d link (some next) w =
      ⟨⟨path, false, .nothing⟩,
        { problems := [.ofLocation (.cancelled link.path) referrer d.range.first] },
        { w with reported := true }⟩ := by
  obtain ⟨reads, raised, reported⟩ := w
  cases hraised
  cases hreported
  unfold targetOf at h
  simp only [enter, h, hmem, if_false, Run.watch_bind, Bool.false_eq_true]
  rfl

theorem enter_unreadable {error : LoadError}
    (h : s.loader.canonicalize (s.targetOf referrer link) = .ok path)
    (hmem : path ∉ trail) (hraised : w.raised = false)
    (hread : s.loader.read path = .error error) (next : Following) :
    s.enter trail referrer d link (some next) w =
      ⟨⟨path, false, .nothing⟩,
        { dependencies := [.absent path],
          problems := [.ofLocation (.unreadableLink link.path error) referrer d.range.first] },
        (Run.read s.loader s.signal path w).watch⟩ := by
  unfold targetOf at h
  simp only [enter, h, hmem, if_false, Run.watch_bind]
  simp only [Run.ite_apply, hraised, Bool.false_eq_true, if_false, Run.bind_apply, Run.read, hread]
  rfl

theorem enter_read {text : String}
    (h : s.loader.canonicalize (s.targetOf referrer link) = .ok path)
    (hmem : path ∉ trail) (hraised : w.raised = false) (hread : s.loader.read path = .ok text)
    (next : Following) :
    s.enter trail referrer d link (some next) w =
      let o := s.assembleText path text (next (trail ++ [path]) path)
        (Run.read s.loader s.signal path w).watch
      ⟨⟨path, false, o.value⟩, o.ledger, o.watch⟩ := by
  unfold targetOf at h
  simp only [enter, h, hmem, if_false, Run.watch_bind]
  simp only [Run.ite_apply, hraised, Bool.false_eq_true, if_false, Run.bind_apply, Run.read, hread,
    Run.pure_apply, Ledger.append_empty, Ledger.empty_append]

end Enter

/-- The ways following a link ends. -/
inductive Ending (s : Setting) (trail : List Path) (referrer : Path) (d : Directive) (link : Link)
    (w : Watch) : Option Following → Outcome Followed → Prop
  | unresolved {follow : Option Following} (error : LoadError)
      (h : s.loader.canonicalize (s.targetOf referrer link) = .error error) :
      Ending s trail referrer d link w follow
        ⟨⟨s.targetOf referrer link, false, .nothing⟩,
          { dependencies := [.absent (s.targetOf referrer link)],
            problems := [.ofLocation (.unresolvedLink link.path error) referrer d.range.first] },
          w⟩
  | recursive {follow : Option Following} (path : Path)
      (h : s.loader.canonicalize (s.targetOf referrer link) = .ok path) (hmem : path ∈ trail)
      (hallow : s.options.allowRecursiveImports = true) :
      Ending s trail referrer d link w follow ⟨⟨path, true, .nothing⟩, .empty, w⟩
  | cycle {follow : Option Following} (path : Path)
      (h : s.loader.canonicalize (s.targetOf referrer link) = .ok path) (hmem : path ∈ trail)
      (hallow : s.options.allowRecursiveImports = false) :
      Ending s trail referrer d link w follow
        ⟨⟨path, true, .nothing⟩,
          { problems :=
              [.ofLocation (.importCycle (Setting.cycle trail path)) referrer d.range.first] },
          w⟩
  | tooDeep (path : Path)
      (h : s.loader.canonicalize (s.targetOf referrer link) = .ok path) (hmem : path ∉ trail) :
      Ending s trail referrer d link w none
        ⟨⟨path, false, .nothing⟩,
          { problems :=
              [.ofLocation (.tooDeep link.path trail.length s.options.maxImportDepth) referrer
                d.range.first] },
          w⟩
  | silent (path : Path) (next : Following)
      (h : s.loader.canonicalize (s.targetOf referrer link) = .ok path) (hmem : path ∉ trail)
      (hraised : w.raised = true) (hreported : w.reported = true) :
      Ending s trail referrer d link w (some next) ⟨⟨path, false, .nothing⟩, .empty, w⟩
  | cancelled (path : Path) (next : Following)
      (h : s.loader.canonicalize (s.targetOf referrer link) = .ok path) (hmem : path ∉ trail)
      (hraised : w.raised = true) (hreported : w.reported = false) :
      Ending s trail referrer d link w (some next)
        ⟨⟨path, false, .nothing⟩,
          { problems := [.ofLocation (.cancelled link.path) referrer d.range.first] },
          { w with reported := true }⟩
  | unreadable (path : Path) (error : LoadError) (next : Following)
      (h : s.loader.canonicalize (s.targetOf referrer link) = .ok path) (hmem : path ∉ trail)
      (hraised : w.raised = false) (hread : s.loader.read path = .error error) :
      Ending s trail referrer d link w (some next)
        ⟨⟨path, false, .nothing⟩,
          { dependencies := [.absent path],
            problems := [.ofLocation (.unreadableLink link.path error) referrer d.range.first] },
          (Run.read s.loader s.signal path w).watch⟩
  | file (path : Path) (text : String) (next : Following)
      (h : s.loader.canonicalize (s.targetOf referrer link) = .ok path) (hmem : path ∉ trail)
      (hraised : w.raised = false) (hread : s.loader.read path = .ok text) :
      Ending s trail referrer d link w (some next)
        (let o := s.assembleText path text (next (trail ++ [path]) path)
          (Run.read s.loader s.signal path w).watch
        ⟨⟨path, false, o.value⟩, o.ledger, o.watch⟩)

theorem enter_ends (trail : List Path) (referrer : Path) (d : Directive) (link : Link)
    (follow : Option Following) (w : Watch) :
    s.Ending trail referrer d link w follow (s.enter trail referrer d link follow w) := by
  cases h : s.loader.canonicalize (s.targetOf referrer link) with
  | error error => rw [enter_unresolved h]; exact .unresolved error h
  | ok path =>
      by_cases hmem : path ∈ trail
      · cases hallow : s.options.allowRecursiveImports with
        | true => rw [enter_recursive h hmem hallow]; exact .recursive path h hmem hallow
        | false => rw [enter_cycle h hmem hallow]; exact .cycle path h hmem hallow
      · match follow with
        | none => rw [enter_tooDeep h hmem]; exact .tooDeep path h hmem
        | some next =>
            cases hraised : w.raised with
            | true =>
                cases hreported : w.reported with
                | true =>
                    rw [enter_silent h hmem hraised hreported]
                    exact .silent path next h hmem hraised hreported
                | false =>
                    rw [enter_cancelled h hmem hraised hreported]
                    exact .cancelled path next h hmem hraised hreported
            | false =>
                cases hread : s.loader.read path with
                | error error =>
                    rw [enter_unreadable h hmem hraised hread]
                    exact .unreadable path error next h hmem hraised hread
                | ok text =>
                    rw [enter_read h hmem hraised hread]
                    exact .file path text next h hmem hraised hread

/-! ## The links of a template -/

/-- A directive that takes a link's value takes it from a link of the same template. -/
theorem mem_of_linkOf? {path : Path} {tokens : List Token}
    {follow : Directive → Link → Run Assembled} {d e : Directive} {link : Link}
    (hd : d ∈ Directive.ofTokens 0 tokens)
    (h : (s.scope path tokens follow).linkOf? d = some (e, link)) :
    e ∈ Directive.ofTokens 0 tokens ∧ e.meaning = .link link := by
  unfold Scope.linkOf? at h
  split at h
  · next hmeaning => cases h; exact ⟨hd, hmeaning⟩
  · have hmem := Assoc.mem_of_find? h
    obtain ⟨f, hf, hname⟩ := List.mem_filterMap.mp hmem
    split at hname
    · next hmeaning =>
        obtain ⟨name, -, hpair⟩ := Option.map_eq_some_iff.mp hname
        cases hpair
        exact ⟨hf, hmeaning⟩
    · cases hname

theorem linkOf?_of_meaning {path : Path} {tokens : List Token}
    {follow : Directive → Link → Run Assembled} {d : Directive} {link : Link}
    (h : d.meaning = .link link) :
    (s.scope path tokens follow).linkOf? d = some (d, link) := by
  simp only [Scope.linkOf?, h]

end Setting

end Stencil
