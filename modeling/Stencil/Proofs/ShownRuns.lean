import Stencil.Proofs.LineEndings
import Stencil.Proofs.Positions

/-!
# Extractions that are shown alike

Two loaders may have texts that are shown alike under the same paths. As long as nothing goes
wrong, an extraction with the one is an extraction with the other: a link stands in the same row
and column in both, leads to the same path, and gives the same value and the same map there, by
induction on the depth that is left. What is written is the same but for offsets and for what is
said of the files as bytes.

Where something does go wrong the two may part, since a text with a fault need not be shown like
the same text with other line ends.
-/

namespace Stencil

/-! ## What is shown of a ledger -/

/-- A record with rows and columns only. -/
def ImportRecord.shown (r : ImportRecord) : ImportRecord :=
  { r with range := r.range.relocate .shown }

namespace Ledger

/-- A ledger without what it says of bytes: offsets, digests and sizes. -/
def shown (l : Ledger) : Ledger :=
  { l with imports := l.imports.map ImportRecord.shown, dependencies := [], byteCount := 0 }

theorem shown_append (a b : Ledger) : (a ++ b).shown = a.shown ++ b.shown := by
  show (⟨List.map _ (a.imports ++ b.imports), _, _, _, _, _⟩ : Ledger) = _
  rw [List.map_append]
  rfl

theorem problems_append_eq_nil {a b : Ledger} :
    (a ++ b).problems = [] ↔ a.problems = [] ∧ b.problems = [] := List.append_eq_nil_iff

end Ledger

/-- Whether two parts of a run give the same and show the same. -/
structure Outcome.ShownLike (out out' : Outcome α) : Prop where
  value : out'.value = out.value
  ledger : out'.ledger.shown = out.ledger.shown
  watch : out'.watch = out.watch

/-! ## What is read off drafts that are shown alike -/

/-- Whether two looks see the same at directives that are shown alike. -/
def Look.ShownLike (look look' : Look) : Prop :=
  ∀ d d', d'.relocate .shown = d.relocate .shown → look' d' = look d

namespace Draft

variable {draft draft' : Draft} {look look' : Look}

theorem read_shown (h : draft'.relocate .shown = draft.relocate .shown)
    (hlook : look.ShownLike look') : draft'.read look' = draft.read look := by
  obtain rfl : look' = look := funext fun d => hlook d d rfl
  have hself : (fun d : Directive => look' (d.relocate .shown)) = look' :=
    funext fun d => hlook d _ rfl
  have hread := congrArg (Draft.read look') h
  rwa [read_relocate, read_relocate, hself] at hread

theorem entries_shown (h : draft'.relocate .shown = draft.relocate .shown)
    (hlook : look.ShownLike look') (path : Path) :
    draft'.entries path look' = draft.entries path look := by
  obtain rfl : look' = look := funext fun d => hlook d d rfl
  have hself : (fun d : Directive => look' (d.relocate .shown)) = look' :=
    funext fun d => hlook d _ rfl
  have hentries := congrArg (Draft.entries path look') h
  rwa [entries_relocate Location.keepsShown_shown, entries_relocate Location.keepsShown_shown,
    hself] at hentries

end Draft

/-! ## Scopes -/

/-- A link of a template with the rows and columns of its directive only. -/
def Link.shown (found : Directive × Link) : Directive × Link := (found.1.relocate .shown, found.2)

/-- Whether directives that are shown alike stand for the same in two scopes, as long as nothing
goes wrong. -/
structure Scope.ShownLike (s s' : Scope) : Prop where
  path : s'.path = s.path
  given : s'.given = s.given
  names : ∀ name, (Assoc.find? name s'.names).map Link.shown =
    (Assoc.find? name s.names).map Link.shown
  follow : ∀ {d d'}, d'.relocate .shown = d.relocate .shown → ∀ link w,
    (s.follow d link w).ledger.problems = [] →
      (s.follow d link w).ShownLike (s'.follow d' link w)

namespace Scope.ShownLike

variable {s s' : Scope} {t : Table} {d d' : Directive} {demand demand' : Demand}
  {demands demands' : List Demand} {w : Watch}

theorem linkOf? (h : s.ShownLike s') (hd : d'.relocate .shown = d.relocate .shown) :
    (s'.linkOf? d').map Link.shown = (s.linkOf? d).map Link.shown := by
  rw [Scope.linkOf?, Scope.linkOf?, Directive.meaning_eq_of_relocate hd]
  cases d.meaning with
  | link link => exact congrArg (fun d => some (d, link)) hd
  | «variable» expression => exact h.names _

theorem exists_linkOf? (h : s.ShownLike s') (hd : d'.relocate .shown = d.relocate .shown)
    {e : Directive} {link : Link} (hlink : s.linkOf? d = some (e, link)) :
    ∃ e', s'.linkOf? d' = some (e', link) ∧ e'.relocate .shown = e.relocate .shown := by
  have hsame := h.linkOf? hd
  rw [hlink] at hsame
  obtain ⟨⟨e', link'⟩, hlink', hshown⟩ := Option.map_eq_some_iff.mp hsame
  obtain ⟨he, rfl⟩ := Prod.mk.inj hshown
  exact ⟨e', hlink', he⟩

theorem linkOf?_none (h : s.ShownLike s') (hd : d'.relocate .shown = d.relocate .shown)
    (hlink : s.linkOf? d = none) : s'.linkOf? d' = none := by
  have hsame := h.linkOf? hd
  rw [hlink] at hsame
  exact Option.map_eq_none_iff.mp hsame

theorem seen (h : s.ShownLike s') (t : Table) : Look.ShownLike (s.seen t) (s'.seen t) := by
  intro d d' hd
  cases hlink : s.linkOf? d with
  | none =>
      rw [Scope.seen, Scope.seen, hlink, h.linkOf?_none hd hlink]
      dsimp only
      rw [Scope.placeholder, Scope.placeholder, h.given, Directive.meaning_eq_of_relocate hd]
  | some found =>
      obtain ⟨e, link⟩ := found
      obtain ⟨e', hlink', he⟩ := h.exists_linkOf? hd hlink
      rw [Scope.seen, Scope.seen, hlink, hlink']
      dsimp only
      rw [Directive.number_eq_of_relocate he]

theorem learn (h : s.ShownLike s') (hd : d'.relocate .shown = d.relocate .shown) (t : Table)
    (hfine : (s.learn t d w).ledger.problems = []) :
    (s.learn t d w).ShownLike (s'.learn t d' w) := by
  cases hlink : s.linkOf? d with
  | none =>
      rw [learn_none hlink, learn_none (h.linkOf?_none hd hlink)]
      exact ⟨rfl, rfl, rfl⟩
  | some found =>
      obtain ⟨e, link⟩ := found
      obtain ⟨e', hlink', he⟩ := h.exists_linkOf? hd hlink
      have hnumber := Directive.number_eq_of_relocate he
      cases hknown : Assoc.find? e.number t with
      | some a =>
          rw [learn_known hlink hknown, learn_known hlink' (hnumber ▸ hknown)]
          exact ⟨rfl, rfl, rfl⟩
      | none =>
          rw [learn_new hlink hknown] at hfine
          have hfollow := h.follow he link w hfine
          rw [learn_new hlink hknown, learn_new hlink' (hnumber ▸ hknown), hnumber, hfollow.value]
          exact ⟨rfl, hfollow.ledger, hfollow.watch⟩

theorem meet (h : s.ShownLike s') (hdemand : demand'.relocate .shown = demand.relocate .shown)
    (t : Table) (hfine : (s.meet t demand w).ledger.problems = []) :
    (s.meet t demand w).ShownLike (s'.meet t demand' w) := by
  cases demand with
  | value d =>
      cases demand' with
      | value d' => exact h.learn (Demand.value.inj hdemand) t hfine
      | members d' | fault f' => cases hdemand
  | members d =>
      cases demand' with
      | members d' =>
          have hd := Demand.members.inj hdemand
          rw [meet_members] at hfine
          obtain ⟨hlearn, hown⟩ := Ledger.problems_append_eq_nil.mp hfine
          obtain ⟨htable, hledger, hwatch⟩ := h.learn hd t hlearn
          rw [meet_members, meet_members, htable]
          refine ⟨rfl, ?_, hwatch⟩
          have hown : s.ownProblems (s.learn t d w).value (.members d) = [] := hown
          have hown' : s'.ownProblems (s.learn t d w).value (.members d') = [] := by
            refine Demand.ownProblems_members_eq_nil.mpr ?_
            rw [h.seen _ d d' hd]
            exact Demand.ownProblems_members_eq_nil.mp hown
          rw [Ledger.shown_append, Ledger.shown_append, hledger, hown', hown]
      | value d' | fault f' => cases hdemand
  | fault f => cases hfine

theorem meetAll (h : s.ShownLike s')
    (hdemands : demands'.map (Demand.relocate .shown) = demands.map (Demand.relocate .shown))
    (t : Table) (hfine : (s.meetAll t demands w).ledger.problems = []) :
    (s.meetAll t demands w).ShownLike (s'.meetAll t demands' w) := by
  induction demands generalizing demands' t w with
  | nil =>
      obtain rfl := List.map_eq_nil_iff.mp hdemands
      exact ⟨rfl, rfl, rfl⟩
  | cons demand demands ih =>
      obtain ⟨demand', demands', rfl, hdemand, hlater⟩ := List.map_eq_cons_iff.mp hdemands
      rw [meetAll_cons] at hfine
      obtain ⟨hfirst, hothers⟩ := Ledger.problems_append_eq_nil.mp hfine
      obtain ⟨htable, hledger, hwatch⟩ := h.meet hdemand t hfirst
      obtain ⟨htable', hledger', hwatch'⟩ := ih hlater _ hothers
      rw [meetAll_cons, meetAll_cons]
      dsimp only
      rw [htable, hwatch]
      refine ⟨htable', ?_, hwatch'⟩
      dsimp only
      rw [Ledger.shown_append, Ledger.shown_append, hledger, hledger']

end Scope.ShownLike

/-! ## Texts -/

namespace Setting

theorem find?_linkNames_shown {directives directives' : List Directive}
    (h : directives'.map (Directive.relocate .shown) = directives.map (Directive.relocate .shown))
    (name : String) :
    (Assoc.find? name (linkNames directives')).map Link.shown =
      (Assoc.find? name (linkNames directives)).map Link.shown := by
  have hfind (directives : List Directive) :
      (Assoc.find? name (linkNames directives)).map Link.shown =
        Assoc.find? name (linkNames (directives.map (Directive.relocate .shown))) := by
    induction directives with
    | nil => rfl
    | cons d directives ih =>
        have hmeaning : (d.relocate .shown).meaning = d.meaning := rfl
        rw [List.map_cons, linkNames, linkNames, List.filterMap_cons, List.filterMap_cons, hmeaning]
        cases d.meaning with
        | «variable» expression => exact ih
        | link link =>
            dsimp only
            cases link.name? with
            | none => exact ih
            | some other =>
                dsimp only [Option.map_some]
                rw [Assoc.find?, Assoc.find?]
                split
                · rfl
                · exact ih
  rw [hfind, hfind, h]

theorem demands_shown {text text' : String} (h : Scan.ShownLike text text') :
    (demands (Scan.ofText text').tokens).map (Demand.relocate .shown) =
      (demands (Scan.ofText text).tokens).map (Demand.relocate .shown) := by
  have hlinks (directives : List Directive) :
      (directives.filter Directive.isLink).map (Directive.relocate .shown) =
        (directives.map (Directive.relocate .shown)).filter Directive.isLink := by
    rw [List.filter_map]
    rfl
  rw [demands, demands, ← Draft.demands_relocate, ← Draft.demands_relocate, hlinks, hlinks, h.draft,
    h.directives]

variable {s s' : Setting} {root path : Path} {text text' : String} {depth : Nat}
  {trail : List Path} {w : Watch}

/-- Whether two settings have texts under the same paths that are shown alike, if the first one has
no fault. -/
structure ShownLike (s s' : Setting) : Prop where
  options : s'.options = s.options
  signal : s'.signal = s.signal
  canonicalize : s'.loader.canonicalize = s.loader.canonicalize
  read : ∀ path text, s.loader.read path = .ok text → ∃ text', s'.loader.read path = .ok text' ∧
    ((Scan.ofText text).error = none → (Draft.ofTokens (Scan.ofText text).tokens).fault = none →
      Scan.ShownLike text text')

/-- Whether links are followed alike with some depth left, as long as nothing goes wrong. -/
def FollowsLike (s s' : Setting) (depth : Nat) : Prop :=
  ∀ {d d'}, d'.relocate .shown = d.relocate .shown → ∀ trail referrer link w,
    (s.follow depth trail referrer d link w).ledger.problems = [] →
      (s.follow depth trail referrer d link w).ShownLike (s'.follow depth trail referrer d' link w)

theorem shown_readLedger (path : Path) (text : String) :
    (readLedger path text).shown = .empty := rfl

namespace ShownLike

theorem assembleText (h : s.ShownLike s') (hfollow : s.FollowsLike s' depth)
    (hread : (Scan.ofText text).error = none →
      (Draft.ofTokens (Scan.ofText text).tokens).fault = none → Scan.ShownLike text text')
    (trail : List Path) (path : Path)
    (hfine : (s.assembleText path text (s.follow depth trail path) w).ledger.problems = []) :
    (s.assembleText path text (s.follow depth trail path) w).ShownLike
      (s'.assembleText path text' (s'.follow depth trail path) w) := by
  cases hscan : (Scan.ofText text).error with
  | some error =>
      rw [assembleText_error s hscan] at hfine
      cases hfine
  | none =>
      have hshown := hread hscan (fault_of_problems_eq_nil hscan hfine)
      have hscope : (s.scope path (Scan.ofText text).tokens (s.follow depth trail path)).ShownLike
          (s'.scope path (Scan.ofText text').tokens (s'.follow depth trail path)) :=
        ⟨Eq.refl path, congrArg Options.defaultValues h.options,
          find?_linkNames_shown hshown.directives, fun hd link w => hfollow hd trail path link w⟩
      rw [assembleText_ok s hscan] at hfine
      have hmet := (Ledger.problems_append_eq_nil.mp (Ledger.problems_append_eq_nil.mp hfine).2).2
      obtain ⟨htable, hledger, hwatch⟩ := hscope.meetAll (demands_shown hshown) [] hmet
      rw [assembleText_ok s hscan, assembleText_ok s' hshown.scan]
      dsimp only
      refine ⟨?_, ?_, hwatch⟩
      · dsimp only
        have hseen := hscope.seen
          ((s.scope path (Scan.ofText text).tokens (s.follow depth trail path)).meetAll []
            (demands (Scan.ofText text).tokens) w).value
        rw [reading, reading, htable, Draft.read_shown hshown.draft hseen, h.options]
        have hentries := Draft.entries_shown hshown.draft hseen path
        split
        · exact congrArg (Assembled.mk _ <| .ofList ·) hentries
        · rfl
      · dsimp only
        rw [Ledger.shown_append, Ledger.shown_append, Ledger.shown_append, Ledger.shown_append,
          shown_readLedger, shown_readLedger, hledger, hshown.counts]

/-- Entering a link gives and shows the same, as long as nothing goes wrong. -/
theorem enter (h : s.ShownLike s') (hfollow : ∀ n, depth = n + 1 → s.FollowsLike s' n)
    (trail : List Path) (referrer : Path) {d : Directive} (d' : Directive) (link : Link)
    (hfine : (s.enter trail referrer d link (s.deeper depth) w).ledger.problems = []) :
    (s.enter trail referrer d link (s.deeper depth) w).ShownLike
      (s'.enter trail referrer d' link (s'.deeper depth) w) := by
  have hcanon' {found : Except LoadError Path}
      (hcanon : s.loader.canonicalize (s.targetOf referrer link) = found) :
      s'.loader.canonicalize (s'.targetOf referrer link) = found :=
    (canonicalize_targetOf_congr h.options h.canonicalize referrer link).trans hcanon
  have hend := s.enter_ends trail referrer d link (s.deeper depth) w
  generalize hout : s.enter trail referrer d link (s.deeper depth) w = out at hend hfine ⊢
  generalize hdeeper : s.deeper depth = follow at hend
  cases hend with
  | unresolved | cycle | tooDeep | cancelled | unreadable => cases hfine
  | recursive path hcanon hmem hallow =>
      rw [enter_recursive (hcanon' hcanon) hmem (h.options ▸ hallow)]
      exact ⟨rfl, rfl, rfl⟩
  | silent path next hcanon hmem hraised hreported =>
      obtain ⟨n, rfl, -⟩ := s.deeper_eq_some hdeeper
      rw [deeper, enter_silent (hcanon' hcanon) hmem hraised hreported]
      exact ⟨rfl, rfl, rfl⟩
  | file path text next hcanon hmem hraised hread =>
      obtain ⟨n, rfl, rfl⟩ := s.deeper_eq_some hdeeper
      obtain ⟨text', hread', hshown⟩ := h.read path text hread
      obtain ⟨hvalue, hledger, hwatch'⟩ :=
        h.assembleText (hfollow n rfl) hshown (trail ++ [path]) path hfine
      rw [deeper, enter_read (hcanon' hcanon) hmem hraised hread', watch_read_congr h.signal]
      exact ⟨congrArg (Followed.mk path false) hvalue, hledger, hwatch'⟩

/-- Links are followed alike, by induction on the depth that is left. -/
theorem follow (h : s.ShownLike s') (depth : Nat) : s.FollowsLike s' depth := by
  induction depth using Nat.strong_induction_on with
  | _ depth ih =>
  intro d d' hd trail referrer link w hfine
  rw [follow_apply] at hfine
  have henter := (Ledger.problems_append_eq_nil.mp hfine).2
  obtain ⟨hvalue, hledger, hwatch⟩ :=
    h.enter (fun n hn => ih n (by omega)) trail referrer d' link henter
  have hrange : d'.range.relocate .shown = d.range.relocate .shown :=
    (congrArg Directive.range hd :)
  rw [follow_apply, follow_apply]
  refine ⟨congrArg Followed.assembled hvalue, ?_, hwatch⟩
  dsimp only
  have hrecord (f : Followed) : Ledger.shown { imports := [record referrer d' link f] } =
      Ledger.shown { imports := [record referrer d link f] } := by
    unfold Ledger.shown ImportRecord.shown record
    simp only [List.map_cons, List.map_nil, hrange]
  rw [Ledger.shown_append, Ledger.shown_append, hvalue, hledger, hrecord]

/-- An extraction in which nothing goes wrong gives and shows the same with texts that are shown
alike. -/
theorem run (h : s.ShownLike s') (hfine : (Extraction.run s root none).problems = []) :
    (Extraction.run s' root none).value = (Extraction.run s root none).value ∧
      (Extraction.run s' root none).map = (Extraction.run s root none).map ∧
      (Extraction.run s' root none).ledger.shown = (Extraction.run s root none).ledger.shown := by
  rcases s.opens_or_fails root none with ⟨path, text, w, hopens⟩ | ⟨path, cause, w, hfails⟩
  · have hopens' := hopens
    cases hopens' with
    | file hcanon hread =>
        obtain ⟨text', hread', hshown⟩ := h.read path text hread
        have hplace : s'.loader.canonicalize (s'.options.placeOf root) = .ok path := by
          rw [h.canonicalize, h.options, hcanon]
        have hdepth : s'.options.maxImportDepth = s.options.maxImportDepth := by rw [h.options]
        have hwatch : (Run.read s'.loader s'.signal path (Run.initialWatch s'.signal)).watch =
            (Run.read s.loader s.signal path (Run.initialWatch s.signal)).watch := by
          rw [watch_read_congr h.signal, h.signal]
        rw [Extraction.problems, hopens.run_eq] at hfine
        obtain ⟨hvalue, hledger, -⟩ :=
          h.assembleText (h.follow s.options.maxImportDepth) hshown [path] path hfine
        rw [hopens.run_eq, (Opens.file hplace hread').run_eq, assembleRoot, assembleRoot, hwatch,
          hdepth]
        exact ⟨congrArg Assembled.value hvalue, congrArg Assembled.map hvalue, hledger⟩
  · rw [Extraction.problems, Extraction.run, hfails] at hfine
    cases hfine

end ShownLike

end Setting

/-! ## Shelves -/

namespace Shelf

variable {S : Shelf} {chosen : Path → Bool}

/-- A shelf on which the chosen texts have a carriage return in front of each newline. -/
def crlf (S : Shelf) (chosen : Path → Bool) : Shelf :=
  ⟨S.files.map fun file =>
    (file.1, if chosen file.1 then String.ofList (Text.crlf file.2.toList) else file.2)⟩

theorem find?_crlf (S : Shelf) (chosen : Path → Bool) (path : Path) :
    Assoc.find? path (S.crlf chosen).files = (Assoc.find? path S.files).map fun text =>
      if chosen path then String.ofList (Text.crlf text.toList) else text := by
  obtain ⟨files⟩ := S
  show Assoc.find? path (files.map _) = _
  induction files with
  | nil => rfl
  | cons file files ih =>
      obtain ⟨other, text⟩ := file
      rw [List.map_cons, Assoc.find?, Assoc.find?]
      split
      · next hother =>
          subst hother
          rfl
      · exact ih

theorem canonicalize_crlf (S : Shelf) (chosen : Path → Bool) :
    (S.crlf chosen).canonicalize = S.canonicalize := by
  funext path
  rw [canonicalize, canonicalize, find?_crlf]
  cases Assoc.find? path.normalize S.files <;> rfl

/-- A shelf with other line ends is shown like the shelf, if no variable goes over the end of a
line. -/
theorem shownLike_crlf (o : Options)
    (hlines : ∀ file ∈ S.files, Scan.VariablesInLine file.2) :
    (S.setting o).ShownLike ((S.crlf chosen).setting o) where
  options := rfl
  signal := rfl
  canonicalize := canonicalize_crlf S chosen
  read path text hread := by
    have hfind : Assoc.find? path.normalize S.files = some text := by
      have hread : S.read path = .ok text := hread
      rw [read] at hread
      split at hread
      · next found hfound => exact hfound.trans (congrArg some (Except.ok.inj hread))
      · cases hread
    have hline := hlines _ (Assoc.mem_of_find? hfind)
    refine ⟨if chosen path.normalize then String.ofList (Text.crlf text.toList) else text, ?_,
      fun hscan hfault => ?_⟩
    · show (S.crlf chosen).read path = _
      rw [read, find?_crlf, hfind]
      rfl
    · split
      · exact Scan.shownLike_crlf String.toList_ofList hscan hfault hline
      · exact Scan.shownLike_refl hscan

end Shelf

/-- Line ends do not matter. If an extraction has no problem and no variable goes over the end of a
line, then with a carriage return in front of each newline of any of the files it has no problem
either, and it gives the same value, the same records in the same rows and columns, and the same
map. -/
theorem Extraction.line_ends_immaterial (S : Shelf) (chosen : Path → Bool) (o : Options)
    (root : Path) (hfine : (Extraction.run (S.setting o) root none).problems = [])
    (hlines : ∀ file ∈ S.files, Scan.VariablesInLine file.2) :
    let e := Extraction.run (S.setting o) root none
    let e' := Extraction.run ((S.crlf chosen).setting o) root none
    e'.problems = [] ∧ e'.value = e.value ∧
      e'.ledger.imports.map ImportRecord.shown = e.ledger.imports.map ImportRecord.shown ∧
      e'.map = e.map := by
  intro e e'
  obtain ⟨hvalue, hmap, hledger⟩ := (Shelf.shownLike_crlf o hlines).run hfine
  have hproblems : e'.problems = e.problems := (congrArg Ledger.problems hledger :)
  exact ⟨hproblems.trans hfine, hvalue, (congrArg Ledger.imports hledger :), hmap⟩

/-- Two files with line ends around a link, inside and behind comments, and between values. -/
def Shelf.lined : Shelf :=
  ⟨[(⟨"/p/root.tmpl"⟩,
      "// [A](a)\n\x7b\n  // text\n  \"k\": \x7b\x7b a \x7d\x7d,\n \"l\": 1\n\x7d\n"),
    (⟨"/p/a.tmpl"⟩, "/* two\nlines */ [\n1,\n2]\n")]⟩

theorem Extraction.line_ends_immaterial_lined :
    let s := Shelf.lined.setting (.standard ⟨"/p"⟩)
    let s' := (Shelf.lined.crlf fun _ => true).setting (.standard ⟨"/p"⟩)
    (Extraction.run s ⟨"root.tmpl"⟩ none).problems = [] ∧
      (∀ file ∈ Shelf.lined.files, Scan.VariablesInLine file.2) ∧
      (Extraction.run s' ⟨"root.tmpl"⟩ none).problems = [] ∧
      (Extraction.run s' ⟨"root.tmpl"⟩ none).map = (Extraction.run s ⟨"root.tmpl"⟩ none).map := by
  have hfine : (Extraction.run (Shelf.lined.setting (.standard ⟨"/p"⟩)) ⟨"root.tmpl"⟩
      none).problems = [] := by decide +kernel
  have hlines : ∀ file ∈ Shelf.lined.files, Scan.VariablesInLine file.2 := by decide +kernel
  obtain ⟨hproblems, -, -, hmap⟩ := Extraction.line_ends_immaterial Shelf.lined (fun _ => true)
    (.standard ⟨"/p"⟩) ⟨"root.tmpl"⟩ hfine hlines
  exact ⟨hfine, hlines, hproblems, hmap⟩

end Stencil
