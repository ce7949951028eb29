import Stencil.Proofs.Positions

/-!
# Spreads that give no members

Where a member of an object is expected, a directive gives the members of its value. A
value without members is a problem, except for null that a link gave: for that, a problem
is taken to be on the ledger already. So it is wherever following the link failed, also
where nothing is said at the link because the run has been called off, since that was told
at an earlier link. It is not so where the link leads to a file and the file says null.

`Link.Leads` is that distinction: in an extraction without problems every link leads to a
file that is assembled. What such a file comes to is null exactly if its text says so,
which is proved by induction on the depth that is left.
-/

namespace Stencil

theorem Ledger.problems_append (a b : Ledger) : (a ++ b).problems = a.problems ++ b.problems := rfl

/-! ## Being called off is reported -/

/-- Whether a stretch of writing has a problem if it notes that the run has been called off. -/
def Ledger.Told (w w' : Watch) (l : Ledger) : Prop :=
  w'.reported = true → w.reported = true ∨ l.problems ≠ []

theorem Ledger.chained_told : Ledger.Chained Told where
  own _ _ _ h := Or.inl h
  append := by
    intro w w' w'' a b ha hb h
    rcases hb h with h | h
    · exact (ha h).imp_right fun h => by simp [problems_append, h]
    · exact Or.inr (by simp [problems_append, h])

namespace Setting

variable {s : Setting} {root : Path} {text? : Option String} {depth : Nat} {trail : List Path}
  {referrer path : Path} {text : String} {w w' : Watch} {d e : Directive} {link : Link}

theorem told_assembleText (s : Setting) (path : Path) (text : String)
    {follow : Directive → Link → Run Assembled}
    (hfollow : ∀ d link, (follow d link).Writes Ledger.Told) :
    (s.assembleText path text follow).Writes Ledger.Told := by
  intro w
  cases hscan : (Scan.ofText text).error with
  | some error =>
      rw [assembleText_error s hscan]
      exact Or.inl
  | none =>
      rw [assembleText_ok s hscan]
      have hmet :=
        s.writes_meetAll Ledger.chained_told path hscan (fun d link _ => hfollow d link) w
      exact fun h => (hmet h).imp_right fun h => by simp [Ledger.problems_append, h]

theorem told_follow (s : Setting) (depth : Nat) (trail : List Path) (referrer : Path)
    (d : Directive) (link : Link) : (s.follow depth trail referrer d link).Writes Ledger.Told := by
  induction depth generalizing trail referrer d link with
  | zero =>
      intro w
      rw [follow_apply]
      have hend := s.enter_ends trail referrer d link none w
      simp only [deeper]
      generalize s.enter trail referrer d link none w = out at hend
      cases hend <;> exact Or.inl
  | succ depth ih =>
      intro w
      rw [follow_apply]
      have hend := s.enter_ends trail referrer d link (some (s.follow depth)) w
      simp only [deeper]
      generalize s.enter trail referrer d link _ w = out at hend
      cases hend with
      | cancelled path next hcanon hmem hraised hreported =>
          exact fun _ => Or.inr (by simp [Ledger.problems_append])
      | file path text next hcanon hmem hraised hread =>
          intro h
          have hfile := s.told_assembleText path text
            (fun d link => ih (trail ++ [path]) path d link) _ h
          exact hfile.imp_right fun h => by simp [Ledger.problems_append, h]
      | _ => exact Or.inl

/-- In an extraction without problems it has not been noted that the run has been called off. -/
theorem Follows.unreported (h : s.Assembles root text? depth trail path text w)
    (hclean : (Extraction.run s root text?).problems = []) (hw : w.reported = false)
    (hfollows : s.Follows depth trail path text w d link w') : w'.reported = false := by
  obtain ⟨hscan, before, demand, after, asked, hdemands, -, -, -, rfl⟩ := hfollows
  have hbefore : ((s.scopeAt depth trail path text).meetAll [] before w).ledger.Part
      (Extraction.run s root text?).ledger := by
    refine Ledger.Part.trans ?_ h.part
    rw [assembleText_ok s hscan]
    dsimp only
    rw [hdemands, Scope.meetAll_append]
    exact (Ledger.part_append_left _ _).trans
      ((Ledger.part_append_right _ _).trans (Ledger.part_append_right _ _))
  have htold : Ledger.Told w ((s.scopeAt depth trail path text).meetAll [] before w).watch
      ((s.scopeAt depth trail path text).meetAll [] before w).ledger :=
    Scope.writes_meetAll Ledger.chained_told
      (fun _ _ _ _ e link _ => s.told_follow depth trail path e link) [] w
  cases hreported : ((s.scopeAt depth trail path text).meetAll [] before w).watch.reported with
  | false => rfl
  | true =>
      rcases htold hreported with h | h
      · rw [hw] at h
        cases h
      · obtain ⟨front, back, hproblems⟩ := hbefore.problems
        rw [show (Extraction.run s root text?).ledger.problems = [] from hclean] at hproblems
        simp [h] at hproblems

theorem Assembles.unreported (h : s.Assembles root text? depth trail path text w)
    (hclean : (Extraction.run s root text?).problems = []) : w.reported = false := by
  induction h with
  | root h => cases h <;> rfl
  | link h hfollows hcanon hmem hraised hread ih =>
      exact (Follows.unreported h hclean ih hfollows :)

/-! ## Links of an extraction without problems -/

/-- In an extraction without problems every link leads to a file that is assembled, if it is not
allowed to lead back into the trail. -/
theorem Assembles.leads_to_file (h : s.Assembles root text? depth trail referrer text w)
    (hback : ∀ path, s.loader.canonicalize (s.targetOf referrer link) = .ok path → path ∈ trail →
      s.options.allowRecursiveImports = false)
    (hclean : (Extraction.run s root text?).problems = [])
    (hfollows : s.Follows depth trail referrer text w d link w') :
    ∃ n path next w'', depth = n + 1 ∧
      s.loader.canonicalize (s.targetOf referrer link) = .ok path ∧ path ∉ trail ∧
      s.loader.read path = .ok next ∧ s.Assembles root text? n (trail ++ [path]) path next w'' ∧
      (s.follow depth trail referrer d link w').value =
        (s.assembleText path next (s.follow n (trail ++ [path]) path) w'').value := by
  have hsilent : ∀ p, p ∉ (s.follow depth trail referrer d link w').ledger.problems := by
    intro p hp
    have hrun : p ∈ (Extraction.run s root text?).problems :=
      (hfollows.part.trans h.part).mem_problems hp
    rw [hclean] at hrun
    cases hrun
  rw [follow_apply] at hsilent ⊢
  simp only [Ledger.problems_append, List.nil_append] at hsilent
  have hend := s.enter_ends trail referrer d link (s.deeper depth) w'
  generalize s.enter trail referrer d link (s.deeper depth) w' = out at hend hsilent
  generalize hdeeper : s.deeper depth = next at hend
  cases hend with
  | recursive path hcanon hmem hallow =>
      rw [hback path hcanon hmem] at hallow
      cases hallow
  | silent path next hcanon hmem hraised hreported =>
      rw [Follows.unreported h hclean (h.unreported hclean) hfollows] at hreported
      cases hreported
  | file path text next hcanon hmem hraised hread =>
      obtain ⟨n, rfl, rfl⟩ := s.deeper_eq_some hdeeper
      exact ⟨n, path, text, _, rfl, hcanon, hmem, hread,
        .link h hfollows hcanon hmem hraised hread, rfl⟩
  | _ => exact absurd (List.mem_singleton_self _) (hsilent _)

/-- The link whose value a directive of a text takes. -/
def takenFrom? (text : String) (d : Directive) : Option (Directive × Link) :=
  match d.meaning with
  | .link link => some (d, link)
  | .variable expression =>
      Assoc.find? (Placeholder.identifier expression)
        (linkNames (Directive.ofTokens 0 (Scan.ofText text).tokens))

/-- A directive that takes a link's value stands for what following the link gave. -/
theorem lookAt_of_takenFrom? (s : Setting) (depth : Nat) (trail : List Path) (path : Path)
    (w : Watch) (hscan : (Scan.ofText text).error = none)
    (hd : d ∈ Directive.ofTokens 0 (Scan.ofText text).tokens)
    (hlink : takenFrom? text d = some (e, link)) :
    ∃ w', s.Follows depth trail path text w e link w' ∧
      s.lookAt depth trail path text w d =
        ((s.follow depth trail path e link w').value.value,
          some (s.follow depth trail path e link w').value.map) := by
  have hlinkOf : (s.scopeAt depth trail path text).linkOf? d = some (e, link) := hlink
  obtain ⟨he, hmeaning⟩ := s.mem_of_linkOf? hd hlinkOf
  have hself : (s.scopeAt depth trail path text).linkOf? e = some (e, link) :=
    s.linkOf?_of_meaning hmeaning
  have hknows := Scope.knows_meetAll (s := s.scopeAt depth trail path text)
    (value_mem_demands he (by rw [Directive.isLink, hmeaning])) rfl [] w
  rw [Scope.Knows, hself] at hknows
  obtain ⟨a, ha⟩ := Option.isSome_iff_exists.mp hknows
  obtain ⟨e', link', w', hfollows, hnumber, rfl⟩ := Scope.exists_follows ha
  -- The table is kept by numbers, and a template's directives differ in theirs.
  have hin : LinkIn text e' link' := Follows.linkIn ⟨hscan, hfollows⟩
  obtain rfl := Directive.eq_of_number_eq hin.2.1 he hnumber
  obtain rfl : link' = link := by
    have := hin.2.2.symm.trans hmeaning
    cases this
    rfl
  refine ⟨w', ⟨hscan, hfollows⟩, ?_⟩
  rw [lookAt, Scope.seen, hlinkOf]
  dsimp only
  rw [ha]
  rfl

/-- A directive that takes no link's value stands for its placeholder. -/
theorem lookAt_of_takenFrom?_none (hlink : takenFrom? text d = none) :
    s.lookAt depth trail path text w d =
      ((s.scopeAt depth trail path text).placeholder d, none) := by
  have hlinkOf : (s.scopeAt depth trail path text).linkOf? d = none := hlink
  rw [lookAt, Scope.seen, hlinkOf]

/-! ## Files that say null -/

/-- Whether a text says null under a path: it has no value, or its value is the word, a variable
that stands for null, or a variable called like a link to a file that says null. -/
inductive SaysNull (s : Setting) : Path → String → Prop
  | nothing {path : Path} {text : String} (hscan : (Scan.ofText text).error = none)
      (hbody : (Draft.ofTokens (Scan.ofText text).tokens).body = none) : SaysNull s path text
  | word {path : Path} {text : String} {place : Location} (hscan : (Scan.ofText text).error = none)
      (hbody : (Draft.ofTokens (Scan.ofText text).tokens).body = some (place, .scalar .null)) :
      SaysNull s path text
  | given {path : Path} {text : String} {place : Location} {d : Directive} {expression : String}
      (hscan : (Scan.ofText text).error = none)
      (hbody : (Draft.ofTokens (Scan.ofText text).tokens).body = some (place, .directive d))
      (hlink : takenFrom? text d = none) (hmeaning : d.meaning = .variable expression)
      (hvalue : Placeholder.valueOf expression s.options.defaultValues = .null) :
      SaysNull s path text
  | link {path next : Path} {text content : String} {place : Location} {d e : Directive}
      {link : Link} (hscan : (Scan.ofText text).error = none)
      (hbody : (Draft.ofTokens (Scan.ofText text).tokens).body = some (place, .directive d))
      (hlink : takenFrom? text d = some (e, link))
      (hcanon : s.loader.canonicalize (s.targetOf path link) = .ok next)
      (hread : s.loader.read next = .ok content) (hnext : SaysNull s next content) :
      SaysNull s path text

/-- Whether a directive of a text takes the value of a link to a file that says null. -/
def TakesNull (s : Setting) (path : Path) (text : String) (d : Directive) : Prop :=
  ∃ e link next content, takenFrom? text d = some (e, link) ∧
    s.loader.canonicalize (s.targetOf path link) = .ok next ∧
    s.loader.read next = .ok content ∧ s.SaysNull next content

/-- In an extraction without problems, a directive takes null from a link exactly if the link's
file says null, provided that this is so of the files that are assembled further in. -/
theorem Assembles.null_taken_iff (h : s.Assembles root text? depth trail path text w)
    (hallow : s.options.allowRecursiveImports = false)
    (hclean : (Extraction.run s root text?).problems = [])
    (hnext : ∀ n < depth, ∀ trail path text w, s.Assembles root text? n trail path text w →
      ((s.assembleText path text (s.follow n trail path) w).value.value = .null ↔
        s.SaysNull path text))
    (hscan : (Scan.ofText text).error = none) {demand : Demand}
    (hmem : demand ∈ demands (Scan.ofText text).tokens) (hd : demand.directive? = some d)
    (hlink : takenFrom? text d = some (e, link)) :
    (s.lookAt depth trail path text w d).1 = .null ↔ s.TakesNull path text d := by
  obtain ⟨w', hfollows, hlook⟩ :=
    s.lookAt_of_takenFrom? depth trail path w hscan (within_demands hmem hd) hlink
  obtain ⟨n, next, content, w'', rfl, hcanon, -, hread, hfile, hvalue⟩ :=
    h.leads_to_file (fun _ _ _ => hallow) hclean hfollows
  have hn := Nat.lt_succ_self n
  rw [hlook, hvalue]
  constructor
  · intro hnull
    exact ⟨e, link, next, content, hlink, hcanon, hread, (hnext n hn _ _ _ _ hfile).mp hnull⟩
  · rintro ⟨e', link', next', content', hlink', hcanon', hread', hsays⟩
    cases hlink.symm.trans hlink'
    cases hcanon.symm.trans hcanon'
    cases hread.symm.trans hread'
    exact (hnext n hn _ _ _ _ hfile).mpr hsays

theorem value_mem_demands_of_body {tokens : List Token} {place : Location} {d : Directive}
    (hbody : (Draft.ofTokens tokens).body = some (place, .directive d)) :
    .value d ∈ demands tokens := by
  simp [demands, Draft.demands, Draft.bodyDemands, hbody, Node.demands]

/-- What a text that says null has for a value. -/
theorem SaysNull.of_body {place : Location} {node : Node} (h : s.SaysNull path text)
    (hbody : (Draft.ofTokens (Scan.ofText text).tokens).body = some (place, node)) :
    node = .scalar .null ∨ ∃ d, node = .directive d ∧
      (takenFrom? text d = none ∧ (∃ expression, d.meaning = .variable expression ∧
          Placeholder.valueOf expression s.options.defaultValues = .null) ∨
        s.TakesNull path text d) := by
  cases h with
  | nothing hscan h => cases hbody.symm.trans h
  | word hscan h =>
      cases hbody.symm.trans h
      exact Or.inl rfl
  | given hscan h hlink hmeaning hvalue =>
      cases hbody.symm.trans h
      exact Or.inr ⟨_, rfl, Or.inl ⟨hlink, _, hmeaning, hvalue⟩⟩
  | link hscan h hlink hcanon hread hnext =>
      cases hbody.symm.trans h
      exact Or.inr ⟨_, rfl, Or.inr ⟨_, _, _, _, hlink, hcanon, hread, hnext⟩⟩

/-- A directive that takes no link's value stands for null exactly if its placeholder is null. -/
theorem null_given_iff (hlink : takenFrom? text d = none) :
    (s.lookAt depth trail path text w d).1 = .null ↔
      ∃ expression, d.meaning = .variable expression ∧
        Placeholder.valueOf expression s.options.defaultValues = .null := by
  rw [lookAt_of_takenFrom?_none hlink, Scope.placeholder]
  rw [takenFrom?] at hlink
  cases hmeaning : d.meaning with
  | link link =>
      rw [hmeaning] at hlink
      cases hlink
  | «variable» expression =>
      refine ⟨fun h => ⟨expression, rfl, h⟩, ?_⟩
      rintro ⟨_, ⟨⟩, h⟩
      exact h

/-- In an extraction without problems every text that is assembled can be scanned. -/
theorem Assembles.error_eq_none (h : s.Assembles root text? depth trail path text w)
    (hclean : (Extraction.run s root text?).problems = []) : (Scan.ofText text).error = none := by
  cases hscan : (Scan.ofText text).error with
  | none => rfl
  | some error =>
      have hfine := h.part.problems_eq_nil hclean
      rw [assembleText_error s hscan] at hfine
      cases hfine

/-- In an extraction without problems, what is assembled is null exactly if its text says so. -/
theorem Assembles.value_eq_null_iff (h : s.Assembles root text? depth trail path text w)
    (hallow : s.options.allowRecursiveImports = false)
    (hclean : (Extraction.run s root text?).problems = []) :
    (s.assembleText path text (s.follow depth trail path) w).value.value = .null ↔
      s.SaysNull path text := by
  induction depth using Nat.strongRecOn generalizing trail path text w with
  | ind depth ih =>
  have hscan := h.error_eq_none hclean
  have hfault := h.fault_eq_none hscan hclean
  rw [value_assembleText hscan, readWith, Draft.read]
  cases hbody : (Draft.ofTokens (Scan.ofText text).tokens).body with
  | none => exact iff_of_true rfl (.nothing hscan hbody)
  | some body =>
  obtain ⟨place, node⟩ := body
  cases node with
  | directive d =>
      have hmem := value_mem_demands_of_body hbody
      dsimp only [Node.read]
      cases hlink : takenFrom? text d with
      | none =>
          rw [null_given_iff hlink]
          constructor
          · rintro ⟨expression, hmeaning, hvalue⟩
            exact .given hscan hbody hlink hmeaning hvalue
          · intro hsays
            rcases hsays.of_body hbody with hnode | ⟨_, ⟨⟩, hgiven | ⟨_, _, _, _, htaken, -⟩⟩
            · cases hnode
            · exact hgiven.2
            · cases hlink.symm.trans htaken
      | some taken =>
          rw [h.null_taken_iff hallow hclean (fun n hn _ _ _ _ h' => ih n hn h') hscan hmem rfl
            hlink]
          constructor
          · rintro ⟨e, link, next, content, htaken, hcanon, hread, hnext⟩
            exact .link hscan hbody htaken hcanon hread hnext
          · intro hsays
            rcases hsays.of_body hbody with hnode | ⟨_, ⟨⟩, hgiven | htakes⟩
            · cases hnode
            · cases hlink.symm.trans hgiven.1
            · exact htakes
  | scalar value =>
      constructor
      · rintro rfl
        exact .word hscan hbody
      · intro hsays
        rcases hsays.of_body hbody with hnode | ⟨_, hnode, -⟩
        · cases hnode
          rfl
        · cases hnode
  | broken pieces => cases (Draft.stands_ofText text).whole hfault place _ hbody
  | text | array | object =>
      refine iff_of_false (fun hnull => by cases hnull) fun hsays => ?_
      rcases hsays.of_body hbody with hnode | ⟨_, hnode, -⟩ <;> cases hnode

/-- A problem-free extraction has no problem at a place for members. -/
theorem Assembles.spreadable (h : s.Assembles root text? depth trail path text w)
    (hclean : (Extraction.run s root text?).problems = [])
    (hmem : .members d ∈ demands (Scan.ofText text).tokens) :
    Scope.spreadable (s.lookAt depth trail path text w d) = true := by
  have hown := ownProblems_of_problems_eq_nil (h.error_eq_none hclean)
    (h.part.problems_eq_nil hclean) hmem
  exact Demand.ownProblems_members_eq_nil.mp hown

end Setting

/-- Where a member of an object is expected in a text that is assembled, a directive whose value
is not an object leaves a problem, except for one that takes the value of a link to a file that says
null. Links back into the trail are not allowed. -/
theorem Extraction.members_lost_iff {s : Setting} {root : Path} {text? : Option String}
    {depth : Nat} {trail : List Path} {path : Path} {text : String} {w : Watch} {d : Directive}
    (hallow : s.options.allowRecursiveImports = false)
    (h : s.Assembles root text? depth trail path text w)
    (hmem : .members d ∈ Setting.demands (Scan.ofText text).tokens) :
    ((∀ members, (s.lookAt depth trail path text w d).1 ≠ .object members) →
        (Extraction.run s root text?).problems ≠ []) ↔
      ((Extraction.run s root text?).problems = [] → ¬ s.TakesNull path text d) := by
  by_cases hclean : (Extraction.run s root text?).problems = []
  swap
  · exact iff_of_true (fun _ => hclean) fun h => absurd h hclean
  have hscan := h.error_eq_none hclean
  have hspreadable := h.spreadable hclean hmem
  have hnull : (∀ members, (s.lookAt depth trail path text w d).1 ≠ .object members) ↔
      s.TakesNull path text d := by
    cases hlink : Setting.takenFrom? text d with
    | none =>
        rw [Setting.lookAt_of_takenFrom?_none hlink] at hspreadable ⊢
        refine iff_of_false (fun hnot => ?_) fun ⟨_, _, _, _, htaken, _⟩ => ?_
        · unfold Scope.spreadable at hspreadable
          split at hspreadable
          · next members map heq => exact hnot members (congrArg Prod.fst heq)
          · next map heq => cases congrArg Prod.snd heq
          · cases hspreadable
        · cases hlink.symm.trans htaken
    | some taken =>
        rw [← h.null_taken_iff hallow hclean
          (fun n _ _ _ _ _ h' => h'.value_eq_null_iff hallow hclean) hscan hmem rfl hlink]
        refine ⟨fun hnot => ?_, fun hnull members hobject => ?_⟩
        · unfold Scope.spreadable at hspreadable
          split at hspreadable
          · next members map heq => exact absurd (congrArg Prod.fst heq) (hnot members)
          · next map heq => exact congrArg Prod.fst heq
          · cases hspreadable
        · cases hnull.symm.trans hobject
  rw [hnull]
  exact ⟨fun hlost _ htakes => hlost htakes hclean,
    fun hlost htakes => absurd htakes (hlost hclean)⟩

theorem Json.ne_object_of_describe {v : Json} (h : v.describe = "null")
    (members : List (String × Json)) : v ≠ .object members := by
  rintro rfl
  exact absurd h (by rw [describe]; decide)

/-- An object that imports one file for its members. -/
def Shelf.spreadingText : String := "\x7b\n // [A](a)\n\x7d"

/-- The link of that object. -/
def Shelf.spreadingLink : Directive := ⟨1, .link ⟨"A", "a"⟩, "// [A](a)", ⟨⟨3, 1, 1⟩, ⟨12, 1, 10⟩⟩⟩

/-- The imported file has a variable for a value, which takes it from an empty file. -/
def Shelf.relayed : Shelf :=
  ⟨[(⟨"/p/root.tmpl"⟩, spreadingText), (⟨"/p/a.tmpl"⟩, "// [B](b)\n\x7b\x7b b \x7d\x7d"),
    (⟨"/p/b.tmpl"⟩, "")]⟩

/-- The imported file says null itself. -/
def Shelf.hollow : Shelf := ⟨[(⟨"/p/root.tmpl"⟩, spreadingText), (⟨"/p/a.tmpl"⟩, "null")]⟩

theorem Extraction.members_lost_relayed :
    let s := Shelf.relayed.setting (.standard ⟨"/p"⟩)
    let root : Path := ⟨"/p/root.tmpl"⟩
    s.options.allowRecursiveImports = false ∧
      (Extraction.run s ⟨"root.tmpl"⟩ none).problems = [] ∧
      s.TakesNull root Shelf.spreadingText Shelf.spreadingLink ∧
      ∃ w, s.Assembles ⟨"root.tmpl"⟩ none 10 [root] root Shelf.spreadingText w ∧
        .members Shelf.spreadingLink ∈ Setting.demands (Scan.ofText Shelf.spreadingText).tokens ∧
        ∀ members, (s.lookAt 10 [root] root Shelf.spreadingText w Shelf.spreadingLink).1 ≠
          .object members := by
  intro s root
  have hopens : s.Opens ⟨"root.tmpl"⟩ none root Shelf.spreadingText _ :=
    .file (by decide +kernel) (by decide +kernel)
  have hassembles : s.Assembles ⟨"root.tmpl"⟩ none 10 [root] root Shelf.spreadingText _ :=
    .root hopens
  have hmem : .members Shelf.spreadingLink ∈
      Setting.demands (Scan.ofText Shelf.spreadingText).tokens := by decide +kernel
  have hclean : (Extraction.run s ⟨"root.tmpl"⟩ none).problems = [] :=
    List.isEmpty_iff.mp (by decide +kernel)
  have hvalue : (s.lookAt 10 [root] root Shelf.spreadingText
      (Run.read s.loader s.signal root (Run.initialWatch s.signal)).watch
      Shelf.spreadingLink).1.describe = "null" := by decide +kernel
  have hlost := Json.ne_object_of_describe hvalue
  have hiff := Extraction.members_lost_iff rfl hassembles hmem
  refine ⟨rfl, hclean, ?_, _, hassembles, hmem, hlost⟩
  by_contra hnot
  exact hiff.mpr (fun _ => hnot) hlost hclean

/-- A spread that gives no member, in an extraction without problems. -/
theorem Extraction.members_lost_hollow :
    let s := Shelf.hollow.setting (.standard ⟨"/p"⟩)
    let root : Path := ⟨"/p/root.tmpl"⟩
    s.options.allowRecursiveImports = false ∧
      (Extraction.run s ⟨"root.tmpl"⟩ none).value.compact = "\x7b\x7d" ∧
      (∃ w, s.Assembles ⟨"root.tmpl"⟩ none 10 [root] root Shelf.spreadingText w ∧
        .members Shelf.spreadingLink ∈ Setting.demands (Scan.ofText Shelf.spreadingText).tokens ∧
        ∀ members, (s.lookAt 10 [root] root Shelf.spreadingText w Shelf.spreadingLink).1 ≠
          .object members) ∧
      ¬ (Extraction.run s ⟨"root.tmpl"⟩ none).problems ≠ [] := by
  intro s root
  have hopens : s.Opens ⟨"root.tmpl"⟩ none root Shelf.spreadingText _ :=
    .file (by decide +kernel) (by decide +kernel)
  have hvalue : (s.lookAt 10 [root] root Shelf.spreadingText
      (Run.read s.loader s.signal root (Run.initialWatch s.signal)).watch
      Shelf.spreadingLink).1.describe = "null" := by decide +kernel
  refine ⟨rfl, by decide +kernel, ⟨_, .root hopens, by decide +kernel,
    Json.ne_object_of_describe hvalue⟩, not_not_intro (List.isEmpty_iff.mp (by decide +kernel))⟩

end Stencil
