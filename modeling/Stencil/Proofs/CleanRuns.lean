import Stencil.Proofs.SilentSpreads

/-!
# What files come to when nothing goes wrong

In an extraction without problems that never comes back to a file on the trail, nothing of how
it goes is left in the values: no watch, no table, no trail. A file has one value, whichever
links lead to it, and that is read off its text with the values of the files behind its links.

`Succeeds` says so of a file and of all files behind it, for given values, without running
anything. Both directions are proved: such an extraction succeeds with the values it comes to,
by induction on the depth that is left, and where a file succeeds, running it gives its value
and no problem, by induction on how it succeeds.
-/

namespace Stencil

/-- Whether an extraction has no problem and no link of it leads back into its trail. -/
structure Extraction.Clean (e : Extraction) : Prop where
  problems : e.problems = []
  forward : ∀ r ∈ e.ledger.imports, r.isRecursive = false

theorem Scope.spreadable_iff {v : Json} {map? : Option SourceMap} :
    Scope.spreadable (v, map?) = true ↔ (∃ members, v = .object members) ∨
      (v = .null ∧ map?.isSome) := by
  cases v <;> cases map? <;> simp [Scope.spreadable]

namespace Setting

/-! ## What directives mean -/

/-- Whether a text has a link. -/
def Declares (text : String) (link : Link) : Prop := ∃ d, LinkIn text d link

/-- The link whose value a directive takes that says something in a text. -/
def linkFor? (text : String) : Directive.Meaning → Option Link
  | .link link => some link
  | .variable expression =>
      (Assoc.find? (Placeholder.identifier expression)
        (linkNames (Directive.ofTokens 0 (Scan.ofText text).tokens))).map Prod.snd

theorem linkFor?_meaning (text : String) (d : Directive) :
    linkFor? text d.meaning = (takenFrom? text d).map Prod.snd := by
  rw [takenFrom?]
  cases d.meaning <;> rfl

variable (s : Setting) (V : Path → Json)

/-- The value of the file behind a link. -/
def valueBehind (path : Path) (link : Link) : Json :=
  match s.loader.canonicalize (s.targetOf path link) with
  | .ok next => V next
  | .error _ => .null

/-- What a directive stands for that says something in a text, if files have the given values. -/
def meant (path : Path) (text : String) (m : Directive.Meaning) : Json :=
  match linkFor? text m with
  | some link => s.valueBehind V path link
  | none =>
      match m with
      | .variable expression => Placeholder.valueOf expression s.options.defaultValues
      | .link _ => .null

/-- Whether a directive can give members to an object without a problem. -/
def GivesMembers (path : Path) (text : String) (m : Directive.Meaning) : Prop :=
  (∃ members, s.meant V path text m = .object members) ∨
    (s.meant V path text m = .null ∧ (linkFor? text m).isSome)

/-- Whether a text is without problems of its own and has the value that is given for its file. -/
structure ComesTo (path : Path) (text : String) : Prop where
  scan : (Scan.ofText text).error = none
  fault : (Draft.ofTokens (Scan.ofText text).tokens).fault = none
  value : (Draft.ofTokens (Scan.ofText text).tokens).read (.ofMeaning (s.meant V path text)) =
    V path
  members : ∀ d, .members d ∈ demands (Scan.ofText text).tokens →
    s.GivesMembers V path text d.meaning

/-- Whether a file and all files behind its links come to the values that are given for them, with
`depth` further imports allowed and without coming back into the trail. -/
inductive Succeeds : Nat → List Path → Path → Prop
  | file {depth : Nat} {trail : List Path} {path : Path} {text : String} (next : Link → Path)
      (hread : s.loader.read path = .ok text) (hself : s.ComesTo V path text)
      (hdepth : ∀ link, Declares text link → 0 < depth)
      (hcanon : ∀ link, Declares text link →
        s.loader.canonicalize (s.targetOf path link) = .ok (next link))
      (htrail : ∀ link, Declares text link → next link ∉ trail)
      (hlater : ∀ link, Declares text link →
        Succeeds (depth - 1) (trail ++ [next link]) (next link)) :
      Succeeds depth trail path

variable {s V} {root : Path} {depth depth' : Nat} {trail trail' : List Path} {path : Path}
  {text text' : String} {w w' : Watch} {d : Directive} {link : Link}

theorem valueBehind_ok {next : Path}
    (h : s.loader.canonicalize (s.targetOf path link) = .ok next) :
    s.valueBehind V path link = V next := by
  rw [valueBehind, h]

/-- What directives stand for in a text, if each link gives the value of the file behind it. -/
theorem lookAt_eq_meant (hscan : (Scan.ofText text).error = none)
    (hfollow : ∀ d link w', s.Follows depth trail path text w d link w' →
      (s.follow depth trail path d link w').value.value = s.valueBehind V path link)
    (hd : d ∈ Directive.ofTokens 0 (Scan.ofText text).tokens) :
    (s.lookAt depth trail path text w d).1 = s.meant V path text d.meaning ∧
      (s.lookAt depth trail path text w d).2.isSome = (linkFor? text d.meaning).isSome := by
  unfold meant
  rw [linkFor?_meaning]
  cases hlink : takenFrom? text d with
  | none =>
      rw [lookAt_of_takenFrom?_none hlink]
      refine ⟨?_, rfl⟩
      rw [Scope.placeholder]
      cases d.meaning <;> rfl
  | some found =>
      obtain ⟨e, link⟩ := found
      obtain ⟨w', hfollows, hlook⟩ := s.lookAt_of_takenFrom? depth trail path w hscan hd hlink
      rw [hlook]
      exact ⟨hfollow e link w' hfollows, rfl⟩

theorem agree_of_lookAt (h : ∀ d ∈ Directive.ofTokens 0 (Scan.ofText text).tokens,
      (s.lookAt depth trail path text w d).1 = s.meant V path text d.meaning) :
    (s.lookAt depth trail path text w).AgreeOnValues (.ofMeaning (s.meant V path text))
      (Draft.ofTokens (Scan.ofText text).tokens).bodyDemands := by
  intro demand hmem d hd
  have hin : demand ∈ demands (Scan.ofText text).tokens := by simp [demands, Draft.demands, hmem]
  exact h d (within_demands hin hd)

/-! ## Clean extractions -/

theorem Assembles.read_eq (h : s.Assembles root none depth trail path text w) :
    s.loader.read path = .ok text := by
  rcases h.content with hread | ⟨hnone, -⟩
  · exact hread
  · cases hnone

section Clean

variable (hclean : (Extraction.run s root none).Clean)

include hclean

/-- In a clean extraction every link leads to a file that is assembled and is not on the trail. -/
theorem Assembles.file_behind (h : s.Assembles root none depth trail path text w)
    (hfollows : s.Follows depth trail path text w d link w') :
    ∃ n next content w'', depth = n + 1 ∧
      s.loader.canonicalize (s.targetOf path link) = .ok next ∧ next ∉ trail ∧
      s.Assembles root none n (trail ++ [next]) next content w'' ∧
      (s.follow depth trail path d link w').value =
        (s.assembleText next content (s.follow n (trail ++ [next]) next) w'').value := by
  have hback (next : Path) (hcanon : s.loader.canonicalize (s.targetOf path link) = .ok next)
      (hmem : next ∈ trail) : s.options.allowRecursiveImports = false := by
    by_contra hallow
    have hrecord : record path d link ⟨next, true, .nothing⟩ ∈
        (Extraction.run s root none).ledger.imports := by
      refine (hfollows.part.trans h.part).mem_imports ?_
      rw [follow_apply, enter_recursive hcanon hmem (by simpa using hallow)]
      exact List.mem_cons_self
    have := hclean.forward _ hrecord
    cases this
  obtain ⟨n, next, content, w'', hn, hcanon, hmem, -, hfile⟩ :=
    h.leads_to_file hback hclean.problems hfollows
  exact ⟨n, next, content, w'', hn, hcanon, hmem, hfile⟩

/-- In a clean extraction a file has one value, wherever it is imported. -/
theorem Assembles.value_unique (h : s.Assembles root none depth trail path text w)
    (h' : s.Assembles root none depth' trail' path text' w') :
    (s.assembleText path text (s.follow depth trail path) w).value.value =
      (s.assembleText path text' (s.follow depth' trail' path) w').value.value := by
  induction depth using Nat.strongRecOn generalizing trail path text w depth' trail' text' w' with
  | ind depth ih =>
  have hscan := h.error_eq_none hclean.problems
  obtain rfl : text = text' := Except.ok.inj (h.read_eq.symm.trans h'.read_eq)
  rw [value_assembleText hscan, value_assembleText hscan, readWith, readWith]
  refine Draft.read_congr _ fun demand hmem d hd => ?_
  have hdemand : demand ∈ demands (Scan.ofText text).tokens := by
    simp [demands, Draft.demands, hmem]
  have hin : d ∈ Directive.ofTokens 0 (Scan.ofText text).tokens := within_demands hdemand hd
  cases hlink : takenFrom? text d with
  | none => rw [lookAt_of_takenFrom?_none hlink, lookAt_of_takenFrom?_none hlink]; rfl
  | some found =>
      obtain ⟨e, link⟩ := found
      obtain ⟨v, hfollows, hlook⟩ := s.lookAt_of_takenFrom? depth trail path w hscan hin hlink
      obtain ⟨v', hfollows', hlook'⟩ := s.lookAt_of_takenFrom? depth' trail' path w' hscan hin hlink
      obtain ⟨n, next, content, u, rfl, hcanon, -, hfile, hvalue⟩ := h.file_behind hclean hfollows
      obtain ⟨n', next', content', u', -, hcanon', -, hfile', hvalue'⟩ :=
        h'.file_behind hclean hfollows'
      cases hcanon.symm.trans hcanon'
      rw [hlook, hlook', hvalue, hvalue']
      exact ih n (Nat.lt_succ_self n) hfile hfile'

/-- The values of the files of a clean extraction. -/
theorem exists_values : ∃ V : Path → Json, ∀ {depth trail path text w},
    s.Assembles root none depth trail path text w →
      (s.assembleText path text (s.follow depth trail path) w).value.value = V path := by
  have hvalue (path : Path) : ∃ v, ∀ depth trail text w,
      s.Assembles root none depth trail path text w →
        (s.assembleText path text (s.follow depth trail path) w).value.value = v := by
    by_cases h : ∃ depth trail text w, s.Assembles root none depth trail path text w
    · obtain ⟨depth, trail, text, w, h⟩ := h
      exact ⟨_, fun _ _ _ _ h' => h'.value_unique hclean h⟩
    · exact ⟨.null, fun depth trail text w h' => absurd ⟨depth, trail, text, w, h'⟩ h⟩
  choose V hV using hvalue
  exact ⟨V, fun h => hV _ _ _ _ _ h⟩

variable (hV : ∀ {depth trail path text w}, s.Assembles root none depth trail path text w →
  (s.assembleText path text (s.follow depth trail path) w).value.value = V path)

include hV

theorem Assembles.lookAt_eq (h : s.Assembles root none depth trail path text w)
    (hd : d ∈ Directive.ofTokens 0 (Scan.ofText text).tokens) :
    (s.lookAt depth trail path text w d).1 = s.meant V path text d.meaning ∧
      (s.lookAt depth trail path text w d).2.isSome = (linkFor? text d.meaning).isSome := by
  refine lookAt_eq_meant (h.error_eq_none hclean.problems) (fun d link w' hfollows => ?_) hd
  obtain ⟨n, next, content, w'', -, hcanon, -, hfile, hvalue⟩ := h.file_behind hclean hfollows
  rw [hvalue, hV hfile, valueBehind_ok hcanon]

theorem Assembles.comesTo (h : s.Assembles root none depth trail path text w) :
    s.ComesTo V path text where
  scan := h.error_eq_none hclean.problems
  fault := h.fault_eq_none (h.error_eq_none hclean.problems) hclean.problems
  value := by
    rw [← hV h, value_assembleText (h.error_eq_none hclean.problems), readWith]
    exact (Draft.read_congr _ (agree_of_lookAt fun d hd => (h.lookAt_eq hclean hV hd).1)).symm
  members d hmem := by
    obtain ⟨hvalue, hlink⟩ := h.lookAt_eq hclean hV (within_demands hmem rfl)
    rw [GivesMembers, ← hvalue, ← hlink]
    exact Scope.spreadable_iff.mp (h.spreadable hclean.problems hmem)

/-- Every file of a clean extraction succeeds with the values of its files. -/
theorem Assembles.succeeds (h : s.Assembles root none depth trail path text w) :
    s.Succeeds V depth trail path := by
  induction depth using Nat.strongRecOn generalizing trail path text w with
  | ind depth ih =>
  have hbehind : ∀ link, Declares text link → ∃ next, 0 < depth ∧
      s.loader.canonicalize (s.targetOf path link) = .ok next ∧ next ∉ trail ∧
      s.Succeeds V (depth - 1) (trail ++ [next]) next := by
    rintro link ⟨d, hin⟩
    obtain ⟨w', hfollows⟩ := s.exists_follows hin depth trail path w
    obtain ⟨n, next, content, w'', rfl, hcanon, hmem, hfile, -⟩ := h.file_behind hclean hfollows
    exact ⟨next, Nat.succ_pos n, hcanon, hmem, ih n (Nat.lt_succ_self n) hfile⟩
  choose! next hnext using hbehind
  exact .file next h.read_eq (h.comesTo hclean hV) (fun link hlink => (hnext link hlink).1)
    (fun link hlink => (hnext link hlink).2.1) (fun link hlink => (hnext link hlink).2.2.1)
    fun link hlink => (hnext link hlink).2.2.2

end Clean

/-! ## Running what succeeds -/

theorem deeper_of_pos (s : Setting) (h : 0 < depth) :
    s.deeper depth = some (s.follow (depth - 1)) := by
  cases depth with
  | zero => cases h
  | succ n => rfl

theorem Succeeds.exists_read (h : s.Succeeds V depth trail path) :
    ∃ text, s.loader.read path = .ok text := by
  cases h with
  | file next hread => exact ⟨_, hread⟩

end Setting

/-- Where a file succeeds, an extraction that is not called off gives its value and no problem. -/
theorem Shelf.assembleText_of_succeeds {S : Shelf} {o : Options} {V : Path → Json} {depth : Nat}
    {trail : List Path} {path : Path} (h : (S.setting o).Succeeds V depth trail path)
    {text : String} (hread : S.read path = .ok text) {w : Watch} (hw : w.Calm) :
    ((S.setting o).assembleText path text ((S.setting o).follow depth trail path) w).value.value =
        V path ∧
      ((S.setting o).assembleText path text
        ((S.setting o).follow depth trail path) w).ledger.problems = [] := by
  induction h generalizing text w with
  | @file depth trail path text' next hread' hself hdepth hcanon htrail hlater ih =>
  obtain rfl : text = text' := Except.ok.inj (hread.symm.trans hread')
  have henter (d : Directive) (link : Link) (w' : Watch)
      (hfollows : (S.setting o).Follows depth trail path text w d link w') :
      ((S.setting o).enter trail path d link
        ((S.setting o).deeper depth) w').value.assembled.value =
          V (next link) ∧
        ((S.setting o).enter trail path d link
          ((S.setting o).deeper depth) w').ledger.problems = [] := by
    have hlink : Setting.Declares text link := ⟨d, hfollows.linkIn⟩
    have hcalm := calm_of_follows hfollows hw
    obtain ⟨content, hcontent⟩ := (hlater link hlink).exists_read
    rw [Setting.deeper_of_pos _ (hdepth link hlink),
      Setting.enter_read (hcanon link hlink) (htrail link hlink) hcalm.raised hcontent]
    exact ih link hlink hcontent (calm_read S o _ hcalm)
  have hlook (d : Directive) (hd : d ∈ Directive.ofTokens 0 (Scan.ofText text).tokens) :=
    Setting.lookAt_eq_meant (V := V) hself.scan (fun d link w' hfollows => by
      rw [Setting.follow_apply,
        Setting.valueBehind_ok (hcanon link ⟨d, hfollows.linkIn⟩)]
      exact (henter d link w' hfollows).1) hd
  constructor
  · rw [Setting.value_assembleText hself.scan, Setting.readWith, ← hself.value]
    exact Draft.read_congr _ (Setting.agree_of_lookAt fun d hd => (hlook d hd).1)
  · refine List.eq_nil_iff_forall_not_mem.mpr fun p hp => ?_
    rcases (Setting.mem_problems_assembleText hself.scan).mp hp with
      ⟨trip, htrip, hp⟩ | ⟨demand, hmem, hp⟩
    · have hfollows := Setting.follows_of_mem_trips hself.scan htrip
      rw [Setting.entered, (henter _ _ _ hfollows).2] at hp
      cases hp
    · cases demand with
      | value d => cases hp
      | members d =>
          obtain ⟨hvalue, hlink⟩ := hlook d (Setting.within_demands hmem rfl)
          have hgives := hself.members d hmem
          rw [Setting.GivesMembers, ← hvalue, ← hlink] at hgives
          rw [Demand.ownProblems, if_pos (Scope.spreadable_iff.mpr hgives)] at hp
          cases hp
      | fault f =>
          have hfault := Setting.fault_of_mem_demands hmem
          rw [hself.fault] at hfault
          cases hfault

end Stencil
