import Stencil.Proofs.Following
import Stencil.Proofs.LinkSpellings
import Stencil.Proofs.Replacements

/-!
# A link is called like its file

What variables call a link by is the stem of the name that its path ends in, as it is written.
The file is found another way: the path goes on from a directory, its name gets an extension if
it has none, and the whole is brought into normal form. The name is the last step at every
stage. Going on from a directory puts steps in front of it, an extension is put behind its stem,
and of the steps to the last name the normal form changes only those before it.

That the extension leaves the stem alone needs an extension without a dot, which would split the
name elsewhere, and without a slash, which would make two names of it.
-/

namespace Stencil

/-! ## Names -/

/-- Trimming leaves nothing to trim. -/
theorem Text.trim_trim (text : List Char) : trim (trim text) = trim text :=
  trim_eq_iff.mpr ⟨⟨[], [], by simp, by simp⟩, (trims_trim text).2⟩

theorem fst_splitName_of_snd_eq_none {name : List Char} (h : (splitName name).2 = none) :
    (splitName name).1 = name := by
  unfold splitName at h ⊢
  split <;> simp_all

/-- A name splits where an extension without a dot was put behind it. -/
theorem splitName_append {stem extension : List Char} (hstem : stem ≠ [])
    (hdot : '.' ∉ extension) :
    splitName (stem ++ '.' :: extension) = (stem, some extension) := by
  have htail : (stem ++ '.' :: extension).reverse.takeWhile (· != '.') = extension.reverse := by
    have hpass : ∀ c ∈ extension.reverse, (c != '.') = true := by
      intro c hc
      rw [bne_iff_ne]
      rintro rfl
      exact hdot (List.mem_reverse.mp hc)
    rw [List.reverse_append, List.reverse_cons, List.append_assoc, List.singleton_append,
      List.takeWhile_append_of_pos hpass, List.takeWhile_cons_of_neg (by decide), List.append_nil]
  have hlength : (stem ++ '.' :: extension).length - extension.length - 1 = stem.length := by
    rw [List.length_append, List.length_cons]
    omega
  have hsplit : splitLastDot? (stem ++ '.' :: extension) = some (stem, extension) := by
    rw [splitLastDot?]
    simp only [htail, List.length_reverse, List.reverse_reverse, hlength, List.take_left']
    rw [if_pos]
    rw [List.length_append, List.length_cons]
    omega
  rw [splitName, hsplit]
  cases stem with
  | nil => exact absurd rfl hstem
  | cons c stem => rfl

/-- The extension of the name a path ends in. -/
def Path.extension? (p : Path) : Option String :=
  p.route.fileName?.bind fun name => (splitName name).2.map String.ofList

/-! ## The last name of a route -/

namespace Route

variable {r : Route} {name : List Char}

theorem fileName?_eq_some_iff :
    r.fileName? = some name ↔ ∃ front, r.steps = front ++ [.name name] := by
  rw [fileName?]
  constructor
  · intro h
    split at h
    · next chars hlast =>
        cases h
        exact List.getLast?_eq_some_iff.mp hlast
    · cases h
  · rintro ⟨front, hsteps⟩
    rw [hsteps, List.getLast?_concat]

theorem fileName?_append {next : Route} (h : next.fileName? = some name) (r : Route) :
    (r.append next.steps).fileName? = some name := by
  obtain ⟨front, hsteps⟩ := fileName?_eq_some_iff.mp h
  refine fileName?_eq_some_iff.mpr ⟨r.steps ++ front, ?_⟩
  rw [append, hsteps, List.append_assoc]

theorem fileName?_normal (h : r.fileName? = some name) : r.normal.fileName? = some name := by
  obtain ⟨front, hsteps⟩ := fileName?_eq_some_iff.mp h
  refine fileName?_eq_some_iff.mpr ⟨(front.foldl (take r.rooted) []).reverse, ?_⟩
  rw [normal, hsteps, List.foldl_append, List.foldl_cons, List.foldl_nil, take, List.reverse_cons]

/-- A route with proper steps, brought into normal form, is written in normal form. -/
theorem normalize_toPath_normal (h : ∀ step ∈ r.steps, step.Proper) :
    r.normal.toPath.normalize = r.normal.toPath := by
  rw [Path.normalize, route_toPath (proper_of_mem_normal h), normal_of_settled (settled_normal r)]

end Route

namespace Link

variable {r : Route} {name extension : List Char}

/-- An extension is put behind the last name if that has none, and else nothing happens. -/
theorem withExtension_cases (extension : List Char) (r : Route) :
    (withExtension extension r = r ∧
      ∀ name, r.fileName? = some name → (splitName name).2.isSome ∨ extension = []) ∨
    ∃ name, r.fileName? = some name ∧ (splitName name).1 = name ∧ extension ≠ [] ∧
      withExtension extension r = r.withFileName (name ++ '.' :: extension) := by
  unfold withExtension
  cases hlast : r.fileName? with
  | none => exact Or.inl ⟨rfl, fun name hname => nomatch hname⟩
  | some name =>
      cases hsplit : splitName name with
      | mk stem own =>
          cases own with
          | some own =>
              refine Or.inl ⟨by simp only [hsplit], fun name' hname => Or.inl ?_⟩
              cases hname
              rw [hsplit]
              rfl
          | none =>
              have hstem : stem = name := by
                simpa [hsplit] using fst_splitName_of_snd_eq_none (congrArg Prod.snd hsplit)
              subst hstem
              by_cases hempty : extension = []
              · exact Or.inl ⟨by simp [hsplit, hempty], fun _ _ => Or.inr hempty⟩
              · exact Or.inr ⟨stem, rfl, by rw [hsplit], hempty, by simp [hsplit, hempty]⟩

/-- Putting an extension behind a name leaves its stem as it is. -/
theorem exists_fileName?_withExtension (h : r.fileName? = some name) (hname : name ≠ [])
    (hdot : '.' ∉ extension) :
    ∃ full, (withExtension extension r).fileName? = some full ∧
      (splitName full).1 = (splitName name).1 ∧
      (extension ≠ [] → (splitName full).2.isSome) := by
  rcases withExtension_cases extension r with ⟨hsame, hown⟩ | ⟨name', h', hstem, -, hnew⟩
  · exact ⟨name, by rw [hsame, h], rfl, fun hne => (hown name h).resolve_right hne⟩
  · obtain rfl : name = name' := Option.some_inj.mp (h.symm.trans h')
    have hfull := splitName_append hname hdot
    exact ⟨_, by rw [hnew]; exact Route.fileName?_eq_some_iff.mpr ⟨_, rfl⟩,
      by rw [hfull, hstem], fun _ => by rw [hfull]; rfl⟩

/-- With something on both sides of its dot, a name is neither of the two moves. -/
theorem proper_append (h : (Step.name name).Proper) (hextension : extension ≠ [])
    (hslash : '/' ∉ extension) : (Step.name (name ++ '.' :: extension)).Proper := by
  obtain ⟨hne, -, -, hown⟩ := h
  obtain ⟨c, chars, rfl⟩ := List.exists_cons_of_ne_nil hne
  obtain ⟨e, more, rfl⟩ := List.exists_cons_of_ne_nil hextension
  refine ⟨by simp, by simp, ?_, ?_⟩
  · intro hdots
    have hlength := congrArg List.length hdots
    simp only [List.length_append, List.length_cons, List.length_nil] at hlength
    omega
  · intro hmem
    rcases List.mem_append.mp hmem with hmem | hmem
    · exact hown hmem
    · exact hslash ((List.mem_cons.mp hmem).resolve_left (by decide))

theorem proper_of_mem_withExtension (hr : ∀ step ∈ r.steps, step.Proper)
    (hslash : '/' ∉ extension) :
    ∀ step ∈ (withExtension extension r).steps, step.Proper := by
  rcases withExtension_cases extension r with ⟨hsame, -⟩ | ⟨name, hlast, -, hne, hnew⟩
  · rwa [hsame]
  · obtain ⟨front, hsteps⟩ := Route.fileName?_eq_some_iff.mp hlast
    have hname : (Step.name name).Proper := hr _ (by rw [hsteps]; simp)
    rw [hnew]
    intro step hstep
    rcases List.mem_append.mp hstep with hstep | hstep
    · exact hr _ (List.dropLast_subset _ hstep)
    · rw [List.mem_singleton.mp hstep]
      exact proper_append hname hne hslash

/-- A link whose path is trimmed is called like the file it leads to, which has an extension
unless links get none. -/
theorem target_of_name? {link : Link} {name extension : String}
    (htrim : Text.trim link.path.toList = link.path.toList) (hname : link.name? = some name)
    (hslash : '/' ∉ extension.toList) (hdot : '.' ∉ extension.toList) (referrer base : Path) :
    let target := Link.target link.path referrer base extension
    target.normalize = target ∧ target.stem? = some name ∧
      (extension ≠ "" → target.extension?.isSome) := by
  intro target
  obtain ⟨chars, hlast, rfl⟩ := Option.map_eq_some_iff.mp hname
  have hlast : (Route.ofChars (bare link.path.toList)).fileName? = some chars := by
    rwa [Path.route, String.toList_ofList] at hlast
  have hproper : (Step.name chars).Proper := by
    obtain ⟨front, hsteps⟩ := Route.fileName?_eq_some_iff.mp hlast
    have hmem : .name chars ∈ (Route.ofChars (bare link.path.toList)).steps := by
      rw [hsteps]
      exact List.mem_append_right _ (List.mem_singleton_self _)
    exact Route.proper_of_mem_ofChars hmem
  obtain ⟨start, hstart, htarget⟩ : ∃ start : Route, (∀ step ∈ start.steps, step.Proper) ∧
      target = (withExtension extension.toList
        (start.append (Route.ofChars (bare link.path.toList)).steps)).normal.toPath := by
    refine ⟨_, ?_, by rw [← htrim]; rfl⟩
    intro step hstep
    rw [htrim] at hstep
    split at hstep
    · exact Route.proper_of_mem_ofChars hstep
    · rw [Route.directory] at hstep
      split at hstep
      · cases hstep
      · exact Route.proper_of_mem_ofChars (List.dropLast_subset _ hstep)
  have hjoined : ∀ step ∈ (start.append (Route.ofChars (bare link.path.toList)).steps).steps,
      step.Proper := by
    intro step hstep
    rcases List.mem_append.mp hstep with hstep | hstep
    · exact hstart step hstep
    · exact Route.proper_of_mem_ofChars hstep
  have hfile := proper_of_mem_withExtension hjoined hslash
  obtain ⟨full, hfull, hstem, hown⟩ :=
    exists_fileName?_withExtension (Route.fileName?_append hlast start) hproper.1 hdot
  have hroute : target.route.fileName? = some full := by
    rw [htarget, Route.route_toPath (Route.proper_of_mem_normal hfile)]
    exact Route.fileName?_normal hfull
  refine ⟨?_, ?_, fun hne => ?_⟩
  · rw [htarget]
    exact Route.normalize_toPath_normal hfile
  · rw [Path.stem?, hroute, Option.map_some, hstem]
  · have hsome := hown fun hnil => hne (String.toList_eq_nil_iff.mp hnil)
    rw [Path.extension?, hroute, Option.bind_some, Option.isSome_map]
    exact hsome

end Link

/-! ## Links of a scanned text -/

/-- The path of a link that was scanned is trimmed. -/
theorem Scan.trim_path_of_mem_ofText {text : String} {t : Token} {link : Link}
    (ht : t ∈ (Scan.ofText text).tokens) (hlink : t.content = .link link) :
    Text.trim link.path.toList = link.path.toList := by
  obtain ⟨front, back, htokens⟩ := List.append_of_mem ht
  obtain ⟨earlier, raw, later, place, hmarks, -, -⟩ := exists_marks_of_gather htokens (by
    rw [hlink]
    exact Token.Content.noConfusion)
  have hmem : .directive t.content raw ∈ (cut .plain 0 text.toList).marks := by
    rw [hmarks]
    simp
  obtain ⟨mode, c, rest, hfind⟩ := exists_find_of_mem_cut hmem
  rcases find_eq_directive_iff.mp hfind with
    ⟨-, bracket, body, -, -, hcontent, -⟩ | ⟨-, -, link', after, hspells, -, hcontent⟩
  · rw [hlink] at hcontent
    cases bracket <;> cases hcontent
  · rw [hlink] at hcontent
    cases hcontent
    obtain ⟨blanks, description, path, -, -, -, -, -, rfl⟩ := hspells
    rw [String.toList_ofList, Text.trim_trim]

namespace Setting

/-- On a shelf, a link's file is found where the link leads. -/
theorem resolved_enter {o : Options} {shelf : Shelf} {signal : Signal} {trail : List Path}
    {referrer : Path} {d : Directive} {link : Link} {follow : Option Following} {w : Watch} :
    let s : Setting := ⟨o, shelf.loader, signal⟩
    (s.targetOf referrer link).normalize = s.targetOf referrer link →
      (s.enter trail referrer d link follow w).value.resolved = s.targetOf referrer link := by
  intro s hnormal
  have hplace {path : Path} (h : s.loader.canonicalize (s.targetOf referrer link) = .ok path) :
      path = s.targetOf referrer link := by
    rw [(Shelf.canonicalize_eq_ok_iff.mp h).2, hnormal]
  have hend := s.enter_ends trail referrer d link follow w
  generalize s.enter trail referrer d link follow w = out at hend
  cases hend with
  | unresolved error h => rfl
  | recursive path h | cycle path h | tooDeep path h | silent path next h
  | cancelled path next h | unreadable path error next h | file path text next h =>
      exact hplace h

/-- Links of a scanned text are called like the files they lead to: what a link is called is the
stem of its target, from whatever file and base, and a link that a variable finds under a name
leads to a file with that stem on every shelf. -/
theorem links_are_called_like_their_files {o : Options}
    (hslash : '/' ∉ o.templateExtension.toList) (hdot : '.' ∉ o.templateExtension.toList)
    (text : String) :
    (∀ t ∈ (Scan.ofText text).tokens, ∀ link name, t.content = .link link →
      link.name? = some name → ∀ referrer base : Path,
        let target := Link.target link.path referrer base o.templateExtension
        target.normalize = target ∧ target.stem? = some name ∧
          (o.templateExtension ≠ "" → target.extension?.isSome)) ∧
    ∀ name d link,
      Assoc.find? name (linkNames (Directive.ofTokens 0 (Scan.ofText text).tokens)) =
        some (d, link) →
      ∀ (shelf : Shelf) (signal : Signal) (depth : Nat) (trail : List Path) (referrer : Path)
        (w : Watch), ∃ record later,
        ((⟨o, shelf.loader, signal⟩ : Setting).follow depth trail referrer d link
          w).ledger.imports = record :: later ∧ record.resolved.stem? = some name := by
  have htarget (t) (ht : t ∈ (Scan.ofText text).tokens) (link : Link) (name : String)
      (hlink : t.content = .link link) (hname : link.name? = some name) (referrer base : Path) :=
    Link.target_of_name? (Scan.trim_path_of_mem_ofText ht hlink) hname hslash hdot referrer base
  refine ⟨htarget, fun name d link hfind shelf signal depth trail referrer w => ?_⟩
  obtain ⟨e, he, hpair⟩ := List.mem_filterMap.mp (Assoc.mem_of_find? hfind)
  split at hpair
  · next link' hmeaning =>
      obtain ⟨name', hname, hpair⟩ := Option.map_eq_some_iff.mp hpair
      cases hpair
      obtain ⟨t, ht, hlink⟩ := Directive.exists_link_iff.mp ⟨_, he, hmeaning⟩
      obtain ⟨hnormal, hstem, -⟩ := htarget t ht link name hlink hname referrer o.basePath
      refine ⟨_, _, by rw [follow_apply]; rfl, ?_⟩
      rw [record, resolved_enter hnormal]
      exact hstem
  · cases hpair

theorem links_are_called_like_their_files_dotted :
    let o := Options.standard ⟨"/p"⟩
    let text := "//[Nav](file://./x/../nav.v2.json/.)\n"
    ('/' ∉ o.templateExtension.toList ∧ '.' ∉ o.templateExtension.toList) ∧
      ∃ t ∈ (Scan.ofText text).tokens, ∃ link, t.content = .link link ∧
        link.name? = some "nav.v2" ∧
        (Link.target link.path ⟨"/p/a/b.tmpl"⟩ o.basePath o.templateExtension).stem? =
          some "nav.v2" := by
  intro o text
  let link : Link := ⟨"Nav", "file://./x/../nav.v2.json/."⟩
  have hslash : '/' ∉ o.templateExtension.toList := by decide
  have hdot : '.' ∉ o.templateExtension.toList := by decide
  have hscan : (Scan.ofText text).tokens.any (fun t => t.content = .link link) = true := by
    decide +kernel
  have hname : link.name? = some "nav.v2" := by decide +kernel
  obtain ⟨t, ht, hlink⟩ := List.any_eq_true.mp hscan
  have hlink : t.content = .link link := of_decide_eq_true hlink
  have htarget := (links_are_called_like_their_files hslash hdot text).1 t ht link _ hlink hname
    ⟨"/p/a/b.tmpl"⟩ o.basePath
  exact ⟨⟨hslash, hdot⟩, t, ht, link, hlink, hname, htarget.2.1⟩

end Setting

end Stencil
