import Stencil.Proofs.Twins
import Stencil.Proofs.Visits

/-!
# Two roots whose directives are twins

Two texts may have the same directives in the same order, under other numbers and at other
places. If they are the roots of two extractions that agree otherwise, their links are
followed in the same order, and each link leads to the same in both: the root is on every
trail, so that it is not read again. The tables then hold the same under related numbers,
and what is written is the same but for the places in the root.

Numbers are related by any relation that is injective both ways.
-/

namespace Stencil

/-! ## What is left of a ledger without places -/

/-- A record as it is wherever the link stands. -/
def ImportRecord.unplaced (r : ImportRecord) : ImportRecord := { r with range := .empty .start }

/-- A problem as it is wherever it is in its file. -/
def Problem.unplaced (p : Problem) : Problem := .ofFile p.cause p.file

namespace Ledger

/-- A ledger as it is wherever things stand in their files. -/
def unplaced (l : Ledger) : Ledger :=
  { l with
    imports := l.imports.map ImportRecord.unplaced
    problems := l.problems.map Problem.unplaced }

theorem unplaced_append (a b : Ledger) : (a ++ b).unplaced = a.unplaced ++ b.unplaced := by
  show (⟨List.map _ (a.imports ++ b.imports), List.map _ (a.problems ++ b.problems), _, _, _, _⟩ :
    Ledger) = _
  rw [List.map_append, List.map_append]
  rfl

end Ledger

/-- Whether two parts of a run give the same and write the same, but for places. -/
structure Outcome.Alike (out out' : Outcome α) : Prop where
  value : out'.value = out.value
  ledger : out'.ledger.unplaced = out.ledger.unplaced
  watch : out'.watch = out.watch

/-! ## Twins -/

/-- Whether two directives say the same under related numbers. -/
structure Directive.Twin (N : Nat → Nat → Prop) (d d' : Directive) : Prop where
  number : N d.number d'.number
  meaning : d'.meaning = d.meaning
  raw : d'.raw = d.raw

theorem Directive.Twin.isLink_eq {N : Nat → Nat → Prop} {d d' : Directive} (h : d.Twin N d') :
    d.isLink = d'.isLink := by
  rw [isLink, isLink, h.meaning]

/-- Whether the same is asked of twins. -/
inductive Demand.Twin (N : Nat → Nat → Prop) : Demand → Demand → Prop
  | value {d d' : Directive} (h : d.Twin N d') : Twin N (.value d) (.value d')
  | members {d d' : Directive} (h : d.Twin N d') : Twin N (.members d) (.members d')

/-- Templates are alike when their directives are twins in order. -/
def Likeness.numbered (N : Nat → Nat → Prop) : Likeness where
  twins := Directive.Twin N
  looks look look' := ∀ d d', d.Twin N d' → look' d' = look d
  rows := List.Forall₂ (Demand.Twin N)
  isLink_eq h := h.isLink_eq
  value_eq h hlook := congrArg Prod.fst (hlook _ _ h).symm
  nil := .nil
  append h h' := List.rel_append h h'
  value h := .cons (.value h) .nil
  members h := .cons (.members h) .nil

/-- Whether a relation of numbers takes different numbers to different numbers, both ways. -/
def Table.Matching (N : Nat → Nat → Prop) : Prop :=
  ∀ {n n' m m'}, N n n' → N m m' → (n = m ↔ n' = m')

/-- Whether two tables hold the same under related numbers. -/
def Table.Twin (N : Nat → Nat → Prop) (t t' : Table) : Prop :=
  ∀ {n n'}, N n n' → Assoc.find? n' t' = Assoc.find? n t

theorem Table.twin_nil (N : Nat → Nat → Prop) : Table.Twin N [] [] := fun _ => rfl

theorem Table.Twin.insert {N : Nat → Nat → Prop} (hN : Matching N) {t t' : Table} (h : Twin N t t')
    {n n' : Nat} (hn : N n n') (a : Assembled) :
    Twin N (Assoc.insert n a t) (Assoc.insert n' a t') := by
  intro m m' hm
  rw [Assoc.find?_insert, Assoc.find?_insert, h hm]
  exact if_congr (hN hn hm).symm rfl rfl

/-- Whether two directives with their links are twins. -/
def Link.Twin (N : Nat → Nat → Prop) (found found' : Directive × Link) : Prop :=
  found.1.Twin N found'.1 ∧ found'.2 = found.2

theorem Setting.twin_linkNames {N : Nat → Nat → Prop} {directives directives' : List Directive}
    (h : List.Forall₂ (Directive.Twin N) directives directives') (name : String) :
    Option.Rel (Link.Twin N) (Assoc.find? name (linkNames directives))
      (Assoc.find? name (linkNames directives')) := by
  induction h with
  | nil => exact .none
  | @cons d d' _ _ hd _ ih =>
      have hmeaning := hd.meaning
      rw [linkNames, linkNames, List.filterMap_cons, List.filterMap_cons, hmeaning]
      match hd₀ : d.meaning with
      | .variable _ => exact ih
      | .link link =>
          simp only
          cases link.name? with
          | none => exact ih
          | some other =>
              simp only [Option.map_some, Assoc.find?]
              split
              · exact .some ⟨hd, rfl⟩
              · exact ih

/-! ## Scopes -/

/-- Whether twins stand for the same in two scopes, once the tables hold the same. -/
structure Scope.Twin (N : Nat → Nat → Prop) (s s' : Scope) : Prop where
  path : s'.path = s.path
  given : s'.given = s.given
  names : ∀ name, Option.Rel (Link.Twin N) (Assoc.find? name s.names) (Assoc.find? name s'.names)
  follow : ∀ {d d'}, d.Twin N d' → ∀ link w, (s.follow d link w).Alike (s'.follow d' link w)

namespace Scope.Twin

variable {N : Nat → Nat → Prop} {s s' : Scope} {t t' : Table} {d d' : Directive}

theorem linkOf? (h : s.Twin N s') (hd : d.Twin N d') :
    Option.Rel (Link.Twin N) (s.linkOf? d) (s'.linkOf? d') := by
  rw [Scope.linkOf?, Scope.linkOf?, hd.meaning]
  cases d.meaning with
  | link link => exact .some ⟨hd, rfl⟩
  | «variable» expression => exact h.names _

theorem seen_eq (h : s.Twin N s') (ht : t.Twin N t') (hd : d.Twin N d') :
    s'.seen t' d' = s.seen t d := by
  have hlink := h.linkOf? hd
  rw [Scope.seen, Scope.seen, Scope.placeholder, Scope.placeholder, h.given, hd.meaning]
  generalize s.linkOf? d = found at hlink
  generalize s'.linkOf? d' = found' at hlink
  cases hlink with
  | none => rfl
  | some hfound =>
      dsimp only
      rw [ht hfound.1.number]

variable (hN : Table.Matching N)

include hN

theorem learn (h : s.Twin N s') (ht : t.Twin N t') (hd : d.Twin N d') (w : Watch) :
    Table.Twin N (s.learn t d w).value (s'.learn t' d' w).value ∧
      (s'.learn t' d' w).ledger.unplaced = (s.learn t d w).ledger.unplaced ∧
      (s'.learn t' d' w).watch = (s.learn t d w).watch := by
  have hlink := h.linkOf? hd
  cases hfound : s.linkOf? d with
  | none =>
      cases hfound' : s'.linkOf? d' with
      | none =>
          rw [learn_none hfound, learn_none hfound']
          exact ⟨ht, rfl, rfl⟩
      | some found' =>
          rw [hfound, hfound'] at hlink
          cases hlink
  | some found =>
      cases hfound' : s'.linkOf? d' with
      | none =>
          rw [hfound, hfound'] at hlink
          cases hlink
      | some found' =>
          rw [hfound, hfound'] at hlink
          obtain ⟨e, link⟩ := found
          obtain ⟨e', link'⟩ := found'
          cases hlink with
          | some htwin =>
          obtain ⟨he, rfl⟩ : e.Twin N e' ∧ link' = link := htwin
          have hsame := ht he.number
          cases hknown : Assoc.find? e.number t with
          | some a =>
              rw [learn_known hfound hknown, learn_known hfound' (hsame.trans hknown)]
              exact ⟨ht, rfl, rfl⟩
          | none =>
              have hfollow := h.follow he link' w
              rw [learn_new hfound hknown, learn_new hfound' (hsame.trans hknown), hfollow.value]
              exact ⟨ht.insert hN he.number _, hfollow.ledger, hfollow.watch⟩

theorem meet (h : s.Twin N s') (ht : t.Twin N t') {demand demand' : Demand}
    (hdemand : demand.Twin N demand') (w : Watch) :
    Table.Twin N (s.meet t demand w).value (s'.meet t' demand' w).value ∧
      (s'.meet t' demand' w).ledger.unplaced = (s.meet t demand w).ledger.unplaced ∧
      (s'.meet t' demand' w).watch = (s.meet t demand w).watch := by
  cases hdemand with
  | value hd => exact h.learn hN ht hd w
  | @members d d' hd =>
      obtain ⟨htables, hledger, hwatch⟩ := h.learn hN ht hd w
      rw [meet_members, meet_members]
      refine ⟨htables, ?_, hwatch⟩
      rw [Ledger.unplaced_append, Ledger.unplaced_append, hledger]
      refine congrArg (Ledger.unplaced _ ++ ·) ?_
      rw [ownProblems, ownProblems, h.seen_eq htables hd]
      split
      · rfl
      · rw [unspreadable, unspreadable, h.path, hd.raw]
        rfl

theorem meetAll (h : s.Twin N s') (ht : t.Twin N t') {demands demands' : List Demand}
    (hdemands : List.Forall₂ (Demand.Twin N) demands demands') (w : Watch) :
    Table.Twin N (s.meetAll t demands w).value (s'.meetAll t' demands' w).value ∧
      (s'.meetAll t' demands' w).ledger.unplaced = (s.meetAll t demands w).ledger.unplaced ∧
      (s'.meetAll t' demands' w).watch = (s.meetAll t demands w).watch := by
  induction hdemands generalizing t t' w with
  | nil => exact ⟨ht, rfl, rfl⟩
  | cons hdemand _ ih =>
      obtain ⟨htables, hledger, hwatch⟩ := h.meet hN ht hdemand w
      obtain ⟨htables', hledger', hwatch'⟩ := ih htables (s.meet t _ w).watch
      rw [meetAll_cons, meetAll_cons]
      dsimp only
      rw [hwatch, Ledger.unplaced_append, Ledger.unplaced_append, hledger, hledger']
      exact ⟨htables', rfl, hwatch'⟩

end Scope.Twin

/-! ## Links of the two roots -/

namespace Setting

/-- Whether two settings differ in the text of the file with one canonical path at most. -/
structure AgreeExcept (s s' : Setting) (path : Path) : Prop where
  options : s'.options = s.options
  signal : s'.signal = s.signal
  canonicalize : s'.loader.canonicalize = s.loader.canonicalize
  read : ∀ asked other, s.loader.canonicalize asked = .ok other → other ≠ path →
    s'.loader.read other = s.loader.read other

variable {s s' : Setting} {root : Path}

/-- How a text is assembled depends on the setting by its options only. -/
theorem AgreeExcept.assembleText_eq (h : s.AgreeExcept s' root) (path : Path) (text : String) :
    s'.assembleText path text = s.assembleText path text := by
  unfold assembleText assemble
  rw [h.options]

/-- How the next links are followed is the same in both, behind any one more file. -/
def SameBehind (trail : List Path) (next next' : Following) : Prop :=
  ∀ path, next' (trail ++ [path]) path = next (trail ++ [path]) path

/-- With the file on the trail its text is not read, so that entering a link is the same in both. -/
theorem AgreeExcept.enter_eq (h : s.AgreeExcept s' root) {trail : List Path} (hroot : root ∈ trail)
    {follow follow' : Option Following} (hfollow : Option.Rel (SameBehind trail) follow follow')
    (referrer : Path) (d : Directive) (link : Link) (w : Watch) :
    s'.enter trail referrer d link follow' w = s.enter trail referrer d link follow w := by
  have hcanon' {found : Except LoadError Path}
      (hcanon : s.loader.canonicalize (s.targetOf referrer link) = found) :
      s'.loader.canonicalize (s'.targetOf referrer link) = found :=
    (canonicalize_targetOf_congr h.options h.canonicalize referrer link).trans hcanon
  have hallow' {b : Bool} (hallow : s.options.allowRecursiveImports = b) :
      s'.options.allowRecursiveImports = b := by
    rw [h.options, hallow]
  have hread' {path : Path} {found : Except LoadError String}
      (hcanon : s.loader.canonicalize (s.targetOf referrer link) = .ok path) (hmem : path ∉ trail)
      (hread : s.loader.read path = found) : s'.loader.read path = found :=
    (h.read _ path hcanon fun heq => hmem (heq ▸ hroot)).trans hread
  have hend := s.enter_ends trail referrer d link follow w
  generalize s.enter trail referrer d link follow w = out at hend
  cases hend with
  | unresolved error hcanon =>
      rw [enter_unresolved (hcanon' hcanon), targetOf_congr h.options]
  | recursive path hcanon hmem hallow =>
      rw [enter_recursive (hcanon' hcanon) hmem (hallow' hallow)]
  | cycle path hcanon hmem hallow => rw [enter_cycle (hcanon' hcanon) hmem (hallow' hallow)]
  | tooDeep path hcanon hmem =>
      cases hfollow
      rw [enter_tooDeep (hcanon' hcanon) hmem, h.options]
  | silent path next hcanon hmem hraised hreported =>
      cases hfollow
      rw [enter_silent (hcanon' hcanon) hmem hraised hreported]
  | cancelled path next hcanon hmem hraised hreported =>
      cases hfollow
      rw [enter_cancelled (hcanon' hcanon) hmem hraised hreported]
  | unreadable path error next hcanon hmem hraised hread =>
      cases hfollow
      rw [enter_unreadable (hcanon' hcanon) hmem hraised (hread' hcanon hmem hread),
        watch_read_congr h.signal]
  | file path text next hcanon hmem hraised hread =>
      cases hfollow with
      | some hnext =>
          rw [enter_read (hcanon' hcanon) hmem hraised (hread' hcanon hmem hread), hnext path,
            h.assembleText_eq, watch_read_congr h.signal]

theorem AgreeExcept.follow_eq (h : s.AgreeExcept s' root) (depth : Nat) {trail : List Path}
    (hroot : root ∈ trail) (referrer : Path) (d : Directive) (link : Link) :
    s'.follow depth trail referrer d link = s.follow depth trail referrer d link := by
  induction depth generalizing trail referrer d link with
  | zero =>
      funext w
      rw [follow_apply, follow_apply, deeper, deeper, h.enter_eq hroot .none]
  | succ depth ih =>
      have hbehind : SameBehind trail (s.follow depth) (s'.follow depth) := fun path => by
        funext e next
        exact ih (List.mem_append_left _ hroot) path e next
      funext w
      rw [follow_apply, follow_apply, deeper, deeper, h.enter_eq hroot (.some hbehind)]

/-- A link leads to the same wherever it stands. -/
theorem enter_alike (s : Setting) (trail : List Path) (referrer : Path) (d d' : Directive)
    (link : Link) (follow : Option Following) (w : Watch) :
    (s.enter trail referrer d link follow w).Alike (s.enter trail referrer d' link follow w) := by
  have hend := s.enter_ends trail referrer d link follow w
  generalize s.enter trail referrer d link follow w = out at hend
  cases hend with
  | unresolved error hcanon => rw [enter_unresolved hcanon]; exact ⟨rfl, rfl, rfl⟩
  | recursive path hcanon hmem hallow =>
      rw [enter_recursive hcanon hmem hallow]; exact ⟨rfl, rfl, rfl⟩
  | cycle path hcanon hmem hallow => rw [enter_cycle hcanon hmem hallow]; exact ⟨rfl, rfl, rfl⟩
  | tooDeep path hcanon hmem => rw [enter_tooDeep hcanon hmem]; exact ⟨rfl, rfl, rfl⟩
  | silent path next hcanon hmem hraised hreported =>
      rw [enter_silent hcanon hmem hraised hreported]; exact ⟨rfl, rfl, rfl⟩
  | cancelled path next hcanon hmem hraised hreported =>
      rw [enter_cancelled hcanon hmem hraised hreported]; exact ⟨rfl, rfl, rfl⟩
  | unreadable path error next hcanon hmem hraised hread =>
      rw [enter_unreadable hcanon hmem hraised hread]; exact ⟨rfl, rfl, rfl⟩
  | file path text next hcanon hmem hraised hread =>
      rw [enter_read hcanon hmem hraised hread]; exact ⟨rfl, rfl, rfl⟩

theorem follow_alike (s : Setting) (depth : Nat) (trail : List Path) (referrer : Path)
    (d d' : Directive) (link : Link) (w : Watch) :
    (s.follow depth trail referrer d link w).Alike (s.follow depth trail referrer d' link w) := by
  have henter := s.enter_alike trail referrer d d' link (s.deeper depth) w
  rw [follow_apply, follow_apply]
  refine ⟨congrArg Followed.assembled henter.value, ?_, henter.watch⟩
  dsimp only
  rw [Ledger.unplaced_append, Ledger.unplaced_append, henter.ledger, henter.value]
  rfl

/-! ## The two roots -/

variable {N : Nat → Nat → Prop} {path : Path} {text text' : String} {text? text?' : Option String}
  {w : Watch}

/-- The scopes of two roots stand for the same at twins. -/
theorem AgreeExcept.scopes (h : s.AgreeExcept s' path) (depth : Nat)
    (hdirectives : List.Forall₂ (Directive.Twin N)
      (Directive.ofTokens 0 (Scan.ofText text).tokens)
      (Directive.ofTokens 0 (Scan.ofText text').tokens)) :
    (s.scopeAt depth [path] path text).Twin N (s'.scopeAt depth [path] path text') := by
  have hfollow := h.follow_eq depth (List.mem_singleton_self path) path
  unfold scopeAt scope
  refine ⟨rfl, congrArg Options.defaultValues h.options, twin_linkNames hdirectives, ?_⟩
  intro d d' _ link w
  dsimp only
  rw [hfollow]
  exact s.follow_alike depth [path] path d d' link w

/-- Two extractions agree but for places and for what is written about the root's text, if they
agree but for the root and the roots are alike. -/
theorem AgreeExcept.run_alike (h : s.AgreeExcept s' path) (hN : Table.Matching N)
    (hopens : s.Opens root text? path text w) (hopens' : s'.Opens root text?' path text' w)
    (hscan : (Scan.ofText text).error = none) (hscan' : (Scan.ofText text').error = none)
    (hdirectives : List.Forall₂ (Directive.Twin N)
      (Directive.ofTokens 0 (Scan.ofText text).tokens)
      (Directive.ofTokens 0 (Scan.ofText text').tokens))
    (hfault : (Draft.ofTokens (Scan.ofText text).tokens).fault = none)
    (hdrafts : (Likeness.numbered N).Drafts (Draft.ofTokens (Scan.ofText text).tokens)
      (Draft.ofTokens (Scan.ofText text').tokens)) :
    (Extraction.run s' root text?').value = (Extraction.run s root text?).value ∧
      ∃ l l' : Ledger, l'.unplaced = l.unplaced ∧
        (Extraction.run s root text?).ledger =
          readLedger path text ++ (counts (Scan.ofText text).tokens ++ l) ∧
        (Extraction.run s' root text?').ledger =
          readLedger path text' ++ (counts (Scan.ofText text').tokens ++ l') := by
  have hscopes := h.scopes s.options.maxImportDepth hdirectives
  have hdemands : List.Forall₂ (Demand.Twin N) (demands (Scan.ofText text).tokens)
      (demands (Scan.ofText text').tokens) :=
    hdrafts.demands hfault (Likeness.twins_links hdirectives)
  obtain ⟨htables, hledger, -⟩ := hscopes.meetAll hN (Table.twin_nil N) hdemands w
  have hdepth : s'.options.maxImportDepth = s.options.maxImportDepth := by rw [h.options]
  rw [hopens.run_eq, hopens'.run_eq, assembleRoot, assembleRoot, hdepth, assembleText_ok s hscan,
    assembleText_ok s' hscan']
  refine ⟨?_, _, _, hledger, rfl, rfl⟩
  exact (hdrafts.read fun d d' hd => hscopes.seen_eq htables hd).symm

end Setting

namespace Shelf

variable {S : Shelf} {path : Path} {old : String}

theorem read_add (S : Shelf) (path : Path) (text : String) :
    (S.add path text).read path = .ok text := by
  rw [read, add, Assoc.find?_insert, if_pos rfl]

theorem canonicalize_add (hread : S.read path = .ok old) (text : String) :
    (S.add path text).canonicalize = S.canonicalize := by
  funext asked
  rw [canonicalize, canonicalize, add, Assoc.find?_insert]
  by_cases hsame : path.normalize = asked.normalize
  · obtain ⟨found, hfound⟩ : ∃ found, Assoc.find? path.normalize S.files = some found := by
      rw [read] at hread
      split at hread
      · next found hfound => exact ⟨found, hfound⟩
      · cases hread
    rw [if_pos hsame, ← hsame, hfound]
  · rw [if_neg hsame]

/-- A shelf on which one text is replaced agrees with what it was but for that text. -/
theorem agreeExcept_add (hpath : path.normalize = path) (hread : S.read path = .ok old)
    (o : Options) (text : String) :
    (S.setting o).AgreeExcept ((S.add path text).setting o) path where
  options := rfl
  signal := rfl
  canonicalize := canonicalize_add hread text
  read asked other hcanon hother := by
    show (S.add path text).read other = S.read other
    obtain ⟨-, rfl⟩ := canonicalize_eq_ok_iff.mp hcanon
    rw [read, read, add, Assoc.find?_insert, if_neg]
    rw [hpath, Path.normalize_normalize]
    exact Ne.symm hother

variable {o : Options} {root : Path}

/-- An extraction from a shelf that reads its root has read once then. -/
theorem opens_file (hcanon : S.canonicalize (o.placeOf root) = .ok path)
    (hread : S.read path = .ok old) :
    (S.setting o).Opens root none path old ⟨1, false, false⟩ := .file hcanon hread

theorem opens_add (hcanon : S.canonicalize (o.placeOf root) = .ok path)
    (hread : S.read path = .ok old) (text : String) :
    ((S.add path text).setting o).Opens root none path text ⟨1, false, false⟩ :=
  opens_file (by rw [canonicalize_add hread, hcanon]) (read_add S path text)

end Shelf

end Stencil
