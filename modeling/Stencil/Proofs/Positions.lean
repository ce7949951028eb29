import Stencil.Proofs.Boundaries
import Stencil.Proofs.LinkVisits

/-!
# Positions that are reported are there

What an extraction reports has a file, a line and a column: the entries of the map, and
all problems but those of a root that cannot be opened. They all come from places of some
text that is assembled, and stay as they are when a map is moved or a ledger becomes part
of another. The places are boundaries of the text (`Law.ofText`), so each report shows a
boundary of the content of its file, and the line index of the file finds it.

If there are no problems, no draft has a fault, and then every entry is written for a
value that is whole. So what stands at the place begins the way its kind says.
-/

namespace Stencil

/-! ## The origins of a draft's entries -/

/-- Whether text of a kind that makes a value is at a location. -/
def Law.Begins (L : Law) (l : Location) : TokenKind → Prop
  | .literal => ∃ c, Json.beginsValue c = true ∧ L.char l c
  | kind => ∃ d, d.kind = kind ∧ l = d.range.first ∧ L.directive d

namespace Law

variable {L : Law} {l : Location} {kind : TokenKind}

theorem begins_directive {d : Directive} (h : L.directive d) : L.Begins d.range.first d.kind := by
  cases hlink : d.isLink with
  | true =>
      have hkind := Directive.kind_of_isLink hlink
      rw [hkind]
      exact ⟨d, hkind, rfl, h⟩
  | false =>
      have hkind := Directive.kind_of_not_isLink hlink
      rw [hkind]
      exact ⟨d, hkind, rfl, h⟩

theorem Begins.place (h : L.Begins l kind) : L.place l := by
  cases kind with
  | literal =>
      obtain ⟨c, -, hc⟩ := h
      exact L.place_of_char hc
  | _ =>
      obtain ⟨d, -, rfl, hd⟩ := h
      exact L.place_of_directive hd

/-- What begins by the law of a text begins so in the text. -/
theorem Begins.faces {text : String} (h : (Law.ofText text).Begins l kind) :
    ∃ rest, l.Faces text.toList rest ∧ kind.Begins rest := by
  cases kind with
  | literal =>
      obtain ⟨c, hc, tail, htail⟩ := h
      exact ⟨c :: tail, htail, c, tail, rfl, hc⟩
  | _ =>
      obtain ⟨d, hkind, rfl, hd⟩ := h
      rw [← hkind]
      exact hd

end Law

section Origins

variable {L : Law} {R : Origin → Prop} {path : Path} {look : Look}

/-- A node that is whole begins the way its kind says. -/
theorem Node.Stands.begins {node : Node} {place : Location} (h : node.Stands L place)
    (hwhole : node.isBroken = false) : L.Begins place node.kind := by
  cases node with
  | scalar value =>
      obtain ⟨-, c, hc, hplace⟩ := h
      exact ⟨c, by rw [Json.beginsValue, hc, Bool.or_true], hplace⟩
  | text pieces => exact ⟨'"', rfl, h.1⟩
  | directive d =>
      obtain ⟨rfl, hd⟩ := h
      exact Law.begins_directive hd
  | array elements => exact ⟨'[', rfl, h.1⟩
  | object members => exact ⟨'\x7b', rfl, h.1⟩
  | broken pieces => cases hwhole

/-- The place of a node is a place of the law. -/
theorem Node.Stands.place {node : Node} {place : Location} (h : node.Stands L place) :
    L.place place := by
  cases hbroken : node.isBroken with
  | false => exact (h.begins hbroken).place
  | true =>
      cases node with
      | broken pieces => exact h.1
      | _ => cases hbroken

theorem origins_moved {map : SourceMap} (hmap : ∀ e ∈ map.entries, R e.2) (p : Pointer) :
    ∀ e ∈ map.moved p, R e.2 := by
  intro e he
  obtain ⟨inner, hinner, rfl⟩ := List.mem_map.mp he
  exact hmap inner hinner

theorem origins_spread (hR : ∀ l kind, L.Begins l kind → R (.ofLocation path.text l kind))
    {x : Json × Option SourceMap} (hx : ∀ map, x.2 = some map → ∀ e ∈ map.entries, R e.2)
    {d : Directive} (hd : L.directive d) (p : Pointer) :
    ∀ e ∈ Scope.spreadEntries path p d x, R e.2 := by
  obtain ⟨value, map⟩ := x
  cases value with
  | object members =>
      cases map with
      | some map => exact origins_moved (hx map rfl) p
      | none =>
          intro e he
          obtain ⟨m, -, rfl⟩ := List.mem_map.mp he
          exact hR _ _ (Law.begins_directive hd)
  | null | bool | number | string | array => exact fun e he => absurd he List.not_mem_nil

mutual

/-- The entries inside a node have origins in the text, or come from what directives stand
for. -/
theorem Node.origins (hR : ∀ l kind, L.Begins l kind → R (.ofLocation path.text l kind))
    (hlook : ∀ d map, (look d).2 = some map → ∀ e ∈ map.entries, R e.2) (p : Pointer)
    (node : Node) {place : Location} (hnode : node.Stands L place) :
    ∀ e ∈ node.entries path look p, R e.2 := by
  match node with
  | .scalar _ | .text _ | .broken _ => exact fun e he => absurd he List.not_mem_nil
  | .directive d =>
      rw [Node.entries]
      cases hmap : (look d).2 with
      | none => exact fun e he => absurd he List.not_mem_nil
      | some map => exact origins_moved (hlook d map hmap) p
  | .array elements => exact Elements.origins hR hlook p elements hnode.2
  | .object members => exact Members.origins hR hlook p members hnode.2

theorem Elements.origins (hR : ∀ l kind, L.Begins l kind → R (.ofLocation path.text l kind))
    (hlook : ∀ d map, (look d).2 = some map → ∀ e ∈ map.entries, R e.2) (p : Pointer)
    (elements : Elements) (helements : elements.Stands L) :
    ∀ e ∈ elements.entries path look p, R e.2 := by
  match elements with
  | .none => exact fun e he => absurd he List.not_mem_nil
  | .add earlier place node =>
      rw [Elements.entries]
      have hearlier := Elements.origins hR hlook p earlier helements.1
      split
      · exact hearlier
      · next hbroken =>
          have hnode := Node.origins hR hlook (p.index (earlier.read look).length) node helements.2
          have hself := hR _ _ (helements.2.begins (Bool.eq_false_of_not_eq_true hbroken))
          exact List.forall_mem_append.mpr ⟨List.forall_mem_append.mpr ⟨hearlier, hnode⟩,
            List.forall_mem_singleton.mpr hself⟩

theorem Members.origins (hR : ∀ l kind, L.Begins l kind → R (.ofLocation path.text l kind))
    (hlook : ∀ d map, (look d).2 = some map → ∀ e ∈ map.entries, R e.2) (p : Pointer)
    (members : Members) (hmembers : members.Stands L) :
    ∀ e ∈ members.entries path look p, R e.2 := by
  match members with
  | .none => exact fun e he => absurd he List.not_mem_nil
  | .add earlier place key node =>
      obtain ⟨hbefore, hplace, -, inner, hinner⟩ := hmembers
      rw [Members.entries]
      have hearlier := Members.origins hR hlook p earlier hbefore
      split
      · exact hearlier
      · have hnode :=
          Node.origins hR hlook (p.key (String.ofList (Piece.read look key))) node hinner
        have hself : R (.ofLocation path.text place .literal) := hR _ _ ⟨'"', rfl, hplace⟩
        exact List.forall_mem_append.mpr ⟨List.forall_mem_append.mpr ⟨hearlier, hnode⟩,
          List.forall_mem_singleton.mpr hself⟩
  | .spread earlier d =>
      rw [Members.entries]
      exact List.forall_mem_append.mpr ⟨Members.origins hR hlook p earlier hmembers.1,
        origins_spread hR (hlook d) hmembers.2 p⟩

end

/-- All entries of a draft have origins in the text, or come from what directives stand for. In a
draft without a fault, what is at an origin begins the way its kind says. -/
theorem Draft.origins {draft : Draft} (hdraft : draft.Stands L)
    (hR : ∀ l kind, L.place l → (draft.fault = none → L.Begins l kind) →
      R (.ofLocation path.text l kind))
    (hlook : ∀ d map, (look d).2 = some map → ∀ e ∈ map.entries, R e.2) :
    ∀ e ∈ draft.entries path look, R e.2 := by
  unfold Draft.entries
  cases hbody : draft.body with
  | none => exact fun e he => absurd he List.not_mem_nil
  | some body =>
      obtain ⟨place, node⟩ := body
      have hnode := hdraft.body place node hbody
      have hself : R (.ofLocation path.text place node.kind) :=
        hR _ _ hnode.place fun hfault => hnode.begins (hdraft.whole hfault place node hbody)
      refine List.forall_mem_append.mpr ⟨?_, List.forall_mem_singleton.mpr hself⟩
      exact Node.origins (fun l kind h => hR l kind h.place fun _ => h) hlook .root node hnode

theorem SourceMap.mem_of_mem_insertAll {map : SourceMap} {entries : List Entry} {e : Entry}
    (h : e ∈ (map.insertAll entries).entries) : e ∈ map.entries ∨ e ∈ entries := by
  induction entries generalizing map with
  | nil => exact Or.inl h
  | cons entry rest ih =>
      rcases ih h with h | h
      · rcases Assoc.mem_insert (k := e.1) (v := e.2) h with ⟨hpointer, horigin⟩ | h
        · exact Or.inr (List.mem_cons.mpr (Or.inl (Prod.ext hpointer horigin)))
        · exact Or.inl h
      · exact Or.inr (List.mem_cons_of_mem _ h)

theorem SourceMap.mem_of_mem_ofList {entries : List Entry} {e : Entry}
    (h : e ∈ (SourceMap.ofList entries).entries) : e ∈ entries :=
  (mem_of_mem_insertAll h).resolve_left List.not_mem_nil

end Origins

/-! ## What reports show -/

namespace Setting

variable (s : Setting) (root : Path) (text? : Option String)

/-- Whether a line and a column of a file are those of a boundary of the text that is assembled
under the file's path, with the characters `rest` behind it; the text's line index finds it. -/
def Shows (file : String) (line column : Nat) (rest : List Char) : Prop :=
  ∃ depth trail path text w l, s.Assembles root text? depth trail path text w ∧
    path.text = file ∧ l.Faces text.toList rest ∧ l.line = line ∧ l.displayColumn = column ∧
      (LineIndex.ofText text).location? l.offset text = some l

/-- Whether an origin shows a boundary, in an extraction without problems one with the text of the
origin's kind behind it. -/
def Sourced (o : Origin) : Prop :=
  ∃ rest, s.Shows root text? o.file o.line o.column rest ∧
    ((Extraction.run s root text?).problems = [] → o.kind.Begins rest)

variable {s root text?} {depth : Nat} {trail : List Path} {path : Path} {text : String} {w : Watch}
  {rest : List Char} {l : Location}

/-- The text that is assembled under a path is the file's content, or the text that was given for
the root. -/
theorem Assembles.content (h : s.Assembles root text? depth trail path text w) :
    s.loader.read path = .ok text ∨ text? = some text ∧ trail = [path] := by
  cases h with
  | root h =>
      cases h with
      | given text h => exact Or.inr ⟨rfl, rfl⟩
      | adrift text h => exact Or.inr ⟨rfl, rfl⟩
      | file h hread => exact Or.inl hread
  | link h hfollows hcanon hmem hraised hread => exact Or.inl hread

theorem Assembles.shows (h : s.Assembles root text? depth trail path text w)
    (hl : l.Faces text.toList rest) : s.Shows root text? path.text l.line l.displayColumn rest :=
  ⟨depth, trail, path, text, w, l, h, rfl, hl, rfl, rfl, hl.location?⟩

end Setting

/-! ## Problems -/

theorem Ledger.mem_problems_concat {ledgers : List Ledger} {p : Problem} :
    p ∈ (Ledger.concat ledgers).problems ↔ ∃ l ∈ ledgers, p ∈ l.problems := by
  induction ledgers with
  | nil => simp [Ledger.concat, Ledger.empty]
  | cons l rest ih =>
      have happend : (Ledger.concat (l :: rest)).problems =
          l.problems ++ (Ledger.concat rest).problems := rfl
      rw [happend, List.mem_append, ih, List.exists_mem_cons_iff]

namespace Setting

variable {s : Setting} {root : Path} {text? : Option String} {depth : Nat} {trail : List Path}
  {path : Path} {text : String} {w : Watch} {p : Problem}

/-- The only fault among the demands is the draft's. -/
theorem fault_of_mem_demands {tokens : List Token} {f : FaultAt}
    (h : .fault f ∈ Setting.demands tokens) : (Draft.ofTokens tokens).fault = some f := by
  have hvalue {directives : List Directive} (h : Demand.fault f ∈ directives.map .value) :
      (Draft.ofTokens tokens).fault = some f := by
    obtain ⟨d, -, hd⟩ := List.mem_map.mp h
    cases hd
  rw [Setting.demands, Draft.demands] at h
  rcases List.mem_append.mp h with h | h
  · exact hvalue h
  · rcases List.mem_append.mp h with h | h
    · rw [Draft.bodyDemands] at h
      split at h
      · cases h
      · cases Node.isSome_of_mem_demands _ h
    · rcases List.mem_append.mp h with h | h
      · exact hvalue h
      · rcases List.mem_append.mp h with h | h
        · obtain ⟨g, hg, hsame⟩ := List.mem_map.mp h
          cases hsame
          exact Option.mem_toList.mp hg
        · exact hvalue h

theorem mem_problems_writtenAt {meeting : Meeting} :
    p ∈ (s.writtenAt depth trail path meeting).problems ↔
      (∃ trip, meeting.trip? = some trip ∧ p ∈ (s.entered depth trail path trip).ledger.problems) ∨
        p ∈ meeting.own := by
  have happend (a b : Ledger) : (a ++ b).problems = a.problems ++ b.problems := rfl
  rw [writtenAt, happend, List.mem_append]
  cases meeting.trip? with
  | none => simp [Ledger.empty]
  | some trip => simp [happend]

/-- The problems of a text that is assembled: its own, and those that come of its trips. -/
theorem mem_problems_assembleText (hscan : (Scan.ofText text).error = none) :
    p ∈ (s.assembleText path text (s.follow depth trail path) w).ledger.problems ↔
      (∃ trip ∈ Meeting.trips (s.meetingsAt depth trail path text w),
        p ∈ (s.entered depth trail path trip).ledger.problems) ∨
      ∃ demand ∈ demands (Scan.ofText text).tokens,
        p ∈ demand.ownProblems (s.lookAt depth trail path text w) path := by
  have honce := s.eachLinkOnce depth trail path hscan w
  have happend (a b : Ledger) : (a ++ b).problems = a.problems ++ b.problems := rfl
  have hown : (∃ demand ∈ demands (Scan.ofText text).tokens,
      p ∈ demand.ownProblems (s.lookAt depth trail path text w) path) ↔
        ∃ meeting ∈ s.meetingsAt depth trail path text w, p ∈ meeting.own := by
    rw [← List.mem_flatMap, ← honce.own, List.mem_flatMap]
  rw [honce.ledger, happend, happend, List.mem_append, List.mem_append,
    Ledger.mem_problems_concat, hown]
  constructor
  · rintro (h | h | ⟨l, hl, hp⟩)
    · cases h
    · cases h
    · obtain ⟨meeting, hmeeting, rfl⟩ := List.mem_map.mp hl
      rcases mem_problems_writtenAt.mp hp with ⟨trip, htrip, hp⟩ | hp
      · exact Or.inl ⟨trip, List.mem_filterMap.mpr ⟨meeting, hmeeting, htrip⟩, hp⟩
      · exact Or.inr ⟨meeting, hmeeting, hp⟩
  · rintro (⟨trip, htrip, hp⟩ | ⟨meeting, hmeeting, hp⟩)
    · obtain ⟨meeting, hmeeting, htrip⟩ := List.mem_filterMap.mp htrip
      exact Or.inr (Or.inr ⟨_, List.mem_map_of_mem hmeeting,
        mem_problems_writtenAt.mpr (Or.inl ⟨trip, htrip, hp⟩)⟩)
    · exact Or.inr (Or.inr ⟨_, List.mem_map_of_mem hmeeting,
        mem_problems_writtenAt.mpr (Or.inr hp)⟩)

section Clean

variable (hscan : (Scan.ofText text).error = none)

include hscan

/-- A text that is assembled without problems has none itself. -/
theorem ownProblems_of_problems_eq_nil
    (h : (s.assembleText path text (s.follow depth trail path) w).ledger.problems = [])
    {demand : Demand} (hdemand : demand ∈ demands (Scan.ofText text).tokens) :
    demand.ownProblems (s.lookAt depth trail path text w) path = [] :=
  List.eq_nil_iff_forall_not_mem.mpr fun p hp => by
    have hin := (mem_problems_assembleText hscan).mpr (Or.inr ⟨demand, hdemand, hp⟩)
    rw [h] at hin
    cases hin

/-- The draft of a text that is assembled without problems has no fault. -/
theorem fault_of_problems_eq_nil
    (h : (s.assembleText path text (s.follow depth trail path) w).ledger.problems = []) :
    (Draft.ofTokens (Scan.ofText text).tokens).fault = none := by
  cases hfault : (Draft.ofTokens (Scan.ofText text).tokens).fault with
  | none => rfl
  | some f =>
      have hdemand : .fault f ∈ demands (Scan.ofText text).tokens := by
        rw [demands, Draft.demands, hfault]
        simp
      cases ownProblems_of_problems_eq_nil hscan h hdemand

end Clean

/-- In an extraction without problems no draft has a fault. -/
theorem Assembles.fault_eq_none (h : s.Assembles root text? depth trail path text w)
    (hscan : (Scan.ofText text).error = none)
    (hclean : (Extraction.run s root text?).problems = []) :
    (Draft.ofTokens (Scan.ofText text).tokens).fault = none :=
  fault_of_problems_eq_nil hscan (h.part.problems_eq_nil hclean)

/-- What a text itself has as problems is at boundaries of it. -/
theorem Assembles.shows_own (h : s.Assembles root text? depth trail path text w) {look : Look}
    {demand : Demand} (hdemand : demand ∈ demands (Scan.ofText text).tokens)
    (hp : p ∈ demand.ownProblems look path) :
    ∃ rest, s.Shows root text? p.file.text p.line p.column rest := by
  cases demand with
  | value d => cases hp
  | members d =>
      rw [Demand.ownProblems] at hp
      split at hp
      · cases hp
      · obtain ⟨rest, hrest, -⟩ := Directive.faces (within_demands hdemand rfl)
        rw [List.mem_singleton.mp hp]
        exact ⟨rest, h.shows hrest⟩
  | fault f =>
      obtain ⟨rest, hrest⟩ := (Draft.stands_ofText text).fault f (fault_of_mem_demands hdemand)
      rw [List.mem_singleton.mp hp]
      exact ⟨rest, h.shows hrest⟩

/-- What following a link has as problems is at the link, or comes from the link's file. -/
theorem Assembles.shows_entered (h : s.Assembles root text? depth trail path text w)
    (hscan : (Scan.ofText text).error = none) {trip : Trip}
    (htrip : trip ∈ Meeting.trips (s.meetingsAt depth trail path text w))
    (hnext : ∀ n < depth, ∀ trail path text w, s.Assembles root text? n trail path text w →
      ∀ p ∈ (s.assembleText path text (s.follow n trail path) w).ledger.problems,
        ∃ rest, s.Shows root text? p.file.text p.line p.column rest)
    (hp : p ∈ (s.entered depth trail path trip).ledger.problems) :
    ∃ rest, s.Shows root text? p.file.text p.line p.column rest := by
  obtain ⟨rest, hrest, -⟩ := Directive.faces (meaning_of_mem_trips htrip).1
  have hleads := h.leads (follows_of_mem_trips hscan htrip)
  rw [entered] at hp
  generalize s.enter trail path trip.directive trip.link (s.deeper depth) trip.watch = out
    at hleads hp
  cases hleads with
  | nowhere dependencies problems hdependencies hproblems =>
      obtain ⟨cause, rfl⟩ := hproblems p hp
      exact ⟨rest, h.shows hrest⟩
  | file hn h' => exact hnext _ hn _ _ _ _ h' p hp

/-- The problems of a text that is assembled show boundaries. -/
theorem Assembles.shows_of_mem_problems (h : s.Assembles root text? depth trail path text w) :
    ∀ p ∈ (s.assembleText path text (s.follow depth trail path) w).ledger.problems,
      ∃ rest, s.Shows root text? p.file.text p.line p.column rest := by
  induction depth using Nat.strongRecOn generalizing trail path text w with
  | ind depth ih =>
  intro p hp
  cases hscan : (Scan.ofText text).error with
  | some error =>
      rw [assembleText_error s hscan] at hp
      obtain ⟨rest, hrest⟩ := Scan.faces_of_error text hscan
      rw [List.mem_singleton.mp hp]
      exact ⟨rest, h.shows hrest⟩
  | none =>
      rcases (mem_problems_assembleText hscan).mp hp with ⟨trip, htrip, hp⟩ | ⟨demand, hdemand, hp⟩
      · exact h.shows_entered hscan htrip (fun n hn _ _ _ _ h' => ih n hn h') hp
      · exact h.shows_own hdemand hp

/-- The entries of a text that is assembled have sources. -/
theorem Assembles.sourced (h : s.Assembles root text? depth trail path text w) :
    ∀ e ∈ (s.assembleText path text (s.follow depth trail path) w).value.map.entries,
      s.Sourced root text? e.2 := by
  refine h.holds (V := fun a => ∀ e ∈ a.map.entries, s.Sourced root text? e.2)
    (fun e he => absurd he List.not_mem_nil) fun depth trail path text w h hscan hlook e he => ?_
  have hmaps : ∀ d map, (s.lookAt depth trail path text w d).2 = some map →
      ∀ e ∈ map.entries, s.Sourced root text? e.2 := by
    intro d map hmap
    rcases hlook d with ⟨a, ha, hd⟩ | hd | ⟨expression, hd⟩
    · rw [hd] at hmap
      cases hmap
      exact ha
    all_goals
      rw [hd] at hmap
      cases hmap
  have hown : ∀ l kind, (Law.ofText text).place l →
      ((Draft.ofTokens (Scan.ofText text).tokens).fault = none → (Law.ofText text).Begins l kind) →
        s.Sourced root text? (.ofLocation path.text l kind) := by
    intro l kind hplace hbegins
    by_cases hclean : (Extraction.run s root text?).problems = []
    · obtain ⟨rest, hrest, hkind⟩ := (hbegins (h.fault_eq_none hscan hclean)).faces
      exact ⟨rest, h.shows hrest, fun _ => hkind⟩
    · obtain ⟨rest, hrest⟩ := hplace
      exact ⟨rest, h.shows hrest, fun h => absurd h hclean⟩
  rw [readWith] at he
  dsimp only at he
  split at he
  · exact Draft.origins (Draft.stands_ofText text) hown hmaps e (SourceMap.mem_of_mem_ofList he)
  · cases he

end Setting

/-- Every entry of the map and every problem with a line shows a boundary of the text that is
assembled under its file, which is the file's content or was given for the root. In an extraction
without problems, what stands at an entry's place begins the way the entry's kind says, and no
entry is a control block's. -/
theorem Extraction.positions_shown (s : Setting) (root : Path) (text? : Option String) :
    (∀ e ∈ (Extraction.run s root text?).map.entries, ∃ rest,
      s.Shows root text? e.2.file e.2.line e.2.column rest ∧
        ((Extraction.run s root text?).problems = [] → e.2.kind.Begins rest)) ∧
    (∀ p ∈ (Extraction.run s root text?).problems, p.line ≠ 0 → ∃ rest,
      s.Shows root text? p.file.text p.line p.column rest) ∧
    ∀ depth trail path text w, s.Assembles root text? depth trail path text w →
      s.loader.read path = .ok text ∨ text? = some text ∧ trail = [path] := by
  refine ⟨?_, ?_, fun _ _ _ _ _ h => h.content⟩
  · exact Setting.holds_run (V := fun a => ∀ e ∈ a.map.entries, s.Sourced root text? e.2)
      (fun e he => absurd he List.not_mem_nil) fun _ _ _ _ _ h => h.sourced
  · intro p hp hline
    rcases s.opens_or_fails root text? with ⟨path, text, w, hopens⟩ | ⟨path, cause, w, hfails⟩
    · rw [hopens.run_eq] at hp
      exact (Setting.Assembles.root hopens).shows_of_mem_problems p hp
    · rw [Extraction.problems, Extraction.run, hfails] at hp
      rw [List.mem_singleton.mp hp] at hline
      exact absurd rfl hline

/-- Two files with nothing wrong, and a third one that breaks off. -/
def Shelf.placed : Shelf :=
  ⟨[(⟨"/p/root.tmpl"⟩, "\x7b\n  \"a\": [\x7b\x7b n \x7d\x7d, -1],\n  // [X](x)\n\x7d"),
    (⟨"/p/x.tmpl"⟩, "\x7b\"k\": true\x7d"), (⟨"/p/broken.tmpl"⟩, "[// [X](x)\n, ?")]⟩

theorem Extraction.positions_shown_placed :
    let s := Shelf.placed.setting (.standard ⟨"/p"⟩)
    let e := Extraction.run s ⟨"root.tmpl"⟩ none
    let broken := Extraction.run s ⟨"broken.tmpl"⟩ none
    e.problems = [] ∧
      (e.map.entries.map fun x => x.2.place) = ["/p/root.tmpl:2:9", "/p/root.tmpl:2:18",
        "/p/root.tmpl:2:3", "/p/x.tmpl:1:2", "/p/root.tmpl:1:1"] ∧
      (∀ x ∈ e.map.entries, ∃ rest,
        s.Shows ⟨"root.tmpl"⟩ none x.2.file x.2.line x.2.column rest ∧ x.2.kind.Begins rest) ∧
      (broken.problems.map fun p => (p.line, p.column)) = [(2, 3)] ∧
      ∀ p ∈ broken.problems, ∃ rest,
        s.Shows ⟨"broken.tmpl"⟩ none p.file.text p.line p.column rest := by
  intro s e broken
  have hclean : e.problems = [] := List.isEmpty_iff.mp (by decide +kernel)
  have hlines : ∀ p ∈ broken.problems, p.line ≠ 0 := by decide +kernel
  obtain ⟨hentries, -, -⟩ := Extraction.positions_shown s ⟨"root.tmpl"⟩ none
  obtain ⟨-, hproblems, -⟩ := Extraction.positions_shown s ⟨"broken.tmpl"⟩ none
  refine ⟨hclean, by decide +kernel, fun x hx => ?_, by decide +kernel,
    fun p hp => hproblems p hp (hlines p hp)⟩
  obtain ⟨rest, hshows, hbegins⟩ := hentries x hx
  exact ⟨rest, hshows, hbegins hclean⟩

end Stencil
