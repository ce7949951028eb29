import Mathlib.Algebra.GroupWithZero.Nat
import Mathlib.Data.List.Nodup
import Stencil.Proofs.Visits
import Stencil.Report

/-!
# Each link is followed once

A template meets its demands one after another. For a demand it follows one link or none, and it
has one problem of its own or none. The link that is followed is one that the table did not have
yet, and from then on the table has it; so no link is followed twice, and because every link of a
template is demanded in the end, each one is followed once.

What a directive stands for is read off the final table. The table has one value for each link,
the one its record has, and so all directives that take a link's value see that one
(`EachLinkOnce`).

A text has as many records of its own as it has links, and the record of a link stands in front
of what its file writes; so the records of a whole extraction are the links of all texts that are
assembled, and the counts are those of all their tokens (`Totals`). The induction is on the depth
that is left.
-/

namespace Stencil

/-- One ledger after another. -/
def Ledger.concat : List Ledger → Ledger
  | [] => .empty
  | l :: rest => l ++ concat rest

/-- A link that is followed, and the watch under which it is. -/
structure Trip where
  directive : Directive
  link : Link
  watch : Watch

/-- What meeting a demand comes to: the link that is followed for it, and the problems that the
template itself has there. -/
structure Meeting where
  trip? : Option Trip
  own : List Problem

/-- The links that are followed, in order. -/
def Meeting.trips (meetings : List Meeting) : List Trip := meetings.filterMap Meeting.trip?

/-- The problems of a template itself at a demand, when directives stand for what they do. -/
def Demand.ownProblems (look : Look) (path : Path) : Demand → List Problem
  | .value _ => []
  | .members d =>
      if Scope.spreadable (look d) then []
      else [.ofLocation (.notSpreadable (look d).1.describe d.raw) path d.range.first]
  | .fault f => [.ofLocation (.fault f.fault) path f.place]

theorem Demand.ownProblems_members_eq_nil {look : Look} {path : Path} {d : Directive} :
    (Demand.members d).ownProblems look path = [] ↔ Scope.spreadable (look d) = true := by
  rw [ownProblems]
  split
  · next hspread => exact iff_of_true rfl hspread
  · next hspread => exact iff_of_false (List.cons_ne_nil _ _) hspread

/-- Whether a problem is that something cannot give members to an object. -/
def Problem.isNotSpreadable (p : Problem) : Bool :=
  match p.cause with
  | .notSpreadable .. => true
  | _ => false

namespace Scope

variable (s : Scope)

/-- The trip that a demand makes necessary: to a link that the table does not have. -/
def trip? (t : Table) (demand : Demand) (w : Watch) : Option Trip :=
  match demand.directive?.bind s.linkOf? with
  | none => none
  | some (d, link) => if (Assoc.find? d.number t).isSome then none else some ⟨d, link, w⟩

/-- What meeting each of some demands comes to. -/
def meetings (t : Table) : List Demand → Watch → List Meeting
  | [], _ => []
  | demand :: rest, w =>
      let met := s.meet t demand w
      ⟨s.trip? t demand w, demand.ownProblems (s.seen met.value) s.path⟩ ::
        meetings met.value rest met.watch

/-- What following a link comes to. -/
def outcome (trip : Trip) : Outcome Assembled := s.follow trip.directive trip.link trip.watch

/-- What is written at a meeting. -/
def written (meeting : Meeting) : Ledger :=
  (match meeting.trip? with
    | none => .empty
    | some trip => (s.outcome trip).ledger) ++ { problems := meeting.own }

variable {s} {t : Table} {demand : Demand} {demands : List Demand} {w : Watch} {trip : Trip}

theorem exists_of_trip? (h : s.trip? t demand w = some trip) :
    (∃ asked, demand.directive? = some asked ∧
        s.linkOf? asked = some (trip.directive, trip.link)) ∧
      Assoc.find? trip.directive.number t = none ∧ trip.watch = w := by
  unfold trip? at h
  split at h
  · cases h
  · next d link hneeds =>
      obtain ⟨asked, hasked, hlink⟩ := Option.bind_eq_some_iff.mp hneeds
      split at h
      · cases h
      · next hnew =>
          cases h
          exact ⟨⟨asked, hasked, hlink⟩, by simpa using hnew, rfl⟩

/-- A demand makes a trip or has its value already. -/
theorem learn_trip (demand : Demand) {asked : Directive} (hasked : demand.directive? = some asked)
    (t : Table) (w : Watch) :
    s.learn t asked w =
      match s.trip? t demand w with
      | none => ⟨t, .empty, w⟩
      | some trip =>
          ⟨Assoc.insert trip.directive.number (s.outcome trip).value t, (s.outcome trip).ledger,
            (s.outcome trip).watch⟩ := by
  cases hlink : s.linkOf? asked with
  | none => simp only [trip?, hasked, Option.bind_some, hlink, learn_none hlink]
  | some found =>
      obtain ⟨d, link⟩ := found
      cases hfind : Assoc.find? d.number t with
      | some a =>
          simp only [trip?, hasked, Option.bind_some, hlink, hfind, learn_known hlink hfind,
            Option.isSome_some, if_true]
      | none =>
          simp [trip?, hasked, hlink, hfind, learn_new hlink hfind, outcome]

/-- What meeting a demand does to the table and writes. -/
theorem meet_eq (t : Table) (demand : Demand) (w : Watch) :
    (s.meet t demand w).value =
        (match s.trip? t demand w with
          | none => t
          | some trip => Assoc.insert trip.directive.number (s.outcome trip).value t) ∧
      (s.meet t demand w).ledger =
        s.written
          ⟨s.trip? t demand w, demand.ownProblems (s.seen (s.meet t demand w).value) s.path⟩ := by
  cases demand with
  | value d =>
      rw [meet_value, learn_trip (.value d) rfl]
      cases s.trip? t (.value d) w with
      | none => exact ⟨rfl, rfl⟩
      | some trip => exact ⟨rfl, (Ledger.append_empty _).symm⟩
  | members d =>
      rw [meet_members, learn_trip (.members d) rfl]
      cases s.trip? t (.members d) w with
      | none => exact ⟨rfl, rfl⟩
      | some trip => exact ⟨rfl, rfl⟩
  | fault f => exact ⟨rfl, (Ledger.empty_append _).symm⟩

theorem ledger_meetAll (t : Table) (demands : List Demand) (w : Watch) :
    (s.meetAll t demands w).ledger = Ledger.concat ((s.meetings t demands w).map s.written) := by
  induction demands generalizing t w with
  | nil => rfl
  | cons demand rest ih =>
      rw [meetAll_cons, meetings, List.map_cons, Ledger.concat, ← ih, ← (meet_eq t demand w).2]

/-! ## The trips of a row of demands -/

/-- The trips of some demands. -/
def trips (s : Scope) (t : Table) (demands : List Demand) (w : Watch) : List Trip :=
  Meeting.trips (s.meetings t demands w)

theorem trips_cons (t : Table) (demand : Demand) (rest : List Demand) (w : Watch) :
    s.trips t (demand :: rest) w =
      (s.trip? t demand w).toList ++
        s.trips (s.meet t demand w).value rest (s.meet t demand w).watch := by
  simp only [trips, Meeting.trips, meetings, List.filterMap_cons]
  cases s.trip? t demand w <;> rfl

theorem exists_of_mem_trips (h : trip ∈ s.trips t demands w) :
    ∃ demand ∈ demands, ∃ asked, demand.directive? = some asked ∧
      s.linkOf? asked = some (trip.directive, trip.link) := by
  induction demands generalizing t w with
  | nil => cases h
  | cons demand rest ih =>
      rw [trips_cons] at h
      rcases List.mem_append.mp h with h | h
      · obtain ⟨hasked, -⟩ := exists_of_trip? (Option.mem_toList.mp h)
        exact ⟨demand, by simp, hasked⟩
      · obtain ⟨other, hmem, hother⟩ := ih h
        exact ⟨other, List.mem_cons_of_mem _ hmem, hother⟩

/-- A trip brings what the table has for its link from then on. -/
theorem find?_of_mem_trips (h : trip ∈ s.trips t demands w) :
    Assoc.find? trip.directive.number (s.meetAll t demands w).value =
      some (s.outcome trip).value := by
  induction demands generalizing t w with
  | nil => cases h
  | cons demand rest ih =>
      rw [meetAll_cons]
      rw [trips_cons] at h
      rcases List.mem_append.mp h with h | h
      · refine extends_meetAll _ rest _ _ _ ?_
        rw [(meet_eq t demand w).1, Option.mem_toList.mp h]
        simp [Assoc.find?_insert]
      · exact ih h

/-- No trip goes where the table has a value already. -/
theorem find?_eq_none_of_mem_trips (h : trip ∈ s.trips t demands w) :
    Assoc.find? trip.directive.number t = none := by
  induction demands generalizing t w with
  | nil => cases h
  | cons demand rest ih =>
      rw [trips_cons] at h
      rcases List.mem_append.mp h with h | h
      · exact (exists_of_trip? (Option.mem_toList.mp h)).2.1
      · have hlater := ih h
        cases hfind : Assoc.find? trip.directive.number t with
        | none => rfl
        | some a =>
            rw [extends_meet t demand w _ a hfind] at hlater
            cases hlater

theorem follows_of_mem_trips (before : List Demand)
    (h : trip ∈ s.trips (s.meetAll [] before w).value demands (s.meetAll [] before w).watch) :
    s.Follows (before ++ demands) w trip.directive trip.link trip.watch := by
  induction demands generalizing before with
  | nil => cases h
  | cons demand rest ih =>
      rw [trips_cons] at h
      rcases List.mem_append.mp h with h | h
      · obtain ⟨⟨asked, hasked, hlink⟩, hnew, hwatch⟩ := exists_of_trip? (Option.mem_toList.mp h)
        exact ⟨before, demand, rest, asked, rfl, hasked, hlink, hnew, hwatch⟩
      · have hlater := ih (before ++ [demand])
          (by simpa only [meetAll_append, meetAll_cons, meetAll_nil] using h)
        rwa [List.append_assoc, List.singleton_append] at hlater

theorem nodup_trips (t : Table) (demands : List Demand) (w : Watch) :
    ((s.trips t demands w).map fun trip => trip.directive.number).Nodup := by
  induction demands generalizing t w with
  | nil => exact List.nodup_nil
  | cons demand rest ih =>
      rw [trips_cons]
      cases htrip : s.trip? t demand w with
      | none => exact ih _ _
      | some trip =>
          refine List.nodup_cons.mpr ⟨fun hmem => ?_, ih _ _⟩
          obtain ⟨later, hlater, hnumber⟩ := List.mem_map.mp hmem
          have hnone := find?_eq_none_of_mem_trips hlater
          rw [hnumber, (meet_eq t demand w).1, htrip] at hnone
          simp [Assoc.find?_insert] at hnone

/-- What the table has was there before or was brought by a trip. -/
theorem exists_trip {n : Nat} {a : Assembled}
    (h : Assoc.find? n (s.meetAll t demands w).value = some a) :
    Assoc.find? n t = some a ∨ ∃ trip ∈ s.trips t demands w, trip.directive.number = n := by
  induction demands generalizing t w with
  | nil => exact Or.inl h
  | cons demand rest ih =>
      rw [meetAll_cons] at h
      rw [trips_cons]
      rcases ih h with hfind | ⟨trip, hmem, hnumber⟩
      · rw [(meet_eq t demand w).1] at hfind
        cases htrip : s.trip? t demand w with
        | none =>
            rw [htrip] at hfind
            exact Or.inl hfind
        | some trip =>
            rw [htrip] at hfind
            rcases eq_or_ne n trip.directive.number with rfl | hne
            · exact Or.inr ⟨trip, by simp, rfl⟩
            · rw [Assoc.find?_insert, if_neg hne.symm] at hfind
              exact Or.inl hfind
      · exact Or.inr ⟨trip, List.mem_append_right _ hmem, hnumber⟩

/-- The problems of a template itself, with what its directives stand for in the end. -/
theorem own_meetings {u : Table} (h : (s.meetAll t demands w).value.Extends u) :
    (s.meetings t demands w).flatMap Meeting.own =
      demands.flatMap (Demand.ownProblems (s.seen u) s.path) := by
  induction demands generalizing t w with
  | nil => rfl
  | cons demand rest ih =>
      have hfirst : (s.meet t demand w).value.Extends u :=
        (extends_meetAll _ rest _).trans h
      have hown : demand.ownProblems (s.seen (s.meet t demand w).value) s.path =
          demand.ownProblems (s.seen u) s.path := by
        cases demand with
        | value d => rfl
        | members d =>
            have hknows : s.Knows (s.meet t (.members d) w).value d := knows_meet rfl t w
            simp only [Demand.ownProblems, hknows.seen_eq hfirst]
        | fault f => rfl
      rw [meetings, List.flatMap_cons, List.flatMap_cons, ih h]
      exact congrArg (· ++ _) hown

end Scope

/-! ## The links of a template -/

namespace Directive

theorem nodup_ofTokens (number : Nat) (tokens : List Token) :
    (Directive.ofTokens number tokens).Nodup := by
  induction tokens generalizing number with
  | nil => exact List.nodup_nil
  | cons t rest ih =>
      rw [ofTokens]
      cases htoken : ofToken? number t with
      | none => exact ih _
      | some d =>
          refine List.nodup_cons.mpr ⟨fun hmem => ?_, ih _⟩
          have hle := le_number hmem
          have hnumber := number_of_ofToken? htoken
          omega

/-- The links among the directives are as many as those among the tokens. -/
theorem length_links (number : Nat) (tokens : List Token) :
    ((Directive.ofTokens number tokens).filter isLink).length =
      tokens.countP fun t => t.kind == .importDirective := by
  induction tokens generalizing number with
  | nil => rfl
  | cons t rest ih =>
      rw [ofTokens, List.filter_append, List.length_append, ih, List.countP_cons, Nat.add_comm]
      congr 1
      obtain ⟨content, raw, range⟩ := t
      cases content <;> rfl

end Directive

namespace Setting

variable (s : Setting)

/-- What comes of a trip's link. -/
def entered (depth : Nat) (trail : List Path) (path : Path) (trip : Trip) : Outcome Followed :=
  s.enter trail path trip.directive trip.link (s.deeper depth) trip.watch

/-- The record of a trip. -/
def recordOf (depth : Nat) (trail : List Path) (path : Path) (trip : Trip) : ImportRecord :=
  record path trip.directive trip.link (s.entered depth trail path trip).value

/-- What is written at a meeting: the record of its trip in front of what the link's file writes,
and the template's own problems. -/
def writtenAt (depth : Nat) (trail : List Path) (path : Path) (meeting : Meeting) : Ledger :=
  (match meeting.trip? with
    | none => .empty
    | some trip =>
        { imports := [s.recordOf depth trail path trip] } ++
          (s.entered depth trail path trip).ledger) ++ { problems := meeting.own }

/-- The meetings of the demands of a text. -/
def meetingsAt (depth : Nat) (trail : List Path) (path : Path) (text : String) (w : Watch) :
    List Meeting :=
  (s.scopeAt depth trail path text).meetings [] (demands (Scan.ofText text).tokens) w

/-- Whether assembling a text follows each of its links once, has at most one problem of its own
that is not about members of an object, and reads one value for each link wherever it is used. -/
structure EachLinkOnce (depth : Nat) (trail : List Path) (path : Path) (text : String)
    (w : Watch) : Prop where
  ledger : (s.assembleText path text (s.follow depth trail path) w).ledger =
    readLedger path text ++ (counts (Scan.ofText text).tokens ++
      Ledger.concat ((s.meetingsAt depth trail path text w).map (s.writtenAt depth trail path)))
  /-- The trips go to the links of the text, to each one once. -/
  trips : ((Meeting.trips (s.meetingsAt depth trail path text w)).map Trip.directive).Perm
    ((Directive.ofTokens 0 (Scan.ofText text).tokens).filter Directive.isLink)
  length : (Meeting.trips (s.meetingsAt depth trail path text w)).length =
    (Scan.ofText text).tokens.countP fun t => t.kind == .importDirective
  syntaxErrors : (((s.meetingsAt depth trail path text w).flatMap Meeting.own).filter
    fun p => !p.isNotSpreadable).length ≤ 1
  /-- The value, the map and the problems are read with one look. -/
  value : (s.assembleText path text (s.follow depth trail path) w).value =
    s.readWith path text (s.lookAt depth trail path text w)
  own : (s.meetingsAt depth trail path text w).flatMap Meeting.own =
    (demands (Scan.ofText text).tokens).flatMap
      (Demand.ownProblems (s.lookAt depth trail path text w) path)
  /-- A directive that takes a link's value stands for the value of the link's record. -/
  seen : ∀ trip ∈ Meeting.trips (s.meetingsAt depth trail path text w), ∀ d,
    (s.scopeAt depth trail path text).linkOf? d = some (trip.directive, trip.link) →
      s.lookAt depth trail path text w d = ((s.recordOf depth trail path trip).value,
        some (s.entered depth trail path trip).value.assembled.map)

variable {s} {depth : Nat} {trail : List Path} {path : Path} {text : String} {w : Watch}

theorem outcome_scopeAt (trip : Trip) :
    (s.scopeAt depth trail path text).outcome trip =
      ⟨(s.entered depth trail path trip).value.assembled,
        { imports := [s.recordOf depth trail path trip] } ++
          (s.entered depth trail path trip).ledger,
        (s.entered depth trail path trip).watch⟩ :=
  s.follow_apply depth trail path trip.directive trip.link trip.watch

theorem written_scopeAt (meeting : Meeting) :
    (s.scopeAt depth trail path text).written meeting = s.writtenAt depth trail path meeting := by
  rw [Scope.written, writtenAt]
  cases meeting.trip? with
  | none => rfl
  | some trip => simp only [outcome_scopeAt]

/-- The fault at which a draft ends is the one problem of a template that is not about members of
an object. -/
theorem filter_ownProblems (look : Look) (path : Path) (tokens : List Token) :
    ((demands tokens).flatMap (Demand.ownProblems look path)).filter
        (fun p => !p.isNotSpreadable) =
      (Draft.ofTokens tokens).fault.toList.map fun f =>
        .ofLocation (.fault f.fault) path f.place := by
  have hdirectives {some : List Demand} (h : ∀ demand ∈ some, demand.directive?.isSome) :
      (some.flatMap (Demand.ownProblems look path)).filter (fun p => !p.isNotSpreadable) = [] := by
    rw [List.filter_eq_nil_iff]
    intro p hp
    obtain ⟨demand, hmem, hp⟩ := List.mem_flatMap.mp hp
    cases demand with
    | value d => cases hp
    | members d =>
        simp only [Demand.ownProblems] at hp
        split at hp
        · cases hp
        · rw [List.mem_singleton.mp hp]
          exact Bool.false_ne_true
    | fault f => cases h _ hmem
  have hvalues (directives : List Directive) :
      ∀ demand ∈ directives.map Demand.value, demand.directive?.isSome := by
    intro demand hmem
    obtain ⟨d, -, rfl⟩ := List.mem_map.mp hmem
    rfl
  have hbody : ∀ demand ∈ (Draft.ofTokens tokens).bodyDemands, demand.directive?.isSome := by
    intro demand hmem
    rw [Draft.bodyDemands] at hmem
    split at hmem
    · cases hmem
    · exact Node.isSome_of_mem_demands _ hmem
  rw [demands, Draft.demands]
  simp only [List.flatMap_append, List.filter_append, hdirectives (hvalues _), hdirectives hbody,
    List.nil_append, List.append_nil]
  cases (Draft.ofTokens tokens).fault <;> rfl

/-- The trips of a text go to its links. -/
theorem meaning_of_mem_trips {trip : Trip}
    (h : trip ∈ (s.scopeAt depth trail path text).trips [] (demands (Scan.ofText text).tokens) w) :
    trip.directive ∈ Directive.ofTokens 0 (Scan.ofText text).tokens ∧
      trip.directive.meaning = .link trip.link := by
  obtain ⟨demand, hmem, asked, hasked, hlink⟩ := Scope.exists_of_mem_trips h
  exact s.mem_of_linkOf? (within_demands hmem hasked) hlink

theorem follows_of_mem_trips {trip : Trip} (hscan : (Scan.ofText text).error = none)
    (h : trip ∈ Meeting.trips (s.meetingsAt depth trail path text w)) :
    s.Follows depth trail path text w trip.directive trip.link trip.watch :=
  ⟨hscan, Scope.follows_of_mem_trips [] h⟩

theorem perm_trips (s : Setting) (depth : Nat) (trail : List Path) (path : Path) (text : String)
    (w : Watch) :
    (((s.scopeAt depth trail path text).trips [] (demands (Scan.ofText text).tokens) w).map
      Trip.directive).Perm
        ((Directive.ofTokens 0 (Scan.ofText text).tokens).filter Directive.isLink) := by
  have hnumbers := (s.scopeAt depth trail path text).nodup_trips []
    (demands (Scan.ofText text).tokens) w
  rw [← Function.comp_def, ← List.map_map] at hnumbers
  refine (List.perm_ext_iff_of_nodup hnumbers.of_map
    ((Directive.nodup_ofTokens _ _).filter _)).mpr fun d => ⟨fun hd => ?_, fun hd => ?_⟩
  · obtain ⟨trip, hmem, rfl⟩ := List.mem_map.mp hd
    obtain ⟨hdirective, hlink⟩ := meaning_of_mem_trips hmem
    exact List.mem_filter.mpr ⟨hdirective, by rw [Directive.isLink, hlink]⟩
  · -- The final table has a value for every link, and a trip has brought it.
    obtain ⟨hdirective, hlink⟩ := List.mem_filter.mp hd
    obtain ⟨link, hmeaning⟩ : ∃ link, d.meaning = .link link := by
      rw [Directive.isLink] at hlink
      split at hlink
      · cases hlink
      · next link hmeaning => exact ⟨link, hmeaning⟩
    have hknows := Scope.knows_meetAll (s := s.scopeAt depth trail path text)
      (value_mem_demands hdirective hlink) rfl [] w
    have hlinkOf : (s.scopeAt depth trail path text).linkOf? d = some (d, link) :=
      s.linkOf?_of_meaning hmeaning
    rw [Scope.Knows, hlinkOf] at hknows
    obtain ⟨a, ha⟩ := Option.isSome_iff_exists.mp hknows
    rcases Scope.exists_trip ha with hempty | ⟨trip, hmem, hnumber⟩
    · cases hempty
    · exact List.mem_map.mpr
        ⟨trip, hmem, Directive.eq_of_number_eq (meaning_of_mem_trips hmem).1 hdirective hnumber⟩

theorem eachLinkOnce (s : Setting) (depth : Nat) (trail : List Path) (path : Path) {text : String}
    (hscan : (Scan.ofText text).error = none) (w : Watch) :
    s.EachLinkOnce depth trail path text w := by
  have hperm := s.perm_trips depth trail path text w
  have hassembled : s.assembleText path text (s.follow depth trail path) w = _ :=
    assembleText_ok s hscan (s.follow depth trail path) w
  have hown : (s.meetingsAt depth trail path text w).flatMap Meeting.own =
      (demands (Scan.ofText text).tokens).flatMap
        (Demand.ownProblems (s.lookAt depth trail path text w) path) :=
    Scope.own_meetings (.refl _)
  constructor
  case ledger =>
    have hwritten : (s.scopeAt depth trail path text).written = s.writtenAt depth trail path :=
      funext written_scopeAt
    rw [hassembled, meetingsAt, ← hwritten, ← Scope.ledger_meetAll]
    rfl
  case trips => exact hperm
  case length =>
    rw [← Directive.length_links 0, ← hperm.length_eq, List.length_map]
    rfl
  case syntaxErrors =>
    rw [hown, filter_ownProblems, List.length_map]
    cases (Draft.ofTokens (Scan.ofText text).tokens).fault <;> simp
  case value => exact value_assembleText hscan depth trail path w
  case own => exact hown
  case seen =>
    intro trip hmem d hlink
    have hfind := Scope.find?_of_mem_trips hmem
    rw [lookAt, Scope.seen, hlink]
    dsimp only
    rw [hfind, outcome_scopeAt]
    rfl

/-! ## The totals of an extraction -/

/-- The tokens that assembling a text takes up: none of a text that cannot be scanned. -/
def takenUp (text : String) : List Token :=
  match (Scan.ofText text).error with
  | some _ => []
  | none => (Scan.ofText text).tokens

end Setting

/-- How many tokens of a kind some files have. -/
def TokenKind.total (kind : TokenKind) (files : List (Path × String)) : Nat :=
  (files.map fun f => (Setting.takenUp f.2).countP fun t => t.kind == kind).sum

theorem TokenKind.total_append (kind : TokenKind) (files more : List (Path × String)) :
    kind.total (files ++ more) = kind.total files + kind.total more := by
  rw [total, List.map_append, List.sum_append]
  rfl

/-- Whether a ledger has a number of imports and what it has of some texts are their totals. -/
structure Ledger.Totals (links : Nat) (files : List (Path × String)) (l : Ledger) : Prop where
  imports : l.imports.length = links
  placeholders : l.variableCount = TokenKind.variable.total files
  controls : l.controlCount = TokenKind.controlBlock.total files
  bytes : l.byteCount = (files.map fun f => f.2.utf8ByteSize).sum
  texts : l.dependencies.filter (fun d => d.digest.isSome) =
    files.map fun f => Dependency.ofText f.1 f.2

namespace Ledger

theorem Totals.append {links more : Nat} {files others : List (Path × String)} {a b : Ledger}
    (ha : a.Totals links files) (hb : b.Totals more others) :
    (a ++ b).Totals (links + more) (files ++ others) where
  imports := (List.length_append ..).trans (by rw [ha.imports, hb.imports])
  placeholders := by
    rw [TokenKind.total_append, ← ha.placeholders, ← hb.placeholders]
    rfl
  controls := by
    rw [TokenKind.total_append, ← ha.controls, ← hb.controls]
    rfl
  bytes := by
    rw [List.map_append, List.sum_append, ← ha.bytes, ← hb.bytes]
    rfl
  texts := by
    rw [List.map_append, ← ha.texts, ← hb.texts, ← List.filter_append]
    rfl

theorem totals_absent {dependencies : List Dependency} (h : ∀ x ∈ dependencies, x.digest = none)
    (problems : List Problem) :
    ({ dependencies := dependencies, problems := problems } : Ledger).Totals 0 [] where
  imports := rfl
  placeholders := rfl
  controls := rfl
  bytes := rfl
  texts := List.filter_eq_nil_iff.mpr fun x hx => by rw [h x hx]; exact Bool.false_ne_true

theorem totals_problems (problems : List Problem) :
    ({ problems := problems } : Ledger).Totals 0 [] := ⟨rfl, rfl, rfl, rfl, rfl⟩

end Ledger

namespace Setting

/-- Whether each of some files is assembled in an extraction. -/
def AssemblesAll (s : Setting) (root : Path) (text? : Option String)
    (files : List (Path × String)) : Prop :=
  ∀ f ∈ files, ∃ depth trail w, s.Assembles root text? depth trail f.1 f.2 w

variable {s : Setting} {root : Path} {text? : Option String} {depth : Nat} {trail : List Path}
  {path : Path} {text : String} {w : Watch}

theorem AssemblesAll.append {files more : List (Path × String)}
    (h : s.AssemblesAll root text? files) (hmore : s.AssemblesAll root text? more) :
    s.AssemblesAll root text? (files ++ more) :=
  fun f hf => (List.mem_append.mp hf).elim (h f) (hmore f)

/-- Whether a ledger has the totals of files that are assembled, and a number of imports beside
those of the files. -/
def Accounted (s : Setting) (root : Path) (text? : Option String) (links : Nat) (l : Ledger) :
    Prop :=
  ∃ files, s.AssemblesAll root text? files ∧
    l.Totals (links + TokenKind.importDirective.total files) files

theorem Accounted.append {links more : Nat} {a b : Ledger}
    (ha : s.Accounted root text? links a) (hb : s.Accounted root text? more b) :
    s.Accounted root text? (links + more) (a ++ b) := by
  obtain ⟨files, hfiles, htotals⟩ := ha
  obtain ⟨others, hothers, hmore⟩ := hb
  refine ⟨files ++ others, hfiles.append hothers, ?_⟩
  have hboth := htotals.append hmore
  rw [TokenKind.total_append]
  convert hboth using 1
  omega

theorem accounted_of_totals {l : Ledger} {links : Nat} (h : l.Totals links []) :
    s.Accounted root text? links l :=
  ⟨[], fun _ hf => absurd hf List.not_mem_nil, h⟩

/-- What is written at some meetings has one import for each trip beside those of the files that
are assembled. -/
theorem accounted_meetings (meetings : List Meeting)
    (htrips : ∀ trip ∈ Meeting.trips meetings,
      s.Accounted root text? 0 (s.entered depth trail path trip).ledger) :
    s.Accounted root text? (Meeting.trips meetings).length
      (Ledger.concat (meetings.map (s.writtenAt depth trail path))) := by
  induction meetings with
  | nil => exact accounted_of_totals (Ledger.totals_problems [])
  | cons meeting rest ih =>
      have hown : s.Accounted root text? 0 { problems := meeting.own } :=
        accounted_of_totals (Ledger.totals_problems _)
      rw [List.map_cons, Ledger.concat, writtenAt]
      cases htrip : meeting.trip? with
      | none =>
          have heq : Meeting.trips (meeting :: rest) = Meeting.trips rest := by
            rw [Meeting.trips, List.filterMap_cons, htrip]
            rfl
          rw [heq] at htrips ⊢
          rw [← Nat.zero_add (Meeting.trips rest).length]
          exact hown.append (ih htrips)
      | some trip =>
          have heq : Meeting.trips (meeting :: rest) = trip :: Meeting.trips rest := by
            rw [Meeting.trips, List.filterMap_cons, htrip]
            rfl
          rw [heq] at htrips ⊢
          have hrecord : s.Accounted root text? 1
              { imports := [s.recordOf depth trail path trip] } :=
            accounted_of_totals ⟨rfl, rfl, rfl, rfl, rfl⟩
          have hentered := htrips trip (List.mem_cons_self ..)
          rw [List.length_cons, Nat.add_comm]
          exact ((hrecord.append hentered).append hown).append
            (ih fun other hother => htrips other (List.mem_cons_of_mem _ hother))

/-- A text that is taken up has one file's totals, and no import of its own yet. -/
theorem totals_readLedger_counts (path : Path) {text : String}
    (hscan : (Scan.ofText text).error = none) :
    (readLedger path text ++ counts (Scan.ofText text).tokens).Totals 0 [(path, text)] := by
  have htaken : takenUp text = (Scan.ofText text).tokens := by rw [takenUp, hscan]
  constructor
  case imports => rfl
  case placeholders =>
    change 0 + List.countP _ _ = List.countP _ (takenUp text) + 0
    rw [htaken, Nat.zero_add, Nat.add_zero]
  case controls =>
    change 0 + List.countP _ _ = List.countP _ (takenUp text) + 0
    rw [htaken, Nat.zero_add, Nat.add_zero]
  case bytes => rfl
  case texts => rfl

theorem totals_readLedger_error (path : Path) {text : String} {error : ScanError}
    (hscan : (Scan.ofText text).error = some error) (problems : List Problem) :
    (readLedger path text ++ { problems := problems }).Totals
      (TokenKind.importDirective.total [(path, text)]) [(path, text)] := by
  have htaken (kind : TokenKind) : kind.total [(path, text)] = 0 := by
    simp only [TokenKind.total, List.map_cons, List.map_nil, takenUp, hscan, List.countP_nil,
      List.sum_cons, List.sum_nil, Nat.add_zero]
  constructor
  case imports => rw [htaken]; rfl
  case placeholders => rw [htaken]; rfl
  case controls => rw [htaken]; rfl
  case bytes => rfl
  case texts => rfl

/-- The ledger of a text that is assembled has the totals of the files that are assembled for
it. -/
theorem accounted_of_assembles (h : s.Assembles root text? depth trail path text w) :
    s.Accounted root text? 0 (s.assembleText path text (s.follow depth trail path) w).ledger := by
  induction depth using Nat.strongRecOn generalizing trail path text w with
  | ind depth ih =>
  have hself : s.AssemblesAll root text? [(path, text)] := by
    intro f hf
    cases List.mem_singleton.mp hf
    exact ⟨depth, trail, w, h⟩
  cases hscan : (Scan.ofText text).error with
  | some error =>
      rw [assembleText_error s hscan]
      refine ⟨_, hself, ?_⟩
      rw [Nat.zero_add]
      exact totals_readLedger_error path hscan _
  | none =>
      have honce := s.eachLinkOnce depth trail path hscan w
      have hmeetings : s.Accounted root text?
          (Meeting.trips (s.meetingsAt depth trail path text w)).length
          (Ledger.concat ((s.meetingsAt depth trail path text w).map
            (s.writtenAt depth trail path))) := by
        refine accounted_meetings _ fun trip htrip => ?_
        have hleads := h.leads (follows_of_mem_trips hscan htrip)
        rw [entered]
        generalize s.enter trail path trip.directive trip.link (s.deeper depth) trip.watch = out
          at hleads ⊢
        cases hleads with
        | nowhere dependencies problems hdependencies =>
            exact accounted_of_totals (Ledger.totals_absent hdependencies problems)
        | file hn h' => exact ih _ hn h'
      obtain ⟨files, hfiles, htotals⟩ := hmeetings
      rw [honce.ledger, ← Ledger.append_assoc]
      refine ⟨[(path, text)] ++ files, hself.append hfiles, ?_⟩
      have hboth := (totals_readLedger_counts path hscan).append htotals
      have hlinks : TokenKind.importDirective.total [(path, text)] =
          (Meeting.trips (s.meetingsAt depth trail path text w)).length := by
        rw [honce.length, TokenKind.total, List.map_singleton, List.sum_singleton, takenUp, hscan]
      rwa [TokenKind.total_append, hlinks]

/-- The ledger of an extraction has the totals of the files that are assembled in it. -/
theorem accounted_run (s : Setting) (root : Path) (text? : Option String) :
    s.Accounted root text? 0 (Extraction.run s root text?).ledger := by
  rcases s.opens_or_fails root text? with ⟨path, text, w, hopens⟩ | ⟨path, cause, w, hfails⟩
  · rw [hopens.run_eq]
    exact accounted_of_assembles (.root hopens)
  · rw [Extraction.run, hfails]
    exact accounted_of_totals ⟨rfl, rfl, rfl, rfl, rfl⟩

end Setting

/-- Each link is followed once wherever its text is assembled, and the counts of an extraction are
those of the tokens of all texts that are assembled in it. -/
theorem Extraction.links_followed_once (s : Setting) (root : Path) (text? : Option String) :
    (∀ depth trail path text w, (Scan.ofText text).error = none →
      s.EachLinkOnce depth trail path text w) ∧
    (∀ depth trail path text w error, (Scan.ofText text).error = some error →
      (s.assembleText path text (s.follow depth trail path) w).ledger =
        Setting.readLedger path text ++
          { problems := [.ofLocation (.unclosed error) path error.range.first] }) ∧
    ∃ files, s.AssemblesAll root text? files ∧
      (Extraction.run s root text?).ledger.Totals (TokenKind.importDirective.total files) files ∧
      (Extraction.run s root text?).counts =
        [("importCount", .ofNat (TokenKind.importDirective.total files)),
          ("variableCount", .ofNat (TokenKind.variable.total files)),
          ("controlCount", .ofNat (TokenKind.controlBlock.total files)),
          ("totalSizeBytes", .ofNat (files.map fun f => f.2.utf8ByteSize).sum)] := by
  refine ⟨fun depth trail path text w hscan => s.eachLinkOnce depth trail path hscan w,
    fun depth trail path text w error hscan => ?_, ?_⟩
  · rw [Setting.assembleText_error s hscan]
  · obtain ⟨files, hfiles, htotals⟩ := s.accounted_run root text?
    rw [Nat.zero_add] at htotals
    refine ⟨files, hfiles, htotals, ?_⟩
    rw [Extraction.counts, htotals.imports, htotals.placeholders, htotals.controls, htotals.bytes]

namespace Shelf

/-- A text whose link is used in front of it and in a string behind it, and that breaks off. -/
def reusedText : String :=
  "[\x7b\x7b x \x7d\x7d,\n// [X](x)\n, \"a \x7b\x7b x \x7d\x7d\", 1 \x7d \x7b% end %\x7d"

def reused : Shelf :=
  ⟨[(⟨"/p/root.tmpl"⟩, reusedText), (⟨"/p/x.tmpl"⟩, "[\x7b\x7b y \x7d\x7d]")]⟩

end Shelf

/-- The link's file is assembled once for three uses, in spite of the fault at the end. -/
theorem Extraction.links_followed_once_reused :
    let s := Shelf.reused.setting (.standard ⟨"/p"⟩)
    let e := Extraction.run s ⟨"root.tmpl"⟩ none
    (Scan.ofText Shelf.reusedText).error = none ∧
      s.EachLinkOnce 10 [⟨"/p/root.tmpl"⟩] ⟨"/p/root.tmpl"⟩ Shelf.reusedText
        (Run.initialWatch .never) ∧
      String.ofList e.value.compactText = "[[\"\"],[\"\"],\"a [\\\"\\\"]\",1]" ∧
      e.problems.length = 1 ∧
      ∃ files, s.AssemblesAll ⟨"root.tmpl"⟩ none files ∧
        TokenKind.importDirective.total files = 1 ∧ TokenKind.variable.total files = 3 ∧
        TokenKind.controlBlock.total files = 1 := by
  intro s e
  have hscan : (Scan.ofText Shelf.reusedText).error = none := by decide +kernel
  obtain ⟨honce, -, files, hfiles, htotals, -⟩ :=
    Extraction.links_followed_once s ⟨"root.tmpl"⟩ none
  refine ⟨hscan, honce _ _ _ _ _ hscan, by decide +kernel, by decide +kernel, files, hfiles, ?_⟩
  rw [← htotals.imports, ← htotals.placeholders, ← htotals.controls]
  decide +kernel

end Stencil
