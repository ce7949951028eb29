import Stencil.Json.Reader
import Stencil.Proofs.PrintedValues

/-!
# Compact texts are read back

The reader of plain JSON gives back the value whose compact text it reads, if the value nests no
deeper than it may, its numbers are integers of 64 bits and the names in each of its objects are
different. A compact text has no blanks, so the reader never skips any; it goes on behind the text,
and what follows must not go on with a number (`Ends`).

What the reader hands back holds the proof that it has become shorter. The laws of its three
functions are stated without it (`left`), each for one way in which the function can go on. The
induction is over the value, with the items and the members that were read before in front.
-/

namespace Stencil.Json

/-! ## Values that are read back -/

mutual

/-- Whether a value nests at most so many containers, has integers of 64 bits for numbers, and has
no name twice in an object. -/
def Plain : (nesting : Nat) → Json → Prop
  | _, .null | _, .bool _ | _, .string _ => True
  | _, .number n => n.Fits
  | 0, .array _ | 0, .object _ => False
  | nesting + 1, .array items => PlainItems nesting items
  | nesting + 1, .object members => (Assoc.keys members).Nodup ∧ PlainMembers nesting members

def PlainItems (nesting : Nat) : List Json → Prop
  | [] => True
  | item :: rest => item.Plain nesting ∧ PlainItems nesting rest

def PlainMembers (nesting : Nat) : List (String × Json) → Prop
  | [] => True
  | (_, value) :: rest => value.Plain nesting ∧ PlainMembers nesting rest

end

theorem plainItems_iff {nesting : Nat} {items : List Json} :
    PlainItems nesting items ↔ ∀ item ∈ items, item.Plain nesting := by
  induction items with
  | nil => simp [PlainItems]
  | cons item rest ih => simp [PlainItems, ih]

theorem announced_of_isBlank {c : Char} (h : Reader.isBlank c = true) : announced c = c := by
  simp only [Reader.isBlank, Bool.or_eq_true, beq_iff_eq] at h
  rcases h with ((rfl | rfl) | rfl) | rfl <;> rfl

theorem isBlank_lead (v : Json) : Reader.isBlank v.lead = false := by
  cases v <;> rfl

/-- A value's text begins with no blank and no closing bracket. -/
theorem exists_head_of_plain {nesting : Nat} {v : Json} (h : v.Plain nesting) :
    ∃ c tail, v.compactText = c :: tail ∧ Reader.isBlank c = false ∧ c ≠ ']' := by
  obtain ⟨c, tail, htext, hlead⟩ : ∃ c tail, v.compactText = c :: tail ∧ announced c = v.lead := by
    cases v with
    | number n => exact exists_head (v := .number n) (Number.Fits.canonical h)
    | bool b => cases b <;> exact ⟨_, _, rfl, rfl⟩
    | _ => exact ⟨_, _, rfl, rfl⟩
  refine ⟨c, tail, htext, ?_, ?_⟩
  · rw [← Bool.not_eq_true]
    intro hblank
    rw [announced_of_isBlank hblank] at hlead
    rw [hlead, isBlank_lead] at hblank
    cases hblank
  · rintro rfl
    cases v <;> cases hlead

/-! ## How the reader goes on -/

namespace Reader

/-- What a reader gives, and what it leaves. -/
def left {α : Type} {text : List Char} (result : Option (α × Rest text)) :
    Option (α × List Char) :=
  result.map fun result => (result.1, result.2.1)

variable {nesting : Nat} {text cs rest : List Char} {c : Char}

theorem skipBlanks_cons (h : isBlank c = false) (cs : List Char) :
    skipBlanks (c :: cs) = c :: cs := by
  rw [skipBlanks, List.dropWhile_cons_of_neg (by rw [h]; exact Bool.false_ne_true)]

theorem value_of_quote {s : List Char} (h : skipBlanks text = '"' :: cs)
    (hs : stringTail [] cs = some (s, rest)) :
    left (value nesting text) = some (.string (String.ofList s), rest) := by
  rw [value]
  split
  case h_1 cs' h' =>
    cases h.symm.trans h'
    split
    · next hnone => cases hs.symm.trans hnone
    · next hsome =>
        cases hs.symm.trans hsome
        rfl
  all_goals grind

theorem value_of_empty_array (h : skipBlanks text = '[' :: cs)
    (hclose : skipBlanks cs = ']' :: rest) :
    left (value (nesting + 1) text) = some (.array [], rest) := by
  rw [value]
  dsimp only
  split
  case h_2 cs' h' =>
    cases h.symm.trans h'
    split
    · next hclose' =>
        cases hclose.symm.trans hclose'
        rfl
    · next hopen => exact absurd hclose (hopen rest)
  all_goals grind

theorem value_of_items {list : List Json} (h : skipBlanks text = '[' :: cs)
    (hopen : ∀ rest, skipBlanks cs ≠ ']' :: rest)
    (hitems : left (items nesting [] cs) = some (list, rest)) :
    left (value (nesting + 1) text) = some (.array list, rest) := by
  obtain ⟨result, hresult, heq⟩ := Option.map_eq_some_iff.mp hitems
  cases heq
  rw [value]
  dsimp only
  split
  case h_2 cs' h' =>
    cases h.symm.trans h'
    split
    · next hclose => exact absurd hclose (hopen _)
    · rw [hresult]
      rfl
  all_goals grind

theorem value_of_empty_object (h : skipBlanks text = '\x7b' :: cs)
    (hclose : skipBlanks cs = '\x7d' :: rest) :
    left (value (nesting + 1) text) = some (.object [], rest) := by
  rw [value]
  dsimp only
  split
  case h_3 cs' h' =>
    cases h.symm.trans h'
    split
    · next hclose' =>
        cases hclose.symm.trans hclose'
        rfl
    · next hopen => exact absurd hclose (hopen rest)
  all_goals grind

theorem value_of_members {list : List (String × Json)} (h : skipBlanks text = '\x7b' :: cs)
    (hopen : ∀ rest, skipBlanks cs ≠ '\x7d' :: rest)
    (hmembers : left (members nesting [] cs) = some (list, rest)) :
    left (value (nesting + 1) text) = some (.object list, rest) := by
  obtain ⟨result, hresult, heq⟩ := Option.map_eq_some_iff.mp hmembers
  cases heq
  rw [value]
  dsimp only
  split
  case h_3 cs' h' =>
    cases h.symm.trans h'
    split
    · next hclose => exact absurd hclose (hopen _)
    · rw [hresult]
      rfl
  all_goals grind

theorem value_of_atom {v : Json} (h : skipBlanks text = c :: cs)
    (hc : c ≠ '"' ∧ c ≠ '[' ∧ c ≠ '\x7b') (hatom : left (atom (c :: cs)) = some (v, rest)) :
    left (value nesting text) = some (v, rest) := by
  rw [← h] at hatom
  obtain ⟨result, hresult, heq⟩ := Option.map_eq_some_iff.mp hatom
  cases heq
  rw [value]
  split
  case h_4 =>
    rw [hresult]
    rfl
  all_goals grind

theorem atom_of_number {n : Number} (h : n.Fits) (hrest : Ends rest) :
    left (atom (n.text ++ rest)) = some (.number n, rest) := by
  obtain ⟨⟨c, cs, htext, hc⟩, hchars⟩ := number_text h.canonical
  obtain ⟨htake, hdrop⟩ := Lexeme.takeWhile_append_of_delimited hchars hrest
  have hnumber := Number.ofText?_text h
  have hfirst : isNumberChar c = true := hchars c (by rw [htext]; exact List.mem_cons_self)
  rw [htext] at htake hdrop hnumber ⊢
  rw [List.cons_append, List.takeWhile_cons_of_pos hfirst, List.cons.injEq] at htake
  rw [List.cons_append, List.dropWhile_cons_of_pos hfirst] at hdrop
  have hnumberStart : (c.isDigit || c == '-') = true := by
    rw [Bool.or_comm]
    exact hc
  rw [List.cons_append, atom]
  · rw [if_pos hnumberStart, htake.2, hnumber]
    simp only [left, hdrop, Option.map_some]
  -- The first character of a number is none of those of the three words.
  all_goals
    rintro _ rfl -
    cases hc

/-- Behind an item stands a comma, and the items go on, or the closing bracket. -/
theorem items_of_value {done : List Json} {v : Json}
    (hv : left (value nesting text) = some (v, rest)) :
    left (items nesting done text) =
      match skipBlanks rest with
      | ',' :: behind => left (items nesting (v :: done) behind)
      | ']' :: behind => some ((v :: done).reverse, behind)
      | _ => none := by
  obtain ⟨⟨_, rest, hshorter⟩, hresult, heq⟩ := Option.map_eq_some_iff.mp hv
  cases heq
  rw [items, hresult]
  dsimp only [bind, Option.bind]
  split
  · next behind hcomma =>
      simp only [hcomma]
      cases items nesting _ behind <;> rfl
  · next behind hclose =>
      simp only [hclose]
      rfl
  · next hcomma hclose =>
      split
      · next behind h => exact absurd h (hcomma behind)
      · next behind h => exact absurd h (hclose behind)
      · rfl

/-- A text that goes on with a name, a colon and a value. -/
inductive TakesMember (nesting : Nat) (text : List Char) : String → Json → List Char → Prop
  | mk {cs name after colon rest : List Char} {v : Json}
      (hquote : skipBlanks text = '"' :: cs) (hname : stringTail [] cs = some (name, after))
      (hcolon : skipBlanks after = ':' :: colon)
      (hv : left (value nesting colon) = some (v, rest)) :
      TakesMember nesting text (String.ofList name) v rest

/-- Behind a member stands a comma, and the members go on, or the closing brace. -/
theorem members_of_takesMember {done : List (String × Json)} {name : String} {v : Json}
    (h : TakesMember nesting text name v rest) :
    left (members nesting done text) =
      match skipBlanks rest with
      | ',' :: behind => left (members nesting (Assoc.insert name v done) behind)
      | '\x7d' :: behind => some (Assoc.insert name v done, behind)
      | _ => none := by
  obtain ⟨hquote, hname, hcolon, hv⟩ := h
  obtain ⟨⟨_, rest, hshorter⟩, hresult, heq⟩ := Option.map_eq_some_iff.mp hv
  cases heq
  rw [members]
  dsimp only [bind, Option.bind]
  split
  case h_2 hnone => exact absurd hquote (hnone _)
  case h_1 hquote' =>
    cases hquote.symm.trans hquote'
    split
    · next hnone => cases hname.symm.trans hnone
    · next hname' =>
        cases hname.symm.trans hname'
        split
        case h_2 hnone => exact absurd hcolon (hnone _)
        case h_1 hcolon' =>
          cases hcolon.symm.trans hcolon'
          rw [hresult]
          dsimp only
          split
          · next behind hcomma =>
              simp only [hcomma]
              cases members nesting _ behind <;> rfl
          · next behind hclose =>
              simp only [hclose]
              rfl
          · next hcomma hclose =>
              split
              · next behind h => exact absurd h (hcomma behind)
              · next behind h => exact absurd h (hclose behind)
              · rfl

end Reader

/-! ## Reading compact texts -/

section Reading

open Reader

/-- Whether a value is read from its text, whatever follows that is no more of a number. -/
def Reads (nesting : Nat) (v : Json) : Prop :=
  ∀ rest, Ends rest → left (Reader.value nesting (v.compactText ++ rest)) = some (v, rest)

variable {nesting : Nat}

theorem skipBlanks_compactText {v : Json} (h : v.Plain nesting) (rest : List Char) :
    skipBlanks (v.compactText ++ rest) = v.compactText ++ rest := by
  obtain ⟨c, tail, htext, hblank, -⟩ := exists_head_of_plain h
  rw [htext, List.cons_append, skipBlanks_cons hblank]

theorem reads_atom {v : Json} {c : Char} {cs : List Char} (htext : v.compactText = c :: cs)
    (hc : isBlank c = false ∧ c ≠ '"' ∧ c ≠ '[' ∧ c ≠ '\x7b')
    (hatom : ∀ rest, Ends rest → left (atom (v.compactText ++ rest)) = some (v, rest)) :
    v.Reads nesting := by
  intro rest hrest
  have hv := hatom rest hrest
  rw [htext, List.cons_append] at hv ⊢
  exact value_of_atom (skipBlanks_cons hc.1 _) hc.2 hv

theorem reads_number {n : Number} (h : n.Fits) : (number n).Reads nesting := by
  obtain ⟨⟨c, cs, htext, hc⟩, -⟩ := number_text h.canonical
  refine reads_atom htext ⟨?_, ?_, ?_, ?_⟩ fun rest hrest => atom_of_number h hrest
  · rw [← Bool.not_eq_true]
    intro hblank
    have hannounced := announced_of_isBlank hblank
    rw [announced, if_pos hc] at hannounced
    subst hannounced
    cases hblank
  all_goals
    rintro rfl
    cases hc

theorem reads_string (text : String) : (string text).Reads nesting := by
  intro rest _
  have hread := stringTail_flatMap text.toList [] rest
  rw [compactText, quote, List.cons_append, List.cons_append, List.append_assoc,
    List.singleton_append, value_of_quote (skipBlanks_cons rfl _) hread, List.reverse_nil,
    List.nil_append, String.ofList_toList]

/-- A member's text, given that its value is read. -/
theorem takesMember {v : Json} (hv : v.Reads nesting) (name : String) {rest : List Char}
    (hrest : Ends rest) :
    TakesMember nesting (quote name.toList ++ ':' :: v.compactText ++ rest) name v rest := by
  have hread := stringTail_flatMap name.toList [] (':' :: v.compactText ++ rest)
  rw [List.reverse_nil, List.nil_append] at hread
  have htakes : TakesMember nesting (quote name.toList ++ ':' :: v.compactText ++ rest)
      (String.ofList name.toList) v rest :=
    .mk (by simpa [quote] using skipBlanks_cons rfl _) hread (skipBlanks_cons rfl _) (hv rest hrest)
  rwa [String.ofList_toList] at htakes

/-- An array with items does not close at once. -/
theorem skipBlanks_compactItems_ne {item : Json} (h : item.Plain nesting) (items : List Json)
    (rest behind : List Char) :
    skipBlanks (compactItems (item :: items) ++ ']' :: rest) ≠ ']' :: behind := by
  obtain ⟨more, hmore⟩ : ∃ more, compactItems (item :: items) = item.compactText ++ more := by
    cases items with
    | nil => exact ⟨[], by rw [compactItems, List.append_nil]⟩
    | cons next items => exact ⟨_, rfl⟩
  obtain ⟨c, tail, htext, -, hc⟩ := exists_head_of_plain h
  rw [hmore, List.append_assoc, skipBlanks_compactText h, htext, List.cons_append]
  exact fun heq => hc (List.cons.inj heq).1

/-- An object with members does not close at once. -/
theorem skipBlanks_compactMembers_ne (member : String × Json) (members : List (String × Json))
    (rest behind : List Char) :
    skipBlanks (compactMembers (member :: members) ++ '\x7d' :: rest) ≠ '\x7d' :: behind := by
  obtain ⟨tail, htail⟩ : ∃ tail, compactMembers (member :: members) = '"' :: tail := by
    cases members <;> exact ⟨_, rfl⟩
  rw [htail, List.cons_append, skipBlanks_cons rfl]
  exact fun heq => absurd (List.cons.inj heq).1 (by decide)

mutual

theorem reads : (nesting : Nat) → (v : Json) → v.Plain nesting → v.Reads nesting
  | _, .null, _ => reads_atom rfl (by decide) fun _ _ => rfl
  | _, .bool true, _ => reads_atom rfl (by decide) fun _ _ => rfl
  | _, .bool false, _ => reads_atom rfl (by decide) fun _ _ => rfl
  | _, .number _, h => reads_number h
  | _, .string text, _ => reads_string text
  | 0, .array _, h | 0, .object _, h => h.elim
  | nesting + 1, .array [], _ => fun rest _ =>
      value_of_empty_array (skipBlanks_cons rfl _) (skipBlanks_cons rfl _)
  | nesting + 1, .object [], _ => fun rest _ =>
      value_of_empty_object (skipBlanks_cons rfl _) (skipBlanks_cons rfl _)
  | nesting + 1, .array (item :: items), h => by
      intro rest _
      have hitems := reads_items nesting (item :: items) (List.cons_ne_nil _ _) h [] rest
      rw [compactText, List.cons_append, List.cons_append, List.append_assoc, List.singleton_append]
      exact value_of_items (skipBlanks_cons rfl _) (skipBlanks_compactItems_ne h.1 items rest)
        hitems
  | nesting + 1, .object (member :: members), h => by
      intro rest _
      have hmembers := reads_members nesting (member :: members) (List.cons_ne_nil _ _) h.2 [] rest
        (by simpa using h.1)
      rw [compactText, List.cons_append, List.cons_append, List.append_assoc, List.singleton_append]
      exact value_of_members (skipBlanks_cons rfl _)
        (skipBlanks_compactMembers_ne member members rest)
        hmembers

theorem reads_items : (nesting : Nat) → (items : List Json) → items ≠ [] →
    PlainItems nesting items → ∀ done rest,
      left (Reader.items nesting done (compactItems items ++ ']' :: rest)) =
        some (done.reverse ++ items, rest)
  | _, [], hne, _, _, _ => absurd rfl hne
  | nesting, [item], _, h, done, rest => by
      have hitem := reads nesting item h.1 (']' :: rest) (ends_cons rfl _)
      rw [compactItems, items_of_value hitem, skipBlanks_cons rfl]
      simp only [List.reverse_cons]
  | nesting, item :: next :: items, _, h, done, rest => by
      have hitem := reads nesting item h.1
        (',' :: (compactItems (next :: items) ++ ']' :: rest)) (ends_cons rfl _)
      have hitems := reads_items nesting (next :: items) (List.cons_ne_nil _ _) h.2 (item :: done)
        rest
      show left (Reader.items nesting done
        (item.compactText ++ ',' :: compactItems (next :: items) ++ ']' :: rest)) = _
      rw [List.append_assoc, List.cons_append, items_of_value hitem, skipBlanks_cons rfl]
      simp only [hitems, List.reverse_cons, List.append_assoc, List.singleton_append]

theorem reads_members : (nesting : Nat) → (members : List (String × Json)) → members ≠ [] →
    PlainMembers nesting members → ∀ done rest,
      (Assoc.keys done ++ Assoc.keys members).Nodup →
      left (Reader.members nesting done (compactMembers members ++ '\x7d' :: rest)) =
        some (done ++ members, rest)
  | _, [], hne, _, _, _, _ => absurd rfl hne
  | nesting, [(name, v)], _, h, done, rest, hkeys => by
      have hmember := takesMember (reads nesting v h.1) name (ends_cons (c := '\x7d') rfl rest)
      have hname : name ∉ Assoc.keys done := fun hmem =>
        List.disjoint_of_nodup_append hkeys hmem List.mem_cons_self
      rw [compactMembers, members_of_takesMember hmember, skipBlanks_cons rfl]
      simp only [Assoc.insert_of_not_mem v hname]
  | nesting, (name, v) :: next :: members, _, h, done, rest, hkeys => by
      have hmember := takesMember (reads nesting v h.1) name
        (ends_cons (c := ',') rfl (compactMembers (next :: members) ++ '\x7d' :: rest))
      have hname : name ∉ Assoc.keys done := fun hmem =>
        List.disjoint_of_nodup_append hkeys hmem List.mem_cons_self
      have hmembers := reads_members nesting (next :: members) (List.cons_ne_nil _ _) h.2
        (done ++ [(name, v)]) rest (by simpa [Assoc.keys] using hkeys)
      show left (Reader.members nesting done (quote name.toList ++ ':' :: v.compactText ++
        ',' :: compactMembers (next :: members) ++ '\x7d' :: rest)) = _
      rw [List.append_assoc, List.cons_append, members_of_takesMember hmember, skipBlanks_cons rfl]
      simp only [Assoc.insert_of_not_mem v hname, hmembers, List.append_assoc,
        List.singleton_append]

end

end Reading

/-- A plain value is what is read from its compact text. -/
theorem ofText?_compact {nesting : Nat} {v : Json} (h : v.Plain nesting) :
    ofText? nesting v.compact = some v := by
  have hread := reads nesting v h [] ends_nil
  have htext : v.compact.toList = v.compactText := String.toList_ofList
  rw [List.append_nil, ← htext] at hread
  obtain ⟨⟨w, rest, hshorter⟩, hresult, heq⟩ := Option.map_eq_some_iff.mp hread
  obtain ⟨hvalue, hrest⟩ : w = v ∧ rest = [] := Prod.mk.inj heq
  rw [ofText?, hresult, hvalue]
  simp only [hrest, bind, Option.bind, List.all_nil, if_true]

end Stencil.Json
