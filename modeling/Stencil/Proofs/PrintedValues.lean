import Mathlib.Tactic.IntervalCases
import Stencil.Proofs.Lexing
import Stencil.Proofs.PrintedNumbers

/-!
# A value can be told from its compact text

The first character of a compact text tells what kind of value it is. A string goes on to its
closing quote, as the reader finds it, and a number as far as its characters go, which a comma
or a closing bracket does not continue; so the text of an item or a member ends where the next
one begins, and a container is told from what is between its brackets. The induction is over
the value, with whatever may follow behind its text (`eq_of_compactText_append`).

Seen from outside its strings, a compact text has neither a semicolon nor a backslash
(`quiet_compactText`). No text has that both when it is read from outside a string and when it
is read from inside one, and that is how the end of a longer text can be recognized as a compact
text (`eq_of_append_quiet`).

All this is about values whose numbers are in the form that they are kept in. Whatever is read
from a text is such a value (`canonical_of_ofText?`).
-/

namespace Stencil.Json

mutual

/-- Whether every number in a value is in the form that it is kept in. -/
def Canonical : Json → Prop
  | .null => True
  | .bool _ => True
  | .number n => n.Canonical
  | .string _ => True
  | .array items => CanonicalItems items
  | .object members => CanonicalMembers members

def CanonicalItems : List Json → Prop
  | [] => True
  | item :: rest => item.Canonical ∧ CanonicalItems rest

def CanonicalMembers : List (String × Json) → Prop
  | [] => True
  | (_, value) :: rest => value.Canonical ∧ CanonicalMembers rest

end

theorem canonicalItems_iff {items : List Json} :
    CanonicalItems items ↔ ∀ item ∈ items, item.Canonical := by
  induction items with
  | nil => simp [CanonicalItems]
  | cons item rest ih => simp [CanonicalItems, ih]

theorem canonicalMembers_iff {members : List (String × Json)} :
    CanonicalMembers members ↔ ∀ member ∈ members, member.2.Canonical := by
  induction members with
  | nil => simp [CanonicalMembers]
  | cons member rest ih => simp [CanonicalMembers, ih]

/-! ## Values that are read -/

section Read

open Reader

theorem canonical_of_atom {text : List Char} {v : Json} {rest : Rest text}
    (h : atom text = some (v, rest)) : v.Canonical := by
  unfold atom at h
  split at h
  · cases h
    trivial
  · cases h
    trivial
  · cases h
    trivial
  · split at h
    · split at h
      · next n hn =>
          cases h
          exact Number.canonical_of_ofText? hn
      · cases h
    · cases h
  · cases h

theorem canonicalMembers_insert {name : String} {value : Json} {members : List (String × Json)}
    (hvalue : value.Canonical) (h : CanonicalMembers members) :
    CanonicalMembers (Assoc.insert name value members) := by
  rw [canonicalMembers_iff] at h ⊢
  rintro ⟨other, v⟩ hmem
  rcases Assoc.mem_insert hmem with ⟨-, rfl⟩ | hmem
  · exact hvalue
  · exact h _ hmem

theorem length_lt_of_skipBlanks {c : Char} {text rest : List Char}
    (h : skipBlanks text = c :: rest) : rest.length < text.length := by
  have hle := length_skipBlanks_le text
  rw [h] at hle
  exact hle

-- The recursion is that of the readers: what is left gets shorter with each mark that is taken off,
-- and `items` stands above `value` because it hands its whole text on to the first item.
mutual

theorem canonical_of_value {nesting : Nat} {text : List Char} {v : Json} {rest : Rest text}
    (h : value nesting text = some (v, rest)) : v.Canonical := by
  rw [value] at h
  split at h
  · split at h
    · cases h
    · cases h
      trivial
  · next cs hcs =>
      have hshorter := length_lt_of_skipBlanks hcs
      split at h
      · cases h
      · split at h
        · cases h
          trivial
        · obtain ⟨⟨list, _⟩, hitems, hlist⟩ := Option.bind_eq_some_iff.mp h
          cases hlist
          exact canonical_of_items hitems trivial
  · next cs hcs =>
      have hshorter := length_lt_of_skipBlanks hcs
      split at h
      · cases h
      · split at h
        · cases h
          trivial
        · obtain ⟨⟨list, _⟩, hmembers, hlist⟩ := Option.bind_eq_some_iff.mp h
          cases hlist
          exact canonical_of_members hmembers trivial
  · obtain ⟨⟨_, _⟩, hatom, hv⟩ := Option.bind_eq_some_iff.mp h
    cases hv
    exact canonical_of_atom hatom
termination_by 2 * text.length

theorem canonical_of_items {nesting : Nat} {done list : List Json} {text : List Char}
    {rest : Rest text} (h : items nesting done text = some (list, rest))
    (hdone : CanonicalItems done) : CanonicalItems list := by
  rw [items] at h
  obtain ⟨⟨item, after, hafter⟩, hitem, hlist⟩ := Option.bind_eq_some_iff.mp h
  have hadded : CanonicalItems (item :: done) := ⟨canonical_of_value hitem, hdone⟩
  dsimp only at hlist
  split at hlist
  · next behind hbehind =>
      have hshorter := length_lt_of_skipBlanks hbehind
      obtain ⟨⟨more, _⟩, hmore, heq⟩ := Option.bind_eq_some_iff.mp hlist
      cases heq
      exact canonical_of_items hmore hadded
  · cases hlist
    rw [canonicalItems_iff] at hadded ⊢
    exact fun item hmem => hadded item (List.mem_reverse.mp hmem)
  · cases hlist
termination_by 2 * text.length + 1

theorem canonical_of_members {nesting : Nat} {done list : List (String × Json)} {text : List Char}
    {rest : Rest text} (h : members nesting done text = some (list, rest))
    (hdone : CanonicalMembers done) : CanonicalMembers list := by
  rw [members] at h
  dsimp only at h
  split at h
  · next cs hcs =>
      have hopen := length_lt_of_skipBlanks hcs
      split at h
      · cases h
      · next name afterName hname =>
          have hstring : afterName.length < cs.length := length_stringTail_lt hname
          split at h
          · next afterColon hafterColon =>
              have hcolon := length_lt_of_skipBlanks hafterColon
              obtain ⟨⟨v, afterValue, hafter⟩, hv, hlist⟩ := Option.bind_eq_some_iff.mp h
              have hadded : CanonicalMembers (Assoc.insert (String.ofList name) v done) :=
                canonicalMembers_insert (canonical_of_value hv) hdone
              dsimp only at hlist
              split at hlist
              · next behind hbehind =>
                  have hend := length_lt_of_skipBlanks hbehind
                  obtain ⟨⟨more, _⟩, hmore, heq⟩ := Option.bind_eq_some_iff.mp hlist
                  cases heq
                  exact canonical_of_members hmore hadded
              · cases hlist
                exact hadded
              · cases hlist
          · cases h
  · cases h
termination_by 2 * text.length

end

/-- Everything that is read from a text is in its form. -/
theorem canonical_of_ofText? {nesting : Nat} {text : String} {v : Json}
    (h : ofText? nesting text = some v) : v.Canonical := by
  obtain ⟨⟨value, rest⟩, hvalue, hv⟩ := Option.bind_eq_some_iff.mp h
  dsimp only at hv
  split at hv
  · cases hv
    exact canonical_of_value hvalue
  · cases hv

end Read

/-! ## Strings -/

section Strings

open Reader

theorem hexText_four {n : Nat} (h : n < 0x20) :
    ∃ a b c d, hexText 4 n = [a, b, c, d] ∧ hex4? a b c d = some n := by
  interval_cases n <;> exact ⟨_, _, _, _, rfl, rfl⟩

theorem not_surrogate {n : Nat} (h : n < 0x20) :
    isHighSurrogate n = false ∧ isLowSurrogate n = false := by
  interval_cases n <;> exact ⟨rfl, rfl⟩

/-- The reader takes an escaped character back. -/
theorem stringTail_escapeChar (c : Char) (done rest : List Char) :
    stringTail done (escapeChar c ++ rest) = stringTail (c :: done) rest := by
  unfold escapeChar
  split
  case h_8 hquote hbackslash _ _ _ _ _ =>
    split
    · next hcontrol =>
        obtain ⟨a, b, x, d, htext, hcode⟩ := hexText_four hcontrol
        obtain ⟨hhigh, hlow⟩ := not_surrogate hcontrol
        rw [htext]
        simp [stringTail, hcode, hhigh, hlow]
    · next hplain =>
        rw [List.singleton_append, stringTail, if_neg (not_or.mpr ⟨hplain, hbackslash⟩)]
        · exact hquote
        · intro _ _ _ _ _ hc
          exact absurd hc hbackslash
        · intro _ _ hc
          exact absurd hc hbackslash
  all_goals rfl

theorem stringTail_flatMap (text done rest : List Char) :
    stringTail done (text.flatMap escapeChar ++ '"' :: rest) =
      some (done.reverse ++ text, rest) := by
  induction text generalizing done with
  | nil => simp [stringTail]
  | cons c text ih =>
      rw [List.flatMap_cons, List.append_assoc, stringTail_escapeChar, ih, List.reverse_cons,
        List.append_assoc, List.singleton_append]

/-- A string ends where its text does. -/
theorem eq_of_quote_append {a b r s : List Char} (h : quote a ++ r = quote b ++ s) :
    a = b ∧ r = s := by
  have hread (text rest : List Char) :
      (quote text ++ rest).tail = text.flatMap escapeChar ++ '"' :: rest := by
    simp [quote]
  have htail := congrArg (fun cs => stringTail [] cs.tail) h
  simp only [hread, stringTail_flatMap, Option.some.injEq, Prod.mk.injEq] at htail
  exact htail

end Strings

/-! ## Values -/

/-- Whether a number does not go on in a text. -/
def Ends (text : List Char) : Prop := ∀ c ∈ text.head?, Reader.isNumberChar c = false

theorem ends_nil : Ends [] := by simp [Ends]

theorem ends_cons {c : Char} (h : Reader.isNumberChar c = false) (text : List Char) :
    Ends (c :: text) := by
  simpa [Ends] using h

/-- The first character of a value's text, the same for all numbers and for the two booleans. -/
def lead : Json → Char
  | .null => 'n'
  | .bool _ => 't'
  | .number _ => '0'
  | .string _ => '"'
  | .array _ => '['
  | .object _ => '\x7b'

/-- What a first character announces. -/
def announced (c : Char) : Char :=
  if Lexeme.isNumberStart c then '0' else if c = 'f' then 't' else c

theorem number_text {n : Number} (hn : n.Canonical) :
    (∃ c cs, n.text = c :: cs ∧ Lexeme.isNumberStart c = true) ∧
      ∀ c ∈ n.text, Reader.isNumberChar c = true := by
  obtain ⟨p, hp, -⟩ := Number.exists_parts_of_text hn
  obtain ⟨c, cs, htext, hc, hcs⟩ := hp.exists_cons
  refine ⟨⟨c, cs, htext, hc⟩, ?_⟩
  rw [htext]
  exact List.forall_mem_cons.mpr ⟨Lexeme.isNumberChar_of_isNumberStart hc, hcs⟩

theorem exists_head {v : Json} (hv : v.Canonical) :
    ∃ c tail, v.compactText = c :: tail ∧ announced c = v.lead := by
  cases v with
  | null => exact ⟨_, _, rfl, rfl⟩
  | bool b => cases b <;> exact ⟨_, _, rfl, rfl⟩
  | number n =>
      obtain ⟨⟨c, cs, htext, hc⟩, -⟩ := number_text hv
      exact ⟨c, cs, by rw [compactText, htext], by rw [announced, if_pos hc]; rfl⟩
  | string text => exact ⟨_, _, rfl, rfl⟩
  | array items => exact ⟨_, _, rfl, rfl⟩
  | object members => exact ⟨_, _, rfl, rfl⟩

theorem lead_eq {v w : Json} (hv : v.Canonical) (hw : w.Canonical) {r s : List Char}
    (h : v.compactText ++ r = w.compactText ++ s) : v.lead = w.lead := by
  obtain ⟨c, tail, hc, hlead⟩ := exists_head hv
  obtain ⟨d, tail', hd, hlead'⟩ := exists_head hw
  rw [hc, hd, List.cons_append, List.cons_append, List.cons.injEq] at h
  rw [← hlead, ← hlead', h.1]

theorem eq_of_number_append {n m : Number} (hn : n.Canonical) (hm : m.Canonical)
    {r s : List Char} (hr : Ends r) (hs : Ends s) (h : n.text ++ r = m.text ++ s) :
    n = m ∧ r = s := by
  obtain ⟨htake, hdrop⟩ := Lexeme.takeWhile_append_of_delimited (number_text hn).2 hr
  obtain ⟨htake', hdrop'⟩ := Lexeme.takeWhile_append_of_delimited (number_text hm).2 hs
  rw [h] at htake hdrop
  exact ⟨Number.eq_of_text_eq hn hm (htake.symm.trans htake'), hdrop.symm.trans hdrop'⟩

/-- Whether a value is told from its text, whatever follows. -/
def Told (v : Json) : Prop :=
  ∀ (w : Json) (r s : List Char), v.Canonical → w.Canonical → Ends r → Ends s →
    v.compactText ++ r = w.compactText ++ s → v = w ∧ r = s

/-! ## Lists with commas -/

section Lists

variable {α : Type} {print : α → List Char} {close : Char}

/-- Texts with commas between them are told apart when each one is. -/
theorem eq_of_commas_append (hclose : close ≠ ',') (hends : Reader.isNumberChar close = false)
    {xs ys : List α}
    (hfirst : ∀ x, x ∈ xs ∨ x ∈ ys → ∀ r s, print x ++ r ≠ close :: s)
    (htold : ∀ x ∈ xs, ∀ y ∈ ys, ∀ r s, Ends r → Ends s → print x ++ r = print y ++ s →
      x = y ∧ r = s)
    {r s : List Char}
    (h : [','].intercalate (xs.map print) ++ close :: r =
      [','].intercalate (ys.map print) ++ close :: s) : xs = ys ∧ r = s := by
  -- What follows the first text: the closing bracket, or a comma and the other texts.
  have hcut (x : α) (xs : List α) (r : List Char) : ∃ rest, Ends rest ∧
      [','].intercalate ((x :: xs).map print) ++ close :: r = print x ++ rest ∧
      (xs = [] ∧ rest = close :: r ∨
        xs ≠ [] ∧ rest = ',' :: ([','].intercalate (xs.map print) ++ close :: r)) := by
    cases xs with
    | nil => exact ⟨close :: r, ends_cons hends r, by simp, Or.inl ⟨rfl, rfl⟩⟩
    | cons y ys =>
        refine ⟨_, ends_cons rfl _, ?_, Or.inr ⟨List.cons_ne_nil _ _, rfl⟩⟩
        rw [List.map_cons, List.map_cons, List.intercalate_cons_cons, ← List.map_cons]
        simp
  induction xs generalizing ys with
  | nil =>
      cases ys with
      | nil => simpa using h
      | cons y ys =>
          obtain ⟨rest, -, hy, -⟩ := hcut y ys s
          rw [hy] at h
          exact absurd h.symm (hfirst y (Or.inr List.mem_cons_self) _ _)
  | cons x xs ih =>
      obtain ⟨rest, hrest, hx, hxs⟩ := hcut x xs r
      cases ys with
      | nil =>
          rw [hx] at h
          exact absurd h (hfirst x (Or.inl List.mem_cons_self) _ _)
      | cons y ys =>
          obtain ⟨rest', hrest', hy, hys⟩ := hcut y ys s
          rw [hx, hy] at h
          obtain ⟨rfl, rfl⟩ := htold x List.mem_cons_self y List.mem_cons_self _ _ hrest hrest' h
          rcases hxs with ⟨rfl, hxs⟩ | ⟨hne, hxs⟩ <;> rcases hys with ⟨rfl, hys⟩ | ⟨hne', hys⟩ <;>
            rw [hxs, List.cons.injEq] at hys
          · exact ⟨rfl, hys.2⟩
          · exact absurd hys.1 hclose
          · exact absurd hys.1.symm hclose
          · obtain ⟨rfl, hrs⟩ := ih
              (fun z hz => hfirst z (hz.imp (List.mem_cons_of_mem _) (List.mem_cons_of_mem _)))
              (fun z hz w hw =>
                htold z (List.mem_cons_of_mem _ hz) w (List.mem_cons_of_mem _ hw)) hys.2
            exact ⟨rfl, hrs⟩

end Lists

theorem compactItems_eq (items : List Json) :
    compactItems items = [','].intercalate (items.map compactText) := by
  induction items with
  | nil => rfl
  | cons item rest ih =>
      cases rest with
      | nil => simp [compactItems]
      | cons next rest =>
          rw [compactItems, ih]
          · simp [List.intercalate_cons_cons]
          · exact List.cons_ne_nil _ _

/-- A member's text. -/
def memberText (member : String × Json) : List Char :=
  quote member.1.toList ++ ':' :: member.2.compactText

theorem compactMembers_eq (members : List (String × Json)) :
    compactMembers members = [','].intercalate (members.map memberText) := by
  induction members with
  | nil => rfl
  | cons member rest ih =>
      cases rest with
      | nil => simp [compactMembers, memberText]
      | cons next rest =>
          rw [compactMembers, ih]
          · simp [List.intercalate_cons_cons, memberText]
          · exact List.cons_ne_nil _ _

theorem told_array {items : List Json} (htold : ∀ item ∈ items, Told item) :
    Told (.array items) := by
  intro w r s hv hw hr hs h
  have hlead := lead_eq hv hw h
  cases w with
  | array items' =>
      have hitems := canonicalItems_iff.mp hv
      have hitems' := canonicalItems_iff.mp hw
      have hfirst : ∀ item, item ∈ items ∨ item ∈ items' →
          ∀ r s, item.compactText ++ r ≠ ']' :: s := by
        intro item hitem r s hclose
        obtain ⟨c, tail, hc, hlead⟩ := exists_head (hitem.elim (hitems item) (hitems' item))
        rw [hc, List.cons_append, List.cons.injEq] at hclose
        rw [hclose.1] at hlead
        cases item <;> cases hlead
      have h' : compactItems items ++ ']' :: r = compactItems items' ++ ']' :: s := by
        simpa [compactText] using h
      rw [compactItems_eq, compactItems_eq] at h'
      obtain ⟨rfl, hrs⟩ := eq_of_commas_append (by decide) rfl hfirst
        (fun x hx y hy r s hr hs hxy => htold x hx y r s (hitems x hx) (hitems' y hy) hr hs hxy) h'
      exact ⟨rfl, hrs⟩
  | _ => cases hlead

theorem told_object {members : List (String × Json)} (htold : ∀ member ∈ members, Told member.2) :
    Told (.object members) := by
  intro w r s hv hw hr hs h
  have hlead := lead_eq hv hw h
  cases w with
  | object members' =>
      have hmembers := canonicalMembers_iff.mp hv
      have hmembers' := canonicalMembers_iff.mp hw
      have hmember : ∀ x ∈ members, ∀ y ∈ members', ∀ r s, Ends r → Ends s →
          memberText x ++ r = memberText y ++ s → x = y ∧ r = s := by
        intro x hx y hy r s hr hs hxy
        simp only [memberText, List.append_assoc, List.cons_append] at hxy
        obtain ⟨hname, hvalue⟩ := eq_of_quote_append hxy
        rw [List.cons.injEq] at hvalue
        obtain ⟨hvalue, hrs⟩ :=
          htold x hx y.2 r s (hmembers x hx) (hmembers' y hy) hr hs hvalue.2
        exact ⟨Prod.ext (String.toList_inj.mp hname) hvalue, hrs⟩
      have h' : compactMembers members ++ '\x7d' :: r = compactMembers members' ++ '\x7d' :: s := by
        simpa [compactText] using h
      rw [compactMembers_eq, compactMembers_eq] at h'
      obtain ⟨rfl, hrs⟩ := eq_of_commas_append (by decide) rfl
        (fun member _ r s hclose => by cases hclose) hmember h'
      exact ⟨rfl, hrs⟩
  | _ => cases hlead

mutual

theorem told : (v : Json) → Told v
  | .null => by
      intro w r s hv hw hr hs h
      have hlead := lead_eq hv hw h
      cases w with
      | null => exact ⟨rfl, by simpa [compactText] using h⟩
      | _ => cases hlead
  | .bool b => by
      intro w r s hv hw hr hs h
      have hlead := lead_eq hv hw h
      cases w with
      | bool b' =>
          cases b <;> cases b' <;> simp [compactText] at h
          · exact ⟨rfl, h⟩
          · exact ⟨rfl, h⟩
      | _ => cases hlead
  | .number n => by
      intro w r s hv hw hr hs h
      have hlead := lead_eq hv hw h
      cases w with
      | number m =>
          obtain ⟨rfl, hrs⟩ := eq_of_number_append hv hw hr hs h
          exact ⟨rfl, hrs⟩
      | _ => cases hlead
  | .string text => by
      intro w r s hv hw hr hs h
      have hlead := lead_eq hv hw h
      cases w with
      | string text' =>
          obtain ⟨htext, hrs⟩ := eq_of_quote_append h
          exact ⟨congrArg _ (String.toList_inj.mp htext), hrs⟩
      | _ => cases hlead
  | .array items => told_array (toldItems items)
  | .object members => told_object (toldMembers members)

theorem toldItems : (items : List Json) → ∀ item ∈ items, Told item
  | [] => by simp
  | item :: rest => List.forall_mem_cons.mpr ⟨told item, toldItems rest⟩

theorem toldMembers : (members : List (String × Json)) → ∀ member ∈ members, Told member.2
  | [] => by simp
  | (name, value) :: rest => List.forall_mem_cons.mpr ⟨told value, toldMembers rest⟩

end

/-- A value can be told from its compact text. -/
theorem eq_of_compactText_eq {v w : Json} (hv : v.Canonical) (hw : w.Canonical)
    (h : v.compactText = w.compactText) : v = w :=
  (told v w [] [] hv hw ends_nil ends_nil (by rw [h])).1

/-! ## Where a semicolon can stand -/

/-- Where a reader of a compact text is: outside strings, inside one, or behind a backslash in
one. -/
inductive Side where
  | outside
  | inside
  | escaped
  deriving DecidableEq

/-- One character of a compact text, which has neither a semicolon nor a backslash outside its
strings and nowhere a NUL. -/
def Side.step (side : Side) (c : Char) : Option Side :=
  if c = '\x00' then none
  else
    match side with
    | .outside =>
        if c = '"' then some .inside else if c = ';' ∨ c = '\\' then none else some .outside
    | .inside => if c = '"' then some .outside else if c = '\\' then some .escaped else some .inside
    | .escaped => some .inside

/-- Where a reader is after a text. -/
def Side.after (start : Side) (text : List Char) : Option Side := text.foldlM Side.step start

/-- Whether a text can be read from outside a string and ends there. -/
def Quiet (text : List Char) : Prop := Side.outside.after text = some .outside

theorem after_append (start : Side) (a b : List Char) :
    start.after (a ++ b) = (start.after a).bind fun side => side.after b := by
  rw [Side.after, List.foldlM_append]
  rfl

theorem Quiet.append {a b : List Char} (ha : Quiet a) (hb : Quiet b) : Quiet (a ++ b) := by
  rw [Quiet, after_append, ha]
  exact hb

theorem quiet_of_plain {text : List Char}
    (h : ∀ c ∈ text, Side.outside.step c = some .outside) : Quiet text := by
  induction text with
  | nil => rfl
  | cons c text ih =>
      obtain ⟨hc, htext⟩ := List.forall_mem_cons.mp h
      rw [Quiet, Side.after, List.foldlM_cons, hc]
      exact ih htext

theorem quiet_singleton {c : Char} (h : Side.outside.step c = some .outside) : Quiet [c] :=
  quiet_of_plain (by simpa using h)

theorem step_isNumberChar {c : Char} (h : Reader.isNumberChar c = true) :
    Side.outside.step c = some .outside := by
  have hne {d : Char} (hd : Reader.isNumberChar d = false) : c ≠ d := by
    rintro rfl
    rw [h] at hd
    cases hd
  have hnul : c ≠ '\x00' := hne rfl
  have hquote : c ≠ '"' := hne rfl
  have hsemicolon : c ≠ ';' := hne rfl
  have hbackslash : c ≠ '\\' := hne rfl
  simp [Side.step, hnul, hquote, hsemicolon, hbackslash]

theorem inside_escapeChar (c : Char) : Side.inside.after (escapeChar c) = some .inside := by
  unfold escapeChar
  split
  case h_8 hquote hbackslash _ _ _ _ _ =>
    split
    · next hcontrol =>
        generalize c.toNat = n at hcontrol
        interval_cases n <;> rfl
    · next hplain =>
        have hnul : c ≠ '\x00' := by
          rintro rfl
          exact hplain (by decide)
        have hquote : c ≠ '"' := hquote
        have hbackslash : c ≠ '\\' := hbackslash
        simp [Side.after, Side.step, hnul, hquote, hbackslash]
  all_goals rfl

theorem quiet_quote (text : List Char) : Quiet (quote text) := by
  have hinside : Side.inside.after (text.flatMap escapeChar) = some .inside := by
    induction text with
    | nil => rfl
    | cons c text ih =>
        rw [List.flatMap_cons, after_append, inside_escapeChar]
        exact ih
  show Side.inside.after (text.flatMap escapeChar ++ ['"']) = some .outside
  rw [after_append, hinside]
  rfl

theorem quiet_commas {texts : List (List Char)} (h : ∀ text ∈ texts, Quiet text) :
    Quiet ([','].intercalate texts) := by
  induction texts with
  | nil => rfl
  | cons text texts ih =>
      obtain ⟨htext, htexts⟩ := List.forall_mem_cons.mp h
      cases texts with
      | nil => simpa using htext
      | cons next texts =>
          rw [List.intercalate_cons_cons]
          exact (htext.append (quiet_singleton rfl)).append (ih htexts)

mutual

theorem quiet_compactText : (v : Json) → v.Canonical → Quiet v.compactText
  | .null, _ => rfl
  | .bool true, _ => rfl
  | .bool false, _ => rfl
  | .number _, hv => quiet_of_plain fun c hc => step_isNumberChar ((number_text hv).2 c hc)
  | .string text, _ => quiet_quote text.toList
  | .array items, hv => by
      rw [compactText, compactItems_eq]
      exact ((quiet_singleton rfl).append (quiet_commas (quiet_items items hv))).append
        (quiet_singleton rfl)
  | .object members, hv => by
      rw [compactText, compactMembers_eq]
      exact ((quiet_singleton rfl).append (quiet_commas (quiet_members members hv))).append
        (quiet_singleton rfl)

theorem quiet_items : (items : List Json) → CanonicalItems items →
    ∀ text ∈ items.map compactText, Quiet text
  | [], _ => by simp
  | item :: rest, hv =>
      List.forall_mem_cons.mpr ⟨quiet_compactText item hv.1, quiet_items rest hv.2⟩

theorem quiet_members : (members : List (String × Json)) → CanonicalMembers members →
    ∀ text ∈ members.map memberText, Quiet text
  | [], _ => by simp
  | (name, value) :: rest, hv => List.forall_mem_cons.mpr
      ⟨(quiet_quote name.toList).append
          ((quiet_singleton rfl).append (quiet_compactText value hv.1)),
        quiet_members rest hv.2⟩

end

theorem after_cons {start last : Side} {c : Char} {text : List Char} :
    start.after (c :: text) = some last ↔
      ∃ next, start.step c = some next ∧ next.after text = some last := by
  rw [Side.after, List.foldlM_cons]
  exact Option.bind_eq_some_iff

theorem nul_notMem_of_after {start last : Side} {text : List Char}
    (h : start.after text = some last) : '\x00' ∉ text := by
  induction text generalizing start with
  | nil => exact List.not_mem_nil
  | cons c text ih =>
      obtain ⟨next, hnext, hrest⟩ := after_cons.mp h
      refine List.not_mem_cons_of_ne_of_not_mem ?_ (ih hrest)
      rintro rfl
      cases hnext

theorem Quiet.nul_notMem {text : List Char} (h : Quiet text) : '\x00' ∉ text :=
  nul_notMem_of_after h

/-- No text can be read both from outside a string and from inside one. A quote leads from each
side to the other, and nothing else that can stand outside a string leads anywhere. -/
theorem Quiet.not_inside {text : List Char} (h : Quiet text) :
    Side.inside.after text ≠ some .outside := by
  induction text with
  | nil => exact fun hinside => by cases hinside
  | cons c text ih =>
      intro hinside
      obtain ⟨fromOutside, hout, houtRest⟩ := after_cons.mp h
      obtain ⟨fromInside, hin, hinRest⟩ := after_cons.mp hinside
      by_cases hquote : c = '"'
      · subst hquote
        cases hout
        cases hin
        exact ih hinRest houtRest
      · simp only [Side.step, if_neg hquote] at hout hin
        split at hout
        · cases hout
        · split at hout
          · cases hout
          · next hnul hplain =>
              rw [if_neg hnul, if_neg (fun hc => hplain (Or.inr hc))] at hin
              cases hout
              cases hin
              exact ih houtRest hinRest

/-- What stands before the first separator. -/
theorem exists_append_of_notMem {α : Type} {sep : α} {s t u v : List α} (hs : sep ∉ s)
    (h : s ++ t = u ++ sep :: v) : ∃ x, u = s ++ x ∧ t = x ++ sep :: v := by
  rcases List.append_eq_append_iff.mp h with hlong | ⟨x, rfl, hx⟩
  · exact hlong
  · cases x with
    | nil => exact ⟨[], by simp, by simpa using hx.symm⟩
    | cons y ys =>
        cases hx
        exact absurd (List.mem_append_right u List.mem_cons_self) hs

/-- A beginning and a quiet end, with a name and a semicolon between them, are told apart. -/
theorem eq_of_append_quiet {a b r s name : List Char} (hr : Quiet r) (hs : Quiet s)
    (hsemicolon : ';' ∉ name) (hname : Side.inside.after name = some .inside)
    (h : a ++ ';' :: (name ++ r) = b ++ ';' :: (name ++ s)) : a = b ∧ r = s := by
  -- A later semicolon would stand in a string of the end, and what follows it would be read
  -- both from inside that string and from outside.
  have hlater {r s t : List Char} (hr : Quiet r) (hs : Quiet s)
      (h : ';' :: (name ++ r) = t ++ ';' :: (name ++ s)) : t = [] ∧ r = s := by
    cases t with
    | nil => exact ⟨rfl, by simpa using h⟩
    | cons c t =>
        rw [List.cons_append, List.cons.injEq] at h
        obtain ⟨x, -, rfl⟩ := exists_append_of_notMem hsemicolon h.2
        rw [Quiet, after_append] at hr
        obtain ⟨side, -, hrest⟩ := Option.bind_eq_some_iff.mp hr
        obtain ⟨next, hnext, hend⟩ := after_cons.mp hrest
        have hinside : next = .inside := by
          cases side <;> cases hnext <;> rfl
        rw [hinside, after_append, hname] at hend
        exact absurd hend hs.not_inside
  rcases List.append_eq_append_iff.mp h with ⟨t, rfl, ht⟩ | ⟨t, rfl, ht⟩
  · obtain ⟨rfl, hrs⟩ := hlater hr hs ht
    exact ⟨by simp, hrs⟩
  · obtain ⟨rfl, hrs⟩ := hlater hs hr ht
    exact ⟨by simp, hrs.symm⟩

end Stencil.Json
