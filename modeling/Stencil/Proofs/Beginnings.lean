import Stencil.Proofs.MapCoverage

/-!
# Drafts that are the beginning of another

When a template breaks off, the containers that are open are closed with what is finished in
them, and a value that is not finished is dropped. Against the draft of the whole template, such
a draft is the same up to some element or member of each container that was open, and in the
last one of these nothing or less may stand (`Node.Starts`).

Read, such a draft gives a beginning of the value (`Json.Begins`), unless it is all broken, and
the entries inside it are among those of the whole. They are also entries of the whole map, in
which an entry is only lost to a later one for the same pointer: where no object writes a member
again, all pointers are different.
-/

namespace Stencil

/-! ## Beginnings of values -/

/-- Whether a value is the beginning of another: the same value, or an array or an object of its
first items or members, the last of which may be a beginning in its turn. -/
inductive Json.Begins : Json → Json → Prop
  | whole (v : Json) : Begins v v
  | array (front back : List Json) : Begins (.array front) (.array (front ++ back))
  | arrayInside (front back : List Json) {first v : Json} (h : Begins first v) :
      Begins (.array (front ++ [first])) (.array (front ++ v :: back))
  | object (front back : List (String × Json)) :
      Begins (.object front) (.object (front ++ back))
  | objectInside (front back : List (String × Json)) (key : String) {first v : Json}
      (h : Begins first v) :
      Begins (.object (front ++ [(key, first)])) (.object (front ++ (key, v) :: back))

/-- Whether elements come to be some others when more are added. -/
inductive Elements.Grows (elements : Elements) : Elements → Prop
  | refl : elements.Grows elements
  | add {later : Elements} (h : elements.Grows later) (place : Location) (node : Node) :
      elements.Grows (later.add place node)

/-- Whether members come to be some others when more are added. -/
inductive Members.Grows (members : Members) : Members → Prop
  | refl : members.Grows members
  | add {later : Members} (h : members.Grows later) (place : Location) (key : List Piece)
      (node : Node) : members.Grows (later.add place key node)
  | spread {later : Members} (h : members.Grows later) (d : Directive) :
      members.Grows (later.spread d)

/-- Whether a node is another one cut short: it is broken, or a container that ends early, perhaps
inside an element or a member. -/
inductive Node.Starts : Node → Node → Prop
  | whole (node : Node) : Starts node node
  | broken (pieces : List Piece) (node : Node) : Starts (.broken pieces) node
  | array {front elements : Elements} (h : front.Grows elements) :
      Starts (.array front) (.array elements)
  | arrayInside {front elements : Elements} {place : Location} {first node : Node}
      (hnode : Starts first node) (h : (front.add place node).Grows elements) :
      Starts (.array (front.add place first)) (.array elements)
  | arrayBroken {front elements : Elements} (place : Location) (pieces : List Piece)
      (h : front.Grows elements) :
      Starts (.array (front.add place (.broken pieces))) (.array elements)
  | object {front members : Members} (h : front.Grows members) :
      Starts (.object front) (.object members)
  | objectInside {front members : Members} {place : Location} {key : List Piece} {first node : Node}
      (hnode : Starts first node) (h : (front.add place key node).Grows members) :
      Starts (.object (front.add place key first)) (.object members)
  | objectBroken {front members : Members} (place : Location) (key pieces : List Piece)
      (h : front.Grows members) :
      Starts (.object (front.add place key (.broken pieces))) (.object members)

variable {path : Path} {look : Look}

/-! ## What is read -/

namespace Elements

variable {front elements : Elements} {place : Location} {node : Node}

theorem Grows.of_add (h : (front.add place node).Grows elements) : front.Grows elements := by
  induction h with
  | refl => exact .add .refl place node
  | add _ place node ih => exact ih.add place node

theorem Grows.distinct (h : front.Grows elements) (hdistinct : elements.Distinct look) :
    front.Distinct look := by
  induction h with
  | refl => exact hdistinct
  | add _ _ _ ih => exact ih hdistinct.1

theorem Grows.exists_read (h : front.Grows elements) (look : Look) :
    ∃ back, elements.read look = front.read look ++ back := by
  induction h with
  | refl => exact ⟨[], (List.append_nil _).symm⟩
  | add _ place node ih =>
      obtain ⟨back, hback⟩ := ih
      rw [read]
      split
      · exact ⟨back, hback⟩
      · exact ⟨back ++ [node.read look], by rw [hback, List.append_assoc]⟩

theorem Grows.entries_subset (h : front.Grows elements) (path : Path) (look : Look) (p : Pointer) :
    front.entries path look p ⊆ elements.entries path look p := by
  induction h with
  | refl => exact List.Subset.refl _
  | add _ place node ih =>
      rw [entries]
      split
      · exact ih
      · exact fun entry hentry => List.mem_append_left _ (List.mem_append_left _ (ih hentry))

end Elements

namespace Members

variable {front members : Members} {place : Location} {key : List Piece} {node : Node}

theorem Grows.of_add (h : (front.add place key node).Grows members) : front.Grows members := by
  induction h with
  | refl => exact .add .refl place key node
  | add _ place key node ih => exact ih.add place key node
  | spread _ d ih => exact ih.spread d

theorem Grows.of_spread {d : Directive} (h : (front.spread d).Grows members) :
    front.Grows members := by
  induction h with
  | refl => exact .spread .refl d
  | add _ place key node ih => exact ih.add place key node
  | spread _ d ih => exact ih.spread d

theorem Grows.distinct (h : front.Grows members) (hdistinct : members.Distinct look) :
    front.Distinct look := by
  induction h with
  | refl => exact hdistinct
  | add _ _ _ _ ih => exact ih hdistinct.1
  | spread _ _ ih => exact ih hdistinct

theorem Grows.nodup_names (h : front.Grows members) (hnames : (members.names look).Nodup) :
    (front.names look).Nodup := by
  induction h with
  | refl => exact hnames
  | add _ place key node ih =>
      rw [names] at hnames
      split at hnames
      · exact ih hnames
      · exact ih (List.nodup_append.mp hnames).1
  | spread _ d ih => exact ih (List.nodup_append.mp hnames).1

theorem keys_read (hnames : (members.names look).Nodup) :
    Assoc.keys (members.read look) = members.names look := by
  induction members using Members.row_induction with
  | none => rfl
  | add earlier place key node ih =>
      rw [names] at hnames ⊢
      rw [read]
      split at hnames
      · next hbroken =>
          rw [if_pos hbroken, if_pos hbroken]
          exact ih hnames
      · next hbroken =>
          obtain ⟨hearlier, -, hdiffer⟩ := List.nodup_append.mp hnames
          rw [if_neg hbroken, if_neg hbroken, Assoc.keys_insert, ih hearlier, if_neg]
          exact fun hmem => hdiffer _ hmem _ (List.mem_singleton_self _) rfl
  | spread earlier d ih =>
      rw [names] at hnames ⊢
      have hearlier := ih (List.nodup_append.mp hnames).1
      rw [read, Assoc.foldl_insert_of_nodup (by rwa [hearlier]), Assoc.keys, List.map_append]
      exact congrArg (· ++ _) hearlier

/-- A member under a new name goes to the end. -/
theorem read_add (hnames : ((front.add place key node).names look).Nodup)
    (hbroken : ¬ node.isBroken = true) {other : Node} (hother : ¬ other.isBroken = true) :
    (front.add place key other).read look =
      front.read look ++ [(String.ofList (Piece.read look key), other.read look)] := by
  rw [names, if_neg hbroken] at hnames
  obtain ⟨hfront, -, hdiffer⟩ := List.nodup_append.mp hnames
  rw [read, if_neg hother, Assoc.insert_of_not_mem]
  rw [keys_read hfront]
  exact fun hmem => hdiffer _ hmem _ (List.mem_singleton_self _) rfl

theorem Grows.exists_read (h : front.Grows members) (hnames : (members.names look).Nodup) :
    ∃ back, members.read look = front.read look ++ back := by
  induction h with
  | refl => exact ⟨[], (List.append_nil _).symm⟩
  | @add later _ place key node ih =>
      obtain ⟨back, hback⟩ := ih (Grows.nodup_names (.add .refl place key node) hnames)
      by_cases hbroken : node.isBroken = true
      · rw [read, if_pos hbroken]
        exact ⟨back, hback⟩
      · rw [read_add hnames hbroken hbroken, hback, List.append_assoc]
        exact ⟨_, rfl⟩
  | spread _ d ih =>
      have hlater := Grows.nodup_names (.spread .refl d) hnames
      obtain ⟨back, hback⟩ := ih hlater
      rw [names, ← keys_read hlater] at hnames
      rw [read, Assoc.foldl_insert_of_nodup hnames, hback, List.append_assoc]
      exact ⟨_, rfl⟩

theorem Grows.entries_subset (h : front.Grows members) (path : Path) (look : Look) (p : Pointer) :
    front.entries path look p ⊆ members.entries path look p := by
  induction h with
  | refl => exact List.Subset.refl _
  | add _ place key node ih =>
      rw [entries]
      split
      · exact ih
      · exact fun entry hentry => List.mem_append_left _ (List.mem_append_left _ (ih hentry))
  | spread _ d ih =>
      rw [entries]
      exact fun entry hentry => List.mem_append_left _ (ih hentry)

end Members

theorem Node.isBroken_broken (pieces : List Piece) : (Node.broken pieces).isBroken = true := rfl

theorem subset_of_inside {earlier inside inside' last : List Entry} (h : inside ⊆ inside') :
    earlier ++ inside ++ last ⊆ earlier ++ inside' ++ last := by
  intro entry hentry
  rw [List.mem_append, List.mem_append] at hentry ⊢
  exact hentry.imp_left (Or.imp_right (@h entry))

namespace Node.Starts

variable {first node : Node}

theorem not_broken (h : first.Starts node) (hfirst : ¬ first.isBroken = true) :
    ¬ node.isBroken = true := by
  cases h with
  | whole => exact hfirst
  | broken pieces => exact absurd rfl hfirst
  | array | arrayInside | arrayBroken | object | objectInside | objectBroken =>
      exact Bool.false_ne_true

theorem kind_eq (h : first.Starts node) (hfirst : ¬ first.isBroken = true) :
    first.kind = node.kind := by
  cases h with
  | broken pieces => exact absurd rfl hfirst
  | whole | array | arrayInside | arrayBroken | object | objectInside | objectBroken => rfl

/-- A node cut short is read as a beginning of the value. -/
theorem begins (h : first.Starts node) (hfirst : ¬ first.isBroken = true)
    (hdistinct : node.Distinct look) : (first.read look).Begins (node.read look) := by
  induction h with
  | whole node => exact .whole _
  | broken pieces node => exact absurd rfl hfirst
  | array hgrows =>
      obtain ⟨back, hback⟩ := hgrows.exists_read look
      rw [read, read, hback]
      exact .array _ back
  | @arrayInside front elements place first node hnode hgrows ih =>
      have hadd : ((front.add place node).Distinct look) := hgrows.distinct hdistinct
      rw [read, read, Elements.read]
      split
      · obtain ⟨back, hback⟩ := hgrows.of_add.exists_read look
        rw [hback]
        exact .array _ back
      · next hbroken =>
          obtain ⟨back, hback⟩ := hgrows.exists_read look
          rw [hback, Elements.read, if_neg (hnode.not_broken hbroken), List.append_assoc]
          exact .arrayInside _ back (ih hbroken hadd.2)
  | arrayBroken place pieces hgrows =>
      obtain ⟨back, hback⟩ := hgrows.exists_read look
      rw [read, read, Elements.read, if_pos (isBroken_broken pieces), hback]
      exact .array _ back
  | object hgrows =>
      obtain ⟨back, hback⟩ := hgrows.exists_read hdistinct.1
      rw [read, read, hback]
      exact .object _ back
  | @objectInside front members place key first node hnode hgrows ih =>
      obtain ⟨hnames, hdistinct⟩ := hdistinct
      by_cases hbroken : first.isBroken = true
      · obtain ⟨back, hback⟩ := hgrows.of_add.exists_read hnames
        rw [read, read, Members.read, if_pos hbroken, hback]
        exact .object _ back
      · have hadd := hgrows.nodup_names hnames
        have hwhole := hnode.not_broken hbroken
        have hinside : (front.add place key node).Distinct look := hgrows.distinct hdistinct
        obtain ⟨back, hback⟩ := hgrows.exists_read hnames
        rw [read, read, hback, Members.read_add hadd hwhole hwhole,
          Members.read_add hadd hwhole hbroken, List.append_assoc]
        exact .objectInside _ back _ (ih hbroken hinside.2)
  | objectBroken place key pieces hgrows =>
      obtain ⟨back, hback⟩ := hgrows.exists_read hdistinct.1
      rw [read, read, Members.read, if_pos (isBroken_broken pieces), hback]
      exact .object _ back

/-- The entries inside a node cut short are entries inside the node. -/
theorem entries_subset (h : first.Starts node) (path : Path) (look : Look) (p : Pointer) :
    first.entries path look p ⊆ node.entries path look p := by
  induction h generalizing p with
  | whole node => exact List.Subset.refl _
  | broken pieces node => exact List.nil_subset _
  | array hgrows => exact hgrows.entries_subset path look p
  | arrayInside hnode hgrows ih =>
      rw [entries, entries, Elements.entries]
      split
      · exact hgrows.of_add.entries_subset path look p
      · next hbroken =>
          refine List.Subset.trans ?_ (hgrows.entries_subset path look p)
          rw [Elements.entries, if_neg (hnode.not_broken hbroken), hnode.kind_eq hbroken]
          exact subset_of_inside (ih _)
  | arrayBroken place pieces hgrows =>
      rw [entries, entries, Elements.entries, if_pos (isBroken_broken pieces)]
      exact hgrows.entries_subset path look p
  | object hgrows => exact hgrows.entries_subset path look p
  | objectInside hnode hgrows ih =>
      rw [entries, entries, Members.entries]
      split
      · exact hgrows.of_add.entries_subset path look p
      · next hbroken =>
          refine List.Subset.trans ?_ (hgrows.entries_subset path look p)
          rw [Members.entries, if_neg (hnode.not_broken hbroken)]
          exact subset_of_inside (ih _)
  | objectBroken place key pieces hgrows =>
      rw [entries, entries, Members.entries, if_pos (isBroken_broken pieces)]
      exact hgrows.entries_subset path look p

end Node.Starts

/-! ## Different pointers -/

/-- All directives stand for null. -/
def Look.blank : Look := fun _ => (.null, none)

theorem covered_blank (d : Directive) : Covered (Look.blank d) := covered_of_isFlat rfl

/-- What is written at a place and inside it differs from what is written elsewhere. -/
theorem nodup_append_below {token : String} {earlier inside : List (List String)}
    (hearlier : earlier.Nodup) (hinside : inside.Nodup) (hnil : [] ∉ inside)
    (hnew : ∀ rest, token :: rest ∉ earlier) :
    (earlier ++ inside.map (token :: ·) ++ [[token]]).Nodup := by
  have hbelow : (inside.map (token :: ·)).Nodup :=
    hinside.map fun _ _ h => (List.cons.inj h).2
  have hself : (inside.map (token :: ·) ++ [[token]]).Nodup := by
    refine List.nodup_append.mpr ⟨hbelow, List.nodup_singleton _, ?_⟩
    rintro _ hmem _ htoken rfl
    obtain ⟨ts, hts, hcons⟩ := List.mem_map.mp hmem
    obtain rfl : ts = [] := (List.cons.inj (hcons.trans (List.mem_singleton.mp htoken))).2
    exact hnil hts
  rw [List.append_assoc]
  refine List.nodup_append.mpr ⟨hearlier, hself, ?_⟩
  rintro ts hmem _ hmem' rfl
  rcases List.mem_append.mp hmem' with h | h
  · obtain ⟨rest, -, rfl⟩ := List.mem_map.mp h
    exact hnew rest hmem
  · rw [List.mem_singleton.mp h] at hmem
    exact hnew [] hmem

theorem Members.nil_not_mem_inside (members : Members) : [] ∉ members.inside .blank := by
  induction members using Members.row_induction with
  | none => exact List.not_mem_nil
  | add earlier place key node ih =>
      rw [inside]
      split
      · exact ih
      · simp [ih]
  | spread earlier d ih =>
      rw [inside]
      simpa [spreadTokens, Look.blank] using ih

theorem Node.nil_not_mem_inside (node : Node) : [] ∉ node.inside .blank := by
  cases node with
  | array elements =>
      intro h
      obtain ⟨n, rest, hnil, -⟩ := elements.lt_of_mem_inside h
      cases hnil
  | object members => exact members.nil_not_mem_inside
  | scalar | text | directive | broken => exact List.not_mem_nil

mutual

theorem Node.nodup_inside (node : Node) (h : node.Distinct .blank) :
    (node.inside .blank).Nodup := by
  match node with
  | .scalar _ | .text _ | .directive _ | .broken _ => exact List.nodup_nil
  | .array elements => exact Elements.nodup_inside elements h
  | .object members => exact Members.nodup_inside members h.1 h.2

theorem Elements.nodup_inside (elements : Elements) (h : elements.Distinct .blank) :
    (elements.inside .blank).Nodup := by
  match elements with
  | .none => exact List.nodup_nil
  | .add earlier place node =>
      rw [Elements.inside]
      split
      · exact Elements.nodup_inside earlier h.1
      · refine nodup_append_below (Elements.nodup_inside earlier h.1) (Node.nodup_inside node h.2)
          node.nil_not_mem_inside fun rest hmem => ?_
        obtain ⟨n, rest', hts, hn⟩ := earlier.lt_of_mem_inside hmem
        exact absurd (Json.toString_inj.mp (List.cons.inj hts).1) (Nat.ne_of_gt hn)

theorem Members.nodup_inside (members : Members) (hnames : (members.names .blank).Nodup)
    (h : members.Distinct .blank) : (members.inside .blank).Nodup := by
  match members with
  | .none => exact List.nodup_nil
  | .add earlier place key node =>
      rw [Members.names] at hnames
      rw [Members.inside]
      split at hnames
      · next hbroken =>
          rw [if_pos hbroken]
          exact Members.nodup_inside earlier hnames h.1
      · next hbroken =>
          obtain ⟨hearlier, -, hdiffer⟩ := List.nodup_append.mp hnames
          rw [if_neg hbroken]
          exact nodup_append_below (Members.nodup_inside earlier hearlier h.1)
            (Node.nodup_inside node h.2) node.nil_not_mem_inside fun rest hmem =>
              hdiffer _ (earlier.mem_names_of_mem_inside (fun d => (covered_blank d).heads) hmem) _
                (List.mem_singleton_self _) rfl
  | .spread earlier d =>
      rw [Members.inside]
      simpa [spreadTokens, Look.blank] using
        Members.nodup_inside earlier (List.nodup_append.mp hnames).1 h

end

theorem Draft.nodup_entries {draft : Draft} (h : draft.Distinct .blank) (path : Path) :
    ((draft.entries path .blank).map Prod.fst).Nodup := by
  suffices htokens : ((draft.entries path .blank).map fun entry => entry.1.tokens).Nodup by
    refine List.Nodup.of_map Pointer.tokens ?_
    rwa [List.map_map]
  unfold Draft.Distinct at h
  unfold Draft.entries
  cases hbody : draft.body with
  | none => exact List.nodup_nil
  | some body =>
      obtain ⟨place, node⟩ := body
      rw [hbody] at h
      have htokens : (node.entries path .blank .root).map (fun entry => entry.1.tokens) =
          node.inside .blank := by
        rw [Node.tokens_entries]
        exact List.map_id _
      dsimp only
      rw [List.map_append, htokens]
      refine List.nodup_append.mpr ⟨node.nodup_inside h, List.nodup_singleton _, ?_⟩
      rintro ts hts _ hroot rfl
      rw [List.mem_singleton.mp hroot] at hts
      exact node.nil_not_mem_inside hts

end Stencil
