import Mathlib.Data.List.Forall2
import Stencil.Proofs.StackDiscipline

/-!
# Two extractions side by side

What a change of the options, or a signal, does to an extraction is said by comparing two
extractions of one root. Both are run as machines and take their steps together: they have
the same stack, the same files are open with the same demands still to be met, and both
make the same calls. The tables need not hold the same values, nor need the same have been
written; a `Comparison` says how these compare.

A step keeps this up, whatever the comparison, if it is `Kept` by the two settings and the
two machines get the same replies to the call that the step makes, if it makes one. The
first is about values and can be seen for one template on its own; the second is about
files and can be seen for one call.
-/

namespace Stencil

/-- How two extractions compare: in what their files give, in what they have written, and in
their watches. -/
structure Comparison where
  value : Assembled → Assembled → Prop
  ledger : Ledger → Ledger → Prop
  watch : Watch → Watch → Prop

/-- The value and the map of an extraction. -/
def Extraction.assembled (e : Extraction) : Assembled := ⟨e.value, e.map⟩

theorem Extraction.ext_assembled {e e' : Extraction} (h : e.assembled = e'.assembled)
    (hledger : e.ledger = e'.ledger) : e = e' := by
  obtain ⟨value, map, l⟩ := e
  obtain ⟨value', map', l'⟩ := e'
  cases h
  cases hledger
  rfl

/-- The watch as it stands. -/
def State.watch : State → Watch
  | .running _ _ _ w => w
  | .ended _ out => out.watch

namespace Comparison

variable (c : Comparison)

/-- Whether two tables know the same links, with values that compare. -/
def Tables (t t' : Table) : Prop :=
  ∀ n, Option.Rel c.value (Assoc.find? n t) (Assoc.find? n t')

/-- Whether two machines are equally far with a file. -/
structure Frames (f f' : Frame) : Prop where
  path : f'.path = f.path
  tokens : f'.tokens = f.tokens
  pending : f'.pending = f.pending
  table : c.Tables f.table f'.table
  ledger : c.ledger f.ledger f'.ledger

/-- Whether the same call is waiting in two machines. -/
structure Callers (a a' : Waiting) : Prop where
  frame : c.Frames a.frame a'.frame
  directive : a'.directive = a.directive
  link : a'.link = a.link

/-- Whether two machines are equally far. -/
inductive States : State → State → Prop
  | running {stack : ActiveStack} {f f' : Frame} {callers callers' : List Waiting} {w w' : Watch}
      (htop : c.Frames f f') (hcallers : List.Forall₂ c.Callers callers callers')
      (hwatch : c.watch w w') :
      States (.running stack f callers w) (.running stack f' callers' w')
  | ended {stack : ActiveStack} {out out' : Outcome Assembled}
      (hvalue : c.value out.value out'.value) (hledger : c.ledger out.ledger out'.ledger)
      (hwatch : c.watch out.watch out'.watch) : States (.ended stack out) (.ended stack out')

/-- Whether two parts of a run give the same, and write what compares. -/
structure Alike (out out' : Outcome α) : Prop where
  value : out'.value = out.value
  ledger : c.ledger out.ledger out'.ledger
  watch : c.watch out.watch out'.watch

/-- Whether templates whose links gave what compares give what compares in their turn. -/
structure Kept (s s' : Setting) : Prop where
  refl : ∀ a, c.value a a
  append : ∀ {a a' b b'}, c.ledger a a' → c.ledger b b' → c.ledger (a ++ b) (a' ++ b')
  counts : ∀ tokens, c.ledger (Setting.counts tokens) (Setting.counts tokens)
  record : ∀ {a a'} (referrer : Path) (d : Directive) (link : Link) (path : Path)
    (isRecursive : Bool), c.value a a' →
      c.ledger { imports := [Setting.record referrer d link ⟨path, isRecursive, a⟩] }
        { imports := [Setting.record referrer d link ⟨path, isRecursive, a'⟩] }
  own : ∀ {f f' : Frame} (demand : Demand), c.Frames f f' →
    c.ledger { problems := (f.scope s).ownProblems f.table demand }
      { problems := (f'.scope s').ownProblems f'.table demand }
  assembled : ∀ {f f' : Frame}, c.Frames f f' → c.value (f.assembled s) (f'.assembled s')

variable {c} {s s' : Setting} {t t' : Table} {f f' : Frame}

/-! ## Tables and frames -/

theorem tables_nil : c.Tables [] [] := fun _ => .none

theorem Tables.insert {a a' : Assembled} (h : c.Tables t t') (n : Nat) (ha : c.value a a') :
    c.Tables (Assoc.insert n a t) (Assoc.insert n a' t') := by
  intro m
  rw [Assoc.find?_insert, Assoc.find?_insert]
  split
  · exact .some ha
  · exact h m

theorem Tables.isSome_eq (h : c.Tables t t') (n : Nat) :
    (Assoc.find? n t').isSome = (Assoc.find? n t).isSome := by
  have hn := h n
  revert hn
  generalize Assoc.find? n t = a
  generalize Assoc.find? n t' = a'
  rintro (- | -) <;> rfl

/-- With tables that know the same links, a directive stands for two values of one link, or for one
thing in both. -/
theorem Tables.seen_cases (h : c.Tables t t') (hnothing : c.value .nothing .nothing) (scope : Scope)
    (d : Directive) :
    (∃ a a', c.value a a' ∧ scope.seen t d = (a.value, some a.map) ∧
      scope.seen t' d = (a'.value, some a'.map)) ∨ scope.seen t' d = scope.seen t d := by
  unfold Scope.seen
  cases scope.linkOf? d with
  | none => exact Or.inr rfl
  | some found =>
      refine Or.inl ⟨_, _, ?_, rfl, rfl⟩
      have hfound := h found.1.number
      revert hfound
      generalize Assoc.find? found.1.number t = a
      generalize Assoc.find? found.1.number t' = a'
      rintro (hvalue | -)
      · exact hvalue
      · exact hnothing

section Values

variable (h : c.Tables t t') (hnothing : c.value .nothing .nothing)
  (hvalue : ∀ a a', c.value a a' → a'.value = a.value)

include h hnothing hvalue

theorem Tables.ownProblems_eq (scope : Scope) (demand : Demand) :
    scope.ownProblems t' demand = scope.ownProblems t demand := by
  cases demand with
  | value d => rfl
  | members d =>
      simp only [Scope.ownProblems]
      rcases h.seen_cases hnothing scope d with ⟨a, a', ha, hseen, hseen'⟩ | hseen
      · -- Whether something can be spread does not depend on its map, only on having one.
        rw [hseen, hseen', hvalue a a' ha]
        cases a.value <;> rfl
      · rw [hseen]
  | fault f => rfl

theorem Tables.read_eq (scope : Scope) (draft : Draft) :
    draft.read (scope.seen t') = draft.read (scope.seen t) := by
  have hvalues (d : Directive) : (scope.seen t' d).1 = (scope.seen t d).1 := by
    rcases h.seen_cases hnothing scope d with ⟨a, a', ha, hseen, hseen'⟩ | hseen
    · rw [hseen, hseen', hvalue a a' ha]
    · rw [hseen]
  unfold Draft.read
  split
  · rfl
  · exact Node.read_congr _ fun _ _ d _ => hvalues d

end Values

theorem Frames.scope_eq (h : c.Frames f f')
    (hgiven : s'.options.defaultValues = s.options.defaultValues) : f'.scope s' = f.scope s := by
  unfold Frame.scope Setting.scope
  rw [h.path, h.tokens, hgiven]

theorem Frames.wanted?_eq (h : c.Frames f f') (demand : Demand) :
    (f'.scope s').wanted? f'.table demand = (f.scope s).wanted? f.table demand := by
  obtain ⟨path, tokens, t, pending, ledger⟩ := f
  obtain ⟨path', tokens', t', pending', ledger'⟩ := f'
  obtain ⟨rfl, rfl, -, htable, -⟩ := h
  show (Option.bind _ fun asked => Option.bind (Scope.linkOf? _ asked) _) =
    Option.bind _ fun asked => Option.bind (Scope.linkOf? _ asked) _
  simp only [htable.isSome_eq]
  rfl

theorem Frames.wanted?_frame_eq (h : c.Frames f f') : f'.wanted? s' = f.wanted? s := by
  unfold Frame.wanted?
  rw [h.pending]
  exact congrArg (Option.bind _) (funext fun demand => h.wanted?_eq demand)

theorem frames_ofTokens (hc : c.Kept s s') (path : Path) (tokens : List Token) :
    c.Frames (.ofTokens path tokens) (.ofTokens path tokens) :=
  ⟨rfl, rfl, rfl, tables_nil, hc.counts tokens⟩

theorem Frames.preface (hc : c.Kept s s') (h : c.Frames f f') {l l' : Ledger}
    (hl : c.ledger l l') : c.Frames (f.preface l) (f'.preface l') :=
  ⟨h.path, h.tokens, h.pending, h.table, hc.append hl h.ledger⟩

/-- A call that has been replied to is taken down alike. -/
theorem Callers.resume (hc : c.Kept s s') {a a' : Waiting} (h : c.Callers a a')
    {value value' : Assembled} (hvalue : c.value value value') (path : Path) (isRecursive : Bool)
    {l l' : Ledger} (hl : c.ledger l l') :
    c.Frames (a.resume ⟨path, isRecursive, value⟩ l)
      (a'.resume ⟨path, isRecursive, value'⟩ l') := by
  obtain ⟨⟨referrer, tokens, t, pending, ledger⟩, d, link⟩ := a
  obtain ⟨⟨referrer', tokens', t', pending', ledger'⟩, d', link'⟩ := a'
  obtain ⟨⟨rfl, rfl, rfl, htable, hledger⟩, rfl, rfl⟩ := h
  exact ⟨rfl, rfl, rfl, htable.insert _ hvalue,
    hc.append hledger (hc.append (hc.record _ _ _ path isRecursive hvalue) hl)⟩

end Comparison

/-! ## Steps -/

namespace Setting

/-- Whether a machine is about to call for a link. -/
def Calls (s : Setting) (x : State) (stack : ActiveStack) (referrer : Path) (d : Directive)
    (link : Link) (w : Watch) : Prop :=
  ∃ f callers, x = .running stack f callers w ∧ f.path = referrer ∧ f.wanted? s = some (d, link)

variable {s : Setting}

theorem exists_of_openText {path : Path} {text : String} {w : Watch} {f : Frame}
    (h : (openText path text w).value = some f) :
    f = .ofTokens path (Scan.ofText text).tokens := by
  cases hscan : (Scan.ofText text).error with
  | some error =>
      rw [openText_error hscan] at h
      cases h
  | none =>
      rw [openText_ok hscan] at h
      exact (Option.some.inj h).symm

/-- Opening a text leads nowhere, so that there is no problem of a cycle or of depth. -/
theorem kind_openText (path : Path) (text : String) (w : Watch) :
    ∀ p ∈ (openText path text w).ledger.problems, p.kind ≠ .circularImport := by
  intro p hp
  cases hscan : (Scan.ofText text).error with
  | some error =>
      rw [openText_error hscan] at hp
      rw [List.mem_singleton.mp hp]
      exact Problem.Kind.noConfusion
  | none =>
      rw [openText_ok hscan] at hp
      cases hp

/-- A file that a call opens has had nothing done for it. -/
theorem exists_of_call_opened {stack : ActiveStack} {referrer : Path} {d : Directive} {link : Link}
    {w : Watch} {f : Frame} (h : (s.call stack referrer d link w).value = .opened f) :
    ∃ path text, f = .ofTokens path (Scan.ofText text).tokens := by
  have hreplies := s.call_replies stack referrer d link w
  generalize s.call stack referrer d link w = out at h hreplies
  cases hreplies with
  | file path text =>
      cases hopened : (openText path text (Run.read s.loader s.signal path w).watch).value with
      | none =>
          simp only [hopened, Reply.ofOpened] at h
          cases h
      | some g =>
          simp only [hopened, Reply.ofOpened] at h
          cases h
          exact ⟨path, text, exists_of_openText hopened⟩
  | _ => cases h

theorem exists_of_openRoot {root : Path} {text? : Option String} {w : Watch} {f : Frame}
    (h : (s.openRoot root text? w).value = some f) :
    ∃ path text, f = .ofTokens path (Scan.ofText text).tokens := by
  rcases s.openRoot_cases root text? w 0 with ⟨l, w', hopen, -⟩ | ⟨path, text, w', hopen, -⟩
  · rw [hopen] at h
    cases h
  · rw [hopen] at h
    exact ⟨path, text, exists_of_openText h⟩

/-- A machine that has ended stays where it is. -/
theorem iterate_step_ended (s : Setting) (stack : ActiveStack) (out : Outcome Assembled) (n : Nat) :
    s.step^[n] (.ended stack out) = .ended stack out := by
  induction n with
  | zero => rfl
  | succ n ih =>
      rw [Function.iterate_succ_apply]
      exact ih

theorem ended_of_le {x : State} {stack : ActiveStack} {out : Outcome Assembled} {n m : Nat}
    (h : s.step^[n] x = .ended stack out) (hle : n ≤ m) : s.step^[m] x = .ended stack out := by
  obtain ⟨k, rfl⟩ := Nat.exists_eq_add_of_le' hle
  rw [Function.iterate_add_apply, h, iterate_step_ended]

/-- A machine ends in one way. -/
theorem ended_unique {x : State} {stack stack' : ActiveStack} {out out' : Outcome Assembled}
    {n m : Nat} (h : s.step^[n] x = .ended stack out) (h' : s.step^[m] x = .ended stack' out') :
    out = out' := by
  have hmax := ended_of_le h (le_max_left n m)
  rw [ended_of_le h' (le_max_right n m)] at hmax
  injection hmax with _ hout
  exact hout.symm

end Setting

namespace Comparison

variable {c : Comparison} {s s' : Setting} {x x' : State} {root : Path} {text? : Option String}

/-- Two machines that are equally far, and that get the same reply to the call they make, if they
make one, are equally far a step later. -/
theorem States.step (hc : c.Kept s s') (h : c.States x x')
    (hcall : ∀ stack referrer d link w w', s.Calls x stack referrer d link w → x'.watch = w' →
      c.watch w w' →
      c.Alike (s.call stack referrer d link w) (s'.call stack referrer d link w')) :
    c.States (s.step x) (s'.step x') := by
  cases h with
  | ended hvalue hledger hwatch => exact .ended hvalue hledger hwatch
  | @running stack f f' callers callers' w w' htop hcallers hwatch =>
      have hwanted' : f'.wanted? s' = f.wanted? s := htop.wanted?_frame_eq
      cases hwanted : f.wanted? s with
      | some found =>
          obtain ⟨d, link⟩ := found
          have hout := hcall stack f.path d link w w' ⟨f, callers, rfl, rfl, hwanted⟩ rfl hwatch
          rw [Setting.step_call hwanted, Setting.step_call (hwanted'.trans hwanted), htop.path]
          dsimp only
          rw [hout.value]
          cases hreply : (s.call stack f.path d link w).value with
          | back r =>
              have hcaller : c.Callers ⟨f, d, link⟩ ⟨f', d, link⟩ := ⟨htop, rfl, rfl⟩
              exact .running (hcaller.resume hc (hc.refl _) _ _ hout.ledger) hcallers hout.watch
          | opened g =>
              obtain ⟨path, text, rfl⟩ := Setting.exists_of_call_opened hreply
              exact .running ((frames_ofTokens hc path _).preface hc hout.ledger)
                (.cons ⟨htop, rfl, rfl⟩ hcallers) hout.watch
      | none =>
          cases hpending : f.pending with
          | nil =>
              have hpending' : f'.pending = [] := htop.pending.trans hpending
              cases hcallers with
              | nil =>
                  rw [Setting.step_end hpending, Setting.step_end hpending']
                  exact .ended (hc.assembled htop) htop.ledger hwatch
              | cons hcaller hrest =>
                  rw [Setting.step_return hpending, Setting.step_return hpending', htop.path]
                  exact .running (hcaller.resume hc (hc.assembled htop) _ _ htop.ledger) hrest
                    hwatch
          | cons demand rest =>
              have hpending' : f'.pending = demand :: rest := htop.pending.trans hpending
              rw [Frame.wanted?, hpending] at hwanted
              have hmet' : (f'.scope s').wanted? f'.table demand = none :=
                (htop.wanted?_eq demand).trans hwanted
              rw [Setting.step_met hpending hwanted, Setting.step_met hpending' hmet']
              exact .running ⟨htop.path, htop.tokens, rfl, htop.table,
                hc.append htop.ledger (hc.own demand htop)⟩ hcallers hwatch

/-- Two machines that open the root alike start equally far. -/
theorem states_start (hc : c.Kept s s')
    (hopen : c.Alike (s.openRoot root text? (Run.initialWatch s.signal))
      (s'.openRoot root text? (Run.initialWatch s'.signal))) :
    c.States (s.start root text?) (s'.start root text?) := by
  unfold Setting.start
  dsimp only
  rw [hopen.value]
  cases hopened : (s.openRoot root text? (Run.initialWatch s.signal)).value with
  | none => exact .ended (hc.refl _) hopen.ledger hopen.watch
  | some f =>
      obtain ⟨path, text, rfl⟩ := Setting.exists_of_openRoot hopened
      exact .running ((frames_ofTokens hc path _).preface hc hopen.ledger) .nil hopen.watch

/-- Whether the machines of two settings are equally far all the time. -/
def Abreast (c : Comparison) (s s' : Setting) (root : Path) (text? : Option String) : Prop :=
  ∀ n, c.States (s.step^[n] (s.start root text?)) (s'.step^[n] (s'.start root text?))

/-- Machines that are equally far when one has ended end in what compares. -/
theorem run_alike_of_ended {stack : ActiveStack} {out : Outcome Assembled} {n : Nat}
    (hended : s.step^[n] (s.start root text?) = .ended stack out)
    (h : c.States (s.step^[n] (s.start root text?)) (s'.step^[n] (s'.start root text?))) :
    c.value (Extraction.run s root text?).assembled (Extraction.run s' root text?).assembled ∧
      c.ledger (Extraction.run s root text?).ledger (Extraction.run s' root text?).ledger := by
  obtain ⟨m, hm⟩ := s.exists_iterate_step_eq root text?
  obtain ⟨m', hm'⟩ := s'.exists_iterate_step_eq root text?
  obtain rfl := Setting.ended_unique hended hm
  rw [hended] at h
  generalize hx : s'.step^[n] (s'.start root text?) = x at h
  cases h with
  | ended hvalue hledger hwatch =>
      rw [Setting.ended_unique hx hm'] at hvalue hledger
      exact ⟨hvalue, hledger⟩

theorem Abreast.run_alike (h : c.Abreast s s' root text?) :
    c.value (Extraction.run s root text?).assembled (Extraction.run s' root text?).assembled ∧
      c.ledger (Extraction.run s root text?).ledger (Extraction.run s' root text?).ledger := by
  obtain ⟨n, hn⟩ := s.exists_iterate_step_eq root text?
  exact run_alike_of_ended hn (h n)

/-- Two machines that open the root alike, and get the same reply to every call, are equally far
all the time. -/
theorem abreast_of_calls (hc : c.Kept s s')
    (hopen : c.Alike (s.openRoot root text? (Run.initialWatch s.signal))
      (s'.openRoot root text? (Run.initialWatch s'.signal)))
    (hcall : ∀ stack referrer d link w w', c.watch w w' →
      c.Alike (s.call stack referrer d link w) (s'.call stack referrer d link w')) :
    c.Abreast s s' root text? := by
  intro n
  induction n with
  | zero => exact states_start hc hopen
  | succ n ih =>
      rw [Function.iterate_succ_apply', Function.iterate_succ_apply']
      exact ih.step hc fun stack referrer d link w w' _ _ => hcall stack referrer d link w w'

end Comparison

/-! ## Ledgers with something left out -/

/-- A record as it is whatever the link gave. -/
def ImportRecord.withoutValue (r : ImportRecord) : ImportRecord := { r with value := .null }

namespace Ledger

/-- A ledger as it is whatever the links gave. -/
def withoutValues (l : Ledger) : Ledger :=
  { l with imports := l.imports.map ImportRecord.withoutValue }

theorem withoutValues_append (a b : Ledger) :
    (a ++ b).withoutValues = a.withoutValues ++ b.withoutValues := by
  show (⟨List.map _ (a.imports ++ b.imports), _, _, _, _, _⟩ : Ledger) = _
  rw [List.map_append]
  rfl

theorem length_imports_of_withoutValues {a b : Ledger} (h : a.withoutValues = b.withoutValues) :
    a.imports.length = b.imports.length := by
  have himports := congrArg (List.length ∘ Ledger.imports) h
  simpa only [Function.comp_apply, withoutValues, List.length_map] using himports

/-- A ledger without the problems that are hidden. -/
def dropping (hidden : Problem → Bool) (l : Ledger) : Ledger :=
  { l with problems := l.problems.filter fun p => !hidden p }

theorem dropping_append (hidden : Problem → Bool) (a b : Ledger) :
    (a ++ b).dropping hidden = a.dropping hidden ++ b.dropping hidden := by
  show (⟨_, List.filter _ (a.problems ++ b.problems), _, _, _, _⟩ : Ledger) = _
  rw [List.filter_append]
  rfl

theorem dropping_eq_self {hidden : Problem → Bool} {l : Ledger}
    (h : ∀ p ∈ l.problems, hidden p = false) : l.dropping hidden = l := by
  have hkept : l.problems.filter (fun p => !hidden p) = l.problems :=
    List.filter_eq_self.mpr fun p hp => by rw [h p hp]; rfl
  rw [dropping, hkept]

end Ledger

/-! ## Extractions with the same values -/

namespace Comparison

variable {s s' : Setting} {hidden : Problem → Bool} {watch : Watch → Watch → Prop}

/-- Two extractions that give the same values and maps, and write the same but for the problems
that one of them hides. -/
def dropping (hidden : Problem → Bool) (watch : Watch → Watch → Prop) : Comparison where
  value a a' := a' = a
  ledger l l' := l' = l.dropping hidden
  watch := watch

section Hidden

variable (hhidden : ∀ p, hidden p = true → p.kind = .circularImport)

include hhidden

theorem dropping_eq_self {l : Ledger} (h : ∀ p ∈ l.problems, p.kind ≠ .circularImport) :
    l.dropping hidden = l := by
  refine Ledger.dropping_eq_self fun p hp => ?_
  rw [← Bool.not_eq_true]
  exact fun hp' => h p hp (hhidden p hp')

/-- What is hidden is no problem of a template itself. -/
theorem kept_dropping (hgiven : s'.options.defaultValues = s.options.defaultValues)
    (hmap : s'.options.buildSourceMap = s.options.buildSourceMap) :
    (dropping hidden watch).Kept s s' where
  refl _ := rfl
  append := by
    rintro a _ b _ rfl rfl
    exact (Ledger.dropping_append hidden a b).symm
  counts _ := rfl
  record := by
    rintro a _ referrer d link path isRecursive rfl
    rfl
  own := by
    intro f f' demand h
    show ({ problems := _ } : Ledger) = _
    rw [h.scope_eq hgiven, h.table.ownProblems_eq rfl (fun _ _ => congrArg Assembled.value)]
    refine (dropping_eq_self hhidden fun p hp => ?_).symm
    rw [Scope.kind_ownProblems _ _ _ p hp]
    exact Problem.Kind.noConfusion
  assembled := by
    intro f f' h
    have hseen : (f.scope s).seen f'.table = (f.scope s).seen f.table := by
      funext d
      rcases h.table.seen_cases rfl (f.scope s) d with ⟨a, _, rfl, hseen, hseen'⟩ | hseen
      · rw [hseen, hseen']
      · exact hseen
    show f'.assembled s' = f.assembled s
    unfold Frame.assembled Setting.reading
    rw [h.scope_eq hgiven, h.tokens, hseen, hmap]

theorem alike_openText (path : Path) (text : String) {w w' : Watch} (hw : watch w w') :
    (dropping hidden watch).Alike (Setting.openText path text w)
      (Setting.openText path text w') := by
  have hsame := dropping_eq_self hhidden (Setting.kind_openText path text w)
  cases hscan : (Scan.ofText text).error with
  | some error =>
      rw [Setting.openText_error hscan] at hsame ⊢
      rw [Setting.openText_error hscan]
      exact ⟨rfl, hsame.symm, hw⟩
  | none =>
      rw [Setting.openText_ok hscan, Setting.openText_ok hscan]
      exact ⟨rfl, rfl, hw⟩

/-- Nothing is hidden when the root is opened. -/
theorem alike_openRoot (hloader : s'.loader = s.loader) {root : Path} {text? : Option String}
    (hplace : s'.options.placeOf root = s.options.placeOf root) {w w' : Watch} (hw : watch w w')
    (hread : ∀ path, watch (Run.read s.loader s.signal path w).watch
      (Run.read s'.loader s'.signal path w').watch) :
    (dropping hidden watch).Alike (s.openRoot root text? w) (s'.openRoot root text? w') := by
  have hfail (path : Path) (cause : Problem.Cause) (hkind : cause.kind ≠ .circularImport)
      (l : List Dependency) :
      ({ dependencies := l, problems := [.ofFile cause path] } : Ledger) =
        Ledger.dropping hidden { dependencies := l, problems := [.ofFile cause path] } := by
    refine (dropping_eq_self hhidden fun p hp => ?_).symm
    rw [List.mem_singleton.mp hp]
    exact hkind
  unfold Setting.openRoot
  rw [hplace, hloader]
  cases s.loader.canonicalize (s.options.placeOf root) with
  | error error =>
      match text? with
      | some text => exact alike_openText hhidden _ text hw
      | none => exact ⟨rfl, hfail _ _ Problem.Kind.noConfusion _, hw⟩
  | ok path =>
      match text? with
      | some text => exact alike_openText hhidden path text hw
      | none =>
          have hread := hread path
          rw [hloader] at hread
          simp only [Run.bind_apply, Run.read, Ledger.empty_append] at hread ⊢
          cases s.loader.read path with
          | error error => exact ⟨rfl, hfail _ _ Problem.Kind.noConfusion _, hread⟩
          | ok text => exact alike_openText hhidden path text hread

end Hidden

/-- An extraction that hides problems of another is that one without them. -/
theorem run_eq_dropping {root : Path} {text? : Option String}
    (h : (dropping hidden watch).Abreast s s' root text?) :
    Extraction.run s' root text? =
      { Extraction.run s root text? with
        ledger := (Extraction.run s root text?).ledger.dropping hidden } := by
  obtain ⟨hvalue, hledger⟩ := h.run_alike
  exact Extraction.ext_assembled hvalue hledger

/-- Two extractions that give and write the same. -/
abbrev same (watch : Watch → Watch → Prop) : Comparison := dropping (fun _ => false) watch

theorem hides_nothing (p : Problem) : false = true → p.kind = .circularImport := fun h => by cases h

theorem ledger_same {l l' : Ledger} : (same watch).ledger l l' ↔ l' = l := by
  have hl : l.dropping (fun _ => false) = l := Ledger.dropping_eq_self fun _ _ => rfl
  show l' = l.dropping _ ↔ l' = l
  rw [hl]

theorem run_eq_of_same {root : Path} {text? : Option String}
    (h : (same watch).Abreast s s' root text?) :
    Extraction.run s' root text? = Extraction.run s root text? := by
  obtain ⟨hvalue, hledger⟩ := h.run_alike
  exact Extraction.ext_assembled hvalue (ledger_same.mp hledger)

end Comparison

end Stencil
