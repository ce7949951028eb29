import Mathlib.Data.Finset.Basic
import Mathlib.Logic.Function.Iterate
import Stencil.Proofs.ImportCycles

/-!
# The stack of files that are being assembled

An extraction is defined by recursion on the depth that is left, and the trail is an
argument of it. Run as a machine it has neither: there is one stack of files, a file is
pushed on it before its demands are met and popped when they are met, and whether a link
leads back or too deep is asked of the stack. This file has that machine, step by step.

`call_returns` says that a link followed at some depth is a call that returns: the
machine comes back to the stack and the callers it had, with what following gives, and
until then the call is waiting below whatever is done. It is proved by induction on the
depth, with the demands of a file met one by one inside. So the machine ends, with the
extraction as its outcome. What holds of the stack at every step is an invariant of one
step: a file is only pushed if it is not a member, the stack does not exceed the limit,
and the file has a canonical path, so it is on the shelf.
-/

namespace Stencil

/-- The files that are being assembled, root first, and the set of them. -/
structure ActiveStack where
  paths : List Path
  members : Finset Path

namespace ActiveStack

def empty : ActiveStack := ⟨[], ∅⟩

def push (a : ActiveStack) (path : Path) : ActiveStack :=
  ⟨a.paths ++ [path], insert path a.members⟩

def pop (a : ActiveStack) : ActiveStack :=
  match a.paths.getLast? with
  | none => a
  | some path => ⟨a.paths.dropLast, a.members.erase path⟩

structure Sound (a : ActiveStack) : Prop where
  nodup : a.paths.Nodup
  members : a.members = a.paths.toFinset

variable {a : ActiveStack} {path : Path}

theorem sound_empty : empty.Sound := ⟨List.nodup_nil, rfl⟩

theorem Sound.mem_iff (h : a.Sound) : path ∈ a.members ↔ path ∈ a.paths := by
  rw [h.members, List.mem_toFinset]

theorem Sound.push (h : a.Sound) (hmem : path ∉ a.members) : (a.push path).Sound where
  nodup := by
    rw [h.mem_iff] at hmem
    rw [ActiveStack.push, List.nodup_append]
    refine ⟨h.nodup, List.nodup_singleton path, fun p hp q hq heq => ?_⟩
    rw [List.mem_singleton.mp hq] at heq
    exact hmem (heq ▸ hp)
  members := by
    ext p
    rw [ActiveStack.push, Finset.mem_insert, h.mem_iff, List.mem_toFinset, List.mem_append,
      List.mem_singleton, or_comm]

theorem pop_push (hmem : path ∉ a.members) : (a.push path).pop = a := by
  simp only [pop, push, List.getLast?_concat, List.dropLast_concat, Finset.erase_insert hmem]

theorem paths_pop (a : ActiveStack) : a.pop.paths = a.paths.dropLast := by
  rcases List.eq_nil_or_concat' a.paths with hnil | ⟨rest, path, hpaths⟩
  · simp [pop, hnil]
  · simp [pop, hpaths]

theorem Sound.pop (h : a.Sound) : a.pop.Sound := by
  refine ⟨?_, ?_⟩
  · rw [paths_pop]
    exact h.nodup.sublist (List.dropLast_sublist _)
  · rcases List.eq_nil_or_concat' a.paths with hnil | ⟨rest, path, hpaths⟩
    · simp [ActiveStack.pop, hnil, h.members]
    · have hnodup := h.nodup
      rw [hpaths, List.nodup_append] at hnodup
      have hmem : path ∉ rest := fun hp => hnodup.2.2 path hp path (List.mem_singleton_self _) rfl
      ext p
      by_cases hp : p = path
      · simp [ActiveStack.pop, hpaths, hp, hmem]
      · simp [ActiveStack.pop, hpaths, h.mem_iff, hp]

end ActiveStack

/-! ## The machine -/

/-- A file that is being assembled: what its links gave so far, the demands that are still to be
met, and what has been written. -/
structure Frame where
  path : Path
  tokens : List Token
  table : Table
  pending : List Demand
  ledger : Ledger

/-- A file that has called for a link and waits. -/
structure Waiting where
  frame : Frame
  directive : Directive
  link : Link

inductive State where
  | running (stack : ActiveStack) (top : Frame) (callers : List Waiting) (watch : Watch)
  | ended (stack : ActiveStack) (outcome : Outcome Assembled)

/-- What a call for a link comes to at once. -/
inductive Reply where
  | back (f : Followed)
  | opened (frame : Frame)

/-- The reply of a file that has been read; one that cannot be scanned gives nothing. -/
def Reply.ofOpened (path : Path) : Option Frame → Reply
  | none => .back ⟨path, false, .nothing⟩
  | some frame => .opened frame

/-- The link that has to be followed before a demand can be met. -/
def Scope.wanted? (s : Scope) (t : Table) (demand : Demand) : Option (Directive × Link) := do
  let asked ← demand.directive?
  let found ← s.linkOf? asked
  if (Assoc.find? found.1.number t).isSome then none else some found

namespace Frame

def ofTokens (path : Path) (tokens : List Token) : Frame :=
  ⟨path, tokens, [], Setting.demands tokens, Setting.counts tokens⟩

/-- The names and given values of a file; links are not followed through it. -/
def scope (s : Setting) (f : Frame) : Scope := s.scope f.path f.tokens fun _ _ => pure .nothing

def wanted? (s : Setting) (f : Frame) : Option (Directive × Link) :=
  f.pending.head?.bind ((f.scope s).wanted? f.table)

def assembled (s : Setting) (f : Frame) : Assembled := s.reading (f.scope s) f.tokens f.table

def met (f : Frame) (t : Table) (l : Ledger) : Frame :=
  { f with table := t, pending := [], ledger := f.ledger ++ l }

/-- Writes in front of all that has been written. -/
def preface (f : Frame) (l : Ledger) : Frame := { f with ledger := l ++ f.ledger }

def write (f : Frame) (l : Ledger) : Frame := { f with ledger := f.ledger ++ l }

/-- Takes down what a link gave. -/
def learn (f : Frame) (d : Directive) (a : Assembled) : Frame :=
  { f with table := Assoc.insert d.number a f.table }

end Frame

def Waiting.resume (c : Waiting) (f : Followed) (l : Ledger) : Frame :=
  (c.frame.learn c.directive f.assembled).write
    ({ imports := [Setting.record c.frame.path c.directive c.link f] } ++ l)

namespace State

def stack : State → ActiveStack
  | running stack .. => stack
  | ended stack _ => stack

def callers : State → List Waiting
  | running _ _ callers _ => callers
  | ended .. => []

/-- Everything written so far, the file's on top first. -/
def ledgers : State → List Ledger
  | running _ top callers _ => top.ledger :: callers.map fun c => c.frame.ledger
  | ended _ outcome => [outcome.ledger]

end State

namespace Setting

variable (s : Setting)

/-- Opens a text that has been read. -/
def openText (path : Path) (text : String) : Run (Option Frame) := do
  Run.tell (readLedger path text)
  let scan := Scan.ofText text
  match scan.error with
  | some error => do
      Run.report (.ofLocation (.unclosed error) path error.range.first)
      return none
  | none => return some (.ofTokens path scan.tokens)

def openRoot (root : Path) (text? : Option String) : Run (Option Frame) := do
  let place := s.options.placeOf root
  let fail (path : Path) (cause : Problem.Cause) : Run (Option Frame) := do
    Run.tell { dependencies := [.absent path] }
    Run.report (.ofFile cause path)
    return none
  match text?, s.loader.canonicalize place with
  | some text, .error _ => openText place text
  | some text, .ok path => openText path text
  | none, .error error => fail place (.unresolvedRoot error)
  | none, .ok path => do
      match ← Run.read s.loader s.signal path with
      | .error error => fail path (.unreadableRoot error)
      | .ok text => openText path text

/-- Calls for a link of the file on top of the stack. -/
def call (stack : ActiveStack) (referrer : Path) (d : Directive) (link : Link) : Run Reply := do
  let target := s.targetOf referrer link
  let report (cause : Problem.Cause) := Run.report (.ofLocation cause referrer d.range.first)
  match s.loader.canonicalize target with
  | .error error => do
      Run.tell { dependencies := [.absent target] }
      report (.unresolvedLink link.path error)
      return .back ⟨target, false, .nothing⟩
  | .ok path =>
      if path ∈ stack.members then
        if s.options.allowRecursiveImports then return .back ⟨path, true, .nothing⟩
        else
          report (.importCycle (cycle stack.paths path))
          return .back ⟨path, true, .nothing⟩
      else if s.options.maxImportDepth < stack.paths.length then
        report (.tooDeep link.path stack.paths.length s.options.maxImportDepth)
        return .back ⟨path, false, .nothing⟩
      else
        let watch ← Run.watch
        if watch.raised then
          if watch.reported then return .back ⟨path, false, .nothing⟩
          else
            Run.noteReported
            report (.cancelled link.path)
            return .back ⟨path, false, .nothing⟩
        else
          match ← Run.read s.loader s.signal path with
          | .error error => do
              Run.tell { dependencies := [.absent path] }
              report (.unreadableLink link.path error)
              return .back ⟨path, false, .nothing⟩
          | .ok text => return .ofOpened path (← openText path text)

def step : State → State
  | .ended stack outcome => .ended stack outcome
  | .running stack top callers watch =>
      match top.pending with
      | [] =>
          match callers with
          | [] => .ended stack.pop ⟨top.assembled s, top.ledger, watch⟩
          | c :: rest =>
              .running stack.pop (c.resume ⟨top.path, false, top.assembled s⟩ top.ledger) rest watch
      | demand :: rest =>
          match (top.scope s).wanted? top.table demand with
          | none =>
              let problems := (top.scope s).ownProblems top.table demand
              .running stack ({ top with pending := rest }.write { problems }) callers watch
          | some (d, link) =>
              let reply := s.call stack top.path d link watch
              let c : Waiting := ⟨top, d, link⟩
              match reply.value with
              | .back f => .running stack (c.resume f reply.ledger) callers reply.watch
              | .opened frame =>
                  .running (stack.push frame.path) (frame.preface reply.ledger) (c :: callers)
                    reply.watch

def start (root : Path) (text? : Option String) : State :=
  let opened := s.openRoot root text? (Run.initialWatch s.signal)
  match opened.value with
  | none => .ended .empty ⟨.nothing, opened.ledger, opened.watch⟩
  | some frame =>
      .running (ActiveStack.empty.push frame.path) (frame.preface opened.ledger) [] opened.watch

end Setting

/-! ## Links that lead too deep -/

namespace Ledger

/-- Whether a ledger speaks of no other depth than `n` where a link leads too deep. -/
def TooDeepAt (n : Nat) (l : Ledger) : Prop :=
  ∀ p ∈ l.problems, ∀ link depth limit, p.cause = .tooDeep link depth limit → depth = n

variable {n : Nat} {a b l : Ledger} {p : Problem}

theorem tooDeepAt_empty (n : Nat) : empty.TooDeepAt n := fun _ h => absurd h List.not_mem_nil

theorem tooDeepAt_single (hl : l.problems = [p])
    (h : ∀ link depth limit, p.cause = .tooDeep link depth limit → depth = n) :
    l.TooDeepAt n := by
  intro q hq
  rw [hl] at hq
  rwa [List.mem_singleton.mp hq]

theorem TooDeepAt.append (ha : a.TooDeepAt n) (hb : b.TooDeepAt n) : (a ++ b).TooDeepAt n :=
  fun p hp => (List.mem_append.mp hp).elim (ha p) (hb p)

theorem tooDeepAt_own {problems : List Problem} (h : ∀ p ∈ problems, p.kind = .parseError) :
    Ledger.TooDeepAt n { problems } := by
  intro p hp link depth limit hcause
  have hkind := h p hp
  rw [Problem.kind, hcause] at hkind
  cases hkind

end Ledger

/-! ## Meeting a demand -/

namespace Scope

variable {s : Scope} {t : Table} {demand : Demand} {d : Directive} {link : Link}

theorem wanted?_eq_some_iff : s.wanted? t demand = some (d, link) ↔
    ∃ asked, demand.directive? = some asked ∧ s.linkOf? asked = some (d, link) ∧
      Assoc.find? d.number t = none := by
  cases hasked : demand.directive? with
  | none => simp [wanted?, hasked]
  | some asked =>
      cases hlink : s.linkOf? asked with
      | none => simp [wanted?, hasked, hlink]
      | some found =>
          cases hfound : Assoc.find? found.1.number t with
          | none =>
              simp only [wanted?, hasked, hlink, hfound, Option.bind_eq_bind, Option.bind_some,
                Option.isSome_none, Bool.false_eq_true, if_false, Option.some.injEq]
              constructor
              · rintro rfl
                exact ⟨asked, rfl, hlink, hfound⟩
              · rintro ⟨_, rfl, h, -⟩
                exact Option.some.inj (hlink.symm.trans h)
          | some a =>
              simp only [wanted?, hasked, hlink, hfound, Option.bind_eq_bind, Option.bind_some,
                Option.isSome_some, if_true, reduceCtorEq, false_iff]
              rintro ⟨_, h, h', hnone⟩
              cases h
              cases hlink.symm.trans h'
              cases hfound.symm.trans hnone

theorem wanted?_insert (h : s.wanted? t demand = some (d, link)) (a : Assembled) :
    s.wanted? (Assoc.insert d.number a t) demand = none := by
  obtain ⟨asked, hasked, hlink, -⟩ := wanted?_eq_some_iff.mp h
  simp [wanted?, hasked, hlink, Assoc.find?_insert]

theorem learn_of_wanted_none {asked : Directive} (hasked : demand.directive? = some asked)
    (h : s.wanted? t demand = none) (w : Watch) : s.learn t asked w = ⟨t, .empty, w⟩ := by
  rcases learn_cases t asked w with ⟨-, hsame⟩ | ⟨d, link, hlink, hnew, -⟩
  · exact hsame
  · rw [wanted?_eq_some_iff.mpr ⟨asked, hasked, hlink, hnew⟩] at h
    cases h

theorem meet_of_wanted_none (h : s.wanted? t demand = none) (w : Watch) :
    s.meet t demand w = ⟨t, { problems := s.ownProblems t demand }, w⟩ := by
  cases demand with
  | value d => rw [meet_value, learn_of_wanted_none rfl h]; rfl
  | members d => rw [meet_members, learn_of_wanted_none rfl h, Ledger.empty_append]
  | fault f => rfl

theorem meet_of_wanted_some (h : s.wanted? t demand = some (d, link)) (w : Watch) :
    s.meet t demand w =
      let out := s.follow d link w
      let next := Assoc.insert d.number out.value t
      ⟨next, out.ledger ++ { problems := s.ownProblems next demand }, out.watch⟩ := by
  obtain ⟨asked, hasked, hlink, hnew⟩ := wanted?_eq_some_iff.mp h
  cases demand with
  | value e =>
      cases hasked
      rw [meet_value, learn_new hlink hnew]
      show _ = (⟨_, _ ++ .empty, _⟩ : Outcome Table)
      rw [Ledger.append_empty]
  | members e =>
      cases hasked
      rw [meet_members, learn_new hlink hnew]
  | fault f => cases hasked

end Scope

namespace Setting

/-! ## What a call comes to -/

variable {s : Setting}

theorem openText_error {path : Path} {text : String} {error : ScanError}
    (h : (Scan.ofText text).error = some error) (w : Watch) :
    openText path text w =
      ⟨none,
        readLedger path text ++
          { problems := [.ofLocation (.unclosed error) path error.range.first] },
        w⟩ := by
  simp only [openText, h, Run.bind_apply, Run.tell_apply, Run.report_apply, Run.pure_apply,
    Ledger.append_empty]

theorem openText_ok {path : Path} {text : String} (h : (Scan.ofText text).error = none)
    (w : Watch) :
    openText path text w =
      ⟨some (.ofTokens path (Scan.ofText text).tokens), readLedger path text, w⟩ := by
  simp only [openText, h, Run.bind_apply, Run.tell_apply, Run.pure_apply, Ledger.append_empty]

variable {stack : ActiveStack} {referrer : Path} {d : Directive} {link : Link} {depth : Nat}

/-- The replies to a call, by what is found out about its link. -/
inductive Replies (s : Setting) (stack : ActiveStack) (referrer : Path) (d : Directive)
    (link : Link) (w : Watch) : Outcome Reply → Prop
  | unresolved (error : LoadError)
      (h : s.loader.canonicalize (s.targetOf referrer link) = .error error) :
      Replies s stack referrer d link w
        ⟨.back ⟨s.targetOf referrer link, false, .nothing⟩,
          { dependencies := [.absent (s.targetOf referrer link)],
            problems := [.ofLocation (.unresolvedLink link.path error) referrer d.range.first] },
          w⟩
  | recursive (path : Path)
      (h : s.loader.canonicalize (s.targetOf referrer link) = .ok path)
      (hmem : path ∈ stack.members) (hallow : s.options.allowRecursiveImports = true) :
      Replies s stack referrer d link w ⟨.back ⟨path, true, .nothing⟩, .empty, w⟩
  | cycle (path : Path)
      (h : s.loader.canonicalize (s.targetOf referrer link) = .ok path)
      (hmem : path ∈ stack.members) (hallow : s.options.allowRecursiveImports = false) :
      Replies s stack referrer d link w
        ⟨.back ⟨path, true, .nothing⟩,
          { problems :=
              [.ofLocation (.importCycle (Setting.cycle stack.paths path)) referrer
                d.range.first] },
          w⟩
  | tooDeep (path : Path)
      (h : s.loader.canonicalize (s.targetOf referrer link) = .ok path)
      (hmem : path ∉ stack.members) (hdeep : s.options.maxImportDepth < stack.paths.length) :
      Replies s stack referrer d link w
        ⟨.back ⟨path, false, .nothing⟩,
          { problems :=
              [.ofLocation (.tooDeep link.path stack.paths.length s.options.maxImportDepth) referrer
                d.range.first] },
          w⟩
  | silent (path : Path)
      (h : s.loader.canonicalize (s.targetOf referrer link) = .ok path)
      (hmem : path ∉ stack.members) (hdeep : ¬ s.options.maxImportDepth < stack.paths.length)
      (hraised : w.raised = true) (hreported : w.reported = true) :
      Replies s stack referrer d link w ⟨.back ⟨path, false, .nothing⟩, .empty, w⟩
  | cancelled (path : Path)
      (h : s.loader.canonicalize (s.targetOf referrer link) = .ok path)
      (hmem : path ∉ stack.members) (hdeep : ¬ s.options.maxImportDepth < stack.paths.length)
      (hraised : w.raised = true) (hreported : w.reported = false) :
      Replies s stack referrer d link w
        ⟨.back ⟨path, false, .nothing⟩,
          { problems := [.ofLocation (.cancelled link.path) referrer d.range.first] },
          { w with reported := true }⟩
  | unreadable (path : Path) (error : LoadError)
      (h : s.loader.canonicalize (s.targetOf referrer link) = .ok path)
      (hmem : path ∉ stack.members) (hdeep : ¬ s.options.maxImportDepth < stack.paths.length)
      (hraised : w.raised = false) (hread : s.loader.read path = .error error) :
      Replies s stack referrer d link w
        ⟨.back ⟨path, false, .nothing⟩,
          { dependencies := [.absent path],
            problems := [.ofLocation (.unreadableLink link.path error) referrer d.range.first] },
          (Run.read s.loader s.signal path w).watch⟩
  | file (path : Path) (text : String)
      (h : s.loader.canonicalize (s.targetOf referrer link) = .ok path)
      (hmem : path ∉ stack.members) (hdeep : ¬ s.options.maxImportDepth < stack.paths.length)
      (hraised : w.raised = false) (hread : s.loader.read path = .ok text) :
      Replies s stack referrer d link w
        (let opened := openText path text (Run.read s.loader s.signal path w).watch
        ⟨.ofOpened path opened.value, opened.ledger, opened.watch⟩)

theorem Replies.call_eq {w : Watch} {out : Outcome Reply}
    (h : s.Replies stack referrer d link w out) : s.call stack referrer d link w = out := by
  cases h with
  | unresolved error hcanon =>
      simp only [call, hcanon, Run.bind_apply, Run.tell_apply, Run.report_apply, Run.pure_apply,
        Ledger.append_empty]
      rfl
  | recursive path hcanon hmem hallow | cycle path hcanon hmem hallow =>
      simp only [call, hcanon, hmem, hallow, if_true]
      rfl
  | tooDeep path hcanon hmem hdeep =>
      simp only [call, hcanon, hmem, hdeep, if_true, if_false]
      rfl
  | silent path hcanon hmem hdeep hraised hreported =>
      simp only [call, hcanon, hmem, hdeep, if_false, Run.watch_bind, hraised, hreported, if_true]
      rfl
  | cancelled path hcanon hmem hdeep hraised hreported =>
      obtain ⟨reads, raised, reported⟩ := w
      cases hraised
      cases hreported
      simp only [call, hcanon, hmem, hdeep, if_false, Run.watch_bind, Bool.false_eq_true]
      rfl
  | unreadable path error hcanon hmem hdeep hraised hread =>
      simp only [call, hcanon, hmem, hdeep, if_false, Run.watch_bind]
      simp only [Run.ite_apply, hraised, Bool.false_eq_true, if_false, Run.bind_apply, Run.read,
        hread]
      rfl
  | file path text hcanon hmem hdeep hraised hread =>
      simp only [call, hcanon, hmem, hdeep, if_false, Run.watch_bind]
      simp only [Run.ite_apply, hraised, Bool.false_eq_true, if_false, Run.bind_apply, Run.read,
        hread, Run.pure_apply, Ledger.append_empty, Ledger.empty_append]

theorem call_replies (s : Setting) (stack : ActiveStack) (referrer : Path) (d : Directive)
    (link : Link) (w : Watch) :
    s.Replies stack referrer d link w (s.call stack referrer d link w) := by
  have hexists : ∃ out, s.Replies stack referrer d link w out := by
    cases hcanon : s.loader.canonicalize (s.targetOf referrer link) with
    | error error => exact ⟨_, .unresolved error hcanon⟩
    | ok path =>
        by_cases hmem : path ∈ stack.members
        · cases hallow : s.options.allowRecursiveImports with
          | true => exact ⟨_, .recursive path hcanon hmem hallow⟩
          | false => exact ⟨_, .cycle path hcanon hmem hallow⟩
        · by_cases hdeep : s.options.maxImportDepth < stack.paths.length
          · exact ⟨_, .tooDeep path hcanon hmem hdeep⟩
          · cases hraised : w.raised with
            | true =>
                cases hreported : w.reported with
                | true => exact ⟨_, .silent path hcanon hmem hdeep hraised hreported⟩
                | false => exact ⟨_, .cancelled path hcanon hmem hdeep hraised hreported⟩
            | false =>
                cases hread : s.loader.read path with
                | error error => exact ⟨_, .unreadable path error hcanon hmem hdeep hraised hread⟩
                | ok text => exact ⟨_, .file path text hcanon hmem hdeep hraised hread⟩
  obtain ⟨out, h⟩ := hexists
  rw [h.call_eq]
  exact h

/-- A call either comes back at once with what following the link gives, or it opens the file
that following assembles. -/
theorem call_cases (hsound : stack.Sound)
    (hdepth : depth + stack.paths.length = s.options.maxImportDepth + 1) (referrer : Path)
    (d : Directive) (link : Link) (w : Watch) :
    (∃ f l w', s.call stack referrer d link w = ⟨.back f, l, w'⟩ ∧
      s.enter stack.paths referrer d link (s.deeper depth) w = ⟨f, l, w'⟩ ∧
      l.TooDeepAt (s.options.maxImportDepth + 1)) ∨
    ∃ n path text w', depth = n + 1 ∧ path ∉ stack.members ∧
      s.loader.canonicalize (s.targetOf referrer link) = .ok path ∧
      (Scan.ofText text).error = none ∧
      s.call stack referrer d link w =
        ⟨.opened (.ofTokens path (Scan.ofText text).tokens), readLedger path text, w'⟩ ∧
      s.enter stack.paths referrer d link (s.deeper depth) w =
        let out := s.assembleText path text (s.follow n (stack.paths ++ [path]) path) w'
        ⟨⟨path, false, out.value⟩, out.ledger, out.watch⟩ := by
  have hreplies := s.call_replies stack referrer d link w
  generalize s.call stack referrer d link w = out at hreplies ⊢
  -- As long as the limit is not reached, there is depth left.
  have hleft (hlimit : ¬ s.options.maxImportDepth < stack.paths.length) :
      ∃ n, depth = n + 1 ∧ s.deeper depth = some (s.follow n) :=
    ⟨depth - 1, by omega, by rw [show depth = depth - 1 + 1 by omega]; rfl⟩
  cases hreplies with
  | unresolved error hcanon =>
      exact Or.inl ⟨_, _, _, rfl, enter_unresolved hcanon,
        Ledger.tooDeepAt_single rfl (by rintro _ _ _ ⟨⟩)⟩
  | recursive path hcanon hmem hallow =>
      rw [hsound.mem_iff] at hmem
      exact Or.inl ⟨_, _, _, rfl, enter_recursive hcanon hmem hallow, Ledger.tooDeepAt_empty _⟩
  | cycle path hcanon hmem hallow =>
      rw [hsound.mem_iff] at hmem
      exact Or.inl ⟨_, _, _, rfl, enter_cycle hcanon hmem hallow,
        Ledger.tooDeepAt_single rfl (by rintro _ _ _ ⟨⟩)⟩
  | tooDeep path hcanon hmem hdeep =>
      rw [hsound.mem_iff] at hmem
      obtain rfl : depth = 0 := by omega
      refine Or.inl ⟨_, _, _, rfl, enter_tooDeep hcanon hmem, Ledger.tooDeepAt_single rfl ?_⟩
      rintro _ _ _ ⟨⟩
      omega
  | silent path hcanon hmem hlimit hraised hreported =>
      rw [hsound.mem_iff] at hmem
      obtain ⟨n, rfl, hnext⟩ := hleft hlimit
      rw [hnext]
      exact Or.inl ⟨_, _, _, rfl, enter_silent hcanon hmem hraised hreported _,
        Ledger.tooDeepAt_empty _⟩
  | cancelled path hcanon hmem hlimit hraised hreported =>
      rw [hsound.mem_iff] at hmem
      obtain ⟨n, rfl, hnext⟩ := hleft hlimit
      rw [hnext]
      exact Or.inl ⟨_, _, _, rfl, enter_cancelled hcanon hmem hraised hreported _,
        Ledger.tooDeepAt_single rfl (by rintro _ _ _ ⟨⟩)⟩
  | unreadable path error hcanon hmem hlimit hraised hread =>
      rw [hsound.mem_iff] at hmem
      obtain ⟨n, rfl, hnext⟩ := hleft hlimit
      rw [hnext]
      exact Or.inl ⟨_, _, _, rfl, enter_unreadable hcanon hmem hraised hread _,
        Ledger.tooDeepAt_single rfl (by rintro _ _ _ ⟨⟩)⟩
  | file path text hcanon hmem hlimit hraised hread =>
      obtain ⟨n, rfl, hnext⟩ := hleft hlimit
      rw [hnext, enter_read hcanon (hsound.mem_iff.not.mp hmem) hraised hread]
      cases hscan : (Scan.ofText text).error with
      | some error =>
          rw [openText_error hscan, assembleText_error s hscan]
          exact Or.inl ⟨_, _, _, rfl, rfl, Ledger.tooDeepAt_single rfl (by rintro _ _ _ ⟨⟩)⟩
      | none =>
          rw [openText_ok hscan]
          exact Or.inr ⟨n, path, text, _, rfl, hmem, hcanon, hscan, rfl, rfl⟩

/-! ## Steps -/

section Steps

variable {f : Frame} {callers : List Waiting} {w : Watch}

theorem step_met {demand : Demand} {rest : List Demand} (hpending : f.pending = demand :: rest)
    (h : (f.scope s).wanted? f.table demand = none) :
    s.step (.running stack f callers w) =
      .running stack
        ({ f with pending := rest }.write { problems := (f.scope s).ownProblems f.table demand })
        callers w := by
  simp only [step, hpending, h]

theorem step_call (h : f.wanted? s = some (d, link)) :
    s.step (.running stack f callers w) =
      let reply := s.call stack f.path d link w
      match reply.value with
      | .back r =>
          .running stack ((⟨f, d, link⟩ : Waiting).resume r reply.ledger) callers reply.watch
      | .opened frame =>
          .running (stack.push frame.path) (frame.preface reply.ledger) (⟨f, d, link⟩ :: callers)
            reply.watch := by
  cases hpending : f.pending with
  | nil =>
      rw [Frame.wanted?, hpending] at h
      cases h
  | cons demand rest =>
      rw [Frame.wanted?, hpending] at h
      have hwanted : (f.scope s).wanted? f.table demand = some (d, link) := h
      simp only [step, hpending, hwanted]

theorem step_return {c : Waiting} (h : f.pending = []) :
    s.step (.running stack f (c :: callers) w) =
      .running stack.pop (c.resume ⟨f.path, false, f.assembled s⟩ f.ledger) callers w := by
  simp only [step, h]

theorem step_end (h : f.pending = []) :
    s.step (.running stack f [] w) = .ended stack.pop ⟨f.assembled s, f.ledger, w⟩ := by
  simp only [step, h]

end Steps

/-! ## Calls return -/

/-- Whether the machine gets from one state to another with some calls waiting all the time. -/
def Reaches (s : Setting) (callers : List Waiting) (x y : State) : Prop :=
  ∃ n, s.step^[n] x = y ∧ ∀ m ≤ n, callers <:+ (s.step^[m] x).callers

/-- Whether the machine gets from a call to a state above which the call is no longer waiting,
and the call has been waiting until then. -/
def Returns (s : Setting) (c : Waiting) (callers : List Waiting) (x y : State) : Prop :=
  ∃ n, s.step^[n + 1] x = y ∧ ∀ m < n, c :: callers <:+ (s.step^[m + 1] x).callers

section Returns

variable {callers : List Waiting} {x y z : State}

theorem Reaches.refl (h : callers <:+ x.callers) : s.Reaches callers x x := by
  refine ⟨0, rfl, fun m hm => ?_⟩
  obtain rfl := Nat.le_zero.mp hm
  exact h

theorem Reaches.trans (h : s.Reaches callers x y) (h' : s.Reaches callers y z) :
    s.Reaches callers x z := by
  obtain ⟨n, rfl, hn⟩ := h
  obtain ⟨k, rfl, hk⟩ := h'
  refine ⟨k + n, Function.iterate_add_apply _ _ _ _, fun m hm => ?_⟩
  rcases Nat.le_total m n with hle | hle
  · exact hn m hle
  · have hlater := hk (m - n) (by omega)
    rwa [← Function.iterate_add_apply, Nat.sub_add_cancel hle] at hlater

theorem reaches_step (h : callers <:+ x.callers) (h' : callers <:+ (s.step x).callers) :
    s.Reaches callers x (s.step x) := by
  refine ⟨1, rfl, fun m hm => ?_⟩
  rcases Nat.le_one_iff_eq_zero_or_eq_one.mp hm with rfl | rfl
  · exact h
  · exact h'

theorem Returns.reaches {c : Waiting} (h : s.Returns c callers x y) (hx : callers <:+ x.callers)
    (hy : callers <:+ y.callers) : s.Reaches callers x y := by
  obtain ⟨n, hn, hwait⟩ := h
  refine ⟨n + 1, hn, fun m hm => ?_⟩
  match m with
  | 0 => exact hx
  | m + 1 =>
      by_cases hlast : m = n
      · rw [hlast, hn]
        exact hy
      · exact (List.suffix_cons c callers).trans (hwait m (by omega))

end Returns

theorem reaches_met {f : Frame} {callers : List Waiting} {w : Watch} {demand : Demand}
    {rest : List Demand} (hpending : f.pending = demand :: rest)
    (h : (f.scope s).wanted? f.table demand = none) :
    s.Reaches callers (.running stack f callers w)
      (.running stack
        ({ f with pending := rest }.write { problems := (f.scope s).ownProblems f.table demand })
        callers w) := by
  rw [← step_met hpending h]
  refine reaches_step (List.suffix_refl callers) ?_
  rw [step_met hpending h]
  exact List.suffix_refl callers

/-- Whether each call that is made with a stack returns to that stack, with what following the
link with `depth` further imports allowed gives. -/
def CallsReturn (s : Setting) (depth : Nat) (stack : ActiveStack) : Prop :=
  ∀ (f : Frame) (callers : List Waiting) (w : Watch) (d : Directive) (link : Link),
    f.wanted? s = some (d, link) →
      let out := s.follow depth stack.paths f.path d link w
      s.Returns ⟨f, d, link⟩ callers (.running stack f callers w)
        (.running stack ((f.learn d out.value).write out.ledger) callers out.watch)

theorem meetAll_reaches (hcalls : s.CallsReturn depth stack) (f : Frame) (callers : List Waiting)
    (w : Watch) :
    let met :=
      (s.scope f.path f.tokens (s.follow depth stack.paths f.path)).meetAll f.table f.pending w
    s.Reaches callers (.running stack f callers w)
      (.running stack (f.met met.value met.ledger) callers met.watch) := by
  obtain ⟨path, tokens, table, pending, ledger⟩ := f
  induction pending generalizing table ledger w with
  | nil =>
      simp only [Scope.meetAll_nil, Frame.met, Ledger.append_empty]
      exact .refl (List.suffix_refl callers)
  | cons demand rest ih =>
      cases hwanted :
          (s.scope path tokens (s.follow depth stack.paths path)).wanted? table demand with
      | none =>
          refine (reaches_met (f := ⟨path, tokens, table, demand :: rest, ledger⟩) rfl
            hwanted).trans ?_
          simp only [Scope.meetAll_cons, Scope.meet_of_wanted_none hwanted, Frame.met,
            ← Ledger.append_assoc]
          exact ih _ _ _
      | some found =>
          -- The link is followed first; then the table has what the demand needs.
          obtain ⟨d, link⟩ := found
          have hcall :=
            hcalls ⟨path, tokens, table, demand :: rest, ledger⟩ callers w d link hwanted
          refine (hcall.reaches (List.suffix_refl callers) (List.suffix_refl callers)).trans ?_
          refine (reaches_met (f := ⟨path, tokens, _, demand :: rest, _⟩) rfl
            (Scope.wanted?_insert hwanted _)).trans ?_
          simp only [Scope.meetAll_cons, Scope.meet_of_wanted_some hwanted, Frame.met,
            ← Ledger.append_assoc]
          exact ih _ _ _

/-- A file that has been opened is assembled. -/
theorem reaches_assembled (hcalls : s.CallsReturn depth stack) {path : Path} {text : String}
    (hscan : (Scan.ofText text).error = none) (callers : List Waiting) (w : Watch) :
    let out := s.assembleText path text (s.follow depth stack.paths path) w
    ∃ f : Frame, f.path = path ∧ f.pending = [] ∧ f.assembled s = out.value ∧
      f.ledger = out.ledger ∧
      s.Reaches callers
        (.running stack
          ((Frame.ofTokens path (Scan.ofText text).tokens).preface (readLedger path text))
          callers w)
        (.running stack f callers out.watch) := by
  rw [assembleText_ok s hscan]
  generalize (Scan.ofText text).tokens = tokens
  have hreaches :
      let met := (s.scope path tokens (s.follow depth stack.paths path)).meetAll []
        (demands tokens) w
      s.Reaches callers
        (.running stack ((Frame.ofTokens path tokens).preface (readLedger path text)) callers w)
        (.running stack
          (((Frame.ofTokens path tokens).preface (readLedger path text)).met met.value met.ledger)
          callers met.watch) :=
    meetAll_reaches hcalls _ callers w
  dsimp only at hreaches ⊢
  generalize (s.scope path tokens _).meetAll [] (demands tokens) w = met at hreaches ⊢
  exact ⟨_, rfl, rfl, rfl, Ledger.append_assoc _ _ _, hreaches⟩

theorem call_returns (hsound : stack.Sound)
    (hdepth : depth + stack.paths.length = s.options.maxImportDepth + 1) :
    s.CallsReturn depth stack := by
  induction depth using Nat.strongRecOn generalizing stack with
  | ind depth ih =>
      intro f callers w d link h
      rw [follow_apply]
      rcases call_cases hsound hdepth f.path d link w with
        ⟨r, l, w', hcall, henter, -⟩ | ⟨n, path, text, w', rfl, hmem, -, hscan, hcall, henter⟩
      · refine ⟨0, ?_, fun m hm => absurd hm (Nat.not_lt_zero m)⟩
        rw [Function.iterate_succ_apply, Function.iterate_zero_apply, step_call h, hcall, henter]
        rfl
      · -- The file that is opened is assembled with the call waiting, and is popped.
        have hpush : n + (stack.push path).paths.length = s.options.maxImportDepth + 1 := by
          simp only [ActiveStack.push, List.length_append, List.length_singleton]
          omega
        have hopen : s.step (.running stack f callers w) =
            .running (stack.push path)
              ((Frame.ofTokens path (Scan.ofText text).tokens).preface (readLedger path text))
              (⟨f, d, link⟩ :: callers) w' := by
          rw [step_call h, hcall]
          rfl
        obtain ⟨g, hpath, hpending, hvalue, hledger, k, hk, hwait⟩ := reaches_assembled
          (ih n (Nat.lt_succ_self n) (hsound.push hmem) hpush) hscan (⟨f, d, link⟩ :: callers) w'
        refine ⟨k + 1, ?_, fun m hm => ?_⟩
        · rw [Function.iterate_succ_apply', Function.iterate_succ_apply, hopen, hk,
            step_return hpending, ActiveStack.pop_push hmem, henter, hpath, hvalue, hledger]
          rfl
        · rw [Function.iterate_succ_apply, hopen]
          exact hwait m (by omega)

/-! ## The root -/

theorem openRoot_cases (s : Setting) (root : Path) (text? : Option String) (w : Watch) (n : Nat) :
    (∃ l w', s.openRoot root text? w = ⟨none, l, w'⟩ ∧
      s.extractRoot root text? w = ⟨.nothing, l, w'⟩ ∧ l.TooDeepAt n) ∨
    ∃ path text w', s.openRoot root text? w = openText path text w' ∧
      s.extractRoot root text? w = s.assembleRoot path text w' := by
  unfold openRoot extractRoot Options.placeOf
  cases s.loader.canonicalize (s.options.basePath.join root).normalize with
  | error error =>
      match text? with
      | some text => exact Or.inr ⟨_, text, w, rfl, rfl⟩
      | none => exact Or.inl ⟨_, _, rfl, rfl, Ledger.tooDeepAt_single rfl (by rintro _ _ _ ⟨⟩)⟩
  | ok path =>
      match text? with
      | some text => exact Or.inr ⟨path, text, w, rfl, rfl⟩
      | none =>
          simp only [Run.bind_apply, Run.read, Ledger.empty_append]
          cases s.loader.read path with
          | error error =>
              exact Or.inl ⟨_, _, rfl, rfl, Ledger.tooDeepAt_single rfl (by rintro _ _ _ ⟨⟩)⟩
          | ok text => exact Or.inr ⟨path, text, _, rfl, rfl⟩

/-- Either the root does not get as far as being assembled, and the extraction gives nothing, or
the machine starts with it. -/
theorem start_cases (s : Setting) (root : Path) (text? : Option String) (n : Nat) :
    (∃ out, s.start root text? = .ended .empty out ∧
      s.extractRoot root text? (Run.initialWatch s.signal) = out ∧ out.ledger.TooDeepAt n) ∨
    ∃ path text w, (Scan.ofText text).error = none ∧
      s.start root text? =
        .running (ActiveStack.empty.push path)
          ((Frame.ofTokens path (Scan.ofText text).tokens).preface (readLedger path text)) [] w ∧
      s.extractRoot root text? (Run.initialWatch s.signal) = s.assembleRoot path text w := by
  unfold start
  rcases s.openRoot_cases root text? (Run.initialWatch s.signal) n with
    ⟨l, w, hopen, hextract, hl⟩ | ⟨path, text, w, hopen, hextract⟩
  · rw [hopen, hextract]
    exact Or.inl ⟨_, rfl, rfl, hl⟩
  · rw [hopen, hextract]
    cases hscan : (Scan.ofText text).error with
    | some error =>
        rw [openText_error hscan, assembleRoot, assembleText_error s hscan]
        exact Or.inl ⟨_, rfl, rfl, Ledger.tooDeepAt_single rfl (by rintro _ _ _ ⟨⟩)⟩
    | none =>
        rw [openText_ok hscan]
        exact Or.inr ⟨path, text, w, hscan, rfl, rfl⟩

/-- The machine ends, with the extraction as its outcome. -/
theorem exists_iterate_step_eq (s : Setting) (root : Path) (text? : Option String) :
    ∃ n, s.step^[n] (s.start root text?) =
      .ended .empty (s.extractRoot root text? (Run.initialWatch s.signal)) := by
  rcases s.start_cases root text? 0 with
    ⟨out, hstart, hextract, -⟩ | ⟨path, text, w, hscan, hstart, hextract⟩
  · rw [hstart, hextract]
    exact ⟨0, rfl⟩
  · have hmem : path ∉ ActiveStack.empty.members := Finset.notMem_empty path
    obtain ⟨f, -, hpending, hvalue, hledger, n, hn, -⟩ := reaches_assembled
      (call_returns (ActiveStack.sound_empty.push hmem) rfl) hscan [] w
    refine ⟨n + 1, ?_⟩
    rw [Function.iterate_succ_apply', hstart, hextract, hn, step_end hpending,
      ActiveStack.pop_push hmem, hvalue, hledger]
    rfl

/-! ## What holds at every step -/

end Setting

variable {S : Shelf} {o : Options}

/-- Whether a stack is sound and holds no more files than the limit and the shelf allow; the root
need not be on the shelf. -/
structure ActiveStack.Fits (S : Shelf) (o : Options) (a : ActiveStack) : Prop where
  sound : a.Sound
  limit : a.paths.length ≤ o.maxImportDepth + 1
  shelved : ∀ p ∈ a.paths.tail, p ∈ Assoc.keys S.files

namespace ActiveStack

variable {a : ActiveStack} {path : Path}

theorem fits_empty : empty.Fits S o :=
  ⟨sound_empty, Nat.zero_le _, fun _ h => absurd h List.not_mem_nil⟩

theorem fits_root (path : Path) : (empty.push path).Fits S o where
  sound := sound_empty.push (Finset.notMem_empty path)
  limit := Nat.succ_le_succ (Nat.zero_le _)
  shelved _ h := absurd h List.not_mem_nil

theorem Fits.pop (h : a.Fits S o) : a.pop.Fits S o where
  sound := h.sound.pop
  limit := by
    rw [paths_pop, List.length_dropLast]
    exact (Nat.sub_le _ _).trans h.limit
  shelved p hp := by
    rw [paths_pop, List.tail_dropLast] at hp
    exact h.shelved p (List.mem_of_mem_dropLast hp)

theorem Fits.push (h : a.Fits S o) (hmem : path ∉ a.members)
    (hlimit : a.paths.length ≤ o.maxImportDepth) (hkey : path ∈ Assoc.keys S.files) :
    (a.push path).Fits S o where
  sound := h.sound.push hmem
  limit := by
    rw [ActiveStack.push, List.length_append, List.length_singleton]
    omega
  shelved p hp := by
    cases hpaths : a.paths with
    | nil =>
        simp [ActiveStack.push, hpaths] at hp
    | cons first rest =>
        have hshelved := h.shelved
        rw [hpaths] at hshelved
        simp only [ActiveStack.push, hpaths, List.cons_append, List.tail_cons, List.mem_append,
          List.mem_singleton] at hp
        rcases hp with hp | rfl
        · exact hshelved p hp
        · exact hkey

theorem Fits.length_le (h : a.Fits S o) : a.paths.length ≤ S.files.length + 1 := by
  have hnodup : a.paths.tail.Nodup := h.sound.nodup.sublist (List.tail_sublist _)
  have hle := (List.subperm_of_subset hnodup h.shelved).length_le
  rw [Assoc.keys, List.length_map, List.length_tail] at hle
  omega

end ActiveStack

/-- What holds of every state of an extraction from a shelf. -/
structure State.Inv (S : Shelf) (o : Options) (x : State) : Prop where
  fits : x.stack.Fits S o
  limited : ∀ l ∈ x.ledgers, l.TooDeepAt (o.maxImportDepth + 1)

theorem State.inv_running {stack : ActiveStack} {f : Frame} {callers : List Waiting} {w : Watch}
    (hfits : stack.Fits S o) (hf : f.ledger.TooDeepAt (o.maxImportDepth + 1))
    (hcallers : ∀ c ∈ callers, c.frame.ledger.TooDeepAt (o.maxImportDepth + 1)) :
    (running stack f callers w).Inv S o := by
  refine ⟨hfits, fun l hl => ?_⟩
  rcases List.mem_cons.mp hl with rfl | hl
  · exact hf
  · obtain ⟨c, hc, rfl⟩ := List.mem_map.mp hl
    exact hcallers c hc

theorem Waiting.tooDeepAt_resume {c : Waiting} {r : Followed} {l : Ledger} {n : Nat}
    (hc : c.frame.ledger.TooDeepAt n) (hl : l.TooDeepAt n) : (c.resume r l).ledger.TooDeepAt n :=
  hc.append (Ledger.TooDeepAt.append (fun _ h => absurd h List.not_mem_nil) hl)

namespace Setting

variable {s : Setting} {x : State}

theorem tooDeepAt_opened (path : Path) (tokens : List Token) (text : String) (n : Nat) :
    ((Frame.ofTokens path tokens).preface (readLedger path text)).ledger.TooDeepAt n :=
  fun _ h => absurd h List.not_mem_nil

theorem inv_start (S : Shelf) (s : Setting) (root : Path) (text? : Option String) :
    (s.start root text?).Inv S s.options := by
  rcases s.start_cases root text? (s.options.maxImportDepth + 1) with
    ⟨out, hstart, -, hout⟩ | ⟨path, text, w, -, hstart, -⟩
  · rw [hstart]
    exact ⟨ActiveStack.fits_empty, fun l hl => List.mem_singleton.mp hl ▸ hout⟩
  · rw [hstart]
    exact State.inv_running (ActiveStack.fits_root path) (tooDeepAt_opened path _ text _)
      fun _ h => absurd h List.not_mem_nil

theorem step_inv (hloader : s.loader = S.loader) (h : x.Inv S s.options) :
    (s.step x).Inv S s.options := by
  match x with
  | .ended stack outcome => exact h
  | .running stack f callers w =>
      have hfits : stack.Fits S s.options := h.fits
      have hf := h.limited f.ledger List.mem_cons_self
      have hcallers (c : Waiting) (hc : c ∈ callers) :
          c.frame.ledger.TooDeepAt (s.options.maxImportDepth + 1) :=
        h.limited _ (List.mem_cons_of_mem _ (List.mem_map_of_mem hc))
      cases hwanted : f.wanted? s with
      | some found =>
          obtain ⟨d, link⟩ := found
          rw [step_call hwanted]
          rcases call_cases hfits.sound (Nat.sub_add_cancel hfits.limit) f.path d link w with
            ⟨r, l, w', hcall, -, hl⟩ | ⟨n, path, text, w', hdepth, hmem, hcanon, -, hcall, -⟩
          · rw [hcall]
            exact State.inv_running hfits (Waiting.tooDeepAt_resume hf hl) hcallers
          · rw [hcall]
            rw [hloader] at hcanon
            have hkey : path ∈ Assoc.keys S.files :=
              Shelf.mem_keys_of_canonicalize (Shelf.canonicalize_canonical hcanon).1
            have hwaiting : ∀ c ∈ (⟨f, d, link⟩ : Waiting) :: callers,
                c.frame.ledger.TooDeepAt (s.options.maxImportDepth + 1) :=
              List.forall_mem_cons.mpr ⟨hf, hcallers⟩
            exact State.inv_running (hfits.push hmem (by omega) hkey)
              (tooDeepAt_opened path _ text _) hwaiting
      | none =>
          cases hpending : f.pending with
          | nil =>
              cases callers with
              | nil =>
                  rw [step_end hpending]
                  exact ⟨hfits.pop, fun l hl => List.mem_singleton.mp hl ▸ hf⟩
              | cons c rest =>
                  rw [step_return hpending]
                  obtain ⟨hc, hrest⟩ := List.forall_mem_cons.mp hcallers
                  exact State.inv_running hfits.pop (Waiting.tooDeepAt_resume hc hf) hrest
          | cons demand rest =>
              rw [Frame.wanted?, hpending] at hwanted
              rw [step_met hpending hwanted]
              exact State.inv_running hfits
                (hf.append (Ledger.tooDeepAt_own (Scope.kind_ownProblems _ _ _))) hcallers

theorem run_inv (hloader : s.loader = S.loader) (root : Path) (text? : Option String) (n : Nat) :
    (s.step^[n] (s.start root text?)).Inv S s.options := by
  induction n with
  | zero => exact inv_start S s root text?
  | succ n ih =>
      rw [Function.iterate_succ_apply']
      exact step_inv hloader ih

end Setting

/-- A link that leads too deep leads one file deeper than the limit. -/
theorem Shelf.tooDeepAt_run (S : Shelf) (o : Options) (signal : Signal) (root : Path)
    (text? : Option String) :
    (Extraction.run ⟨o, S.loader, signal⟩ root text?).ledger.TooDeepAt (o.maxImportDepth + 1) := by
  obtain ⟨n, hn⟩ := Setting.exists_iterate_step_eq ⟨o, S.loader, signal⟩ root text?
  have hended : (State.ended .empty
      (Setting.extractRoot ⟨o, S.loader, signal⟩ root text?
        (Run.initialWatch signal))).Inv S o := by
    rw [← hn]
    exact Setting.run_inv (s := ⟨o, S.loader, signal⟩) rfl root text? n
  exact hended.limited _ (List.mem_singleton_self _)

/-- Whatever the root, the options and the signal, an extraction from a shelf ends. Until then the
stack of files that are being assembled holds no file twice, its set is that of its files, and it
holds no more files than the limit and the shelf allow. Each call for a link returns to the stack
and the callers it found, with what following the link gives, and waits until then. A link that
leads too deep leads one file deeper than the limit. -/
theorem Extraction.stack_disciplined (S : Shelf) (o : Options) (signal : Signal) (root : Path)
    (text? : Option String) :
    let s : Setting := ⟨o, S.loader, signal⟩
    let state (n : Nat) := s.step^[n] (s.start root text?)
    (∃ n, state n = .ended .empty (s.extractRoot root text? (Run.initialWatch signal))) ∧
    (∀ n, let stack := (state n).stack
      stack.paths.Nodup ∧ stack.members = stack.paths.toFinset ∧
        stack.paths.length ≤ min (o.maxImportDepth + 1) (S.files.length + 1)) ∧
    (∀ n stack f callers w d link, state n = .running stack f callers w →
      f.wanted? s = some (d, link) →
        let out := s.follow (o.maxImportDepth + 1 - stack.paths.length) stack.paths f.path d link w
        ∃ m, n < m ∧
          state m = .running stack ((f.learn d out.value).write out.ledger) callers out.watch ∧
          ∀ k, n < k → k < m → ⟨f, d, link⟩ :: callers <:+ (state k).callers) ∧
    ∀ p ∈ (Extraction.run s root text?).problems, ∀ link depth limit,
      p.cause = .tooDeep link depth limit → depth = o.maxImportDepth + 1 := by
  intro s state
  have hinv (n : Nat) : (state n).Inv S o := Setting.run_inv (s := s) rfl root text? n
  refine ⟨s.exists_iterate_step_eq root text?, fun n => ?_, ?_, ?_⟩
  · have hfits := (hinv n).fits
    exact ⟨hfits.sound.nodup, hfits.sound.members, le_min hfits.limit hfits.length_le⟩
  · intro n stack f callers w d link hn hwanted out
    have hfits : stack.Fits S o := by
      have := (hinv n).fits
      rwa [hn] at this
    obtain ⟨k, hk, hwait⟩ := Setting.call_returns (s := s) hfits.sound
      (Nat.sub_add_cancel hfits.limit) f callers w d link hwanted
    have hlater (m : Nat) : state (n + m) = s.step^[m] (.running stack f callers w) := by
      show s.step^[n + m] _ = _
      rw [← hn, Nat.add_comm, Function.iterate_add_apply]
    refine ⟨n + (k + 1), by omega, (hlater _).trans hk, fun m hm hm' => ?_⟩
    obtain ⟨j, rfl⟩ : ∃ j, m = n + (j + 1) := ⟨m - n - 1, by omega⟩
    rw [hlater]
    exact hwait j (by omega)
  · exact S.tooDeepAt_run o signal root text?

end Stencil
