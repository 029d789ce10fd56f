import Mathlib.Data.List.Forall2
import Mathlib.Data.List.Zip
import ValueFlow.Proofs.Visits

/-!
# Sequences of scope actions

A walk does nothing to its facts but enter and leave scopes, enter facts into
the innermost one and end facts by writes. `ScopeAction` names these actions and
`Session` carries them out, in any order: a scope that was left is held until it
is merged into whatever scope is innermost then.

A session also keeps a log for every scope, which the facts never depend on. The
log says, in plain terms, what happened in the scope and in the scopes merged
into it: which locations were written in order, which ones are written by
deferred blocks, and which values were recorded and not overwritten since. What
the facts are worth is said by comparing them with the log.

The first comparison is about deferred blocks. What a deferred block writes is
unreliable from the moment when its scope is merged
(`readsPoisoned_of_detached`), and inside a deferred block nothing is known from
outside that anything in the function writes (`exists_holder_of_lookup`).
-/

namespace ValueFlow

/-- **Something that is done to the scopes of a walk.** -/
inductive ScopeAction where
  /-- Enters a scope. -/
  | push (kind : ScopeKind)
  /-- Leaves the innermost scope and holds it. -/
  | pop
  /-- Holds a scope without facts. -/
  | make (kind : ScopeKind)
  /-- Puts one of the scopes held in front of the others. -/
  | select (k : Nat)
  | declare (v : Var)
  | define (v : Var)
  | close (v : Var)
  | setCanonical (v : Var) (rep : Operand)
  | record (sig : Signature) (rep : Operand)
  | invalidate (l : Location)
  /-- Merges the first scope held into the innermost one: its block ran in order. -/
  | mergeNested
  /-- Merges the first scope held into the innermost one: its block runs at some
  later time. -/
  | mergeDeferred
  /-- Merges the first scopes held, as many as given, into the innermost one: they are the arms of a
  conditional, the last arm in front. -/
  | mergeBranches (keep : Bool) (n : Nat)

/-! ## Logs -/

/-- **What happened in a scope** and in the scopes merged into it. -/
structure ScopeLog where
  /-- The locations written in order. -/
  written : List Location
  /-- The locations written by deferred blocks. -/
  detached : List Location
  /-- The values that were recorded and not overwritten since. -/
  known : List (Signature × Operand)

namespace ScopeLog

/-- Nothing happened yet. -/
def empty : ScopeLog := ⟨[], [], []⟩

/-- The value was recorded and not overwritten since. -/
def knows (log : ScopeLog) (sig : Signature) (rep : Operand) : Bool :=
  log.known.any fun e => e.1.same sig && e.2.same rep

/-- The signature reads none of the locations. -/
def spares (aliases : AliasMap) (ls : List Location) (sig : Signature) : Bool :=
  ls.all fun l => !Congruence.reads aliases l sig

/-- The log behind writes to some locations: what reads them is known no longer. -/
def write (aliases : AliasMap) (ls : List Location) (log : ScopeLog) : ScopeLog :=
  { log with
    written := log.written ++ ls
    known := log.known.filter fun e => spares aliases ls e.1 }

/-- The log behind a block that ran in order. -/
def afterNested (aliases : AliasMap) (child log : ScopeLog) : ScopeLog :=
  { log.write aliases child.written with
    detached := log.detached ++ child.detached
    known := child.known ++ (log.write aliases child.written).known }

/-- The log behind a block that runs at some later time. All that was written in
it is detached. -/
def afterDeferred (child log : ScopeLog) : ScopeLog :=
  { log with detached := log.detached ++ child.written ++ child.detached }

/-- What was recorded in all arms and not overwritten since. -/
def common : List ScopeLog → List (Signature × Operand)
  | [] => []
  | first :: rest => first.known.filter fun e => rest.all (·.knows e.1 e.2)

/-- The log behind the arms of a conditional. The writes of every arm count. -/
def afterBranches (aliases : AliasMap) (arms : List ScopeLog) (log : ScopeLog) : ScopeLog :=
  { log.write aliases (arms.flatMap (·.written)) with
    detached := log.detached ++ arms.flatMap (·.detached)
    known := common arms ++ (log.write aliases (arms.flatMap (·.written))).known }

end ScopeLog

/-! ## Locations and poison -/

theorem Step.agrees_comm (a b : Step) : a.agrees b = b.agrees a := by
  cases a with
  | field n =>
    cases b with
    | field m => exact decide_eq_decide.2 eq_comm
    | unknown => rfl
  | unknown => cases b <;> rfl

/-- Overlapping is mutual. -/
theorem Location.overlaps_comm (a b : Location) : a.overlaps b = b.overlaps a := by
  unfold overlaps
  have hroot : decide (a.root = b.root) = decide (b.root = a.root) := decide_eq_decide.2 eq_comm
  rw [hroot, ← List.zip_swap, List.all_map]
  congr 2
  funext s
  exact Step.agrees_comm s.2 s.1

namespace Congruence

/-- Behind a conditional, what was unreliable at the end of an arm is so. -/
theorem poisoned_mergeBranches (aliases : AliasMap) (keep : Bool) (arms : List Scope)
    (c : Congruence) :
    (c.mergeBranches aliases keep arms).2.top.poisoned
      = c.top.poisoned ++ arms.flatMap (·.poisoned) := by
  have habsorb : (arms.foldl (absorbArm aliases) c).top.poisoned
      = c.top.poisoned ++ arms.flatMap (·.poisoned) := by
    induction arms generalizing c with
    | nil => simp
    | cons arm arms ih =>
      obtain ⟨-, -, -, -, -, -, hp, -⟩ := sameLevel_invalidateAll aliases arm.invalidated c
      rw [List.foldl_cons, ih, List.flatMap_cons, ← List.append_assoc]
      exact congrArg (· ++ arm.poisoned ++ _) hp
  rcases mergeBranches_cases aliases keep arms c with heq | ⟨first, rest, rfl, heq⟩
  · rw [heq, habsorb]
  · rw [heq]
    exact habsorb

end Congruence

/-! ## Sessions -/

/-- **A stack of scopes with the logs of its scopes**, the scopes held with
theirs, and every location that was invalidated so far in any scope. -/
structure Session where
  facts : Congruence
  /-- The log of the innermost scope. -/
  log : ScopeLog
  /-- The logs of the scopes around it, from the inside out. -/
  outer : List ScopeLog
  held : List (Scope × ScopeLog)
  history : List Location

namespace Session

/-- Nothing was done yet. -/
def new : Session := ⟨.new, .empty, [], [], []⟩

/-- **Carries out an action.** There is no result if a scope is left or merged
that is not there, or if a variable is assigned twice. -/
def step (aliases : AliasMap) (s : Session) : ScopeAction → Option Session
  | .push kind =>
    some { s with facts := s.facts.push kind, log := .empty, outer := s.log :: s.outer }
  | .pop =>
    match s.facts.pop, s.outer with
    | .ok (child, facts), log :: outer =>
      some { s with facts, log, outer, held := (child, s.log) :: s.held }
    | _, _ => none
  | .make kind => some { s with held := (.new kind, .empty) :: s.held }
  | .select k => s.held[k]?.map fun h => { s with held := h :: s.held.eraseIdx k }
  | .declare v => some { s with facts := s.facts.declare v }
  | .define v =>
    match s.facts.define v with
    | .ok facts => some { s with facts }
    | .error _ => none
  | .close v => some { s with facts := s.facts.close v }
  | .setCanonical v rep => some { s with facts := s.facts.setCanonical v rep }
  | .record sig rep =>
    let (entered, facts) := s.facts.record aliases sig rep
    some { s with
      facts
      log := if entered then { s.log with known := (sig, rep) :: s.log.known } else s.log }
  | .invalidate l =>
    some { s with
      facts := (s.facts.invalidate aliases l).2
      log := s.log.write aliases [l]
      history := s.history ++ [l] }
  | .mergeNested =>
    match s.held with
    | [] => none
    | (child, log) :: held =>
      some { s with
        facts := s.facts.mergeNested child
        log := log.afterNested aliases s.log
        held }
  | .mergeDeferred =>
    match s.held with
    | [] => none
    | (child, log) :: held =>
      some { s with
        facts := s.facts.mergeDeferred child
        log := log.afterDeferred s.log
        held }
  | .mergeBranches keep n =>
    if n ≤ s.held.length then
      let arms := (s.held.take n).reverse
      some { s with
        facts := (s.facts.mergeBranches aliases keep (arms.map (·.1))).2
        log := s.log.afterBranches aliases (arms.map (·.2))
        held := s.held.drop n
        history := s.history ++ arms.flatMap (·.1.invalidated) }
    else none

/-- Carries out actions one after the other. -/
def exec (aliases : AliasMap) (s : Session) (actions : List ScopeAction) : Option Session :=
  actions.foldlM (step aliases) s

section Exec

variable {aliases : AliasMap} {s s' : Session} {a : ScopeAction}
  {actions actions' : List ScopeAction}

@[simp] theorem exec_nil : s.exec aliases [] = some s := rfl

theorem exec_cons : s.exec aliases (a :: actions)
    = (s.step aliases a).bind (·.exec aliases actions) := by
  unfold exec
  rw [List.foldlM_cons]
  rfl

theorem exec_append : s.exec aliases (actions ++ actions')
    = (s.exec aliases actions).bind (·.exec aliases actions') := by
  unfold exec
  rw [List.foldlM_append]
  rfl

/-- **What every action preserves holds behind all of them.** -/
theorem exec_induction {P : Session → Prop}
    (hstep : ∀ s s' : Session, ∀ a ∈ actions, P s → s.step aliases a = some s' → P s') (hs : P s)
    (h : s.exec aliases actions = some s') : P s' := by
  induction actions generalizing s with
  | nil => exact Option.some.inj h ▸ hs
  | cons a actions ih =>
    rw [exec_cons] at h
    obtain ⟨s₁, h₁, h⟩ := Option.bind_eq_some_iff.1 h
    refine ih (fun s s' b hb => hstep s s' b (List.mem_cons_of_mem _ hb)) ?_ h
    exact hstep s s₁ a List.mem_cons_self hs h₁

end Exec

/-! ## What holds of every scope -/

/-- **All scopes, open or held, are related to their logs.** -/
structure All (P : Scope → ScopeLog → Prop) (s : Session) : Prop where
  opened : List.Forall₂ P s.facts.scopes (s.log :: s.outer)
  held : ∀ h ∈ s.held, P h.1 h.2

end Session

/-- The action changes the innermost scope and no other one. -/
def ScopeAction.isLocal : ScopeAction → Bool
  | push _ | pop | make _ | select _ => false
  | _ => true

namespace Session

section All

variable {aliases : AliasMap} {s s' : Session} {a : ScopeAction} {P : Scope → ScopeLog → Prop}

theorem All.top (h : s.All P) : P s.facts.top s.log := (List.forall₂_cons.1 h.opened).1

theorem exists_scope_of_mem {scopes : List Scope} {logs : List ScopeLog}
    (h : List.Forall₂ P scopes logs) {log : ScopeLog} (hlog : log ∈ logs) :
    ∃ scope ∈ scopes, P scope log := by
  induction h with
  | nil => cases hlog
  | cons hfirst hrest ih =>
    rcases List.mem_cons.1 hlog with rfl | hlog
    · exact ⟨_, List.mem_cons_self, hfirst⟩
    · obtain ⟨scope, hscope, hP⟩ := ih hlog
      exact ⟨scope, List.mem_cons_of_mem _ hscope, hP⟩

theorem All.new (hnew : ∀ kind, P (.new kind) .empty) : Session.new.All P :=
  ⟨.cons (hnew .root) .nil, List.forall_mem_nil _⟩

theorem define_of_step {v : Var} (h : s.step aliases (.define v) = some s') :
    ∃ facts, s.facts.define v = .ok facts ∧ s' = { s with facts } := by
  rw [step] at h
  cases hd : s.facts.define v with
  | error e =>
    rw [hd] at h
    cases h
  | ok facts =>
    rw [hd] at h
    exact ⟨facts, rfl, (Option.some.inj h).symm⟩

theorem mergeNested_of_step (h : s.step aliases .mergeNested = some s') :
    ∃ child log held, s.held = (child, log) :: held ∧ s' = { s with
      facts := s.facts.mergeNested child, log := log.afterNested aliases s.log, held } := by
  rw [step] at h
  cases hh : s.held with
  | nil =>
    rw [hh] at h
    cases h
  | cons first held =>
    rw [hh] at h
    exact ⟨first.1, first.2, held, rfl, (Option.some.inj h).symm⟩

theorem mergeDeferred_of_step (h : s.step aliases .mergeDeferred = some s') :
    ∃ child log held, s.held = (child, log) :: held ∧ s' = { s with
      facts := s.facts.mergeDeferred child, log := log.afterDeferred s.log, held } := by
  rw [step] at h
  cases hh : s.held with
  | nil =>
    rw [hh] at h
    cases h
  | cons first held =>
    rw [hh] at h
    exact ⟨first.1, first.2, held, rfl, (Option.some.inj h).symm⟩

theorem mergeBranches_of_step {keep : Bool} {n : Nat}
    (h : s.step aliases (.mergeBranches keep n) = some s') :
    ∃ arms : List (Scope × ScopeLog), arms ⊆ s.held ∧ s' = { s with
      facts := (s.facts.mergeBranches aliases keep (arms.map (·.1))).2
      log := s.log.afterBranches aliases (arms.map (·.2))
      held := s.held.drop n
      history := s.history ++ arms.flatMap (·.1.invalidated) } := by
  rw [step] at h
  split at h
  · refine ⟨(s.held.take n).reverse, fun x hx => ?_, (Option.some.inj h).symm⟩
    exact List.mem_of_mem_take (List.mem_reverse.1 hx)
  · cases h

/-- An action on the innermost scope leaves the others alone. -/
theorem outer_of_isLocal (ha : a.isLocal = true) (h : s.step aliases a = some s') :
    s'.facts.outer = s.facts.outer ∧ s'.outer = s.outer ∧ s'.held ⊆ s.held := by
  cases a with
  | push | pop | make | select => cases ha
  | declare | close | setCanonical | invalidate =>
    obtain rfl := Option.some.inj h
    exact ⟨rfl, rfl, List.Subset.refl _⟩
  | define v =>
    obtain ⟨facts, hd, rfl⟩ := define_of_step h
    obtain ⟨-, rfl⟩ := Congruence.define_eq_ok.1 hd
    exact ⟨rfl, rfl, List.Subset.refl _⟩
  | record sig rep =>
    obtain rfl := Option.some.inj h
    refine ⟨?_, rfl, List.Subset.refl _⟩
    show (s.facts.record aliases sig rep).2.outer = _
    unfold Congruence.record
    split <;> rfl
  | mergeNested =>
    obtain ⟨child, log, held, hh, rfl⟩ := mergeNested_of_step h
    exact ⟨rfl, rfl, hh ▸ List.subset_cons_self _ _⟩
  | mergeDeferred =>
    obtain ⟨child, log, held, hh, rfl⟩ := mergeDeferred_of_step h
    exact ⟨rfl, rfl, hh ▸ List.subset_cons_self _ _⟩
  | mergeBranches keep n =>
    obtain ⟨arms, -, rfl⟩ := mergeBranches_of_step h
    exact ⟨(Congruence.mergeBranches_spec aliases keep _ s.facts).1.outer,
      rfl, List.drop_subset _ _⟩

/-- **What holds of every scope stays so** if it holds of a scope without facts
and of the innermost scope behind an action on it. -/
theorem All.step (hs : s.All P) (hnew : ∀ kind, P (.new kind) .empty)
    (htop : a.isLocal = true → P s'.facts.top s'.log) (h : s.step aliases a = some s') :
    s'.All P := by
  cases hlocal : a.isLocal with
  | true =>
    obtain ⟨ho, hl, hh⟩ := outer_of_isLocal hlocal h
    refine ⟨?_, fun x hx => hs.held x (hh hx)⟩
    unfold Congruence.scopes
    rw [ho, hl]
    exact .cons (htop hlocal) (List.forall₂_cons.1 hs.opened).2
  | false =>
    cases a with
    | push kind =>
      obtain rfl := Option.some.inj h
      exact ⟨.cons (hnew kind) hs.opened, hs.held⟩
    | pop =>
      rw [Session.step] at h
      split at h
      · rename_i child facts log outer hpop hlogs
        obtain rfl := Option.some.inj h
        obtain ⟨hchild, houter⟩ := List.forall₂_cons.1 hs.opened
        unfold Congruence.pop at hpop
        split at hpop
        · cases hpop
        · rename_i parent rest hscopes
          obtain ⟨rfl, rfl⟩ := Prod.mk.inj (Except.ok.inj hpop)
          rw [hscopes, hlogs] at houter
          exact ⟨houter, List.forall_mem_cons.2 ⟨hchild, hs.held⟩⟩
      · cases h
    | make kind =>
      obtain rfl := Option.some.inj h
      exact ⟨hs.opened, List.forall_mem_cons.2 ⟨hnew kind, hs.held⟩⟩
    | select k =>
      obtain ⟨first, hfirst, rfl⟩ := Option.map_eq_some_iff.1 h
      refine ⟨hs.opened, List.forall_mem_cons.2 ⟨hs.held _ (List.mem_of_getElem? hfirst), ?_⟩⟩
      exact fun x hx => hs.held x (List.mem_of_mem_eraseIdx hx)
    | declare | define | close | setCanonical | record | invalidate | mergeNested | mergeDeferred
      | mergeBranches => cases hlocal

/-- **What an action on the innermost scope makes of it and of its log.** -/
inductive Changes (aliases : AliasMap) (s : Session) (a : ScopeAction) : Scope → ScopeLog → Prop
  | kept {scope : Scope} (values : scope.values = s.facts.top.values)
    (invalidated : scope.invalidated = s.facts.top.invalidated)
    (poisoned : scope.poisoned = s.facts.top.poisoned) : Changes aliases s a scope s.log
  | recorded (sig : Signature) (rep : Operand) :
    Changes aliases s a { s.facts.top with values := s.facts.top.values.insert sig (some rep) }
      { s.log with known := (sig, rep) :: s.log.known }
  | invalidated {l : Location} (action : a = .invalidate l) :
    Changes aliases s a (s.facts.invalidate aliases l).2.top (s.log.write aliases [l])
  | nested {child : Scope} {log : ScopeLog} (action : a = .mergeNested)
      (held : (child, log) ∈ s.held.head?) :
    Changes aliases s a (s.facts.mergeNested child).top (log.afterNested aliases s.log)
  | deferred {child : Scope} {log : ScopeLog} (held : (child, log) ∈ s.held) :
    Changes aliases s a (s.facts.mergeDeferred child).top (log.afterDeferred s.log)
  | branches (keep : Bool) {arms : List (Scope × ScopeLog)} (held : arms ⊆ s.held) :
    Changes aliases s a (s.facts.mergeBranches aliases keep (arms.map (·.1))).2.top
      (s.log.afterBranches aliases (arms.map (·.2)))

theorem changes_of_isLocal (ha : a.isLocal = true) (h : s.step aliases a = some s') :
    s.Changes aliases a s'.facts.top s'.log := by
  cases a with
  | push | pop | make | select => cases ha
  | declare | close | setCanonical =>
    obtain rfl := Option.some.inj h
    exact .kept rfl rfl rfl
  | define v =>
    obtain ⟨facts, hd, rfl⟩ := define_of_step h
    obtain ⟨-, rfl⟩ := Congruence.define_eq_ok.1 hd
    exact .kept rfl rfl rfl
  | record sig rep =>
    obtain rfl := Option.some.inj h
    show Changes aliases s _ (s.facts.record aliases sig rep).2.top
      (if (s.facts.record aliases sig rep).1 then _ else s.log)
    unfold Congruence.record
    split
    · exact .kept rfl rfl rfl
    · exact .recorded sig rep
  | invalidate l =>
    obtain rfl := Option.some.inj h
    exact .invalidated rfl
  | mergeNested =>
    obtain ⟨child, log, held, hh, rfl⟩ := mergeNested_of_step h
    exact .nested rfl (by rw [hh]; rfl)
  | mergeDeferred =>
    obtain ⟨child, log, held, hh, rfl⟩ := mergeDeferred_of_step h
    exact .deferred (hh ▸ List.mem_cons_self)
  | mergeBranches keep n =>
    obtain ⟨arms, harms, rfl⟩ := mergeBranches_of_step h
    exact .branches keep harms

end All

/-! ## Deferred blocks -/

section Deferred

variable {aliases : AliasMap} {s s' : Session} {a : ScopeAction} {actions : List ScopeAction}

/-- **The scope has taken note of everything that its log says was written.** -/
structure Notes (scope : Scope) (log : ScopeLog) : Prop where
  written : ∀ l ∈ log.written, l ∈ scope.invalidated
  detached : ∀ l ∈ log.detached, l ∈ scope.poisoned

theorem Notes.new (kind : ScopeKind) : Notes (.new kind) .empty :=
  ⟨List.forall_mem_nil _, List.forall_mem_nil _⟩

/-- What is noted in two scopes is noted where their notes are put together. -/
theorem mem_append_of_mem {ls ls' ms ms' : List Location} (h : ∀ l ∈ ls, l ∈ ms)
    (h' : ∀ l ∈ ls', l ∈ ms') : ∀ l ∈ ls ++ ls', l ∈ ms ++ ms' := fun l hl =>
  List.mem_append.2 ((List.mem_append.1 hl).imp (h l) (h' l))

/-- Whatever is done to the innermost scope, it takes note of what is written. -/
theorem Changes.notes {scope : Scope} {log : ScopeLog} (h : s.Changes aliases a scope log)
    (hs : s.All Notes) : Notes scope log := by
  obtain ⟨hwritten, hdetached⟩ := hs.top
  cases h with
  | kept _ hinv hpoi => exact ⟨hinv ▸ hwritten, hpoi ▸ hdetached⟩
  | recorded => exact ⟨hwritten, hdetached⟩
  | invalidated => exact ⟨mem_append_of_mem hwritten fun _ hl => hl, hdetached⟩
  | nested _ hheld =>
    obtain ⟨hcw, hcd⟩ := hs.held _ (List.mem_of_mem_head? hheld)
    exact ⟨mem_append_of_mem hwritten hcw, mem_append_of_mem hdetached hcd⟩
  | deferred hheld =>
    obtain ⟨hcw, hcd⟩ := hs.held _ hheld
    exact ⟨hwritten, mem_append_of_mem (mem_append_of_mem hdetached hcw) hcd⟩
  | @branches keep arms harms =>
    obtain ⟨-, hinv, -⟩ := Congruence.mergeBranches_spec aliases keep (arms.map (·.1)) s.facts
    have hpoi := Congruence.poisoned_mergeBranches aliases keep (arms.map (·.1)) s.facts
    constructor
    · rw [hinv, List.flatMap_map]
      refine mem_append_of_mem hwritten fun l hl => ?_
      rw [List.flatMap_map] at hl
      obtain ⟨arm, harm, hl⟩ := List.mem_flatMap.1 hl
      exact List.mem_flatMap.2 ⟨arm, harm, (hs.held arm (harms harm)).written l hl⟩
    · rw [hpoi, List.flatMap_map]
      refine mem_append_of_mem hdetached fun l hl => ?_
      rw [List.flatMap_map] at hl
      obtain ⟨arm, harm, hl⟩ := List.mem_flatMap.1 hl
      exact List.mem_flatMap.2 ⟨arm, harm, (hs.held arm (harms harm)).detached l hl⟩

/-- Every scope of a session takes note of what is written in it. -/
theorem all_notes (h : Session.new.exec aliases actions = some s) : s.All Notes :=
  exec_induction (fun _ _ _ _ hs hstep =>
    hs.step .new (fun ha => (changes_of_isLocal ha hstep).notes hs) hstep)
    (.new .new) h

/-- **What a deferred block writes is unreliable from the moment when its scope
is merged**, whatever scopes are entered, left and merged from then on. -/
theorem readsPoisoned_of_detached (h : Session.new.exec aliases actions = some s) {log : ScopeLog}
    (hlog : log ∈ s.log :: s.outer) {l : Location} (hl : l ∈ log.detached) {sig : Signature}
    (hreads : Congruence.reads aliases l sig = true) :
    s.facts.readsPoisoned aliases sig = true := by
  obtain ⟨scope, hscope, hnotes⟩ := exists_scope_of_mem (all_notes h).opened hlog
  obtain ⟨-, hany⟩ := Bool.and_eq_true_iff.1 hreads
  obtain ⟨m, hm, hoverlap⟩ := (Option.any_eq_true _ _).1 hany
  refine (Option.any_eq_true _ _).2 ⟨m, hm, List.any_eq_true.2 ⟨scope, hscope, ?_⟩⟩
  refine List.any_eq_true.2 ⟨l, hnotes.detached l hl, ?_⟩
  rw [Location.overlaps_comm]
  exact hoverlap

end Deferred

/-! ## Where writes go -/

section Confined

variable {aliases : AliasMap} {s s' : Session} {a : ScopeAction} {actions : List ScopeAction}
  {ls : List Location}

/-- **Only locations of a given list were invalidated**, and no scope has taken
note of another one. -/
structure Confined (ls : List Location) (s : Session) : Prop where
  history : ∀ l ∈ s.history, l ∈ ls
  scopes : s.All fun scope _ => ∀ l ∈ scope.invalidated, l ∈ ls

theorem Confined.new (ls : List Location) : Session.new.Confined ls :=
  ⟨List.forall_mem_nil _, .new fun _ => List.forall_mem_nil _⟩

/-- What the innermost scope takes note of is named by the action, or a scope
that is merged had taken note of it. -/
theorem Changes.invalidated_subset {scope : Scope} {log : ScopeLog}
    (h : s.Changes aliases a scope log)
    (hs : s.All fun scope _ => ∀ l ∈ scope.invalidated, l ∈ ls)
    (ha : ∀ l, a = .invalidate l → l ∈ ls) : ∀ l ∈ scope.invalidated, l ∈ ls := by
  have htop := hs.top
  cases h with
  | kept _ hinv => exact hinv ▸ htop
  | recorded | deferred => exact htop
  | invalidated haction =>
    exact List.forall_mem_append.2 ⟨htop, List.forall_mem_singleton.2 (ha _ haction)⟩
  | nested _ hheld => exact List.forall_mem_append.2 ⟨htop, hs.held _ (List.mem_of_mem_head? hheld)⟩
  | @branches keep arms harms =>
    rw [(Congruence.mergeBranches_spec aliases keep (arms.map (·.1)) s.facts).2.1, List.flatMap_map]
    refine List.forall_mem_append.2 ⟨htop, fun l hl => ?_⟩
    obtain ⟨arm, harm, hl⟩ := List.mem_flatMap.1 hl
    exact hs.held arm (harms harm) l hl

/-- An action invalidates what it names and what scopes that it merges have
taken note of. -/
theorem Confined.step (hs : s.Confined ls) (ha : ∀ l, a = .invalidate l → l ∈ ls)
    (h : s.step aliases a = some s') : s'.Confined ls := by
  constructor
  · cases a with
    | push | make | declare | close | setCanonical | record =>
      obtain rfl := Option.some.inj h
      exact hs.history
    | pop =>
      rw [Session.step] at h
      split at h
      · obtain rfl := Option.some.inj h
        exact hs.history
      · cases h
    | select k =>
      obtain ⟨first, -, rfl⟩ := Option.map_eq_some_iff.1 h
      exact hs.history
    | define v =>
      obtain ⟨facts, -, rfl⟩ := define_of_step h
      exact hs.history
    | mergeNested =>
      obtain ⟨child, log, held, -, rfl⟩ := mergeNested_of_step h
      exact hs.history
    | mergeDeferred =>
      obtain ⟨child, log, held, -, rfl⟩ := mergeDeferred_of_step h
      exact hs.history
    | invalidate l =>
      obtain rfl := Option.some.inj h
      exact List.forall_mem_append.2 ⟨hs.history, List.forall_mem_singleton.2 (ha l rfl)⟩
    | mergeBranches keep n =>
      obtain ⟨arms, harms, rfl⟩ := mergeBranches_of_step h
      refine List.forall_mem_append.2 ⟨hs.history, fun l hl => ?_⟩
      obtain ⟨arm, harm, hl⟩ := List.mem_flatMap.1 hl
      exact hs.scopes.held arm (harms harm) l hl
  · exact hs.scopes.step (fun _ => List.forall_mem_nil _)
      (fun hlocal => (changes_of_isLocal hlocal h).invalidated_subset hs.scopes ha) h

theorem Confined.exec (hs : s.Confined ls) (ha : ∀ l, .invalidate l ∈ actions → l ∈ ls)
    (h : s.exec aliases actions = some s') : s'.Confined ls :=
  exec_induction (fun _ _ _ hmem hs hstep => hs.step (fun l hl => ha l (hl ▸ hmem)) hstep) hs h

end Confined

end Session

namespace Congruence

variable {aliases : AliasMap} {writes : List Location} {c : Congruence} {sig : Signature}

theorem lookup_of_readsPoisoned (h : c.readsPoisoned aliases sig = true) :
    c.lookup aliases writes sig = none := if_pos h

theorem record_of_readsPoisoned (h : c.readsPoisoned aliases sig = true) (rep : Operand) :
    (c.record aliases sig rep).1 = false := by
  unfold record
  rw [if_pos h]

/-- Once a deferred block was crossed on the way out, it stays so. -/
theorem find?_crossed {scopes : List Scope} {entry : Option Operand} {crossed : Bool}
    (h : find? sig true scopes = some (entry, crossed)) : crossed = true := by
  induction scopes with
  | nil => cases h
  | cons scope rest ih =>
    rw [find?] at h
    cases hget : scope.values.get? sig with
    | none =>
      rw [hget] at h
      exact ih h
    | some found =>
      rw [hget] at h
      exact (Prod.mk.inj (Option.some.inj h)).2.symm

/-- What is found outside of a deferred block is found across it. -/
theorem find?_outside {below outside : List Scope} {gate : Scope} (hgate : gate.kind = .deferred)
    {entry : Option Operand} {crossed crossed' : Bool}
    (h : find? sig crossed' (below ++ gate :: outside) = some (entry, crossed)) :
    (∃ holder ∈ below ++ [gate], holder.values.get? sig = some entry) ∨ crossed = true := by
  induction below generalizing crossed' with
  | nil =>
    rw [List.nil_append, find?] at h
    cases hget : gate.values.get? sig with
    | none =>
      rw [hget, hgate, decide_eq_true rfl, Bool.or_true] at h
      exact .inr (find?_crossed h)
    | some found =>
      rw [hget] at h
      obtain ⟨rfl, -⟩ := Prod.mk.inj (Option.some.inj h)
      exact .inl ⟨gate, List.mem_singleton_self gate, hget⟩
  | cons scope below ih =>
    rw [List.cons_append, find?] at h
    cases hget : scope.values.get? sig with
    | none =>
      rw [hget] at h
      refine (ih h).imp_left ?_
      rintro ⟨holder, hmem, hholder⟩
      exact ⟨holder, List.mem_cons_of_mem _ hmem, hholder⟩
    | some found =>
      rw [hget] at h
      obtain ⟨rfl, -⟩ := Prod.mk.inj (Option.some.inj h)
      exact .inl ⟨scope, List.mem_cons_self, hget⟩

/-- **Inside a deferred block nothing is known from outside that anything in the
function writes**: a value that is known there and reads such storage is held by
a scope inside of the block. -/
theorem exists_holder_of_lookup {below outside : List Scope} {gate : Scope}
    (hc : c.scopes = below ++ gate :: outside) (hgate : gate.kind = .deferred) {w : Location}
    (hw : w ∈ writes) (hreads : reads aliases w sig = true) {rep : Operand}
    (h : c.lookup aliases writes sig = some rep) :
    ∃ holder ∈ below ++ [gate], holder.values.get? sig = some (some rep) := by
  obtain ⟨-, hany⟩ := Bool.and_eq_true_iff.1 hreads
  obtain ⟨m, hm, hoverlap⟩ := (Option.any_eq_true _ _).1 hany
  have hwritten : ((sig.location? aliases).any fun l => writes.any (·.overlaps l)) = true := by
    refine (Option.any_eq_true _ _).2 ⟨m, hm, List.any_eq_true.2 ⟨w, hw, ?_⟩⟩
    rw [Location.overlaps_comm]
    exact hoverlap
  unfold lookup at h
  split at h
  · cases h
  · split at h
    · cases h
    · rename_i entry crossed hfind
      rw [hwritten, Bool.and_true] at h
      rw [hc] at hfind
      rcases find?_outside hgate hfind with hholder | rfl
      · split at h
        · cases h
        · rwa [h] at hholder
      · rw [if_pos rfl] at h
        cases h

end Congruence

end ValueFlow
