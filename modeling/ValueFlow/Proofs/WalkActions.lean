import ValueFlow.Proofs.Runs
import ValueFlow.Proofs.ScopeActions

/-!
# The scope actions of a walk

The walk over a function is a sequence of scope actions. `functionActions` lists
them, part by part along the tree, and carrying them out in a session leads to
the facts that the walk leaves (`advances_visitBlock`). So what holds of every
session holds at every point of every walk.

The locations that a walk invalidates are among those that are collected before
it starts, although the walk sees instructions with operands replaced
(`mem_locations_of_invalidate`).
-/

namespace ValueFlow.Numbering

/-! ## The actions -/

/-- The actions of noting one value. -/
def bindActions (ctx : Context) (s : State) (value : Signature × Binding) : List ScopeAction :=
  let sig := s.facts.canonicalize value.1
  match value.2 with
  | .output out =>
    match (resolve ctx sig s).1.or (s.facts.lookup ctx.aliases ctx.writes sig) with
    | some rep =>
      if rep.same (.var out) || !accepts ctx.aliases out rep then [] else [.setCanonical out rep]
    | none => if ctx.aliases.isStable out then [.record sig (.var out)] else []
  | .known src =>
    let rep := s.facts.canonicalOperand src
    if isUsable ctx.aliases rep && (s.facts.lookup ctx.aliases ctx.writes sig).isNone then
      [.record sig rep]
    else []

/-- The actions of noting several values. -/
def valuesActions (ctx : Context) (block : Nat) (removable : Bool) :
    List (Signature × Binding) → State → List ScopeAction
  | [], _ => []
  | value :: values, s =>
    bindActions ctx s value
      ++ valuesActions ctx block removable values (bind ctx block removable s value)

/-- The actions of a visit: outputs are assigned, writes are done, values are
noted, and what the instruction closes is. A visit that meets a fault is left
out. -/
def instructionActions (ctx : Context) (block : Nat) (i : Instruction) (s : State) :
    List ScopeAction :=
  let j := i.mapOperands (replace s.facts)
  match i.assigned.foldlM Congruence.define s.facts, j.isRemovable ctx.foreign,
      j.signatures ctx.foreign with
  | .ok facts, .ok removable, .ok values =>
    i.assigned.map .define ++ (writtenBy ctx.aliases i.writes).map .invalidate
      ++ valuesActions ctx block removable values (carriedOut ctx i facts s)
      ++ (visitInstruction ctx block i s).tree.closes.map .close
  | _, _, _ => []

/-- The actions of entering the scope of a deferred block. -/
def triggerActions (ctx : Context) (facts : Congruence) : Trigger → List ScopeAction
  | .wait vars _ _ => .push .deferred :: (keptWaits ctx facts vars).map .close
  | .range index _ _ _ => [.push .deferred, .declare index, .define index, .close index]
  | .foreach _ member => [.push .deferred, .declare member]

mutual
/-- **The actions of the walk over a block.** -/
def blockActions (ctx : Context) : Block → State → List ScopeAction
  | .mk vars body, s =>
    vars.map .declare ++ bodyActions ctx s.nextBlock body (enterBlock vars s)
/-- The actions of the walk over a body. -/
def bodyActions (ctx : Context) (block : Nat) : Body → State → List ScopeAction
  | .done, _ => []
  | .instr i rest, s =>
    instructionActions ctx block i s
      ++ bodyActions ctx block rest (visitInstruction ctx block i s).state
  | .cont c rest, s =>
    continuationActions ctx c (governed c s)
      ++ bodyActions ctx block rest (visitContinuation ctx c s).state
/-- The actions of the walk over the blocks of a continuation. -/
def continuationActions (ctx : Context) : Continuation → State → List ScopeAction
  | .ifElse _ t e, s =>
    let s' := (leaveArm (visitBlock ctx t (s.push .branch))).state
    (.push .branch :: blockActions ctx t (s.push .branch) ++ [.pop])
      ++ (.push .branch :: blockActions ctx e (s'.push .branch) ++ [.pop])
      ++ [.mergeBranches ctx.settings.branchMerge 2]
  | .switch _ arms, s =>
    armsActions ctx arms s
      ++ [.mergeBranches ctx.settings.branchMerge (visitArms ctx arms s).tree.2.length]
  | .deferred trigger b, s =>
    triggerActions ctx s.facts trigger ++ blockActions ctx b (enterDeferred ctx trigger s).state
      ++ [.pop, .mergeDeferred]
  | .nested b, s =>
    .push .nested :: blockActions ctx b (s.push .nested) ++ [.pop, .mergeNested]
/-- The actions of the walk over the arms of a switch, whose scopes stay held. -/
def armsActions (ctx : Context) : Arms → State → List ScopeAction
  | .none, _ => [.make .branch]
  | .default b, s => .push .branch :: blockActions ctx b (s.push .branch) ++ [.pop]
  | .case _ b rest, s =>
    (.push .branch :: blockActions ctx b (s.push .branch) ++ [.pop])
      ++ armsActions ctx rest (leaveArm (visitBlock ctx b (s.push .branch))).state
end

/-- The actions of taking note of an input. -/
def inputActions (v : Var) : List ScopeAction :=
  [.declare v, .define v] ++ if v.isLocalValue then [.close v] else []

/-- **The actions of the walk over a function.** -/
def functionActions (ctx : Context) (globals : Constants) (f : Function) : List ScopeAction :=
  f.inputs.flatMap inputActions ++ f.outputs.map .declare
    ++ match f.inputs.foldlM enterInput .new with
      | .ok facts => blockActions ctx f.block (opened globals f facts)
      | .error _ => []

/-! ## What the actions lead to -/

/-- **Carrying out the actions leads from some facts to others** at the same
level: in any session with the former facts they can be carried out, and what is
around the innermost scope stays. -/
structure Advances (aliases : AliasMap) (actions : List ScopeAction) (c c' : Congruence) :
    Prop where
  outer : c'.outer = c.outer
  exec : ∀ s : Session, s.facts = c → ∃ s', s.exec aliases actions = some s' ∧ s'.facts = c'
    ∧ s'.outer = s.outer ∧ s'.held = s.held

section Advances

variable {aliases : AliasMap} {actions actions' : List ScopeAction} {c c' c'' : Congruence}

theorem Advances.nil (c : Congruence) : Advances aliases [] c c :=
  ⟨rfl, fun s hs => ⟨s, rfl, hs, rfl, rfl⟩⟩

/-- The facts that the actions lead to, without what is around. -/
theorem Advances.leads (h : Advances aliases actions c c') :
    ∀ s : Session, s.facts = c → ∃ s', s.exec aliases actions = some s' ∧ s'.facts = c' := by
  intro s hs
  obtain ⟨s', h', hfacts, -, -⟩ := h.exec s hs
  exact ⟨s', h', hfacts⟩

theorem Advances.append (h : Advances aliases actions c c')
    (h' : Advances aliases actions' c' c'') : Advances aliases (actions ++ actions') c c'' := by
  refine ⟨h'.outer.trans h.outer, fun s hs => ?_⟩
  obtain ⟨s₁, h₁, hf₁, ho₁, hh₁⟩ := h.exec s hs
  obtain ⟨s₂, h₂, hf₂, ho₂, hh₂⟩ := h'.exec s₁ hf₁
  refine ⟨s₂, ?_, hf₂, ho₂.trans ho₁, hh₂.trans hh₁⟩
  rw [Session.exec_append, h₁]
  exact h₂

/-- An action on the innermost scope that leads to some facts. -/
theorem Advances.single {a : ScopeAction} (ha : a.isLocal = true) (ho : c'.outer = c.outer)
    (h : ∀ s : Session, s.facts = c → ∃ s', s.step aliases a = some s' ∧ s'.facts = c'
      ∧ s'.held = s.held) : Advances aliases [a] c c' := by
  refine ⟨ho, fun s hs => ?_⟩
  obtain ⟨s', hstep, hf, hh⟩ := h s hs
  obtain ⟨-, hl, -⟩ := Session.outer_of_isLocal ha hstep
  refine ⟨s', ?_, hf, hl, hh⟩
  rw [Session.exec_cons, hstep]
  rfl

theorem Advances.declare (c : Congruence) (v : Var) :
    Advances aliases [.declare v] c (c.declare v) :=
  .single rfl rfl fun _ hs => ⟨_, rfl, congrArg (·.declare v) hs, rfl⟩

theorem Advances.close (c : Congruence) (v : Var) : Advances aliases [.close v] c (c.close v) :=
  .single rfl rfl fun _ hs => ⟨_, rfl, congrArg (·.close v) hs, rfl⟩

theorem Advances.setCanonical (c : Congruence) (v : Var) (rep : Operand) :
    Advances aliases [.setCanonical v rep] c (c.setCanonical v rep) :=
  .single rfl rfl fun _ hs => ⟨_, rfl, congrArg (·.setCanonical v rep) hs, rfl⟩

theorem Advances.record (c : Congruence) (sig : Signature) (rep : Operand) :
    Advances aliases [.record sig rep] c (c.record aliases sig rep).2 := by
  refine .single rfl (record_level c aliases sig rep).1.outer fun _ hs => ⟨_, rfl, ?_, rfl⟩
  exact congrArg (fun c => (c.record aliases sig rep).2) hs

theorem Advances.invalidate (c : Congruence) (l : Location) :
    Advances aliases [.invalidate l] c (c.invalidate aliases l).2 :=
  .single rfl rfl fun _ hs => ⟨_, rfl, congrArg (fun c => (c.invalidate aliases l).2) hs, rfl⟩

theorem Advances.define {v : Var} (h : c.define v = .ok c') :
    Advances aliases [.define v] c c' := by
  have ho : c'.outer = c.outer := by
    obtain ⟨-, rfl⟩ := Congruence.define_eq_ok.1 h
    rfl
  refine .single rfl ho fun s hs => ⟨{ s with facts := c' }, ?_, rfl, rfl⟩
  rw [Session.step, hs, h]

/-- Several actions of one kind. -/
theorem Advances.map {α : Type} {f : α → ScopeAction} {g : Congruence → α → Congruence}
    (h : ∀ c x, Advances aliases [f x] c (g c x)) (xs : List α) (c : Congruence) :
    Advances aliases (xs.map f) c (xs.foldl g c) := by
  induction xs generalizing c with
  | nil => exact .nil c
  | cons x xs ih => exact (h c x).append (ih (g c x))

theorem Advances.defineAll {vars : List Var} (h : vars.foldlM Congruence.define c = .ok c') :
    Advances aliases (vars.map .define) c c' := by
  induction vars generalizing c with
  | nil =>
    obtain rfl := Except.ok.inj h
    exact .nil c
  | cons v vars ih =>
    rw [List.foldlM_cons] at h
    cases hv : c.define v with
    | error e =>
      rw [hv] at h
      cases h
    | ok c₁ =>
      rw [hv] at h
      exact (Advances.define hv).append (ih h)

end Advances

/-! ## Instructions -/

section Instructions

variable {ctx : Context} {block : Nat} {removable : Bool} {i : Instruction} {s : State}

theorem advances_bind (value : Signature × Binding) (s : State) :
    Advances ctx.aliases (bindActions ctx s value) s.facts
      (bind ctx block removable s value).facts := by
  obtain ⟨sig, binding⟩ := value
  unfold bindActions bind
  cases binding with
  | output out =>
    unfold bindOutput
    simp only [facts_resolve]
    cases hrep : (resolve ctx (s.facts.canonicalize sig) s).1.or
        (s.facts.lookup ctx.aliases ctx.writes (s.facts.canonicalize sig)) with
    | none =>
      simp only
      split
      · exact .record s.facts _ _
      · rw [facts_resolve]
        exact .nil _
    | some rep =>
      simp only
      split
      · rw [facts_resolve]
        exact .nil _
      · have hmarked : ∀ s', (markRedundant block out rep s').facts = s'.facts := by
          intro s'
          cases rep <;> rfl
        split
        · rw [hmarked]
          show Advances _ _ _ ((resolve ctx _ s).2.facts.setCanonical out rep)
          rw [facts_resolve]
          exact .setCanonical s.facts out rep
        · show Advances _ _ _ ((resolve ctx _ s).2.facts.setCanonical out rep)
          rw [facts_resolve]
          exact .setCanonical s.facts out rep
  | known src =>
    unfold bindKnown
    simp only
    split
    · exact .record s.facts _ _
    · exact .nil _

theorem advances_values (values : List (Signature × Binding)) (s : State) :
    Advances ctx.aliases (valuesActions ctx block removable values s) s.facts
      (values.foldl (bind ctx block removable) s).facts := by
  induction values generalizing s with
  | nil => exact .nil _
  | cons value values ih => exact (advances_bind value s).append (ih _)

/-- **A visit is a sequence of actions on the innermost scope.** -/
theorem advances_visitInstruction (h : (visitInstruction ctx block i s).fault = none) :
    Advances ctx.aliases (instructionActions ctx block i s) s.facts
      (visitInstruction ctx block i s).state.facts := by
  obtain ⟨facts, removable, values, -, hdefine, hrem, hvalues, hfacts⟩ := visitInstruction_facts h
  unfold instructionActions
  simp only [hdefine, hrem, hvalues]
  rw [hfacts]
  have hwrites : Advances ctx.aliases ((writtenBy ctx.aliases i.writes).map .invalidate) facts
      (carriedOut ctx i facts s).facts := by
    unfold carriedOut
    rw [(foldl_write_spec ctx i.writes _).1]
    exact .map Advances.invalidate _ _
  exact ((Advances.defineAll hdefine).append hwrites).append (advances_values values _)
    |>.append (.map Advances.close _ _)

end Instructions

/-! ## Scopes -/

/-- Carrying out the actions leads from some facts into a scope of its own. -/
structure Opens (aliases : AliasMap) (actions : List ScopeAction) (c c' : Congruence) : Prop where
  outer : c'.outer = c.scopes
  exec : ∀ s : Session, s.facts = c → ∃ s', s.exec aliases actions = some s' ∧ s'.facts = c'
    ∧ s'.outer = s.log :: s.outer ∧ s'.held = s.held

/-- Carrying out the actions leaves the facts as they are, and some more scopes
are held. -/
def Leaves (aliases : AliasMap) (actions : List ScopeAction) (c : Congruence) (arms : List Scope) :
    Prop :=
  ∀ s : Session, s.facts = c → ∃ s', s.exec aliases actions = some s' ∧ s'.facts = c
    ∧ s'.outer = s.outer ∧ ∃ left : List (Scope × ScopeLog), left.map (·.1) = arms
    ∧ s'.held = left.reverse ++ s.held

section Scopes

variable {aliases : AliasMap} {actions actions' : List ScopeAction} {c c' c'' : Congruence}
  {arms arms' : List Scope} {child : Scope}

theorem Opens.push (c : Congruence) (kind : ScopeKind) :
    Opens aliases [.push kind] c (c.push kind) :=
  ⟨rfl, fun _ hs => ⟨_, rfl, congrArg (·.push kind) hs, rfl, rfl⟩⟩

theorem Opens.leads (h : Opens aliases actions c c') :
    ∀ s : Session, s.facts = c → ∃ s', s.exec aliases actions = some s' ∧ s'.facts = c' := by
  intro s hs
  obtain ⟨s', h', hfacts, -, -⟩ := h.exec s hs
  exact ⟨s', h', hfacts⟩

theorem Leaves.leads (h : Leaves aliases actions c arms) :
    ∀ s : Session, s.facts = c → ∃ s', s.exec aliases actions = some s' ∧ s'.facts = c := by
  intro s hs
  obtain ⟨s', h', hfacts, -, -⟩ := h s hs
  exact ⟨s', h', hfacts⟩

theorem Opens.append (h : Opens aliases actions c c') (h' : Advances aliases actions' c' c'') :
    Opens aliases (actions ++ actions') c c'' := by
  refine ⟨h'.outer.trans h.outer, fun s hs => ?_⟩
  obtain ⟨s₁, h₁, hf₁, ho₁, hh₁⟩ := h.exec s hs
  obtain ⟨s₂, h₂, hf₂, ho₂, hh₂⟩ := h'.exec s₁ hf₁
  refine ⟨s₂, ?_, hf₂, ho₂.trans ho₁, hh₂.trans hh₁⟩
  rw [Session.exec_append, h₁]
  exact h₂

/-- The scope is left again. -/
theorem Opens.pop (h : Opens aliases actions c c') :
    Leaves aliases (actions ++ [.pop]) c [c'.top] := by
  intro s hs
  obtain ⟨s₁, h₁, hf₁, ho₁, hh₁⟩ := h.exec s hs
  refine ⟨⟨c, s.log, s.outer, (c'.top, s₁.log) :: s₁.held, s₁.history⟩, ?_, rfl, rfl,
    [(c'.top, s₁.log)], rfl, ?_⟩
  · rw [Session.exec_append, h₁]
    show (s₁.step aliases .pop).bind _ = _
    rw [Session.step, hf₁, pop_eq h.outer, ho₁]
    rfl
  · rw [hh₁]
    rfl

theorem Leaves.make (c : Congruence) (kind : ScopeKind) :
    Leaves aliases [.make kind] c [.new kind] :=
  fun _ hs => ⟨_, rfl, hs, rfl, [(.new kind, .empty)], rfl, rfl⟩

theorem Leaves.append (h : Leaves aliases actions c arms) (h' : Leaves aliases actions' c arms') :
    Leaves aliases (actions ++ actions') c (arms ++ arms') := by
  intro s hs
  obtain ⟨s₁, h₁, hf₁, ho₁, left, hleft, hh₁⟩ := h s hs
  obtain ⟨s₂, h₂, hf₂, ho₂, left', hleft', hh₂⟩ := h' s₁ hf₁
  refine ⟨s₂, ?_, hf₂, ho₂.trans ho₁, left ++ left', ?_, ?_⟩
  · rw [Session.exec_append, h₁]
    exact h₂
  · rw [List.map_append, hleft, hleft']
  · rw [hh₂, hh₁, List.reverse_append, List.append_assoc]

/-- What becomes of one scope that was left. -/
theorem Leaves.merge (h : Leaves aliases actions c [child]) {a : ScopeAction}
    (ha : a.isLocal = true) {merge : Congruence → Scope → Congruence}
    (ho : (merge c child).outer = c.outer)
    (hstep : ∀ (s : Session) (log : ScopeLog) (held : List (Scope × ScopeLog)),
      s.held = (child, log) :: held → ∃ s', s.step aliases a = some s'
        ∧ s'.facts = merge s.facts child ∧ s'.held = held) :
    Advances aliases (actions ++ [a]) c (merge c child) := by
  refine ⟨ho, fun s hs => ?_⟩
  obtain ⟨s₁, h₁, hf₁, ho₁, left, hleft, hh₁⟩ := h s hs
  obtain ⟨entry, rfl, hentry⟩ := List.map_eq_singleton_iff.1 hleft
  obtain ⟨s₂, h₂, hf₂, hh₂⟩ := hstep s₁ entry.2 s.held (by rw [hh₁, ← hentry]; rfl)
  obtain ⟨-, ho₂, -⟩ := Session.outer_of_isLocal ha h₂
  refine ⟨s₂, ?_, hf₂.trans (congrArg (merge · child) hf₁), ho₂.trans ho₁, hh₂⟩
  rw [Session.exec_append, h₁]
  show (s₁.step aliases a).bind _ = _
  rw [h₂]
  rfl

theorem Leaves.mergeNested (h : Leaves aliases actions c [child]) :
    Advances aliases (actions ++ [.mergeNested]) c (c.mergeNested child) := by
  refine h.merge rfl rfl fun s log held hheld => ?_
  rw [Session.step, hheld]
  exact ⟨_, rfl, rfl, rfl⟩

theorem Leaves.mergeDeferred (h : Leaves aliases actions c [child]) :
    Advances aliases (actions ++ [.mergeDeferred]) c (c.mergeDeferred child) := by
  refine h.merge rfl rfl fun s log held hheld => ?_
  rw [Session.step, hheld]
  exact ⟨_, rfl, rfl, rfl⟩

theorem Leaves.mergeBranches (h : Leaves aliases actions c arms) (keep : Bool) :
    Advances aliases (actions ++ [.mergeBranches keep arms.length]) c
      (c.mergeBranches aliases keep arms).2 := by
  refine ⟨(Congruence.mergeBranches_spec aliases keep arms c).1.outer, fun s hs => ?_⟩
  obtain ⟨s₁, h₁, hf₁, ho₁, left, rfl, hh₁⟩ := h s hs
  have hlength : (left.map (·.1)).length = left.reverse.length := by simp
  have hle : (left.map (·.1)).length ≤ s₁.held.length := by rw [hh₁]; simp
  have htake : (s₁.held.take (left.map (·.1)).length).reverse = left := by
    rw [hh₁, hlength, List.take_left, List.reverse_reverse]
  have hdrop : s₁.held.drop (left.map (·.1)).length = s.held := by
    rw [hh₁, hlength, List.drop_left]
  refine ⟨⟨(s₁.facts.mergeBranches aliases keep (left.map (·.1))).2,
    s₁.log.afterBranches aliases (left.map (·.2)), s₁.outer, s.held,
    s₁.history ++ left.flatMap (·.1.invalidated)⟩, ?_, by rw [hf₁], ho₁, rfl⟩
  rw [Session.exec_append, h₁]
  show (s₁.step aliases _).bind _ = _
  rw [Session.step, if_pos hle, htake, hdrop]
  rfl

end Scopes

/-! ## Trees -/

section Trees

variable {ctx : Context}

/-- Entering a deferred block leads into a scope of its own. -/
theorem opens_enterDeferred {trigger : Trigger} {s : State}
    (h : (enterDeferred ctx trigger s).fault = none) :
    Opens ctx.aliases (triggerActions ctx s.facts trigger) s.facts
      (enterDeferred ctx trigger s).state.facts := by
  cases trigger with
  | wait vars target mode =>
    rw [(enterWait_spec ctx vars target mode s).2.facts]
    exact (Opens.push s.facts .deferred).append (.map Advances.close _ _)
  | range index start stop step =>
    obtain ⟨facts, hd, -, hq⟩ := enterRange_cases h
    rw [hq.facts]
    exact ((Opens.push s.facts .deferred).append (.declare _ index)).append (.define hd)
      |>.append (.close facts index)
  | foreach array member => exact (Opens.push s.facts .deferred).append (.declare _ member)

/-- The scope of a walked block is left and merged. -/
theorem leave_of_opens {b : Block} {c : Congruence} {s : State} {actions : List ScopeAction}
    {merge : Congruence → Scope → Congruence} (h : (leave merge (visitBlock ctx b s)).fault = none)
    (ho : Opens ctx.aliases actions c (visitBlock ctx b s).state.facts) :
    (leave merge (visitBlock ctx b s)).state.facts
      = merge c (visitBlock ctx b s).state.facts.top := by
  rw [leave_eq (leave_fault h) ho.outer]

/-- The scope of a walked arm is left and held. -/
theorem leaveArm_of_opens {b : Block} {c : Congruence} {s : State} {actions : List ScopeAction}
    (h : (leaveArm (visitBlock ctx b s)).fault = none)
    (ho : Opens ctx.aliases actions c (visitBlock ctx b s).state.facts) :
    Leaves ctx.aliases (actions ++ [.pop]) c [(leaveArm (visitBlock ctx b s)).tree.2]
      ∧ (leaveArm (visitBlock ctx b s)).state.facts = c := by
  rw [leaveArm_eq (leaveArm_fault h) ho.outer]
  exact ⟨ho.pop, rfl⟩

mutual
/-- **The walk over a block is a sequence of scope actions**, which lead to the
facts that it leaves. -/
theorem advances_visitBlock : ∀ (b : Block) (s : State), (visitBlock ctx b s).fault = none →
    Advances ctx.aliases (blockActions ctx b s) s.facts (visitBlock ctx b s).state.facts
  | .mk vars body, s, h => by
    rw [visitBlock_eq] at h ⊢
    have hdeclare : Advances ctx.aliases (vars.map .declare) s.facts (enterBlock vars s).facts :=
      .map Advances.declare vars s.facts
    exact hdeclare.append (advances_visitBody s.nextBlock body (enterBlock vars s) h)
theorem advances_visitBody (block : Nat) : ∀ (b : Body) (s : State),
    (visitBody ctx block b s).fault = none →
    Advances ctx.aliases (bodyActions ctx block b s) s.facts (visitBody ctx block b s).state.facts
  | .done, s, h => .nil _
  | .instr i rest, s, h => by
    rw [visitBody] at h ⊢
    obtain ⟨h₁, heq⟩ := andThen_fault h
    rw [heq] at h ⊢
    exact (advances_visitInstruction h₁).append (advances_visitBody block rest _ h)
  | .cont c rest, s, h => by
    rw [visitBody] at h ⊢
    obtain ⟨h₁, heq⟩ := andThen_fault h
    rw [heq] at h ⊢
    exact (advances_visitContinuation c s h₁).append (advances_visitBody block rest _ h)
theorem advances_visitContinuation : ∀ (c : Continuation) (s : State),
    (visitContinuation ctx c s).fault = none →
    Advances ctx.aliases (continuationActions ctx c (governed c s)) s.facts
      (visitContinuation ctx c s).state.facts
  | .ifElse condition t e, s, h => by
    obtain ⟨h₁, h₂, heq⟩ := visitIfElse_eq h
    rw [heq, continuationActions, ← (quiet_governed (.ifElse condition t e) s).facts]
    generalize governed (.ifElse condition t e) s = s₁ at h₁ h₂ ⊢
    obtain ⟨hfirst, hfacts₁⟩ := leaveArm_of_opens h₁ ((Opens.push s₁.facts .branch).append
      (advances_visitBlock t (s₁.push .branch) (leaveArm_fault h₁)))
    have hopens := (Opens.push _ .branch).append (advances_visitBlock e _ (leaveArm_fault h₂))
    obtain ⟨hsecond, hfacts₂⟩ := leaveArm_of_opens h₂ hopens
    rw [hfacts₁] at hsecond hfacts₂
    unfold mergeArms
    simp only [hfacts₂]
    exact (hfirst.append hsecond).mergeBranches ctx.settings.branchMerge
  | .switch value arms, s, h => by
    obtain ⟨h₁, heq⟩ := visitSwitch_eq h
    rw [heq, continuationActions, ← (quiet_governed (.switch value arms) s).facts]
    obtain ⟨hleaves, hfacts⟩ := leaves_visitArms arms _ h₁
    unfold mergeArms
    simp only [hfacts]
    exact hleaves.mergeBranches ctx.settings.branchMerge
  | .deferred trigger b, s, h => by
    obtain ⟨h₁, h₂, heq⟩ := visitDeferred_eq h
    rw [heq, continuationActions, ← (quiet_governed (.deferred trigger b) s).facts]
    have hopens := (opens_enterDeferred h₁).append (advances_visitBlock b _ (leave_fault h₂))
    show Advances _ _ _ (leave _ _).state.facts
    rw [leave_of_opens h₂ hopens]
    have hmerge := hopens.pop.mergeDeferred
    rwa [List.append_assoc _ [ScopeAction.pop]] at hmerge
  | .nested b, s, h => by
    obtain ⟨h₁, heq⟩ := visitNested_eq h
    rw [heq, continuationActions, ← (quiet_governed (.nested b) s).facts]
    have hopens := (Opens.push (governed (.nested b) s).facts .nested).append
      (advances_visitBlock b ((governed (.nested b) s).push .nested) (leave_fault h₁))
    show Advances _ _ _ (leave _ _).state.facts
    rw [leave_of_opens h₁ hopens]
    have hmerge := hopens.pop.mergeNested
    rwa [List.append_assoc _ [ScopeAction.pop]] at hmerge
theorem leaves_visitArms : ∀ (arms : Arms) (s : State), (visitArms ctx arms s).fault = none →
    Leaves ctx.aliases (armsActions ctx arms s) s.facts (visitArms ctx arms s).tree.2
      ∧ (visitArms ctx arms s).state.facts = s.facts
  | .none, s, h => ⟨.make s.facts .branch, rfl⟩
  | .default b, s, h => by
    obtain ⟨h₁, heq⟩ := visitDefault_cases h
    rw [heq, armsActions]
    exact leaveArm_of_opens h₁ ((Opens.push s.facts .branch).append
      (advances_visitBlock b (s.push .branch) (leaveArm_fault h₁)))
  | .case label b rest, s, h => by
    obtain ⟨h₁, h₂, heq⟩ := visitCase_cases h
    rw [heq, armsActions]
    obtain ⟨hfirst, hfacts₁⟩ := leaveArm_of_opens h₁ ((Opens.push s.facts .branch).append
      (advances_visitBlock b (s.push .branch) (leaveArm_fault h₁)))
    obtain ⟨hrest, hfacts₂⟩ := leaves_visitArms rest _ h₂
    rw [hfacts₁] at hrest hfacts₂
    exact ⟨hfirst.append hrest, hfacts₂⟩
end

end Trees

/-! ## Functions -/

section Functions

variable {ctx : Context} {globals : Constants} {f : Function} {facts : Congruence}

theorem advances_enterInput {v : Var} {c c' : Congruence} (h : enterInput c v = .ok c') :
    Advances ctx.aliases (inputActions v) c c' := by
  unfold enterInput at h
  unfold inputActions
  cases hd : (c.declare v).define v with
  | error e =>
    rw [hd] at h
    cases h
  | ok c₁ =>
    rw [hd] at h
    obtain rfl := Except.ok.inj h
    have hdefined : Advances ctx.aliases [.declare v, .define v] c c₁ :=
      (Advances.declare c v).append (.define hd)
    refine hdefined.append ?_
    split
    · exact .close c₁ v
    · exact .nil c₁

theorem advances_enterInputs {inputs : List Var} {c c' : Congruence}
    (h : inputs.foldlM enterInput c = .ok c') :
    Advances ctx.aliases (inputs.flatMap inputActions) c c' := by
  induction inputs generalizing c with
  | nil =>
    obtain rfl := Except.ok.inj h
    exact .nil c
  | cons v inputs ih =>
    rw [List.foldlM_cons] at h
    cases hv : enterInput c v with
    | error e =>
      rw [hv] at h
      cases h
    | ok c₁ =>
      rw [hv] at h
      exact (advances_enterInput hv).append (ih h)

/-- **The walk over a function is a sequence of scope actions** that starts
without any facts. -/
theorem advances_visitFunction (hin : f.inputs.foldlM enterInput .new = .ok facts)
    (hf : (visitBlock ctx f.block (opened globals f facts)).fault = none) :
    Advances ctx.aliases (functionActions ctx globals f) .new
      (visitBlock ctx f.block (opened globals f facts)).state.facts := by
  unfold functionActions
  rw [hin]
  have houtputs : Advances ctx.aliases (f.outputs.map .declare)
      facts (opened globals f facts).facts :=
    .map Advances.declare _ _
  exact ((advances_enterInputs hin).append houtputs).append (advances_visitBlock _ _ hf)

end Functions

/-! ## The locations that a walk invalidates -/

section Invalidated

variable {ctx : Context} {l : Location} {a : ScopeAction} {s : State}

/-- The action enters a representative or a value. -/
def entersFact : ScopeAction → Bool
  | .setCanonical _ _ | .record _ _ => true
  | _ => false

theorem entersFact_of_bindActions {value : Signature × Binding}
    (h : a ∈ bindActions ctx s value) : entersFact a = true := by
  unfold bindActions at h
  simp only at h
  split at h <;> split at h
  · split at h
    · cases h
    · exact List.mem_singleton.1 h ▸ rfl
  · split at h
    · exact List.mem_singleton.1 h ▸ rfl
    · cases h
  · exact List.mem_singleton.1 h ▸ rfl
  · cases h

theorem entersFact_of_valuesActions {block : Nat} {removable : Bool}
    {values : List (Signature × Binding)}
    (h : a ∈ valuesActions ctx block removable values s) : entersFact a = true := by
  induction values generalizing s with
  | nil => cases h
  | cons value values ih =>
    rw [valuesActions, List.mem_append] at h
    exact h.elim entersFact_of_bindActions ih

theorem not_mem_valuesActions (ha : entersFact a = false) {block : Nat} {removable : Bool}
    {values : List (Signature × Binding)} : a ∉ valuesActions ctx block removable values s :=
  fun h => Bool.eq_false_iff.1 ha (entersFact_of_valuesActions h)

theorem mem_locations_of_instruction {block : Nat} {i : Instruction}
    (h : .invalidate l ∈ instructionActions ctx block i s) :
    l ∈ writtenBy ctx.aliases i.writes := by
  unfold instructionActions at h
  simp only at h
  split at h
  · simp only [List.mem_append, List.mem_map, reduceCtorEq, and_false, exists_false, false_or,
      or_false, not_mem_valuesActions (a := .invalidate l) rfl, ScopeAction.invalidate.injEq,
      exists_eq_right] at h
    exact h
  · cases h

theorem not_mem_triggerActions (facts : Congruence) (trigger : Trigger) :
    .invalidate l ∉ triggerActions ctx facts trigger := by
  cases trigger <;> simp [triggerActions]

mutual
/-- **The walk over a block invalidates only what the block writes.** -/
theorem mem_locations_of_block : ∀ (b : Block) (s : State), .invalidate l ∈ blockActions ctx b s →
    l ∈ locations ctx.aliases b.instructions
  | .mk vars body, s, h => by
    rw [blockActions, List.mem_append] at h
    rcases h with h | h
    · simp at h
    · exact mem_locations_of_body _ body _ h
theorem mem_locations_of_body (block : Nat) : ∀ (b : Body) (s : State),
    .invalidate l ∈ bodyActions ctx block b s → l ∈ locations ctx.aliases b.instructions
  | .done, s, h => by
    cases h
  | .instr i rest, s, h => by
    rw [bodyActions, List.mem_append] at h
    rcases h with h | h
    · exact List.mem_flatMap.2 ⟨i, List.mem_cons_self, mem_locations_of_instruction h⟩
    · obtain ⟨j, hj, hl⟩ := List.mem_flatMap.1 (mem_locations_of_body block rest _ h)
      exact List.mem_flatMap.2 ⟨j, List.mem_cons_of_mem _ hj, hl⟩
  | .cont c rest, s, h => by
    rw [bodyActions, List.mem_append] at h
    rw [Body.instructions, locations, List.flatMap_append, List.mem_append]
    exact h.imp (mem_locations_of_continuation c _) (mem_locations_of_body block rest _)
theorem mem_locations_of_continuation : ∀ (c : Continuation) (s : State),
    .invalidate l ∈ continuationActions ctx c s → l ∈ locations ctx.aliases c.instructions
  | .ifElse condition t e, s, h => by
    simp only [continuationActions, List.mem_append, List.mem_cons, reduceCtorEq, false_or,
      List.not_mem_nil, or_false] at h
    rw [Continuation.instructions, locations, List.flatMap_append, List.mem_append]
    exact h.imp (mem_locations_of_block t _) (mem_locations_of_block e _)
  | .switch value arms, s, h => by
    simp only [continuationActions, List.mem_append, List.mem_cons, reduceCtorEq,
      List.not_mem_nil, or_false] at h
    exact mem_locations_of_arms arms s h
  | .deferred trigger b, s, h => by
    simp only [continuationActions, List.mem_append, not_mem_triggerActions, List.mem_cons,
      reduceCtorEq, List.not_mem_nil, false_or, or_false] at h
    exact mem_locations_of_block b _ h
  | .nested b, s, h => by
    simp only [continuationActions, List.cons_append, List.mem_cons, List.mem_append, reduceCtorEq,
      List.not_mem_nil, false_or, or_false] at h
    exact mem_locations_of_block b _ h
theorem mem_locations_of_arms :
    ∀ (arms : Arms) (s : State), .invalidate l ∈ armsActions ctx arms s →
    l ∈ locations ctx.aliases arms.instructions
  | .none, s, h => by
    simp [armsActions] at h
  | .default b, s, h => by
    simp only [armsActions, List.cons_append, List.mem_cons, List.mem_append, reduceCtorEq,
      List.not_mem_nil, false_or, or_false] at h
    exact mem_locations_of_block b _ h
  | .case label b rest, s, h => by
    simp only [armsActions, List.cons_append, List.mem_cons, List.mem_append, reduceCtorEq,
      List.not_mem_nil, false_or, or_false] at h
    rw [Arms.instructions, locations, List.flatMap_append, List.mem_append]
    exact h.imp (mem_locations_of_block b _) (mem_locations_of_arms rest _)
end

/-- **Every location that the walk over a function invalidates** is one that the
function writes. -/
theorem mem_locations_of_invalidate {globals : Constants} {f : Function}
    (h : .invalidate l ∈ functionActions ctx globals f) :
    l ∈ locations ctx.aliases f.block.instructions := by
  have hinput : ∀ v, .invalidate l ∉ inputActions v := by
    intro v
    unfold inputActions
    split <;> simp
  unfold functionActions at h
  simp only [List.mem_append, List.mem_flatMap, hinput, and_false, exists_false, List.mem_map,
    reduceCtorEq, false_or, or_false] at h
  split at h
  · exact mem_locations_of_block f.block _ h
  · cases h

end Invalidated

end ValueFlow.Numbering
