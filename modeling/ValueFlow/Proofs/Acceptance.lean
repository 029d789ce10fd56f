import ValueFlow.Proofs.WalkActions

/-!
# Which functions are accepted

Numbering a function fails on some functions. Which ones depends on their text
alone, not on the settings, the table of constants or the facts that the walk
finds: `Function.fault?` reads the first fault off a function, with nothing but
the declared and the assigned names at each point, and a run stops with exactly
this fault (`result_run`).

The names assigned in a block count behind it unless the block declares them
(`Block.assigns`). An arm of a conditional sees only what precedes the
conditional.
-/

namespace ValueFlow

/-! ## Names assigned by a part of a tree -/

/-- The names of the variables that an instruction assigns, latest first. -/
def Instruction.assigns (i : Instruction) : List String := (i.assigned.map (·.name)).reverse

mutual
/-- **The names that are assigned in a block and live on behind it**, latest
first; `own` are names that are declared with the block. -/
def Block.assigns (own : List String) : Block → List String
  | .mk vars body => body.assigns.filter fun n => !((vars.map (·.name)).reverse ++ own).contains n
/-- The names that are assigned in a body, latest first. -/
def Body.assigns : Body → List String
  | .done => []
  | .instr i rest => rest.assigns ++ i.assigns
  | .cont c rest => rest.assigns ++ c.assigns
/-- The names that are assigned in the blocks of a continuation and live on
behind it. -/
def Continuation.assigns : Continuation → List String
  | .ifElse _ t e => e.assigns [] ++ t.assigns []
  | .switch _ arms => arms.assigns
  | .deferred trigger b => b.assigns (trigger.declared.map (·.name))
  | .nested b => b.assigns []
/-- The names that are assigned in the arms of a switch and live on behind it. -/
def Arms.assigns : Arms → List String
  | .none => []
  | .default b => b.assigns []
  | .case _ b rest => rest.assigns ++ b.assigns []
end

/-! ## Points -/

/-- **A point of a function**: the names declared around it and those assigned
before it, latest first. -/
structure Point where
  names : List String
  assigned : List String

/-- The variable may be used where the given names are declared. -/
def Var.isUsable (names : List String) (v : Var) : Bool := v.isGlobalConst || names.contains v.name

namespace Point

/-- The point behind the declaration of some variables. -/
def declare (p : Point) (vars : List Var) : Point :=
  { p with names := (vars.map (·.name)).reverse ++ p.names }

/-- The point behind the assignment of some names. -/
def assign (p : Point) (new : List String) : Point := { p with assigned := new ++ p.assigned }

/-- The point at which the block of a deferred continuation starts. -/
def enter (p : Point) (trigger : Trigger) : Point :=
  (p.declare trigger.declared).assign (trigger.assigned.map (·.name))

/-- The fault of the first variable that may not be used. -/
def undeclared? (p : Point) (function : String) (vars : List Var) : Option Fault :=
  (vars.find? (!·.isUsable p.names)).map fun v => .undeclared v.name function

/-- The fault of the first variable that was assigned before. -/
def assignedTwice? (p : Point) : List Var → Option Fault
  | [] => none
  | v :: vars =>
    if p.assigned.contains v.name then some (.assignedTwice v.name)
    else (p.assign [v.name]).assignedTwice? vars

theorem assignedTwice?_congr {p q : Point} (h : p.assigned = q.assigned) (vars : List Var) :
    p.assignedTwice? vars = q.assignedTwice? vars := by
  induction vars generalizing p q with
  | nil => rfl
  | cons v vars ih =>
    rw [assignedTwice?, assignedTwice?, h]
    exact if_congr Iff.rfl rfl (ih (congrArg ([v.name] ++ ·) h))

end Point

/-! ## The first fault -/

section Fault

variable (function : String) (foreign : Foreign)

/-- The fault of calling a foreign function that is not registered. -/
def Instruction.unknown? : Instruction → Option Fault
  | .call _ callee _ _ =>
    match foreign.lookup callee with
    | .ok _ => none
    | .error e => some e
  | _ => none

/-- The first fault of an instruction. -/
def Instruction.fault? (p : Point) (i : Instruction) : Option Fault :=
  (p.undeclared? function (i.readVars ++ i.outputs)).or
    ((p.assignedTwice? i.assigned).or (i.unknown? foreign))

mutual
/-- **The first fault in a block.** -/
def Block.fault? (p : Point) : Block → Option Fault
  | .mk vars body => body.fault? (p.declare vars)
/-- The first fault in a body. -/
def Body.fault? (p : Point) : Body → Option Fault
  | .done => none
  | .instr i rest => (i.fault? function foreign p).or (rest.fault? (p.assign i.assigns))
  | .cont c rest => (c.fault? p).or (rest.fault? (p.assign c.assigns))
/-- The first fault in a continuation. -/
def Continuation.fault? (p : Point) (c : Continuation) : Option Fault :=
  (p.undeclared? function c.readVars).or <|
    match c with
    | .ifElse _ t e => (t.fault? p).or (e.fault? p)
    | .switch _ arms => arms.fault? p
    | .deferred trigger b =>
      (p.assignedTwice? trigger.assigned).or (b.fault? (p.enter trigger))
    | .nested b => b.fault? p
/-- The first fault in the arms of a switch. -/
def Arms.fault? (p : Point) : Arms → Option Fault
  | .none => none
  | .default b => b.fault? p
  | .case _ b rest => (b.fault? p).or (rest.fault? p)
end

end Fault

/-- The point at which the block of a function starts. -/
def Function.point (f : Function) : Point :=
  ⟨((f.inputs ++ f.outputs).map (·.name)).reverse, (f.inputs.map (·.name)).reverse⟩

/-- **The first fault of a function**: a path that leads nowhere, an input that
is given twice, or the first fault in its block. -/
def Function.fault? (foreign : Foreign) (f : Function) : Option Fault :=
  match f.block.aliases with
  | .error e => some e
  | .ok _ => (Point.assignedTwice? ⟨[], []⟩ f.inputs).or (f.block.fault? f.name foreign f.point)

namespace Instruction
variable {foreign : Foreign} {i : Instruction}

theorem isRemovable_call (timing : Timing) (callee : String) (outputs : List Var)
    (inputs : List Operand) :
    (call timing callee outputs inputs).isRemovable foreign
      = (foreign.lookup callee).map fun f => !f.sideEffects := by
  show (do let b ← (do let f ← foreign.lookup callee; pure f.sideEffects); pure !b) = _
  cases foreign.lookup callee <;> rfl

theorem isRemovable_of_unknown? {e : Fault} (h : i.unknown? foreign = some e) :
    i.isRemovable foreign = .error e := by
  cases i with
  | call timing callee outputs inputs =>
    unfold unknown? at h
    rw [isRemovable_call]
    cases hf : foreign.lookup callee with
    | ok f => simp [hf] at h
    | error e' =>
      simp only [hf, Option.some.injEq] at h
      exact h ▸ rfl
  | _ => cases h

theorem exists_values (h : i.unknown? foreign = none) :
    (∃ removable, i.isRemovable foreign = .ok removable)
      ∧ ∃ values, i.signatures foreign = .ok values := by
  cases i with
  | call timing callee outputs inputs =>
    unfold unknown? at h
    rw [isRemovable_call]
    unfold signatures
    simp only
    cases hf : foreign.lookup callee with
    | error e => simp [hf] at h
    | ok f =>
      refine ⟨⟨_, rfl⟩, ?_⟩
      show ∃ values, (if (!f.deterministic) = true then _ else _) = Except.ok values
      split
      · exact ⟨_, rfl⟩
      · split <;> exact ⟨_, rfl⟩
  | readField access dst record path => cases access <;> exact ⟨⟨_, rfl⟩, _, rfl⟩
  | readElement access dst arr ix => cases access <;> exact ⟨⟨_, rfl⟩, _, rfl⟩
  | _ => exact ⟨⟨_, rfl⟩, _, rfl⟩

theorem unknown?_mapOperands (f : Role → Operand → Operand) (i : Instruction) :
    (i.mapOperands f).unknown? foreign = i.unknown? foreign := by
  cases i <;> rfl

end Instruction

/-! ## The walk and the names at its points -/

namespace Congruence

variable {c c' c'' : Congruence} {new new' : List String}

/-- The point at which some facts are known. -/
def point (c : Congruence) : Point := ⟨c.names, c.definedNames⟩

theorem isDeclared_eq (c : Congruence) (v : Var) : c.isDeclared v = v.isUsable c.names := by
  rw [Bool.eq_iff_iff, isDeclared_iff]
  simp [Var.isUsable]

/-- **The facts are at the same level, and some names more are assigned.** -/
structure Assigns (new : List String) (c c' : Congruence) : Prop where
  level : c.SameLevel c'
  defined : c'.top.defined = new ++ c.top.defined

theorem Assigns.refl (c : Congruence) : Assigns [] c c := ⟨.refl c, rfl⟩

theorem Assigns.trans (h : Assigns new c c') (h' : Assigns new' c' c'') :
    Assigns (new' ++ new) c c'' :=
  ⟨h.level.trans h'.level, by rw [h'.defined, h.defined, List.append_assoc]⟩

theorem Assigns.of_eq (h : Assigns new c c') (hc : c = c'') (hn : new = new') :
    Assigns new' c'' c' :=
  hc ▸ hn ▸ h

theorem Assigns.point (h : Assigns new c c') : c'.point = c.point.assign new := by
  unfold Congruence.point Point.assign
  rw [h.level.names]
  unfold definedNames scopes
  rw [List.flatMap_cons, List.flatMap_cons, h.level.outer, h.defined, List.append_assoc]

theorem define_eq (c : Congruence) (v : Var) :
    c.define v = if c.point.assigned.contains v.name then .error (.assignedTwice v.name)
      else .ok { c with top.defined := v.name :: c.top.defined } := by
  have hcontains : c.scopes.any (·.defined.contains v.name) = c.point.assigned.contains v.name := by
    rw [Bool.eq_iff_iff]
    simp [Congruence.point, definedNames]
  rw [define, hcontains]

theorem foldlM_define_eq (vars : List Var) (c : Congruence) :
    vars.foldlM define c = match c.point.assignedTwice? vars with
      | some e => .error e
      | none => .ok { c with top.defined := (vars.map (·.name)).reverse ++ c.top.defined } := by
  induction vars generalizing c with
  | nil => rfl
  | cons v vars ih =>
    rw [List.foldlM_cons, define_eq, Point.assignedTwice?]
    split
    · rfl
    · have hassign : Assigns [v.name] c { c with top.defined := v.name :: c.top.defined } :=
        ⟨⟨rfl, rfl, rfl⟩, rfl⟩
      rw [← hassign.point]
      refine (ih _).trans ?_
      simp

/-- The names assigned in the arms count behind a conditional, those of the last
arm first. -/
theorem defined_mergeBranches (aliases : AliasMap) (keep : Bool) (arms : List Scope)
    (c : Congruence) :
    (c.mergeBranches aliases keep arms).2.top.defined
      = arms.reverse.flatMap (·.outliving) ++ c.top.defined := by
  have habsorb : ∀ (arms : List Scope) (c : Congruence),
      (arms.foldl (absorbArm aliases) c).top.defined
        = arms.reverse.flatMap (·.outliving) ++ c.top.defined := by
    intro arms
    induction arms with
    | nil => exact fun _ => rfl
    | cons arm arms ih =>
      intro c
      obtain ⟨-, -, -, hdefined, -⟩ := sameLevel_invalidateAll aliases arm.invalidated c
      rw [List.foldl_cons, ih, List.reverse_cons, List.flatMap_append, List.append_assoc]
      show _ ++ (arm.outliving ++ _) = _
      rw [hdefined, List.flatMap_singleton]
  rcases mergeBranches_cases aliases keep arms c with heq | ⟨first, rest, rfl, heq⟩
  · rw [heq, habsorb]
  · rw [heq]
    exact habsorb _ c

end Congruence

namespace Numbering

open Congruence (Assigns)

section Faults

variable {ctx : Context} {s : State}

theorem knows_eq (s : State) (v : Var) : s.knows v = v.isUsable s.facts.names := by
  unfold State.knows
  rw [Congruence.isDeclared_eq]
  cases hv : s.pool.valueOf? v with
  | none => simp
  | some a => simp [Var.isUsable, (Pool.valueOf?_eq_some hv).1]

theorem undeclared?_eq (ctx : Context) (s : State) (vars : List Var) :
    ctx.undeclared? s vars = s.facts.point.undeclared? ctx.function vars := by
  unfold Context.undeclared? Point.undeclared?
  simp only [knows_eq]
  rfl

theorem fault_andThen {α β : Type} (v : Visit α) (rebuild : α → β) (next : α → State → Visit β) :
    (v.andThen rebuild next).fault = v.fault.or (next v.tree v.state).fault := by
  unfold Visit.andThen
  cases v.fault <;> rfl

theorem fault_leave {merge : Congruence → Scope → Congruence} {v : Visit Block} {c : Congruence}
    (h : v.fault = none → v.state.facts.outer = c.scopes) : (leave merge v).fault = v.fault := by
  cases hv : v.fault with
  | some e =>
    rw [leave, fault_andThen, hv]
    rfl
  | none => rw [leave_eq hv (h hv)]

theorem fault_leaveArm {v : Visit Block} {c : Congruence}
    (h : v.fault = none → v.state.facts.outer = c.scopes) : (leaveArm v).fault = v.fault := by
  cases hv : v.fault with
  | some e =>
    rw [leaveArm, fault_andThen, hv]
    rfl
  | none => rw [leaveArm_eq hv (h hv)]

end Faults

/-! ### Assigned names -/

section Assigned

variable {ctx : Context} {s : State} {b : Block} {trigger : Trigger}

theorem assigns_visitInstruction {block : Nat} {i : Instruction}
    (h : (visitInstruction ctx block i s).fault = none) :
    Assigns i.assigns s.facts (visitInstruction ctx block i s).state.facts :=
  have hfacts := facts_visitInstruction h
  ⟨hfacts.1, hfacts.2.1⟩

theorem names_enterBlock (vars : List Var) (s : State) :
    (enterBlock vars s).facts.top.declared
      = (vars.map (·.name)).reverse ++ s.facts.top.declared := by
  show (vars.foldl Congruence.declare s.facts).top.declared = _
  generalize s.facts = c
  induction vars generalizing c with
  | nil => rfl
  | cons v vars ih => simp [ih, Congruence.declare]

theorem point_enterBlock (vars : List Var) (s : State) :
    (enterBlock vars s).facts.point = s.facts.point.declare vars := by
  have ho := (foldl_declare_spec vars s.facts).1
  unfold Congruence.point Point.declare Congruence.names scopeNames Congruence.scopes
  rw [List.flatMap_cons, List.flatMap_cons, names_enterBlock, List.append_assoc]
  show Point.mk (_ ++ (_ ++ ((vars.foldl Congruence.declare s.facts).outer.flatMap _))) _ = _
  rw [ho]
  exact congrArg _ (definedNames_foldl_declare vars s.facts)

/-- **A walked block leaves what it assigned**, apart from what it declared. -/
theorem outliving_of_assigns {s' : State}
    (hown : ∀ n ∈ s.facts.top.defined, n ∈ s.facts.top.declared)
    (h : Assigns b.body.assigns (enterBlock b.vars s).facts s'.facts) :
    s'.facts.top.outliving = b.assigns s.facts.top.declared := by
  obtain ⟨vars, body⟩ := b
  obtain ⟨-, -, hdefined, -⟩ := foldl_declare_spec vars s.facts
  unfold Scope.outliving
  rw [h.defined, h.level.declared, names_enterBlock, Block.assigns]
  show (body.assigns ++ (vars.foldl Congruence.declare s.facts).top.defined).filter _ = _
  have hnone : s.facts.top.defined.filter
      (fun n => !((vars.map (·.name)).reverse ++ s.facts.top.declared).contains n) = [] :=
    List.filter_eq_nil_iff.2 fun n hn => by simp [hown n hn]
  rw [hdefined, List.filter_append]
  exact (congrArg (_ ++ ·) hnone).trans (List.append_nil _)

/-- **The scope of a deferred block where it is entered**: it declares and
assigns what the trigger does, and nothing is known in it yet but what is
closed. -/
theorem facts_enterDeferred (h : (enterDeferred ctx trigger s).fault = none) :
    ∃ closed, (enterDeferred ctx trigger s).state.facts = ⟨{ Scope.new .deferred with
      declared := trigger.declared.map (·.name), closed, defined := trigger.assigned.map (·.name) },
        s.facts.scopes⟩ := by
  cases trigger with
  | wait vars target mode =>
    rw [(enterWait_spec ctx vars target mode s).2.facts]
    exact Congruence.exists_foldl_close _ (s.facts.push .deferred)
  | range index start stop step =>
    obtain ⟨facts, hdefine, -, hq⟩ := enterRange_cases h
    obtain ⟨-, rfl⟩ := Congruence.define_eq_ok.1 hdefine
    rw [hq.facts]
    exact ⟨_, rfl⟩
  | foreach array member => exact ⟨_, rfl⟩

theorem enterDeferred_assigned (h : (enterDeferred ctx trigger s).fault = none) :
    (enterDeferred ctx trigger s).state.facts.outer = s.facts.scopes
      ∧ (enterDeferred ctx trigger s).state.facts.top.declared = trigger.declared.map (·.name)
      ∧ (enterDeferred ctx trigger s).state.facts.top.defined = trigger.assigned.map (·.name) := by
  obtain ⟨closed, hfacts⟩ := facts_enterDeferred h
  rw [hfacts]
  exact ⟨rfl, rfl, rfl⟩

theorem stand_enterDeferred {Q : Operand → Prop} (h : s.facts.Stand Q)
    (hf : (enterDeferred ctx trigger s).fault = none) :
    (enterDeferred ctx trigger s).state.facts.Stand Q := by
  obtain ⟨closed, hfacts⟩ := facts_enterDeferred hf
  rw [hfacts]
  exact (h.push .deferred).of_level rfl rfl rfl

theorem definedNames_enterDeferred (h : (enterDeferred ctx trigger s).fault = none) :
    s.facts.definedNames ⊆ (enterDeferred ctx trigger s).state.facts.definedNames := by
  intro n hn
  rw [Congruence.mem_definedNames, (enterDeferred_assigned h).1]
  exact .inr hn

/-- The names declared and assigned at the start of a deferred block. -/
theorem point_enterDeferred (h : (enterDeferred ctx trigger s).fault = none) :
    (enterDeferred ctx trigger s).state.facts.point = s.facts.point.enter trigger := by
  obtain ⟨ho, hdeclared, hdefined⟩ := enterDeferred_assigned h
  unfold Congruence.point Point.enter Point.assign Point.declare Congruence.names
    Congruence.definedNames scopeNames Congruence.scopes
  rw [List.flatMap_cons, List.flatMap_cons, ho, hdeclared, hdefined]
  cases trigger <;> rfl

theorem own_enterDeferred (h : (enterDeferred ctx trigger s).fault = none) :
    ∀ n ∈ (enterDeferred ctx trigger s).state.facts.top.defined,
      n ∈ (enterDeferred ctx trigger s).state.facts.top.declared := by
  obtain ⟨-, hdeclared, hdefined⟩ := enterDeferred_assigned h
  rw [hdeclared, hdefined]
  cases trigger with
  | wait => exact fun _ hn => hn
  | range => exact fun _ hn => hn
  | foreach => exact fun _ hn => nomatch hn

/-- The facts behind a block that was left, and behind its walk. -/
theorem outer_of_assigns {c : Congruence} {s' : State} (ho : s.facts.outer = c.scopes)
    (h : Assigns b.body.assigns (enterBlock b.vars s).facts s'.facts) :
    s'.facts.outer = c.scopes :=
  h.level.outer.trans ((foldl_declare_spec b.vars s.facts).1.trans ho)

/-- What is known of a walked arm once it was left. -/
theorem leaveArm_assigned (hf : (leaveArm (visitBlock ctx b (s.push .branch))).fault = none)
    (h : Assigns b.body.assigns (enterBlock b.vars (s.push .branch)).facts
      (visitBlock ctx b (s.push .branch)).state.facts) :
    (leaveArm (visitBlock ctx b (s.push .branch))).tree.2.outliving = b.assigns []
      ∧ (leaveArm (visitBlock ctx b (s.push .branch))).state.facts = s.facts := by
  have ho : (visitBlock ctx b (s.push .branch)).state.facts.outer = s.facts.scopes :=
    outer_of_assigns (s := s.push .branch) rfl h
  rw [leaveArm_eq (leaveArm_fault hf) ho]
  exact ⟨outliving_of_assigns (s := s.push .branch) (fun _ hn => nomatch hn) h, rfl⟩

theorem assigns_mergeArms (ctx : Context) (arms : List Scope) (s : State) :
    Assigns (arms.reverse.flatMap (·.outliving)) s.facts (mergeArms ctx arms s).facts :=
  ⟨(Congruence.mergeBranches_spec _ _ arms s.facts).1,
    Congruence.defined_mergeBranches _ _ arms s.facts⟩

mutual
/-- **The walk over a block assigns the names that its text assigns.** -/
theorem assigns_visitBlock : ∀ (b : Block) (s : State), (visitBlock ctx b s).fault = none →
    Assigns b.body.assigns (enterBlock b.vars s).facts (visitBlock ctx b s).state.facts
  | .mk vars body, s, h => by
    rw [visitBlock_eq] at h ⊢
    exact assigns_visitBody s.nextBlock body (enterBlock vars s) h
theorem assigns_visitBody (block : Nat) : ∀ (b : Body) (s : State),
    (visitBody ctx block b s).fault = none →
    Assigns b.assigns s.facts (visitBody ctx block b s).state.facts
  | .done, s, _ => .refl _
  | .instr i rest, s, h => by
    rw [visitBody] at h ⊢
    obtain ⟨h₁, heq⟩ := andThen_fault h
    rw [heq] at h ⊢
    exact (assigns_visitInstruction h₁).trans (assigns_visitBody block rest _ h)
  | .cont c rest, s, h => by
    rw [visitBody] at h ⊢
    obtain ⟨h₁, heq⟩ := andThen_fault h
    rw [heq] at h ⊢
    exact (assigns_visitContinuation c s h₁).trans (assigns_visitBody block rest _ h)
theorem assigns_visitContinuation : ∀ (c : Continuation) (s : State),
    (visitContinuation ctx c s).fault = none →
    Assigns c.assigns s.facts (visitContinuation ctx c s).state.facts
  | .ifElse condition t e, s, h => by
    obtain ⟨h₁, h₂, heq⟩ := visitIfElse_eq h
    obtain ⟨ht, hfacts₁⟩ := leaveArm_assigned h₁ (assigns_visitBlock t _ (leaveArm_fault h₁))
    obtain ⟨he, hfacts₂⟩ := leaveArm_assigned h₂ (assigns_visitBlock e _ (leaveArm_fault h₂))
    rw [heq, Continuation.assigns, ← ht, ← he]
    refine (assigns_mergeArms ctx [_, _] _).of_eq ?_ (by simp)
    rw [hfacts₂, hfacts₁, (quiet_governed _ s).facts]
  | .switch value arms, s, h => by
    obtain ⟨h₁, heq⟩ := visitSwitch_eq h
    obtain ⟨harms, hfacts⟩ := assigns_visitArms arms _ h₁
    rw [heq, Continuation.assigns, ← harms]
    refine (assigns_mergeArms ctx _ _).of_eq ?_ rfl
    rw [hfacts, (quiet_governed _ s).facts]
  | .deferred trigger b, s, h => by
    obtain ⟨h₁, h₂, heq⟩ := visitDeferred_eq h
    obtain ⟨ho, hdeclared, -⟩ := enterDeferred_assigned h₁
    have hb := assigns_visitBlock b _ (leave_fault h₂)
    have hout := outliving_of_assigns (own_enterDeferred h₁) hb
    rw [heq, leave_eq (leave_fault h₂) (outer_of_assigns ho hb), Continuation.assigns, ← hdeclared,
      ← hout, ← (quiet_governed (.deferred trigger b) s).facts]
    exact ⟨⟨rfl, rfl, rfl⟩, rfl⟩
  | .nested b, s, h => by
    obtain ⟨h₁, heq⟩ := visitNested_eq h
    have hb := assigns_visitBlock b _ (leave_fault h₁)
    have hout := outliving_of_assigns (s := (governed (.nested b) s).push .nested)
      (fun _ hn => nomatch hn) hb
    rw [heq, leave_eq (leave_fault h₁)
      (outer_of_assigns (s := (governed (.nested b) s).push .nested) rfl hb),
      Continuation.assigns, ← (quiet_governed (.nested b) s).facts]
    exact ⟨⟨rfl, rfl, rfl⟩, congrArg (· ++ _) hout⟩
theorem assigns_visitArms : ∀ (arms : Arms) (s : State), (visitArms ctx arms s).fault = none →
    (visitArms ctx arms s).tree.2.reverse.flatMap (·.outliving) = arms.assigns
      ∧ (visitArms ctx arms s).state.facts = s.facts
  | .none, s, _ => ⟨rfl, rfl⟩
  | .default b, s, h => by
    obtain ⟨h₁, heq⟩ := visitDefault_cases h
    obtain ⟨hb, hfacts⟩ := leaveArm_assigned h₁ (assigns_visitBlock b _ (leaveArm_fault h₁))
    rw [heq, Arms.assigns, ← hb]
    exact ⟨by simp, hfacts⟩
  | .case label b rest, s, h => by
    obtain ⟨h₁, h₂, heq⟩ := visitCase_cases h
    obtain ⟨hb, hfacts⟩ := leaveArm_assigned h₁ (assigns_visitBlock b _ (leaveArm_fault h₁))
    obtain ⟨hrest, hfacts'⟩ := assigns_visitArms rest _ h₂
    rw [heq, Arms.assigns, ← hb, ← hrest]
    exact ⟨by simp, hfacts'.trans hfacts⟩
end

/-- The facts around a block stay while it is walked. -/
theorem outer_visitBlock {kind : ScopeKind} (h : (visitBlock ctx b (s.push kind)).fault = none) :
    (visitBlock ctx b (s.push kind)).state.facts.outer = s.facts.scopes :=
  outer_of_assigns (s := s.push kind) rfl (assigns_visitBlock b _ h)

end Assigned

/-! ### Faults -/

section Faults

variable {ctx : Context}

/-- The values of an instruction can be told if the function that it calls is
registered. -/
theorem numberValues_eq (ctx : Context) (block : Nat) (i : Instruction) (s : State) :
    match i.unknown? ctx.foreign with
    | some e => numberValues ctx block i s = .error e
    | none => ∃ s', numberValues ctx block i s = .ok s' := by
  unfold numberValues
  cases hi : i.unknown? ctx.foreign with
  | some e =>
    rw [i.isRemovable_of_unknown? hi]
    rfl
  | none =>
    obtain ⟨⟨removable, hr⟩, values, hv⟩ := i.exists_values hi
    rw [hr, hv]
    exact ⟨_, rfl⟩

/-- **A visit stops with the first fault of the instruction.** -/
theorem fault_visitInstruction (block : Nat) (i : Instruction) (s : State) :
    (visitInstruction ctx block i s).fault = i.fault? ctx.function ctx.foreign s.facts.point := by
  unfold visitInstruction Instruction.fault?
  rw [undeclared?_eq]
  cases s.facts.point.undeclared? ctx.function (i.readVars ++ i.outputs) with
  | some e => rfl
  | none =>
    have hfacts := (substitute_quiet i s).facts
    have hi := substitute_fst i s
    generalize substitute i s = r at hfacts hi ⊢
    obtain ⟨j, s₁⟩ := r
    simp only at hfacts hi ⊢
    rw [hi, Instruction.assigned_mapOperands, Congruence.foldlM_define_eq, hfacts, Option.none_or]
    cases s.facts.point.assignedTwice? i.assigned with
    | some e => rfl
    | none =>
      simp only [Option.none_or]
      generalize List.foldl (write ctx) _ _ = s₂
      have hvalues := numberValues_eq ctx block (i.mapOperands (replace s.facts)) s₂
      rw [Instruction.unknown?_mapOperands] at hvalues
      cases hu : i.unknown? ctx.foreign with
      | some e =>
        simp only [hu] at hvalues
        simp only [hvalues]
      | none =>
        simp only [hu] at hvalues
        obtain ⟨s₃, hvalues⟩ := hvalues
        simp only [hvalues]

theorem fault_enterDeferred (trigger : Trigger) (s : State) :
    (enterDeferred ctx trigger s).fault = s.facts.point.assignedTwice? trigger.assigned := by
  cases trigger with
  | wait vars target mode => rfl
  | foreach array member => rfl
  | range index start stop step =>
    have hpoint : ((s.facts.push .deferred).declare index).point.assigned
        = s.facts.point.assigned := by
      show ((s.facts.push .deferred).declare index).definedNames = s.facts.definedNames
      rw [Congruence.definedNames_declare, Congruence.definedNames_push]
    unfold enterDeferred Trigger.assigned Point.assignedTwice?
    simp only [substituteOperand, State.replaced, State.push, Congruence.define_eq, hpoint]
    by_cases hindex : s.facts.point.assigned.contains index.name = true
    · simp only [if_pos hindex]
    · simp only [if_neg hindex]
      rfl

theorem point_push (s : State) (kind : ScopeKind) : (s.push kind).facts.point = s.facts.point := by
  unfold State.push Congruence.point
  rw [Congruence.names_push, Congruence.definedNames_push]

/-- Leaving a walked block adds no fault. -/
theorem fault_leave_push (merge : Congruence → Scope → Congruence) (b : Block) (s : State)
    (kind : ScopeKind) :
    (leave merge (visitBlock ctx b (s.push kind))).fault = (visitBlock ctx b (s.push kind)).fault :=
  fault_leave outer_visitBlock

theorem fault_leaveArm_push (b : Block) (s : State) :
    (leaveArm (visitBlock ctx b (s.push .branch))).fault
      = (visitBlock ctx b (s.push .branch)).fault :=
  fault_leaveArm outer_visitBlock

mutual
/-- **The walk over a block stops with the first fault in it.** -/
theorem fault_visitBlock : ∀ (b : Block) (s : State),
    (visitBlock ctx b s).fault = b.fault? ctx.function ctx.foreign s.facts.point
  | .mk vars body, s => by
    rw [visitBlock_eq, Block.fault?, ← point_enterBlock]
    exact fault_visitBody s.nextBlock body (enterBlock vars s)
theorem fault_visitBody (block : Nat) : ∀ (b : Body) (s : State),
    (visitBody ctx block b s).fault = b.fault? ctx.function ctx.foreign s.facts.point
  | .done, s => by rw [visitBody, Body.fault?]
  | .instr i rest, s => by
    rw [visitBody, fault_andThen, Body.fault?, ← fault_visitInstruction block i s]
    cases h : (visitInstruction ctx block i s).fault with
    | some e => rfl
    | none =>
      rw [← (assigns_visitInstruction h).point]
      exact fault_visitBody block rest _
  | .cont c rest, s => by
    rw [visitBody, fault_andThen, Body.fault?, ← fault_visitContinuation c s]
    cases h : (visitContinuation ctx c s).fault with
    | some e => rfl
    | none =>
      rw [← (assigns_visitContinuation c s h).point]
      exact fault_visitBody block rest _
theorem fault_visitContinuation : ∀ (c : Continuation) (s : State),
    (visitContinuation ctx c s).fault = c.fault? ctx.function ctx.foreign s.facts.point
  | .ifElse condition t e, s => by
    unfold visitContinuation Continuation.fault?
    rw [undeclared?_eq]
    cases s.facts.point.undeclared? ctx.function (Continuation.ifElse condition t e).readVars with
    | some e => rfl
    | none =>
      simp only [Option.none_or]
      rw [fault_andThen, fault_andThen, Option.or_none]
      -- both states have the facts of `s`, since only the operand was replaced
      generalize hs₁ : (substituteOperand condition _).2 = s₁
      have hfacts : s₁.facts = s.facts := hs₁ ▸ rfl
      have ht := fault_visitBlock t (s₁.push .branch)
      rw [← fault_leaveArm_push, point_push, hfacts] at ht
      rw [← ht]
      cases h : (leaveArm (visitBlock ctx t (s₁.push .branch))).fault with
      | some e => rfl
      | none =>
        obtain ⟨-, hfacts'⟩ := leaveArm_assigned h (assigns_visitBlock t _ (leaveArm_fault h))
        rw [← hfacts, ← hfacts', Option.none_or, Option.none_or, ← point_push _ .branch,
          fault_leaveArm_push]
        exact fault_visitBlock e _
  | .switch value arms, s => by
    unfold visitContinuation Continuation.fault?
    rw [undeclared?_eq]
    cases s.facts.point.undeclared? ctx.function (Continuation.switch value arms).readVars with
    | some e => rfl
    | none =>
      simp only [Option.none_or]
      rw [fault_andThen, Option.or_none]
      exact fault_visitArms arms _
  | .deferred trigger b, s => by
    unfold visitContinuation Continuation.fault?
    rw [undeclared?_eq]
    cases s.facts.point.undeclared? ctx.function (Continuation.deferred trigger b).readVars with
    | some e => rfl
    | none =>
      simp only [Option.none_or]
      rw [fault_andThen]
      generalize hs₁ : s.emit _ = s₁
      have hfacts : s₁.facts = s.facts := hs₁ ▸ rfl
      rw [← hfacts, ← fault_enterDeferred]
      cases h : (enterDeferred ctx trigger s₁).fault with
      | some e => rfl
      | none =>
        rw [Option.none_or, Option.none_or, ← point_enterDeferred h]
        have hleave : (leave .mergeDeferred
              (visitBlock ctx b (enterDeferred ctx trigger s₁).state)).fault
            = (visitBlock ctx b (enterDeferred ctx trigger s₁).state).fault :=
          fault_leave fun hb => outer_of_assigns (enterDeferred_assigned h).1
            (assigns_visitBlock b _ hb)
        exact hleave.trans (fault_visitBlock b _)
  | .nested b, s => by
    unfold visitContinuation Continuation.fault?
    rw [undeclared?_eq]
    cases s.facts.point.undeclared? ctx.function (Continuation.nested b).readVars with
    | some e => rfl
    | none =>
      simp only [Option.none_or]
      show (leave _ _).fault = _
      rw [fault_leave_push, fault_visitBlock b, point_push]
      rfl
theorem fault_visitArms : ∀ (arms : Arms) (s : State),
    (visitArms ctx arms s).fault = arms.fault? ctx.function ctx.foreign s.facts.point
  | .none, s => by rw [visitArms, Arms.fault?]
  | .default b, s => by
    rw [visitArms, Arms.fault?]
    show (leaveArm _).fault = _
    rw [fault_leaveArm_push, fault_visitBlock b, point_push]
  | .case label b rest, s => by
    rw [visitArms, Arms.fault?, fault_andThen]
    have hb := fault_visitBlock b (s.push .branch)
    rw [← fault_leaveArm_push, point_push] at hb
    rw [← hb]
    cases h : (leaveArm (visitBlock ctx b (s.push .branch))).fault with
    | some e => rfl
    | none =>
      rw [← (leaveArm_assigned h (assigns_visitBlock b _ (leaveArm_fault h))).2]
      exact fault_visitArms rest _
end

/-! ### Functions -/

theorem enterInput_eq (c : Congruence) (v : Var) :
    if c.point.assigned.contains v.name then enterInput c v = .error (.assignedTwice v.name)
    else ∃ c', enterInput c v = .ok c' ∧ c'.point = (c.point.declare [v]).assign [v.name] := by
  have hpoint : (c.declare v).point.assigned = c.point.assigned :=
    Congruence.definedNames_declare c v
  unfold enterInput
  rw [Congruence.define_eq, hpoint]
  split
  · rfl
  · refine ⟨_, rfl, ?_⟩
    split <;> rfl

/-- The inputs of a function are entered unless one is given twice. -/
theorem foldlM_enterInput_eq (inputs : List Var) (c : Congruence) :
    match c.point.assignedTwice? inputs with
    | some e => inputs.foldlM enterInput c = .error e
    | none => ∃ c', inputs.foldlM enterInput c = .ok c'
      ∧ c'.point = (c.point.declare inputs).assign (inputs.map (·.name)).reverse := by
  induction inputs generalizing c with
  | nil => exact ⟨c, rfl, rfl⟩
  | cons v inputs ih =>
    have hv := enterInput_eq c v
    rw [Point.assignedTwice?]
    split at hv
    · rw [if_pos ‹_›, List.foldlM_cons, hv]
      rfl
    · obtain ⟨c₁, hv, hpoint⟩ := hv
      have hrest := ih c₁
      have hcongr := Point.assignedTwice?_congr (p := c₁.point) (q := c.point.assign [v.name])
        (by rw [hpoint]; rfl) inputs
      rw [if_neg ‹_›, List.foldlM_cons, hv, ← hcongr]
      cases h : c₁.point.assignedTwice? inputs with
      | some e =>
        rw [h] at hrest
        exact hrest
      | none =>
        rw [h] at hrest
        obtain ⟨c', hc', hpoint'⟩ := hrest
        refine ⟨c', hc', ?_⟩
        rw [hpoint', hpoint]
        simp [Point.declare, Point.assign]

/-- The walk starts at the point at which the block of a function starts. -/
theorem point_opened {f : Function} {facts : Congruence}
    (h : f.inputs.foldlM enterInput .new = .ok facts) :
    (f.outputs.foldl Congruence.declare facts).point = f.point := by
  have hin := foldlM_enterInput_eq f.inputs .new
  split at hin
  · cases hin.symm.trans h
  · obtain ⟨facts', hfacts, hpoint⟩ := hin
    obtain rfl := Except.ok.inj (hfacts.symm.trans h)
    refine (point_enterBlock f.outputs { State.new .empty with facts := facts' }).trans ?_
    show facts'.point.declare f.outputs = f.point
    rw [hpoint, show Congruence.new.point = ⟨[], []⟩ from rfl]
    simp [Point.declare, Point.assign, Function.point]

/-- The walk over a function stops with its first fault. -/
theorem fault_visitFunction (f : Function) (globals : Constants) :
    (visitFunction ctx f (.new globals)).fault
      = (Point.assignedTwice? ⟨[], []⟩ f.inputs).or
        (f.block.fault? ctx.function ctx.foreign f.point) := by
  have hin := foldlM_enterInput_eq f.inputs (State.new globals).facts
  rw [show (State.new globals).facts.point = ⟨[], []⟩ from rfl] at hin
  unfold visitFunction
  cases hi : Point.assignedTwice? ⟨[], []⟩ f.inputs with
  | some e =>
    rw [hi] at hin
    rw [hin]
    rfl
  | none =>
    rw [hi] at hin
    obtain ⟨facts, hin, -⟩ := hin
    rw [hin, Option.none_or, ← point_opened hin]
    exact fault_visitBlock f.block _

end Faults

/-- **A run stops with the first fault of the function**, and it succeeds if
there is none. -/
theorem result_run (settings : Settings) (foreign : Foreign) (globals : Constants) (f : Function) :
    match f.fault? foreign with
    | some e => (run settings foreign globals f).result = .error e
    | none => ∃ stats created, (run settings foreign globals f).result = .ok (stats, created) := by
  unfold Function.fault? run
  cases ha : f.block.aliases with
  | error e =>
    have hctx : contextOf settings foreign f = .error e := by
      rw [contextOf, ha]
      rfl
    rw [hctx]
  | ok as =>
    let ctx : Context := ⟨f.name, settings, foreign, ⟨as⟩, f.block.writtenLocations ⟨as⟩⟩
    have hctx : contextOf settings foreign f = .ok ctx := by
      rw [contextOf, ha]
      rfl
    have hfault : (visitFunction ctx f (.new globals)).fault = _ := fault_visitFunction f globals
    rw [hctx]
    simp only
    rw [show f.block.fault? f.name foreign f.point
      = f.block.fault? ctx.function ctx.foreign f.point from rfl, ← hfault]
    cases (visitFunction ctx f (.new globals)).fault with
    | some e => rfl
    | none => exact ⟨_, _, rfl⟩

/-- Whether a function is accepted depends on its text alone. -/
theorem run_ok_iff {settings : Settings} {foreign : Foreign} {globals : Constants} {f : Function} :
    (∃ r, (run settings foreign globals f).result = .ok r) ↔ f.fault? foreign = none := by
  have h := result_run settings foreign globals f
  constructor
  · rintro ⟨r, hr⟩
    cases hf : f.fault? foreign with
    | none => rfl
    | some e =>
      rw [hf] at h
      exact absurd (hr.symm.trans h) (by simp)
  · intro hf
    rw [hf] at h
    obtain ⟨stats, created, hr⟩ := h
    exact ⟨_, hr⟩

end Numbering

end ValueFlow
