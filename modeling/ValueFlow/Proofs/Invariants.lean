import ValueFlow.Proofs.Edits

/-!
# Invariants of the walk

A property of states that each step of the walk keeps holds all along. `Upheld`
lists the steps: visiting an instruction, entering blocks, and leaving them by
the rule for the way they run. `Upheld.visitBlock` is the induction over the
tree, made once: the property holds behind the walk over a block, and the walked
block is an edit of the block in which every part was visited in a state with
the property (`walkEdit`). So is every instruction of the walk (`blockSites`),
and every conditional merges arms that end in such states (`blockJunctions`).
-/

namespace ValueFlow

/-! ## The instructions and the conditionals of a walk -/

/-- **A conditional in a walk**: the facts before it, at the end of every arm
and behind it. -/
structure Junction where
  before : Congruence
  /-- The facts at the end of every arm. If a switch has no default, there is one
  more arm that is empty. -/
  ends : List Congruence
  behind : Congruence

namespace Numbering

/-- **An instruction in a walk**: where it stands, the state in which it is
visited and what follows in its block. -/
structure Site where
  block : Nat
  instruction : Instruction
  before : State
  rest : Body

namespace Site

/-- The state behind the instruction. -/
def after (ctx : Context) (i : Site) : State :=
  (visitInstruction ctx i.block i.instruction i.before).state

/-- The instruction and what follows it were walked without a fault, from a
state with a property. -/
structure Ran (ctx : Context) (I : State → Prop) (i : Site) : Prop where
  before : I i.before
  fault : (visitInstruction ctx i.block i.instruction i.before).fault = none
  rest : (visitBody ctx i.block i.rest (i.after ctx)).fault = none

end Site

section Parts

variable (ctx : Context)

mutual
/-- **The instructions in the walk over a block**, at any depth, in order. -/
def blockSites : Block → State → List Site
  | .mk vars body, s => bodySites s.nextBlock body (enterBlock vars s)
/-- The instructions in the walk over a body. -/
def bodySites (block : Nat) : Body → State → List Site
  | .done, _ => []
  | .instr i rest, s =>
    ⟨block, i, s, rest⟩ :: bodySites block rest (visitInstruction ctx block i s).state
  | .cont c rest, s =>
    continuationSites c (governed c s) ++ bodySites block rest (visitContinuation ctx c s).state
/-- The instructions inside a continuation. -/
def continuationSites : Continuation → State → List Site
  | .ifElse _ t e, s =>
    blockSites t (s.push .branch)
      ++ blockSites e ((leaveArm (visitBlock ctx t (s.push .branch))).state.push .branch)
  | .switch _ arms, s => armsSites arms s
  | .deferred trigger b, s => blockSites b (enterDeferred ctx trigger s).state
  | .nested b, s => blockSites b (s.push .nested)
/-- The instructions inside the arms of a switch. -/
def armsSites : Arms → State → List Site
  | .none, _ => []
  | .default b, s => blockSites b (s.push .branch)
  | .case _ b rest, s =>
    blockSites b (s.push .branch)
      ++ armsSites rest (leaveArm (visitBlock ctx b (s.push .branch))).state
end

/-- The facts at the end of the arms of a switch. -/
def endsOfArms : Arms → State → List Congruence
  | .none, s => [(s.push .branch).facts]
  | .default b, s => [(visitBlock ctx b (s.push .branch)).state.facts]
  | .case _ b rest, s =>
    (visitBlock ctx b (s.push .branch)).state.facts
      :: endsOfArms rest (leaveArm (visitBlock ctx b (s.push .branch))).state

/-- The facts at the end of the arms of a conditional. -/
def ends : Continuation → State → List Congruence
  | .ifElse _ t e, s =>
    [(visitBlock ctx t (s.push .branch)).state.facts,
      (visitBlock ctx e ((leaveArm (visitBlock ctx t (s.push .branch))).state.push
        .branch)).state.facts]
  | .switch _ arms, s => endsOfArms ctx arms s
  | _, _ => []

mutual
/-- **The conditionals in the walk over a block**, at any depth. -/
def blockJunctions : Block → State → List Junction
  | .mk vars body, s => bodyJunctions s.nextBlock body (enterBlock vars s)
/-- The conditionals in the walk over a body. -/
def bodyJunctions (block : Nat) : Body → State → List Junction
  | .done, _ => []
  | .instr i rest, s => bodyJunctions block rest (visitInstruction ctx block i s).state
  | .cont c rest, s =>
    (if c.isConditional then
      [⟨s.facts, ends ctx c (governed c s), (visitContinuation ctx c s).state.facts⟩] else [])
      ++ continuationJunctions c (governed c s)
      ++ bodyJunctions block rest (visitContinuation ctx c s).state
/-- The conditionals inside a continuation. -/
def continuationJunctions : Continuation → State → List Junction
  | .ifElse _ t e, s =>
    blockJunctions t (s.push .branch)
      ++ blockJunctions e ((leaveArm (visitBlock ctx t (s.push .branch))).state.push .branch)
  | .switch _ arms, s => armsJunctions arms s
  | .deferred trigger b, s => blockJunctions b (enterDeferred ctx trigger s).state
  | .nested b, s => blockJunctions b (s.push .nested)
/-- The conditionals inside the arms of a switch. -/
def armsJunctions : Arms → State → List Junction
  | .none, _ => []
  | .default b, s => blockJunctions b (s.push .branch)
  | .case _ b rest, s =>
    blockJunctions b (s.push .branch)
      ++ armsJunctions rest (leaveArm (visitBlock ctx b (s.push .branch))).state
end

end Parts

/-! ## The induction over a tree -/

/-- **Every step of the walk keeps a property of states**, over trees whose
parts are as required. -/
structure Upheld (ctx : Context) (R : Requirement) (I : State → Prop) : Prop where
  quiet : ∀ {s s' : State}, I s → Quiet s s' → I s'
  declare : ∀ {s : State} {vars : List Var}, I s → R.declares s.facts.point vars →
    I (enterBlock vars s)
  instruction : ∀ {s : State} {block : Nat} {i : Instruction}, I s →
    R.instruction block s.facts.point i → (visitInstruction ctx block i s).fault = none →
    I (visitInstruction ctx block i s).state
  push : ∀ {s : State} (kind : ScopeKind), I s → I (s.push kind)
  defer : ∀ {s : State} {trigger : Trigger}, I s → R.trigger s.facts.point trigger →
    (∀ v ∈ trigger.reads.filterMap Operand.var?, s.knows v = true) →
    (enterDeferred ctx trigger s).fault = none → I (enterDeferred ctx trigger s).state
  /-- A nested block is left; `s'` is the state at its end. -/
  nested : ∀ {s s' : State}, I s → I s' → s'.facts.outer = s.facts.scopes →
    s'.facts.top.kind = .nested →
    I { s' with facts := s.facts.mergeNested s'.facts.top }
  /-- A deferred block is left. -/
  deferred : ∀ {s s' : State}, I s → I s' → s'.facts.outer = s.facts.scopes →
    I { s' with facts := s.facts.mergeDeferred s'.facts.top }
  /-- An arm is left, and the next one starts. -/
  arm : ∀ {s s' : State}, I s → I s' → s'.facts.outer = s.facts.scopes →
    I { s' with facts := s.facts }
  /-- All arms are left. -/
  branches : ∀ {s : State} {arms : List Scope}, I s →
    (∀ arm ∈ arms, arm.kind = .branch ∧ ∃ s', I s' ∧ s'.facts = ⟨arm, s.facts.scopes⟩) →
    I (mergeArms ctx arms s)

/-- **What the walk makes of the parts of a tree**, which are as required and
visited in states with a property. -/
def walkEdit (ctx : Context) (R : Requirement) (I : State → Prop) : Edit where
  declares p vars vars' := R.declares p vars ∧ vars' = vars
  instruction block p i r := R.instruction block p i ∧ ∃ s, I s ∧ s.facts.point = p
    ∧ (visitInstruction ctx block i s).fault = none ∧ r = some (visitInstruction ctx block i s).tree
  operand p a a' := R.operand p a ∧ ∃ s, I s ∧ s.facts.point = p ∧ (a.All fun v => s.knows v = true)
    ∧ a' = replace s.facts .value a
  trigger p t t' := R.trigger p t ∧ ∃ s, I s ∧ s.facts.point = p
    ∧ (∀ v ∈ t.reads.filterMap Operand.var?, s.knows v = true)
    ∧ (enterDeferred ctx t s).fault = none ∧ t' = (enterDeferred ctx t s).tree

/-- A conditional merges arms, each of which ends in a state with a property. -/
def Merges (ctx : Context) (I : State → Prop) (j : Junction) : Prop :=
  ∃ s arms, I s ∧ (∀ arm ∈ arms, arm.kind = .branch ∧ ∃ s', I s' ∧ s'.facts = ⟨arm, s.facts.scopes⟩)
    ∧ j = ⟨s.facts, arms.map (⟨·, s.facts.scopes⟩), (mergeArms ctx arms s).facts⟩

/-- **A part of a tree is walked with a property of states**: it holds behind
the part, wherever the part was edited, before its instructions and at the end
of its arms. -/
structure HoldsAlong (ctx : Context) (I : State → Prop) (after : State) (Edited : Prop)
    (sites : List Site) (junctions : List Junction) : Prop where
  after : I after
  edited : Edited
  ran : ∀ i ∈ sites, i.Ran ctx I
  merged : ∀ j ∈ junctions, Merges ctx I j

variable {ctx : Context} {R : Requirement} {I : State → Prop}

theorem facts_leaveArm {b : Block} {s : State}
    (hf : (leaveArm (visitBlock ctx b (s.push .branch))).fault = none) :
    (visitBlock ctx b (s.push .branch)).state.facts
        = ⟨(leaveArm (visitBlock ctx b (s.push .branch))).tree.2, s.facts.scopes⟩
      ∧ (leaveArm (visitBlock ctx b (s.push .branch))).state.facts = s.facts := by
  have ho := outer_visitBlock (leaveArm_fault hf)
  rw [leaveArm_eq (leaveArm_fault hf) ho, ← ho]
  exact ⟨rfl, rfl⟩

theorem endsOfArms_eq (arms : Arms) (s : State) (h : (visitArms ctx arms s).fault = none) :
    endsOfArms ctx arms s = (visitArms ctx arms s).tree.2.map (⟨·, s.facts.scopes⟩) := by
  fun_induction endsOfArms ctx arms s with
  | case1 s =>
    rw [visitArms]
    rfl
  | case2 s b =>
    obtain ⟨h₁, heq⟩ := visitDefault_cases h
    rw [heq, (facts_leaveArm h₁).1]
    rfl
  | case3 s label b rest ih =>
    obtain ⟨h₁, h₂, heq⟩ := visitCase_cases h
    rw [heq, (facts_leaveArm h₁).1, ih h₂, (facts_leaveArm h₁).2]
    rfl

namespace Upheld

theorem kind_visitBlock (b : Block) (s : State) (h : (visitBlock ctx b s).fault = none) :
    (visitBlock ctx b s).state.facts.top.kind = s.facts.top.kind :=
  (assigns_visitBlock b s h).level.kind.trans (foldl_declare_spec b.vars s.facts).2.1

/-- An arm that was walked and left. -/
theorem leaveArm (hI : Upheld ctx R I) {b : Block} {s : State} (hs : I s)
    (hf : (leaveArm (visitBlock ctx b (s.push .branch))).fault = none)
    (hb : I (visitBlock ctx b (s.push .branch)).state) :
    let left := Numbering.leaveArm (visitBlock ctx b (s.push .branch))
    I left.state ∧ left.state.facts = s.facts
      ∧ left.state.nextBlock = s.nextBlock + b.blockCount
      ∧ left.tree.1 = (visitBlock ctx b (s.push .branch)).tree
      ∧ left.tree.2.kind = .branch ∧ ∃ s', I s' ∧ s'.facts = ⟨left.tree.2, s.facts.scopes⟩ := by
  have hfault := leaveArm_fault hf
  have ho := outer_visitBlock hfault
  rw [leaveArm_eq hfault ho]
  refine ⟨hI.arm hs hb ho, rfl, (numbers_visitBlock b _ hfault).1,
    rfl, kind_visitBlock b _ hfault, _, hb, ?_⟩
  rw [← ho]

/-- **What is noted beside the facts** changes only with a visit. -/
theorem noting {J : Pool × Marks → Prop} (hI : Upheld ctx R I)
    (h : ∀ {s : State} {block : Nat} {i : Instruction},
      I s → J s.notes → R.instruction block s.facts.point i →
      (visitInstruction ctx block i s).fault = none → J
      (visitInstruction ctx block i s).state.notes) :
    Upheld ctx R fun s => I s ∧ J s.notes where
  quiet hs hq := by
    rw [State.notes, hq.pool, hq.marks]
    exact ⟨hI.quiet hs.1 hq, hs.2⟩
  declare hs hv := ⟨hI.declare hs.1 hv, hs.2⟩
  instruction hs hi hf := ⟨hI.instruction hs.1 hi hf, h hs.1 hs.2 hi hf⟩
  push kind hs := ⟨hI.push kind hs.1, hs.2⟩
  defer hs ht hknown hf := by
    rw [(enterDeferred_frame _ _).2]
    exact ⟨hI.defer hs.1 ht hknown hf, hs.2⟩
  nested hs hs' ho hk := ⟨hI.nested hs.1 hs'.1 ho hk, hs'.2⟩
  deferred hs hs' ho := ⟨hI.deferred hs.1 hs'.1 ho, hs'.2⟩
  arm hs hs' ho := ⟨hI.arm hs.1 hs'.1 ho, hs'.2⟩
  branches hs harms := by
    refine ⟨hI.branches hs.1 fun arm harm => ?_, hs.2⟩
    obtain ⟨hk, s', hs', hfacts⟩ := harms arm harm
    exact ⟨hk, s', hs'.1, hfacts⟩

variable (hI : Upheld ctx R I)
include hI

mutual
/-- **The walk over a block** keeps the property, and visits every part in a
state that has it. -/
theorem visitBlock : ∀ (b : Block) (s : State), I s →
    b.Meets R s.nextBlock s.facts.point → (visitBlock ctx b s).fault = none →
    HoldsAlong ctx I (visitBlock ctx b s).state
      (b.Edited (walkEdit ctx R I) s.nextBlock s.facts.point (visitBlock ctx b s).tree)
      (blockSites ctx b s) (blockJunctions ctx b s)
  | .mk vars body, s, hs, hb, h => by
    rw [visitBlock_eq] at h ⊢
    rw [Block.Meets, ← point_enterBlock] at hb
    have hbody := visitBody s.nextBlock body (enterBlock vars s) (hI.declare hs hb.1) hb.2 h
    refine ⟨hbody.after, ?_, hbody.ran, hbody.merged⟩
    rw [Visit.map, Block.Edited, ← point_enterBlock]
    exact ⟨⟨hb.1, rfl⟩, hbody.edited⟩
theorem visitBody (block : Nat) : ∀ (b : Body) (s : State), I s →
    b.Meets R block s.nextBlock s.facts.point → (visitBody ctx block b s).fault = none →
    HoldsAlong ctx I (visitBody ctx block b s).state
      (b.Edited (walkEdit ctx R I) block s.nextBlock s.facts.point (visitBody ctx block b s).tree)
      (bodySites ctx block b s) (bodyJunctions ctx block b s)
  | .done, s, hs, _, _ => ⟨hs, rfl, List.forall_mem_nil _, List.forall_mem_nil _⟩
  | .instr i rest, s, hs, hb, h => by
    rw [Numbering.visitBody] at h ⊢
    obtain ⟨h₁, heq⟩ := andThen_fault h
    rw [heq] at h ⊢
    have hs₁ := hI.instruction hs hb.1 h₁
    have hmeets := hb.2
    rw [← (assigns_visitInstruction h₁).point, ← nextBlock_visitInstruction h₁] at hmeets
    obtain ⟨hrest, hedited, hran, hmerged⟩ := visitBody block rest _ hs₁ hmeets h
    refine ⟨hrest, ?_, List.forall_mem_cons.2 ⟨⟨hs, h₁, h⟩, hran⟩, hmerged⟩
    rw [nextBlock_visitInstruction h₁, (assigns_visitInstruction h₁).point] at hedited
    rw [Visit.map, Body.Edited]
    exact .inl ⟨_, _, rfl, ⟨hb.1, s, hs, rfl, h₁, rfl⟩, hedited⟩
  | .cont c rest, s, hs, hb, h => by
    rw [Numbering.visitBody] at h ⊢
    rw [Body.Meets] at hb
    obtain ⟨h₁, heq⟩ := andThen_fault h
    rw [heq] at h ⊢
    obtain ⟨hc, hself⟩ := visitContinuation c s hs hb.1 h₁
    obtain ⟨hnext, -⟩ := numbers_visitContinuation c s h₁
    rw [← (assigns_visitContinuation c s h₁).point, ← hnext] at hb
    obtain ⟨hrest, hedited, hran, hmerged⟩ := visitBody block rest _ hc.after hb.2 h
    refine ⟨hrest, ?_, List.forall_mem_append.2 ⟨hc.ran, hran⟩,
      List.forall_mem_append.2 ⟨List.forall_mem_append.2 ⟨?_, hc.merged⟩, hmerged⟩⟩
    · rw [hnext, (assigns_visitContinuation c s h₁).point] at hedited
      rw [Visit.map, Body.Edited]
      exact ⟨_, _, rfl, hc.edited, hedited⟩
    · split
      · exact List.forall_mem_singleton.2 (hself ‹_›)
      · exact List.forall_mem_nil _
/-- The walk over a continuation; if it is a conditional, it merges its arms. -/
theorem visitContinuation : ∀ (c : Continuation) (s : State), I s →
    c.Meets R s.nextBlock s.facts.point → (visitContinuation ctx c s).fault = none →
    HoldsAlong ctx I (visitContinuation ctx c s).state
        (c.Edited (walkEdit ctx R I) s.nextBlock s.facts.point (visitContinuation ctx c s).tree)
        (continuationSites ctx c (governed c s)) (continuationJunctions ctx c (governed c s))
      ∧ (c.isConditional = true →
        Merges ctx I ⟨s.facts, ends ctx c (governed c s), (visitContinuation ctx c s).state.facts⟩)
  | .ifElse condition t e, s, hs, hc, h => by
    rw [Continuation.Meets] at hc
    have hoperand := hc.1
    have hknown := knows_of_visitContinuation h
    obtain ⟨h₁, h₂, heq⟩ := visitIfElse_eq h
    have hq := quiet_governed (.ifElse condition t e) s
    have hs₁ := hI.quiet hs hq
    rw [← hq.facts, ← hq.nextBlock] at hc
    have ht := visitBlock t _ (hI.push .branch hs₁) hc.2.1 (leaveArm_fault h₁)
    obtain ⟨hs₂, hfacts₂, hnext₂, htree₁, harm₁⟩ := hI.leaveArm hs₁ h₁ ht.after
    rw [← hfacts₂, ← hnext₂] at hc
    have he := visitBlock e _ (hI.push .branch hs₂) hc.2.2 (leaveArm_fault h₂)
    obtain ⟨hs₃, hfacts₃, -, htree₂, harm₂⟩ := hI.leaveArm hs₂ h₂ he.after
    rw [← hfacts₂, ← hfacts₃] at harm₁
    rw [← hfacts₃] at harm₂
    have harms : ∀ arm ∈ [_, _], arm.kind = .branch ∧ ∃ s', I s' ∧ s'.facts = ⟨arm, _⟩ :=
      List.forall_mem_cons.2 ⟨harm₁, List.forall_mem_singleton.2 harm₂⟩
    rw [heq]
    refine ⟨⟨hI.branches hs₃ harms, ?_, List.forall_mem_append.2 ⟨ht.ran, he.ran⟩,
      List.forall_mem_append.2 ⟨ht.merged, he.merged⟩⟩, fun _ => ⟨_, _, hs₃, harms, ?_⟩⟩
    · rw [Continuation.Edited]
      refine ⟨_, _, _, rfl, ⟨hoperand, s, hs, rfl, ?_, rfl⟩, ?_, ?_⟩
      · cases condition with
        | var v => exact hknown v List.mem_cons_self
        | lit l => trivial
      · rw [htree₁, ← hq.facts, ← hq.nextBlock]
        exact ht.edited
      · rw [htree₂, ← hq.facts, ← hq.nextBlock, ← hfacts₂, ← hnext₂]
        exact he.edited
    · rw [ends, (facts_leaveArm h₁).1, (facts_leaveArm h₂).1, hfacts₃, hfacts₂, hq.facts]
      rfl
  | .switch value arms, s, hs, hc, h => by
    have hoperand := hc.1
    have hknown := knows_of_visitContinuation h
    obtain ⟨h₁, heq⟩ := visitSwitch_eq h
    have hq := quiet_governed (.switch value arms) s
    rw [← hq.facts, ← hq.nextBlock] at hc
    obtain ⟨⟨hs₂, hedited, hran, hmerged⟩, hfacts, harms⟩ :=
      visitArms arms _ (hI.quiet hs hq) hc.2 h₁
    rw [← hfacts] at harms
    rw [heq]
    refine ⟨⟨hI.branches hs₂ harms, ⟨_, _, rfl, ⟨hoperand, s, hs, rfl, ?_, rfl⟩, ?_⟩,
      hran, hmerged⟩,
      fun _ => ⟨_, _, hs₂, harms, ?_⟩⟩
    · cases value with
      | var v => exact hknown v List.mem_cons_self
      | lit l => trivial
    · rwa [hq.facts, hq.nextBlock] at hedited
    · rw [ends, endsOfArms_eq arms _ h₁, hfacts, hq.facts]
  | .deferred trigger b, s, hs, hc, h => by
    have htrigger := hc.1
    obtain ⟨h₁, h₂, heq⟩ := visitDeferred_eq h
    have hq := quiet_governed (.deferred trigger b) s
    have hs₁ := hI.quiet hs hq
    have hknown : ∀ v ∈ trigger.reads.filterMap Operand.var?,
        (governed (.deferred trigger b) s).knows v = true :=
      knows_of_visitContinuation h
    rw [← hq.facts, ← hq.nextBlock] at hc
    have hmeets := hc.2
    rw [← point_enterDeferred h₁, ← nextBlock_enterDeferred] at hmeets
    obtain ⟨hb, hedited, hran, hmerged⟩ :=
      visitBlock b _ (hI.defer hs₁ hc.1 hknown h₁) hmeets (leave_fault h₂)
    have ho := outer_of_assigns (enterDeferred_assigned h₁).1
      (assigns_visitBlock b _ (leave_fault h₂))
    rw [heq, leave_eq (leave_fault h₂) ho]
    refine ⟨⟨hI.deferred hs₁ hb ho, ?_, hran, hmerged⟩, nofun⟩
    rw [point_enterDeferred h₁, nextBlock_enterDeferred, hq.facts, hq.nextBlock] at hedited
    rw [Visit.map, Continuation.Edited]
    exact ⟨_, _, rfl, ⟨htrigger, _, hs₁, congrArg _ hq.facts, hknown, h₁, rfl⟩, hedited⟩
  | .nested b, s, hs, hc, h => by
    obtain ⟨h₁, heq⟩ := visitNested_eq h
    have hq := quiet_governed (.nested b) s
    have hs₁ := hI.quiet hs hq
    rw [← hq.facts, ← hq.nextBlock] at hc
    obtain ⟨hb, hedited, hran, hmerged⟩ := visitBlock b _ (hI.push .nested hs₁) hc (leave_fault h₁)
    have ho := outer_visitBlock (leave_fault h₁)
    rw [heq, leave_eq (leave_fault h₁) ho]
    refine ⟨⟨hI.nested hs₁ hb ho (kind_visitBlock b _ (leave_fault h₁)), ?_, hran, hmerged⟩, nofun⟩
    rw [Visit.map, Continuation.Edited, ← hq.facts, ← hq.nextBlock]
    exact ⟨_, rfl, hedited⟩
theorem visitArms : ∀ (arms : Arms) (s : State), I s →
    arms.Meets R s.nextBlock s.facts.point → (visitArms ctx arms s).fault = none →
    HoldsAlong ctx I (visitArms ctx arms s).state
        (arms.Edited (walkEdit ctx R I) s.nextBlock s.facts.point (visitArms ctx arms s).tree.1)
        (armsSites ctx arms s) (armsJunctions ctx arms s)
      ∧ (visitArms ctx arms s).state.facts = s.facts
      ∧ ∀ arm ∈ (visitArms ctx arms s).tree.2, arm.kind = .branch
        ∧ ∃ s', I s' ∧ s'.facts = ⟨arm, s.facts.scopes⟩
  | .none, s, hs, _, _ => by
    refine ⟨⟨hs, rfl, List.forall_mem_nil _, List.forall_mem_nil _⟩, rfl, fun arm harm => ?_⟩
    rw [List.mem_singleton.1 harm]
    exact ⟨rfl, s.push .branch, hI.push .branch hs, rfl⟩
  | .default b, s, hs, hb, h => by
    obtain ⟨h₁, heq⟩ := visitDefault_cases h
    obtain ⟨hwalk, hedited, hran, hmerged⟩ :=
      visitBlock b _ (hI.push .branch hs) hb (leaveArm_fault h₁)
    obtain ⟨hs₁, hfacts, -, htree, harm⟩ := hI.leaveArm hs h₁ hwalk
    rw [heq, Arms.Edited]
    refine ⟨⟨hs₁, ⟨_, rfl, htree ▸ hedited⟩, hran, hmerged⟩, hfacts, fun arm hmem => ?_⟩
    rwa [List.mem_singleton.1 hmem]
  | .case label b rest, s, hs, hb, h => by
    rw [Arms.Meets] at hb
    obtain ⟨h₁, h₂, heq⟩ := visitCase_cases h
    have hblock := visitBlock b _ (hI.push .branch hs) hb.1 (leaveArm_fault h₁)
    obtain ⟨hs₁, hfacts₁, hnext₁, htree, harm⟩ := hI.leaveArm hs h₁ hblock.after
    rw [← hfacts₁, ← hnext₁] at hb
    obtain ⟨⟨hs₂, hedited₂, hran, hmerged⟩, hfacts₂, harms⟩ := visitArms rest _ hs₁ hb.2 h₂
    rw [heq, Arms.Edited]
    refine ⟨⟨hs₂, ⟨_, _, rfl, htree ▸ hblock.edited, ?_⟩,
      List.forall_mem_append.2 ⟨hblock.ran, hran⟩,
      List.forall_mem_append.2 ⟨hblock.merged, hmerged⟩⟩, hfacts₂.trans hfacts₁, fun arm hmem => ?_⟩
    · rwa [hfacts₁, hnext₁] at hedited₂
    · rcases List.mem_cons.1 hmem with rfl | hmem
      · exact harm
      · exact hfacts₁ ▸ harms arm hmem
end

end Upheld

end Numbering

/-! ## Well-formed states -/

/-- All variables of a tree have a property. -/
def Requirement.ofVars (P : Var → Prop) : Requirement where
  declares _ vars := ∀ v ∈ vars, P v
  instruction _ _ i := i.All P
  operand _ a := a.All P
  trigger _ t := ∀ v ∈ t.occurrences, P v

section OfVars

variable {P : Var → Prop}

mutual
/-- A block whose variables have a property. -/
theorem Block.meets_ofVars : ∀ (b : Block), (∀ v ∈ b.occurrences, P v) →
    ∀ (n : Nat) (p : Point), b.Meets (.ofVars P) n p
  | .mk vars body, h, n, p => by
    rw [Block.occurrences, List.forall_mem_append] at h
    exact ⟨h.1, Body.meets_ofVars body h.2 _ _ _⟩
theorem Body.meets_ofVars : ∀ (b : Body), (∀ v ∈ b.occurrences, P v) →
    ∀ (block n : Nat) (p : Point), b.Meets (.ofVars P) block n p
  | .done, _, block, n, p => trivial
  | .instr i rest, h, block, n, p => by
    rw [Body.occurrences, List.forall_mem_append] at h
    exact ⟨Instruction.all_iff.2 h.1, Body.meets_ofVars rest h.2 _ _ _⟩
  | .cont c rest, h, block, n, p => by
    rw [Body.occurrences, List.forall_mem_append] at h
    exact ⟨Continuation.meets_ofVars c h.1 _ _, Body.meets_ofVars rest h.2 _ _ _⟩
theorem Continuation.meets_ofVars : ∀ (c : Continuation), (∀ v ∈ c.occurrences, P v) →
    ∀ (n : Nat) (p : Point), c.Meets (.ofVars P) n p
  | .ifElse condition t e, h, n, p => by
    rw [Continuation.occurrences, List.forall_mem_append, List.forall_mem_append] at h
    exact ⟨Operand.all_iff.2 h.1.1, Block.meets_ofVars t h.1.2 _ _, Block.meets_ofVars e h.2 _ _⟩
  | .switch value arms, h, n, p => by
    rw [Continuation.occurrences, List.forall_mem_append] at h
    exact ⟨Operand.all_iff.2 h.1, Arms.meets_ofVars arms h.2 _ _⟩
  | .deferred trigger b, h, n, p => by
    rw [Continuation.occurrences, List.forall_mem_append] at h
    exact ⟨h.1, Block.meets_ofVars b h.2 _ _⟩
  | .nested b, h, n, p => Block.meets_ofVars b h _ _
theorem Arms.meets_ofVars : ∀ (arms : Arms), (∀ v ∈ arms.occurrences, P v) →
    ∀ (n : Nat) (p : Point), arms.Meets (.ofVars P) n p
  | .none, _, n, p => trivial
  | .default b, h, n, p => Block.meets_ofVars b h _ _
  | .case label b rest, h, n, p => by
    rw [Arms.occurrences, List.forall_mem_append] at h
    exact ⟨Block.meets_ofVars b h.1 _ _, Arms.meets_ofVars rest h.2 _ _⟩
end

end OfVars

namespace Numbering

variable {V : Vocabulary} {ctx : Context}

/-- **The walk over a text keeps the state well formed.** -/
theorem upheld_wellFormed (hV : Serves V ctx) : Upheld ctx (.ofVars V.text) (WellFormed V) where
  quiet hs hq := hs.of_quiet hq
  declare hs _ := hs.enterBlock _
  instruction hs hi hf := (wellFormed_visitInstruction hV hs hi hf).1
  push kind hs := hs.push kind
  defer hs ht hknown hf := wellFormed_enterDeferred hs ht hknown hf
  nested _ hs' ho _ := ⟨Congruence.tidy_mergeNested (ho ▸ hs'.tidy), hs'.constants⟩
  deferred hs hs' _ := ⟨Congruence.tidy_mergeDeferred hs.tidy _, hs'.constants⟩
  arm hs hs' _ := ⟨hs.tidy, hs'.constants⟩
  branches hs harms := by
    refine ⟨Congruence.tidy_mergeBranches hs.tidy _ _ fun arm harm => ?_, hs.constants⟩
    obtain ⟨-, s', hs', hfacts⟩ := harms arm harm
    have htidy := hs'.tidy
    rwa [hfacts] at htidy

theorem upheld_true (ctx : Context) (R : Requirement) : Upheld ctx R fun _ => True := by
  constructor <;> intros <;> trivial

/-- **The walk only adds constants**, and the values that are noted with marks
are values of constants. -/
theorem upheld_backs (ctx : Context) (p : Pool) : Upheld ctx (.ofVars fun _ => True)
    fun s => p.Grows s.pool ∧ ∀ e ∈ s.marks.entries, s.pool.Backs e.2 := by
  have hU := (upheld_true ctx (.ofVars fun _ => True)).noting
    (J := fun notes => p.Grows notes.1 ∧ ∀ e ∈ notes.2.entries, notes.1.Backs e.2)
      fun _ hs _ hf => by
      obtain ⟨hpool, new, hnew, hok⟩ := marks_visitInstruction hf
      refine ⟨hs.1.trans hpool, fun e he => ?_⟩
      rcases List.mem_append.1 (hnew ▸ he) with he | he
      · exact (hok e he).2.2
      · exact (hs.2 e he).of_grows hpool
  simp only [true_and] at hU
  exact hU

/-- A walk that starts without marks notes values of constants only. -/
theorem backs_visitBlock {ctx : Context} {b : Block} {s : State} (hmarks : s.marks.entries = [])
    (hf : (visitBlock ctx b s).fault = none) :
    s.pool.Grows (visitBlock ctx b s).state.pool
      ∧ ∀ e ∈ (visitBlock ctx b s).state.marks.entries,
        (visitBlock ctx b s).state.pool.Backs e.2 :=
  ((upheld_backs ctx s.pool).visitBlock b s ⟨.refl _, hmarks ▸ List.forall_mem_nil _⟩
    (b.meets_ofVars (fun _ _ => trivial) _ _) hf).after

/-- **What the walk marks is stable.** -/
theorem stable_visitBlock (hV : Suits V ctx) {b : Block} {s : State} (hs : WellFormed V s)
    (hmarks : s.marks.entries = []) (ht : ∀ v ∈ b.occurrences, V.text v)
    (hf : (visitBlock ctx b s).fault = none) :
    ∀ e ∈ (visitBlock ctx b s).state.marks.entries,
      ∃ v, V.text v ∧ v.name = e.1.2 ∧ ctx.aliases.isStable v = true := by
  have hU := (upheld_wellFormed hV.toServes).noting (J := fun notes => ∀ e ∈ notes.2.entries,
    ∃ v, V.text v ∧ v.name = e.1.2 ∧ ctx.aliases.isStable v = true) fun hs hold hi hf e he => by
      rcases stable_visitInstruction hV hs hi hf e he with he | ⟨-, v, -, hv⟩
      · exact hold e he
      · exact ⟨v, hv⟩
  refine (hU.visitBlock b s ⟨hs, ?_⟩ (b.meets_ofVars ht _ _) hf).after.2
  rw [State.notes, hmarks]
  exact List.forall_mem_nil _

end Numbering

end ValueFlow
