import ValueFlow.Numbering
import ValueFlow.Proofs.Sweeps
import ValueFlow.Proofs.Visits

/-!
# The walk over a tree

The walk taken apart, with one lemma for each kind of statement: in which state
its blocks are walked, and what becomes of their scopes (`visitIfElse_eq`,
`visitSwitch_eq`, `visitDeferred_eq`, `visitNested_eq`). What leaving a scope
does is said by `leave_eq` and `leaveArm_eq`. What holds all along a walk is
proved from these by induction over the tree.
-/

namespace ValueFlow

/-! ## The variables of a tree -/

/-- The variables of a trigger. -/
def Trigger.occurrences : Trigger → List Var
  | .wait vars _ _ => vars
  | .range index start stop step => index :: [start, stop, step].filterMap Operand.var?
  | .foreach array member => [array, member]

/-- The variables that a trigger declares for its block. -/
def Trigger.declared : Trigger → List Var
  | .wait .. => []
  | .range index .. => [index]
  | .foreach _ member => [member]

/-- The variables that a trigger assigns in its block. -/
def Trigger.assigned : Trigger → List Var
  | .range index .. => [index]
  | _ => []

mutual
/-- Every occurrence of a variable in a block. -/
def Block.occurrences : Block → List Var
  | .mk vars body => vars ++ body.occurrences
/-- Every occurrence of a variable in a body. -/
def Body.occurrences : Body → List Var
  | .done => []
  | .instr i rest => i.readVars ++ i.outputs ++ rest.occurrences
  | .cont c rest => c.occurrences ++ rest.occurrences
/-- Every occurrence of a variable in a continuation. -/
def Continuation.occurrences : Continuation → List Var
  | .ifElse condition t e => condition.var?.toList ++ t.occurrences ++ e.occurrences
  | .switch value arms => value.var?.toList ++ arms.occurrences
  | .deferred trigger b => trigger.occurrences ++ b.occurrences
  | .nested b => b.occurrences
/-- Every occurrence of a variable in the arms of a switch. -/
def Arms.occurrences : Arms → List Var
  | .none => []
  | .default b => b.occurrences
  | .case _ b rest => b.occurrences ++ rest.occurrences
end

/-- Every occurrence of a variable in a function. -/
def Function.occurrences (f : Function) : List Var := f.inputs ++ f.outputs ++ f.block.occurrences

section OfVars

variable {P : Var → Prop}

/-- An operand has a property when its variables, at most one, have it. -/
theorem Operand.all_iff {a : Operand} : a.All P ↔ ∀ v ∈ a.var?.toList, P v := by
  cases a with
  | var v => exact (List.forall_mem_singleton (p := P)).symm
  | lit l => exact ⟨fun _ => List.forall_mem_nil _, fun _ => trivial⟩

/-- An instruction has a property when all it reads and assigns have it. -/
theorem Instruction.all_iff {i : Instruction} : i.All P ↔ ∀ v ∈ i.readVars ++ i.outputs, P v := by
  rw [List.forall_mem_append]
  refine and_congr_left fun _ => ⟨fun h v hv => ?_, fun h r hr => Operand.all_iff.2 fun v hv => ?_⟩
  · obtain ⟨r, hr, hv⟩ := List.mem_filterMap.1 hv
    exact Operand.all_iff.1 (h r hr) v (Option.mem_toList.2 hv)
  · exact h v (List.mem_filterMap.2 ⟨r, hr, Option.mem_toList.1 hv⟩)

/-- A variable of a trigger is declared or read by it. -/
theorem Trigger.mem_occurrences {t : Trigger} {v : Var} :
    v ∈ t.occurrences ↔ v ∈ t.declared ∨ ∃ a ∈ t.reads, v ∈ a.var?.toList := by
  cases t with
  | wait vars target mode => simp [occurrences, declared, reads, Operand.var?]
  | range index start stop step => simp [occurrences, declared, reads]
  | foreach array member => simp [occurrences, declared, reads, Operand.var?, eq_comm, or_comm]

end OfVars

mutual
/-- The variables of the instructions of a block occur in it. -/
theorem Block.occurrences_of_instructions : ∀ b : Block, ∀ i ∈ b.instructions,
    i.readVars ++ i.outputs ⊆ b.occurrences
  | .mk _ body, i, hi =>
    List.subset_append_of_subset_right _ (Body.occurrences_of_instructions body i hi)
theorem Body.occurrences_of_instructions : ∀ b : Body, ∀ i ∈ b.instructions,
    i.readVars ++ i.outputs ⊆ b.occurrences
  | .done, i, hi => nomatch hi
  | .instr j rest, i, hi => by
    rcases List.mem_cons.1 hi with rfl | hi
    · exact List.subset_append_left _ _
    · exact List.subset_append_of_subset_right _ (Body.occurrences_of_instructions rest i hi)
  | .cont c rest, i, hi => by
    rcases List.mem_append.1 hi with hi | hi
    · exact List.subset_append_of_subset_left _ (Continuation.occurrences_of_instructions c i hi)
    · exact List.subset_append_of_subset_right _ (Body.occurrences_of_instructions rest i hi)
theorem Continuation.occurrences_of_instructions : ∀ c : Continuation, ∀ i ∈ c.instructions,
    i.readVars ++ i.outputs ⊆ c.occurrences
  | .ifElse condition t e, i, hi => by
    rw [Continuation.occurrences, List.append_assoc]
    refine List.subset_append_of_subset_right _ ?_
    rcases List.mem_append.1 hi with hi | hi
    · exact List.subset_append_of_subset_left _ (Block.occurrences_of_instructions t i hi)
    · exact List.subset_append_of_subset_right _ (Block.occurrences_of_instructions e i hi)
  | .switch value arms, i, hi =>
    List.subset_append_of_subset_right _ (Arms.occurrences_of_instructions arms i hi)
  | .deferred trigger b, i, hi =>
    List.subset_append_of_subset_right _ (Block.occurrences_of_instructions b i hi)
  | .nested b, i, hi => Block.occurrences_of_instructions b i hi
theorem Arms.occurrences_of_instructions : ∀ arms : Arms, ∀ i ∈ arms.instructions,
    i.readVars ++ i.outputs ⊆ arms.occurrences
  | .none, i, hi => nomatch hi
  | .default b, i, hi => Block.occurrences_of_instructions b i hi
  | .case label b rest, i, hi => by
    rcases List.mem_append.1 hi with hi | hi
    · exact List.subset_append_of_subset_left _ (Block.occurrences_of_instructions b i hi)
    · exact List.subset_append_of_subset_right _ (Arms.occurrences_of_instructions rest i hi)
end

namespace Numbering

variable {v : Visit Block} {c : Congruence} {V : Vocabulary} {s : State} {ctx : Context}
  {trigger : Trigger} {b : Block}

/-! ## Leaving a scope -/

theorem andThen_fault {α β : Type} {v : Visit α} {rebuild : α → β} {next : α → State → Visit β}
    (h : (v.andThen rebuild next).fault = none) :
    v.fault = none ∧ v.andThen rebuild next = next v.tree v.state := by
  unfold Visit.andThen at h ⊢
  cases hf : v.fault with
  | some e =>
    rw [hf] at h
    cases h
  | none => exact ⟨rfl, rfl⟩

theorem pop_eq {c parent : Congruence} (h : c.outer = parent.scopes) :
    c.pop = .ok (c.top, parent) := by
  unfold Congruence.pop
  rw [h]
  rfl

/-- Leaving the scope of a block hands its facts to the scope around it. -/
theorem leave_eq {merge : Congruence → Scope → Congruence}
    (hf : v.fault = none) (ho : v.state.facts.outer = c.scopes) :
    leave merge v = ⟨v.tree, { v.state with facts := merge c v.state.facts.top }, none⟩ := by
  unfold leave Visit.andThen
  simp only [hf, pop_eq ho]

/-- Leaving the scope of an arm gives the scope back. -/
theorem leaveArm_eq (hf : v.fault = none)
    (ho : v.state.facts.outer = c.scopes) :
    leaveArm v = ⟨(v.tree, v.state.facts.top), { v.state with facts := c }, none⟩ := by
  unfold leaveArm Visit.andThen
  simp only [hf, pop_eq ho]

theorem leave_fault {merge : Congruence → Scope → Congruence}
    (h : (leave merge v).fault = none) : v.fault = none := (andThen_fault h).1

theorem leaveArm_fault (h : (leaveArm v).fault = none) : v.fault = none :=
  (andThen_fault h).1

/-! ## Entering a block -/

/-- The state in which the body of a block is walked. -/
def enterBlock (vars : List Var) (s : State) : State :=
  { s with nextBlock := s.nextBlock + 1, facts := vars.foldl Congruence.declare s.facts }

theorem visitBlock_eq (ctx : Context) (vars : List Var) (body : Body) (s : State) :
    visitBlock ctx (.mk vars body) s
      = (visitBody ctx s.nextBlock body (enterBlock vars s)).map (.mk vars) := by
  rw [visitBlock]
  rfl

theorem foldl_declare_spec (vars : List Var) (c : Congruence) :
    let c' := vars.foldl Congruence.declare c
    c'.outer = c.outer ∧ c'.top.kind = c.top.kind ∧ c'.top.defined = c.top.defined
      ∧ c'.top.canonical = c.top.canonical ∧ c'.top.values = c.top.values
      ∧ c'.top.invalidated = c.top.invalidated ∧ c'.top.poisoned = c.top.poisoned
      ∧ (∀ n, n ∈ c'.top.declared ↔ n ∈ c.top.declared ∨ ∃ v ∈ vars, v.name = n) := by
  induction vars generalizing c with
  | nil => simp
  | cons v vars ih =>
    obtain ⟨h₁, h₂, h₃, h₄, h₅, h₆, h₇, h₈⟩ := ih (c.declare v)
    refine ⟨h₁, h₂, h₃, h₄, h₅, h₆, h₇, fun n => (h₈ n).trans ?_⟩
    simp only [Congruence.declare, List.mem_cons, exists_eq_or_imp]
    grind

theorem tidy_foldl_declare (vars : List Var)
    (h : V.Tidy c.scopes) : V.Tidy (vars.foldl Congruence.declare c).scopes := by
  induction vars generalizing c with
  | nil => exact h
  | cons v vars ih => exact ih (Congruence.tidy_declare h v)

/-- The names that are declared in a block. -/
theorem mem_names_foldl_declare {vars : List Var} {n : String} :
    n ∈ (vars.foldl Congruence.declare c).names ↔ n ∈ c.names ∨ ∃ v ∈ vars, v.name = n := by
  obtain ⟨h₁, -, -, -, -, -, -, h₈⟩ := foldl_declare_spec vars c
  rw [Congruence.mem_names, Congruence.mem_names, h₁, h₈]
  grind

theorem definedNames_foldl_declare (vars : List Var) (c : Congruence) :
    (vars.foldl Congruence.declare c).definedNames = c.definedNames := by
  obtain ⟨h₁, -, h₃, -⟩ := foldl_declare_spec vars c
  unfold Congruence.definedNames Congruence.scopes
  rw [List.flatMap_cons, List.flatMap_cons, h₁, h₃]

theorem WellFormed.enterBlock (h : WellFormed V s) (vars : List Var) :
    WellFormed V (enterBlock vars s) := ⟨tidy_foldl_declare vars h.tidy, h.constants⟩

theorem WellFormed.push (h : WellFormed V s) (kind : ScopeKind) :
    WellFormed V (s.push kind) := ⟨Congruence.tidy_push h.tidy kind, h.constants⟩

theorem WellFormed.of_quiet {s s' : State} (h : WellFormed V s) (hq : Quiet s s') :
    WellFormed V s' := ⟨hq.facts ▸ h.tidy, hq.pool ▸ h.constants⟩

/-! ## Continuations, kind by kind -/

theorem Quiet.trans {s s' s'' : State} (h : Quiet s s') (h' : Quiet s' s'') : Quiet s s'' :=
  ⟨h'.facts.trans h.facts, h'.pool.trans h.pool, h'.marks.trans h.marks,
    h'.nextBlock.trans h.nextBlock⟩

/-- The variables that govern a continuation are checked. -/
theorem knows_of_visitContinuation {c : Continuation}
    (h : (visitContinuation ctx c s).fault = none) : ∀ v ∈ c.readVars, s.knows v = true := by
  unfold visitContinuation at h
  cases hu : ctx.undeclared? s c.readVars with
  | none => exact undeclared?_eq_none.1 hu
  | some e => simp [hu] at h

/-- The state in which the blocks of a continuation are walked: the entry is
noted, and the operand that governs a conditional is replaced. -/
def governed (c : Continuation) (s : State) : State :=
  let s := s.emit (.entering c.kind s.facts.depth)
  match c with
  | .ifElse a _ _ => (substituteOperand a s).2
  | .switch a _ => (substituteOperand a s).2
  | .deferred .. => s
  | .nested _ => s

theorem quiet_governed (c : Continuation) (s : State) : Quiet s (governed c s) := by
  cases c <;> exact ⟨rfl, rfl, rfl, rfl⟩

/-- A conditional: both arms are walked, each in a scope of its own, and then
combined. -/
theorem visitIfElse_eq {condition : Operand} {t e : Block}
    (h : (visitContinuation ctx (.ifElse condition t e) s).fault = none) :
    let s₁ := governed (.ifElse condition t e) s
    let first := leaveArm (visitBlock ctx t (s₁.push .branch))
    let second := leaveArm (visitBlock ctx e (first.state.push .branch))
    first.fault = none ∧ second.fault = none
      ∧ visitContinuation ctx (.ifElse condition t e) s
        = ⟨.ifElse (replace s.facts .value condition) first.tree.1 second.tree.1,
            mergeArms ctx [first.tree.2, second.tree.2] second.state, none⟩ := by
  unfold visitContinuation at h ⊢
  cases hu : ctx.undeclared? s (Continuation.ifElse condition t e).readVars with
  | some e => simp [hu] at h
  | none =>
    simp only [hu] at h ⊢
    obtain ⟨h₁, heq₁⟩ := andThen_fault h
    rw [heq₁] at h
    obtain ⟨h₂, heq₂⟩ := andThen_fault h
    exact ⟨h₁, h₂, heq₁.trans heq₂⟩

/-- A switch: the arms are walked and then combined. -/
theorem visitSwitch_eq {value : Operand} {arms : Arms}
    (h : (visitContinuation ctx (.switch value arms) s).fault = none) :
    let walked := visitArms ctx arms (governed (.switch value arms) s)
    walked.fault = none
      ∧ visitContinuation ctx (.switch value arms) s
        = ⟨.switch (replace s.facts .value value) walked.tree.1,
            mergeArms ctx walked.tree.2 walked.state, none⟩ := by
  unfold visitContinuation at h ⊢
  cases hu : ctx.undeclared? s (Continuation.switch value arms).readVars with
  | some e => simp [hu] at h
  | none =>
    simp only [hu] at h ⊢
    exact andThen_fault h

/-- A deferred block is walked in the scope that its trigger enters. -/
theorem visitDeferred_eq {trigger : Trigger}
    (h : (visitContinuation ctx (.deferred trigger b) s).fault = none) :
    let entered := enterDeferred ctx trigger (governed (.deferred trigger b) s)
    let left := leave .mergeDeferred (visitBlock ctx b entered.state)
    entered.fault = none ∧ left.fault = none
      ∧ visitContinuation ctx (.deferred trigger b) s = left.map (.deferred entered.tree) := by
  unfold visitContinuation at h ⊢
  cases hu : ctx.undeclared? s (Continuation.deferred trigger b).readVars with
  | some e => simp [hu] at h
  | none =>
    simp only [hu] at h ⊢
    obtain ⟨h₁, heq₁⟩ := andThen_fault h
    rw [heq₁] at h
    exact ⟨h₁, h, heq₁⟩

/-- A nested block is walked in a scope of its own. -/
theorem visitNested_eq (h : (visitContinuation ctx (.nested b) s).fault = none) :
    let left := leave .mergeNested (visitBlock ctx b ((governed (.nested b) s).push .nested))
    left.fault = none ∧ visitContinuation ctx (.nested b) s = left.map .nested := by
  unfold visitContinuation at h ⊢
  cases hu : ctx.undeclared? s (Continuation.nested b).readVars with
  | some e => simp [hu] at h
  | none =>
    simp only [hu] at h ⊢
    exact ⟨h, rfl⟩

/-- The arms of a switch, one after the other. -/
theorem visitCase_cases {label : Int64} {rest : Arms}
    (h : (visitArms ctx (.case label b rest) s).fault = none) :
    let first := leaveArm (visitBlock ctx b (s.push .branch))
    let others := visitArms ctx rest first.state
    first.fault = none ∧ others.fault = none
      ∧ visitArms ctx (.case label b rest) s
        = ⟨(.case label first.tree.1 others.tree.1, first.tree.2 :: others.tree.2),
            others.state, none⟩ := by
  rw [visitArms] at h ⊢
  obtain ⟨h₁, heq₁⟩ := andThen_fault h
  rw [heq₁] at h ⊢
  have h₂ : (visitArms ctx rest _).fault = none := h
  refine ⟨h₁, h₂, ?_⟩
  unfold Visit.map
  rw [h₂]

theorem visitDefault_cases (h : (visitArms ctx (.default b) s).fault = none) :
    let first := leaveArm (visitBlock ctx b (s.push .branch))
    first.fault = none
      ∧ visitArms ctx (.default b) s
        = ⟨(.default first.tree.1, [first.tree.2]), first.state, none⟩ := by
  rw [visitArms] at h ⊢
  have h₁ : (leaveArm (visitBlock ctx b (s.push .branch))).fault = none := h
  refine ⟨h₁, ?_⟩
  unfold Visit.map
  rw [h₁]

/-! ## Deferred blocks -/

theorem quiet_foldl_emit (events : Var → Event) (vars : List Var) (s : State) :
    Quiet s (vars.foldl (fun s v => s.emit (events v)) s) := by
  induction vars generalizing s with
  | nil => exact .refl s
  | cons v vars ih =>
    have hemit : Quiet s (s.emit (events v)) := ⟨rfl, rfl, rfl, rfl⟩
    exact hemit.trans (ih (s.emit (events v)))

/-- The variables that are still waited for. -/
def keptWaits (ctx : Context) (facts : Congruence) (vars : List Var) : List Var :=
  if ctx.settings.pruneWaits then vars.filter (fun v => !isAvailable facts v) else vars

theorem keptWaits_subset (ctx : Context) (facts : Congruence) (vars : List Var) :
    keptWaits ctx facts vars ⊆ vars := by
  unfold keptWaits
  split
  · exact fun _ hv => (List.mem_filter.1 hv).1
  · exact List.Subset.refl _

/-- A wait: the variables that are kept are closed in a new scope. -/
theorem enterWait_spec (ctx : Context) (vars : List Var) (target : Target) (mode : WaitMode)
    (s : State) :
    let kept := keptWaits ctx s.facts vars
    (enterDeferred ctx (.wait vars target mode) s).tree = .wait kept target mode
      ∧ Quiet { s with facts := kept.foldl Congruence.close (s.facts.push .deferred) }
        (enterDeferred ctx (.wait vars target mode) s).state := by
  unfold enterDeferred keptWaits
  simp only
  split
  · have hq := quiet_foldl_emit (fun v => .notWaiting ctx.function v)
      (vars.filter (isAvailable s.facts)) s
    unfold pruneWaits
    simp only [List.partition_eq_filter_filter]
    refine ⟨rfl, ?_, hq.pool, hq.marks, hq.nextBlock⟩
    simp only [State.push, hq.facts]
    rfl
  · exact ⟨rfl, .refl _⟩

/-- A range: its index is declared, assigned and closed in a new scope. -/
theorem enterRange_cases {index : Var} {start stop step : Operand}
    (h : (enterDeferred ctx (.range index start stop step) s).fault = none) :
    ∃ facts, ((s.facts.push .deferred).declare index).define index = .ok facts
      ∧ (enterDeferred ctx (.range index start stop step) s).tree
        = .range index (replace s.facts .value start) (replace s.facts .value stop)
          (replace s.facts .value step)
      ∧ Quiet { s with facts := facts.close index }
        (enterDeferred ctx (.range index start stop step) s).state := by
  unfold enterDeferred at h ⊢
  simp only [substituteOperand, State.replaced, State.push] at h ⊢
  cases hd : ((s.facts.push .deferred).declare index).define index with
  | error e => simp [hd] at h
  | ok facts => exact ⟨facts, rfl, rfl, ⟨rfl, rfl, rfl, rfl⟩⟩

/-- **The trigger of a deferred block that is entered** declares and assigns
what it did, and it reads what it read, or what stands for it. -/
theorem tree_enterDeferred
    (h : (enterDeferred ctx trigger s).fault = none) :
    (enterDeferred ctx trigger s).tree.declared = trigger.declared
      ∧ (enterDeferred ctx trigger s).tree.assigned = trigger.assigned
      ∧ ∀ a ∈ (enterDeferred ctx trigger s).tree.reads,
        ∃ b ∈ trigger.reads, a = b ∨ a = replace s.facts .value b := by
  cases trigger with
  | wait vars target mode =>
    rw [(enterWait_spec ctx vars target mode s).1]
    refine ⟨rfl, rfl, fun a ha => ⟨a, ?_, .inl rfl⟩⟩
    obtain ⟨v, hv, rfl⟩ := List.mem_map.1 ha
    exact List.mem_map_of_mem (keptWaits_subset ctx s.facts vars hv)
  | range index start stop step =>
    obtain ⟨-, -, htree, -⟩ := enterRange_cases h
    rw [htree]
    refine ⟨rfl, rfl, fun a ha => ?_⟩
    obtain ⟨b, hb, rfl⟩ :=
      List.mem_map.1 (show a ∈ [start, stop, step].map (replace s.facts .value) from ha)
    exact ⟨b, hb, .inr rfl⟩
  | foreach array member => exact ⟨rfl, rfl, fun a ha => ⟨a, ha, .inl rfl⟩⟩

/-- What the variables of a trigger have, they have when its block is entered,
if what stands for them has it. -/
theorem forall_occurrences_enterDeferred {P : Var → Prop}
    (h : (enterDeferred ctx trigger s).fault = none) (ht : ∀ v ∈ trigger.occurrences, P v)
    (hreplace : ∀ a ∈ trigger.reads, (replace s.facts .value a).All P) :
    ∀ v ∈ (enterDeferred ctx trigger s).tree.occurrences, P v := by
  obtain ⟨hdeclared, -, hreads⟩ := tree_enterDeferred h
  intro v hv
  rcases Trigger.mem_occurrences.1 hv with hv | ⟨a, ha, hv⟩
  · exact ht v (Trigger.mem_occurrences.2 (.inl (hdeclared ▸ hv)))
  · obtain ⟨b, hb, rfl | rfl⟩ := hreads a ha
    · exact ht v (Trigger.mem_occurrences.2 (.inr ⟨a, hb, hv⟩))
    · exact Operand.all_iff.1 (hreplace b hb) v hv

/-- **The scope of a deferred block** is entered tidily. -/
theorem wellFormed_enterDeferred (hs : WellFormed V s) (ht : ∀ v ∈ trigger.occurrences, V.text v)
    (hknown : ∀ v ∈ trigger.reads.filterMap Operand.var?, s.knows v = true)
    (h : (enterDeferred ctx trigger s).fault = none) :
    WellFormed V (enterDeferred ctx trigger s).state := by
  have hpush := Congruence.tidy_push hs.tidy .deferred
  cases trigger with
  | wait vars target mode =>
    obtain ⟨-, hq⟩ := enterWait_spec ctx vars target mode s
    refine ⟨hq.facts ▸ Congruence.tidy_foldl_close hpush fun v hv => ?_, hq.pool ▸ hs.constants⟩
    have hv' := keptWaits_subset ctx s.facts vars hv
    refine names_of_knows (hknown v ?_) (ht v hv')
    exact List.mem_filterMap.2 ⟨.var v, List.mem_map.2 ⟨v, hv', rfl⟩, rfl⟩
  | range index start stop step =>
    obtain ⟨facts, hd, -, hq⟩ := enterRange_cases h
    have hfacts : V.Tidy facts.scopes :=
      Congruence.tidy_define (Congruence.tidy_declare hpush index) hd
    obtain ⟨-, rfl⟩ := Congruence.define_eq_ok.1 hd
    have htidy := Congruence.tidy_close hfacts
      (.inr ⟨ht index List.mem_cons_self, List.mem_cons_self⟩)
    exact ⟨hq.facts ▸ htidy, hq.pool ▸ hs.constants⟩
  | foreach array member => exact ⟨Congruence.tidy_declare hpush member, hs.constants⟩

/-! ## Block numbers

A block that is entered with number `n` uses as many numbers as it has blocks,
and the walk changes the number of blocks nowhere. So a later pass over the
walked tree can tell the numbers again. -/

theorem nextBlock_visitInstruction {block : Nat} {i : Instruction} {s : State}
    (h : (visitInstruction ctx block i s).fault = none) :
    (visitInstruction ctx block i s).state.nextBlock = s.nextBlock := by
  obtain ⟨facts, removable, values, -, -, -, hvalues, heq⟩ := visitInstruction_cases h
  obtain ⟨-, -, -, hnext₂⟩ := carriedOut_phases ctx i facts s
  have hn : Notes ctx block _ _
      (values.foldl (bind ctx block removable) (carriedOut ctx i facts s)) :=
    notes_foldl_bind (Instruction.outs_signatures hvalues) (carriedOut ctx i facts s)
  obtain ⟨-, -, hnext₄, -⟩ := foldIf_cases ctx block (i.mapOperands (replace s.facts))
    (values.foldl (bind ctx block removable) (carriedOut ctx i facts s))
  rw [heq]
  exact hnext₄.trans (hn.nextBlock.trans hnext₂)

/-- What a walk has noted beside the facts: the constants and the marks. -/
def State.notes (s : State) : Pool × Marks := (s.pool, s.marks)

/-- Entering a deferred block changes nothing but facts and counters. -/
theorem enterDeferred_frame (trigger : Trigger) (s : State) :
    (enterDeferred ctx trigger s).state.nextBlock = s.nextBlock
      ∧ (enterDeferred ctx trigger s).state.notes = s.notes := by
  cases trigger with
  | wait vars target mode =>
    have hquiet := (enterWait_spec ctx vars target mode s).2
    exact ⟨hquiet.nextBlock, congrArg₂ Prod.mk hquiet.pool hquiet.marks⟩
  | range index start stop step =>
    unfold enterDeferred
    simp only [substituteOperand, State.replaced, State.push]
    split <;> exact ⟨rfl, rfl⟩
  | foreach array member => exact ⟨rfl, rfl⟩

theorem nextBlock_enterDeferred (trigger : Trigger) (s : State) :
    (enterDeferred ctx trigger s).state.nextBlock = s.nextBlock := (enterDeferred_frame trigger s).1

theorem pool_enterDeferred (trigger : Trigger) (s : State) :
    (enterDeferred ctx trigger s).state.pool = s.pool :=
  congrArg Prod.fst (enterDeferred_frame trigger s).2

/-- **The books of a walk**: the number of the next block, and the changes
counted so far. -/
def State.books (s : State) : Nat × Stats := (s.nextBlock, { s.stats with factsRetained := 0 })

/-- Leaving a block changes nothing but the facts. -/
theorem leave_frame (merge : Congruence → Scope → Congruence) (v : Visit Block) :
    (leave merge v).tree = v.tree ∧ (leave merge v).state.nextBlock = v.state.nextBlock
      ∧ (leave merge v).state.books = v.state.books
        ∧ (leave merge v).state.notes = v.state.notes := by
  unfold leave Visit.andThen
  split
  · exact ⟨rfl, rfl, rfl, rfl⟩
  · simp only
    split <;> exact ⟨rfl, rfl, rfl, rfl⟩

theorem leaveArm_frame (v : Visit Block) :
    (leaveArm v).tree.1 = v.tree ∧ (leaveArm v).state.nextBlock = v.state.nextBlock
      ∧ (leaveArm v).state.books = v.state.books ∧ (leaveArm v).state.notes = v.state.notes := by
  unfold leaveArm Visit.andThen
  split
  · exact ⟨rfl, rfl, rfl, rfl⟩
  · simp only
    split <;> exact ⟨rfl, rfl, rfl, rfl⟩

/-- **A relation that follows the books of a walk**: between the state and a
part of the tree before the walk over this part, and those behind it. Facts and
marks do not matter, so scopes may be entered and left on the way. -/
structure Accounts (ctx : Context) (B : State → Block → State → Block → Prop)
    (D : State → Body → State → Body → Prop)
    (K : State → Continuation → State → Continuation → Prop)
    (A : State → Arms → State → Arms → Prop) : Prop where
  block_congr : ∀ {s s' t t' b b'}, B s b s' b' → t.books = s.books →
    t'.books = s'.books → B t b t' b'
  cont_congr : ∀ {s s' t t' c c'}, K s c s' c' → t.books = s.books →
    t'.books = s'.books → K t c t' c'
  block : ∀ {s s' vars body body'}, D (enterBlock vars s) body s' body' →
    B s (.mk vars body) s' (.mk vars body')
  done : ∀ {s}, D s .done s .done
  instr : ∀ {s s' block i rest rest'}, (visitInstruction ctx block i s).fault = none →
    D (visitInstruction ctx block i s).state rest s' rest' →
    D s (.instr i rest) s' (.instr (visitInstruction ctx block i s).tree rest')
  cont : ∀ {s s₁ s' c c' rest rest'}, K s c s₁ c' → D s₁ rest s' rest' →
    D s (.cont c rest) s' (.cont c' rest')
  ifElse : ∀ {s s₁ s' a t t' e e'}, B (substituteOperand a s).2 t s₁ t' → B s₁ e s' e' →
    K s (.ifElse a t e) s' (.ifElse (substituteOperand a s).1 t' e')
  switch : ∀ {s s' a arms arms'}, A (substituteOperand a s).2 arms s' arms' →
    K s (.switch a arms) s' (.switch (substituteOperand a s).1 arms')
  deferred : ∀ {s s' trigger b b'}, B (enterDeferred ctx trigger s).state b s' b' →
    K s (.deferred trigger b) s' (.deferred (enterDeferred ctx trigger s).tree b')
  nested : ∀ {s s' b b'}, B s b s' b' → K s (.nested b) s' (.nested b')
  noArms : ∀ {s}, A s .none s .none
  default : ∀ {s s' b b'}, B s b s' b' → A s (.default b) s' (.default b')
  case : ∀ {s s₁ s' label b b' rest rest'}, B s b s₁ b' → A s₁ rest s' rest' →
    A s (.case label b rest) s' (.case label b' rest')

namespace Accounts

variable {B : State → Block → State → Block → Prop} {D : State → Body → State → Body → Prop}
  {K : State → Continuation → State → Continuation → Prop} {A : State → Arms → State → Arms → Prop}

theorem leave (h : Accounts ctx B D K A) {s t : State} {b : Block} {v : Visit Block}
    (hb : B t b v.state v.tree) (ht : s.books = t.books) (merge : Congruence → Scope → Congruence) :
    B s b (Numbering.leave merge v).state (Numbering.leave merge v).tree := by
  obtain ⟨htree, -, hbooks, -⟩ := leave_frame merge v
  rw [htree]
  exact h.block_congr hb ht hbooks

theorem leaveArm (h : Accounts ctx B D K A) {s : State} {b : Block} {v : Visit Block}
    (hb : B (s.push .branch) b v.state v.tree) :
    B s b (Numbering.leaveArm v).state (Numbering.leaveArm v).tree.1 := by
  obtain ⟨htree, -, hbooks, -⟩ := leaveArm_frame v
  rw [htree]
  exact h.block_congr hb rfl hbooks

variable (h : Accounts ctx B D K A)
include h

mutual
/-- **The relation holds across the walk over a block.** -/
theorem visitBlock : ∀ (b : Block) (s : State), (visitBlock ctx b s).fault = none →
    B s b (visitBlock ctx b s).state (visitBlock ctx b s).tree
  | .mk vars body, s, hf => by
    rw [visitBlock_eq] at hf ⊢
    exact h.block (visitBody s.nextBlock body (enterBlock vars s) hf)
theorem visitBody (block : Nat) : ∀ (b : Body) (s : State),
    (visitBody ctx block b s).fault = none →
    D s b (visitBody ctx block b s).state (visitBody ctx block b s).tree
  | .done, s, _ => h.done
  | .instr i rest, s, hf => by
    rw [Numbering.visitBody] at hf ⊢
    obtain ⟨hf₁, heq⟩ := andThen_fault hf
    rw [heq] at hf ⊢
    exact h.instr hf₁ (visitBody block rest _ hf)
  | .cont c rest, s, hf => by
    rw [Numbering.visitBody] at hf ⊢
    obtain ⟨hf₁, heq⟩ := andThen_fault hf
    rw [heq] at hf ⊢
    exact h.cont (visitContinuation c s hf₁) (visitBody block rest _ hf)
theorem visitContinuation : ∀ (c : Continuation) (s : State),
    (visitContinuation ctx c s).fault = none →
    K s c (visitContinuation ctx c s).state (visitContinuation ctx c s).tree
  | .ifElse a t e, s, hf => by
    obtain ⟨hf₁, hf₂, heq⟩ := visitIfElse_eq hf
    have ht := h.leaveArm (visitBlock t _ (leaveArm_fault hf₁))
    have he := h.leaveArm (visitBlock e _ (leaveArm_fault hf₂))
    rw [heq]
    exact h.cont_congr (h.ifElse
      (s := s.emit (.entering (Continuation.ifElse a t e).kind s.facts.depth)) ht he) rfl rfl
  | .switch a arms, s, hf => by
    obtain ⟨hf₁, heq⟩ := visitSwitch_eq hf
    have harms := visitArms arms _ hf₁
    rw [heq]
    exact h.cont_congr (h.switch
      (s := s.emit (.entering (Continuation.switch a arms).kind s.facts.depth)) harms) rfl rfl
  | .deferred trigger b, s, hf => by
    obtain ⟨hf₁, hf₂, heq⟩ := visitDeferred_eq hf
    rw [heq]
    exact h.cont_congr
      (h.deferred (h.leave (visitBlock b _ (leave_fault hf₂)) rfl .mergeDeferred)) rfl rfl
  | .nested b, s, hf => by
    obtain ⟨hf₁, heq⟩ := visitNested_eq hf
    rw [heq]
    exact h.nested (h.leave (s := s) (visitBlock b _ (leave_fault hf₁)) rfl .mergeNested)
theorem visitArms : ∀ (arms : Arms) (s : State), (visitArms ctx arms s).fault = none →
    A s arms (visitArms ctx arms s).state (visitArms ctx arms s).tree.1
  | .none, s, _ => h.noArms
  | .default b, s, hf => by
    obtain ⟨hf₁, heq⟩ := visitDefault_cases hf
    rw [heq]
    exact h.default (h.leaveArm (visitBlock b _ (leaveArm_fault hf₁)))
  | .case label b rest, s, hf => by
    obtain ⟨hf₁, hf₂, heq⟩ := visitCase_cases hf
    rw [heq]
    exact h.case (h.leaveArm (visitBlock b _ (leaveArm_fault hf₁))) (visitArms rest _ hf₂)
end

end Accounts

/-- A walk has used so many numbers, over a part of the tree that has as many
blocks as before. -/
def Numbers (s s' : State) (blocks blocks' : Nat) : Prop :=
  s'.nextBlock = s.nextBlock + blocks ∧ blocks' = blocks

/-- **A walked block has used as many numbers as it has blocks.** -/
theorem accounts_numbers : Accounts ctx (fun s b s' b' => Numbers s s' b.blockCount b'.blockCount)
    (fun s b s' b' => Numbers s s' b.blockCount b'.blockCount)
    (fun s c s' c' => Numbers s s' c.blockCount c'.blockCount)
    (fun s arms s' arms' => Numbers s s' arms.blockCount arms'.blockCount) where
  block_congr h hs hs' :=
    ⟨(congrArg Prod.fst hs').trans (h.1.trans (congrArg (·.1 + _) hs.symm)), h.2⟩
  cont_congr h hs hs' :=
    ⟨(congrArg Prod.fst hs').trans (h.1.trans (congrArg (·.1 + _) hs.symm)), h.2⟩
  block h := ⟨h.1.trans (Nat.add_right_comm _ 1 _), congrArg (· + 1) h.2⟩
  done := ⟨rfl, rfl⟩
  instr hf h := ⟨h.1.trans (congrArg (· + _) (nextBlock_visitInstruction hf)), h.2⟩
  cont h h' := ⟨h'.1.trans ((congrArg (· + _) h.1).trans (Nat.add_assoc _ _ _)),
    congrArg₂ (· + ·) h.2 h'.2⟩
  ifElse ht he := ⟨he.1.trans ((congrArg (· + _) ht.1).trans (Nat.add_assoc _ _ _)),
    congrArg₂ (· + ·) ht.2 he.2⟩
  switch h := h
  deferred h := ⟨h.1.trans (congrArg (· + _) (nextBlock_enterDeferred _ _)), h.2⟩
  nested h := h
  noArms := ⟨rfl, rfl⟩
  default h := h
  case h h' := ⟨h'.1.trans ((congrArg (· + _) h.1).trans (Nat.add_assoc _ _ _)),
    congrArg₂ (· + ·) h.2 h'.2⟩

theorem numbers_visitBlock (b : Block) (s : State) (h : (visitBlock ctx b s).fault = none) :
    (visitBlock ctx b s).state.nextBlock = s.nextBlock + b.blockCount
      ∧ (visitBlock ctx b s).tree.blockCount = b.blockCount :=
  accounts_numbers.visitBlock b s h

theorem numbers_leaveArm {s : State}
    (hf : (leaveArm (visitBlock ctx b (s.push .branch))).fault = none) :
    (leaveArm (visitBlock ctx b (s.push .branch))).state.nextBlock = s.nextBlock + b.blockCount
      ∧ (leaveArm (visitBlock ctx b (s.push .branch))).tree.1.blockCount = b.blockCount := by
  obtain ⟨htree, hnext, -⟩ := leaveArm_frame (visitBlock ctx b (s.push .branch))
  rw [htree, hnext]
  exact numbers_visitBlock b _ (leaveArm_fault hf)

theorem numbers_visitContinuation (c : Continuation) (s : State)
    (h : (visitContinuation ctx c s).fault = none) :
    (visitContinuation ctx c s).state.nextBlock = s.nextBlock + c.blockCount
      ∧ (visitContinuation ctx c s).tree.blockCount = c.blockCount :=
  accounts_numbers.visitContinuation c s h

end Numbering

end ValueFlow
