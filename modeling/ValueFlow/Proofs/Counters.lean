import ValueFlow.Proofs.GroundedRuns

/-!
# Counters tell whether something was changed

Whatever numbering changes in a function it counts: replaced operands, variables
that are not waited for any more, folded instructions and deleted ones. So a run
that counts nothing leaves the function as it was (`function_run_of_unchanged`),
and so does replacing conditionals (`Block.foldBranches_of_zero`).

The walk is followed by its counters only. They never go down, and if they are
the same behind a part of the tree as before it, this part was left as it was
(`Counted`).
-/

namespace ValueFlow

/-- How many changes numbering has counted. -/
def Stats.edits (s : Stats) : Nat :=
  s.instructionsRemoved + s.operandsReplaced + s.waitVarsPruned + s.instructionsFolded

theorem Stats.changed_eq_false {s : Stats} :
    s.changed = false ↔ s.edits = 0 ∧ s.branchesFolded = 0 := by
  unfold changed edits
  rw [decide_eq_false_iff_not]
  omega

namespace Numbering

/-- **A walk from one state to another counts what it changes** in a part of the
tree: the counters do not go down, and if they are as before, so is the part. -/
structure Counted {α : Type} (s s' : State) (before after : α) : Prop where
  le : s.stats.edits ≤ s'.stats.edits
  same : s'.stats.edits = s.stats.edits → after = before

namespace Counted

variable {α β γ : Type} {a a' : α} {b b' : β} {s s' s'' : State}

/-- A part that is not changed. -/
theorem rfl (h : s'.stats.edits = s.stats.edits) : Counted s s' a a := ⟨h.ge, fun _ => Eq.refl a⟩

/-- A part is changed twice. -/
theorem trans {c : α} (h : Counted s s' a a') (h' : Counted s' s'' a' c) : Counted s s'' a c := by
  have hle := h.le
  have hle' := h'.le
  refine ⟨hle.trans hle', fun heq => ?_⟩
  rw [h'.same (by omega), h.same (by omega)]

/-- Two parts are changed, one after the other. -/
theorem both (h : Counted s s' a a') (h' : Counted s' s'' b b') (build : α → β → γ) :
    Counted s s'' (build a b) (build a' b') := by
  have hle := h.le
  have hle' := h'.le
  refine ⟨hle.trans hle', fun heq => ?_⟩
  rw [h.same (by omega), h'.same (by omega)]

theorem map (h : Counted s s' a a') (build : α → β) : Counted s s' (build a) (build a') :=
  ⟨h.le, fun heq => congrArg build (h.same heq)⟩

/-- Only the counters matter. -/
theorem of_edits {t t' : State} (h : Counted s s' a a') (hs : t.stats.edits = s.stats.edits)
    (hs' : t'.stats.edits = s'.stats.edits) : Counted t t' a a' :=
  ⟨hs ▸ hs' ▸ h.le, fun heq => h.same (hs'.symm.trans (heq.trans hs))⟩

end Counted

/-! ## Instructions -/

section Instructions

variable {ctx : Context} {block : Nat} {s : State}

theorem stats_write (s : State) (target : Var × List Step) :
    (write ctx s target).stats = s.stats := by
  unfold write
  split
  · rfl
  · simp only
    split <;> rfl

theorem stats_foldl_write (targets : List (Var × List Step)) (s : State) :
    (targets.foldl (write ctx) s).stats = s.stats := by
  induction targets generalizing s with
  | nil => rfl
  | cons target targets ih => rw [List.foldl_cons, ih, stats_write]

theorem stats_bindOutput (removable : Bool) (sig : Signature) (out : Var) (s : State) :
    (bindOutput ctx block removable sig out s).stats = s.stats := by
  obtain ⟨p, hresolve, -⟩ := resolve_snd ctx sig s
  have hstats : (resolve ctx sig s).2.stats = s.stats := by rw [hresolve]
  have hmark : ∀ rep (s : State), (markRedundant block out rep s).stats = s.stats := fun rep s => by
    cases rep <;> rfl
  unfold bindOutput
  simp only
  split
  · split
    · exact hstats
    · split
      · exact (hmark _ _).trans hstats
      · exact hstats
  · split <;> exact hstats

theorem stats_bind (removable : Bool) (s : State) (value : Signature × Binding) :
    (bind ctx block removable s value).stats = s.stats := by
  obtain ⟨sig, binding⟩ := value
  cases binding with
  | output out => exact stats_bindOutput removable _ out s
  | known src =>
    show (bindKnown ctx (s.facts.canonicalize sig) src s).stats = s.stats
    unfold bindKnown
    simp only
    split <;> rfl

theorem stats_foldl_bind (removable : Bool) (values : List (Signature × Binding)) (s : State) :
    (values.foldl (bind ctx block removable) s).stats = s.stats := by
  induction values generalizing s with
  | nil => rfl
  | cons value values ih => rw [List.foldl_cons, ih, stats_bind]

/-- If no operand is counted as replaced, none is. -/
theorem replace_of_countReplaced {facts : Congruence} {reads : List (Role × Operand)}
    (h : countReplaced facts reads = 0) : ∀ r ∈ reads, replace facts r.1 r.2 = r.2 := by
  intro r hr
  have hnone := List.countP_eq_zero.1 h r hr
  unfold replace
  rw [Option.not_isSome_iff_eq_none.1 hnone]
  rfl

theorem edits_replaced (s : State) (n : Nat) : (s.replaced n).stats.edits = s.stats.edits + n := by
  unfold State.replaced Stats.edits
  simp only
  omega

theorem edits_substitute (i : Instruction) (s : State) :
    (substitute i s).2.stats.edits = s.stats.edits + countReplaced s.facts i.replaceable := by
  unfold substitute
  simp only
  split
  · rename_i hn
    rw [hn]
    rfl
  · exact edits_replaced _ _

theorem edits_carriedOut (i : Instruction) (facts : Congruence) (s : State) :
    (carriedOut ctx i facts s).stats.edits
      = s.stats.edits + countReplaced s.facts i.replaceable := by
  unfold carriedOut
  rw [stats_foldl_write]
  exact edits_substitute i s

/-- Folding is counted, or the instruction stays. -/
theorem counted_foldIf (ctx : Context) (block : Nat) (i : Instruction) (s : State) :
    Counted s (foldIf ctx block i s).2 i (foldIf ctx block i s).1 := by
  unfold foldIf
  split
  · unfold fold
    split
    · exact .rfl rfl
    · rename_i dst _
      split
      · simp only
        have hmarks : (if dst.definition
          ≠ .outArg then { s with marks := s.marks.add block dst none } else s).stats.edits
            = s.stats.edits := by split <;> rfl
        generalize (if dst.definition
          ≠ .outArg then { s with marks := s.marks.add block dst none } else s) = s₁
          at hmarks
        split
        · exact .rfl hmarks
        · -- folding counts one
          unfold Stats.edits at hmarks
          refine ⟨?_, fun heq => ?_⟩
          · unfold Stats.edits State.emit
            simp only
            omega
          · unfold Stats.edits State.emit at heq
            simp only at heq
            omega
      · exact .rfl rfl
  · exact .rfl rfl

/-- **The visit of an instruction counts its changes.** -/
theorem counted_visitInstruction {i : Instruction}
    (hf : (visitInstruction ctx block i s).fault = none) :
    Counted s (visitInstruction ctx block i s).state i (visitInstruction ctx block i s).tree := by
  obtain ⟨facts, removable, values, -, -, -, -, heq⟩ := visitInstruction_cases hf
  have hbefore : (values.foldl (bind ctx block removable) (carriedOut ctx i facts s)).stats.edits
      = s.stats.edits + countReplaced s.facts i.replaceable := by
    rw [stats_foldl_bind, edits_carriedOut]
  have hreplaced : Counted s (values.foldl (bind ctx block removable) (carriedOut ctx i facts s)) i
      (i.mapOperands (replace s.facts)) := by
    refine ⟨hbefore ▸ Nat.le_add_right _ _, fun hsame => ?_⟩
    exact Instruction.mapOperands_eq_self (replace_of_countReplaced (by omega))
  rw [heq]
  exact (hreplaced.trans (counted_foldIf ctx block _ _)).of_edits rfl rfl

end Instructions

/-! ## The tree -/

section Tree

variable {ctx : Context}

theorem counted_substituteOperand (a : Operand) (s : State) :
    Counted s (substituteOperand a s).2 a (substituteOperand a s).1 := by
  have hedits : (substituteOperand a s).2.stats.edits
      = s.stats.edits + countReplaced s.facts [(.value, a)] :=
    edits_replaced s _
  refine ⟨hedits ▸ Nat.le_add_right _ _, fun hsame => ?_⟩
  exact replace_of_countReplaced (by omega) (.value, a) (List.mem_singleton_self _)

theorem stats_foldl_emit (events : Var → Event) (vars : List Var) (s : State) :
    (vars.foldl (fun s v => s.emit (events v)) s).stats = s.stats := by
  induction vars generalizing s with
  | nil => rfl
  | cons v vars ih => exact ih _

theorem edits_pruneWaits (ctx : Context) (vars : List Var) (s : State) :
    (pruneWaits ctx vars s).2.stats.edits
      = s.stats.edits + (vars.filter (isAvailable s.facts)).length := by
  unfold pruneWaits
  simp only [List.partition_eq_filter_filter, stats_foldl_emit]
  unfold Stats.edits
  simp only
  omega

/-- **Entering a deferred block counts what it changes in the trigger.** -/
theorem counted_enterDeferred (ctx : Context) (trigger : Trigger) (s : State) :
    Counted s (enterDeferred ctx trigger s).state trigger (enterDeferred ctx trigger s).tree := by
  cases trigger with
  | wait vars target mode =>
    unfold enterDeferred
    by_cases hprune : ctx.settings.pruneWaits = true
    · have hedits := edits_pruneWaits ctx vars s
      simp only [if_pos hprune]
      refine ⟨?_, fun hsame => ?_⟩
      · show s.stats.edits ≤ (pruneWaits ctx vars s).2.stats.edits
        omega
      · have hsame' : (pruneWaits ctx vars s).2.stats.edits = s.stats.edits := hsame
        have hnone : vars.filter (isAvailable s.facts) = [] := List.length_eq_zero_iff.1 (by omega)
        show Trigger.wait (pruneWaits ctx vars s).1 target mode = _
        unfold pruneWaits
        simp only [List.partition_eq_filter_filter]
        rw [List.filter_eq_self.2 fun v hv => ?_]
        have hv' := List.filter_eq_nil_iff.1 hnone v hv
        simpa using hv'
    · simp only [if_neg hprune]
      exact .rfl rfl
  | range index start stop step =>
    have hstart := counted_substituteOperand start s
    have hstop := counted_substituteOperand stop (substituteOperand start s).2
    have hstep := counted_substituteOperand step
      (substituteOperand stop (substituteOperand start s).2).2
    have hall := (hstart.both hstop Prod.mk).both hstep
      fun bounds step => Trigger.range index bounds.1 bounds.2 step
    unfold enterDeferred
    simp only
    split <;> exact hall.of_edits rfl rfl
  | foreach array member => exact .rfl rfl

/-- **The walk over a block counts its changes.** -/
theorem accounts_counted :
    Accounts ctx (fun s b s' b' => Counted s s' b b') (fun s b s' b' => Counted s s' b b')
    (fun s c s' c' => Counted s s' c c') (fun s arms s' arms' => Counted s s' arms arms') where
  block_congr h hs hs' := h.of_edits (congrArg (·.2.edits) hs) (congrArg (·.2.edits) hs')
  cont_congr h hs hs' := h.of_edits (congrArg (·.2.edits) hs) (congrArg (·.2.edits) hs')
  block h := (h.map (Block.mk _)).of_edits rfl rfl
  done := .rfl rfl
  instr hf h := (counted_visitInstruction hf).both h Body.instr
  cont h h' := h.both h' Body.cont
  ifElse ht he := ((counted_substituteOperand _ _).both ht Prod.mk).both he
    fun r e => Continuation.ifElse r.1 r.2 e
  switch h := (counted_substituteOperand _ _).both h Continuation.switch
  deferred h := (counted_enterDeferred _ _ _).both h Continuation.deferred
  nested h := h.map Continuation.nested
  noArms := .rfl rfl
  default h := h.map Arms.default
  case h h' := h.both h' (Arms.case _)

end Tree

/-! ## Conditionals

The walk leaves the count of replaced conditionals to another pass. -/

section Conditionals

variable {ctx : Context}

theorem branchesFolded_visitInstruction {block : Nat} {i : Instruction} {s : State}
    (hf : (visitInstruction ctx block i s).fault = none) :
    (visitInstruction ctx block i s).state.stats.branchesFolded = s.stats.branchesFolded := by
  obtain ⟨facts, removable, values, -, -, -, -, heq⟩ := visitInstruction_cases hf
  have hfold : ∀ (i : Instruction) (s : State), (foldIf ctx block i s).2.stats.branchesFolded
      = s.stats.branchesFolded := by
    intro i s
    unfold foldIf
    split
    · unfold fold
      split
      · rfl
      · split
        · dsimp only
          split <;> split <;> rfl
        · rfl
    · rfl
  rw [heq]
  show (foldIf ctx block _ _).2.stats.branchesFolded = s.stats.branchesFolded
  rw [hfold, stats_foldl_bind]
  unfold carriedOut
  rw [stats_foldl_write]
  unfold substitute
  dsimp only
  split <;> rfl

theorem branchesFolded_enterDeferred (trigger : Trigger) (s : State) :
    (enterDeferred ctx trigger s).state.stats.branchesFolded = s.stats.branchesFolded := by
  cases trigger with
  | wait vars target mode =>
    unfold enterDeferred
    dsimp only
    split
    · show (pruneWaits ctx vars s).2.stats.branchesFolded = _
      unfold pruneWaits
      dsimp only
      rw [stats_foldl_emit]
    · rfl
  | range index start stop step =>
    unfold enterDeferred
    dsimp only
    split <;> rfl
  | foreach array member => rfl

theorem accounts_branchesFolded :
    Accounts ctx (fun s _ s' _ => s'.stats.branchesFolded = s.stats.branchesFolded)
      (fun s _ s' _ => s'.stats.branchesFolded = s.stats.branchesFolded)
      (fun s _ s' _ => s'.stats.branchesFolded = s.stats.branchesFolded)
      (fun s _ s' _ => s'.stats.branchesFolded = s.stats.branchesFolded) where
  block_congr h hs hs' :=
    (congrArg (·.2.branchesFolded) hs').trans (h.trans (congrArg (·.2.branchesFolded) hs).symm)
  cont_congr h hs hs' :=
    (congrArg (·.2.branchesFolded) hs').trans (h.trans (congrArg (·.2.branchesFolded) hs).symm)
  block h := h
  done := rfl
  instr hf h := h.trans (branchesFolded_visitInstruction hf)
  cont h h' := h'.trans h
  ifElse ht he := he.trans ht
  switch h := h
  deferred h := h.trans (branchesFolded_enterDeferred _ _)
  nested h := h
  noArms := rfl
  default h := h
  case h h' := h'.trans h

end Conditionals

/-! ## The cleanup -/

namespace Cleanup

variable (c : Cleanup)

theorem sweepAll_of_nil (outputs : List String) (fuel : Nat) (b : Block)
    (h : (c.sweepAll outputs fuel b).2 = []) : (c.sweepAll outputs fuel b).1 = b := by
  cases fuel with
  | zero => rfl
  | succ fuel =>
    rw [sweepAll] at h ⊢
    simp only at h ⊢
    cases hdeleted : (c.sweepBlock (outputs ++ b.readNames) 0 b).2.1 with
    | nil => exact sweepBlock_of_nil hdeleted
    | cons i deleted =>
      rw [hdeleted] at h
      cases h

end Cleanup

/-- **The cleanup counts its changes.** -/
theorem counted_removeRedundant (ctx : Context) (f : Function) (s : State) :
    Counted s (removeRedundant ctx f s).2 f (removeRedundant ctx f s).1 := by
  unfold removeRedundant
  split
  · exact .rfl rfl
  · let c : Cleanup := ⟨ctx.foreign, s.marks⟩
    let swept := c.sweepAll (f.outputs.map (·.name)) (f.block.instructions.length + 1) f.block
    have hcounts : ∀ deleted stored : Nat, ({ s.stats with
        instructionsRemoved := s.stats.instructionsRemoved + deleted
        instructionsFolded := s.stats.instructionsFolded + stored } : Stats).edits
          = s.stats.edits + deleted + stored := by
      intro deleted stored
      unfold Stats.edits
      simp only
      omega
    have hedits := hcounts swept.2.length (c.storeBlock 0 swept.1).2.1
    refine ⟨(Nat.le_add_right _ _).trans ((Nat.le_add_right _ _).trans hedits.ge), fun hsame => ?_⟩
    have hsame' := hedits.symm.trans hsame
    have hdeleted : swept.2 = [] := List.length_eq_zero_iff.1 (by omega)
    have hstored : (c.storeBlock 0 swept.1).2.1 = 0 := by omega
    show (⟨f.name, f.inputs, f.outputs, f.target, dropDeclarations
      (swept.2.flatMap fun i => i.outputs.map (·.name)) (c.storeBlock 0 swept.1).1⟩ : Function) = f
    rw [c.storeBlock_of_zero 0 _ hstored, hdeleted, List.flatMap_nil, dropDeclarations_nil,
      show swept.1 = f.block from c.sweepAll_of_nil _ _ _ hdeleted]

/-- **A run that counts nothing leaves the function as it was.** -/
theorem function_run_of_unchanged {settings : Settings} {foreign : Foreign}
    {globals created : Constants} {f : Function} {stats : Stats}
    (h : (run settings foreign globals f).result = .ok (stats, created))
    (hunchanged : stats.changed = false) : (run settings foreign globals f).function = f := by
  obtain ⟨ctx, facts, hctx, hin, hfault, -, -⟩ := run_eq_ok h
  have hwalk := (accounts_counted.visitBlock f.block (opened globals f facts) hfault).map
    fun b => { f with block := b }
  have hall := hwalk.trans (counted_removeRedundant ctx _ _)
  rw [run_eq_finish hctx hin hfault] at h ⊢
  obtain ⟨rfl, -⟩ := Prod.mk.inj (Except.ok.inj h)
  exact hall.same (Stats.changed_eq_false.1 hunchanged).1

end Numbering

/-! ## Conditionals on literals -/

mutual
/-- **If no conditional is counted as replaced, the block stays as it was.** -/
theorem Block.foldBranches_of_zero : ∀ b : Block, b.branchesFolded = 0 → b.foldBranches = b
  | .mk vars body, h => by
    rw [Block.foldBranches, Body.foldBranches_of_zero body h]
theorem Body.foldBranches_of_zero : ∀ b : Body, b.branchesFolded = 0 → b.foldBranches = b
  | .done, _ => by rw [Body.foldBranches]
  | .instr i rest, h => by
    rw [Body.foldBranches, Body.foldBranches_of_zero rest h]
  | .cont c rest, h => by
    obtain ⟨hc, hrest⟩ := Nat.add_eq_zero_iff.1 h
    rw [Body.foldBranches, Continuation.foldBranches_of_zero c hc,
      Body.foldBranches_of_zero rest hrest]
theorem Continuation.foldBranches_of_zero :
    ∀ c : Continuation, c.branchesFolded = 0 → c.foldBranches = c
  | .ifElse condition t e, h => by
    unfold Continuation.branchesFolded at h
    unfold Continuation.foldBranches
    split at h
    · cases h
    · obtain ⟨ht, he⟩ := Nat.add_eq_zero_iff.1 h
      rw [Block.foldBranches_of_zero t ht, Block.foldBranches_of_zero e he]
  | .switch value arms, h => by
    unfold Continuation.branchesFolded at h
    unfold Continuation.foldBranches
    split at h
    · cases h
    · rw [Arms.foldBranches_of_zero arms h]
  | .deferred trigger b, h => by
    rw [Continuation.foldBranches, Block.foldBranches_of_zero b h]
  | .nested b, h => by
    rw [Continuation.foldBranches, Block.foldBranches_of_zero b h]
theorem Arms.foldBranches_of_zero :
    ∀ arms : Arms, arms.branchesFolded = 0 → arms.foldBranches = arms
  | .none, _ => by rw [Arms.foldBranches]
  | .default b, h => by
    rw [Arms.foldBranches, Block.foldBranches_of_zero b h]
  | .case label b rest, h => by
    obtain ⟨hb, hrest⟩ := Nat.add_eq_zero_iff.1 h
    rw [Arms.foldBranches, Block.foldBranches_of_zero b hb, Arms.foldBranches_of_zero rest hrest]
end

end ValueFlow
