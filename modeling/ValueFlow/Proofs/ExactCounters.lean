import ValueFlow.Proofs.LeanerVisits
import ValueFlow.Proofs.SettledCleanups

/-!
# The counters are exact

That nothing is counted if nothing is changed is one half of what the counters
are good for. This module adds the other half: whatever is counted can be seen
in the function. A replaced operand is another variable or a literal, a folded
instruction or a store is another instruction, and no later step undoes a
change. So a function that is the same after a pass, be it by the names of its
variables only, was left alone in every respect (`counters_exact`).

Two of the counters are differences. Deleted instructions and instructions that
are left add up to those that were there, and so do the variables that are
waited for and those that no longer are (`Conserved`).
-/

namespace ValueFlow

/-! ## What is waited for -/

/-- How many variables a trigger waits for. -/
def Trigger.waitCount : Trigger → Nat
  | .wait vars _ _ => vars.length
  | _ => 0

mutual
/-- **How many variables are waited for in a block**, every wait counted with
all its variables. -/
def Block.waitCount : Block → Nat
  | .mk _ body => body.waitCount
/-- How many variables are waited for in a body. -/
def Body.waitCount : Body → Nat
  | .done => 0
  | .instr _ rest => rest.waitCount
  | .cont c rest => c.waitCount + rest.waitCount
/-- How many variables are waited for in a continuation. -/
def Continuation.waitCount : Continuation → Nat
  | .ifElse _ t e => t.waitCount + e.waitCount
  | .switch _ arms => arms.waitCount
  | .deferred trigger b => trigger.waitCount + b.waitCount
  | .nested b => b.waitCount
/-- How many variables are waited for in the arms of a switch. -/
def Arms.waitCount : Arms → Nat
  | .none => 0
  | .default b => b.waitCount
  | .case _ b rest => b.waitCount + rest.waitCount
end

section WaitCount

variable (g : Rewrite) (deleted : List String)

mutual
/-- Rewriting instructions leaves the waits. -/
theorem Block.waitCount_filterMap (n : Nat) : ∀ b : Block, (b.filterMap g n).waitCount = b.waitCount
  | .mk _ body => Body.waitCount_filterMap n (n + 1) body
theorem Body.waitCount_filterMap (block n : Nat) :
    ∀ b : Body, (b.filterMap g block n).waitCount = b.waitCount
  | .done => by rw [Body.filterMap]
  | .instr i rest => by
    have hrest := Body.waitCount_filterMap block n rest
    rw [Body.filterMap]
    cases g block i with
    | none => exact hrest
    | some j => exact hrest
  | .cont c rest => by
    rw [Body.filterMap, Body.waitCount, Body.waitCount, Continuation.waitCount_filterMap n c,
      Body.waitCount_filterMap block _ rest]
theorem Continuation.waitCount_filterMap (n : Nat) :
    ∀ c : Continuation, (c.filterMap g n).waitCount = c.waitCount
  | .ifElse condition t e => by
    rw [Continuation.filterMap, Continuation.waitCount,
      Continuation.waitCount, Block.waitCount_filterMap n t,
      Block.waitCount_filterMap _ e]
  | .switch value arms => Arms.waitCount_filterMap n arms
  | .deferred trigger b => congrArg (trigger.waitCount + ·) (Block.waitCount_filterMap n b)
  | .nested b => Block.waitCount_filterMap n b
theorem Arms.waitCount_filterMap (n : Nat) :
    ∀ arms : Arms, (arms.filterMap g n).waitCount = arms.waitCount
  | .none => by rw [Arms.filterMap]
  | .default b => Block.waitCount_filterMap n b
  | .case label b rest => by
    rw [Arms.filterMap, Arms.waitCount, Arms.waitCount,
      Block.waitCount_filterMap n b, Arms.waitCount_filterMap _ rest]
end

open ValueFlow.Numbering in
mutual
/-- Dropping declarations leaves the waits. -/
theorem Block.waitCount_dropDeclarations :
    ∀ b : Block, (dropDeclarations deleted b).waitCount = b.waitCount
  | .mk _ body => Body.waitCount_dropInBody body
theorem Body.waitCount_dropInBody : ∀ b : Body, (dropInBody deleted b).waitCount = b.waitCount
  | .done => by rw [dropInBody]
  | .instr i rest => Body.waitCount_dropInBody rest
  | .cont c rest => by
    rw [dropInBody, Body.waitCount, Body.waitCount, Continuation.waitCount_dropInContinuation c,
      Body.waitCount_dropInBody rest]
theorem Continuation.waitCount_dropInContinuation : ∀ c : Continuation,
    (dropInContinuation deleted c).waitCount = c.waitCount
  | .ifElse condition t e => by
    rw [dropInContinuation, Continuation.waitCount, Continuation.waitCount,
      Block.waitCount_dropDeclarations t,
      Block.waitCount_dropDeclarations e]
  | .switch value arms => Arms.waitCount_dropInArms arms
  | .deferred trigger b => congrArg (trigger.waitCount + ·) (Block.waitCount_dropDeclarations b)
  | .nested b => Block.waitCount_dropDeclarations b
theorem Arms.waitCount_dropInArms :
    ∀ arms : Arms, (dropInArms deleted arms).waitCount = arms.waitCount
  | .none => by rw [dropInArms]
  | .default b => Block.waitCount_dropDeclarations b
  | .case label b rest => by
    rw [dropInArms, Arms.waitCount, Arms.waitCount, Block.waitCount_dropDeclarations b,
      Arms.waitCount_dropInArms rest]
end

end WaitCount

namespace Numbering

/-! ## Nothing is lost -/

/-- **What a walk from one state to another takes away it counts**: with a part
of the tree that had so many instructions and awaited variables before and has
so many after. -/
structure Conserved (s s' : State) (instructions waits instructions' waits' : Nat) : Prop where
  instructions : instructions' + s'.stats.instructionsRemoved
    = instructions + s.stats.instructionsRemoved
  waits : waits' + s'.stats.waitVarsPruned = waits + s.stats.waitVarsPruned

namespace Conserved

variable {s s' s'' : State} {i i' w w' j j' x x' : Nat}

/-- Neither the part nor the counters are changed. -/
theorem rfl (h : s'.stats.instructionsRemoved = s.stats.instructionsRemoved
    ∧ s'.stats.waitVarsPruned = s.stats.waitVarsPruned) : Conserved s s' i w i w :=
  ⟨by rw [h.1], by rw [h.2]⟩

/-- Two parts, one after the other. -/
theorem add (h : Conserved s s' i w i' w') (h' : Conserved s' s'' j x j' x') :
    Conserved s s'' (i + j) (w + x) (i' + j') (w' + x') := by
  obtain ⟨hi, hw⟩ := h
  obtain ⟨hj, hx⟩ := h'
  exact ⟨by omega, by omega⟩

/-- Only the counters matter. -/
theorem of_books {t t' : State} (h : Conserved s s' i w i' w') (hs : t.books = s.books)
    (hs' : t'.books = s'.books) : Conserved t t' i w i' w' := by
  have hremoved := congrArg (·.2.instructionsRemoved) hs
  have hremoved' := congrArg (·.2.instructionsRemoved) hs'
  have hpruned := congrArg (·.2.waitVarsPruned) hs
  have hpruned' := congrArg (·.2.waitVarsPruned) hs'
  simp only [State.books] at hremoved hremoved' hpruned hpruned'
  exact ⟨by rw [hremoved, hremoved', h.instructions], by rw [hpruned, hpruned', h.waits]⟩

end Conserved

section Walk

variable {ctx : Context}

theorem stats_foldIf (ctx : Context) (block : Nat) (i : Instruction) (s : State) :
    ∃ folded, (foldIf ctx block i s).2.stats = { s.stats with instructionsFolded := folded } := by
  unfold foldIf
  split
  · unfold fold
    split
    · exact ⟨_, rfl⟩
    · split
      · dsimp only
        split <;> split <;> exact ⟨_, rfl⟩
      · exact ⟨_, rfl⟩
  · exact ⟨_, rfl⟩

theorem stats_substitute (i : Instruction) (s : State) :
    ∃ replaced, (substitute i s).2.stats = { s.stats with operandsReplaced := replaced } := by
  unfold substitute
  dsimp only
  split <;> exact ⟨_, rfl⟩

/-- An instruction is counted as folded or by its operands only. -/
theorem stats_visitInstruction {block : Nat} {i : Instruction} {s : State}
    (hf : (visitInstruction ctx block i s).fault = none) :
    ∃ replaced folded, (visitInstruction ctx block i s).state.stats
      = { s.stats with operandsReplaced := replaced, instructionsFolded := folded } := by
  obtain ⟨facts, removable, values, -, -, -, -, heq⟩ := visitInstruction_cases hf
  obtain ⟨replaced, hreplaced⟩ := stats_substitute i s
  obtain ⟨folded, hfolded⟩ := stats_foldIf ctx block (i.mapOperands (replace s.facts))
    (values.foldl (bind ctx block removable) (carriedOut ctx i facts s))
  have hbefore : (values.foldl (bind ctx block removable) (carriedOut ctx i facts s)).stats
      = { s.stats with operandsReplaced := replaced } := by
    rw [stats_foldl_bind, carriedOut, stats_foldl_write]
    exact hreplaced
  refine ⟨replaced, folded, ?_⟩
  rw [heq]
  show (foldIf ctx block _ _).2.stats = _
  rw [hfolded, hbefore]

theorem conserved_enterDeferred (ctx : Context) (trigger : Trigger) (s : State) :
    Conserved s (enterDeferred ctx trigger s).state 0 trigger.waitCount
      0 (enterDeferred ctx trigger s).tree.waitCount := by
  cases trigger with
  | wait vars target mode =>
    unfold enterDeferred
    by_cases hprune : ctx.settings.pruneWaits = true
    · simp only [if_pos hprune]
      unfold pruneWaits
      simp only [List.partition_eq_filter_filter]
      have hlength := List.length_eq_length_filter_add (l := vars) (isAvailable s.facts)
      refine ⟨?_, ?_⟩
      · show 0 + (List.foldl _ s _).stats.instructionsRemoved = _
        rw [stats_foldl_emit]
      · show (vars.filter (fun v => !isAvailable s.facts v)).length
          + ((List.foldl _ s _).stats.waitVarsPruned + (vars.filter (isAvailable s.facts)).length)
            = _
        rw [stats_foldl_emit]
        simp only [Trigger.waitCount]
        omega
    · simp only [if_neg hprune]
      exact .rfl ⟨Eq.refl _, Eq.refl _⟩
  | range index start stop step =>
    unfold enterDeferred
    simp only
    split <;> exact .rfl ⟨Eq.refl _, Eq.refl _⟩
  | foreach array member => exact .rfl ⟨Eq.refl _, Eq.refl _⟩

/-- **The walk over a block takes nothing away that it does not count.** -/
theorem accounts_conserved : Accounts ctx
    (fun s b s' b' => Conserved s s' b.instructions.length
      b.waitCount b'.instructions.length b'.waitCount)
    (fun s b s' b' => Conserved s s' b.instructions.length
      b.waitCount b'.instructions.length b'.waitCount)
    (fun s c s' c' => Conserved s s' c.instructions.length
      c.waitCount c'.instructions.length c'.waitCount)
    (fun s arms s' arms' => Conserved s s' arms.instructions.length
      arms.waitCount arms'.instructions.length
      arms'.waitCount) where
  block_congr h hs hs' := h.of_books hs hs'
  cont_congr h hs hs' := h.of_books hs hs'
  block h := ⟨h.instructions, h.waits⟩
  done := .rfl ⟨rfl, rfl⟩
  instr {s s' block i rest rest'} hf h := by
    obtain ⟨replaced, folded, hstats⟩ := stats_visitInstruction hf
    have hi : Conserved s (visitInstruction ctx block i s).state 1 0 1 0 :=
      .rfl (by simp only [hstats, and_self])
    have hall := hi.add h
    simp only [Body.instructions, Body.waitCount, List.length_cons]
    rwa [Nat.add_comm 1, Nat.add_comm 1, Nat.zero_add, Nat.zero_add] at hall
  cont h h' := by
    simp only [Body.instructions, Body.waitCount, List.length_append]
    exact h.add h'
  ifElse ht he := by
    simp only [Continuation.instructions, Continuation.waitCount, List.length_append]
    exact ⟨(ht.add he).instructions, (ht.add he).waits⟩
  switch h := ⟨h.instructions, h.waits⟩
  deferred {s s' trigger b b'} h := by
    have hall := (conserved_enterDeferred ctx trigger s).add h
    rwa [Nat.zero_add, Nat.zero_add] at hall
  nested h := h
  noArms := .rfl ⟨rfl, rfl⟩
  default h := h
  case h h' := by
    simp only [Arms.instructions, Arms.waitCount, List.length_append]
    exact h.add h'

end Walk

namespace Cleanup

variable (c : Cleanup)

/-- What sweeps take out of a block they list. -/
theorem length_sweepAll (outputs : List String) (fuel : Nat) (b : Block) :
    (c.sweepAll outputs fuel b).1.instructions.length + (c.sweepAll outputs fuel b).2.length
      = b.instructions.length := by
  induction fuel generalizing b with
  | zero => rfl
  | succ fuel ih =>
    have hsweep := c.length_sweepBlock (outputs ++ b.readNames) 0 b
    have hmore := ih (c.sweepBlock (outputs ++ b.readNames) 0 b).1
    rw [sweepAll]
    dsimp only
    split
    · rename_i hempty
      rwa [List.isEmpty_iff.1 hempty] at hsweep
    · rw [← hsweep, ← hmore, List.length_append]
      ac_rfl

/-- As many instructions are left when some have become stores. -/
theorem length_storeBlock (n : Nat) (b : Block) :
    (c.storeBlock n b).1.instructions.length = b.instructions.length := by
  rw [storeBlock_fst, ← Block.map_snd_numbered n, ← Block.map_snd_numbered n b,
    List.length_map, List.length_map,
    Block.numbered_filterMap]
  have hmap : Rewrite.onNumbered (fun k i => some (c.stored k i))
    = some ∘ fun e => (e.1, c.stored e.1 e.2) := rfl
  rw [hmap, List.filterMap_eq_map, List.length_map]

theorem length_dropDeclarations (deleted : List String) (b : Block) :
    (dropDeclarations deleted b).instructions.length = b.instructions.length := by
  rw [← Block.map_snd_numbered 0, (numbered_dropDeclarations deleted 0 b).1, Block.map_snd_numbered]

end Cleanup

/-- **The cleanup and its counters**, whether or not something was marked. -/
theorem removeRedundant_eq (ctx : Context) (f : Function) (s : State) :
    let c : Cleanup := ⟨ctx.foreign, s.marks⟩
    let swept := c.sweepAll (f.outputs.map (·.name)) (f.block.instructions.length + 1) f.block
    let stored := c.storeBlock 0 swept.1
    (removeRedundant ctx f s).1.block
      = dropDeclarations (swept.2.flatMap fun i => i.outputs.map (·.name)) stored.1
      ∧ (removeRedundant ctx f s).2.stats = { s.stats with
        instructionsRemoved := s.stats.instructionsRemoved + swept.2.length
        instructionsFolded := s.stats.instructionsFolded + stored.2.1 } := by
  intro c swept stored
  unfold removeRedundant
  split
  · -- nothing is marked, so there is nothing to sweep and nothing to store
    rename_i hmarks
    have hdone := c.done_of_unmarked (List.isEmpty_iff.1 hmarks) (f.outputs.map (·.name)) f.block
    have hswept : swept = (f.block, []) := hdone.sweepAll _
    have hstored : stored = (f.block, 0, f.block.blockCount) := by
      rw [show stored = c.storeBlock 0 swept.1 from rfl, hswept, hdone.storeBlock]
    rw [hswept, hstored]
    exact ⟨(dropDeclarations_nil f.block).symm, rfl⟩
  · exact ⟨rfl, rfl⟩

/-- **The cleanup takes nothing away that it does not count.** -/
theorem conserved_removeRedundant (ctx : Context) (f : Function) (s : State) :
    Conserved s (removeRedundant ctx f s).2 f.block.instructions.length f.block.waitCount
      (removeRedundant ctx f s).1.block.instructions.length
        (removeRedundant ctx f s).1.block.waitCount := by
  have hlength := Cleanup.length_sweepAll ⟨ctx.foreign, s.marks⟩ (f.outputs.map (·.name))
    (f.block.instructions.length + 1) f.block
  obtain ⟨g, hg, -⟩ := Cleanup.sweepAll_spec ⟨ctx.foreign, s.marks⟩ (f.outputs.map (·.name))
    (f.block.instructions.length + 1) f.block
  obtain ⟨hblock, hstats⟩ := removeRedundant_eq ctx f s
  refine ⟨?_, ?_⟩
  · rw [hblock, hstats, Cleanup.length_dropDeclarations, Cleanup.length_storeBlock]
    dsimp only
    omega
  · rw [hblock, hstats, Block.waitCount_dropDeclarations,
      Cleanup.storeBlock_fst, Block.waitCount_filterMap, hg,
      Block.waitCount_filterMap]

/-- **A cleanup that removes nothing only puts in stores**, and counts them. -/
theorem removeRedundant_of_unremoved {ctx : Context} {f : Function} {s : State}
    (h : (removeRedundant ctx f s).2.stats.instructionsRemoved = 0) :
    let stored := Cleanup.storeBlock ⟨ctx.foreign, s.marks⟩ 0 f.block
    (removeRedundant ctx f s).1.block = stored.1
      ∧ (removeRedundant ctx f s).2.stats.edits = s.stats.edits + stored.2.1
      ∧ (removeRedundant ctx f s).2.stats.branchesFolded = s.stats.branchesFolded := by
  obtain ⟨hblock, hstats⟩ := removeRedundant_eq ctx f s
  rw [hstats] at h ⊢
  have hdeleted : (Cleanup.sweepAll ⟨ctx.foreign, s.marks⟩
      (f.outputs.map (·.name)) (f.block.instructions.length + 1)
      f.block).2 = [] := List.length_eq_zero_iff.1 (Nat.add_eq_zero_iff.1 h).2
  rw [hblock, hdeleted, Cleanup.sweepAll_of_nil _ _ _ _ hdeleted,
    List.flatMap_nil, dropDeclarations_nil]
  refine ⟨rfl, ?_, rfl⟩
  simp only [Stats.edits, List.length_nil]
  omega

end Numbering

/-! ## Every change can be seen -/

/-- Operands that are the same by name. -/
theorem Operand.same_of_mapVar {a b : Operand} (h : a.mapVar Var.bare = b.mapVar Var.bare) :
    a.same b = true := by
  refine decide_eq_true ?_
  cases a with
  | var v =>
    cases b with
    | var w =>
      have hname : v.bare.name = w.bare.name := congrArg Var.name (Operand.var.inj h)
      exact congrArg Sum.inl hname
    | lit l => cases h
  | lit l =>
    cases b with
    | var w => cases h
    | lit m => exact congrArg Sum.inr (Operand.lit.inj h)

/-- **If an instruction is the same by name when its operands are transformed,
so is each operand.** -/
theorem Instruction.same_of_mapOperands {f : Role → Operand → Operand} {i : Instruction}
    (hf : ∀ v, ∃ w, f .retrieved (.var v) = .var w)
    (h : (i.mapOperands f).mapVars Var.bare = i.mapVars Var.bare) :
    ∀ r ∈ i.replaceable, (f r.1 r.2).same r.2 = true := by
  have hmap : ∀ (role : Role) (inputs : List Operand),
      (inputs.map (f role)).map (·.mapVar Var.bare) = inputs.map (·.mapVar Var.bare) →
      ∀ r ∈ (inputs.map (role, ·)).filter (·.1 ≠ .container), (f r.1 r.2).same r.2 = true := by
    intro role inputs hinputs r hr
    obtain ⟨a, ha, rfl⟩ := List.mem_map.1 (List.mem_filter.1 hr).1
    rw [List.map_map] at hinputs
    exact Operand.same_of_mapVar (List.map_inj_left.1 hinputs a ha)
  have hvar : ∀ src : Var, (varOr src (f .retrieved (.var src))).bare = src.bare →
      (f .retrieved (.var src)).same (.var src) = true := by
    intro src hsrc
    obtain ⟨w, hw⟩ := hf src
    rw [hw] at hsrc ⊢
    exact Operand.same_of_mapVar (congrArg Operand.var hsrc)
  cases i with
  | storeScalar dst src =>
    have hsrc := Operand.same_of_mapVar (Instruction.storeScalar.inj h).2
    simpa [replaceable, reads] using hsrc
  | loadScalar dst src =>
    have hsrc := hvar src (Instruction.loadScalar.inj h).2
    simpa [replaceable, reads] using hsrc
  | storeRef dst src => simp [replaceable, reads]
  | loadRef dst src =>
    have hsrc := hvar src (Instruction.loadRef.inj h).2
    simpa [replaceable, reads] using hsrc
  | compute timing op dst inputs => exact hmap timing.role inputs (Instruction.compute.inj h).2.2.2
  | call timing function outputs inputs =>
    exact hmap timing.role inputs (Instruction.call.inj h).2.2.2
  | readField access dst record path => simp [replaceable, reads]
  | writeField record path src =>
    have hsrc := Operand.same_of_mapVar (Instruction.writeField.inj h).2.2
    simpa [replaceable, reads] using hsrc
  | readElement access dst arr ix =>
    have hix := Operand.same_of_mapVar (Instruction.readElement.inj h).2.2.2
    simpa [replaceable, reads] using hix
  | writeElement arr ix src =>
    have hix := Operand.same_of_mapVar (Instruction.writeElement.inj h).2.1
    have hsrc := Operand.same_of_mapVar (Instruction.writeElement.inj h).2.2
    simpa [replaceable, reads] using ⟨hix, hsrc⟩

namespace Numbering

variable {facts : Congruence}

/-- A representative that takes the place of an operand is something else. -/
theorem not_same_of_replacement? {role : Role} {a rep : Operand}
    (h : replacement? facts role a = some rep) : rep.same a = false := by
  obtain ⟨v, rfl, hcan⟩ := replacement?_eq_some h
  unfold replacement? at h
  simp only [Operand.var?, Option.bind_eq_bind, Option.bind_some, hcan] at h
  split at h
  · cases h
  · exact Bool.eq_false_iff.2 ‹_›

/-- **If operands are the same by name behind their replacement, none is counted
as replaced.** -/
theorem countReplaced_of_same {reads : List (Role × Operand)}
    (h : ∀ r ∈ reads, (replace facts r.1 r.2).same r.2 = true) : countReplaced facts reads = 0 := by
  refine List.countP_eq_zero.2 fun r hr hsome => ?_
  obtain ⟨rep, hrep⟩ := Option.isSome_iff_exists.1 hsome
  have hsame := h r hr
  rw [replace, hrep, Option.getD_some, not_same_of_replacement? hrep] at hsame
  cases hsame

/-- A copy of a literal has no operand to replace. -/
theorem mapOperands_of_same_copy {i : Instruction} {dst : Var} {l : Literal}
    (h : (Instruction.compute .now .copy dst [.lit l]).mapVars Var.bare = i.mapVars Var.bare) :
    i.mapOperands (replace facts) = i := by
  cases i with
  | compute timing op dst' inputs =>
    have hinputs := (Instruction.compute.inj h).2.2.2
    refine Instruction.mapOperands_eq_self fun r hr => ?_
    obtain ⟨a, ha, rfl⟩ := List.mem_map.1 (List.mem_filter.1 hr).1
    have hlit := hinputs ▸ List.mem_map_of_mem (f := Operand.mapVar Var.bare) ha
    cases a with
    | var v => cases List.mem_singleton.1 hlit
    | lit m => rfl
  | _ => cases h

section Walk

variable {ctx : Context} {c : Cleanup}

theorem edits_substituteOperand {a : Operand} {s : State}
    (h : (replace s.facts .value a).mapVar Var.bare = a.mapVar Var.bare) :
    (substituteOperand a s).2.stats.edits = s.stats.edits := by
  have hedits : (substituteOperand a s).2.stats.edits
      = s.stats.edits + countReplaced s.facts [(.value, a)] :=
    edits_replaced s _
  have hzero : countReplaced s.facts [(.value, a)] = 0 :=
    countReplaced_of_same fun r hr => by
      obtain rfl := List.mem_singleton.1 hr
      exact Operand.same_of_mapVar h
  omega

/-- **What is counted for an instruction shows**: an instruction that is the
same by name behind the visit and the cleanup was neither given other operands
nor folded, nor has it become a store. -/
theorem edits_visitInstruction {block n : Nat} {i : Instruction} {s : State}
    (hf : (visitInstruction ctx block i s).fault = none)
    (h : (c.stored n (visitInstruction ctx block i s).tree).mapVars Var.bare = i.mapVars Var.bare) :
    (visitInstruction ctx block i s).state.stats.edits = s.stats.edits
      ∧ c.storeFor? n (visitInstruction ctx block i s).tree = none := by
  obtain ⟨facts, removable, values, -, -, -, -, heq⟩ := visitInstruction_cases hf
  have hbefore : (values.foldl (bind ctx block removable) (carriedOut ctx i facts s)).stats.edits
      = s.stats.edits + countReplaced s.facts i.replaceable := by
    rw [stats_foldl_bind, edits_carriedOut]
  generalize values.foldl (bind ctx block removable) (carriedOut ctx i facts s) = s₁ at heq hbefore
  rw [heq] at h ⊢
  dsimp only at h ⊢
  -- a store takes the place of an instruction of another kind
  have hnone : c.storeFor? n (foldIf ctx block (i.mapOperands (replace s.facts)) s₁).1 = none := by
    cases hstore : c.storeFor? n (foldIf ctx block (i.mapOperands (replace s.facts)) s₁).1 with
    | none => rfl
    | some store =>
      obtain ⟨dst, a, -, hrem, -, rfl⟩ := Cleanup.storeFor?_eq_some hstore
      rw [Cleanup.stored, hstore, Option.getD_some] at h
      cases i with
      | storeScalar dst' src =>
        rcases foldIf_fst ctx block (.storeScalar dst' (replace s.facts .value src)) s₁
          with hfst | ⟨-, _, _, hfold, -⟩
        · rw [Instruction.mapOperands, hfst] at hrem
          cases hrem
        · cases hfold
      | _ => cases h
  refine ⟨?_, hnone⟩
  rw [Cleanup.stored, hnone, Option.getD_none] at h
  have hkept : (i.mapOperands (replace s.facts)).mapVars Var.bare = i.mapVars Var.bare →
      s₁.stats.edits = s.stats.edits := by
    intro hsame
    have hzero := countReplaced_of_same
      (Instruction.same_of_mapOperands (replace_retrieved s.facts) hsame)
    omega
  show (foldIf ctx block (i.mapOperands (replace s.facts)) s₁).2.stats.edits = s.stats.edits
  by_cases hfolds : Folds ctx (i.mapOperands (replace s.facts)) s₁
  · obtain ⟨hfold, dst, l, hdst, hlit⟩ := hfolds
    obtain ⟨htree, -, -, -, -, hedits⟩ := foldIf_of_lit block hfold hdst hlit
    by_cases hsame : (i.mapOperands (replace s.facts)).same (.compute .now .copy dst [.lit l])
      = true
    · rw [htree, if_pos hsame] at h
      exact (hedits hsame).trans (hkept h)
    · -- a copy of the literal is what the instruction was before
      rw [htree, if_neg hsame] at h
      rw [mapOperands_of_same_copy h] at hsame
      exact absurd (decide_eq_true h.symm) hsame
  · rw [foldIf_of_not_folds block hfolds] at h ⊢
    exact hkept h

/-- What is counted for a trigger shows. -/
theorem edits_enterDeferred {trigger : Trigger} {s : State}
    (h : (enterDeferred ctx trigger s).tree.mapVars Var.bare = trigger.mapVars Var.bare) :
    (enterDeferred ctx trigger s).state.stats.edits = s.stats.edits := by
  cases trigger with
  | wait vars target mode =>
    unfold enterDeferred at h ⊢
    by_cases hprune : ctx.settings.pruneWaits = true
    · have hedits := edits_pruneWaits ctx vars s
      simp only [if_pos hprune] at h ⊢
      show (pruneWaits ctx vars s).2.stats.edits = s.stats.edits
      -- as many variables are waited for as before, so none was available
      have hlength := congrArg List.length (Trigger.wait.inj h).1
      rw [List.length_map, List.length_map] at hlength
      unfold pruneWaits at hlength
      simp only [List.partition_eq_filter_filter] at hlength
      have hall := List.length_eq_length_filter_add (l := vars) (isAvailable s.facts)
      change (vars.filter fun v => !isAvailable s.facts v).length = vars.length at hlength
      omega
    · simp only [if_neg hprune]
      rfl
  | range index start stop step =>
    have hrange : Trigger.range index.bare ((replace s.facts .value start).mapVar Var.bare)
        ((replace s.facts .value stop).mapVar Var.bare)
        ((replace s.facts .value step).mapVar Var.bare)
          = (Trigger.range index start stop step).mapVars Var.bare := by
      rw [← h]
      unfold enterDeferred
      dsimp only
      split <;> rfl
    obtain ⟨-, hstart, hstop, hstep⟩ := Trigger.range.inj hrange
    have h₁ := edits_substituteOperand hstart
    have h₂ := edits_substituteOperand (s := (substituteOperand start s).2) hstop
    have h₃ := edits_substituteOperand
      (s := (substituteOperand stop (substituteOperand start s).2).2) hstep
    unfold enterDeferred
    dsimp only
    split <;> exact h₃.trans (h₂.trans h₁)
  | foreach array member => rfl

/-- **What is counted in a block shows**: a block that is the same by name
behind the walk and the cleanup was not changed by the walk, and no store was
put in. -/
theorem accounts_edits : Accounts ctx
    (fun s b s' b' => ∀ n, (c.storeBlock n b').1.mapVars Var.bare = b.mapVars Var.bare →
      s'.stats.edits = s.stats.edits ∧ (c.storeBlock n b').2.1 = 0)
    (fun s b s' b' => ∀ k n, (c.storeBody k n b').1.mapVars Var.bare = b.mapVars Var.bare →
      s'.stats.edits = s.stats.edits ∧ (c.storeBody k n b').2.1 = 0)
    (fun s k s' k' => ∀ n, (c.storeContinuation n k').1.mapVars Var.bare = k.mapVars Var.bare →
      s'.stats.edits = s.stats.edits ∧ (c.storeContinuation n k').2.1 = 0)
    (fun s arms s' arms' => ∀ n, (c.storeArms n arms').1.mapVars Var.bare = arms.mapVars Var.bare →
      s'.stats.edits = s.stats.edits ∧ (c.storeArms n arms').2.1 = 0) where
  block_congr h hs hs' n hsame := (h n hsame).imp_left fun he =>
    (congrArg (·.2.edits) hs').trans (he.trans (congrArg (·.2.edits) hs).symm)
  cont_congr h hs hs' n hsame := (h n hsame).imp_left fun he =>
    (congrArg (·.2.edits) hs').trans (he.trans (congrArg (·.2.edits) hs).symm)
  block h n hsame := h n (n + 1) (Block.mk.inj hsame).2
  done _ _ _ := ⟨rfl, rfl⟩
  instr hf h k n hsame := by
    rw [Cleanup.storeBody_instr] at hsame
    obtain ⟨hi, hrest⟩ := Body.instr.inj hsame
    obtain ⟨hedits, hnone⟩ := edits_visitInstruction hf hi
    obtain ⟨hedits', hzero⟩ := h k n hrest
    refine ⟨hedits'.trans hedits, ?_⟩
    rw [Cleanup.storeBody]
    simp only [hnone]
    exact hzero
  cont h h' k n hsame := by
    obtain ⟨hkid, hrest⟩ := Body.cont.inj hsame
    obtain ⟨hedits, hzero⟩ := h n hkid
    obtain ⟨hedits', hzero'⟩ := h' k _ hrest
    exact ⟨hedits'.trans hedits, Nat.add_eq_zero_iff.2 ⟨hzero, hzero'⟩⟩
  ifElse ht he n hsame := by
    obtain ⟨ha, hthen, helse⟩ := Continuation.ifElse.inj hsame
    obtain ⟨hedits, hzero⟩ := ht n hthen
    obtain ⟨hedits', hzero'⟩ := he _ helse
    exact ⟨hedits'.trans (hedits.trans (edits_substituteOperand ha)),
      Nat.add_eq_zero_iff.2 ⟨hzero, hzero'⟩⟩
  switch h n hsame := by
    obtain ⟨ha, harms⟩ := Continuation.switch.inj hsame
    exact (h n harms).imp_left fun he => he.trans (edits_substituteOperand ha)
  deferred h n hsame := by
    obtain ⟨htrigger, hb⟩ := Continuation.deferred.inj hsame
    exact (h n hb).imp_left fun he => he.trans (edits_enterDeferred htrigger)
  nested h n hsame := h n (Continuation.nested.inj hsame)
  noArms _ _ := ⟨rfl, rfl⟩
  default h n hsame := h n (Arms.default.inj hsame)
  case h h' n hsame := by
    obtain ⟨-, hb, hrest⟩ := Arms.case.inj hsame
    obtain ⟨hedits, hzero⟩ := h n hb
    obtain ⟨hedits', hzero'⟩ := h' _ hrest
    exact ⟨hedits'.trans hedits, Nat.add_eq_zero_iff.2 ⟨hzero, hzero'⟩⟩

end Walk

end Numbering

mutual
/-- A block has as many instructions whatever its variables are. -/
theorem Block.length_instructions_mapVars (f : Var → Var) : ∀ b : Block,
    (b.mapVars f).instructions.length = b.instructions.length
  | .mk _ body => Body.length_instructions_mapVars f body
theorem Body.length_instructions_mapVars (f : Var → Var) : ∀ b : Body,
    (b.mapVars f).instructions.length = b.instructions.length
  | .done => rfl
  | .instr _ rest => congrArg (· + 1) (Body.length_instructions_mapVars f rest)
  | .cont c rest => by
    rw [Body.mapVars, Body.instructions, Body.instructions, List.length_append, List.length_append,
      Continuation.length_instructions_mapVars f c, Body.length_instructions_mapVars f rest]
theorem Continuation.length_instructions_mapVars (f : Var → Var) : ∀ c : Continuation,
    (c.mapVars f).instructions.length = c.instructions.length
  | .ifElse _ t e => by
    rw [Continuation.mapVars, Continuation.instructions,
      Continuation.instructions, List.length_append,
      List.length_append, Block.length_instructions_mapVars f t,
      Block.length_instructions_mapVars f e]
  | .switch _ arms => Arms.length_instructions_mapVars f arms
  | .deferred _ b => Block.length_instructions_mapVars f b
  | .nested b => Block.length_instructions_mapVars f b
theorem Arms.length_instructions_mapVars (f : Var → Var) : ∀ arms : Arms,
    (arms.mapVars f).instructions.length = arms.instructions.length
  | .none => rfl
  | .default b => Block.length_instructions_mapVars f b
  | .case _ b rest => by
    rw [Arms.mapVars, Arms.instructions, Arms.instructions, List.length_append, List.length_append,
      Block.length_instructions_mapVars f b, Arms.length_instructions_mapVars f rest]
end

mutual
/-- **A replaced conditional shows**: if a block is the same by name behind the
replacement of conditionals, none is counted. -/
theorem Block.branchesFolded_of_same : ∀ b : Block,
    b.foldBranches.mapVars Var.bare = b.mapVars Var.bare → b.branchesFolded = 0
  | .mk _ body, h => Body.branchesFolded_of_same body (Block.mk.inj h).2
theorem Body.branchesFolded_of_same : ∀ b : Body,
    b.foldBranches.mapVars Var.bare = b.mapVars Var.bare → b.branchesFolded = 0
  | .done, _ => rfl
  | .instr _ rest, h => Body.branchesFolded_of_same rest (Body.instr.inj h).2
  | .cont c rest, h => by
    obtain ⟨hc, hrest⟩ := Body.cont.inj h
    exact Nat.add_eq_zero_iff.2
      ⟨Continuation.branchesFolded_of_same c hc, Body.branchesFolded_of_same rest hrest⟩
theorem Continuation.branchesFolded_of_same : ∀ c : Continuation,
    c.foldBranches.mapVars Var.bare = c.mapVars Var.bare → c.branchesFolded = 0
  | .ifElse condition t e, h => by
    unfold Continuation.foldBranches at h
    unfold Continuation.branchesFolded
    split at h
    · cases h
    · obtain ⟨-, ht, he⟩ := Continuation.ifElse.inj h
      exact Nat.add_eq_zero_iff.2
        ⟨Block.branchesFolded_of_same t ht, Block.branchesFolded_of_same e he⟩
  | .switch value arms, h => by
    unfold Continuation.foldBranches at h
    unfold Continuation.branchesFolded
    split at h
    · cases h
    · exact Arms.branchesFolded_of_same arms (Continuation.switch.inj h).2
  | .deferred _ b, h => Block.branchesFolded_of_same b (Continuation.deferred.inj h).2
  | .nested b, h => Block.branchesFolded_of_same b (Continuation.nested.inj h)
theorem Arms.branchesFolded_of_same : ∀ arms : Arms,
    arms.foldBranches.mapVars Var.bare = arms.mapVars Var.bare → arms.branchesFolded = 0
  | .none, _ => rfl
  | .default b, h => Block.branchesFolded_of_same b (Arms.default.inj h)
  | .case _ b rest, h => by
    obtain ⟨-, hb, hrest⟩ := Arms.case.inj h
    exact Nat.add_eq_zero_iff.2
      ⟨Block.branchesFolded_of_same b hb, Arms.branchesFolded_of_same rest hrest⟩
end

namespace Numbering

/-- **What a run takes away it counts, and what it counts shows.** -/
theorem exact_run {settings : Settings} {foreign : Foreign} {globals created : Constants}
    {f : Function} {stats : Stats}
    (h : (run settings foreign globals f).result = .ok (stats, created)) :
    let g := (run settings foreign globals f).function
    g.block.instructions.length + stats.instructionsRemoved = f.block.instructions.length
      ∧ g.block.waitCount + stats.waitVarsPruned = f.block.waitCount
      ∧ (g.same f = true → stats.changed = false) := by
  obtain ⟨ctx, facts, hctx, hin, hfault, -, -⟩ := run_eq_ok h
  have hwalk := accounts_conserved.visitBlock f.block (opened globals f facts) hfault
  have hbranches := accounts_branchesFolded.visitBlock f.block (opened globals f facts) hfault
  have hexact := (accounts_edits
    (c := ⟨ctx.foreign, (visitBlock ctx f.block (opened globals f facts)).state.marks⟩))
    |>.visitBlock f.block (opened globals f facts) hfault 0
  rw [run_eq_finish hctx hin hfault] at h ⊢
  obtain ⟨rfl, -⟩ := Prod.mk.inj (Except.ok.inj h)
  generalize visitBlock ctx f.block (opened globals f facts) = v at hwalk hbranches hexact ⊢
  have hclean := conserved_removeRedundant ctx { f with block := v.tree } v.state
  have hremoved := hclean.instructions.trans hwalk.instructions
  refine ⟨hremoved, hclean.waits.trans hwalk.waits, fun hsame => ?_⟩
  replace hsame : (removeRedundant ctx { f with block := v.tree } v.state).1.block.mapVars Var.bare
      = f.block.mapVars Var.bare := congrArg Function.block (of_decide_eq_true hsame)
  -- as many instructions are left as there were, so none was removed
  have hlength := congrArg (·.instructions.length) hsame
  simp only [Block.length_instructions_mapVars] at hlength
  have hnone : (removeRedundant ctx { f with block := v.tree } v.state).2.stats.instructionsRemoved
      = 0 := by
    have hzero : (opened globals f facts).stats.instructionsRemoved = 0 := rfl
    omega
  -- then all that the cleanup did was to put in stores, which would show, as would
  -- what the walk did
  obtain ⟨hblock, hedits, hfolded⟩ := removeRedundant_of_unremoved hnone
  obtain ⟨hsteady, hstores⟩ := hexact (hblock ▸ hsame)
  refine Stats.changed_eq_false.2 ⟨hedits.trans ?_, hfolded.trans hbranches⟩
  rw [hsteady, hstores]
  rfl

end Numbering

namespace Pass

variable {p : Pass} {settings : Settings} {foreign : Foreign}
  {globals : Constants} {f : Function} {stats : Stats}

/-- **The counters of a pass are exact.** Something is counted if, and only if,
the function is not what it was; it is what it was in every respect if it is so
by the names of its variables. Numbering counts an instruction as removed for
each instruction that is missing, and a variable as not waited for for each one
that is missing in a wait. -/
theorem counters_exact (h : (p.runOnFunction settings foreign globals f).result = .ok stats) :
    let g := (p.runOnFunction settings foreign globals f).subject
    (stats.changed = false ↔ g = f) ∧ (g.same f = true ↔ g = f)
      ∧ (∀ pending, p = .numbering pending →
        g.block.instructions.length + stats.instructionsRemoved = f.block.instructions.length
          ∧ g.block.waitCount + stats.waitVarsPruned = f.block.waitCount) := by
  intro g
  have hrefl : g = f → g.same f = true := fun heq => heq ▸ decide_eq_true rfl
  cases p with
  | numbering pending =>
    cases hrun : (Numbering.run settings foreign globals f).result with
    | error e =>
      simp only [runOnFunction, hrun] at h
      cases h
    | ok r =>
      have hg : g = (Numbering.run settings foreign globals f).function := by
        simp only [g, runOnFunction, hrun]
      have hstats : r.1 = stats := by
        simp only [runOnFunction, hrun] at h
        exact Except.ok.inj h
      obtain ⟨hinstructions, hwaits, hshows⟩ := Numbering.exact_run hrun
      have hkeeps := Numbering.function_run_of_unchanged hrun
      rw [← hg, hstats] at hinstructions hwaits hshows hkeeps
      exact ⟨⟨hkeeps, fun heq => hshows (hrefl heq)⟩, ⟨fun hsame => hkeeps (hshows hsame), hrefl⟩,
        fun _ _ => ⟨hinstructions, hwaits⟩⟩
  | constantBranches =>
    obtain rfl := Except.ok.inj h
    have hkeeps : f.block.branchesFolded = 0 → g = f := fun hzero =>
      congrArg (fun b => { f with block := b }) (f.block.foldBranches_of_zero hzero)
    have hshows : g.same f = true → f.block.branchesFolded = 0 := fun hsame =>
      f.block.branchesFolded_of_same (congrArg Function.block (of_decide_eq_true hsame))
    rw [Stats.changed_eq_false]
    refine ⟨⟨fun hchanged => hkeeps hchanged.2, fun heq => ⟨rfl, hshows (hrefl heq)⟩⟩,
      ⟨fun hsame => hkeeps (hshows hsame), hrefl⟩, fun _ hp => ?_⟩
    cases hp

/-- A function that negates its input twice, stores the one result and waits for
the store before it stores the other. -/
def negatesAndWaits : Function where
  name := "f"
  inputs := [.value "p" .int]
  outputs := [⟨"o", .future .int, .stack, .outArg, .user⟩]
  target := .control
  block :=
    let p : Var := .value "p" .int
    let a : Var := .value "a" .int
    let b : Var := .value "b" .int
    let y : Var := .future "y" .int
    let o : Var := ⟨"o", .future .int, .stack, .outArg, .user⟩
    .mk [a, b, y]
      (.instr (.compute .now .neg a [.var p])
      (.instr (.compute .now .neg b [.var p])
      (.instr (.storeScalar y (.var a))
      (.cont (.deferred (.wait [y] .control .waitOnly) (.mk []
        (.instr (.storeScalar o (.var b)) .done))) .done))))

/-- The second negation is removed, its use is replaced and the wait is pruned. -/
theorem counters_exact_negatesAndWaits :
    let run := valueNumbering.runOnFunction {} .empty .empty negatesAndWaits
    run.result = .ok ⟨1, 1, 1, 0, 0, 0⟩ ∧ run.subject ≠ negatesAndWaits
      ∧ run.subject.same negatesAndWaits = false
      ∧ run.subject.block.instructions.length + 1 = negatesAndWaits.block.instructions.length
      ∧ run.subject.block.waitCount + 1 = negatesAndWaits.block.waitCount := by
  intro run
  have hrun : run.result = .ok ⟨1, 1, 1, 0, 0, 0⟩ := by decide +kernel
  obtain ⟨hchanged, hsame, hcounts⟩ := counters_exact hrun
  have hother : run.subject ≠ negatesAndWaits := fun heq => absurd (hchanged.2 heq) (by decide)
  exact ⟨hrun, hother, Bool.eq_false_iff.2 fun h => hother (hsame.1 h), hcounts .empty rfl⟩

end Pass

end ValueFlow
