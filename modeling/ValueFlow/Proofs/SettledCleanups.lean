import ValueFlow.Proofs.Counters

/-!
# Nothing is left to clean up

The cleanup sweeps a tree until a sweep deletes nothing. A sweep that deletes
something leaves fewer instructions, so the number of instructions bounds the
number of sweeps, and behind the last one no instruction is dead any more. If no
store was put in either, there is nothing left to clean up
(`done_removeRedundant`). Cleaning up once more, by marks that were there
already, changes nothing and counts nothing (`removeRedundant_of_done`).

What can be cleaned up depends on the instructions with the numbers of their
blocks and on what is read. Dropping declarations leaves both
(`numbered_dropDeclarations`).
-/

namespace ValueFlow

namespace Numbering

/-! ## Sweeps -/

namespace Cleanup

variable {c : Cleanup} {b : Block} {outputs : List String}

/-- **Behind the last sweep nothing is dead.** -/
theorem not_isDead_sweepAll (outputs : List String) {fuel : Nat}
    (hfuel : b.instructions.length < fuel) :
    let left := (c.sweepAll outputs fuel b).1
    ∀ e ∈ left.numbered 0, c.isDead (outputs ++ left.readNames) e.1 e.2 = false := by
  induction fuel generalizing b with
  | zero => exact absurd hfuel (Nat.not_lt_zero _)
  | succ fuel ih =>
    have hlength := c.length_sweepBlock (outputs ++ b.readNames) 0 b
    rw [sweepAll]
    dsimp only
    cases hdeleted : (c.sweepBlock (outputs ++ b.readNames) 0 b).2.1 with
    | nil =>
      show ∀ e ∈ (c.sweepBlock (outputs ++ b.readNames) 0 b).1.numbered 0, _
      rw [List.isEmpty_nil, if_pos rfl, sweepBlock_of_nil hdeleted]
      exact sweepBlock_eq_nil_iff.1 hdeleted
    | cons i deleted =>
      -- the sweep has left fewer instructions
      refine ih ?_
      rw [hdeleted, List.length_cons] at hlength
      omega

/-! ## Finished cleanups -/

/-- **Nothing is left to clean up**: no instruction is dead, and none is to
become a store. -/
def Done (c : Cleanup) (outputs : List String) (b : Block) : Prop :=
  ∀ e ∈ b.numbered 0, c.isDead (outputs ++ b.readNames) e.1 e.2 = false ∧ c.storeFor? e.1 e.2 = none

/-- **By fewer marks there is not more to clean up.** -/
theorem Done.of_marks {c' : Cleanup} (h : c.Done outputs b) (hforeign : c'.foreign = c.foreign)
    (hmarks : ∀ block v, c'.marks.get? block v = none
      ∨ c'.marks.get? block v = c.marks.get? block v) :
    c'.Done outputs b := by
  have hcontains : ∀ block v, c'.marks.contains block v = true →
      c'.marks.get? block v = c.marks.get? block v := by
    intro block v hv
    refine (hmarks block v).resolve_left fun hnone => ?_
    unfold Marks.contains at hv
    rw [hnone] at hv
    cases hv
  have hred : ∀ block i, c'.isRedundant block i = true → c.isRedundant block i = true := by
    intro block i hi
    unfold isRedundant at hi ⊢
    rw [hforeign] at hi
    rw [Bool.and_eq_true, Bool.and_eq_true] at hi ⊢
    refine ⟨⟨hi.1.1, List.all_eq_true.2 fun v hv => ?_⟩, hi.2⟩
    have hmarked := List.all_eq_true.1 hi.1.2 v hv
    unfold Marks.contains at hmarked ⊢
    rwa [← hcontains block v hmarked]
  intro e he
  obtain ⟨hdead, hstore⟩ := h e he
  refine ⟨Bool.eq_false_iff.2 fun hdead' => ?_, ?_⟩
  · obtain ⟨hred', hunread⟩ := Bool.and_eq_true_iff.1 hdead'
    have : c.isDead (outputs ++ b.readNames) e.1 e.2 = true :=
      Bool.and_eq_true_iff.2 ⟨hred _ _ hred', hunread⟩
    rw [hdead] at this
    cases this
  · by_cases hred' : c'.isRedundant e.1 e.2 = true
    · -- the same literal is known to be held
      have hall := (isRedundant_eq_true hred').2
      unfold storeFor? at hstore ⊢
      rw [if_pos (hred _ _ hred')] at hstore
      rw [if_pos hred']
      cases hout : e.2.outputs with
      | nil => rfl
      | cons dst others =>
        rw [hout] at hall hstore
        cases others with
        | nil =>
          unfold Marks.literal? at hstore ⊢
          dsimp only at hstore ⊢
          rwa [hcontains e.1 dst (hall dst (List.mem_singleton_self dst))]
        | cons other others => rfl
    · unfold storeFor?
      rw [if_neg hred']

/-- Without marks there is nothing to clean up. -/
theorem done_of_unmarked (h : c.marks.entries = []) (outputs : List String) (b : Block) :
    c.Done outputs b := by
  intro e _
  have hred : ¬ c.isRedundant e.1 e.2 = true := not_isRedundant_of_unmarked h
  unfold isDead storeFor?
  rw [if_neg hred, Bool.eq_false_iff.2 hred]
  exact ⟨rfl, rfl⟩

/-- Where nothing is left to clean up, a sweep deletes nothing. -/
theorem Done.sweepAll (h : c.Done outputs b) (fuel : Nat) :
    c.sweepAll outputs (fuel + 1) b = (b, []) := by
  have hsweep : (c.sweepBlock (outputs ++ b.readNames) 0 b).2.1 = [] :=
    sweepBlock_eq_nil_iff.2 fun e he => (h e he).1
  rw [Cleanup.sweepAll]
  dsimp only
  rw [hsweep, List.isEmpty_nil, if_pos rfl, sweepBlock_of_nil hsweep]

/-- Where nothing is left to clean up, no store is put in. -/
theorem Done.storeBlock (h : c.Done outputs b) :
    c.storeBlock 0 b = (b, 0, b.blockCount) := by
  have hzero : (c.storeBlock 0 b).2.1 = 0 := (c.storeBlock_eq_zero_iff 0 b).2 fun e he => (h e he).2
  have hnext := (c.storeBlock_next 0 b).trans (Nat.zero_add _)
  exact Prod.ext (c.storeBlock_of_zero 0 b hzero) (Prod.ext hzero hnext)

end Cleanup

section Done

variable {ctx : Context} {f : Function} {s : State}

/-- **A cleanup that puts in no store only deletes what is dead**, and leaves
nothing to clean up. -/
theorem done_removeRedundant
    (hstored : (removeRedundant ctx f s).2.stats.instructionsFolded = s.stats.instructionsFolded) :
    ∃ (g : Rewrite) (deleted : List String), Cleanup.DropsDead ⟨ctx.foreign, s.marks⟩
        (f.outputs.map (·.name) ++ (f.block.filterMap g 0).readNames) g
      ∧ (removeRedundant ctx f s).1
        = { f with block := dropDeclarations deleted (f.block.filterMap g 0) }
      ∧ Cleanup.Done ⟨ctx.foreign, s.marks⟩ (f.outputs.map (·.name))
        (removeRedundant ctx f s).1.block := by
  let c : Cleanup := ⟨ctx.foreign, s.marks⟩
  unfold removeRedundant at hstored ⊢
  by_cases hempty : s.marks.entries = []
  · rw [if_pos (List.isEmpty_iff.2 hempty)]
    refine ⟨fun _ i => some i, [], fun _ _ => .inl rfl, ?_, c.done_of_unmarked hempty _ _⟩
    rw [dropDeclarations_nil, Block.filterMap_some]
  · rw [if_neg fun hnil => hempty (List.isEmpty_iff.1 hnil)] at hstored ⊢
    let swept := c.sweepAll (f.outputs.map (·.name)) (f.block.instructions.length + 1) f.block
    have hzero : (c.storeBlock 0 swept.1).2.1 = 0 := Nat.add_eq_left.1 hstored
    have hblock : (c.storeBlock 0 swept.1).1 = swept.1 := c.storeBlock_of_zero 0 swept.1 hzero
    obtain ⟨g, hg, hdrops, -⟩ :=
      c.sweepAll_spec (f.outputs.map (·.name)) (f.block.instructions.length + 1) f.block
    let deleted := swept.2.flatMap fun i => i.outputs.map (·.name)
    refine ⟨g, deleted, hdrops, ?_, fun e he => ?_⟩
    · show ({ f with block := dropDeclarations deleted (c.storeBlock 0 swept.1).1 } : Function) = _
      rw [hblock, ← hg]
    · have hdead := c.not_isDead_sweepAll (f.outputs.map (·.name))
        (Nat.lt_succ_self f.block.instructions.length)
      have hstores := (c.storeBlock_eq_zero_iff 0 swept.1).1 hzero
      change e ∈ (dropDeclarations deleted (c.storeBlock 0 swept.1).1).numbered 0 at he
      show c.isDead (_ ++ (dropDeclarations deleted (c.storeBlock 0 swept.1).1).readNames)
        e.1 e.2 = false ∧ _
      rw [hblock] at he ⊢
      rw [(numbered_dropDeclarations deleted 0 swept.1).1] at he
      rw [(numbered_dropDeclarations deleted 0 swept.1).2]
      exact ⟨hdead e he, hstores e he⟩

/-- **Where nothing is left to clean up, a cleanup changes nothing and counts
nothing.** -/
theorem removeRedundant_of_done
    (h : Cleanup.Done ⟨ctx.foreign, s.marks⟩ (f.outputs.map (·.name)) f.block) :
    (removeRedundant ctx f s).1 = f ∧ (removeRedundant ctx f s).2.stats = s.stats
      ∧ (removeRedundant ctx f s).2.pool = s.pool := by
  unfold removeRedundant
  split
  · exact ⟨rfl, rfl, rfl⟩
  · simp only [h.sweepAll, h.storeBlock, List.flatMap_nil,
      dropDeclarations_nil, List.length_nil, Nat.add_zero, and_self]

end Done

end Numbering

end ValueFlow
