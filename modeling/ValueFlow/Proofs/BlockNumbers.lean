import ValueFlow.Proofs.InPlace
import ValueFlow.Proofs.SettledCleanups

/-!
# The walk and the cleanup number blocks alike

Marks are made under the numbers that the walk gives to blocks. They are looked
up under the numbers that the cleanup gives, which counts through the walked
tree anew in every sweep and once more for the stores. These are the same
numbers, however much was deleted before (`NumberedAlike`), so no mark is taken
for that of another block where the name is used again. An instruction that is
deleted or becomes a store was marked by its own visit.

A sweep hands the number of the next block on from part to part. `Block.counted`
lists the blocks with the numbers that such a recursion gives them. Behind each
part the number has grown by the blocks of the part, so they are the numbers
that the blocks have by their places in the tree (`Cleanup.sweepCounting_eq`).
-/

namespace ValueFlow

/-! ## Blocks of a rewritten tree -/

section FilterMap

variable (g : Rewrite)

mutual
/-- **Rewriting instructions leaves the blocks with their numbers**, each
rewritten on its own. -/
theorem Block.counted_filterMap (n : Nat) : ∀ b : Block,
    (b.filterMap g n).counted .byPlace n = (b.counted .byPlace n).map
      fun e => (e.1, e.2.filterMap g e.1)
  | .mk vars body => by
    rw [Block.filterMap, Block.counted, Block.counted, List.map_cons, Block.filterMap,
      Body.counted_filterMap]
theorem Body.counted_filterMap (block n : Nat) : ∀ b : Body,
    (b.filterMap g block n).counted .byPlace n = (b.counted .byPlace n).map
      fun e => (e.1, e.2.filterMap g e.1)
  | .done => by rw [Body.filterMap, Body.counted, List.map_nil]
  | .instr i rest => by
    rw [Body.filterMap, Body.counted]
    cases g block i with
    | none => exact Body.counted_filterMap block n rest
    | some j => exact Body.counted_filterMap block n rest
  | .cont c rest => by
    rw [Body.filterMap, Body.counted, Body.counted, List.map_append, Counting.byPlace_continuation,
      Counting.byPlace_continuation, Continuation.blockCount_filterMap,
      Continuation.counted_filterMap, Body.counted_filterMap]
theorem Continuation.counted_filterMap (n : Nat) : ∀ c : Continuation,
    (c.filterMap g n).counted .byPlace n = (c.counted .byPlace n).map
      fun e => (e.1, e.2.filterMap g e.1)
  | .ifElse condition t e => by
    rw [Continuation.filterMap, Continuation.counted, Continuation.counted, List.map_append,
      Counting.byPlace_block, Counting.byPlace_block, Block.blockCount_filterMap,
      Block.counted_filterMap, Block.counted_filterMap]
  | .switch value arms => Arms.counted_filterMap n arms
  | .deferred trigger b => Block.counted_filterMap n b
  | .nested b => Block.counted_filterMap n b
theorem Arms.counted_filterMap (n : Nat) : ∀ arms : Arms,
    (arms.filterMap g n).counted .byPlace n = (arms.counted .byPlace n).map
      fun e => (e.1, e.2.filterMap g e.1)
  | .none => by rw [Arms.filterMap, Arms.counted, List.map_nil]
  | .default b => Block.counted_filterMap n b
  | .case label b rest => by
    rw [Arms.filterMap, Arms.counted, Arms.counted, List.map_append, Counting.byPlace_block,
      Counting.byPlace_block, Block.blockCount_filterMap,
      Block.counted_filterMap, Arms.counted_filterMap]
end

end FilterMap

namespace Numbering

/-! ## Sweeps -/

namespace Cleanup

variable (c : Cleanup)

/-- How a sweep counts blocks. -/
def sweepCounting (reads : List String) : Counting where
  block n b := (c.sweepBlock reads n b).2.2
  continuation n k := (c.sweepContinuation reads n k).2.2

/-- How the cleanup counts blocks that puts in stores. -/
def storeCounting : Counting where
  block n b := (c.storeBlock n b).2.2
  continuation n k := (c.storeContinuation n k).2.2

/-- **A sweep hands on the numbers of the places in the tree**: behind each part
it has advanced by the number of its blocks. -/
theorem sweepCounting_eq (reads : List String) : c.sweepCounting reads = .byPlace :=
  congrArg₂ Counting.mk (funext₂ fun n b => (c.sweepBlock_spec reads n b).2.2)
    (funext₂ fun n k => (c.sweepContinuation_spec reads n k).2.2)

theorem storeCounting_eq : c.storeCounting = .byPlace :=
  congrArg₂ Counting.mk (funext₂ c.storeBlock_next) (funext₂ c.storeContinuation_next)

/-- Sweeps over a block with number `n`, one after the other; what is read is
given for each. -/
def sweeps (rounds : List (List String)) (n : Nat) (b : Block) : Block :=
  rounds.foldl (fun b reads => (c.sweepBlock reads n b).1) b

/-- **Sweeps are one rewriting**, wherever they start to count. They delete
redundant instructions only. -/
theorem exists_filterMap_eq_sweeps (rounds : List (List String)) : ∃ g : Rewrite,
    (∀ n b, c.sweeps rounds n b = b.filterMap g n)
      ∧ ∀ n i, g n i = some i ∨ g n i = none ∧ c.isRedundant n i = true := by
  induction rounds with
  | nil => exact ⟨fun _ i => some i, fun n b => (b.filterMap_some n).symm, fun _ _ => .inl rfl⟩
  | cons reads rounds ih =>
    obtain ⟨g, hg, hkeeps⟩ := ih
    refine ⟨fun k i => (c.swept reads k i).bind (g k), fun n b => ?_, fun n i => ?_⟩
    · rw [← Block.filterMap_filterMap, ← (c.sweepBlock_spec reads n b).1, ← hg]
      rfl
    · simp only [swept]
      split
      · rename_i hdead
        exact .inr ⟨rfl, (isDead_eq_true hdead).1⟩
      · exact hkeeps n i

theorem exists_sweeps_eq_sweepAll (outputs : List String) (fuel : Nat) (b : Block) :
    ∃ rounds, (c.sweepAll outputs fuel b).1 = c.sweeps rounds 0 b := by
  induction fuel generalizing b with
  | zero => exact ⟨[], rfl⟩
  | succ fuel ih =>
    rw [sweepAll]
    simp only
    split
    · exact ⟨[outputs ++ b.readNames], rfl⟩
    · obtain ⟨rounds, hrounds⟩ := ih (c.sweepBlock (outputs ++ b.readNames) 0 b).1
      exact ⟨(outputs ++ b.readNames) :: rounds, hrounds⟩

end Cleanup

/-- **The cleanup is sweeps, stores and the loss of declarations.** -/
theorem removeRedundant_eq_sweeps (ctx : Context) (f : Function) (s : State) : ∃ rounds deleted,
    let c := cleanupOf ctx s
    (removeRedundant ctx f s).1 = { f with
      block := dropDeclarations deleted (c.storeBlock 0 (c.sweeps rounds 0 f.block)).1 } := by
  unfold removeRedundant
  split
  · rename_i hmarks
    refine ⟨[], [], ?_⟩
    dsimp only
    rw [dropDeclarations_nil, Cleanup.storeBlock_of_unmarked (List.isEmpty_iff.1 hmarks)]
    rfl
  · let swept := (cleanupOf ctx s).sweepAll (f.outputs.map (·.name))
      (f.block.instructions.length + 1) f.block
    obtain ⟨rounds, hrounds⟩ := (cleanupOf ctx s).exists_sweeps_eq_sweepAll (f.outputs.map (·.name))
      (f.block.instructions.length + 1) f.block
    refine ⟨rounds, swept.2.flatMap fun i => i.outputs.map (·.name), ?_⟩
    dsimp only
    rw [← hrounds]

/-! ## One numbering -/

/-- **The walk and the cleanup number blocks alike**: the walk over `b` from
`s`, and the cleanup, which leaves `b'`. -/
structure NumberedAlike (ctx : Context) (b : Block) (s : State) (b' : Block) : Prop where
  /-- The walk enters every block, and visits every instruction, with the
  number it has in the tree. -/
  entered : (blockEntries ctx b s).map (fun e => (e.2.nextBlock, e.1)) = b.counted .byPlace 0
  visited : (blockSites ctx b s).map (fun i => (i.block, i.instruction)) = b.numbered 0
  /-- A sweep over the walked tree enters every block with the number that the
  walk gave it, also after other sweeps. These have left of the block what they
  leave of it alone under this number. -/
  swept : ∀ (c : Cleanup) rounds reads,
    (c.sweeps rounds 0 (visitBlock ctx b s).tree).counted (c.sweepCounting reads) 0
      = (blockEntries ctx b s).map fun e =>
        (e.2.nextBlock, c.sweeps rounds e.2.nextBlock (visitBlock ctx e.1 e.2).tree)
  /-- So does the cleanup that puts in stores after the sweeps. -/
  stored : ∀ (c : Cleanup) rounds,
    (c.sweeps rounds 0 (visitBlock ctx b s).tree).counted c.storeCounting 0
      = (blockEntries ctx b s).map fun e =>
        (e.2.nextBlock, c.sweeps rounds e.2.nextBlock (visitBlock ctx e.1 e.2).tree)
  /-- What it leaves of a block is also what it leaves of the block alone under
  this number. -/
  left : ∀ (c : Cleanup) rounds,
    (c.storeBlock 0 (c.sweeps rounds 0 (visitBlock ctx b s).tree)).1.counted .byPlace 0
      = (blockEntries ctx b s).map fun e => (e.2.nextBlock,
        (c.storeBlock e.2.nextBlock
          (c.sweeps rounds e.2.nextBlock (visitBlock ctx e.1 e.2).tree)).1)
  /-- This is the cleanup, but for declarations. -/
  cleaned : ∃ rounds, let c := cleanupOf ctx (visitBlock ctx b s).state
    b'.numbered 0 = (c.storeBlock 0 (c.sweeps rounds 0 (visitBlock ctx b s).tree)).1.numbered 0
  /-- What is deleted or becomes a store was marked by its visit, in all its outputs. -/
  marked : ∃ g : Rewrite,
    b'.numbered 0 = (blockSites ctx b s).filterMap
    (fun i => (g i.block (i.walked ctx)).map (i.block, ·))
    ∧ ∀ i ∈ blockSites ctx b s, g i.block (i.walked ctx) ≠ some (i.walked ctx) →
      i.instruction.outputs ≠ [] ∧ ∀ o ∈ i.instruction.outputs,
        i.before.marks.contains i.block o = false ∧ (i.after ctx).marks.contains i.block o = true

section Runs

variable {V : Vocabulary} {ctx : Context} {start : Pool × Marks}
  {b : Block} {s final : State} {i : Site}

/-- A rewriting of the walked tree meets the blocks under the numbers with which
they were entered. -/
theorem counted_filterMap_visitBlock (hnext : s.nextBlock = 0)
    (hf : (visitBlock ctx b s).fault = none) (g : Rewrite) :
    ((visitBlock ctx b s).tree.filterMap g 0).counted .byPlace 0
      = (blockEntries ctx b s).map fun e =>
        (e.2.nextBlock, (visitBlock ctx e.1 e.2).tree.filterMap g e.2.nextBlock) := by
  have hleft := (visits_visitBlock b s hf).left
  rw [hnext] at hleft
  rw [Block.counted_filterMap, ← hleft, List.map_map]
  rfl

theorem Cleanup.counted_sweeps_visitBlock (c : Cleanup) (hnext : s.nextBlock = 0)
    (hf : (visitBlock ctx b s).fault = none) (rounds : List (List String)) :
    (c.sweeps rounds 0 (visitBlock ctx b s).tree).counted .byPlace 0
      = (blockEntries ctx b s).map fun e =>
        (e.2.nextBlock, c.sweeps rounds e.2.nextBlock (visitBlock ctx e.1 e.2).tree) := by
  obtain ⟨g, hg, -⟩ := c.exists_filterMap_eq_sweeps rounds
  simp only [hg]
  exact counted_filterMap_visitBlock hnext hf g

/-- An instruction that is redundant in the end was marked by its visit. -/
theorem Site.Exact.of_redundant (hV : Suits V ctx) (h : i.Exact ctx start final.notes)
    (hstable : ∀ e ∈ final.marks.entries, ∃ v, V.text v
      ∧ v.name = e.1.2 ∧ ctx.aliases.isStable v = true)
    (hi : i.instruction.All V.text)
    (hf : (visitInstruction ctx i.block i.instruction i.before).fault = none)
    (hred : (cleanupOf ctx final).isRedundant i.block (i.walked ctx) = true) :
    i.instruction.outputs ≠ [] ∧ ∀ o ∈ i.instruction.outputs,
      i.before.marks.contains i.block o = false
        ∧ (i.after ctx).marks.contains i.block o = true := by
  obtain ⟨houtputs, hbinds⟩ := tree_visitInstruction hf
  obtain ⟨hrem, hmarks⟩ := Cleanup.isRedundant_eq_true hred
  refine ⟨houtputs ▸ Cleanup.outputs_ne_nil_of_isRedundant hred, fun o ho => ?_⟩
  obtain ⟨lit, hlit⟩ := Option.isSome_iff_exists.1 (hmarks o (houtputs ▸ ho))
  obtain ⟨hmade, hold⟩ := h.made hV hstable hi (hbinds hrem) ho (mem_of_get? hlit)
  constructor
  · refine Option.isSome_eq_false_iff.2 (Option.isNone_iff_eq_none.2 ?_)
    exact Option.eq_none_iff_forall_not_mem.2 fun lit hmem => hold lit (mem_of_get? hmem)
  · rw [Marks.contains, Marks.get?, Option.isSome_map]
    exact List.find?_isSome.2 ⟨_, hmade, decide_eq_true rfl⟩

/-- **A run numbers blocks alike in the walk and in the cleanup**, if all
occurrences of a variable carry the same data. -/
theorem run_numberedAlike {settings : Settings} {foreign : Foreign} {globals created : Constants}
    {f : Function} {stats : Stats}
    (hconsistent : ∀ v ∈ f.occurrences, ∀ w ∈ f.occurrences, v.name = w.name → v = w)
    (h : (run settings foreign globals f).result = .ok (stats, created)) :
    ∃ ctx facts, contextOf settings foreign f = .ok ctx
      ∧ f.inputs.foldlM enterInput .new = .ok facts
      ∧ (visitBlock ctx f.block (opened globals f facts)).fault = none
      ∧ NumberedAlike ctx f.block (opened globals f facts)
        (run settings foreign globals f).function.block := by
  obtain ⟨-, haccepted⟩ := Function.fault?_eq_none.1 (run_ok_iff.1 ⟨_, h⟩)
  obtain ⟨ctx, facts, hctx, hfacts, hfault, -, hfun⟩ := run_eq_ok h
  have hV := suits_spoken hconsistent ctx
  have hs : WellFormed (spoken f ctx.aliases) (opened globals f facts) := wellFormed_spoken hfacts _
  have htext : ∀ v ∈ f.block.occurrences, (spoken f ctx.aliases).text v :=
    fun v hv => List.mem_append_right _ hv
  have hvisits := visits_visitBlock f.block (opened globals f facts) hfault
  let final := (visitBlock ctx f.block (opened globals f facts)).state
  obtain ⟨rounds, deleted, hcleaned⟩ := removeRedundant_eq_sweeps ctx
    { f with block := (visitBlock ctx f.block (opened globals f facts)).tree } final
  have hnumbered := (numbered_dropDeclarations deleted 0 ((cleanupOf ctx final).storeBlock 0
    ((cleanupOf ctx final).sweeps rounds 0
      (visitBlock ctx f.block (opened globals f facts)).tree)).1).1
  rw [hfun, hcleaned]
  have hswept (c : Cleanup) (rounds : List (List String)) :=
    c.counted_sweeps_visitBlock (s := opened globals f facts) rfl hfault rounds
  refine ⟨ctx, facts, hctx, hfacts, hfault, hvisits.entered,
    hvisits.visited, fun c rounds reads => ?_,
    fun c rounds => ?_, fun c rounds => ?_, ⟨rounds, hnumbered⟩, ?_⟩
  · rw [c.sweepCounting_eq, hswept]
  · rw [c.storeCounting_eq, hswept]
  · obtain ⟨g, hg, -⟩ := c.exists_filterMap_eq_sweeps rounds
    simp only [hg, Cleanup.storeBlock_fst, Block.filterMap_filterMap]
    exact counted_filterMap_visitBlock rfl hfault _
  · obtain ⟨g, hg, hkeeps⟩ := (cleanupOf ctx final).exists_filterMap_eq_sweeps rounds
    refine ⟨fun n i => (g n i).bind fun i => some ((cleanupOf ctx final).stored n i),
      ?_, fun i hi hlost => ?_⟩
    · rw [hnumbered, hg, Cleanup.storeBlock_fst, Block.filterMap_filterMap,
        Block.numbered_filterMap]
      have hwalked : _ = (visitBlock ctx f.block (opened globals f facts)).tree.numbered 0 :=
        hvisits.walked
      rw [← hwalked, List.filterMap_map]
      rfl
    · have hstable := stable_visitBlock hV hs rfl htext hfault
      have hexact := (exact_visitBlock hV hs rfl htext haccepted hfault).2 i hi
      refine hexact.of_redundant hV hstable (all_of_site hfault htext hi)
        (fault_of_site hfault hi) ?_
      -- what is not redundant is swept over and stays
      by_contra hred
      refine hlost ?_
      obtain hkept | ⟨-, hdead⟩ := hkeeps i.block (i.walked ctx)
      · simp only [hkept, Option.bind_some]
        unfold Cleanup.stored Cleanup.storeFor?
        rw [if_neg hred]
        rfl
      · exact absurd hdead hred

/-- A function that copies a future before it is assigned and then computes it
twice. In one inner block it hands out a future that holds a literal, and in the
next one it computes something into a variable of the same name. -/
def copiesAndHandsOut : Function where
  name := "f"
  inputs := [.future "x" .int]
  outputs := [⟨"o", .ref (.future .int), .stack, .outArg, .user⟩]
  target := .control
  block :=
    let x := Var.future "x" .int
    let a := Var.future "a" .int
    let b := Var.future "b" .int
    let z := Var.future "z" .int
    let k := Var.future "k" .int
    .mk [a, b, z]
      (.instr (.compute .later .copy b [.var z])
      (.instr (.compute .later .neg a [.var x])
      (.instr (.compute .later .neg z [.var x])
      (.cont (.nested (.mk [k]
        (.instr (.compute .later .neg k [.lit (.int 5)])
        (.instr (.storeRef ⟨"o", .ref (.future .int), .stack, .outArg, .user⟩ k) .done))))
      (.cont (.nested (.mk [k] (.instr (.compute .later .sub k [.var x, .lit (.int 1)]) .done)))
        .done)))))

/-- The copy is deleted in the first sweep. It reads the second computation,
which is deleted in the second sweep. What is handed out becomes a store, and
the other variable with its name is left alone. -/
theorem run_numberedAlike_copiesAndHandsOut :
    let x := Var.future "x" .int
    let k := Var.future "k" .int
    let o := run {} .empty .empty copiesAndHandsOut
    o.result.map (·.1) = .ok ⟨2, 0, 0, 1, 0, 0⟩
      ∧ o.function.block.numbered 0
        = [(0, .compute .later .neg (.future "a" .int) [.var x]),
          (1, .storeScalar k (.lit (.int (-5)))),
          (1, .storeRef ⟨"o", .ref (.future .int), .stack, .outArg, .user⟩ k),
          (2, .compute .later .sub k [.var x, .lit (.int 1)])]
      ∧ ∃ ctx facts, NumberedAlike ctx copiesAndHandsOut.block
        (opened .empty copiesAndHandsOut facts)
        o.function.block := by
  intro x k o
  refine ⟨by decide +kernel, by decide +kernel, ?_⟩
  obtain ⟨⟨stats, created⟩, hrun⟩ : ∃ r, o.result = .ok r := run_ok_iff.2 (by decide +kernel)
  obtain ⟨ctx, facts, -, -, -, halike⟩ := run_numberedAlike (by decide +kernel) hrun
  exact ⟨ctx, facts, halike⟩

end Runs

end Numbering

end ValueFlow
