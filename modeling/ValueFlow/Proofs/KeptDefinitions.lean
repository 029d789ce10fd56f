import ValueFlow.Proofs.ExactCounters
import ValueFlow.Proofs.InPlace

/-!
# What is read keeps its definitions

A numbered function reads fewer variables than before, and instructions whose
outputs nothing reads any more are deleted. What is still read, or handed back,
has all the instructions that define it (`definitions_kept`): each stands where
it stood, with the same outputs. Declarations are dropped with the instructions,
but only where a block does not mention the variable any more.

What is read is collected before each sweep, while stores are put in after the
last one. A store reads what a constant of the table holds, and this is a
literal if the table is used as it is meant to be (`noted_subset_heldNames`). A
table in which a constant holds a variable of the function can have the
definition of this variable deleted (`stranded_of_constant`), so the statement
makes an exception for such variables.
-/

namespace ValueFlow

/-! ## Blocks with instructions taken out -/

section Culled

variable (gone : String → Prop)

mutual
/-- **Instructions were taken out of a block**, and nothing else but
declarations of names that are gone: `deleted` are the instructions that are
missing, in the order of the block. What is left has its outputs and its place.
A variable whose name is gone is still declared where the block mentions it. -/
def Block.Culled : Block → Block → List Instruction → Prop
  | .mk vars body, .mk vars' body', deleted =>
    vars'.Sublist vars
      ∧ (∀ v, v ∈ vars' ↔ v ∈ vars ∧ (gone v.name → v.name ∈ (Block.mk vars' body').mentions))
      ∧ body.Culled body' deleted
termination_by structural b => b
/-- Instructions were taken out of a body. -/
def Body.Culled : Body → Body → List Instruction → Prop
  | .done, b, deleted => b = .done ∧ deleted = []
  | .instr i rest, b, deleted =>
    (∃ j rest', b = .instr j rest' ∧ j.outputs = i.outputs ∧ rest.Culled rest' deleted)
      ∨ ∃ others, deleted = i :: others ∧ rest.Culled b others
  | .cont c rest, b, deleted =>
    ∃ c' rest' inner others, b = .cont c' rest' ∧ deleted = inner ++ others
    ∧ c.Culled c' inner ∧ rest.Culled rest' others
termination_by structural b => b
/-- Instructions were taken out of the blocks of a continuation. -/
def Continuation.Culled : Continuation → Continuation → List Instruction → Prop
  | .ifElse _ t e, c, deleted => ∃ condition' t' e' first second, c = .ifElse condition' t' e'
    ∧ deleted = first ++ second ∧ t.Culled t' first ∧ e.Culled e' second
  | .switch _ arms, c, deleted =>
    ∃ value' arms', c = .switch value' arms' ∧ arms.Culled arms' deleted
  | .deferred trigger b, c, deleted =>
    ∃ trigger' b', c = .deferred trigger' b' ∧ trigger.Kept trigger'
    ∧ b.Culled b' deleted
  | .nested b, c, deleted => ∃ b', c = .nested b' ∧ b.Culled b' deleted
termination_by structural c => c
/-- Instructions were taken out of the arms of a switch. -/
def Arms.Culled : Arms → Arms → List Instruction → Prop
  | .none, arms, deleted => arms = .none ∧ deleted = []
  | .default b, arms, deleted => ∃ b', arms = .default b' ∧ b.Culled b' deleted
  | .case label b rest, arms, deleted => ∃ b' rest' first others, arms = .case label b' rest'
    ∧ deleted = first ++ others ∧ b.Culled b' first ∧ rest.Culled rest' others
termination_by structural arms => arms
end

end Culled

/-- The instructions keep their outputs, and nothing is missing. -/
def keepsOutputs : Edit where
  declares _ vars vars' := vars' = vars
  instruction _ _ i r := ∃ j, r = some j ∧ j.outputs = i.outputs
  operand _ _ _ := True
  trigger _ t t' := t.Kept t'

/-- The instructions that a rewriting drops, from those that are given with
their numbers. -/
def Rewrite.dropped (g : Rewrite) (instructions : List (Nat × Instruction)) : List Instruction :=
  (instructions.filter fun e => (g e.1 e.2).isNone).map (·.2)

/-- What is done to the instructions that are left does not matter. -/
theorem Rewrite.dropped_bind_some (g : Rewrite) (f : Nat → Instruction → Instruction)
    (instructions : List (Nat × Instruction)) :
    Rewrite.dropped (fun k i => (g k i).bind fun i => some (f k i)) instructions
      = g.dropped instructions := by
  refine congrArg (List.map _) (List.filter_congr fun e _ => ?_)
  show ((g e.1 e.2).bind fun i => some (f e.1 i)).isNone = (g e.1 e.2).isNone
  cases g e.1 e.2 <;> rfl

/-- **Instructions were taken out of a part of a tree** by a rewriting: they
have the outputs of those that the rewriting drops from what the part was edited
into. -/
def Rewrite.TakesOut (g : Rewrite) (edited : List (Nat × Instruction))
    (deleted : List Instruction) : Prop :=
  deleted.map (·.outputs) = (g.dropped edited).map (·.outputs)

namespace Rewrite.TakesOut

variable {g : Rewrite} {deleted deleted' : List Instruction}
  {edited edited' : List (Nat × Instruction)}

theorem nil (g : Rewrite) : g.TakesOut [] [] := rfl

theorem append (h : g.TakesOut edited deleted) (h' : g.TakesOut edited' deleted') :
    g.TakesOut (edited ++ edited') (deleted ++ deleted') := by
  rw [TakesOut, List.map_append, h, h', dropped, dropped,
    dropped, List.filter_append, List.map_append, List.map_append]

/-- An instruction is kept. -/
theorem keep {j k : Instruction} {block : Nat} (hj : g block j = some k)
    (h : g.TakesOut edited deleted) : g.TakesOut ((block, j) :: edited) deleted := by
  rw [TakesOut, h, dropped, dropped, List.filter_cons_of_neg]
  simp only [hj, Option.isNone_some, Bool.false_eq_true, not_false_eq_true]

/-- An instruction is dropped. -/
theorem drop {i j : Instruction} {block : Nat} (hj : g block j = none)
    (hout : j.outputs = i.outputs) (h : g.TakesOut edited deleted) :
    g.TakesOut ((block, j) :: edited) (i :: deleted) := by
  rw [TakesOut, List.map_cons, h, dropped, dropped, List.filter_cons_of_pos,
    List.map_cons, List.map_cons, hout]
  simp only [hj, Option.isNone_none]

/-- The same outputs are missing. -/
theorem mem_outputs (h : g.TakesOut edited deleted) {outputs : List Var} :
    (∃ i ∈ deleted, i.outputs = outputs) ↔ ∃ i ∈ g.dropped edited, i.outputs = outputs := by
  rw [← List.mem_map, ← List.mem_map, h]

end Rewrite.TakesOut

namespace Numbering

/-- Dropping declarations leaves what a block mentions. -/
theorem mentions_dropDeclarations (names : List String) (b : Block) :
    (dropDeclarations names b).mentions = b.mentions := by
  obtain ⟨hnumbered, hreads⟩ := numbered_dropDeclarations names 0 b
  rw [Block.mentions, Block.mentions, hreads, ← Block.map_snd_numbered 0,
    hnumbered, Block.map_snd_numbered]

end Numbering

section Edited

open ValueFlow.Numbering

variable {g : Rewrite} (names : List String)

mutual
/-- **Rewriting an edited block and dropping declarations takes instructions out
of the block.** -/
theorem Block.Edited.culled (hg : ∀ k i j, g k i = some j → j.outputs = i.outputs) :
    ∀ {b b₁ : Block} {n : Nat} {p : Point}, b.Edited keepsOutputs n p b₁ →
    ∃ deleted, b.Culled (· ∈ names) (dropDeclarations names (b₁.filterMap g n)) deleted
      ∧ g.TakesOut (b₁.numbered n) deleted
  | .mk vars body, .mk vars₁ body₁, n, p, h => by
    obtain ⟨rfl, h⟩ := h
    obtain ⟨deleted, hculled, htaken⟩ := Body.Edited.culled hg h
    refine ⟨deleted, ?_, htaken⟩
    have hmentions := mentions_dropDeclarations names ((Block.mk vars₁ body₁).filterMap g n)
    rw [Block.filterMap, dropDeclarations] at hmentions ⊢
    refine ⟨List.filter_sublist, fun v => ?_, hculled⟩
    -- mentions are the same before and behind the dropping, so it makes no
    -- difference which ones are asked for
    rw [hmentions, List.mem_filter]
    refine and_congr_right fun _ => ?_
    simp only [Bool.or_eq_true, Bool.not_eq_true', List.contains_eq_mem,
      decide_eq_false_iff_not, decide_eq_true_eq]
    exact imp_iff_not_or.symm
theorem Body.Edited.culled (hg : ∀ k i j, g k i = some j → j.outputs = i.outputs) :
    ∀ {b b₁ : Body} {block n : Nat} {p : Point}, b.Edited keepsOutputs block n p b₁ →
    ∃ deleted, b.Culled (· ∈ names) (dropInBody names (b₁.filterMap g block n)) deleted
      ∧ g.TakesOut (b₁.numbered block n) deleted
  | .done, b₁, block, n, p, h => by
    subst h
    exact ⟨[], ⟨rfl, rfl⟩, .nil g⟩
  | .instr i rest, b₁, block, n, p, h => by
    rcases h with ⟨j, rest₁, rfl, ⟨_, hj, hout⟩, h⟩ | ⟨⟨_, hnone, -⟩, -⟩
    · obtain rfl := Option.some.inj hj
      obtain ⟨deleted, hculled, htaken⟩ := Body.Edited.culled hg h
      rw [Body.filterMap, Body.numbered]
      cases hk : g block j with
      | some k =>
        refine ⟨deleted, ?_, htaken.keep hk⟩
        exact .inl ⟨k, _, rfl, (hg block j k hk).trans hout, hculled⟩
      | none =>
        refine ⟨i :: deleted, ?_, htaken.drop hk hout⟩
        exact .inr ⟨deleted, rfl, hculled⟩
    · cases hnone
  | .cont c rest, b₁, block, n, p, h => by
    obtain ⟨c₁, rest₁, rfl, hc, h⟩ := h
    obtain ⟨inner, hinner, htaken⟩ := Continuation.Edited.culled hg hc
    obtain ⟨others, hothers, htaken'⟩ := Body.Edited.culled hg h
    rw [← hc.blockCount] at hothers htaken'
    refine ⟨inner ++ others, ?_, htaken.append htaken'⟩
    exact ⟨_, _, inner, others, rfl, rfl, hinner, hothers⟩
theorem Continuation.Edited.culled (hg : ∀ k i j, g k i = some j → j.outputs = i.outputs) :
    ∀ {c c₁ : Continuation} {n : Nat} {p : Point}, c.Edited keepsOutputs n p c₁ →
    ∃ deleted, c.Culled (· ∈ names) (dropInContinuation names (c₁.filterMap g n)) deleted
      ∧ g.TakesOut (c₁.numbered n) deleted
  | .ifElse condition t e, c₁, n, p, h => by
    obtain ⟨condition₁, t₁, e₁, rfl, -, ht, he⟩ := h
    obtain ⟨first, hfirst, htaken⟩ := Block.Edited.culled hg ht
    obtain ⟨second, hsecond, htaken'⟩ := Block.Edited.culled hg he
    rw [← ht.blockCount] at hsecond htaken'
    refine ⟨first ++ second, ?_, htaken.append htaken'⟩
    exact ⟨_, _, _, first, second, rfl, rfl, hfirst, hsecond⟩
  | .switch value arms, c₁, n, p, h => by
    obtain ⟨value₁, arms₁, rfl, -, h⟩ := h
    obtain ⟨deleted, hculled, htaken⟩ := Arms.Edited.culled hg h
    refine ⟨deleted, ?_, htaken⟩
    exact ⟨_, _, rfl, hculled⟩
  | .deferred trigger b, c₁, n, p, h => by
    obtain ⟨trigger₁, b₁, rfl, htrigger, h⟩ := h
    obtain ⟨deleted, hculled, htaken⟩ := Block.Edited.culled hg h
    refine ⟨deleted, ?_, htaken⟩
    exact ⟨_, _, rfl, htrigger, hculled⟩
  | .nested b, c₁, n, p, h => by
    obtain ⟨b₁, rfl, h⟩ := h
    obtain ⟨deleted, hculled, htaken⟩ := Block.Edited.culled hg h
    refine ⟨deleted, ?_, htaken⟩
    exact ⟨_, rfl, hculled⟩
theorem Arms.Edited.culled (hg : ∀ k i j, g k i = some j → j.outputs = i.outputs) :
    ∀ {arms arms₁ : Arms} {n : Nat} {p : Point}, arms.Edited keepsOutputs n p arms₁ →
    ∃ deleted, arms.Culled (· ∈ names) (dropInArms names (arms₁.filterMap g n)) deleted
      ∧ g.TakesOut (arms₁.numbered n) deleted
  | .none, arms₁, n, p, h => by
    subst h
    exact ⟨[], ⟨rfl, rfl⟩, .nil g⟩
  | .default b, arms₁, n, p, h => by
    obtain ⟨b₁, rfl, h⟩ := h
    obtain ⟨deleted, hculled, htaken⟩ := Block.Edited.culled hg h
    refine ⟨deleted, ?_, htaken⟩
    exact ⟨_, rfl, hculled⟩
  | .case label b rest, arms₁, n, p, h => by
    obtain ⟨b₁, rest₁, rfl, hb, h⟩ := h
    obtain ⟨first, hfirst, htaken⟩ := Block.Edited.culled hg hb
    obtain ⟨others, hothers, htaken'⟩ := Arms.Edited.culled hg h
    rw [← hb.blockCount] at hothers htaken'
    refine ⟨first ++ others, ?_, htaken.append htaken'⟩
    exact ⟨_, _, first, others, rfl, rfl, hfirst, hothers⟩
end

end Edited

/-! ## What sweeps delete -/

namespace Numbering

namespace Cleanup

variable {c : Cleanup} {reads : List String}

/-- An instruction that is not dropped is left as it is. -/
theorem DropsDead.eq_of_some {g : Rewrite} (hg : c.DropsDead reads g) {k : Nat}
    {i j : Instruction} (h : g k i = some j) : i = j := by
  rcases hg k i with hi | ⟨hi, -⟩
  · exact Option.some.inj (hi.symm.trans h)
  · cases hi.symm.trans h

/-- What is left by a rewriting that drops dead instructions. -/
theorem DropsDead.mem_numbered {g : Rewrite} (hg : c.DropsDead reads g) {n : Nat} {b : Block}
    {e : Nat × Instruction} :
    e ∈ (b.filterMap g n).numbered n ↔ e ∈ b.numbered n ∧ g e.1 e.2 ≠ none := by
  rw [Block.numbered_filterMap, List.mem_filterMap]
  constructor
  · rintro ⟨⟨k, i⟩, hmem, he⟩
    obtain ⟨j, hj, rfl⟩ := Option.map_eq_some_iff.1 he
    obtain rfl := hg.eq_of_some hj
    exact ⟨hmem, fun hnone => by cases hnone.symm.trans hj⟩
  · rintro ⟨hmem, hne⟩
    refine ⟨e, hmem, ?_⟩
    rw [Rewrite.onNumbered, ((hg e.1 e.2).resolve_right fun h => hne h.1)]
    rfl

/-- **Sweeps delete exactly the instructions that are missing** in what they
leave. -/
theorem mem_sweepAll (outputs : List String) (fuel : Nat) (b : Block) (i : Instruction) :
    i ∈ (c.sweepAll outputs fuel b).2
      ↔ ∃ k, (k, i) ∈ b.numbered 0 ∧ (k, i) ∉ (c.sweepAll outputs fuel b).1.numbered 0 := by
  induction fuel generalizing b with
  | zero => exact iff_of_false List.not_mem_nil (not_exists.2 fun _ => and_not_self)
  | succ fuel ih =>
    have hfirst : i ∈ (c.sweepBlock (outputs ++ b.readNames) 0 b).2.1 ↔ _ := mem_sweepBlock
    have hkept := numbered_sweepBlock (c := c) (outputs ++ b.readNames) 0 b
    rw [sweepAll]
    dsimp only
    cases hdeleted : (c.sweepBlock (outputs ++ b.readNames) 0 b).2.1 with
    | nil =>
      rw [List.isEmpty_nil, if_pos rfl]
      show i ∈ [] ↔ ∃ k, (k, i) ∈ b.numbered 0
        ∧ (k, i) ∉ (c.sweepBlock (outputs ++ b.readNames) 0 b).1.numbered 0
      rw [sweepBlock_of_nil hdeleted]
      exact iff_of_false List.not_mem_nil (not_exists.2 fun _ => and_not_self)
    | cons first deleted =>
      rw [← hdeleted, if_neg (by rw [hdeleted]; exact Bool.false_ne_true)]
      generalize hswept : c.sweepBlock (outputs ++ b.readNames) 0 b = swept at hfirst hkept ⊢
      obtain ⟨g, hg, hdrops, -⟩ := c.sweepAll_spec outputs fuel swept.1
      -- later sweeps bring nothing back
      have hless : ∀ e ∈ (c.sweepAll outputs fuel swept.1).1.numbered 0,
          e ∈ swept.1.numbered 0 := by
        intro e he
        rw [hg] at he
        exact (hdrops.mem_numbered.1 he).1
      have hleft : ∀ e, e ∈ swept.1.numbered 0
          ↔ e ∈ b.numbered 0 ∧ c.isDead (outputs ++ b.readNames) e.1 e.2 = false := by
        intro e
        rw [hkept, List.mem_filter, Bool.not_eq_true']
      show i ∈ swept.2.1 ++ (c.sweepAll outputs fuel swept.1).2
        ↔ ∃ k, (k, i) ∈ b.numbered 0 ∧ (k, i) ∉ (c.sweepAll outputs fuel swept.1).1.numbered 0
      rw [List.mem_append, hfirst, ih]
      constructor
      · rintro (⟨k, hmem, hdead⟩ | ⟨k, hmem, hnot⟩)
        · refine ⟨k, hmem, fun hlast => ?_⟩
          exact Bool.false_ne_true (((hleft _).1 (hless _ hlast)).2.symm.trans hdead)
        · exact ⟨k, ((hleft _).1 hmem).1, hnot⟩
      · rintro ⟨k, hmem, hnot⟩
        -- the first sweep has deleted it, or a later one
        cases hdead : c.isDead (outputs ++ b.readNames) k i with
        | true => exact .inl ⟨k, hmem, hdead⟩
        | false => exact .inr ⟨k, (hleft _).2 ⟨hmem, hdead⟩, hnot⟩

/-- The names of the variables that are noted with marks as the values of
constants. -/
def noted (c : Cleanup) : List String :=
  c.marks.entries.filterMap fun e => (e.2.bind Operand.var?).map (·.name)

/-- **A store reads what was noted with its mark.** -/
theorem addsReads_stored (c : Cleanup) :
    Rewrite.AddsReads (fun k i => some (c.stored k i)) c.noted := by
  rintro k i j hj v hv
  obtain rfl := Option.some.inj hj
  rcases c.stored_cases k i with h | ⟨dst, a, -, ha, h⟩
  · exact .inl (h ▸ hv)
  · rw [h] at hv
    obtain ⟨r, hr, hvar⟩ := List.mem_filterMap.1 hv
    obtain rfl := List.mem_singleton.1 hr
    have hmem := mem_of_get? (Option.join_eq_some_iff.1 ha)
    refine .inr (List.mem_filterMap.2 ⟨_, hmem, ?_⟩)
    show a.var?.map (·.name) = some v.name
    rw [hvar, Option.map_some]

/-- A rewriting that drops dead instructions drops those that are missing. -/
theorem DropsDead.mem_dropped {g : Rewrite} (hg : c.DropsDead reads g) {n : Nat} {b : Block}
    {i : Instruction} :
    i ∈ g.dropped (b.numbered n) ↔ ∃ k, (k, i) ∈ b.numbered n
      ∧ (k, i) ∉ (b.filterMap g n).numbered n := by
  rw [Rewrite.dropped, List.mem_map]
  constructor
  · rintro ⟨⟨k, j⟩, he, rfl⟩
    obtain ⟨hmem, hnone⟩ := List.mem_filter.1 he
    exact ⟨k, hmem, fun hleft => (hg.mem_numbered.1 hleft).2 (Option.isNone_iff_eq_none.1 hnone)⟩
  · rintro ⟨k, hmem, hnot⟩
    refine ⟨(k, i), List.mem_filter.2 ⟨hmem, Option.isNone_iff_eq_none.2 ?_⟩, rfl⟩
    exact of_not_not fun hne => hnot (hg.mem_numbered.2 ⟨hmem, hne⟩)

end Cleanup

/-- **The cleanup takes out instructions whose outputs nothing reads**, but for
what stores read. -/
theorem culled_removeRedundant (ctx : Context) (f : Function) (s : State) {b : Block} {p : Point}
    (h : b.Edited keepsOutputs 0 p f.block) :
    let g := (removeRedundant ctx f s).1
    ∃ deleted, b.Culled (fun name => ∃ i ∈ deleted, name ∈ i.outputs.map (·.name)) g.block deleted
      ∧ ∀ i ∈ deleted, i.outputs ≠ [] ∧ ∀ o ∈ i.outputs, o.name ∉ f.outputs.map (·.name)
        ∧ (o.name ∈ g.block.readNames → o.name ∈ Cleanup.noted ⟨ctx.foreign, s.marks⟩) := by
  intro g
  let c : Cleanup := ⟨ctx.foreign, s.marks⟩
  let swept := c.sweepAll (f.outputs.map (·.name)) (f.block.instructions.length + 1) f.block
  let names := swept.2.flatMap fun i => i.outputs.map (·.name)
  obtain ⟨sweep, hsweep, hdrops, hdead⟩ :=
    c.sweepAll_spec (f.outputs.map (·.name)) (f.block.instructions.length + 1) f.block
  -- sweeping and storing are one rewriting
  let cleaned : Rewrite := fun k i => (sweep k i).bind fun i => some (c.stored k i)
  have hblock : g.block = dropDeclarations names (f.block.filterMap cleaned 0) := by
    rw [(removeRedundant_eq ctx f s).1, Cleanup.storeBlock_fst, hsweep, Block.filterMap_filterMap]
  have houtputs : ∀ k i j, cleaned k i = some j → j.outputs = i.outputs := by
    intro k i j hj
    obtain ⟨i', hi', hj⟩ := Option.bind_eq_some_iff.1 hj
    obtain rfl := Cleanup.DropsDead.eq_of_some hdrops hi'
    rw [← Option.some.inj hj, c.outputs_stored]
  have hdropped : ∀ i, i ∈ swept.2 ↔ i ∈ cleaned.dropped (f.block.numbered 0) := by
    intro i
    rw [Cleanup.mem_sweepAll, Rewrite.dropped_bind_some, hdrops.mem_dropped, hsweep]
  obtain ⟨deleted, hculled, htaken⟩ := Block.Edited.culled names houtputs h
  -- the sweeps list edited instructions, which have the outputs that they had before
  have hgone : (· ∈ names) = fun name => ∃ i ∈ deleted, name ∈ i.outputs.map (·.name) := by
    funext name
    refine propext ⟨fun hname => ?_, fun ⟨i, hi, hname⟩ => ?_⟩
    · obtain ⟨j, hj, hname⟩ := List.mem_flatMap.1 hname
      obtain ⟨i, hi, hout⟩ := htaken.mem_outputs.2 ⟨j, (hdropped j).1 hj, rfl⟩
      exact ⟨i, hi, hout ▸ hname⟩
    · obtain ⟨j, hj, hout⟩ := htaken.mem_outputs.1 ⟨i, hi, rfl⟩
      exact List.mem_flatMap.2 ⟨j, (hdropped j).2 hj, hout ▸ hname⟩
  rw [hgone, ← hblock] at hculled
  refine ⟨deleted, hculled, fun i hi => ?_⟩
  obtain ⟨j, hj, hout⟩ := htaken.mem_outputs.1 ⟨i, hi, rfl⟩
  obtain ⟨k, hk⟩ := hdead j ((hdropped j).2 hj)
  obtain ⟨hredundant, hunread⟩ := Cleanup.isDead_eq_true hk
  rw [← hout]
  refine ⟨Cleanup.outputs_ne_nil_of_isRedundant hredundant, fun o ho => ?_⟩
  have hnot := hunread o ho
  rw [List.mem_append, not_or] at hnot
  refine ⟨hnot.1, fun hread => ?_⟩
  -- what is read behind the cleanup was read when the instruction was swept, or a
  -- store reads it
  rw [hblock, (numbered_dropDeclarations names 0 _).2, ← Block.filterMap_filterMap] at hread
  exact (Block.mem_readNames_filterMap c.addsReads_stored 0 _ _ hread).resolve_left hnot.2

end Numbering

/-! ## Numbered functions -/

/-- The names of the variables that constants of a table hold in place of
literals. -/
def Constants.heldNames (t : Constants) : List String :=
  t.table.entries.filterMap fun e => e.2.value.var?.map (·.name)

namespace Numbering

/-- **A constant that a walk makes holds a literal**, so the variables that are
noted with marks are held by constants of the table. -/
theorem noted_subset_heldNames {globals : Constants} {s : State} {foreign : Foreign}
    (hgrows : globals.pool.Grows s.pool) (hbacks : ∀ e ∈ s.marks.entries, s.pool.Backs e.2) :
    Cleanup.noted ⟨foreign, s.marks⟩ ⊆ globals.heldNames := by
  intro name hname
  obtain ⟨e, he, hvar⟩ := List.mem_filterMap.1 hname
  obtain ⟨w, hw, rfl⟩ := Option.map_eq_some_iff.1 hvar
  obtain ⟨a, ha, hw⟩ := Option.bind_eq_some_iff.1 hw
  obtain ⟨key, c, hc, rfl⟩ := hbacks e he a ha
  -- the constant is one of the table, or it was made for a literal
  rcases hgrows.get?_eq_some hc with hc | ⟨l, hl, -⟩
  · rw [Constants.get?_pool] at hc
    refine List.mem_filterMap.2 ⟨_, Dict.mem_entries_of_get? hc, ?_⟩
    rw [hw, Option.map_some]
  · rw [(Constant.make?_eq_some hl).2.1] at hw
    cases hw

variable {settings : Settings} {foreign : Foreign} {globals : Constants}
  {f : Function} {stats : Stats}
  {created : Constants}

/-- **What is read keeps its definitions.** An accepted function is numbered
into one that has instructions taken out. No output of these is handed back, and
none is read any more, unless a constant of the table holds the variable. All
else stands where it stood, with its outputs, and declarations are only dropped
of outputs that were taken out and are not mentioned in their block. -/
theorem definitions_kept (h : (run settings foreign globals f).result = .ok (stats, created)) :
    let g := (run settings foreign globals f).function
    ∃ deleted, f.block.Culled (fun name => ∃ i ∈ deleted, name ∈ i.outputs.map (·.name))
      g.block deleted
      ∧ ∀ i ∈ deleted, i.outputs ≠ [] ∧ ∀ o ∈ i.outputs, o.name ∉ g.outputs.map (·.name)
        ∧ (o.name ∈ g.block.readNames → o.name ∈ globals.heldNames) := by
  obtain ⟨ctx, facts, -, -, hfault, -, hfunction⟩ := run_eq_ok h
  obtain ⟨⟨hgrows, hbacks⟩, hedited⟩ :=
    (upheld_backs ctx globals.pool).visitBlock f.block (opened globals f facts)
      ⟨.refl _, List.forall_mem_nil _⟩ (Block.meets_ofVars f.block (fun _ _ => trivial) _ _) hfault
  -- a visit leaves the outputs, whatever it does to the operands
  have hrefines : (walkEdit ctx (.ofVars fun _ => True) fun s =>
      globals.pool.Grows s.pool ∧ ∀ e ∈ s.marks.entries, s.pool.Backs e.2).Refines
          keepsOutputs := by
    refine ⟨And.right, ?_, fun _ => trivial, ?_⟩
    · rintro n p i r ⟨-, s, -, -, hf, rfl⟩
      exact ⟨_, rfl, (tree_visitInstruction hf).1⟩
    · rintro p t t' ⟨-, s, -, -, -, hf, rfl⟩
      exact kept_enterDeferred hf
  let v := visitBlock ctx f.block (opened globals f facts)
  obtain ⟨deleted, hculled, hunread⟩ :=
    culled_removeRedundant ctx { f with block := v.tree } v.state
      (hedited.mono hrefines)
  rw [hfunction]
  refine ⟨deleted, hculled, fun i hi => ?_⟩
  obtain ⟨hout, hunread⟩ := hunread i hi
  refine ⟨hout, fun o ho => ⟨?_, fun hread => ?_⟩⟩
  · obtain ⟨_, _, _, -, -, heq⟩ := removeRedundant_fst ctx { f with block := v.tree } v.state
    rw [heq]
    exact (hunread o ho).1
  · exact noted_subset_heldNames hgrows hbacks ((hunread o ho).2 hread)

/-- A function that copies its input and a constant, and hands the copy of the
constant back. -/
def copiesConstant : Function where
  name := "f"
  inputs := [⟨"p", .future .int, .stack, .inArg, .user⟩]
  outputs := [⟨"o", .ref (.future .int), .stack, .outArg, .user⟩]
  target := .control
  block :=
    .mk [.future "w" .int, .future "x" .int]
      (.instr (.compute .later .copy (.future "w" .int)
        [.var ⟨"p", .future .int, .stack, .inArg, .user⟩])
      (.instr (.compute .later .copy (.future "x" .int)
        [.var ⟨"k", .future .int, .globalConst, .globalConst, .user⟩])
      (.instr (.storeRef ⟨"o", .ref (.future .int), .stack, .outArg, .user⟩ (.future "x" .int))
        .done)))

/-- A table in which the constant holds an operand. -/
def tableWith (a : Operand) : Constants :=
  ⟨Dict.empty.insert "k" ⟨⟨"k", .future .int, .globalConst, .globalConst, .user⟩, a⟩⟩

/-- The copy of the input is taken out, and with a literal for the constant
nothing reads it. -/
theorem definitions_kept_copiesConstant :
    let g := (run {} .empty (tableWith (.lit (.int 7))) copiesConstant).function
    g.block.instructions.length = 2
      ∧ ∃ deleted, copiesConstant.block.Culled
        (fun name => ∃ i ∈ deleted, name ∈ i.outputs.map (·.name)) g.block deleted
        ∧ ∀ i ∈ deleted, i.outputs ≠ []
          ∧ ∀ o ∈ i.outputs, o.name ∉ g.outputs.map (·.name) ∧ o.name ∉ g.block.readNames := by
  intro g
  have hrun : (run {} .empty (tableWith (.lit (.int 7))) copiesConstant).result
      = .ok (⟨1, 0, 0, 1, 0, 0⟩, .empty) := by
    decide +kernel
  refine ⟨by decide +kernel, ?_⟩
  obtain ⟨deleted, hculled, hunread⟩ := definitions_kept hrun
  refine ⟨deleted, hculled, fun i hi => ⟨(hunread i hi).1, fun o ho => ?_⟩⟩
  obtain ⟨hout, hheld⟩ := (hunread i hi).2 o ho
  exact ⟨hout, fun hread => List.not_mem_nil (hheld hread)⟩

/-- **A definition that is stranded**: the constant holds a variable of the
function, whose definition nothing reads until the constant is stored. -/
theorem stranded_of_constant :
    let o := run {} .empty (tableWith (.var (.future "w" .int))) copiesConstant
    o.result = .ok (⟨1, 0, 0, 1, 0, 0⟩, .empty) ∧ "w" ∈ o.function.block.readNames
      ∧ (∃ i ∈ copiesConstant.block.instructions, "w" ∈ i.outputs.map (·.name))
      ∧ ∀ i ∈ o.function.block.instructions, "w" ∉ i.outputs.map (·.name) := by
  decide +kernel

end Numbering

end ValueFlow
