import ValueFlow.Proofs.Representatives

/-!
# Numbering rewrites in place

A numbered function has the continuations that it had before, in the same order
and nesting, and its blocks have the same instructions, some of which are
deleted and others rewritten where they stand (`inPlace`). Only pure
instructions are deleted or replaced by something else, so everything that acts
on storage or on the world is still there, with the same containers, paths and
functions.

A name in a block must not be marked as a constant for this. Facts about
constants are kept when a block is left, so a variable that is declared again in
a later block would start with a representative there, and the result of a
foreign function that is bound to it would be taken for known.
-/

namespace ValueFlow

/-! ## Rewriting in place -/

/-- **The instruction was rewritten in place**: its operands were replaced, but
not its containers, or it was pure and another assignment of its output stands
in its place. -/
def Instruction.Rewritten (foreign : Foreign) (i j : Instruction) : Prop :=
  j.outputs = i.outputs ∧ ((∃ φ, j = i.mapOperands φ)
    ∨ i.isPure foreign = true ∧ ∃ dst, i.outputs = [dst]
      ∧ ((∃ l, j = .compute .now .copy dst [.lit l]) ∨ ∃ a, j = .storeScalar dst a))

/-- **The trigger was kept**: of a wait, variables may be missing, and the
bounds of a range may be replaced. -/
def Trigger.Kept : Trigger → Trigger → Prop
  | .wait vars target mode, t => ∃ vars', t = .wait vars' target mode ∧ vars'.Sublist vars
  | .range index _ _ _, t => ∃ start stop step, t = .range index start stop step
  | .foreach array member, t => t = .foreach array member

/-- **What numbering may do to the parts of a function** with the given outputs.
Only pure instructions with outputs may be deleted, and none that assigns an
output of the function. -/
def inPlace (foreign : Foreign) (outputs : List Var) : Edit where
  declares _ vars vars' := vars'.Sublist vars
  instruction _ _ i
    | some j => i.Rewritten foreign j
    | none =>
      i.isPure foreign = true ∧ i.outputs ≠ [] ∧ ∀ o ∈ i.outputs, o.name ∉ outputs.map (·.name)
  operand _ a a' := ∀ l, a = .lit l → a' = a
  trigger _ t t' := t.Kept t'

namespace Numbering

section Kept

variable {ctx : Context}

theorem keptWaits_sublist (ctx : Context) (facts : Congruence) (vars : List Var) :
    (keptWaits ctx facts vars).Sublist vars := by
  unfold keptWaits
  split
  · exact List.filter_sublist
  · exact List.Sublist.refl _

theorem kept_enterDeferred {t : Trigger} {s : State} (h : (enterDeferred ctx t s).fault = none) :
    t.Kept (enterDeferred ctx t s).tree := by
  cases t with
  | wait vars target mode =>
    exact ⟨_, (enterWait_spec ctx vars target mode s).1, keptWaits_sublist ctx s.facts vars⟩
  | range index start stop step =>
    obtain ⟨facts, -, htree, -⟩ := enterRange_cases h
    exact ⟨_, _, _, htree⟩
  | foreach array member => rfl

end Kept

/-! ## Deleted instructions -/

/-- What the facts about a function may speak about, whatever the constants of
the program are. -/
def spoken (f : Function) (aliases : AliasMap) : Vocabulary :=
  .over aliases (· ∈ f.occurrences) (fun _ => True) fun _ _ _ => trivial

section Cleanup

variable {V : Vocabulary} {ctx : Context} {b : Block} {p : Point}
  {n : Nat} {i : Instruction} {s final : State}

/-- **What is redundant was pure.** The mark on its output was made by a pure
instruction of the same block, and no other instruction there assigns the same
output. -/
theorem isPure_of_isRedundant (hV : Suits V ctx) (hb : b.Meets (accepted ctx.foreign) 0 p)
    (hfinal : InOrder V ctx (b.numbered 0) final) (hs : InOrder V ctx (b.numbered 0) s)
    (hi : i.All V.text) (hmem : (n, i) ∈ b.numbered 0)
    (hf : (visitInstruction ctx n i s).fault = none)
    (hred : (cleanupOf ctx final).isRedundant n (visitInstruction ctx n i s).tree = true) :
    i.isPure ctx.foreign = true := by
  rcases hs.visitInstruction_tree hV hi hf with htree | ⟨hpure, -⟩
  · obtain ⟨hrem, hmarks⟩ := Cleanup.isRedundant_eq_true hred
    have hne := Cleanup.outputs_ne_nil_of_isRedundant hred
    rw [htree, Instruction.outputs_mapOperands] at hne hmarks
    obtain ⟨o, ho⟩ := List.exists_mem_of_ne_nil _ hne
    obtain ⟨lit, hget⟩ := Option.isSome_iff_exists.1 (hmarks o ho)
    obtain ⟨j, hj, hpure, v, hv, hname, htext⟩ := hfinal.marked _ (mem_of_get? hget)
    -- the two outputs are the same variable, which has storage of its own
    obtain rfl : v = o := hV.consistent v o htext (hi.2 o ho) hname
    rw [htree] at hrem
    have hbinds := bindsAlias_of_isRemovable hrem
    rw [Instruction.bindsAlias_mapOperands] at hbinds
    have hresults : v ∈ i.results := by
      unfold Instruction.results
      rw [hbinds]
      exact ho
    have hassigned : v ∈ i.assigned :=
      Instruction.mem_assigned.2 ⟨hresults, (Instruction.mem_assigned.1 hv).2⟩
    have hassigns : ∀ {k : Instruction}, v ∈ k.assigned → v.name ∈ k.assigns := fun hk =>
      List.mem_reverse.2 (List.mem_map.2 ⟨v, hk, rfl⟩)
    rwa [Block.eq_of_mem_numbered hb hmem hj (hassigns hassigned) (hassigns hv)]
  · exact hpure

/-- **Walking and cleaning up rewrite in place**; `g` is the rewriting that
cleans up. -/
theorem refines_inPlace (hV : Suits V ctx) (hb : b.Meets (accepted ctx.foreign) 0 p)
    (hfinal : InOrder V ctx (b.numbered 0) final) {outputs : List Var}
    {reads : List String} {g : Rewrite}
    (hreads : outputs.map (·.name) ⊆ reads)
    (hg : ∀ n i, g n i = some ((cleanupOf ctx final).stored n i)
      ∨ g n i = none ∧ (cleanupOf ctx final).isDead reads n i = true) :
    ((walkEdit ctx
      (ordered V (b.numbered 0))
      (InOrder V ctx (b.numbered 0))).andThen g).dropping.Refines
        (inPlace ctx.foreign outputs) where
  declares := by
    rintro p vars vars' ⟨vars, ⟨-, rfl⟩, hsub⟩
    exact hsub
  instruction := by
    rintro n p i r ⟨r₀, ⟨⟨hi, -, hmem⟩, s, hs, -, hf, rfl⟩, rfl⟩
    have hpure := fun hred => isPure_of_isRedundant hV hb hfinal hs hi hmem hf hred
    have houtputs : (visitInstruction ctx n i s).tree.outputs = i.outputs := by
      rcases hs.visitInstruction_tree hV hi hf with htree | ⟨-, dst, l, hout, htree⟩
      · rw [htree, Instruction.outputs_mapOperands]
      · rw [htree, hout]
        rfl
    show (inPlace ctx.foreign outputs).instruction n p i (g n (visitInstruction ctx n i s).tree)
    rcases hg n (visitInstruction ctx n i s).tree with hstored | ⟨hnone, hdead⟩
    · rw [hstored]
      refine ⟨(Cleanup.outputs_stored _ _ _).trans houtputs, ?_⟩
      unfold Cleanup.stored
      cases hstore : (cleanupOf ctx final).storeFor? n (visitInstruction ctx n i s).tree with
      | none =>
        rcases hs.visitInstruction_tree hV hi hf with htree | ⟨hp, dst, l, hout, htree⟩
        · exact .inl ⟨_, htree⟩
        · exact .inr ⟨hp, dst, hout, .inl ⟨l, htree⟩⟩
      | some store =>
        obtain ⟨dst, a, hout, -, -, rfl⟩ := Cleanup.storeFor?_eq_some hstore
        exact .inr ⟨hpure (Cleanup.isRedundant_of_storeFor? hstore),
          dst, houtputs.symm.trans hout, .inr ⟨a, rfl⟩⟩
    · rw [hnone]
      obtain ⟨hred, hunread⟩ := Cleanup.isDead_eq_true hdead
      exact ⟨hpure hred, houtputs ▸ Cleanup.outputs_ne_nil_of_isRedundant hred,
        fun o ho hmem => hunread o (houtputs ▸ ho) (hreads hmem)⟩
  operand := by
    rintro p a a' ⟨-, s, -, -, -, rfl⟩ l rfl
    rfl
  trigger := by
    rintro p t t' ⟨-, s, -, -, -, hf, rfl⟩
    exact kept_enterDeferred hf

end Cleanup

/-! ## Numbered functions -/

section Runs

variable {settings : Settings} {foreign : Foreign} {globals created : Constants}
  {f : Function} {stats : Stats}
  {facts : Congruence}

theorem suits_spoken (h : ∀ v ∈ f.occurrences, ∀ w ∈ f.occurrences, v.name = w.name → v = w)
    (ctx : Context) : Suits (spoken f ctx.aliases) ctx where
  consistent v w hv hw := h v hv w hw
  made _ _ _ := trivial
  stable _ := Iff.rfl
  fixed _ := Iff.rfl

/-- The walk starts in the outermost scope. -/
theorem outer_opened (h : f.inputs.foldlM enterInput .new = .ok facts) :
    (opened globals f facts).facts.outer = [] :=
  (foldl_declare_spec f.outputs facts).1.trans (foldlM_enterInput h).1

/-- The walk starts in order. -/
theorem inOrder_opened {V : Vocabulary} {ctx : Context} (is : List (Nat × Instruction))
    (hw : WellFormed V (opened globals f facts)) (h : f.inputs.foldlM enterInput .new = .ok facts) :
    InOrder V ctx is (opened globals f facts) := by
  refine ⟨hw, fun v rep hrep => ?_, fun hne => absurd (outer_opened h) hne, List.forall_mem_nil _⟩
  rw [representative?_opened h] at hrep
  cases hrep

/-- The walk starts with facts about the function. -/
theorem wellFormed_spoken (h : f.inputs.foldlM enterInput .new = .ok facts) (aliases : AliasMap) :
    WellFormed (spoken f aliases) (opened globals f facts) := by
  refine wellFormed_opened (fun v hv => ?_) (fun _ c _ => ⟨trivial, ?_⟩) h
  · exact List.mem_append_left _ (List.mem_append_left _ hv)
  · cases c.value <;> trivial

/-- The text of a function with unique names, in which no block declares a
constant. -/
theorem meets_ordered {V : Vocabulary} (htext : ∀ v ∈ f.block.occurrences, V.text v)
    (hanew : f.block.declaresAnew ((f.inputs ++ f.outputs).map (·.name)) = true)
    (hunmarked : ∀ v ∈ f.block.declarations, v.isGlobalConst = false)
    (h : f.inputs.foldlM enterInput .new = .ok facts) :
    f.block.Meets (ordered V (f.block.numbered 0)) 0 (opened globals f facts).facts.point := by
  have hpoint : (opened globals f facts).facts.point = f.point := point_opened h
  rw [hpoint]
  exact .and (Block.meets_ofVars f.block htext _ _)
    (.and (Block.meets_anew hanew hunmarked fun n hn => List.mem_reverse.1 hn)
      (Block.meets_ofInstructions.2 fun e he => he))

/-- **Numbering only deletes pure instructions and rewrites in place**, if all
occurrences of a variable carry the same data, names are unique in overlapping
scopes, and no block declares a variable that is marked as a constant. -/
theorem run_in_place
    (hconsistent : ∀ v ∈ f.occurrences, ∀ w ∈ f.occurrences, v.name = w.name → v = w)
    (hanew : f.block.declaresAnew ((f.inputs ++ f.outputs).map (·.name)) = true)
    (hunmarked : ∀ v ∈ f.block.declarations, v.isGlobalConst = false)
    (h : (run settings foreign globals f).result = .ok (stats, created)) :
    let g := (run settings foreign globals f).function
    g.name = f.name ∧ g.inputs = f.inputs ∧ g.outputs = f.outputs ∧ g.target = f.target
      ∧ f.block.Edited (inPlace foreign f.outputs) 0 f.point g.block := by
  obtain ⟨-, hblock⟩ := Function.fault?_eq_none.1 (run_ok_iff.1 ⟨_, h⟩)
  obtain ⟨ctx, facts, hctx, hfacts, hfault, -, hfunction⟩ := run_eq_ok h
  obtain ⟨-, rfl, -, -⟩ := contextOf_eq_ok hctx
  have hV := suits_spoken hconsistent ctx
  have hpoint : (opened globals f facts).facts.point = f.point := point_opened hfacts
  obtain ⟨hfinal, hedited⟩ := (upheld_inOrder hV).visitBlock f.block _
    (inOrder_opened (f.block.numbered 0) (wellFormed_spoken hfacts _) hfacts)
    (meets_ordered (fun v hv => List.mem_append_right _ hv) hanew hunmarked hfacts) hfault
  obtain ⟨g, reads, deleted, hreads, hg, hremoved⟩ := removeRedundant_fst ctx
    { f with block := (visitBlock ctx f.block (opened globals f facts)).tree }
    (visitBlock ctx f.block (opened globals f facts)).state
  rw [hpoint] at hedited
  rw [hfunction, hremoved]
  exact ⟨rfl, rfl, rfl, rfl, ((hedited.filterMap g).dropDeclarations deleted).mono
    (refines_inPlace hV hblock hfinal hreads hg)⟩

/-- A function that copies a literal in one block and calls a foreign function
in the next one, where its result is bound to the same name. -/
def reusesName (k : Var) : Function where
  name := "f"
  inputs := []
  outputs := [⟨"o", .future .int, .stack, .outArg, .user⟩]
  target := .control
  block :=
    let o : Var := ⟨"o", .future .int, .stack, .outArg, .user⟩
    .mk []
      (.cont (.nested (.mk [k] (.instr (.compute .now .copy k [.lit (.int 5)]) .done)))
      (.cont (.nested (.mk [k]
        (.instr (.call .now "r" [k] [])
        (.instr (.storeScalar o (.var k)) .done)))) .done))

/-- The registry with one function, which gives varying results. -/
def varying : Foreign := Foreign.empty.register ⟨"r", false, false, false, none⟩

/-- Both assignments stay: the name is read, and the call is not pure. -/
theorem run_in_place_reusesName :
    (run {} varying .empty (reusesName (.value "k" .int))).result = .ok (⟨0, 0, 0, 0, 0, 0⟩, .empty)
      ∧ (reusesName (.value "k" .int)).block.Edited
        (inPlace varying (reusesName (.value "k" .int)).outputs) 0
        (reusesName (.value "k" .int)).point
        (run {} varying .empty (reusesName (.value "k" .int))).function.block
      ∧ (Instruction.call .now "r" [.value "k" .int] []).isPure varying = false
      ∧ .call .now "r" [.value "k" .int] []
        ∈ (run {} varying .empty (reusesName (.value "k" .int))).function.block.instructions := by
  have hrun : (run {} varying .empty (reusesName (.value "k" .int))).result
      = .ok (⟨0, 0, 0, 0, 0, 0⟩, .empty) := by decide +kernel
  obtain ⟨-, -, -, -, hedited⟩ :=
    run_in_place (by decide +kernel) (by decide +kernel) (by decide +kernel) hrun
  exact ⟨hrun, hedited, by decide +kernel, by decide +kernel⟩

/-- **A call is lost** where the name is marked as a constant: what was known
about the first variable is kept for the second one. -/
theorem call_lost_of_marked :
    let k : Var := ⟨"k", .value .int, .task, .globalConst, .user⟩
    let f := reusesName k
    (∀ v ∈ f.occurrences, ∀ w ∈ f.occurrences, v.name = w.name → v = w)
      ∧ f.block.declaresAnew ((f.inputs ++ f.outputs).map (·.name)) = true
      ∧ (Instruction.call .now "r" [k] []).isPure varying = false
      ∧ (run {} varying .empty f).function.block.instructions
        = [.storeScalar ⟨"o", .future .int, .stack, .outArg, .user⟩ (.lit (.int 5))] := by
  decide +kernel

end Runs

end Numbering

end ValueFlow
