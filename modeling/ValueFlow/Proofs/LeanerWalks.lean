import ValueFlow.Proofs.SettledWalks

/-!
# Walking a numbered tree once more

A tree is walked, the instructions that turn out to be redundant are deleted
with declarations that nothing mentions any more, and what is left is walked
again. If the first walk settles everything, the second one counts no change
(`leans_visitBlock`): it runs beside the first one, its states lean on those of
the first walk, and where an instruction was deleted, it stands still.

Both walks leave their scopes in the same places. What is handed on there
depends on what is declared around, so it has to be known that the names inside
are new and that the second walk mentions only what it may use
(`Thinning.leaving`).
-/

namespace ValueFlow

namespace Numbering

/-- **How the second tree comes about**: a rewriting deletes instructions that
are redundant in view of the marks in the end, and what is known about their
outputs is hidden. The facts of the first walk are about variables of one
vocabulary, those of the second walk about variables of another one. A variable
is marked as a constant in both or in none. -/
structure Thinning (V V' : Vocabulary) (ctx : Context) (hidden : String → Bool) (marks : Marks)
    (g : Rewrite) : Prop where
  suits : Suits V ctx
  serves : Serves V' ctx
  shared : ∀ v, V'.shared v → v.isGlobalConst = true
  alike : ∀ v w, V.shared v ∨ V.text v → V'.shared w ∨ V'.text w → v.name = w.name →
    v.isGlobalConst = w.isGlobalConst
  stable : ∀ e ∈ marks.entries, ∃ v, V.text v ∧ v.name = e.1.2 ∧ ctx.aliases.isStable v = true
  drops : ∀ k i, g k i = some i
    ∨ g k i = none ∧ Cleanup.isRedundant ⟨ctx.foreign, marks⟩ k i = true
      ∧ ∀ o ∈ i.outputs, hidden o.name = true

/-- **A second walk** that gets through a tree with the given variables and
reads: they belong to the vocabulary, and nothing about what is read is hidden.
-/
structure Again (V' : Vocabulary) (hidden : String → Bool) (t : State) (fault : Option Fault)
    (occurrences : List Var) (reads : List String) : Prop where
  wellFormed : WellFormed V' t
  fault : fault = none
  text : ∀ v ∈ occurrences, V'.text v
  shown : ∀ n ∈ reads, hidden n = false

section Leaving

variable {V V' : Vocabulary} {ctx : Context} {is : List (Nat × Instruction)}
  {hidden : String → Bool} {marks : Marks}
  {g : Rewrite} {s t e e' : State}

/-- **A scope is left in both walks**; `e` and `e'` are the states at its end. -/
theorem Thinning.leaving (hth : Thinning V V' ctx hidden marks g)
    (hs : e.facts.outer = s.facts.scopes) (ht : e'.facts.outer = t.facts.scopes)
    (he : InOrder V ctx is e ∧ e.facts.Apart) (he' : WellFormed V' e')
    (h : Leans ctx.settings hidden e e') :
    Congruence.Leaving V' (isLive ctx.settings) hidden s.facts
      t.facts e.facts.top e'.facts.top := by
  have hmentions : V'.Mentions (scopeNames (e'.facts.top :: t.facts.scopes)) e'.facts.top := by
    rw [← ht]
    exact he'.tidy.1
  have hanew := he.1.anew
  have hapart := he.2
  unfold DeclaresAnew at hanew
  unfold Congruence.Apart at hapart
  rw [hs] at hanew hapart
  refine ⟨h.facts.top, hmentions, hth.shared, fun n hn => ?_,
    fun entry hentry => ?_, fun entry hentry entry' hentry' => ?_⟩
  · exact (hanew (List.cons_ne_nil _ _) n hn).1
  · have hnone : s.facts.representative? entry.1 = none :=
      hapart entry.1 entry.2 (Table.get?_of_mem hentry)
    exact (Congruence.representative?_eq_none_iff.1 hnone).1
  · exact hth.alike _ _ ((he.1.wellFormed.tidy.1.closed entry hentry).1.imp_right And.left)
      ((hmentions.closed entry' hentry').1.imp_right And.left)

end Leaving

/-! ## Operands and triggers -/

section Operands

variable {ctx : Context} {hidden : String → Bool} {s t : State}

/-- **The operand that governs a conditional is not replaced again.** -/
theorem countReplaced_replace (h : Leans ctx.settings hidden s t) (hshort : s.facts.Short)
    {a : Operand} (ha : (replace s.facts .value a).All fun v => hidden v.name = false) :
    countReplaced t.facts [(.value, replace s.facts .value a)] = 0 := by
  refine List.countP_eq_zero.2 (List.forall_mem_singleton.2 ?_)
  rw [replacement?_replace h.facts hshort ha]
  exact Bool.false_ne_true

/-- What is available in the second walk is so in the first one. -/
theorem isAvailable_of_leans (h : Leans ctx.settings hidden s t) (hshort : s.facts.Short)
    {v : Var} (hv : hidden v.name = false) (hav : isAvailable t.facts v = true) :
    isAvailable s.facts v = true := by
  unfold isAvailable at hav ⊢
  rw [h.facts.canonical? hshort hv, Bool.or_eq_true] at hav
  rw [Bool.or_eq_true]
  refine hav.imp h.facts.isClosed fun hrep => ?_
  cases hcan : s.facts.canonical? v with
  | none =>
    rw [hcan] at hrep
    cases hrep
  | some rep =>
    rw [hcan] at hrep
    cases rep with
    | var r => exact h.facts.isClosed hrep
    | lit l => rfl

/-- **What had to be waited for has to be waited for again.** -/
theorem isAvailable_of_keptWaits (h : Leans ctx.settings hidden s t) (hshort : s.facts.Short)
    {vars : List Var} (hprune : ctx.settings.pruneWaits = true) {v : Var}
    (hv : v ∈ keptWaits ctx s.facts vars) (hshown : hidden v.name = false) :
    isAvailable t.facts v = false := by
  unfold keptWaits at hv
  rw [if_pos hprune] at hv
  refine Bool.eq_false_iff.2 fun hav => ?_
  have hnot := (List.mem_filter.1 hv).2
  rw [isAvailable_of_leans h hshort hshown hav] at hnot
  cases hnot

/-- **The scope of a deferred block is entered again without any change.** -/
theorem leans_enterDeferred (h : Leans ctx.settings hidden s t) (hshort : s.facts.Short)
    {trigger : Trigger} (hf : (enterDeferred ctx trigger s).fault = none)
    (hreads : ∀ v ∈ (enterDeferred ctx trigger s).tree.reads.filterMap Operand.var?,
      hidden v.name = false)
    (hf' : (enterDeferred ctx (enterDeferred ctx trigger s).tree t).fault = none) :
    Leans ctx.settings hidden (enterDeferred ctx trigger s).state
        (enterDeferred ctx (enterDeferred ctx trigger s).tree t).state
      ∧ (enterDeferred ctx (enterDeferred ctx trigger s).tree t).state.stats.edits
        = t.stats.edits := by
  cases trigger with
  | wait vars target mode =>
    obtain ⟨htree, hquiet⟩ := enterWait_spec ctx vars target mode s
    rw [htree] at hreads ⊢
    have hshown : ∀ v ∈ keptWaits ctx s.facts vars, hidden v.name = false := fun v hv =>
      hreads v (List.mem_filterMap.2 ⟨.var v, List.mem_map.2 ⟨v, hv, rfl⟩, rfl⟩)
    obtain ⟨-, hquiet'⟩ := enterWait_spec ctx (keptWaits ctx s.facts vars) target mode t
    refine ⟨(h.of_facts ((h.facts.push .deferred).close (keptWaits_subset _ _ _))).of_quiet
      hquiet hquiet', ?_⟩
    unfold enterDeferred
    by_cases hprune : ctx.settings.pruneWaits = true
    · have hnone : (keptWaits ctx s.facts vars).filter (isAvailable t.facts) = [] :=
        List.filter_eq_nil_iff.2 fun v hv =>
          Bool.eq_false_iff.1 (isAvailable_of_keptWaits h hshort hprune hv (hshown v hv))
      simp only [if_pos hprune]
      show (pruneWaits ctx (keptWaits ctx s.facts vars) t).2.stats.edits = t.stats.edits
      rw [edits_pruneWaits, hnone, List.length_nil, Nat.add_zero]
    · simp only [if_neg hprune]
      rfl
  | range index start stop step =>
    obtain ⟨facts, hdefine, htree, hquiet⟩ := enterRange_cases hf
    rw [htree] at hreads hf' ⊢
    obtain ⟨facts', hdefine', -, hquiet'⟩ := enterRange_cases hf'
    obtain ⟨-, rfl⟩ := Congruence.define_eq_ok.1 hdefine
    obtain ⟨-, rfl⟩ := Congruence.define_eq_ok.1 hdefine'
    refine ⟨?_, ?_⟩
    · have hdeclared := (h.facts.push .deferred).declare (List.Subset.refl ([index].map (·.name)))
      exact (h.of_facts ((hdeclared.define _ _).close (List.Subset.refl [index]))).of_quiet
        hquiet hquiet'
    · have hcount : ∀ a ∈ [start, stop, step],
          countReplaced t.facts [(.value, replace s.facts .value a)] = 0 := by
        intro a ha
        refine countReplaced_replace h hshort (Operand.all_iff.2 fun v hv => hreads v ?_)
        refine List.mem_filterMap.2 ⟨replace s.facts .value a, ?_, Option.mem_toList.1 hv⟩
        exact List.mem_map.2 ⟨a, ha, rfl⟩
      unfold enterDeferred
      simp only [substituteOperand, State.replaced, State.push, hdefine']
      rw [hcount start (by simp), hcount stop (by simp), hcount step (by simp)]
      rfl
  | foreach array member =>
    have hdeclared := (h.facts.push .deferred).declare (List.Subset.refl ([member].map (·.name)))
    exact ⟨h.of_facts hdeclared, rfl⟩

end Operands

/-! ## The two walks -/

section Walks

variable {V V' : Vocabulary} {ctx : Context} {is : List (Nat × Instruction)}
  {hidden : String → Bool} {marks : Marks}
  {g : Rewrite} {deleted : List String}

/-- The first walk over a block gets through, in order, and settles everything. -/
structure Once (V : Vocabulary) (ctx : Context) (is : List (Nat × Instruction)) (marks : Marks)
    (b : Block) (s : State) : Prop where
  inOrder : InOrder V ctx is s ∧ s.facts.Apart
  sites : ∀ i ∈ blockSites ctx b s, i.Settled ctx marks
  meets : b.Meets (ordered V is) s.nextBlock s.facts.point
  fault : (visitBlock ctx b s).fault = none
  settles : settlesBlock ctx b s = true

/-- **The walk over what is left of a block leans on the walk over the block**,
and it counts no change. -/
def LeansBlock (V V' : Vocabulary) (ctx : Context) (is : List (Nat × Instruction))
    (hidden : String → Bool) (marks : Marks) (g : Rewrite) (deleted : List String) (b : Block) :
    Prop :=
  ∀ s t b', Leans ctx.settings hidden s t → Once V ctx is marks b s →
    b' = dropDeclarations deleted ((visitBlock ctx b s).tree.filterMap g s.nextBlock) →
    Again V' hidden t (visitBlock ctx b' t).fault b'.occurrences b'.readNames →
    Leans ctx.settings hidden (visitBlock ctx b s).state (visitBlock ctx b' t).state
      ∧ (visitBlock ctx b' t).state.stats.edits = t.stats.edits

theorem Once.inOrder_visitBlock (hth : Thinning V V' ctx hidden marks g) {b : Block} {s : State}
    (h : Once V ctx is marks b s) :
    InOrder V ctx is (visitBlock ctx b s).state ∧ (visitBlock ctx b s).state.facts.Apart :=
  ((upheld_apart hth.suits).visitBlock b s h.inOrder h.meets h.fault).1

theorem Again.wellFormed_visitBlock (hth : Thinning V V' ctx hidden marks g) {b : Block} {t : State}
    (h : Again V' hidden t (visitBlock ctx b t).fault b.occurrences b.readNames) :
    WellFormed V' (visitBlock ctx b t).state :=
  ((upheld_wellFormed hth.serves).visitBlock b t h.wellFormed (b.meets_ofVars h.text _ _) h.fault).1

/-- What an arm leaves behind in both walks. -/
structure ArmLeft (V' : Vocabulary) (ctx : Context) (hidden : String → Bool) (s s' t t' : State)
    (arm arm' : Scope) : Prop where
  leans : Leans ctx.settings hidden s' t'
  edits : t'.stats.edits = t.stats.edits
  leaving : Congruence.Leaving V' (isLive ctx.settings) hidden s.facts t.facts arm arm'
  facts : s'.facts = s.facts
  facts' : t'.facts = t.facts
  wellFormed : WellFormed V' t'

/-- **An arm is walked and left in both walks.** -/
theorem LeansBlock.leaveArm (hth : Thinning V V' ctx hidden marks g) {b b' : Block} {s t : State}
    (hb : LeansBlock V V' ctx is hidden marks g deleted b) (h : Leans ctx.settings hidden s t)
    (ho : Once V ctx is marks b (s.push .branch))
    (hb' : b' = dropDeclarations deleted
      ((Numbering.leaveArm (visitBlock ctx b (s.push .branch))).tree.1.filterMap g s.nextBlock))
    (ha : Again V' hidden t (Numbering.leaveArm (visitBlock ctx b' (t.push .branch))).fault
      b'.occurrences b'.readNames) :
    let left := Numbering.leaveArm (visitBlock ctx b (s.push .branch))
    let left' := Numbering.leaveArm (visitBlock ctx b' (t.push .branch))
    ArmLeft V' ctx hidden s left.state t left'.state left.tree.2 left'.tree.2 := by
  have hfault' := leaveArm_fault ha.fault
  have ha' : Again V' hidden (t.push .branch) (visitBlock ctx b' (t.push .branch)).fault
      b'.occurrences b'.readNames :=
    ⟨ha.wellFormed.push .branch, hfault', ha.text, ha.shown⟩
  have hpushed : Leans ctx.settings hidden (s.push .branch) (t.push .branch) :=
    h.of_facts (h.facts.push .branch)
  rw [(leaveArm_frame _).1] at hb'
  obtain ⟨hleans, hedits⟩ := hb _ _ b' hpushed ho hb' ha'
  have hs := outer_visitBlock ho.fault
  have ht := outer_visitBlock hfault'
  have hwf := ha'.wellFormed_visitBlock hth
  dsimp only
  rw [leaveArm_eq ho.fault hs, leaveArm_eq hfault' ht]
  exact ⟨hleans.of_facts h.facts, hedits,
    hth.leaving hs ht (ho.inOrder_visitBlock hth) hwf hleans, rfl, rfl,
    ⟨ha.wellFormed.tidy, hwf.constants⟩⟩

theorem inOrder_leaveArm (hV : Suits V ctx) {b : Block} {s : State}
    (hs : InOrder V ctx is s ∧ s.facts.Apart)
    (hm : b.Meets (ordered V is) s.nextBlock s.facts.point)
    (hf : (leaveArm (visitBlock ctx b (s.push .branch))).fault = none) :
    let left := leaveArm (visitBlock ctx b (s.push .branch))
    InOrder V ctx is left.state ∧ left.state.facts.Apart :=
  have hblock := ((upheld_apart hV).visitBlock b _ ((upheld_apart hV).push .branch hs)
    hm (leaveArm_fault hf)).1
  ((upheld_apart hV).leaveArm hs hf hblock).1

/-- **The arms of a conditional are combined in both walks.** -/
theorem Leans.mergeArms {s s' t t' : State} (h : Leans ctx.settings hidden s' t')
    (hs : s'.facts = s.facts) (ht : t'.facts = t.facts) {arms arms' : List Scope}
    (harms : List.Forall₂
      (Congruence.Leaving V' (isLive ctx.settings) hidden s.facts t.facts) arms arms') :
    Leans ctx.settings hidden (mergeArms ctx arms s') (mergeArms ctx arms' t') := by
  rw [← hs, ← ht] at harms
  exact ⟨h.facts.mergeBranches (fun _ => isLive_of_isRetrieve ctx.settings)
    ctx.aliases ctx.settings.branchMerge harms,
    h.pool, h.nextBlock, h.marks⟩

/-- The operand that governs a conditional does not count as a change again. -/
theorem edits_of_shown {s t : State} (h : Leans ctx.settings hidden s t) (hshort : s.facts.Short)
    {a : Operand}
    (ha : ∀ n ∈ ([replace s.facts .value a].filterMap Operand.var?).map (·.name),
      hidden n = false) :
    t.stats.edits + countReplaced t.facts [(.value, replace s.facts .value a)] = t.stats.edits := by
  have hall : (replace s.facts .value a).All fun v => hidden v.name = false :=
    Operand.all_iff.2 fun v hv => ha _
      (List.mem_map.2 ⟨v,
        List.mem_filterMap.2 ⟨_, List.mem_singleton_self _, Option.mem_toList.1 hv⟩, rfl⟩)
  rw [countReplaced_replace h hshort hall, Nat.add_zero]

variable (hth : Thinning V V' ctx hidden marks g)
include hth

mutual
/-- **What is left of a block is walked without any change.** -/
theorem leans_visitBlock : ∀ b : Block,
    LeansBlock V V' ctx is hidden marks g deleted b
  | .mk vars body, s, t, b', h, ho, hb', ha => by
    obtain ⟨hs, hsites, hmeets, hf, hset⟩ := ho
    rw [visitBlock_eq] at hf hb' ⊢
    obtain ⟨kept, hkept, rfl⟩ : ∃ kept, kept ⊆ vars ∧ b' = .mk kept (dropInBody deleted
        ((visitBody ctx s.nextBlock body (enterBlock vars s)).tree.filterMap
          g s.nextBlock (s.nextBlock + 1))) := by
      rw [Visit.map, Block.filterMap, dropDeclarations] at hb'
      exact ⟨_, List.filter_subset_self _, hb'⟩
    obtain ⟨hwf, hfault, htext', hshown⟩ := ha
    rw [visitBlock_eq, h.nextBlock] at hfault ⊢
    rw [Block.occurrences, List.forall_mem_append] at htext'
    -- Declarations are only dropped, so what the second walk declares was declared
    -- in the first one.
    have hentered : Leans ctx.settings hidden (enterBlock vars s) (enterBlock kept t) :=
      ⟨h.facts.declare (List.map_subset _ hkept), h.pool, congrArg (· + 1) h.nextBlock, h.marks⟩
    exact leans_visitBody s.nextBlock body _ _ _ hentered
      ((upheld_apart hth.suits).declare hs hmeets.1)
      hsites (point_enterBlock vars s ▸ hmeets.2) hf hset
      rfl ⟨hwf.enterBlock kept, hfault, htext'.2, hshown⟩
termination_by structural b => b
/-- What is left of a body is walked without any change. -/
theorem leans_visitBody (block : Nat) : ∀ (b : Body) (s t : State) (b' : Body),
    Leans ctx.settings hidden s t → InOrder V ctx is s ∧ s.facts.Apart →
    (∀ i ∈ bodySites ctx block b s, i.Settled ctx marks) →
    b.Meets (ordered V is) block s.nextBlock s.facts.point →
    (visitBody ctx block b s).fault = none → settlesBody ctx block b s = true →
    b' = dropInBody deleted ((visitBody ctx block b s).tree.filterMap g block s.nextBlock) →
    Again V' hidden t (visitBody ctx block b' t).fault b'.occurrences b'.readNames →
    Leans ctx.settings hidden (visitBody ctx block b s).state (visitBody ctx block b' t).state
      ∧ (visitBody ctx block b' t).state.stats.edits = t.stats.edits
  | .done, s, t, b', h, _, _, _, _, _, hb', _ => by
    subst hb'
    exact ⟨h, rfl⟩
  | .instr i rest, s, t, b', h, hs, hsites, hm, hf, hset, hb', ha => by
    have hshort := short_of_settlesBody hset
    rw [settlesBody, Bool.and_eq_true, Bool.and_eq_true] at hset
    rw [bodySites, List.forall_mem_cons] at hsites
    rw [visitBody] at hf hb' ⊢
    obtain ⟨hf₁, heq⟩ := andThen_fault hf
    rw [heq] at hf hb' ⊢
    have hi : i.All V.text := hm.1.1
    have hs₁ := (upheld_apart hth.suits).instruction hs hm.1 hf₁
    have hpool := hsites.1.pool_eq hf₁
    have hmeets := hm.2
    rw [← (assigns_visitInstruction hf₁).point, ← nextBlock_visitInstruction hf₁] at hmeets
    rw [Visit.map, Body.filterMap] at hb'
    rcases hth.drops block (visitInstruction ctx block i s).tree with hg | ⟨hg, hred, hhidden⟩
    · -- the instruction is kept, and both walks visit it
      simp only [hg, dropInBody] at hb'
      subst hb'
      obtain ⟨hwf, hfault, htext, hshown⟩ := ha
      rw [Body.occurrences, List.forall_mem_append] at htext
      rw [Body.readNames, List.forall_mem_append] at hshown
      rw [visitBody] at hfault ⊢
      obtain ⟨hf₁', heq'⟩ := andThen_fault hfault
      rw [heq'] at hfault ⊢
      obtain ⟨hleans, hedits⟩ := leans_visitInstruction hth.suits hs.1 h hi hf₁ hshort
        (short_of_settlesBody hset.2) hpool
        (fun v hv => hshown.1 _ (List.mem_map.2 ⟨v, hv, rfl⟩)) hf₁'
      have hwf' := (wellFormed_visitInstruction hth.serves
        hwf (Instruction.all_iff.2 htext.1) hf₁').1
      obtain ⟨hleans', hedits'⟩ :=
        leans_visitBody block rest _ _ _ hleans hs₁ hsites.2 hmeets hf hset.2
          (by rw [nextBlock_visitInstruction hf₁]) ⟨hwf', hfault, htext.2, hshown.2⟩
      exact ⟨hleans', hedits'.trans hedits⟩
    · -- the instruction is deleted, and the second walk stands still
      simp only [hg] at hb'
      obtain ⟨honly, houtputs, hout⟩ := hsites.1.of_redundant hth.suits hs.1 hth.stable hi hf₁ hred
      rw [houtputs] at hhidden
      have hrep : ∀ o ∈ i.outputs,
          ((visitInstruction ctx block i s).state.facts.representative? o).isSome = true :=
        fun o ho => (hout o ho).2
      have hleans := leans_visitDeleted hth.suits hs.1 h hi hf₁ honly hpool hrep hhidden
        (agrees_of_tellsRepresentatives hset.1.2 honly hrep) fun o ho => (hout o ho).1
      exact leans_visitBody block rest _ _ _ hleans hs₁ hsites.2 hmeets hf hset.2
        (by rw [hb', nextBlock_visitInstruction hf₁]) ha
  | .cont c rest, s, t, b', h, hs, hsites, hm, hf, hset, hb', ha => by
    have hshort := short_of_settlesBody hset
    rw [settlesBody, Bool.and_eq_true, Bool.and_eq_true] at hset
    rw [bodySites, List.forall_mem_append] at hsites
    rw [visitBody] at hf hb' ⊢
    obtain ⟨hf₁, heq⟩ := andThen_fault hf
    rw [heq] at hf hb' ⊢
    have hs₁ := ((upheld_apart hth.suits).visitContinuation c s hs hm.1 hf₁).1.after
    obtain ⟨hnext, hcount⟩ := numbers_visitContinuation c s hf₁
    have hmeets := hm.2
    rw [← (assigns_visitContinuation c s hf₁).point, ← hnext] at hmeets
    rw [Visit.map, Body.filterMap, dropInBody, hcount, ← hnext] at hb'
    subst hb'
    obtain ⟨hwf, hfault, htext, hshown⟩ := ha
    rw [Body.occurrences, List.forall_mem_append] at htext
    rw [Body.readNames, List.forall_mem_append] at hshown
    rw [visitBody] at hfault ⊢
    obtain ⟨hf₁', heq'⟩ := andThen_fault hfault
    rw [heq'] at hfault ⊢
    obtain ⟨hleans, hedits⟩ :=
      leans_visitContinuation c s t _ h hs hsites.1 hm.1 hf₁ hset.1.2 hshort rfl
        ⟨hwf, hf₁', htext.1, hshown.1⟩
    have hwf' := ((upheld_wellFormed hth.serves).visitContinuation
      _ t hwf (Continuation.meets_ofVars _ htext.1 _ _) hf₁').1.after
    obtain ⟨hleans', hedits'⟩ :=
      leans_visitBody block rest _ _ _ hleans hs₁ hsites.2 hmeets hf hset.2 rfl
        ⟨hwf', hfault, htext.2, hshown.2⟩
    exact ⟨hleans', hedits'.trans hedits⟩
termination_by structural b => b
/-- What is left of a continuation is walked without any change. -/
theorem leans_visitContinuation : ∀ (c : Continuation) (s t : State) (c' : Continuation),
    Leans ctx.settings hidden s t → InOrder V ctx is s ∧ s.facts.Apart →
    (∀ i ∈ continuationSites ctx c (governed c s), i.Settled ctx marks) →
    c.Meets (ordered V is) s.nextBlock s.facts.point →
    (visitContinuation ctx c s).fault = none → settlesContinuation ctx c (governed c s) = true →
    s.facts.Short →
    c' = dropInContinuation deleted ((visitContinuation ctx c s).tree.filterMap g s.nextBlock) →
    Again V' hidden t (visitContinuation ctx c' t).fault
      c'.occurrences (c'.readVars.map (·.name) ++ c'.readNames) →
    Leans ctx.settings hidden (visitContinuation ctx c s).state (visitContinuation ctx c' t).state
      ∧ (visitContinuation ctx c' t).state.stats.edits = t.stats.edits
  | .ifElse condition b e, s, t, c', h, hs, hsites, hm, hf, hset, hshort, hc', ha => by
    obtain ⟨hf₁, hf₂, heq⟩ := visitIfElse_eq hf
    rw [heq] at hc' ⊢
    rw [Continuation.filterMap, dropInContinuation, (leaveArm_frame _).1,
      (numbers_visitBlock b _ (leaveArm_fault hf₁)).2, ← (leaveArm_frame _).1] at hc'
    obtain ⟨b', e', hb', he', rfl⟩ : ∃ b' e', b' = _ ∧ e' = _
        ∧ c' = .ifElse (replace s.facts .value condition) b' e' :=
      ⟨_, _, rfl, rfl, hc'⟩
    obtain ⟨hwf, hfault, htext, hshown⟩ := ha
    obtain ⟨hf₁', hf₂', heq'⟩ := visitIfElse_eq hfault
    rw [heq']
    rw [Continuation.occurrences, List.forall_mem_append, List.forall_mem_append] at htext
    rw [Continuation.readNames, List.forall_mem_append, List.forall_mem_append] at hshown
    rw [settlesContinuation, Bool.and_eq_true] at hset
    have hq := quiet_governed (.ifElse condition b e) s
    have hq' := quiet_governed (.ifElse (replace s.facts .value condition) b' e') t
    rw [continuationSites, List.forall_mem_append] at hsites
    have hs₁ := (upheld_apart hth.suits).quiet hs hq
    have hs₂ := inOrder_leaveArm hth.suits hs₁ hm.2.1 hf₁
    have harm₁ := (leans_visitBlock b).leaveArm hth (h.of_quiet hq hq')
      ⟨(upheld_apart hth.suits).push .branch hs₁, hsites.1, hm.2.1, leaveArm_fault hf₁, hset.1⟩ hb'
      ⟨hwf.of_quiet hq', hf₁', htext.1.2, hshown.2.1⟩
    -- Blocks are numbered through, so what is asked of the second arm is asked from
    -- where the first one ended.
    have hnext := (leaveArm_frame
      (visitBlock ctx b ((governed (.ifElse condition b e) s).push .branch))).2.1.trans
      (numbers_visitBlock b _ (leaveArm_fault hf₁)).1
    have hm₂ : e.Meets (ordered V is) (leaveArm (visitBlock ctx b
        ((governed (.ifElse condition b e) s).push .branch))).state.nextBlock _ := hnext
          ▸ harm₁.facts ▸ hm.2.2
    have harm₂ := (leans_visitBlock e).leaveArm hth harm₁.leans
      ⟨(upheld_apart hth.suits).push .branch hs₂, hsites.2,
        hm₂, leaveArm_fault hf₂, hset.2⟩ (hnext ▸ he')
      ⟨harm₁.wellFormed, hf₂', htext.2, hshown.2.2⟩
    refine ⟨harm₂.leans.mergeArms (harm₂.facts.trans harm₁.facts) (harm₂.facts'.trans harm₁.facts')
      (.cons harm₁.leaving (.cons ?_ .nil)), ?_⟩
    · rw [← harm₁.facts, ← harm₁.facts']
      exact harm₂.leaving
    · calc _ = _ := harm₂.edits
        _ = _ := harm₁.edits
        _ = t.stats.edits + countReplaced t.facts [(.value, replace s.facts .value condition)] :=
          edits_replaced _ _
        _ = t.stats.edits := edits_of_shown h hshort hshown.1
  | .switch value arms, s, t, c', h, hs, hsites, hm, hf, hset, hshort, hc', ha => by
    obtain ⟨hf₁, heq⟩ := visitSwitch_eq hf
    rw [heq] at hc' ⊢
    obtain ⟨arms', harms', rfl⟩ : ∃ arms', arms' = _
      ∧ c' = .switch (replace s.facts .value value) arms' := ⟨_, rfl, hc'⟩
    obtain ⟨hwf, hfault, htext, hshown⟩ := ha
    obtain ⟨hf₁', heq'⟩ := visitSwitch_eq hfault
    rw [heq']
    rw [Continuation.occurrences, List.forall_mem_append] at htext
    rw [Continuation.readNames, List.forall_mem_append] at hshown
    have hq := quiet_governed (.switch value arms) s
    have hq' := quiet_governed (.switch (replace s.facts .value value) arms') t
    have hs₁ := (upheld_apart hth.suits).quiet hs hq
    have hwf₁ := hwf.of_quiet hq'
    obtain ⟨hleans, hedits, hleaving⟩ :=
      leans_visitArms arms _ _ arms' (h.of_quiet hq hq') hs₁ hsites hm.2 hf₁ hset
        harms' ⟨hwf₁, hf₁', htext.2, hshown.2⟩
    have hfacts := (assigns_visitArms arms _ hf₁).2
    have hfacts' := (assigns_visitArms arms' _ hf₁').2
    refine ⟨hleans.mergeArms hfacts hfacts' hleaving, ?_⟩
    calc _ = _ := hedits
      _ = t.stats.edits + countReplaced t.facts [(.value, replace s.facts .value value)] :=
        edits_replaced _ _
      _ = t.stats.edits := edits_of_shown h hshort hshown.1
  | .deferred trigger b, s, t, c', h, hs, hsites, hm, hf, hset, hshort, hc', ha => by
    obtain ⟨hf₁, hf₂, heq⟩ := visitDeferred_eq hf
    have hknown := knows_of_visitContinuation hf
    rw [heq] at hc' ⊢
    rw [Visit.map, Continuation.filterMap, dropInContinuation, (leave_frame _ _).1] at hc'
    obtain ⟨b', hb', rfl⟩ : ∃ b', b' = _
        ∧ c' = .deferred (enterDeferred ctx trigger (governed (.deferred trigger b) s)).tree b' :=
        ⟨_, rfl, hc'⟩
    obtain ⟨hwf, hfault, htext, hshown⟩ := ha
    have hknown' := knows_of_visitContinuation hfault
    obtain ⟨hf₁', hf₂', heq'⟩ := visitDeferred_eq hfault
    rw [heq']
    rw [Continuation.occurrences, List.forall_mem_append] at htext
    rw [Continuation.readNames, List.forall_mem_append] at hshown
    have hq := quiet_governed (.deferred trigger b) s
    have hq' := quiet_governed
      (.deferred (enterDeferred ctx trigger (governed (.deferred trigger b) s)).tree b') t
    have hs₁ := (upheld_apart hth.suits).quiet hs hq
    have hwf₁ := hwf.of_quiet hq'
    have hnext : (enterDeferred ctx trigger (governed (.deferred trigger b) s)).state.nextBlock
        = _ :=
      nextBlock_enterDeferred trigger _
    obtain ⟨hleans₁, hedits₁⟩ := leans_enterDeferred (h.of_quiet hq hq') hshort hf₁
      (fun v hv => hshown.1 _ (List.mem_map.2 ⟨v, hv, rfl⟩)) hf₁'
    have hs₂ := (upheld_apart hth.suits).defer hs₁ hm.1 hknown hf₁
    have hmeets : b.Meets (ordered V is)
        (enterDeferred ctx trigger (governed (.deferred trigger b) s)).state.nextBlock _ :=
      hnext ▸ point_enterDeferred hf₁ ▸ hm.2
    have honce : Once V ctx is marks b _ := ⟨hs₂, hsites, hmeets, leave_fault hf₂, hset⟩
    obtain ⟨hleans, hedits⟩ := leans_visitBlock b _ _ b' hleans₁ honce (hnext ▸ hb')
      ⟨wellFormed_enterDeferred hwf₁ htext.1 hknown' hf₁', leave_fault hf₂', htext.2, hshown.2⟩
    rw [leave_eq honce.fault
      (outer_of_assigns (enterDeferred_assigned hf₁).1 (assigns_visitBlock b _ honce.fault)),
      leave_eq (leave_fault hf₂') (outer_of_assigns (enterDeferred_assigned hf₁').1
        (assigns_visitBlock b' _ (leave_fault hf₂')))]
    exact ⟨hleans.of_facts (h.facts.mergeDeferred hleans.facts.top), hedits.trans hedits₁⟩
  | .nested b, s, t, c', h, hs, hsites, hm, hf, hset, hshort, hc', ha => by
    obtain ⟨hf₁, heq⟩ := visitNested_eq hf
    rw [heq] at hc' ⊢
    rw [Visit.map, Continuation.filterMap, dropInContinuation, (leave_frame _ _).1] at hc'
    obtain ⟨b', hb', rfl⟩ : ∃ b', b' = _ ∧ c' = .nested b' := ⟨_, rfl, hc'⟩
    obtain ⟨hwf, hfault, htext, hshown⟩ := ha
    obtain ⟨hf₁', heq'⟩ := visitNested_eq hfault
    rw [heq']
    rw [Continuation.readNames, List.forall_mem_append] at hshown
    have hq := quiet_governed (.nested b) s
    have hq' := quiet_governed (.nested b') t
    have hs₁ := (upheld_apart hth.suits).quiet hs hq
    have hwf₁ := (hwf.of_quiet hq').push .nested
    have hstart := h.of_quiet hq hq'
    have honce : Once V ctx is marks b _ :=
      ⟨(upheld_apart hth.suits).push .nested hs₁, hsites, hm, leave_fault hf₁, hset⟩
    have hagain : Again V' hidden ((governed (.nested b') t).push .nested)
        _ b'.occurrences b'.readNames :=
      ⟨hwf₁, leave_fault hf₁', htext, hshown.2⟩
    obtain ⟨hleans, hedits⟩ :=
      leans_visitBlock b _ _ b' (hstart.of_facts (hstart.facts.push .nested)) honce hb' hagain
    have ho := outer_visitBlock honce.fault
    have ho' := outer_visitBlock hagain.fault
    have hleaving := hth.leaving ho ho' (honce.inOrder_visitBlock hth)
      (hagain.wellFormed_visitBlock hth) hleans
    rw [leave_eq honce.fault ho, leave_eq hagain.fault ho']
    exact ⟨hleans.of_facts (hstart.facts.mergeNested hleaving), hedits⟩
termination_by structural c => c
/-- What is left of the arms of a switch is walked without any change. -/
theorem leans_visitArms : ∀ (arms : Arms) (s t : State) (arms' : Arms),
    Leans ctx.settings hidden s t → InOrder V ctx is s ∧ s.facts.Apart →
    (∀ i ∈ armsSites ctx arms s, i.Settled ctx marks) →
    arms.Meets (ordered V is) s.nextBlock s.facts.point →
    (visitArms ctx arms s).fault = none → settlesArms ctx arms s = true →
    arms' = dropInArms deleted ((visitArms ctx arms s).tree.1.filterMap g s.nextBlock) →
    Again V' hidden t (visitArms ctx arms' t).fault arms'.occurrences arms'.readNames →
    Leans ctx.settings hidden (visitArms ctx arms s).state (visitArms ctx arms' t).state
      ∧ (visitArms ctx arms' t).state.stats.edits = t.stats.edits
      ∧ List.Forall₂ (Congruence.Leaving V' (isLive ctx.settings) hidden s.facts t.facts)
        (visitArms ctx arms s).tree.2
        (visitArms ctx arms' t).tree.2
  | .none, s, t, arms', h, _, _, _, _, _, harms', _ => by
    subst harms'
    refine ⟨h, rfl, .cons ⟨.new _ _ _, .new _, hth.shared, ?_, ?_, ?_⟩ .nil⟩
    · exact List.forall_mem_nil _
    · exact List.forall_mem_nil _
    · exact List.forall_mem_nil _
  | .default b, s, t, arms', h, hs, hsites, hm, hf, hset, harms', ha => by
    obtain ⟨hf₁, heq⟩ := visitDefault_cases hf
    rw [heq] at harms' ⊢
    obtain ⟨b', hb', rfl⟩ : ∃ b', b' = _ ∧ arms' = .default b' := ⟨_, rfl, harms'⟩
    obtain ⟨hwf, hfault, htext, hshown⟩ := ha
    obtain ⟨hf₁', heq'⟩ := visitDefault_cases hfault
    rw [heq']
    have harm := (leans_visitBlock b).leaveArm hth h
      ⟨(upheld_apart hth.suits).push .branch hs, hsites, hm, leaveArm_fault hf₁, hset⟩
      hb' ⟨hwf, hf₁', htext, hshown⟩
    exact ⟨harm.leans, harm.edits, .cons harm.leaving .nil⟩
  | .case label b rest, s, t, arms', h, hs, hsites, hm, hf, hset, harms', ha => by
    obtain ⟨hf₁, hf₂, heq⟩ := visitCase_cases hf
    have hnext := (leaveArm_frame (visitBlock ctx b (s.push .branch))).2.1.trans
      (numbers_visitBlock b _ (leaveArm_fault hf₁)).1
    rw [heq] at harms' ⊢
    rw [Arms.filterMap, dropInArms, (leaveArm_frame _).1,
      (numbers_visitBlock b _ (leaveArm_fault hf₁)).2,
      ← (leaveArm_frame _).1] at harms'
    obtain ⟨b', rest', hb', hrest', rfl⟩ : ∃ b' rest', b' = _
        ∧ rest' = _ ∧ arms' = .case label b' rest' :=
      ⟨_, _, rfl, rfl, harms'⟩
    obtain ⟨hwf, hfault, htext, hshown⟩ := ha
    obtain ⟨hf₁', hf₂', heq'⟩ := visitCase_cases hfault
    rw [heq']
    rw [Arms.occurrences, List.forall_mem_append] at htext
    rw [Arms.readNames, List.forall_mem_append] at hshown
    rw [settlesArms, Bool.and_eq_true] at hset
    rw [armsSites, List.forall_mem_append] at hsites
    have harm := (leans_visitBlock b).leaveArm hth h
      ⟨(upheld_apart hth.suits).push .branch hs, hsites.1, hm.1, leaveArm_fault hf₁, hset.1⟩
      hb' ⟨hwf, hf₁', htext.1, hshown.1⟩
    have hm₂ : rest.Meets (ordered V is)
        (leaveArm (visitBlock ctx b (s.push .branch))).state.nextBlock _ :=
      hnext ▸ harm.facts ▸ hm.2
    obtain ⟨hleans, hedits, hleaving⟩ := leans_visitArms rest _ _ rest' harm.leans
      (inOrder_leaveArm hth.suits hs hm.1 hf₁) hsites.2 hm₂ hf₂ hset.2 (hnext ▸ hrest')
      ⟨harm.wellFormed, hf₂', htext.2, hshown.2⟩
    refine ⟨hleans, hedits.trans harm.edits, .cons harm.leaving ?_⟩
    rw [← harm.facts, ← harm.facts']
    exact hleaving
termination_by structural arms => arms
end

end Walks

end Numbering

end ValueFlow
