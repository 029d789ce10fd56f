import ValueFlow.Proofs.BranchMerging
import ValueFlow.Proofs.FixedPoint
import ValueFlow.Proofs.KeptContexts
import ValueFlow.Proofs.LeanerWalks
import ValueFlow.Proofs.RetrieveSafety

/-!
# Numbering a numbered function

The second run over a function starts where the first one started: the context,
the inputs and, with the added constants in the table, the pool are the same.
Its walk leans on the first walk and counts no change, so it leaves the tree as
it is, and its marks are marks of the first walk, by which nothing is left to
clean up. **Numbering a numbered function changes nothing** (`run_again`),
provided that the first run settles everything.

Otherwise a second run finds more to do. A chain of representatives is followed
only as many steps as scopes are open, so each run shortens a long one further
(`copiesBackwards`). And a store that the cleanup puts in closes its variable,
which the instruction in its place did not, so the second run prunes a wait that
the first one kept (`computesInOneArm`).
-/

namespace ValueFlow

namespace Numbering

/-! ## Vocabularies of the two walks -/

/-- What the facts of a second walk may speak about: what a numbered function
may mention, of which the constants are shared. -/
def remaining (f : Function) (globals : Constants) (aliases : AliasMap) : Vocabulary :=
  .over aliases (Mentionable f globals) (fun v => Mentionable f globals v ∧ v.isGlobalConst = true)
    fun _ hv hconst => ⟨hv, hconst⟩

section Vocabularies

variable {f : Function} {globals : Constants}

theorem serves_mentionable (f : Function) (globals : Constants) (ctx : Context) :
    Serves (mentionable f globals ctx.aliases) ctx where
  made l c hc := .inr ⟨l, c, hc, rfl⟩
  stable _ := Iff.rfl
  fixed _ := Iff.rfl

theorem suits_mentionable (h : ∀ v ∈ f.occurrences, ∀ w ∈ f.occurrences, v.name = w.name → v = w)
    (ctx : Context) : Suits (mentionable f globals ctx.aliases) ctx :=
  ⟨serves_mentionable f globals ctx, fun v w hv hw => h v hv w hw⟩

theorem serves_remaining (f : Function) (globals : Constants) (ctx : Context) :
    Serves (remaining f globals ctx.aliases) ctx where
  made l c hc := ⟨.inr ⟨l, c, hc, rfl⟩, (Constant.make?_eq_some hc).2.2⟩
  stable _ := Iff.rfl
  fixed _ := Iff.rfl

/-- The constants of a table with added constants may be mentioned. -/
theorem mentionable_merge {created : Constants} (hmade : created.Made) {name : String}
    {c : Constant} (hc : (globals.merge created).get? name = some c) :
    Mentionable f globals c.var ∧ c.value.All (Mentionable f globals) := by
  rw [Constants.get?_merge globals hmade.keyed] at hc
  rcases Option.or_eq_some_iff.1 hc with hold | ⟨-, hnew⟩
  · refine ⟨.inl (.inr ⟨name, c, hold, .inl rfl⟩), ?_⟩
    cases hvalue : c.value with
    | lit l => trivial
    | var w => exact .inl (.inr ⟨name, c, hold, .inr hvalue⟩)
  · obtain ⟨l, hmake, -⟩ := hmade name c hnew
    rw [(Constant.make?_eq_some hmake).2.1]
    exact ⟨.inr ⟨l, c, hmake, rfl⟩, trivial⟩

end Vocabularies

theorem Leans.refl (settings : Settings) (hidden : String → Bool) (s : State) :
    Leans settings hidden s s := by
  have hscope : ∀ scope : Scope, scope.Leaner (isLive settings) hidden scope := fun scope =>
    ⟨rfl, List.Subset.refl _, rfl, List.Subset.refl _, rfl, fun _ => id, rfl, rfl⟩
  exact ⟨⟨hscope _, List.forall₂_same.2 fun scope _ => hscope scope⟩, rfl, rfl, fun _ _ => .inr rfl⟩

/-! ## Two walks over a function -/

section Walks

variable {V : Vocabulary} {f : Function} {globals t : Constants}
  {facts : Congruence} {ctx : Context}

/-- **The walk over a function**, seen as the first of two. -/
theorem once_opened (hV : Suits V ctx) (hfacts : f.inputs.foldlM enterInput .new = .ok facts)
    (hwell : WellFormed V (opened t f facts)) (htext : ∀ v ∈ f.block.occurrences, V.text v)
    (hanew : f.block.declaresAnew ((f.inputs ++ f.outputs).map (·.name)) = true)
    (hunmarked : ∀ v ∈ f.block.declarations, v.isGlobalConst = false) {foreign : Foreign}
    (hblock : f.block.Meets (accepted foreign) 0 f.point)
    (hf : (visitBlock ctx f.block (opened t f facts)).fault = none)
    (hpool : (visitBlock ctx f.block (opened t f facts)).state.pool = t.pool)
    (hset : settlesBlock ctx f.block (opened t f facts) = true) :
    Once V ctx (f.block.numbered 0) (visitBlock ctx f.block (opened t f facts)).state.marks f.block
      (opened t f facts) := by
  refine ⟨⟨inOrder_opened _ hwell hfacts, apart_opened hfacts⟩,
    fun i hi => ⟨t.pool, (opened t f facts).marks, ?_⟩,
    meets_ordered htext hanew hunmarked hfacts, hf, hset⟩
  have hexact := (exact_visitBlock hV hwell rfl htext hblock hf).2 i hi
  rw [State.notes, State.notes, hpool] at hexact
  exact hexact

variable (hknown : ∀ name c, t.get? name = some c → Mentionable f globals c.var
  ∧ c.value.All (Mentionable f globals))
  (hfacts : f.inputs.foldlM enterInput .new = .ok facts)

include hknown hfacts

/-- The walk over a function starts with facts about the function. -/
theorem wellFormed_mentionable :
    WellFormed (mentionable f globals ctx.aliases) (opened t f facts) := by
  refine wellFormed_opened (fun v hv => ?_)
    (fun name c hc => hknown name c ((t.get?_pool name).symm.trans hc)) hfacts
  exact List.mem_append_left _ (List.mem_append_left _ hv)

/-- The second walk starts with facts about what is left. -/
theorem wellFormed_remaining (hflagged : t.Flagged) :
    WellFormed (remaining f globals ctx.aliases) (opened t f facts) := by
  refine wellFormed_opened (fun v hv => ?_) (fun name c hc => ?_) hfacts
  · exact .inl (.inl (List.mem_append_left _ (List.mem_append_left _ hv)))
  · have hget : t.get? name = some c := (t.get?_pool name).symm.trans hc
    obtain ⟨hvar, hvalue⟩ := hknown name c hget
    obtain ⟨hconst, hconsts⟩ := hflagged name c hget
    refine ⟨⟨hvar, hconst⟩, ?_⟩
    cases hv : c.value with
    | lit l => trivial
    | var w =>
      rw [hv] at hvalue hconsts
      exact ⟨hvalue, hconsts⟩

/-- What is left of a function mentions only what may be mentioned. -/
theorem mentionable_of_left {g : Rewrite} {deleted : List String}
    (hg : ∀ k i, g k i = some i ∨ g k i = none)
    (hf : (visitBlock ctx f.block (opened t f facts)).fault = none) :
    ∀ v ∈ (dropDeclarations deleted
      ((visitBlock ctx f.block (opened t f facts)).tree.filterMap g 0)).occurrences,
        Mentionable f globals v := by
  have hwalked : ∀ v ∈ (visitBlock ctx f.block (opened t f facts)).tree.occurrences,
      Mentionable f globals v := by
    intro v hv
    rcases occurrences_visitBlock (serves_mentionable f globals ctx)
      (wellFormed_mentionable hknown hfacts)
      (fun v hv => List.mem_append_right _ hv) hf v hv with hshared | htext
    · exact hshared
    · exact .inl (.inl htext)
  refine Block.occurrences_filterMap (fun k i j hj hi => ?_) hwalked 0 deleted
  rcases hg k i with h | h
  · exact Option.some.inj (h.symm.trans hj) ▸ hi
  · exact nomatch h.symm.trans hj

/-- **The walk over what is left of a function** leans on the walk over the
function, and it counts no change. -/
theorem leans_of_left {g : Rewrite} {deleted : List String} {b' : Block}
    (hsuits : Suits (mentionable f globals ctx.aliases) ctx)
    (halike : MarkedAlike (Mentionable f globals))
    (hflagged : t.Flagged)
    (honce : Once (mentionable f globals ctx.aliases) ctx (f.block.numbered 0)
      (visitBlock ctx f.block (opened t f facts)).state.marks f.block (opened t f facts))
    (hdrops : Cleanup.DropsDead
      ⟨ctx.foreign, (visitBlock ctx f.block (opened t f facts)).state.marks⟩
      (f.outputs.map (·.name)
        ++ ((visitBlock ctx f.block (opened t f facts)).tree.filterMap g 0).readNames) g)
    (hb' : b' = dropDeclarations deleted
      ((visitBlock ctx f.block (opened t f facts)).tree.filterMap g 0))
    (hf' : (visitBlock ctx b' (opened t f facts)).fault = none) :
    ∃ hidden, Leans ctx.settings hidden (visitBlock ctx f.block (opened t f facts)).state
        (visitBlock ctx b' (opened t f facts)).state
      ∧ (visitBlock ctx b' (opened t f facts)).state.stats.edits = 0 := by
  -- The cleanup deletes what nobody reads, so nothing is hidden that the second
  -- walk asks for.
  let reads := f.outputs.map (·.name)
    ++ ((visitBlock ctx f.block (opened t f facts)).tree.filterMap g 0).readNames
  let hidden : String → Bool := fun n => decide (n ∉ reads)
  have hmentionable : ∀ v, (mentionable f globals ctx.aliases).shared v
      ∨ (mentionable f globals ctx.aliases).text v →
      Mentionable f globals v := fun v hv => hv.elim id fun ht => .inl (.inl ht)
  have hremaining : ∀ v, (remaining f globals ctx.aliases).shared v
      ∨ (remaining f globals ctx.aliases).text v →
      Mentionable f globals v := fun v hv => hv.elim And.left id
  have hth : Thinning (mentionable f globals ctx.aliases)
      (remaining f globals ctx.aliases) ctx hidden
      (visitBlock ctx f.block (opened t f facts)).state.marks g := by
    refine ⟨hsuits, serves_remaining f globals ctx, fun _ => And.right,
      fun v w hv hw => halike v w (hmentionable v hv) (hremaining w hw),
      stable_visitBlock hsuits honce.inOrder.1.wellFormed
      rfl (fun v hv => List.mem_append_right _ hv) honce.fault,
      fun k i => (hdrops k i).imp_right fun ⟨hnone, hdead⟩ => ?_⟩
    obtain ⟨hred, hunread⟩ := Cleanup.isDead_eq_true hdead
    exact ⟨hnone, hred, fun o ho => decide_eq_true (hunread o ho)⟩
  refine ⟨hidden, leans_visitBlock hth f.block _ _ b' (.refl _ _ _) honce hb'
    ⟨wellFormed_remaining hknown hfacts hflagged, hf', ?_, fun n hn => ?_⟩⟩
  · rw [hb']
    exact mentionable_of_left hknown hfacts (fun k i => (hdrops k i).imp_right And.left) honce.fault
  · rw [hb', (numbered_dropDeclarations deleted 0 _).2] at hn
    exact decide_eq_false (not_not_intro (List.mem_append_right _ hn))

end Walks

/-! ## Numbering again -/

section Runs

variable {settings : Settings} {foreign : Foreign} {f : Function}
  {globals t : Constants} {facts : Congruence}
  {ctx : Context}

/-- **What is left of a function is numbered in the context of the function.** -/
theorem contextOf_of_left {V : Vocabulary} {f' : Function}
    {g : Rewrite} {reads deleted : List String}
    (hV : Suits V ctx) (hctx : contextOf settings foreign f = .ok ctx)
    (htext : ∀ v ∈ f.block.occurrences, V.text v)
    (honce : Once V ctx (f.block.numbered 0)
      (visitBlock ctx f.block (opened t f facts)).state.marks f.block
      (opened t f facts))
    (hdrops : Cleanup.DropsDead
      ⟨ctx.foreign, (visitBlock ctx f.block (opened t f facts)).state.marks⟩ reads g)
    (hf' : f' = { f with
      block := dropDeclarations deleted
        ((visitBlock ctx f.block (opened t f facts)).tree.filterMap g 0) }) :
    contextOf settings foreign f' = .ok ctx := by
  obtain ⟨hs, -, hmeets, hfault, -⟩ := honce
  have hedited := ((upheld_apart hV).visitBlock f.block _ hs hmeets hfault).2
  have hkeeps := keepsEffects_walkEdit hV (contextOf_eq_ok hctx).1
    (stable_visitBlock hV hs.1.wellFormed rfl htext hfault)
    fun k i => (hdrops k i).imp_right fun ⟨hnone, hdead⟩ =>
      ⟨hnone, (Cleanup.isDead_eq_true hdead).1⟩
  subst hf'
  exact contextOf_numbered hctx rfl hkeeps ((hedited.filterMap g).dropDeclarations deleted)

/-- **A run over a function that is left unchanged by the walk, and with nothing
to clean up.** -/
theorem run_of_unchanged (hctx : contextOf settings foreign f = .ok ctx)
    (hfacts : f.inputs.foldlM enterInput .new = .ok facts)
    (hf : (visitBlock ctx f.block (opened t f facts)).fault = none)
    (hedits : (visitBlock ctx f.block (opened t f facts)).state.stats.edits = 0)
    (hpool : (visitBlock ctx f.block (opened t f facts)).state.pool = t.pool)
    (hdone : Cleanup.Done ⟨ctx.foreign, (visitBlock ctx f.block (opened t f facts)).state.marks⟩
      (f.outputs.map (·.name)) f.block) :
    ∃ stats, (run settings foreign t f).result = .ok (stats, .empty) ∧ stats.changed = false
      ∧ (run settings foreign t f).function = f := by
  have htree := (accounts_counted.visitBlock f.block _ hf).same hedits
  obtain ⟨hfunction, hstats, hkept⟩ := removeRedundant_of_done hdone
  refine ⟨(visitBlock ctx f.block (opened t f facts)).state.stats, ?_, ?_, ?_⟩
  · rw [run_eq_finish hctx hfacts hf]
    unfold finish
    rw [htree]
    show Except.ok (_, _) = Except.ok _
    rw [hstats, hkept, hpool]
  · exact Stats.changed_eq_false.2 ⟨hedits, accounts_branchesFolded.visitBlock f.block _ hf⟩
  · rw [run_eq_finish hctx hfacts hf]
    unfold finish
    rw [htree]
    exact hfunction

/-- **Numbering again with the same table**, if the first run adds no constants. -/
theorem run_of_settles
    (hconsistent : ∀ v ∈ f.occurrences, ∀ w ∈ f.occurrences, v.name = w.name → v = w)
    (hanew : f.block.declaresAnew ((f.inputs ++ f.outputs).map (·.name)) = true)
    (hunmarked : ∀ v ∈ f.block.declarations, v.isGlobalConst = false)
    (halike : MarkedAlike (Mentionable f globals)) (hflagged : t.Flagged)
    (hknown : ∀ name c, t.get? name = some c → Mentionable f globals c.var
      ∧ c.value.All (Mentionable f globals))
    (hctx : contextOf settings foreign f = .ok ctx)
    (hfacts : f.inputs.foldlM enterInput .new = .ok facts)
    (hf : (visitBlock ctx f.block (opened t f facts)).fault = none)
    (hpool : (visitBlock ctx f.block (opened t f facts)).state.pool = t.pool)
    (hsettles : settles settings foreign t f = true) :
    let g := (run settings foreign t f).function
    ∃ stats, (run settings foreign t g).result = .ok (stats, .empty) ∧ stats.changed = false
      ∧ (run settings foreign t g).function = g := by
  unfold settles at hsettles
  rw [hctx, hfacts] at hsettles
  obtain ⟨hset, hstored⟩ := Bool.and_eq_true_iff.1 hsettles
  obtain ⟨g, deleted, hdrops, heq, hdone⟩ := done_removeRedundant (of_decide_eq_true hstored)
  have hrun : (run settings foreign t f).function = _ :=
    (congrArg Outcome.function (run_eq_finish hctx hfacts hf)).trans heq
  have hsuits : Suits (mentionable f globals ctx.aliases) ctx := suits_mentionable hconsistent ctx
  have hok := congrArg Outcome.result (run_eq_finish hctx hfacts hf)
  obtain ⟨-, hblock⟩ := Function.fault?_eq_none.1 (run_ok_iff.1 ⟨_, hok⟩)
  have htext : ∀ v ∈ f.block.occurrences, (mentionable f globals ctx.aliases).text v :=
    fun v hv => List.mem_append_right _ hv
  have honce : Once (mentionable f globals ctx.aliases)
      ctx (f.block.numbered 0) _ f.block (opened t f facts) :=
    once_opened hsuits hfacts (wellFormed_mentionable hknown hfacts)
      htext hanew hunmarked hblock hf hpool hset
  -- The second walk starts in the same state: it has the same context, and the
  -- inputs and outputs are the same.
  obtain ⟨hfault', -⟩ := fault?_run hflagged hok
  obtain ⟨⟨stats, created⟩, hr⟩ : ∃ r,
      (run settings foreign t (run settings foreign t f).function).result = .ok r :=
    run_ok_iff.2 hfault'
  rw [hrun] at hr ⊢
  obtain ⟨ctx', facts', hctx', hfacts', hf', -⟩ := run_eq_ok hr
  obtain rfl : ctx' = ctx :=
    Except.ok.inj (hctx'.symm.trans (contextOf_of_left hsuits hctx htext honce hdrops rfl))
  obtain rfl : facts' = facts := Except.ok.inj (hfacts'.symm.trans hfacts)
  obtain ⟨hidden, hleans, hedits⟩ :=
    leans_of_left hknown hfacts hsuits halike hflagged honce hdrops rfl hf'
  refine run_of_unchanged hctx' hfacts' hf' hedits (hleans.pool.trans hpool) ?_
  rw [heq] at hdone
  exact hdone.of_marks rfl hleans.marks

/-- **Numbering a numbered function changes nothing**, if the first run settles
everything. With the added constants in the table the second run succeeds,
counts no change, adds no constants and leaves the function as it is. -/
theorem run_again {stats : Stats} {created : Constants}
    (hconsistent : ∀ v ∈ f.occurrences, ∀ w ∈ f.occurrences, v.name = w.name → v = w)
    (hanew : f.block.declaresAnew ((f.inputs ++ f.outputs).map (·.name)) = true)
    (hunmarked : ∀ v ∈ f.block.declarations, v.isGlobalConst = false)
    (hentered : ∀ v ∈ f.occurrences, globals.Enters v)
    (htable : ∀ c ∈ globals.table.values, ∀ v ∈ c.var :: c.value.var?.toList, globals.Enters v)
    (hflagged : globals.Flagged) (hconstants : TellsConstants f globals)
    (h : (run settings foreign globals f).result = .ok (stats, created))
    (hsettles : settles settings foreign globals f = true) :
    let g := (run settings foreign globals f).function
    let again := run settings foreign (globals.merge created) g
    ∃ stats', again.result = .ok (stats', .empty) ∧ stats'.changed = false
      ∧ again.function = g := by
  have hgrounded := Constants.grounded_iff.2 htable
  have hgrounds := fun v hv => Constants.grounds_iff_enters.2 (hentered v hv)
  obtain ⟨ctx, facts, hctx, hfacts, hfault, hstep, hget⟩ := inStep_run hgrounded hgrounds h
  -- With the added constants in the table, the first run is the same, and its walk
  -- ends with this table.
  have hsame : visitBlock ctx f.block (opened (globals.merge created) f facts)
      = (visitBlock ctx f.block (opened globals f facts)).withPool (globals.merge created).pool :=
    (hstep.same _ (fun _ hn => hn.elim) fun name c hc => (hget name).symm.trans hc).1
  have hrun : (run settings foreign (globals.merge created) f).function
      = (run settings foreign globals f).function := by
    rw [run_of_within hgrounded hgrounds h (fun _ hn => hn.elim) (.refl _)]
  rw [← settles_of_within hgrounded hgrounds h (fun _ hn => hn.elim) (.refl _)] at hsettles
  have hagain := run_of_settles hconsistent hanew hunmarked hconstants.markedAlike
    (hflagged.merge (fault?_run hflagged h).2)
    (fun _ _ => mentionable_merge (made_created h)) hctx hfacts
    (hsame ▸ hfault) (congrArg (·.state.pool) hsame) hsettles
  rw [hrun] at hagain
  exact hagain

end Runs

/-- A function that computes one value twice, and a constant, and waits for the
value twice. -/
def waitsTwice : Function where
  name := "f"
  inputs := [⟨"x", .future .int, .stack, .inArg, .user⟩]
  outputs := [⟨"o", .future .int, .stack, .outArg, .user⟩]
  target := .control
  block :=
    let x : Var := ⟨"x", .future .int, .stack, .inArg, .user⟩
    let o : Var := ⟨"o", .future .int, .stack, .outArg, .user⟩
    let a := Var.future "a" .int
    let b := Var.future "b" .int
    let p := Var.future "p" .int
    let v := Var.value "v" .int
    let w := Var.value "w" .int
    .mk [a, b, p]
      (.instr (.compute .later .neg a [.var x])
      (.instr (.compute .later .neg b [.var x])
      (.instr (.compute .later .neg p [.lit (.int 5)])
      (.cont (.deferred (.wait [a] .control .dispatch) (.mk [v]
        (.instr (.loadScalar v a)
        (.cont (.deferred (.wait [b] .control .dispatch) (.mk [w]
          (.instr (.loadScalar w b)
          (.instr (.compute .later .add o [.var w, .var p]) .done)))) .done)))) .done))))

/-- The table with the constant minus five. -/
def holdsMinusFive : Constants :=
  Constants.empty.insert
    ⟨⟨"__c:i:-5", .future .int, .globalConst, .globalConst, .optimizer⟩, .lit (.int (-5))⟩

/-- The first run deletes three instructions, replaces their outputs, prunes a
wait and adds a constant; the second run does nothing. -/
theorem run_again_waitsTwice :
    let first := run {} .empty .empty waitsTwice
    let again := run {} .empty (Constants.empty.merge holdsMinusFive) first.function
    first.result = .ok (⟨3, 3, 1, 0, 0, 0⟩, holdsMinusFive)
      ∧ settles {} .empty .empty waitsTwice = true
      ∧ ∃ stats, again.result = .ok (stats, .empty) ∧ stats.changed = false
        ∧ again.function = first.function := by
  have hrun : (run {} .empty .empty waitsTwice).result
    = .ok (⟨3, 3, 1, 0, 0, 0⟩, holdsMinusFive) := by decide +kernel
  have hsettles : settles {} .empty .empty waitsTwice = true := by decide +kernel
  refine ⟨hrun, hsettles, ?_⟩
  exact run_again (by decide +kernel) (by decide +kernel)
    (by decide +kernel) (by decide +kernel) (by decide +kernel)
    Constants.flagged_empty
    (tellsConstants_of_names (by decide +kernel) (by decide +kernel)) hrun hsettles

/-- A function that copies futures before they are assigned, and then uses the
first one. -/
def copiesBackwards : Function where
  name := "f"
  inputs := [⟨"x", .future .int, .stack, .inArg, .user⟩]
  outputs := [⟨"o", .future .int, .stack, .outArg, .user⟩]
  target := .control
  block :=
    let x : Var := ⟨"x", .future .int, .stack, .inArg, .user⟩
    let o : Var := ⟨"o", .future .int, .stack, .outArg, .user⟩
    let a₁ := Var.future "a1" .int
    let a₂ := Var.future "a2" .int
    let a₃ := Var.future "a3" .int
    .mk [a₁, a₂, a₃]
      (.instr (.compute .later .copy a₁ [.var a₂])
      (.instr (.compute .later .copy a₂ [.var a₃])
      (.instr (.compute .later .copy a₃ [.var x])
      (.instr (.compute .later .neg o [.var a₁]) .done))))

/-- **A second run shortens a long chain further.** The chain from `a1` leads to
`x`, but with one open scope the first run follows it to `a3` only, and the
second run, where `a3` is left, to `x`. -/
theorem changed_of_longChain :
    let first := run {} .empty .empty copiesBackwards
    let again := run {} .empty .empty first.function
    (∀ v ∈ copiesBackwards.occurrences, ∀ w ∈ copiesBackwards.occurrences, v.name = w.name → v = w)
      ∧ copiesBackwards.block.declaresAnew
        ((copiesBackwards.inputs ++ copiesBackwards.outputs).map (·.name)) = true
      ∧ (∀ v ∈ copiesBackwards.occurrences, v.isGlobalConst = false)
      ∧ first.result = .ok (⟨2, 1, 0, 0, 0, 0⟩, .empty)
        ∧ settles {} .empty .empty copiesBackwards = false
      ∧ again.result = .ok (⟨1, 1, 0, 0, 0, 0⟩, .empty) ∧ again.function ≠ first.function := by
  decide +kernel

/-- A function that stores a value in one arm of a conditional, computes a
constant in the other one, and waits for the result. -/
def computesInOneArm : Function where
  name := "f"
  inputs := [.value "c" .bool, .value "a" .int]
  outputs := [⟨"o", .future .int, .stack, .outArg, .user⟩]
  target := .control
  block :=
    let o : Var := ⟨"o", .future .int, .stack, .outArg, .user⟩
    let y := Var.future "y" .int
    let v := Var.value "v" .int
    .mk [y]
      (.cont (.ifElse (.var (.value "c" .bool))
        (.mk [] (.instr (.storeScalar y (.var (.value "a" .int))) .done))
        (.mk [] (.instr (.compute .later .neg y [.lit (.int 5)]) .done)))
      (.cont (.deferred (.wait [y] .control .dispatch) (.mk [v]
        (.instr (.loadScalar v y) (.instr (.storeScalar o (.var v)) .done)))) .done))

-- With the store in the second arm, `y` is closed behind the conditional.
example :
    let first := run {} .empty .empty computesInOneArm
    let minusFive : Var := ⟨"__c:i:-5", .future .int, .globalConst, .globalConst, .optimizer⟩
    let created := Constants.empty.insert ⟨minusFive, .lit (.int (-5))⟩
    first.result = .ok (⟨0, 0, 0, 1, 0, 0⟩, created)
      ∧ (run {} .empty (Constants.empty.merge created) first.function).result
        = .ok (⟨0, 0, 1, 0, 0, 1⟩, .empty) := by
  decide +kernel

end Numbering

end ValueFlow
