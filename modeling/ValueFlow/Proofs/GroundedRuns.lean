import ValueFlow.Proofs.EnteredConstants

/-!
# Runs over functions whose constants are entered

What a walk does with constants, a run does: the function that it leaves
mentions only constants that are in the table of the program or among those that
it adds (`mentions_run`), and with a table that has all of them the run is the
same and adds nothing (`run_of_within`). Between the walk and the end of a run
stands the cleanup. It deletes instructions, drops declarations and stores
values that were noted with the marks, and these values are values of constants.
-/

namespace ValueFlow

/-! ## What rewritten trees mention -/

/-- **An edit puts in only variables with a property.** -/
structure Edit.Mentions (E : Edit) (P : Var → Prop) : Prop where
  declares : ∀ {p vars vars'}, E.declares p vars vars' → ∀ v ∈ vars', P v
  instruction : ∀ {n p i j}, E.instruction n p i (some j) → j.All P
  operand : ∀ {p a a'}, E.operand p a a' → a'.All P
  trigger : ∀ {p t t'}, E.trigger p t t' → ∀ v ∈ t'.occurrences, P v

section Mentions

variable {E : Edit} {P : Var → Prop} {g : Rewrite}

section

mutual
/-- **The variables of an edited block have the property.** -/
theorem Block.Edited.forall_occurrences (hE : E.Mentions P) :
    ∀ {b b' : Block} {n : Nat} {p : Point},
    b.Edited E n p b' → ∀ v ∈ b'.occurrences, P v
  | .mk vars body, .mk vars' body', n, p, h => by
    rw [Block.occurrences, List.forall_mem_append]
    exact ⟨hE.declares h.1, Body.Edited.forall_occurrences hE h.2⟩
theorem Body.Edited.forall_occurrences (hE : E.Mentions P) :
    ∀ {b b' : Body} {block n : Nat} {p : Point},
    b.Edited E block n p b' → ∀ v ∈ b'.occurrences, P v
  | .done, b', block, n, p, h => by
    rw [h]
    exact List.forall_mem_nil _
  | .instr i rest, b', block, n, p, h => by
    rcases h with ⟨j, rest', rfl, hj, h⟩ | ⟨-, h⟩
    · rw [Body.occurrences, List.forall_mem_append]
      exact ⟨Instruction.all_iff.1 (hE.instruction hj), Body.Edited.forall_occurrences hE h⟩
    · exact Body.Edited.forall_occurrences hE h
  | .cont c rest, b', block, n, p, h => by
    obtain ⟨c', rest', rfl, hc, h⟩ := h
    rw [Body.occurrences, List.forall_mem_append]
    exact ⟨Continuation.Edited.forall_occurrences hE hc, Body.Edited.forall_occurrences hE h⟩
theorem Continuation.Edited.forall_occurrences (hE : E.Mentions P) :
    ∀ {c c' : Continuation} {n : Nat} {p : Point},
    c.Edited E n p c' → ∀ v ∈ c'.occurrences, P v
  | .ifElse condition t e, c', n, p, h => by
    obtain ⟨condition', t', e', rfl, ha, ht, he⟩ := h
    rw [Continuation.occurrences, List.forall_mem_append, List.forall_mem_append]
    exact ⟨⟨Operand.all_iff.1 (hE.operand ha), Block.Edited.forall_occurrences hE ht⟩,
      Block.Edited.forall_occurrences hE he⟩
  | .switch value arms, c', n, p, h => by
    obtain ⟨value', arms', rfl, ha, h⟩ := h
    rw [Continuation.occurrences, List.forall_mem_append]
    exact ⟨Operand.all_iff.1 (hE.operand ha), Arms.Edited.forall_occurrences hE h⟩
  | .deferred trigger b, c', n, p, h => by
    obtain ⟨trigger', b', rfl, ht, h⟩ := h
    rw [Continuation.occurrences, List.forall_mem_append]
    exact ⟨hE.trigger ht, Block.Edited.forall_occurrences hE h⟩
  | .nested b, c', n, p, h => by
    obtain ⟨b', rfl, h⟩ := h
    exact Block.Edited.forall_occurrences hE h
theorem Arms.Edited.forall_occurrences (hE : E.Mentions P) :
    ∀ {arms arms' : Arms} {n : Nat} {p : Point},
    arms.Edited E n p arms' → ∀ v ∈ arms'.occurrences, P v
  | .none, arms', n, p, h => by
    rw [h]
    exact List.forall_mem_nil _
  | .default b, arms', n, p, h => by
    obtain ⟨b', rfl, h⟩ := h
    exact Block.Edited.forall_occurrences hE h
  | .case label b rest, arms', n, p, h => by
    obtain ⟨b', rest', rfl, hb, h⟩ := h
    rw [Arms.occurrences, List.forall_mem_append]
    exact ⟨Block.Edited.forall_occurrences hE hb, Arms.Edited.forall_occurrences hE h⟩
end

end

/-- The parts that stay have a property. -/
def Edit.keeping (P : Var → Prop) : Edit where
  declares _ _ vars := ∀ v ∈ vars, P v
  instruction _ _ _ r := ∀ j ∈ r, j.All P
  operand _ _ a := a.All P
  trigger _ _ t := ∀ v ∈ t.occurrences, P v

theorem Block.Meets.keeping {b : Block} {n : Nat} {p : Point} (h : b.Meets (.ofVars P) n p) :
    b.Edited (.keeping P) n p b :=
  h.edited ⟨id, fun hi _ hj => Option.some.inj hj ▸ hi, id, id⟩

theorem Block.Meets.forall_occurrences {b : Block} {n : Nat} {p : Point}
    (h : b.Meets (.ofVars P) n p) : ∀ v ∈ b.occurrences, P v :=
  Block.Edited.forall_occurrences (E := .keeping P) ⟨id, fun h => h _ rfl, id, id⟩ h.keeping

/-- A block keeps a property of its variables if its instructions do when they
are rewritten. -/
theorem Block.occurrences_filterMap (hg : ∀ k i j, g k i = some j → i.All P → j.All P) {b : Block}
    (h : ∀ v ∈ b.occurrences, P v) (n : Nat) (deleted : List String) :
    ∀ v ∈ (Numbering.dropDeclarations deleted (b.filterMap g n)).occurrences, P v := by
  refine (((b.meets_ofVars h n ⟨[], []⟩).keeping.filterMap g).dropDeclarations
    deleted).forall_occurrences
    ⟨?_, ?_, id, id⟩
  · rintro p vars vars' ⟨vars₀, hvars, hsub⟩ v hv
    exact hvars v (hsub.subset hv)
  · rintro n p i j ⟨r, hr, heq⟩
    obtain ⟨i', hi', hj⟩ := Option.bind_eq_some_iff.1 heq.symm
    exact hg n i' j hj (hr i' hi')

/-- Replacing conditionals on literals adds no variable. -/
theorem Block.occurrences_foldBranches (b : Block) (h : ∀ v ∈ b.occurrences, P v) :
    ∀ v ∈ b.foldBranches.occurrences, P v :=
  (Block.meets_foldBranches (m := 0) (eased_ofVars P) (b.meets_ofVars h 0 ⟨[], []⟩)
    (.refl _)).1.forall_occurrences

theorem Function.occurrences_foldBranches {f : Function} (h : ∀ v ∈ f.occurrences, P v) :
    ∀ v ∈ f.foldBranches.occurrences, P v := by
  rw [Function.occurrences, List.forall_mem_append] at h ⊢
  exact ⟨h.1, Block.occurrences_foldBranches f.block h.2⟩

end Mentions

/-! ## What the cleanup mentions -/

namespace Numbering

/-- **The cleanup mentions no variables beside those of the function** and of
the values that are noted with marks. -/
theorem mentions_removeRedundant {P : Var → Prop} {ctx : Context} {f : Function} {s : State}
    (hf : ∀ v ∈ f.occurrences, P v) (hmarks : ∀ e ∈ s.marks.entries, OperandAll P e.2) :
    ∀ v ∈ (removeRedundant ctx f s).1.occurrences, P v := by
  obtain ⟨g, reads, deleted, -, hg, heq⟩ := removeRedundant_fst ctx f s
  rw [Function.occurrences, List.forall_mem_append] at hf
  rw [heq, Function.occurrences, List.forall_mem_append]
  refine ⟨hf.1, Block.occurrences_filterMap (fun k i j hj hi => ?_) hf.2 0 deleted⟩
  rcases hg k i with hsome | ⟨hnone, -⟩
  · obtain rfl := Option.some.inj (hj.symm.trans hsome)
    rcases Cleanup.stored_cases ⟨ctx.foreign, s.marks⟩ k i with hsame | ⟨dst, a, hout, hlit, hstore⟩
    · rw [hsame]
      exact hi
    · have ha : a.All P := hmarks _ (mem_of_get? (Option.join_eq_some_iff.1 hlit)) a rfl
      rw [hstore]
      exact ⟨List.forall_mem_singleton.2 ha, fun v hv => hi.2 v (hout ▸ hv)⟩
  · cases hj.symm.trans hnone

theorem removeRedundant_withPool (ctx : Context) (f : Function) (s : State) (q : Pool) :
    removeRedundant ctx f (s.withPool q)
      = ((removeRedundant ctx f s).1, (removeRedundant ctx f s).2.withPool q) := by
  unfold removeRedundant
  by_cases hmarks : s.marks.entries.isEmpty = true
  · simp only [if_pos hmarks]
  · simp only [if_neg hmarks]

end Numbering

/-! ## Runs -/

namespace Constants

/-- The table as a function sees it that has added nothing. -/
abbrev pool (t : Constants) : Pool := ⟨t, .empty⟩

theorem get?_pool (t : Constants) (name : String) : t.pool.get? name = t.get? name := Option.or_none

/-- **All constants of a table are in another one**, under the same names. -/
def Within (t t' : Constants) : Prop := ∀ name c, t.get? name = some c → t'.get? name = some c

variable {t t' t'' : Constants}

theorem Within.refl (t : Constants) : t.Within t := fun _ _ => id

theorem Within.trans (h : t.Within t') (h' : t'.Within t'') : t.Within t'' :=
  fun name c hc => h' name c (h name c hc)

theorem Within.pool (h : t.Within t') : t.pool.Within t'.pool := by
  intro name c hc
  rw [get?_pool] at hc ⊢
  exact h name c hc

/-- Merging keeps what is there. -/
theorem within_merge (t : Constants) (h : t'.Made) : t.Within (t.merge t') := by
  intro name c hc
  rw [get?_merge t h.keyed, hc]
  rfl

/-- Merging enters all made constants, if those that are there already were
made as well. The constant under the name of a NaN may be that of another one. -/
theorem Made.get?_merge (h : t.Made) (h' : t'.Made) {name : String} {c : Constant}
    (hc : t'.get? name = some c) :
    ∃ d, (t.merge t').get? name = some d ∧ (c.value.isNaN = false → d = c) := by
  rw [Constants.get?_merge t h'.keyed, hc]
  cases ht : t.get? name with
  | none => exact ⟨c, rfl, fun _ => rfl⟩
  | some d => exact ⟨d, rfl, fun hnan => (h'.eq_of_get? h hnan hc ht).symm⟩

/-- Tables that are merged one after the other are all in the result. -/
theorem within_foldl_merge {ι : Type} {created : ι → Constants} (hmade : ∀ i, (created i).Made)
    (is : List ι) (ht : t.Made) :
    let merged := is.foldl (fun t i => t.merge (created i)) t
    merged.Made ∧ t.Within merged
      ∧ ∀ i ∈ is, ∀ name c, (created i).get? name = some c →
        ∃ d, merged.get? name = some d ∧ (c.value.isNaN = false → d = c) := by
  induction is generalizing t with
  | nil => exact ⟨ht, .refl t, List.forall_mem_nil _⟩
  | cons i is ih =>
    obtain ⟨hmerged, hfirst, hrest⟩ := ih (ht.merge (hmade i))
    refine ⟨hmerged, (within_merge t (hmade i)).trans hfirst,
      List.forall_mem_cons.2 ⟨fun name c hc => ?_, hrest⟩⟩
    obtain ⟨d, hd, hsame⟩ := ht.get?_merge (hmade i) hc
    exact ⟨d, hfirst name d hd, hsame⟩

/-- A table with some made constants is in the table with more of them. -/
theorem Within.merge (t : Constants) {a b : Constants} (h : a.Within b) (ha : a.Made)
    (hb : b.Made) : (t.merge a).Within (t.merge b) := by
  intro name c hc
  rw [get?_merge t ha.keyed] at hc
  rw [get?_merge t hb.keyed]
  rcases Option.or_eq_some_iff.1 hc with hc | ⟨hnone, hc⟩
  · rw [hc]
    rfl
  · rw [hnone]
    exact h name c hc

end Constants

namespace Numbering

section Runs

variable {settings : Settings} {foreign : Foreign} {globals created : Constants}
  {f : Function} {stats : Stats}
  {ctx : Context} {loose : String → Prop}

/-- What a run leaves behind a walk without fault. -/
def finish (ctx : Context) (f : Function) (v : Visit Block) : Outcome :=
  let (g, s) := removeRedundant ctx { f with block := v.tree } v.state
  ⟨g, s.events.toList ++ [.numbered g.name s.stats], .ok (s.stats, s.pool.created)⟩

theorem run_eq_finish {facts : Congruence} (hctx : contextOf settings foreign f = .ok ctx)
    (hin : f.inputs.foldlM enterInput .new = .ok facts)
    (hf : (visitBlock ctx f.block (opened globals f facts)).fault = none) :
    run settings foreign globals f
      = finish ctx f (visitBlock ctx f.block (opened globals f facts)) := by
  unfold run visitFunction
  simp only [hctx]
  rw [show f.inputs.foldlM enterInput (State.new globals).facts = .ok facts from hin]
  unfold opened at hf ⊢
  simp only [Visit.map, hf]
  rfl

/-- **The walk of a run** over a function whose constants are entered. At its
end the pool has the constants of the table with the added ones. -/
theorem inStep_run (htable : globals.pool.Grounded loose)
    (hf : ∀ v ∈ f.occurrences, globals.pool.Grounds loose v)
    (h : (run settings foreign globals f).result = .ok (stats, created)) :
    ∃ ctx facts, contextOf settings foreign f = .ok ctx
      ∧ f.inputs.foldlM enterInput .new = .ok facts
      ∧ let v := visitBlock ctx f.block (opened globals f facts)
        v.fault = none
          ∧ InStep ctx loose Block.occurrences (settlesBlock ctx f.block) (visitBlock ctx f.block)
            (opened globals f facts)
          ∧ ∀ name, v.state.pool.get? name = (globals.merge created).pool.get? name := by
  obtain ⟨ctx, facts, hctx, hin, hfault, rfl, -⟩ := run_eq_ok h
  rw [Function.occurrences, List.forall_mem_append, List.forall_mem_append] at hf
  have hopened : Backed ctx loose (opened globals f facts) := wellFormed_opened hf.1.1 htable hin
  have hstep := inStep_visitBlock f.block _ hopened hf.2 hfault
  refine ⟨ctx, facts, hctx, hin, hfault, hstep, fun name => ?_⟩
  rw [Constants.get?_pool, Pool.Grows.get?_merge hstep.grows]

/-- **A numbered function mentions only constants that are entered** in the
table with the added ones. -/
theorem mentions_run (htable : globals.pool.Grounded loose)
    (hf : ∀ v ∈ f.occurrences, globals.pool.Grounds loose v)
    (h : (run settings foreign globals f).result = .ok (stats, created)) :
    (globals.merge created).pool.Grounded loose
      ∧ ∀ v ∈ (run settings foreign globals f).function.occurrences,
        (globals.merge created).pool.Grounds loose v := by
  obtain ⟨ctx, facts, hctx, hin, hfault, hstep, hget⟩ := inStep_run htable hf h
  obtain ⟨-, hbacks⟩ := backs_visitBlock rfl hfault
  have hwithin : (visitBlock ctx f.block (opened globals f facts)).state.pool.Within
      (globals.merge created).pool :=
    fun name c hc => hget name ▸ hc
  have hgrounded := hstep.backed.grounded.congr hget
  refine ⟨hgrounded, ?_⟩
  rw [run_eq_finish hctx hin hfault]
  refine mentions_removeRedundant ?_ fun e he a ha => ?_
  · rw [Function.occurrences, List.forall_mem_append] at hf ⊢
    exact ⟨fun v hv => ((hf.1 v hv).mono hstep.grows.within).mono hwithin,
      fun v hv => (hstep.mentions v hv).mono hwithin⟩
  · obtain ⟨name, c, hc, rfl⟩ := hbacks e he a ha
    exact (hgrounded name c (hwithin name c hc)).2

/-- **With all constants in the table** that a run adds, the run is the same,
and it adds nothing. -/
theorem run_of_within (htable : globals.pool.Grounded loose)
    (hf : ∀ v ∈ f.occurrences, globals.pool.Grounds loose v)
    (h : (run settings foreign globals f).result = .ok (stats, created)) {t : Constants}
    (hloose : ∀ n, loose n → t.get? n = none) (hwithin : (globals.merge created).Within t) :
    run settings foreign t f
      = { run settings foreign globals f with result := .ok (stats, .empty) } := by
  obtain ⟨ctx, facts, hctx, hin, hfault, hstep, hget⟩ := inStep_run htable hf h
  have hsame : visitBlock ctx f.block (opened t f facts)
      = (visitBlock ctx f.block (opened globals f facts)).withPool t.pool :=
    (hstep.same t.pool (fun n hn => (t.get?_pool n).trans (hloose n hn))
      fun name c hc => hwithin.pool name c (hget name ▸ hc)).1
  rw [run_eq_finish hctx hin hfault] at h
  rw [run_eq_finish hctx hin hfault, run_eq_finish hctx hin (by rw [hsame]; exact hfault), hsame]
  unfold finish at h ⊢
  obtain ⟨rfl, -⟩ := Prod.mk.inj (Except.ok.inj h)
  simp only [Visit.withPool, removeRedundant_withPool]

end Runs

end Numbering

end ValueFlow
