import ValueFlow.Proofs.NumberedVisits
import ValueFlow.Proofs.Simulation

/-!
# The walk over a tree preserves meaning

The walk leaves a tree that does the same as the tree it was given, also once
marked instructions are replaced by stores of the literals noted with their
marks (`simulates_visitBlock`). The marks are those at the end of the whole
walk. Each of them was made when the instruction was visited (`Site.Exact`), so
it speaks of the storage right behind the instruction.
-/

namespace ValueFlow

variable {W : Type}

/-! ## Declarations -/

section Declarations

variable {m : AliasMap} {own : String → Prop} {st : Store W} {vars : List Var}

theorem Placed.declareAll (h : Placed m own st) (hv : ∀ v ∈ vars, own v.name ↔ v.alloc ≠ .part)
    (hchild : ∀ a ∈ m.facts, ¬ own a.child.name) : Placed m own (vars.foldl Store.declare st) := by
  induction vars generalizing st with
  | nil => exact h
  | cons v vars ih =>
    obtain ⟨hfirst, hv⟩ := List.forall_mem_cons.1 hv
    refine ih (h.declare hfirst fun hown a ha heq => hchild a ha (heq ▸ hown)) hv

theorem Store.contents_declareAll (c : Cell) :
    (vars.foldl Store.declare st).contents c
      = if c.root ∈ vars.map (·.name) then none else st.contents c := by
  induction vars generalizing st with
  | nil => simp
  | cons v vars ih =>
    rw [List.foldl_cons, ih, List.map_cons]
    by_cases hroot : c.root = v.name
    · simp [Store.declare, hroot]
    · simp [Store.declare, hroot]

end Declarations

theorem Stocked.frame {V : Vocabulary} {p : Pool} {m : AliasMap} {own : String → Prop}
    {names : List String} {written : List Location} {st st' : Store W} (h : Stocked p st)
    (hp : p.WellFormed) (hc : Numbering.KnownPool V p) (hV : V.Owned own)
    (hplaced : Placed m own st) (hf : Frame m (V.Known names) written st st') : Stocked p st' := by
  intro name c hget
  obtain ⟨l, hl, hvalue⟩ := h name c hget
  have hconst : V.constant name := (hp name c hget).1 ▸ V.constant_of_shared _ (hc name c hget).1
  refine ⟨l, hl, hf.get hplaced (k := Sum.inl name) (fun n hn => ?_) hvalue⟩
  obtain rfl := Sum.inl.inj hn
  exact ⟨.inl hconst, hV.constant name hconst⟩

/-! ## Orderly trees -/

section Orderly

variable (V : Vocabulary) (ctx : Numbering.Context) (own : String → Prop)

mutual
/-- **What is given about a block**: the names that it declares are new, its
instructions fit, and nested blocks write to no storage that has a name of its
own. -/
def Block.Orderly (names : List String) : Block → Prop
  | .mk vars body => (∀ v ∈ vars, ¬ V.Known names v.name)
    ∧ body.Orderly (vars.map (·.name) ++ names)
/-- What is given about a body. -/
def Body.Orderly (names : List String) : Body → Prop
  | .done => True
  | .instr i rest => Numbering.Fits V ctx own i ∧ rest.Orderly names
  | .cont c rest => c.Orderly names ∧ rest.Orderly names
/-- What is given about a continuation. -/
def Continuation.Orderly (names : List String) : Continuation → Prop
  | .ifElse _ t e => t.Orderly names ∧ e.Orderly names
  | .switch _ arms => arms.Orderly names
  | .deferred _ _ => True
  | .nested b => b.Orderly names ∧ Numbering.locations ctx.aliases b.instructions = []
/-- What is given about the arms of a switch. -/
def Arms.Orderly (names : List String) : Arms → Prop
  | .none => True
  | .default b => b.Orderly names
  | .case _ b rest => b.Orderly names ∧ rest.Orderly names
end

end Orderly

namespace Numbering

/-! ## Marks -/

/-- **What is given about the state at the end of the whole walk.** -/
structure Finished (V : Vocabulary) (ctx : Context) (final : State) : Prop where
  constants : KnownPool V final.pool
  pool : final.pool.WellFormed
  marks : ∀ e ∈ final.marks.entries, ∃ v, V.text v ∧ v.name = e.1.2
    ∧ ctx.aliases.isStable v = true
  noted : ∀ e ∈ final.marks.entries, final.pool.Backs e.2

/-! ## Stores in place of marked instructions -/

section Stores

variable {V : Vocabulary} {ctx : Context} {mach : Machine W} {own : String → Prop} {block n : Nat}
  {i : Instruction} {final s s' : State} {st st' : Store W}

/-- The cleanup that follows the walk. -/
abbrev cleanupOf (ctx : Context) (final : State) : Cleanup := ⟨ctx.foreign, final.marks⟩

/-- **The store that takes the place of an instruction does the same.** -/
theorem exec_stored (hm : mach.Obeys ctx.foreign) (h : i.exec mach st = some st')
    (hmarks : ∀ dst l, i.outputs = [dst] → i.isRemovable ctx.foreign = .ok true →
      (cleanupOf ctx final).marks.literal? block dst = some l →
      ∃ x, l = .lit x ∧ st'.value dst.name = some x) :
    ((cleanupOf ctx final).stored block i).exec mach st = some st' := by
  unfold Cleanup.stored
  cases hstore : (cleanupOf ctx final).storeFor? block i with
  | none => exact h
  | some store =>
    obtain ⟨dst, a, hout, hrem, ha, rfl⟩ := Cleanup.storeFor?_eq_some hstore
    obtain ⟨x, rfl, hx⟩ := hmarks dst a hout hrem ha
    obtain ⟨l, hassign⟩ := assign_of_isRemovable hm hout hrem h
    obtain rfl := Option.some.inj ((Store.value_of_assign hassign).symm.trans hx)
    exact Option.bind_eq_some_iff.2 ⟨l, rfl, hassign⟩

theorem bindsAlias_of_isRemovable {foreign : Foreign} (h : i.isRemovable foreign = .ok true) :
    i.bindsAlias = false := by
  cases i with
  | readField access _ _ _ =>
    cases access with
    | bind => cases h
    | retrieve => rfl
    | copy => rfl
  | readElement access _ _ _ =>
    cases access with
    | bind => cases h
    | retrieve => rfl
    | copy => rfl
  | _ => rfl

/-- What the instruction that a visit leaves has in common with the one that was
visited. -/
theorem tree_visitInstruction (hf : (visitInstruction ctx block i s).fault = none) :
    (visitInstruction ctx block i s).tree.outputs = i.outputs
      ∧ ((visitInstruction ctx block i s).tree.isRemovable ctx.foreign = .ok true →
        i.bindsAlias = false) := by
  rw [← Instruction.outputs_mapOperands (replace s.facts) i,
    ← Instruction.bindsAlias_mapOperands (replace s.facts) i]
  rcases visitInstruction_tree hf with htree | ⟨dst, l, hdst, htree⟩
  · rw [htree]
    exact ⟨rfl, bindsAlias_of_isRemovable⟩
  · obtain ⟨hout, hrem⟩ := isRemovable_of_foldable? hdst
    rw [htree, hout]
    exact ⟨rfl, fun _ => bindsAlias_of_isRemovable hrem⟩

end Stores

/-! ## Simulation -/

/-- **A part of a tree was walked and executed**: the state is faithful again,
and what was written is noted. -/
structure Simulated (V : Vocabulary) (ctx : Context) (mach : Machine W) (own : String → Prop)
    (s s' : State) (st st' : Store W) : Prop where
  faithful : Faithful V ctx mach own s' st'
  frame : ∃ ls, s'.facts.top.invalidated = s.facts.top.invalidated ++ ls
    ∧ Frame ctx.aliases (V.Known s.facts.names) ls st st'

section Simulation

variable {V : Vocabulary} {ctx : Context} {mach : Machine W} {own : String → Prop} {block : Nat}
  {final s s' s'' : State} {st st' st'' : Store W} {start : Pool × Marks}

theorem Simulated.trans (h : Simulated V ctx mach own s s' st st')
    (hn : s'.facts.names = s.facts.names) (h' : Simulated V ctx mach own s' s'' st' st'') :
    Simulated V ctx mach own s s'' st st'' := by
  obtain ⟨ls, hls, hf⟩ := h.frame
  obtain ⟨ls', hls', hf'⟩ := h'.frame
  exact ⟨h'.faithful, ls ++ ls', by rw [hls', hls, List.append_assoc], hf.trans (hn ▸ hf')⟩

theorem Simulated.stocked (hP : Premises V ctx mach own) (hF : Finished V ctx final)
    (h : Simulated V ctx mach own s s' st st') (hp : Placed ctx.aliases own st)
    (hst : Stocked final.pool st) : Stocked final.pool st' := by
  obtain ⟨ls, -, hf⟩ := h.frame
  exact hst.frame hF.pool hF.constants hP.owned hp hf

/-- **One instruction**, replaced by a store if it is marked. -/
theorem simulates_instr (hP : Premises V ctx mach own) (hF : Finished V ctx final)
    {i : Instruction} (hi : Fits V ctx own i) (hs : Faithful V ctx mach own s st)
    (hst : Stocked final.pool st) (hf : (visitInstruction ctx block i s).fault = none) {rest : Body}
    (hsite : Site.Exact ctx start final.notes ⟨block, i, s, rest⟩)
    (h : i.exec mach st = some st') :
    ((cleanupOf ctx final).stored block (visitInstruction ctx block i s).tree).exec mach st
        = some st'
      ∧ Simulated V ctx mach own s (visitInstruction ctx block i s).state st st' := by
  obtain ⟨-, -, hinv⟩ := facts_visitInstruction hf
  obtain ⟨facts, -, -, hknown, hdefine, -⟩ := visitInstruction_cases hf
  have he := (change_of_exec h).executed (hs.ready hP hi hknown hdefine) hP.oneParent hP.child
    hi.aliases
  have hframe : Frame _ (V.Known s.facts.names) _ st st' :=
    he.frame.mono (fun _ _ => trivial) (List.Subset.refl _)
  have hst' : Stocked final.pool st' :=
    hst.frame hF.pool hF.constants hP.owned hs.placed hframe
  obtain ⟨hexec, hfaithful, -, hrecorded⟩ := simulates_visitInstruction hP hi hs hf h
    (hsite.grows.wellFormed_before hF.pool) (hst'.of_grows hsite.grows)
  obtain ⟨hout, hbinds⟩ := tree_visitInstruction hf
  refine ⟨exec_stored hP.obeys hexec fun dst a hdst hrem ha => ?_, hfaithful, _, hinv, hframe⟩
  have hmem : dst ∈ i.outputs := by
    rw [← hout, hdst]
    exact List.mem_singleton_self dst
  obtain ⟨hmade, hold⟩ := hsite.made hP.suits hF.marks hi.text (hbinds hrem) hmem
    (mem_of_get? (Option.join_eq_some_iff.1 ha))
  obtain ⟨new, hnew, hok⟩ := hrecorded.marks
  have hmade : _ ∈ (visitInstruction ctx block i s).state.marks.entries := hmade
  rw [hnew, List.mem_append] at hmade
  exact hok _ (hmade.resolve_right (hold _)) a rfl

/-- **Entering a block** keeps the state faithful. -/
theorem Faithful.enterBlock (hP : Premises V ctx mach own) (hs : Faithful V ctx mach own s st)
    {vars : List Var} (htext : ∀ v ∈ vars, V.text v)
    (hnew : ∀ v ∈ vars, ¬ V.Known s.facts.names v.name) :
    Simulated V ctx mach own s (enterBlock vars s) st (vars.foldl Store.declare st) := by
  obtain ⟨ho, hk, -, hcan, hval, hinv, -⟩ := foldl_declare_spec vars s.facts
  have hframe : Frame ctx.aliases (V.Known s.facts.names) [] st (vars.foldl Store.declare st) :=
    Frame.declareAll st hnew
  refine ⟨⟨hs.wellFormed.enterBlock vars, ?_, ?_, ?_⟩, [], ?_, hframe⟩
  · exact hs.placed.declareAll (fun v hv => hP.alloc v (htext v hv)) hP.child
  · have := hs.holds.invalidateAll hP.owned hs.wellFormed.tidy hs.placed hframe
    exact this.of_top ho hk hcan hval
  · intro n hn hsome
    rw [Store.contents_declareAll] at hsome
    split at hsome
    · cases hsome
    · rename_i hnot
      show n ∈ (vars.foldl Congruence.declare s.facts).definedNames
      rw [definedNames_foldl_declare]
      rcases mem_names_foldl_declare.1 hn with hn | ⟨v, hv, rfl⟩
      · exact hs.assigned n hn hsome
      · exact absurd (List.mem_map.2 ⟨v, hv, rfl⟩) hnot
  · rw [List.append_nil]
    exact hinv

/-- Entering a scope keeps the state faithful. -/
theorem Faithful.push (hs : Faithful V ctx mach own s st) {kind : ScopeKind}
    (hk : kind ≠ .deferred) : Faithful V ctx mach own (s.push kind) st where
  wellFormed := hs.wellFormed.push kind
  placed := hs.placed
  holds := hs.holds.push hk
  assigned := hs.assigned

theorem Faithful.of_quiet (hs : Faithful V ctx mach own s st) (hq : Quiet s s') :
    Faithful V ctx mach own s' st where
  wellFormed := hs.wellFormed.of_quiet hq
  placed := hs.placed
  holds := hq.facts ▸ hs.holds
  assigned := hq.facts ▸ hs.assigned

/-- **A block in a scope of its own was executed**, seen from outside. -/
structure ScopeRun (V : Vocabulary) (ctx : Context) (mach : Machine W) (own : String → Prop)
    (c : Congruence) (child : Scope) (st st' : Store W) : Prop where
  placed : Placed ctx.aliases own st'
  holds : Holds mach own ⟨child, c.scopes⟩ st'
  frame : Frame ctx.aliases (V.Known c.names) child.invalidated st st'
  assigned : ∀ n ∈ c.names, (st'.contents (.own n)).isSome = true →
    n ∈ c.definedNames ∨ n ∈ child.outliving

theorem ScopeRun.of_simulated {vars : List Var} {kind : ScopeKind}
    (hnew : ∀ v ∈ vars, ¬ V.Known s.facts.names v.name)
    (h : Simulated V ctx mach own (s.push kind) s' st st')
    (hlevel : (Numbering.enterBlock vars (s.push kind)).facts.SameLevel s'.facts) :
    ScopeRun V ctx mach own s.facts s'.facts.top st st' := by
  obtain ⟨ho, -, -, -, -, -, -, hdecl⟩ := foldl_declare_spec vars (s.push kind).facts
  have houter : s'.facts.outer = s.facts.scopes := hlevel.outer.trans ho
  have hfacts : s'.facts = ⟨s'.facts.top, s.facts.scopes⟩ := by rw [← houter]
  refine ⟨h.faithful.placed, hfacts ▸ h.faithful.holds, ?_, fun n hn hsome => ?_⟩
  · obtain ⟨ls, hls, hf⟩ := h.frame
    rw [hls]
    exact hf
  · have hn' : n ∈ s'.facts.names := by
      rw [hlevel.names]
      exact mem_names_foldl_declare.2 (.inl hn)
    rcases Congruence.mem_definedNames.1 (h.faithful.assigned n hn' hsome) with hd | hd
    · refine .inr (List.mem_filter.2 ⟨hd, ?_⟩)
      have hnot : n ∉ s'.facts.top.declared := by
        intro hmem
        rw [hlevel.declared] at hmem
        rcases (hdecl n).1 hmem with hmem | ⟨v, hv, rfl⟩
        · exact List.not_mem_nil hmem
        · exact hnew v hv (.inr hn)
      simpa using hnot
    · rw [houter] at hd
      exact .inl hd

/-- **One arm of a conditional was executed.** -/
theorem Faithful.mergeArms (hP : Premises V ctx mach own) (hs : Faithful V ctx mach own s st)
    {arms : List Scope} {arm : Scope} (harm : arm ∈ arms) (hfacts : s'.facts = s.facts)
    (hrun : ScopeRun V ctx mach own s.facts arm st st')
    (hw : WellFormed V (mergeArms ctx arms s')) :
    Simulated V ctx mach own s (mergeArms ctx arms s') st st' := by
  have hmerge : (Numbering.mergeArms ctx arms s').facts
      = (s.facts.mergeBranches ctx.aliases ctx.settings.branchMerge arms).2 := by
    rw [← hfacts]
    rfl
  obtain ⟨hlevel, hinv, hdef⟩ := Congruence.mergeBranches_spec ctx.aliases
    ctx.settings.branchMerge arms s.facts
  refine ⟨⟨hw, hrun.placed, ?_, ?_⟩, arms.flatMap (·.invalidated), ?_, ?_⟩
  · rw [hmerge]
    exact hs.holds.mergeBranches hP.owned hs.wellFormed.tidy hs.placed hrun.frame harm hrun.holds _
  · intro n hn hsome
    rw [hmerge, hlevel.names] at hn
    rw [hmerge, Congruence.mem_definedNames, hlevel.outer, hdef]
    rcases hrun.assigned n hn hsome with hd | hd
    · exact (Congruence.mem_definedNames.1 hd).imp_left .inl
    · exact .inl (.inr ⟨arm, harm, hd⟩)
  · rw [hmerge, hinv]
  · exact hrun.frame.mono (fun _ h => h) fun l hl => List.mem_flatMap.2 ⟨arm, harm, hl⟩

/-- **A nested block was executed.** -/
theorem Faithful.mergeNested (hP : Premises V ctx mach own) (hs : Faithful V ctx mach own s st)
    {child : Scope} (hrun : ScopeRun V ctx mach own s.facts child st st')
    (hinv : child.invalidated = []) (hfacts : s'.facts = s.facts.mergeNested child)
    (hw : WellFormed V s') : Simulated V ctx mach own s s' st st' := by
  have hframe := hrun.frame
  rw [hinv] at hframe
  refine ⟨⟨hw, hrun.placed, ?_, fun n hn hsome => ?_⟩, [], ?_, hframe⟩
  · rw [hfacts]
    exact hs.holds.mergeNested hP.owned hs.wellFormed.tidy hs.placed hframe hrun.holds
  · rw [hfacts] at hn ⊢
    refine Congruence.mem_definedNames.2 ?_
    rcases hrun.assigned n hn hsome with hd | hd
    · exact (Congruence.mem_definedNames.1 hd).imp_left (List.mem_append_right _ ·)
    · exact .inl (List.mem_append_left _ hd)
  · rw [hfacts]
    exact congrArg (s.facts.top.invalidated ++ ·) hinv

end Simulation

/-! ## The walk over a tree -/

/-- **The state is ready for a walk**: it is faithful to the storage, which
holds all constants that the walk will ever need. -/
structure Poised (V : Vocabulary) (ctx : Context) (mach : Machine W) (own : String → Prop)
    (final s : State) (st : Store W) : Prop where
  faithful : Faithful V ctx mach own s st
  stocked : Stocked final.pool st

section Tree

variable {V : Vocabulary} {ctx : Context} {mach : Machine W}
  {own : String → Prop} {final : State} {start : Pool × Marks}
  {s : State} {b : Block}

theorem Poised.push {st : Store W} (h : Poised V ctx mach own final s st)
    {kind : ScopeKind} (hk : kind ≠ .deferred) : Poised V ctx mach own final (s.push kind) st :=
  ⟨h.faithful.push hk, h.stocked⟩

theorem Poised.of_quiet {s s' : State} {st : Store W} (h : Poised V ctx mach own final s st)
    (hq : Quiet s s') : Poised V ctx mach own final s' st := ⟨h.faithful.of_quiet hq, h.stocked⟩

/-- An arm that is not executed changes nothing. -/
theorem Poised.leaveArm (hV : Serves V ctx) {st : Store W}
    (h : Poised V ctx mach own final s st) (ht : ∀ v ∈ b.occurrences, V.text v)
    (hf : (leaveArm (visitBlock ctx b (s.push .branch))).fault = none) :
    Poised V ctx mach own final
      (Numbering.leaveArm (visitBlock ctx b (s.push .branch))).state st := by
  have hs := h.faithful
  have hU := upheld_wellFormed hV
  have hb := hU.visitBlock b (s.push .branch) (hs.wellFormed.push .branch)
    (b.meets_ofVars ht _ _) (leaveArm_fault hf)
  obtain ⟨hwf, hfacts, -⟩ := hU.leaveArm hs.wellFormed hf hb.after
  refine ⟨⟨hwf, hs.placed, ?_, ?_⟩, h.stocked⟩
  · rw [hfacts]
    exact hs.holds
  · rw [hfacts]
    exact hs.assigned

/-- The names that an orderly block declares are new. -/
theorem vars_of_orderly {names names' : List String} (h : b.Orderly V ctx own names)
    (hsub : names' ⊆ names) : ∀ v ∈ b.vars, ¬ V.Known names' v.name := by
  obtain ⟨vars, body⟩ := b
  rw [Block.Orderly] at h
  exact fun v hv hknown => h.1 v hv (hknown.imp_right (hsub ·))

/-- A block in a scope of its own was walked and executed. -/
theorem scopeRun_of_visitBlock {st st' : Store W} {kind : ScopeKind} {names : List String}
    (ho : b.Orderly V ctx own names) (hsub : s.facts.names ⊆ names)
    (hf : (visitBlock ctx b (s.push kind)).fault = none)
    (h : Simulated V ctx mach own (s.push kind) (visitBlock ctx b (s.push kind)).state st st') :
    ScopeRun V ctx mach own s.facts (visitBlock ctx b (s.push kind)).state.facts.top st st' :=
  .of_simulated (vars_of_orderly ho hsub) h (assigns_visitBlock b _ hf).level

/-- An arm was walked and executed. -/
theorem armRun_of_visitBlock {names : List String} {st st' : Store W}
    (hsub : s.facts.names ⊆ names) (ho : b.Orderly V ctx own names)
    (hf : (leaveArm (visitBlock ctx b (s.push .branch))).fault = none)
    (h : ((cleanupOf ctx final).storeBlock (s.push .branch).nextBlock
          (visitBlock ctx b (s.push .branch)).tree).1.exec mach st = some st'
        ∧ Simulated V ctx mach own (s.push .branch)
        (visitBlock ctx b (s.push .branch)).state st st') :
    ((cleanupOf ctx final).storeBlock s.nextBlock
        (leaveArm (visitBlock ctx b (s.push .branch))).tree.1).1.exec mach st = some st'
      ∧ ScopeRun V ctx mach own s.facts (leaveArm (visitBlock ctx b (s.push .branch))).tree.2
        st st' := by
  have hf' := leaveArm_fault hf
  rw [leaveArm_eq hf' (outer_visitBlock hf')]
  exact ⟨h.1, scopeRun_of_visitBlock ho hsub hf' h.2⟩

mutual
/-- **A walked block does what the block does**, also with stores in place of
marked instructions. -/
theorem simulates_visitBlock (hP : Premises V ctx mach own) (hF : Finished V ctx final) :
    ∀ (b : Block) (s : State) (names : List String) (st st' : Store W),
    Poised V ctx mach own final s st → (∀ v ∈ b.occurrences, V.text v) →
    s.facts.names ⊆ names → b.Orderly V ctx own names → (visitBlock ctx b s).fault = none →
    (∀ i ∈ blockSites ctx b s, i.Exact ctx start final.notes) → b.exec mach st = some st' →
    ((cleanupOf ctx final).storeBlock s.nextBlock (visitBlock ctx b s).tree).1.exec mach st
      = some st'
      ∧ Simulated V ctx mach own s (visitBlock ctx b s).state st st'
  | .mk vars body, s, names, st, st', hs, ht, hsub, ho, hf, hsites, h => by
    have hnew := vars_of_orderly ho hsub
    rw [visitBlock_eq] at hf ⊢
    rw [Block.occurrences, List.forall_mem_append] at ht
    have henter := hs.faithful.enterBlock hP ht.1 hnew
    have hsub' : (enterBlock vars s).facts.names ⊆ vars.map (·.name) ++ names := by
      intro n hn
      rcases mem_names_foldl_declare.1 hn with hn | ⟨v, hv, rfl⟩
      · exact List.mem_append_right _ (hsub hn)
      · exact List.mem_append_left _ (List.mem_map.2 ⟨v, hv, rfl⟩)
    obtain ⟨hexec, hsim⟩ := simulates_visitBody hP hF s.nextBlock body (enterBlock vars s)
      (vars.map (·.name) ++ names) _ st'
      ⟨henter.faithful, henter.stocked hP hF hs.faithful.placed hs.stocked⟩ ht.2
      hsub' ho.2 hf hsites h
    refine ⟨?_, hsim.faithful, ?_⟩
    · rw [Visit.map, Cleanup.storeBlock, Block.exec]
      exact hexec
    · obtain ⟨ls, hls, hframe⟩ := henter.frame
      obtain ⟨ls', hls', hframe'⟩ := hsim.frame
      refine ⟨ls ++ ls', by rw [Visit.map, hls', hls, List.append_assoc], hframe.trans ?_⟩
      refine hframe'.mono (fun n hn => hn.imp_right fun hn => ?_) (List.Subset.refl _)
      exact mem_names_foldl_declare.2 (.inl hn)
theorem simulates_visitBody (hP : Premises V ctx mach own) (hF : Finished V ctx final)
    (block : Nat) : ∀ (b : Body) (s : State) (names : List String) (st st' : Store W),
    Poised V ctx mach own final s st → (∀ v ∈ b.occurrences, V.text v) →
    s.facts.names ⊆ names → b.Orderly V ctx own names → (visitBody ctx block b s).fault = none →
    (∀ i ∈ bodySites ctx block b s, i.Exact ctx start final.notes) → b.exec mach st = some st' →
    ((cleanupOf ctx final).storeBody block s.nextBlock (visitBody ctx block b s).tree).1.exec
      mach st
        = some st'
      ∧ Simulated V ctx mach own s (visitBody ctx block b s).state st st'
  | .done, s, names, st, st', hs, ht, hsub, ho, hf, hsites, h => by
    obtain rfl := Option.some.inj h
    exact ⟨rfl, hs.faithful, [], (List.append_nil _).symm, .refl st⟩
  | .instr i rest, s, names, st, st', hs, ht, hsub, ho, hf, hsites, h => by
    rw [visitBody] at hf ⊢
    rw [bodySites, List.forall_mem_cons] at hsites
    rw [Body.occurrences, List.forall_mem_append] at ht
    obtain ⟨st₁, h₁, h₂⟩ := Option.bind_eq_some_iff.1 h
    obtain ⟨hf₁, heq⟩ := andThen_fault hf
    rw [heq] at hf ⊢
    have hnames := (assigns_visitInstruction hf₁).level.names
    obtain ⟨hexec₁, hsim₁⟩ := simulates_instr hP hF ho.1 hs.faithful hs.stocked hf₁ hsites.1 h₁
    obtain ⟨hexec₂, hsim₂⟩ := simulates_visitBody hP hF block rest _ names st₁ st'
      ⟨hsim₁.faithful, hsim₁.stocked hP hF hs.faithful.placed hs.stocked⟩
      ht.2 (hnames ▸ hsub) ho.2 hf hsites.2 h₂
    refine ⟨?_, hsim₁.trans hnames hsim₂⟩
    rw [nextBlock_visitInstruction hf₁] at hexec₂
    rw [Visit.map, Cleanup.storeBody_instr, Body.exec]
    exact Option.bind_eq_some_iff.2 ⟨st₁, hexec₁, hexec₂⟩
  | .cont c rest, s, names, st, st', hs, ht, hsub, ho, hf, hsites, h => by
    rw [visitBody] at hf ⊢
    rw [bodySites, List.forall_mem_append] at hsites
    rw [Body.occurrences, List.forall_mem_append] at ht
    obtain ⟨st₁, h₁, h₂⟩ := Option.bind_eq_some_iff.1 h
    obtain ⟨hf₁, heq⟩ := andThen_fault hf
    rw [heq] at hf ⊢
    have hnames := (assigns_visitContinuation c s hf₁).level.names
    obtain ⟨hexec₁, hsim₁⟩ :=
      simulates_visitContinuation hP hF c s names st st₁ hs ht.1 hsub ho.1 hf₁ hsites.1 h₁
    obtain ⟨hexec₂, hsim₂⟩ := simulates_visitBody hP hF block rest _ names st₁ st'
      ⟨hsim₁.faithful, hsim₁.stocked hP hF hs.faithful.placed hs.stocked⟩
      ht.2 (hnames ▸ hsub) ho.2 hf hsites.2 h₂
    refine ⟨?_, hsim₁.trans hnames hsim₂⟩
    obtain ⟨hnext, hcount⟩ := numbers_visitContinuation c s hf₁
    rw [hnext] at hexec₂
    rw [Visit.map, Cleanup.storeBody, Body.exec, Cleanup.storeContinuation_next, hcount]
    exact Option.bind_eq_some_iff.2 ⟨st₁, hexec₁, hexec₂⟩
theorem simulates_visitContinuation (hP : Premises V ctx mach own) (hF : Finished V ctx final) :
    ∀ (c : Continuation) (s : State) (names : List String) (st st' : Store W),
    Poised V ctx mach own final s st → (∀ v ∈ c.occurrences, V.text v) →
    s.facts.names ⊆ names → c.Orderly V ctx own names → (visitContinuation ctx c s).fault = none →
    (∀ i ∈ continuationSites ctx c (governed c s), i.Exact ctx start final.notes) →
    c.exec mach st = some st' →
    ((cleanupOf ctx final).storeContinuation s.nextBlock (visitContinuation ctx c s).tree).1.exec
      mach st
        = some st'
      ∧ Simulated V ctx mach own s (visitContinuation ctx c s).state st st'
  | .ifElse condition t e, s, names, st, st', hs, ht, hsub, ho, hf, hsites, h => by
    have hw := ((upheld_wellFormed hP.suits.toServes).visitContinuation _ s hs.faithful.wellFormed
      (Continuation.meets_ofVars _ ht _ _) hf).1.after
    rw [Continuation.occurrences, List.forall_mem_append, List.forall_mem_append] at ht
    rw [Continuation.exec] at h
    rw [continuationSites, List.forall_mem_append] at hsites
    obtain ⟨hf₁, hf₂, heq⟩ := visitIfElse_eq hf
    rw [heq] at hw ⊢
    have hq := quiet_governed (.ifElse condition t e) s
    have hs₁ := hs.of_quiet hq
    have hsub₁ : (governed (.ifElse condition t e) s).facts.names ⊆ names := hq.facts ▸ hsub
    have hs₂ := hs₁.leaveArm hP.suits.toServes ht.1.2 hf₁
    obtain ⟨-, hfacts₁⟩ := facts_leaveArm hf₁
    obtain ⟨-, hfacts₂⟩ := facts_leaveArm hf₂
    obtain ⟨hnext, hcount⟩ := numbers_leaveArm hf₁
    let first := leaveArm (visitBlock ctx t ((governed (.ifElse condition t e) s).push .branch))
    let second := leaveArm (visitBlock ctx e (first.state.push .branch))
    have hsub₂ : first.state.facts.names ⊆ names := hfacts₁ ▸ hsub₁
    -- the arm that runs
    have hrun : ((cleanupOf ctx final).storeContinuation s.nextBlock (.ifElse
          (replace s.facts .value condition) first.tree.1 second.tree.1)).1.exec mach st = some st'
        ∧ ∃ arm ∈ [first.tree.2, second.tree.2],
          ScopeRun V ctx mach own (governed (.ifElse condition t e) s).facts arm st st' := by
      rw [Cleanup.storeContinuation, Continuation.exec, hs.faithful.holds.read_replace,
        Cleanup.storeBlock_next, hcount, ← hq.nextBlock]
      split at h
      · obtain ⟨hexec, hrun⟩ := armRun_of_visitBlock hsub₁ ho.1 hf₁
          (simulates_visitBlock hP hF t _ names st st' (hs₁.push (by simp))
            ht.1.2 hsub₁ ho.1 (leaveArm_fault hf₁) hsites.1 h)
        exact ⟨hexec, _, List.mem_cons_self, hrun⟩
      · obtain ⟨hexec, hrun⟩ := armRun_of_visitBlock hsub₂ ho.2 hf₂
          (simulates_visitBlock hP hF e _ names st st' (hs₂.push (by simp))
            ht.2 hsub₂ ho.2 (leaveArm_fault hf₂) hsites.2 h)
        rw [← hnext]
        rw [hfacts₁] at hrun
        exact ⟨hexec, _, .tail _ List.mem_cons_self, hrun⟩
      · cases h
    obtain ⟨hexec, arm, harm, hrun⟩ := hrun
    have hsim := hs₁.faithful.mergeArms hP harm (hfacts₂.trans hfacts₁) hrun hw
    refine ⟨hexec, hsim.faithful, ?_⟩
    rw [← hq.facts]
    exact hsim.frame
  | .switch value arms, s, names, st, st', hs, ht, hsub, ho, hf, hsites, h => by
    have hw := ((upheld_wellFormed hP.suits.toServes).visitContinuation _ s hs.faithful.wellFormed
      (Continuation.meets_ofVars _ ht _ _) hf).1.after
    rw [Continuation.occurrences, List.forall_mem_append] at ht
    rw [Continuation.exec] at h
    obtain ⟨hf₁, heq⟩ := visitSwitch_eq hf
    rw [heq] at hw ⊢
    have hq := quiet_governed (.switch value arms) s
    have hs₁ := hs.of_quiet hq
    split at h
    · rename_i n hread
      obtain ⟨hexec, arm, harm, hrun⟩ := simulates_visitArms hP hF arms _ names n st st' hs₁ ht.2
        (hq.facts ▸ hsub) ho hf₁ hsites h
      have hsim := hs₁.faithful.mergeArms hP harm (assigns_visitArms arms _ hf₁).2 hrun hw
      refine ⟨?_, hsim.faithful, ?_⟩
      · rw [Cleanup.storeContinuation, Continuation.exec, hs.faithful.holds.read_replace, hread,
          ← hq.nextBlock]
        exact hexec
      · rw [← hq.facts]
        exact hsim.frame
    · cases h
  | .deferred trigger b, s, names, st, st', hs, ht, hsub, ho, hf, hsites, h => by
    cases h
  | .nested b, s, names, st, st', hs, ht, hsub, ho, hf, hsites, h => by
    have hw := ((upheld_wellFormed hP.suits.toServes).visitContinuation _ s hs.faithful.wellFormed
      (Continuation.meets_ofVars _ ht _ _) hf).1.after
    obtain ⟨hf₁, heq⟩ := visitNested_eq hf
    rw [heq] at hw ⊢
    have hq := quiet_governed (.nested b) s
    have hs₁ := hs.of_quiet hq
    have hsub₁ : (governed (.nested b) s).facts.names ⊆ names := hq.facts ▸ hsub
    have hf₂ := leave_fault hf₁
    rw [leave_eq hf₂ (outer_visitBlock hf₂)] at hw ⊢
    obtain ⟨hexec, hsim⟩ := simulates_visitBlock hP hF b _ names st st' (hs₁.push (by simp)) ht
      hsub₁ ho.1 hf₂ hsites h
    have hrun := scopeRun_of_visitBlock ho.1 hsub₁ hf₂ hsim
    have hnil := List.eq_nil_of_subset_nil (ho.2 ▸ invalidated_visitBlock hf₂)
    have hsim := hs₁.faithful.mergeNested hP hrun hnil rfl hw
    refine ⟨?_, hsim.faithful, ?_⟩
    · rw [Visit.map, Cleanup.storeContinuation, Continuation.exec, ← hq.nextBlock]
      exact hexec
    · rw [← hq.facts]
      exact hsim.frame
theorem simulates_visitArms (hP : Premises V ctx mach own) (hF : Finished V ctx final) :
    ∀ (arms : Arms) (s : State) (names : List String) (n : Int64) (st st' : Store W),
    Poised V ctx mach own final s st → (∀ v ∈ arms.occurrences, V.text v) →
    s.facts.names ⊆ names → arms.Orderly V ctx own names → (visitArms ctx arms s).fault = none →
    (∀ i ∈ armsSites ctx arms s, i.Exact ctx start final.notes) → arms.exec mach n st = some st' →
    ((cleanupOf ctx final).storeArms s.nextBlock (visitArms ctx arms s).tree.1).1.exec mach n st
        = some st'
      ∧ ∃ arm ∈ (visitArms ctx arms s).tree.2, ScopeRun V ctx mach own s.facts arm st st'
  | .none, s, names, n, st, st', hs, ht, hsub, ho, hf, hsites, h => by
    obtain rfl := Option.some.inj h
    refine ⟨rfl, _, List.mem_singleton_self _, hs.faithful.placed, ?_, .refl st, ?_⟩
    · exact hs.faithful.holds.push (by simp)
    · exact fun n hn hsome => .inl (hs.faithful.assigned n hn hsome)
  | .default b, s, names, n, st, st', hs, ht, hsub, ho, hf, hsites, h => by
    obtain ⟨hf₁, heq⟩ := visitDefault_cases hf
    rw [heq]
    obtain ⟨hexec, hrun⟩ := armRun_of_visitBlock hsub ho hf₁
      (simulates_visitBlock hP hF b _ names st st' (hs.push (by simp))
        ht hsub ho (leaveArm_fault hf₁) hsites h)
    exact ⟨hexec, _, List.mem_singleton_self _, hrun⟩
  | .case label b rest, s, names, n, st, st', hs, ht, hsub, ho, hf, hsites, h => by
    rw [Arms.occurrences, List.forall_mem_append] at ht
    rw [Arms.exec] at h
    rw [armsSites, List.forall_mem_append] at hsites
    obtain ⟨hf₁, hf₂, heq⟩ := visitCase_cases hf
    rw [heq]
    obtain ⟨-, hfacts₁⟩ := facts_leaveArm hf₁
    have hsub₂ : (leaveArm (visitBlock ctx b (s.push .branch))).state.facts.names ⊆ names :=
      hfacts₁ ▸ hsub
    obtain ⟨hnext, hcount⟩ := numbers_leaveArm hf₁
    rw [Cleanup.storeArms, Arms.exec]
    split at h
    · rename_i hlabel
      obtain ⟨hexec, hrun⟩ := armRun_of_visitBlock hsub ho.1 hf₁
        (simulates_visitBlock hP hF b _ names st st' (hs.push (by simp))
          ht.1 hsub ho.1 (leaveArm_fault hf₁) hsites.1 h)
      rw [if_pos hlabel]
      exact ⟨hexec, _, List.mem_cons_self, hrun⟩
    · rename_i hlabel
      obtain ⟨hexec, arm, harm, hrun⟩ := simulates_visitArms hP hF rest _ names n st st'
        (hs.leaveArm hP.suits.toServes ht.1 hf₁) ht.2 hsub₂ ho.2 hf₂ hsites.2 h
      rw [if_neg hlabel, Cleanup.storeBlock_next, hcount, ← hnext]
      rw [hfacts₁] at hrun
      exact ⟨hexec, arm, List.mem_cons_of_mem _ harm, hrun⟩
end

end Tree

end Numbering

end ValueFlow
