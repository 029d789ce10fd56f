import ValueFlow.Optimizer
import ValueFlow.Proofs.FunctionSimulation

/-!
# Accepted programs stay accepted

A function that was numbered can be numbered again. The walk puts nothing in
place of an operand that may not be used there: facts are tidy, so a
representative is declared around the place where it is found, or it is a shared
constant. The table of constants has to be in order for this: what it has under
the name for a literal must be marked as a constant (`Constants.Flagged`), or
else it would be put into the text as a variable that is declared nowhere.

An optimiser that starts with accepted functions therefore comes to its end,
however many rounds it makes.
-/

namespace ValueFlow

/-! ## Tables in order -/

namespace Constants

/-- **The variables in a table of constants are marked as constants.** -/
def Flagged (t : Constants) : Prop :=
  ∀ name c, t.get? name = some c →
    c.var.isGlobalConst = true ∧ c.value.All fun v => v.isGlobalConst = true

theorem flagged_empty : Constants.empty.Flagged := fun _ _ h => nomatch h

theorem Flagged.insert {t : Constants} (h : t.Flagged) {c : Constant}
    (hvar : c.var.isGlobalConst = true) (hvalue : c.value.All fun v => v.isGlobalConst = true) :
    (t.insert c).Flagged := by
  intro name d hd
  rw [get?_insert] at hd
  split at hd
  · cases hget : t.get? name with
    | some d' =>
      rw [hget] at hd
      exact Option.some.inj hd ▸ h name d' hget
    | none =>
      rw [hget] at hd
      exact Option.some.inj hd ▸ ⟨hvar, hvalue⟩
  · exact h name d hd

theorem Flagged.merge {t other : Constants} (h : t.Flagged) (ho : other.Flagged) :
    (t.merge other).Flagged := by
  have hcs : ∀ c ∈ other.table.values,
      c.var.isGlobalConst = true ∧ c.value.All fun v => v.isGlobalConst = true := by
    intro c hc
    obtain ⟨e, he, rfl⟩ := List.mem_map.1 hc
    exact ho e.1 e.2 (Dict.get?_of_mem_entries he)
  unfold Constants.merge
  generalize other.table.values = cs at hcs
  induction cs generalizing t with
  | nil => exact h
  | cons c cs ih =>
    obtain ⟨hc, hcs⟩ := List.forall_mem_cons.1 hcs
    exact ih (h.insert hc.1 hc.2) hcs

end Constants

/-- Constants that are made are marked. -/
theorem Pool.Grows.flagged {p p' : Pool} (h : p.Grows p') (hp : p.created.Flagged) :
    p'.created.Flagged := by
  refine h.created (fun l c hc => ?_) hp
  obtain ⟨-, hvalue, hflag⟩ := Constant.make?_eq_some hc
  rw [hvalue]
  exact ⟨hflag, trivial⟩

namespace Numbering

variable {aliases : AliasMap} {names : List String} {i : Instruction}

/-! ## What may be used -/

/-- Facts may mention whatever may be used. -/
def usable (aliases : AliasMap) : Vocabulary :=
  .over aliases (fun _ => True) (·.isGlobalConst = true) fun _ _ => id

theorem serves_usable (ctx : Context) : Serves (usable ctx.aliases) ctx :=
  ⟨.over _, fun _ _ h => (Constant.make?_eq_some h).2.2⟩

theorem names_usable {v : Var} :
    (usable aliases).Names names v ↔ v.isUsable names = true := by
  unfold Var.isUsable
  rw [Bool.or_eq_true, List.contains_iff_mem]
  exact or_congr Iff.rfl (and_iff_right trivial)

theorem all_usable {a : Operand} :
    a.All ((usable aliases).Names names) ↔ a.All fun v => v.isUsable names = true := by
  cases a with
  | var v => exact names_usable
  | lit l => exact Iff.rfl

theorem forall_usable
    (h : i.All ((usable aliases).Names names)) :
    ∀ v ∈ i.readVars ++ i.outputs, v.isUsable names = true := by
  refine List.forall_mem_append.2 ⟨fun v hv => ?_, fun v hv => names_usable.1 (h.2 v hv)⟩
  obtain ⟨r, hr, hvar⟩ := List.mem_filterMap.1 hv
  have hall := h.1 r hr
  obtain ⟨role, a⟩ := r
  cases a with
  | var w => exact Option.some.inj hvar ▸ names_usable.1 hall
  | lit l => cases hvar

theorem knownPool_usable {globals : Constants} (h : globals.Flagged) (aliases : AliasMap) :
    KnownPool (usable aliases) ⟨globals, .empty⟩ := by
  intro name c hc
  refine h name c ?_
  show globals.get? name = some c
  rcases Option.or_eq_some_iff.1 hc with hc | ⟨-, hc⟩
  · exact hc
  · cases hc

/-- **The state can be shown**: its facts mention what may be used, the values
noted with marks are literals or constants, and constants that were added are
marked. -/
structure Presentable (ctx : Context) (s : State) : Prop where
  wellFormed : WellFormed (usable ctx.aliases) s
  noted : ∀ e ∈ s.marks.entries, OperandAll (fun v => v.isGlobalConst = true) e.2
  created : s.pool.created.Flagged

variable {ctx : Context}

/-- Every instruction will do as a text. -/
theorem all_text (i : Instruction) : i.All (usable ctx.aliases).text := by
  refine ⟨fun r _ => ?_, fun _ _ => trivial⟩
  cases r.2 <;> trivial

theorem Presentable.visitInstruction {block : Nat} {s : State} (hs : Presentable ctx s)
    (h : (visitInstruction ctx block i s).fault = none) :
    Presentable ctx (visitInstruction ctx block i s).state := by
  obtain ⟨hw, -⟩ := wellFormed_visitInstruction (serves_usable ctx) hs.wellFormed (all_text i) h
  obtain ⟨hpool, new, hnew, hok⟩ := marks_visitInstruction h
  refine ⟨hw, fun e he a ha => ?_, hpool.flagged hs.created⟩
  rw [hnew] at he
  rcases List.mem_append.1 he with he | he
  · obtain ⟨name, c, hc, rfl⟩ := (hok e he).2.2 a ha
    exact (hw.constants name c hc).2
  · exact hs.noted e he a ha

/-- **The walk stays presentable.** -/
theorem upheld_presentable (ctx : Context) :
    Upheld ctx (.ofVars fun _ => True) (Presentable ctx) := by
  let J (notes : Pool × Marks) : Prop :=
    (∀ e ∈ notes.2.entries, OperandAll (fun v => v.isGlobalConst = true) e.2)
      ∧ notes.1.created.Flagged
  have hU := (upheld_wellFormed (serves_usable ctx)).noting (J := J) fun hs hnotes _ hf => by
    obtain ⟨-, hnoted, hcreated⟩ := Presentable.visitInstruction ⟨hs, hnotes.1, hnotes.2⟩ hf
    exact ⟨hnoted, hcreated⟩
  have heq : Presentable ctx = fun s => WellFormed (usable ctx.aliases) s ∧ J s.notes := by
    funext s
    exact propext ⟨fun h => ⟨h.wellFormed, h.noted, h.created⟩, fun h => ⟨h.1, h.2.1, h.2.2⟩⟩
  exact heq ▸ hU

/-! ## The parts of a numbered function -/

theorem aliases_mapOperands (f : Role → Operand → Operand) (i : Instruction) :
    (i.mapOperands f).aliases = i.aliases := by
  cases i <;> rfl

/-- **A visited instruction is accepted where it stands**, and it assigns what
it assigned before. -/
theorem accepted_visitInstruction {n : Nat} {s : State} (hs : Presentable ctx s)
    (hi : (accepted ctx.foreign).instruction n s.facts.point i)
    (h : (visitInstruction ctx n i s).fault = none) :
    (accepted ctx.foreign).instruction n s.facts.point (visitInstruction ctx n i s).tree
      ∧ (visitInstruction ctx n i s).tree.assigned = i.assigned := by
  obtain ⟨-, htwice, hunknown, haliases⟩ := hi
  have hscope := forall_usable
    (wellFormed_visitInstruction (serves_usable ctx) hs.wellFormed (all_text i) h).2
  rcases visitInstruction_tree h with htree | ⟨dst, l, hdst, htree⟩
  · rw [htree] at hscope ⊢
    refine ⟨⟨hscope, ?_, ?_, ?_⟩, Instruction.assigned_mapOperands _ i⟩
    · rwa [Instruction.assigned_mapOperands]
    · rwa [Instruction.unknown?_mapOperands]
    · rwa [aliases_mapOperands]
  · -- the copy has the output of the computation that was folded
    obtain ⟨hout, hrem⟩ := isRemovable_of_foldable? hdst
    have hassigned : i.assigned = (visitInstruction ctx n i s).tree.assigned := by
      rw [← Instruction.assigned_mapOperands (replace s.facts) i, htree, Instruction.assigned,
        Instruction.assigned, bindsAlias_of_isRemovable hrem, hout]
      rfl
    rw [hassigned] at htwice
    exact ⟨⟨hscope, htwice, htree ▸ rfl, [], htree ▸ rfl⟩, hassigned.symm⟩

/-- **Storing a literal** in place of an accepted instruction is accepted. -/
theorem accepted_stored {c : Cleanup} {n : Nat} {p : Point}
    (hc : ∀ e ∈ c.marks.entries, OperandAll (fun v => v.isGlobalConst = true) e.2)
    (hi : (accepted c.foreign).instruction n p i) :
    (accepted c.foreign).instruction n p (c.stored n i) ∧ (c.stored n i).assigned = i.assigned := by
  unfold Cleanup.stored
  cases hstore : c.storeFor? n i with
  | none => exact ⟨hi, rfl⟩
  | some store =>
    obtain ⟨dst, a, hout, hrem, hlit, rfl⟩ := Cleanup.storeFor?_eq_some hstore
    obtain ⟨hscope, htwice, -, -⟩ := hi
    have hassigned : i.assigned = (Instruction.storeScalar dst a).assigned := by
      rw [Instruction.assigned, bindsAlias_of_isRemovable hrem, hout]
      rfl
    have ha := hc _ (mem_of_get? (Option.join_eq_some_iff.1 hlit)) a rfl
    refine ⟨⟨fun v hv => ?_, hassigned ▸ htwice, rfl, [], rfl⟩, hassigned.symm⟩
    rcases List.mem_append.1 hv with hv | hv
    · cases a with
      | var w =>
        obtain rfl := List.mem_singleton.1 hv
        exact Bool.or_eq_true_iff.2 (.inl ha)
      | lit l => cases hv
    · exact hscope v (List.mem_append_right _ (hout ▸ hv))

/-- **A trigger is accepted when its block is entered**, and it declares and
assigns the same. -/
theorem accepted_enterDeferred {t : Trigger} {s : State} (hs : Presentable ctx s)
    (ht : (accepted ctx.foreign).trigger s.facts.point t)
    (h : (enterDeferred ctx t s).fault = none) :
    (accepted ctx.foreign).trigger s.facts.point (enterDeferred ctx t s).tree
      ∧ (enterDeferred ctx t s).tree.declared = t.declared
      ∧ (enterDeferred ctx t s).tree.assigned = t.assigned := by
  obtain ⟨hdeclared, hassigned, hreads⟩ := tree_enterDeferred h
  refine ⟨⟨fun v hv => ?_, hassigned ▸ ht.2⟩, hdeclared, hassigned⟩
  obtain ⟨a, ha, hv⟩ := List.mem_filterMap.1 hv
  obtain ⟨b, hb, hab⟩ := hreads a ha
  have hread : b.All fun v => v.isUsable s.facts.names = true :=
    Operand.all_iff.2 fun w hw => ht.1 w (List.mem_filterMap.2 ⟨b, hb, Option.mem_toList.1 hw⟩)
  have hall : a.All fun v => v.isUsable s.facts.names = true := by
    rcases hab with rfl | rfl
    · exact hread
    · exact all_usable.1 (names_replace hs.wellFormed.tidy (all_usable.2 hread))
  exact Operand.all_iff.1 hall v (Option.mem_toList.2 hv)

/-- **What numbering makes of a tree keeps to what is accepted.** -/
theorem admissible_walkEdit {R : Requirement} {c : Cleanup} {g : Rewrite}
    (hforeign : c.foreign = ctx.foreign)
    (hc : ∀ e ∈ c.marks.entries, OperandAll (fun v => v.isGlobalConst = true) e.2)
    (hg : ∀ n i, g n i = some (c.stored n i) ∨ g n i = none) :
    ((walkEdit ctx R (Presentable ctx)).andThen g).Admissible ctx.foreign where
  declares h := h.2
  instruction := by
    rintro n p i j ⟨r, ⟨-, s, hs, rfl, hf, rfl⟩, hj⟩ hi
    obtain ⟨htree, hassigned⟩ := accepted_visitInstruction hs hi hf
    rcases hg n (visitInstruction ctx n i s).tree with hstored | hnone
    · obtain rfl := Option.some.inj (hj.trans hstored)
      rw [← hforeign] at htree ⊢
      obtain ⟨haccepted, hsame⟩ := accepted_stored hc htree
      exact ⟨haccepted, hsame.trans hassigned⟩
    · cases hj.trans hnone
  operand := by
    rintro p a a' ⟨-, s, hs, rfl, -, rfl⟩ ha
    exact all_usable.1 (names_replace hs.wellFormed.tidy (all_usable.2 ha))
  trigger := by
    rintro p t t' ⟨-, s, hs, rfl, -, hf, rfl⟩ ht
    exact accepted_enterDeferred hs ht hf

/-! ## Numbered functions -/

section Runs

variable {settings : Settings} {foreign : Foreign} {globals created : Constants}
  {f : Function} {stats : Stats}

/-- **A numbered function is accepted**, and the constants it adds are marked. -/
theorem fault?_run (hglobals : globals.Flagged)
    (h : (run settings foreign globals f).result = .ok (stats, created)) :
    (run settings foreign globals f).function.fault? foreign = none ∧ created.Flagged := by
  obtain ⟨hinputs, hblock⟩ := Function.fault?_eq_none.1 (run_ok_iff.1 ⟨_, h⟩)
  obtain ⟨ctx, facts, hctx, hfacts, hfault, rfl, hfunction⟩ := run_eq_ok h
  obtain ⟨-, rfl, -, -⟩ := contextOf_eq_ok hctx
  have hpoint : (opened globals f facts).facts.point = f.point := point_opened hfacts
  have hopened : Presentable ctx (opened globals f facts) :=
    ⟨wellFormed_opened (fun _ _ => trivial) (knownPool_usable hglobals _) hfacts,
      List.forall_mem_nil _, Constants.flagged_empty⟩
  obtain ⟨hfinal, hedited⟩ := (upheld_presentable ctx).visitBlock f.block _ hopened
    (Block.meets_ofVars f.block (fun _ _ => trivial) _ _) hfault
  rw [hpoint] at hedited
  obtain ⟨g, reads, deleted, -, hg, hremoved⟩ := removeRedundant_fst ctx
    { f with block := (visitBlock ctx f.block (opened globals f facts)).tree }
    (visitBlock ctx f.block (opened globals f facts)).state
  -- the walk and the cleanup are edits; only then declarations are dropped
  have hadmissible :=
    admissible_walkEdit (R := .ofVars fun _ => True) (c := ⟨ctx.foreign, _⟩) rfl hfinal.noted
      fun n i => (hg n i).imp_right And.left
  obtain ⟨hmeets, -⟩ := (hedited.filterMap g).meets_accepted hadmissible hblock (.refl f.point)
  obtain ⟨hdropped, -⟩ := Block.meets_dropDeclarations deleted hmeets (.refl f.point)
  rw [hfunction, hremoved]
  exact ⟨Function.fault?_eq_none.2 ⟨hinputs, hdropped⟩, hfinal.created⟩

/-- Replacing conditionals on literals keeps a function accepted. -/
theorem fault?_foldBranches (h : f.fault? foreign = none) :
    f.foldBranches.fault? foreign = none := by
  obtain ⟨hinputs, hblock⟩ := Function.fault?_eq_none.1 h
  exact Function.fault?_eq_none.2
    ⟨hinputs, (Block.meets_foldBranches (eased_accepted foreign) hblock (.refl f.point)).1⟩

end Runs

end Numbering

/-! ## The optimiser -/

namespace Pass

/-- The constants that a pass keeps are marked. -/
def Flagged : Pass → Prop
  | numbering pending => pending.Flagged
  | constantBranches => True

variable {p : Pass} (settings : Settings) {foreign : Foreign} {globals : Constants}

/-- **A pass over an accepted function** succeeds and leaves an accepted
function. -/
theorem runOnFunction_spec {f : Function} (hp : p.Flagged) (hglobals : globals.Flagged)
    (hf : f.fault? foreign = none) :
    let run := p.runOnFunction settings foreign globals f
    (∃ stats, run.result = .ok stats) ∧ run.pass.Flagged ∧ run.subject.fault? foreign = none := by
  cases p with
  | numbering pending =>
    obtain ⟨⟨stats, created⟩, hr⟩ : ∃ r,
        (Numbering.run settings foreign globals f).result = .ok r :=
      Numbering.run_ok_iff.2 hf
    obtain ⟨hfault, hcreated⟩ := Numbering.fault?_run hglobals hr
    simp only [runOnFunction, hr]
    exact ⟨⟨stats, rfl⟩, Constants.Flagged.merge hp hcreated, hfault⟩
  | constantBranches => exact ⟨⟨_, rfl⟩, trivial, Numbering.fault?_foldBranches hf⟩

/-- **A pass over accepted functions** succeeds and leaves accepted functions. -/
theorem runOnFunctions_spec {fs : List Function} (hp : p.Flagged) (hglobals : globals.Flagged)
    (hfs : ∀ f ∈ fs, f.fault? foreign = none) :
    let run := p.runOnFunctions settings foreign globals fs
    (∃ stats, run.result = .ok stats) ∧ run.pass.Flagged
      ∧ ∀ f ∈ run.subject, f.fault? foreign = none := by
  induction fs generalizing p with
  | nil => exact ⟨⟨_, rfl⟩, hp, hfs⟩
  | cons f fs ih =>
    obtain ⟨hf, hfs⟩ := List.forall_mem_cons.1 hfs
    obtain ⟨⟨stats, hr⟩, hpass, hsubject⟩ := runOnFunction_spec settings hp hglobals hf
    obtain ⟨⟨others, hothers⟩, hpass', hrest⟩ := ih hpass hfs
    simp only [runOnFunctions, hr]
    exact ⟨⟨_, congrArg _ hothers⟩, hpass', List.forall_mem_cons.2 ⟨hsubject, hrest⟩⟩

end Pass

/-- **The functions of a program are accepted, and its constants are marked.** -/
structure Program.Accepted (program : Program) : Prop where
  globals : program.globals.Flagged
  functions : ∀ f ∈ program.functions, f.fault? program.foreign = none

namespace Pass

variable {p : Pass} (settings : Settings) {program : Program}

theorem takeConstants_flagged (hp : p.Flagged) :
    p.takeConstants.1.Flagged ∧ p.takeConstants.2.Flagged := by
  cases p with
  | numbering pending => exact ⟨hp, Constants.flagged_empty⟩
  | constantBranches => exact ⟨Constants.flagged_empty, trivial⟩

/-- **A pass over an accepted program** succeeds and leaves an accepted program. -/
theorem runOnProgram_spec (hp : p.Flagged) (hprogram : program.Accepted) :
    let run := p.runOnProgram settings program
    (∃ stats, run.result = .ok stats) ∧ run.pass.Flagged ∧ run.subject.Accepted := by
  obtain ⟨⟨stats, hr⟩, hpass, hfs⟩ :=
    runOnFunctions_spec settings hp hprogram.globals hprogram.functions
  obtain ⟨hcreated, hkept⟩ := takeConstants_flagged hpass
  simp only [runOnProgram, hr]
  exact ⟨⟨stats, rfl⟩, hkept, hprogram.globals.merge hcreated, hfs⟩

/-- A sweep over functions succeeds only if all of them are accepted. -/
theorem fault?_of_runOnFunctions {settings : Settings} {foreign : Foreign}
    {globals pending : Constants} {fs : List Function} {stats : Stats}
    (h : ((numbering pending).runOnFunctions settings foreign globals fs).result = .ok stats) :
    ∀ f ∈ fs, f.fault? foreign = none := by
  induction fs generalizing pending stats with
  | nil => exact fun f hf => nomatch hf
  | cons f fs ih =>
    simp only [runOnFunctions, runOnFunction] at h
    cases hr : (Numbering.run settings foreign globals f).result with
    | error e =>
      simp only [hr] at h
      cases h
    | ok r =>
      simp only [hr] at h
      obtain ⟨stats', hothers⟩ : ∃ stats',
          ((numbering (pending.merge r.2)).runOnFunctions settings foreign
          globals fs).result = .ok stats' := by
        cases hothers : ((numbering (pending.merge r.2)).runOnFunctions
            settings foreign globals fs).result with
        | error e =>
          rw [hothers] at h
          cases h
        | ok stats' => exact ⟨stats', rfl⟩
      exact List.forall_mem_cons.2 ⟨Numbering.run_ok_iff.1 ⟨r, hr⟩, ih hothers⟩

end Pass

namespace Optimizer

variable (settings : Settings) {program : Program} {passes : List Pass}

/-- **A round over an accepted program** succeeds and leaves an accepted program. -/
theorem round_spec (hpasses : ∀ p ∈ passes, p.Flagged) (hprogram : program.Accepted)
    (iteration : Nat) :
    let run := round settings iteration passes program
    (∃ stats, run.result = .ok stats) ∧ (∀ p ∈ run.passes, p.Flagged) ∧ run.program.Accepted := by
  induction passes generalizing program with
  | nil => exact ⟨⟨_, rfl⟩, hpasses, hprogram⟩
  | cons p passes ih =>
    obtain ⟨hp, hpasses⟩ := List.forall_mem_cons.1 hpasses
    obtain ⟨⟨stats, hr⟩, hpass, hsubject⟩ := Pass.runOnProgram_spec settings hp hprogram
    obtain ⟨⟨others, hothers⟩, hrest, hfinal⟩ := ih hpasses hsubject
    simp only [round, hr]
    exact ⟨⟨_, congrArg _ hothers⟩, List.forall_mem_cons.2 ⟨hpass, hrest⟩, hfinal⟩

/-- **Any number of rounds over an accepted program** succeeds. -/
theorem rounds_ok (n iteration : Nat) (hpasses : ∀ p ∈ passes, p.Flagged)
    (hprogram : program.Accepted) :
    ∃ stats, (rounds settings n iteration passes program).result = .ok stats := by
  induction n generalizing iteration passes program with
  | zero => exact ⟨_, rfl⟩
  | succ n ih =>
    obtain ⟨⟨stats, hr⟩, hrest, hfinal⟩ := round_spec settings hpasses hprogram iteration
    simp only [rounds, hr]
    split
    · obtain ⟨others, hothers⟩ := ih (iteration + 1) hrest hfinal
      exact ⟨stats.add others, congrArg (Except.map stats.add) hothers⟩
    · exact ⟨_, rfl⟩

/-- **Accepted programs stay accepted**, if the table of constants is in order.
A numbered function mentions only what may be used, and it can be numbered again
with the constants it added, as it is and with its conditionals on literals
replaced. An optimiser never stops with a fault once value numbering has gone
through all functions. -/
theorem stays_accepted (settings : Settings) (foreign : Foreign) (globals : Constants)
    (hglobals : globals.Flagged) :
    (∀ (f : Function) (stats : Stats) (created : Constants),
      (Numbering.run settings foreign globals f).result = .ok (stats, created) →
      let g := (Numbering.run settings foreign globals f).function
      let constants := globals.merge created
      g.block.Meets inScope 0 g.point
        ∧ ∀ settings' : Settings,
          (∃ r, (Numbering.run settings' foreign constants g).result = .ok r)
          ∧ ∃ r, (Numbering.run settings' foreign constants g.foldBranches).result = .ok r)
    ∧ ∀ functions : List Function,
      (∃ stats, (Pass.valueNumbering.runOnProgram settings ⟨functions, globals, foreign⟩).result
        = .ok stats) →
      ∀ passes : List Pass, (∀ p ∈ passes, p.Flagged) →
        ∃ stats, ((Optimizer.mk settings passes).optimize ⟨functions, globals, foreign⟩).result
          = .ok stats := by
  constructor
  · intro f stats created h
    obtain ⟨hfault, -⟩ := Numbering.fault?_run hglobals h
    obtain ⟨-, hblock⟩ := Function.fault?_eq_none.1 hfault
    refine ⟨hblock.mono (inScope_follows foreign), fun settings' => ⟨?_, ?_⟩⟩
    · exact Numbering.run_ok_iff.2 hfault
    · exact Numbering.run_ok_iff.2 (Numbering.fault?_foldBranches hfault)
  · rintro functions ⟨stats, h⟩ passes hpasses
    have hsweep : ∃ stats,
          (Pass.valueNumbering.runOnFunctions settings foreign globals functions).result
        = .ok stats := by
      simp only [Pass.runOnProgram] at h
      split at h
      · cases h
      · exact ⟨_, ‹_›⟩
    obtain ⟨_, hsweep⟩ := hsweep
    exact rounds_ok settings _ _ hpasses ⟨hglobals, Pass.fault?_of_runOnFunctions hsweep⟩

/-- A function that stores a literal in a future of its own and negates it. -/
def negatesStored : Function where
  name := "f"
  inputs := []
  outputs := [⟨"o", .future .int, .stack, .outArg, .user⟩]
  target := .control
  block :=
    let o : Var := ⟨"o", .future .int, .stack, .outArg, .user⟩
    let y := Var.future "y" .int
    .mk [y] (.instr (.storeScalar y (.lit (.int 5)))
      (.instr (.compute .later .neg o [.var y]) .done))

/-- A table with the constant that holds five. -/
def holdsFive : Constants :=
  Constants.empty.insert
    ⟨⟨"__c:i:5", .future .int, .globalConst, .globalConst, .unknown⟩, .lit (.int 5)⟩

/-- With the constant in the table, the function reads it in place of its own
future. -/
theorem stays_accepted_holdsFive :
    let first := Numbering.run { constantFold := false } .empty holdsFive negatesStored
    first.result = .ok (⟨0, 1, 0, 0, 0, 0⟩, .empty)
      ∧ (∃ r, (Numbering.run { constantFold := false } .empty
        (holdsFive.merge .empty) first.function).result
        = .ok r)
      ∧ ∃ stats, ((Optimizer.new { constantFold := false }).optimize
        ⟨[negatesStored], holdsFive, .empty⟩).result = .ok stats := by
  have hglobals : holdsFive.Flagged := Constants.flagged_empty.insert rfl trivial
  have hrun : (Numbering.run { constantFold := false } .empty holdsFive negatesStored).result
      = .ok (⟨0, 1, 0, 0, 0, 0⟩, .empty) := by decide +kernel
  obtain ⟨hagain, hoptimize⟩ := stays_accepted { constantFold := false } .empty holdsFive hglobals
  refine ⟨hrun, ((hagain negatesStored _ _ hrun).2 _).1, hoptimize [negatesStored] ⟨_, rfl⟩ _ ?_⟩
  intro p hp
  simp only [List.mem_cons, List.not_mem_nil, or_false] at hp
  rcases hp with rfl | rfl
  · exact Constants.flagged_empty
  · trivial

/-- **A table that gives a variable without the mark for the constant** makes
the function read a variable that is declared nowhere, and the second run
refuses it. -/
theorem undeclared_of_unflagged :
    let table : Constants :=
      ⟨Dict.empty.insert "__c:i:5" ⟨Var.future "q" .int, .lit (.int 5)⟩⟩
    let first := Numbering.run { constantFold := false } .empty table negatesStored
    first.result = .ok (⟨0, 1, 0, 0, 0, 0⟩, .empty)
      ∧ (Numbering.run { constantFold := false } .empty (table.merge .empty) first.function).result
        = .error (.undeclared "q" "f") := by
  decide +kernel

end Optimizer

end ValueFlow
