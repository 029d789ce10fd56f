import ValueFlow.Proofs.ExactFolding
import ValueFlow.Proofs.NumberedVisits

/-!
# Programs without NaNs

All NaNs are written alike, so one name stands for the constants of all of
them. Elsewhere a name tells its literal, and for this a run must not meet a
NaN. It does not if neither the instructions of the function nor the constants
of the table hold one: folding makes none (`Builtin.isNaN_fold`), and what
takes the place of an operand is a variable, or an operand or a constant that
was there before.

`Numbering.nanFree_run` says this of a run. The constants that it adds hold no
NaN, and neither does the function that it leaves.
-/

namespace ValueFlow

/-- **No instruction of the function reads a NaN.** -/
def Function.NaNFree (f : Function) : Prop :=
  ∀ i ∈ f.block.instructions, ∀ r ∈ i.reads, r.2.isNaN = false

instance (f : Function) : Decidable f.NaNFree :=
  inferInstanceAs (Decidable (∀ i ∈ f.block.instructions, ∀ r ∈ i.reads, r.2.isNaN = false))

/-- **Neither the functions nor the constants of the program hold a NaN.** -/
structure Program.NaNFree (program : Program) : Prop where
  functions : ∀ f ∈ program.functions, f.NaNFree
  globals : program.globals.NaNFree

theorem Constants.nanFree_empty : NaNFree .empty := fun _ _ h => nomatch h

theorem Function.NaNFree.foldBranches {f : Function} (h : f.NaNFree) : f.foldBranches.NaNFree :=
  fun i hi => h i (f.block.instructions_foldBranches hi)

/-- No constant of the pool holds a NaN. -/
structure Pool.NaNFree (p : Pool) : Prop where
  globals : p.globals.NaNFree
  created : p.created.NaNFree

namespace Pool.NaNFree

variable {p : Pool}

theorem get? (hp : p.NaNFree) {name : String} {c : Constant} (hc : p.get? name = some c) :
    c.value.isNaN = false := by
  rcases Option.or_eq_some_iff.1 hc with hc | ⟨-, hc⟩
  · exact hp.globals name c hc
  · exact hp.created name c hc

theorem getOrCreate (hp : p.NaNFree) {l : Literal} (hl : l.isNaN = false) :
    (p.getOrCreate l).2.NaNFree := by
  refine ⟨globals_getOrCreate p l ▸ hp.globals, ?_⟩
  show ([l].foldl (fun p l => (p.getOrCreate l).2) p).created.NaNFree
  refine created_foldl (List.forall_mem_singleton.2 fun c hc => ?_) hp.created
  rwa [(Constant.make?_eq_some hc).2.1]

theorem valueOf? (hp : p.NaNFree) {v : Var} {a : Operand} (ha : p.valueOf? v = some a) :
    a.isNaN = false := by
  obtain ⟨-, c, hc, rfl⟩ := valueOf?_eq_some ha
  exact hp.get? hc

/-- What literals and constants hold is no NaN if the literals are none. -/
theorem mapM_literal? (hp : p.NaNFree) {inputs lits : List Operand}
    (h : inputs.mapM p.literal? = some lits) (hin : ∀ a ∈ inputs, a.isNaN = false) :
    ∀ a ∈ lits, a.isNaN = false := by
  induction mapM_eq_some.1 h with
  | nil => exact List.forall_mem_nil _
  | @cons a b _ _ hb hbs ih =>
    obtain ⟨ha, hin⟩ := List.forall_mem_cons.1 hin
    refine List.forall_mem_cons.2 ⟨?_, ih (mapM_eq_some.2 hbs) hin⟩
    cases a with
    | var v => exact hp.valueOf? hb
    | lit l => exact Option.some.inj hb ▸ ha

end Pool.NaNFree

theorem Builtin.isNaN_foldOperands {op : Builtin} {inputs : List Operand} {l : Literal}
    (h : op.foldOperands inputs = some l) (hin : ∀ a ∈ inputs, a.isNaN = false) :
    l.isNaN = false := by
  obtain ⟨xs, rfl, hfold⟩ := foldOperands_eq_some h
  exact isNaN_fold (fun x hx => hin (.lit x) (List.mem_map_of_mem hx)) hfold

namespace Numbering

/-- **The state knows of no NaN**: none stands for something else, and no
constant holds one. -/
structure State.NaNFree (s : State) : Prop where
  stand : s.facts.Stand fun a => a.isNaN = false
  pool : s.pool.NaNFree

section Visit

variable {ctx : Context} {block : Nat} {removable : Bool}
  {sig : Signature} {s : State} {i : Instruction}

theorem nanFree_constantFor (hs : s.pool.NaNFree) {l : Literal} (hl : l.isNaN = false) :
    (constantFor l s).2.pool.NaNFree ∧ ∀ rep, (constantFor l s).1 = some rep →
    rep.isNaN = false := by
  refine ⟨hs.getOrCreate hl, fun rep hrep => ?_⟩
  obtain ⟨v, -, rfl⟩ := Option.map_eq_some_iff.1 hrep
  rfl

/-- **What follows from a signature without NaNs** is no NaN, and neither is
what a constant holds that is made for it. -/
theorem nanFree_resolve (ctx : Context) (hs : s.pool.NaNFree)
    (hsig : ∀ a ∈ sig.inputs, a.isNaN = false) :
    (resolve ctx sig s).2.pool.NaNFree ∧ ∀ rep, (resolve ctx sig s).1 = some rep →
    rep.isNaN = false := by
  have hnone : s.pool.NaNFree ∧ ∀ rep : Operand, none = some rep → rep.isNaN = false :=
    ⟨hs, fun _ h => nomatch h⟩
  unfold resolve
  split
  · rename_i hin
    rw [hin] at hsig
    split
    · exact nanFree_constantFor hs (hsig _ (List.mem_singleton_self _))
    · exact hnone
  · exact ⟨hs, fun rep hrep => hs.valueOf? hrep⟩
  · exact ⟨hs, fun rep hrep => Option.some.inj hrep ▸ rfl⟩
  · refine ⟨hs, fun rep hrep => ?_⟩
    split at hrep
    · obtain ⟨l, hl, rfl⟩ := Option.map_eq_some_iff.1 hrep
      exact Builtin.isNaN_foldOperands hl hsig
    · cases hrep
  · split
    · split
      · rename_i l hl
        obtain ⟨lits, hlits, hl⟩ := Option.bind_eq_some_iff.1 hl
        exact nanFree_constantFor hs (Builtin.isNaN_foldOperands hl (hs.mapM_literal? hlits hsig))
      · exact hnone
    · exact hnone
  · exact hnone

namespace State.NaNFree

/-- Taking note of a value that is told without NaNs. -/
theorem bind (hs : s.NaNFree) {value : Signature × Binding}
    (hsig : ∀ a ∈ value.1.inputs, a.isNaN = false) (hbinding : value.2.operand.isNaN = false) :
    (Numbering.bind ctx block removable s value).NaNFree := by
  obtain ⟨sig, binding⟩ := value
  replace hsig : ∀ a ∈ (s.facts.canonicalize sig).inputs, a.isNaN = false :=
    Signature.forall_mapInputs (Q := fun a => a.isNaN = false) hsig
      fun _ => hs.stand.canonicalOperand
  cases binding with
  | known src =>
    show (bindKnown ctx (s.facts.canonicalize sig) src s).NaNFree
    rcases bindKnown_cases ctx (s.facts.canonicalize sig) src s with heq | ⟨-, -, heq⟩
    · rw [heq]
      exact hs
    · rw [heq]
      exact ⟨hs.stand.record _ _ (hs.stand.canonicalOperand hbinding), hs.pool⟩
  | output out =>
    show (bindOutput ctx block removable (s.facts.canonicalize sig) out s).NaNFree
    obtain ⟨hpool, hrep⟩ := nanFree_resolve ctx hs.pool hsig
    rcases bindOutput_cases ctx block removable (s.facts.canonicalize sig) out s with heq |
      ⟨rep, hfinds, -, hfacts, hpool', -⟩ | ⟨-, -, heq⟩
    · rw [heq]
      refine ⟨?_, hpool⟩
      rw [facts_resolve]
      exact hs.stand
    · refine ⟨?_, hpool' ▸ hpool⟩
      rw [hfacts]
      exact hs.stand.setCanonical out (hfinds.elim (hrep rep) fun h => hs.stand.of_lookup h.2)
    · rw [heq]
      exact ⟨hs.stand.record _ _ rfl, hpool⟩

theorem replace (hs : s.NaNFree) (role : Role) {a : Operand} (ha : a.isNaN = false) :
    (Numbering.replace s.facts role a).isNaN = false := by
  rcases replace_cases s.facts role a with heq | ⟨v, rep, -, hrep, heq⟩
  · rwa [heq]
  · rw [heq]
    exact hs.stand.of_canonical? hrep

/-- **A visit meets no NaN** and leaves an instruction that reads none. -/
theorem visitInstruction (hs : s.NaNFree) (hi : ∀ r ∈ i.reads, r.2.isNaN = false)
    (hf : (visitInstruction ctx block i s).fault = none) :
    (Numbering.visitInstruction ctx block i s).state.NaNFree
      ∧ ∀ r ∈ (Numbering.visitInstruction ctx block i s).tree.reads, r.2.isNaN = false := by
  obtain ⟨facts, removable, values, -, hdefine, -, hvalues, heq⟩ := visitInstruction_cases hf
  have hreads : ∀ r ∈ (i.mapOperands (Numbering.replace s.facts)).reads, r.2.isNaN = false :=
    Instruction.forall_reads_mapOperands (Q := fun a => a.isNaN = false) hi
      fun role _ => hs.replace role
  have hcarried : (carriedOut ctx i facts s).NaNFree := by
    obtain ⟨hfacts, hpool, -⟩ := carriedOut_phases ctx i facts s
    obtain ⟨rfl, -, -⟩ := Congruence.foldlM_define_eq_ok hdefine
    have hdefined : Congruence.Stand (fun a => a.isNaN = false)
        { s.facts with top.defined := (i.assigned.map (·.name)).reverse ++ s.facts.top.defined } :=
      hs.stand.of_level rfl rfl rfl
    exact ⟨hfacts ▸ hdefined.invalidateAll _ _, hpool ▸ hs.pool⟩
  have hsignatures :=
    Instruction.forall_signatures (Q := fun a => a.isNaN = false) hreads (fun _ _ => rfl) hvalues
  have hbound : (values.foldl (Numbering.bind ctx block removable)
      (carriedOut ctx i facts s)).NaNFree :=
    List.foldlRecOn values _ hcarried fun s hs value hvalue =>
      hs.bind (hsignatures value hvalue).1 (hsignatures value hvalue).2
  obtain ⟨hfacts, hpool, -, hcases⟩ :=
    foldIf_cases ctx block (i.mapOperands (Numbering.replace s.facts))
      (values.foldl (Numbering.bind ctx block removable) (carriedOut ctx i facts s))
  rw [heq]
  dsimp only
  refine ⟨⟨?_, hpool ▸ hbound.pool⟩, ?_⟩
  · rw [hfacts]
    obtain ⟨hlevel, -, -, hcanonical, hentries, -⟩ := Congruence.foldl_close_spec _ _
    exact hbound.stand.of_level hlevel.outer hcanonical hentries
  · rcases hcases with ⟨htree, -⟩ | ⟨dst, l, -, hl, htree | htree, -⟩
    · rwa [htree]
    · rwa [htree]
    · rw [htree]
      exact List.forall_mem_singleton.2 (hbound.stand.of_canonical? hl)

end State.NaNFree

end Visit

/-- **The walk meets no NaN.** -/
theorem upheld_nanFree (ctx : Context) :
    Upheld ctx (.ofInstructions fun _ i => ∀ r ∈ i.reads, r.2.isNaN = false) State.NaNFree where
  quiet hs hq := ⟨hq.facts ▸ hs.stand, hq.pool ▸ hs.pool⟩
  declare {s vars} hs _ := by
    obtain ⟨ho, -, -, hcanonical, hvalues, -⟩ := foldl_declare_spec vars s.facts
    exact ⟨hs.stand.of_level ho hcanonical hvalues, hs.pool⟩
  instruction hs hi hf := (hs.visitInstruction hi hf).1
  push kind hs := ⟨hs.stand.push kind, hs.pool⟩
  defer {s trigger} hs _ _ hf := by
    have hpool : (enterDeferred ctx trigger s).state.pool = s.pool :=
      congrArg Prod.fst (enterDeferred_frame trigger s).2
    exact ⟨stand_enterDeferred hs.stand hf, hpool ▸ hs.pool⟩
  nested hs hs' _ _ :=
    ⟨hs.stand.mergeNested ((hs'.stand _ List.mem_cons_self).mono fun _ ha _ => ha), hs'.pool⟩
  deferred hs hs' _ := ⟨hs.stand.of_level rfl rfl rfl, hs'.pool⟩
  arm hs hs' _ := ⟨hs.stand, hs'.pool⟩
  branches hs harms := by
    refine ⟨hs.stand.mergeBranches (fun first hfirst => ?_) _ _, hs.pool⟩
    obtain ⟨-, s', hs', hfacts⟩ := harms first (List.mem_of_mem_head? hfirst)
    have hstand := hs'.stand first (hfacts ▸ List.mem_cons_self)
    exact hstand.mono fun _ ha _ => ha

section Runs

variable {settings : Settings} {foreign : Foreign} {globals created : Constants}
  {f : Function} {stats : Stats}

/-- **A run on a function without NaNs** adds no constant that holds a NaN, and
leaves a function without NaNs. -/
theorem nanFree_run (hf : f.NaNFree) (hglobals : globals.NaNFree)
    (h : (run settings foreign globals f).result = .ok (stats, created)) :
    created.NaNFree ∧ (run settings foreign globals f).function.NaNFree := by
  obtain ⟨ctx, facts, -, hfacts, hfault, rfl, hfunction⟩ := run_eq_ok h
  have hstart : (opened globals f facts).NaNFree :=
    ⟨stand_opened hfacts _, hglobals, Constants.nanFree_empty⟩
  have hmeets : f.block.Meets
      (.ofInstructions fun _ i => ∀ r ∈ i.reads, r.2.isNaN = false) 0 f.point :=
    Block.meets_ofInstructions.2
      fun e he => hf e.2 (f.block.map_snd_numbered 0 ▸ List.mem_map_of_mem he)
  rw [← point_opened hfacts] at hmeets
  obtain ⟨hafter, -, hran, -⟩ := (upheld_nanFree ctx).visitBlock f.block _ hstart hmeets hfault
  refine ⟨hafter.pool.created, fun j hj => ?_⟩
  rw [hfunction] at hj
  rcases mem_instructions_removeRedundant hj with hj | ⟨k, dst, a, ha, rfl⟩
  · obtain ⟨i, hi, rfl⟩ := exists_site hfault hj
    have hsite := hran i hi
    exact (hsite.before.visitInstruction (hf _ (mem_instructions_of_site hfault hi)) hsite.fault).2
  · -- what is stored is the value of a constant
    obtain ⟨-, hbacks⟩ := backs_visitBlock rfl hfault
    obtain ⟨name, c, hc, rfl⟩ := hbacks _ (mem_of_get? (Option.join_eq_some_iff.1 ha)) a rfl
    exact List.forall_mem_singleton.2 (hafter.pool.get? hc)

end Runs

end Numbering

end ValueFlow
