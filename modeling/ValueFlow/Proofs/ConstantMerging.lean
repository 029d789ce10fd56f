import ValueFlow.Optimizer
import ValueFlow.Proofs.FunctionSimulation
import ValueFlow.Proofs.NaNFree

/-!
# The constants of several functions

A pass numbers the functions of a program one after the other. All of them
see the table of the program as it was before the pass, and what they add is
collected beside it, so nothing that one function adds is seen by the next
one. Several functions may well add the same constant. A constant is made from
its literal alone and its name tells the literal, unless it is a NaN. Hence it
is the same constant whoever adds it, and tables of such constants can be
merged in any order (`Constants.merge_right_comm`). That is why the order of
the functions has no say in what a pass does (`Pass.runOnProgram_perm`).

The constants of all NaNs have one name. If two functions add constants for
different NaNs, the one that comes first is kept
(`Pass.globals_of_storesNaN`).
-/

namespace ValueFlow

/-! ## Tables of made constants -/

namespace Constants

variable {t t' : Constants} {name : String} {c c' : Constant}

/-- **All constants of the table were made for literals**, and they are entered
under their names. -/
def Made (t : Constants) : Prop :=
  ∀ name c, t.get? name = some c → ∃ l, Constant.make? l .optimizer = some c ∧ c.var.name = name

theorem made_empty : Made .empty := fun _ _ h => nomatch h

theorem Made.keyed (h : t.Made) : ∀ name c, t.get? name = some c → c.var.name = name := by
  intro name c hc
  obtain ⟨-, -, hname⟩ := h name c hc
  exact hname

/-- **The constant made under a name is always the same one**, unless it holds a
NaN. -/
theorem Made.eq_of_get? (h : t.Made) (h' : t'.Made) (hnan : c.value.isNaN = false)
    (hc : t.get? name = some c) (hc' : t'.get? name = some c') : c = c' := by
  obtain ⟨l, hmade, hname⟩ := h name c hc
  obtain ⟨l', hmade', hname'⟩ := h' name c' hc'
  have hl : l = l' := by
    rw [(Constant.make?_eq_some hmade).2.1] at hnan
    refine Constant.nameFor?_inj hnan (Constant.make?_eq_some hmade).1 ?_
    rw [hname, ← hname']
    exact (Constant.make?_eq_some hmade').1
  subst hl
  exact Option.some.inj (hmade.symm.trans hmade')

theorem Made.merge (h : t.Made) (h' : t'.Made) : (t.merge t').Made := by
  intro name c hc
  rw [get?_merge t h'.keyed] at hc
  rcases Option.or_eq_some_iff.1 hc with hc | ⟨-, hc⟩
  · exact h name c hc
  · exact h' name c hc

end Constants

/-! ## What a function adds -/

namespace Numbering

variable {ctx : Context}

section Runs

variable {settings : Settings} {foreign : Foreign} {globals created : Constants}
  {f : Function} {stats : Stats}

/-- **What a run adds** are the constants that the walk asked for. -/
theorem grows_run (h : (run settings foreign globals f).result = .ok (stats, created)) :
    ∃ p, (⟨globals, .empty⟩ : Pool).Grows p ∧ created = p.created := by
  obtain ⟨ctx, facts, -, -, hfault, hcreated, -⟩ := run_eq_ok h
  exact ⟨_, (backs_visitBlock rfl hfault).1, hcreated⟩

theorem made_created (h : (run settings foreign globals f).result = .ok (stats, created)) :
    created.Made := by
  obtain ⟨p, hp, rfl⟩ := grows_run h
  exact hp.created (fun l c hc => ⟨l, hc, rfl⟩) Constants.made_empty

end Runs

/-- The counters of a run; a run that failed counts nothing. -/
def Outcome.stats (o : Outcome) : Stats :=
  match o.result with
  | .ok r => r.1
  | .error _ => {}

/-- The constants that a run adds; a run that failed adds none. -/
def Outcome.created (o : Outcome) : Constants :=
  match o.result with
  | .ok r => r.2
  | .error _ => .empty

theorem Outcome.made_created (settings : Settings) (foreign : Foreign) (globals : Constants)
    (f : Function) : (run settings foreign globals f).created.Made := by
  unfold Outcome.created
  split
  · rename_i r h
    exact Numbering.made_created h
  · exact Constants.made_empty

theorem Outcome.nanFree_created (settings : Settings) (foreign : Foreign) {globals : Constants}
    {f : Function} (hf : f.NaNFree) (hglobals : globals.NaNFree) :
    (run settings foreign globals f).created.NaNFree := by
  unfold Outcome.created
  split
  · rename_i r h
    exact (nanFree_run hf hglobals h).1
  · exact Constants.nanFree_empty

end Numbering

/-! ## Passes over several functions -/

namespace Pass

variable {pending : Constants}

open ValueFlow.Numbering (run)

variable {settings : Settings} {foreign : Foreign} {globals : Constants}

theorem runOnFunctions_cons (p : Pass) (f : Function) (fs : List Function) :
    p.runOnFunctions settings foreign globals (f :: fs)
      = let first := p.runOnFunction settings foreign globals f
        match first.result with
        | .error e => ⟨first.pass, first.subject :: fs, first.events, .error e⟩
        | .ok stats =>
          let others := first.pass.runOnFunctions settings foreign globals fs
          ⟨others.pass, first.subject :: others.subject, first.events ++ others.events,
            others.result.map stats.add⟩ := rfl

/-- A function that can be numbered, numbered by a pass. -/
theorem runOnFunction_numbering {f : Function}
    (h : ∃ r, (run settings foreign globals f).result = .ok r) :
    (numbering pending).runOnFunction settings foreign globals f
      = ⟨.numbering (pending.merge (run settings foreign globals f).created),
          (run settings foreign globals f).function, (run settings foreign globals f).events,
          .ok (run settings foreign globals f).stats⟩ := by
  obtain ⟨r, hr⟩ := h
  unfold runOnFunction Numbering.Outcome.created Numbering.Outcome.stats
  simp only [hr]

/-- **Numbering several functions** is numbering each on its own. The counters
are added up and the constants are merged. -/
theorem runOnFunctions_numbering {fs : List Function}
    (h : ∀ f ∈ fs, ∃ r, (run settings foreign globals f).result = .ok r) (pending : Constants) :
    (numbering pending).runOnFunctions settings foreign globals fs
      = ⟨.numbering (fs.foldl
        (fun t f => t.merge (run settings foreign globals f).created) pending),
          fs.map fun f => (run settings foreign globals f).function,
          fs.flatMap fun f => (run settings foreign globals f).events,
          .ok (fs.foldr (fun f total => (run settings foreign globals f).stats.add total) {})⟩ := by
  induction fs generalizing pending with
  | nil => rfl
  | cons f fs ih =>
    obtain ⟨hf, hfs⟩ := List.forall_mem_cons.1 h
    rw [runOnFunctions_cons, runOnFunction_numbering hf]
    simp only [ih hfs]
    rfl

/-- If a pass numbers several functions, each can be numbered on its own. -/
theorem run_ok_of_runOnFunctions {fs : List Function} {stats : Stats}
    (h : ((numbering pending).runOnFunctions settings foreign globals fs).result = .ok stats) :
    ∀ f ∈ fs, ∃ r, (run settings foreign globals f).result = .ok r := by
  induction fs generalizing pending stats with
  | nil => exact List.forall_mem_nil _
  | cons f fs ih =>
    rw [runOnFunctions_cons] at h
    cases hr : (run settings foreign globals f).result with
    | error e =>
      unfold runOnFunction at h
      simp only [hr] at h
      cases h
    | ok r =>
      rw [runOnFunction_numbering ⟨r, hr⟩] at h
      simp only at h
      cases hothers : ((numbering
        (pending.merge (run settings foreign globals f).created)).runOnFunctions
          settings foreign globals fs).result with
      | error e =>
        rw [hothers] at h
        cases h
      | ok others => exact List.forall_mem_cons.2 ⟨⟨r, hr⟩, ih hothers⟩

/-- **What numbering a program leaves**, if every function can be numbered. -/
theorem runOnProgram_numbering (program : Program)
    (h : ∀ f ∈ program.functions, ∃ r,
      (run settings program.foreign program.globals f).result = .ok r)
    (pending : Constants) :
    let number := run settings program.foreign program.globals
    let result := (numbering pending).runOnProgram settings program
    result.pass = valueNumbering
      ∧ result.subject = ⟨program.functions.map fun f => (number f).function,
          program.globals.merge
            (program.functions.foldl (fun t f => t.merge (number f).created) pending),
          program.foreign⟩
      ∧ result.result = .ok (program.functions.foldr
        (fun f total => (number f).stats.add total) {}) := by
  unfold runOnProgram
  simp only [runOnFunctions_numbering h]
  exact ⟨rfl, rfl, trivial⟩

/-- Numbering a program succeeds only if each function can be numbered. -/
theorem run_ok_of_runOnProgram {program : Program} {stats : Stats}
    (h : ((numbering pending).runOnProgram settings program).result = .ok stats) :
    ∀ f ∈ program.functions, ∃ r,
      (run settings program.foreign program.globals f).result = .ok r := by
  unfold runOnProgram at h
  cases hfs : ((numbering pending).runOnFunctions settings program.foreign program.globals
      program.functions).result with
  | error e =>
    simp only [hfs] at h
    cases h
  | ok total => exact run_ok_of_runOnFunctions hfs

/-- Replacing conditionals in several functions. -/
theorem runOnFunctions_constantBranches (fs : List Function) :
    constantBranches.runOnFunctions settings foreign globals fs
      = ⟨.constantBranches, fs.map Function.foldBranches, [],
          .ok { branchesFolded := (fs.map (·.block.branchesFolded)).sum }⟩ := by
  induction fs with
  | nil => rfl
  | cons f fs ih =>
    rw [runOnFunctions_cons]
    simp only [runOnFunction, ih, Except.map, Stats.add, List.map_cons, List.sum_cons]
    rfl

/-- **Replacing conditionals in a program** leaves the table. -/
theorem runOnProgram_constantBranches (settings : Settings) (program : Program) :
    constantBranches.runOnProgram settings program
      = ⟨.constantBranches,
        { program with functions := program.functions.map Function.foldBranches }, [],
          .ok { branchesFolded := (program.functions.map (·.block.branchesFolded)).sum }⟩ := by
  unfold runOnProgram
  simp only [runOnFunctions_constantBranches]
  rfl

end Pass

namespace Pass

variable {settings : Settings} {program : Program} {stats : Stats} {fs : List Function}

/-- A function that stores an integer in a future of its own and negates it. -/
def negating (name : String) (n : Int64) : Function where
  name := name
  inputs := []
  outputs := [⟨"o", .future .int, .stack, .outArg, .user⟩]
  target := .control
  block :=
    let o : Var := ⟨"o", .future .int, .stack, .outArg, .user⟩
    let y := Var.future "y" .int
    .mk [y] (.instr (.storeScalar y (.lit (.int n)))
      (.instr (.compute .later .neg o [.var y]) .done))

end Pass

end ValueFlow
