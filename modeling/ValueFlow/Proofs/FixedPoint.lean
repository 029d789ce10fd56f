import ValueFlow.Proofs.Counters

/-!
# The optimiser stops at a fixed point

The optimiser stops when a round counts no change. The counters are faithful,
so the functions are as they were before this round; but the round may have
added constants to the table. What it added is what its functions asked for,
and a function that is numbered with a table that has these constants already
is numbered in the same way. So the next round does what the last one did: it
changes nothing, and this time it adds nothing either (`Optimizer.round_again`).

For this the constants that the program mentions have to be in its table, those
included that only the table mentions (`Program.Closed`). If the table gives
the name of one literal to the constant of another one, the name may get an
entry in the last round, and then it is the constant of that entry that the
next round finds (`Optimizer.changed_of_misnamed`). The program must not hold
NaNs either: they share a name, and of the constants that two functions add
under it the table gets only one.
-/

namespace ValueFlow

/-! ## Closed programs -/

/-- The variable is no constant, or it is entered. -/
def Constants.Enters (t : Constants) (v : Var) : Prop :=
  v.isGlobalConst = true → (t.get? v.name).isSome = true

instance (t : Constants) (v : Var) : Decidable (t.Enters v) := inferInstanceAs (Decidable (_ → _))

/-- **The constants that the functions mention are in the table.** -/
def Program.Enters (program : Program) : Prop :=
  ∀ f ∈ program.functions, ∀ v ∈ f.occurrences, program.globals.Enters v

/-- **All constants that a program mentions are in its table**, also those that
the table mentions, as the variable or as the value of an entry. -/
structure Program.Closed (program : Program) : Prop where
  functions : program.Enters
  globals : ∀ c ∈ program.globals.table.values, ∀ v ∈ c.var :: c.value.var?.toList,
    program.globals.Enters v

instance (program : Program) : Decidable program.Enters :=
  inferInstanceAs (Decidable
    (∀ f ∈ program.functions, ∀ v ∈ f.occurrences, program.globals.Enters v))

instance (program : Program) : Decidable program.Closed :=
  decidable_of_iff (program.Enters ∧ ∀ c ∈ program.globals.table.values,
    ∀ v ∈ c.var :: c.value.var?.toList,
    program.globals.Enters v) ⟨fun h => ⟨h.1, h.2⟩, fun h => ⟨h.functions, h.globals⟩⟩

/-- Nothing is loose. -/
def nothing (_ : String) : Prop := False

namespace Constants

variable {t created : Constants}

theorem grounds_iff_enters {v : Var} : t.pool.Grounds nothing v ↔ t.Enters v := by
  unfold Pool.Grounds Enters
  rw [get?_pool]
  refine imp_congr_right fun _ => ?_
  rw [Option.isSome_iff_exists]
  exact or_iff_left id

theorem Within.enters {t' : Constants} {v : Var} (h : t.Within t') (hv : t.Enters v) :
    t'.Enters v :=
  grounds_iff_enters.1 ((grounds_iff_enters.2 hv).mono h.pool)

theorem grounded_iff : t.pool.Grounded nothing
    ↔ ∀ c ∈ t.table.values, ∀ v ∈ c.var :: c.value.var?.toList, t.Enters v := by
  constructor
  · intro h c hc
    obtain ⟨e, he, rfl⟩ := List.mem_map.1 hc
    obtain ⟨hvar, hvalue⟩ := h e.1 e.2 ((t.get?_pool _).trans (Dict.get?_of_mem_entries he))
    refine List.forall_mem_cons.2 ⟨grounds_iff_enters.1 hvar, fun v hv => ?_⟩
    exact grounds_iff_enters.1 (Operand.all_iff.1 hvalue v hv)
  · intro h name c hc
    rw [get?_pool] at hc
    have hall := h c (List.mem_map.2 ⟨_, Dict.mem_entries_of_get? hc, rfl⟩)
    obtain ⟨hvar, hvalue⟩ := List.forall_mem_cons.1 hall
    exact ⟨grounds_iff_enters.2 hvar, Operand.all_iff.2
      fun v hv => grounds_iff_enters.2 (hvalue v hv)⟩

/-- A table stays closed when made constants are merged into it. -/
theorem grounded_merge {loose : String → Prop} (h : t.pool.Grounded loose) (hmade : created.Made) :
    (t.merge created).pool.Grounded loose := by
  intro name c hc
  rw [get?_pool, get?_merge t hmade.keyed] at hc
  rcases Option.or_eq_some_iff.1 hc with hold | ⟨-, hnew⟩
  · obtain ⟨hvar, hvalue⟩ := h name c ((t.get?_pool name).trans hold)
    have hwithin := (within_merge t hmade).pool
    exact ⟨hvar.mono hwithin, hvalue.mono fun _ hv => hv.mono hwithin⟩
  · obtain ⟨l, hmake, rfl⟩ := hmade name c hnew
    rw [(Constant.make?_eq_some hmake).2.1]
    refine ⟨fun _ => .inl ⟨c, ?_⟩, trivial⟩
    rw [get?_pool, get?_merge t hmade.keyed]
    exact hc

theorem NaNFree.merge (h : t.NaNFree) (h' : created.NaNFree) (hmade : created.Made) :
    (t.merge created).NaNFree := by
  intro name c hc
  rw [get?_merge t hmade.keyed] at hc
  rcases Option.or_eq_some_iff.1 hc with hold | ⟨-, hnew⟩
  · exact h name c hold
  · exact h' name c hnew

end Constants

namespace Optimizer

variable {settings : Settings} {program : Program} {stats : Stats} {iteration : Nat}

open ValueFlow.Numbering (run)

/-! ## Rounds of the default passes -/

/-- Everything that the functions of a program add when they are numbered. -/
def added (settings : Settings) (program : Program) : Constants :=
  program.functions.foldl
    (fun t f => t.merge (run settings program.foreign program.globals f).created) .empty

theorem made_added (settings : Settings) (program : Program) : (added settings program).Made :=
  (Constants.within_foldl_merge
    (Numbering.Outcome.made_created settings program.foreign program.globals)
    program.functions Constants.made_empty).1

theorem nanFree_added (hnan : program.NaNFree) : (added settings program).NaNFree :=
  List.foldlRecOn _ _ Constants.nanFree_empty fun _ ht f hf =>
    ht.merge (Numbering.Outcome.nanFree_created _ _ (hnan.functions f hf) hnan.globals)
      (Numbering.Outcome.made_created _ _ _ f)

theorem within_added (hnan : program.NaNFree) {f : Function} (hf : f ∈ program.functions) :
    (program.globals.merge (run settings program.foreign program.globals f).created).Within
      (program.globals.merge (added settings program)) := by
  obtain ⟨hmade, -, hwithin⟩ := Constants.within_foldl_merge
    (Numbering.Outcome.made_created settings program.foreign program.globals) program.functions
    Constants.made_empty
  refine Constants.Within.merge program.globals (fun name c hc => ?_)
    (Numbering.Outcome.made_created _ _ _ f) hmade
  obtain ⟨d, hd, hsame⟩ := hwithin f hf name c hc
  obtain rfl := hsame
    (Numbering.Outcome.nanFree_created _ _ (hnan.functions f hf) hnan.globals name c hc)
  exact hd

/-- The counters of a round, if every function can be numbered. -/
def counted (settings : Settings) (program : Program) : Stats :=
  (program.functions.foldr
    (fun f total => (run settings program.foreign program.globals f).stats.add total) {}).add
    { branchesFolded := (program.functions.map fun f =>
        (run settings program.foreign program.globals f).function.block.branchesFolded).sum }

/-- The program behind a round, if every function can be numbered. -/
def rewritten (settings : Settings) (program : Program) : Program :=
  ⟨program.functions.map
    fun f => (run settings program.foreign program.globals f).function.foldBranches,
    program.globals.merge (added settings program), program.foreign⟩

/-- Every function of the program can be numbered. -/
def Numbers (settings : Settings) (program : Program) : Prop :=
  ∀ f ∈ program.functions, ∃ r, (run settings program.foreign program.globals f).result = .ok r

/-- **A round of the default passes** in which every function can be numbered. -/
theorem round_eq (h : Numbers settings program) (iteration : Nat) :
    let result := round settings iteration (new settings).passes program
    result.passes = (new settings).passes ∧ result.program = rewritten settings program
      ∧ result.result = .ok (counted settings program) := by
  obtain ⟨hpass, hsubject, hresult⟩ := Pass.runOnProgram_numbering program h .empty
  have hpass' : (Pass.valueNumbering.runOnProgram settings program).pass = .valueNumbering := hpass
  have hsubject' := show (Pass.valueNumbering.runOnProgram settings program).subject
    = _ from hsubject
  have hresult' := show (Pass.valueNumbering.runOnProgram settings program).result = _ from hresult
  unfold new
  simp only [round, hresult', hpass', hsubject', Pass.runOnProgram_constantBranches, List.map_map]
  exact ⟨trivial, rfl, rfl⟩

theorem numbers_of_round
    (h : (round settings iteration (new settings).passes program).result = .ok stats) :
    Numbers settings program := by
  unfold new at h
  rw [round] at h
  cases hr : (Pass.valueNumbering.runOnProgram settings program).result with
  | error e =>
    simp only [hr] at h
    cases h
  | ok total => exact Pass.run_ok_of_runOnProgram hr

theorem nanFree_rewritten (hnan : program.NaNFree) (h : Numbers settings program) :
    (rewritten settings program).NaNFree where
  functions g hg := by
    obtain ⟨f, hf, rfl⟩ := List.mem_map.1 hg
    obtain ⟨r, hr⟩ := h f hf
    exact (Numbering.nanFree_run (hnan.functions f hf) hnan.globals hr).2.foldBranches
  globals := hnan.globals.merge (nanFree_added hnan) (made_added settings program)

/-- **A round leaves a closed program.** -/
theorem closed_rewritten (hclosed : program.Closed) (hnan : program.NaNFree)
    (h : Numbers settings program) : (rewritten settings program).Closed := by
  have htable := Constants.grounded_iff.2 hclosed.globals
  refine ⟨fun g hg => ?_,
    Constants.grounded_iff.1 (Constants.grounded_merge htable (made_added settings program))⟩
  obtain ⟨f, hf, rfl⟩ := List.mem_map.1 hg
  obtain ⟨r, hr⟩ := h f hf
  have hcreated : (run settings program.foreign program.globals f).created = r.2 := by
    unfold Numbering.Outcome.created
    rw [hr]
  obtain ⟨-, hmentions⟩ := Numbering.mentions_run htable
    (fun v hv => Constants.grounds_iff_enters.2 (hclosed.functions f hf v hv)) hr
  rw [← hcreated] at hmentions
  refine Function.occurrences_foldBranches fun v hv => ?_
  exact (within_added hnan hf).enters (Constants.grounds_iff_enters.1 (hmentions v hv))

end Optimizer

/-! ## A round without changes -/

theorem Stats.changed_add {a b : Stats} :
    (a.add b).changed = false ↔ a.changed = false ∧ b.changed = false := by
  unfold changed add
  simp only [decide_eq_false_iff_not]
  omega

theorem Stats.changed_foldr {fs : List Function} {stats : Function → Stats} :
    (fs.foldr (fun f total => (stats f).add total) {}).changed = false
      ↔ ∀ f ∈ fs, (stats f).changed = false := by
  induction fs with
  | nil => exact ⟨fun _ => List.forall_mem_nil _, fun _ => rfl⟩
  | cons f fs ih => rw [List.foldr_cons, Stats.changed_add, ih, List.forall_mem_cons]

namespace Optimizer

variable {settings : Settings} {program : Program} {stats : Stats} {iteration : Nat}

open ValueFlow.Numbering (run)

/-- **If a round counts no change, every function is as it was.** -/
theorem function_of_unchanged (h : Numbers settings program)
    (hunchanged : (counted settings program).changed = false) :
    ∀ f ∈ program.functions, (run settings program.foreign program.globals f).function = f
      ∧ f.foldBranches = f := by
  intro f hf
  obtain ⟨hnumbered, hfolded⟩ := Stats.changed_add.1 hunchanged
  obtain ⟨r, hr⟩ := h f hf
  have hstats := Stats.changed_foldr.1 hnumbered f hf
  have hfunction : (run settings program.foreign program.globals f).function = f := by
    refine Numbering.function_run_of_unchanged hr ?_
    unfold Numbering.Outcome.stats at hstats
    rw [hr] at hstats
    exact hstats
  have hzero := (Stats.changed_eq_false.1 hfolded).2
  have hblock := List.sum_eq_zero_iff_forall_eq_nat.1 hzero _ (List.mem_map.2 ⟨f, hf, rfl⟩)
  rw [hfunction] at hblock
  exact ⟨hfunction, congrArg (fun b => { f with block := b }) (f.block.foldBranches_of_zero hblock)⟩

/-- **The round after one without changes** is the same, and it adds no
constants. -/
theorem round_again (hclosed : program.Closed) (hnan : program.NaNFree)
    (h : Numbers settings program) (hunchanged : (counted settings program).changed = false) :
    Numbers settings (rewritten settings program)
      ∧ rewritten settings (rewritten settings program) = rewritten settings program
      ∧ counted settings (rewritten settings program) = counted settings program := by
  have hsame := function_of_unchanged h hunchanged
  have hfunctions : (rewritten settings program).functions = program.functions := by
    refine (List.map_congr_left fun f hf => ?_).trans (List.map_id _)
    rw [(hsame f hf).1, (hsame f hf).2, id]
  have hrun : ∀ f ∈ program.functions,
        run settings program.foreign (rewritten settings program).globals f
      = { run settings program.foreign program.globals f with
          result := .ok ((run settings program.foreign program.globals f).stats, .empty) } := by
    intro f hf
    obtain ⟨r, hr⟩ := h f hf
    have hstats : (run settings program.foreign program.globals f).stats = r.1 := by
      unfold Numbering.Outcome.stats
      rw [hr]
    have hcreated : (run settings program.foreign program.globals f).created = r.2 := by
      unfold Numbering.Outcome.created
      rw [hr]
    rw [hstats]
    refine Numbering.run_of_within (Constants.grounded_iff.2 hclosed.globals)
      (fun v hv => Constants.grounds_iff_enters.2 (hclosed.functions f hf v hv))
      hr (fun _ => False.elim) ?_
    rw [← hcreated]
    exact within_added hnan hf
  have hadded : added settings (rewritten settings program) = .empty := by
    unfold added
    rw [hfunctions]
    refine (List.foldl_ext _ (fun t _ => t) _ fun t f hf => ?_).trans (List.foldl_fixed _)
    exact congrArg (fun o => t.merge o.created) (hrun f hf)
  refine ⟨?_, ?_, ?_⟩
  · intro f hf
    rw [hfunctions] at hf
    exact ⟨_, congrArg Numbering.Outcome.result (hrun f hf)⟩
  · have hprogram : rewritten settings program
        = ⟨program.functions, (rewritten settings program).globals, program.foreign⟩ := by
      rw [← hfunctions]
      rfl
    refine Eq.trans ?_ hprogram.symm
    rw [rewritten, hadded, hfunctions]
    refine congrArg (fun fs => Program.mk fs _ _)
      ((List.map_congr_left fun f hf => ?_).trans (List.map_id _))
    exact (congrArg (fun o => o.function.foldBranches) (hrun f hf)).trans
      ((congrArg Function.foldBranches (hsame f hf).1).trans (hsame f hf).2)
  · rw [counted, hfunctions]
    refine congrArg₂ Stats.add ?_ ?_
    · exact List.foldr_ext _ _ _ fun f hf total => congrArg (fun o => o.stats.add total) (hrun f hf)
    · have hfolded := List.map_congr_left fun f hf =>
        congrArg (fun o : Numbering.Outcome => o.function.block.branchesFolded) (hrun f hf)
      exact congrArg (fun ns : List Nat => ({ branchesFolded := ns.sum } : Stats)) hfolded

/-! ## Rounds -/

/-- The counters of the rounds that are run through, in order. -/
def iterations (settings : Settings) :
    (rounds : Nat) → (iteration : Nat) → List Pass → Program → List Stats
  | 0, _, _, _ => []
  | n + 1, iteration, passes, program =>
    let first := round settings iteration passes program
    match first.result with
    | .error _ => []
    | .ok stats =>
      stats :: if stats.changed then iterations settings
        n (iteration + 1) first.passes first.program else []

theorem exists_of_map {r : Except Fault Stats} {add : Stats → Stats} (h : r.map add = .ok stats) :
    ∃ others, r = .ok others ∧ add others = stats := by
  cases r with
  | error e => cases h
  | ok others => exact ⟨others, rfl, Except.ok.inj h⟩

/-- A run of the default passes whose first round counts a change. -/
theorem rounds_of_changed (h : Numbers settings program)
    (hchanged : (counted settings program).changed = true) (n iteration : Nat) :
    let run := rounds settings (n + 1) iteration (new settings).passes program
    let others := rounds settings n (iteration + 1) (new settings).passes
      (rewritten settings program)
    run.passes = others.passes ∧ run.program = others.program
      ∧ run.result = others.result.map (counted settings program).add
      ∧ iterations settings (n + 1) iteration (new settings).passes program
        = counted settings program
        :: iterations settings n (iteration + 1) (new settings).passes
          (rewritten settings program) := by
  obtain ⟨hpasses, hprogram, hresult⟩ := round_eq h iteration
  simp only [rounds, iterations, hpasses, hprogram, hresult, if_pos hchanged, and_self]

/-- A run of the default passes whose first round counts no change. -/
theorem rounds_of_unchanged (h : Numbers settings program)
    (hunchanged : (counted settings program).changed = false) (n iteration : Nat) :
    let run := rounds settings (n + 1) iteration (new settings).passes program
    run.passes = (new settings).passes ∧ run.program = rewritten settings program
      ∧ run.result = .ok (counted settings program) := by
  obtain ⟨hpasses, hprogram, hresult⟩ := round_eq h iteration
  have hif : ¬(counted settings program).changed = true := by
    rw [hunchanged]
    exact Bool.false_ne_true
  simp only [rounds, hpasses, hprogram, hresult, if_neg hif, and_self]

theorem numbers_of_rounds {n : Nat}
    (h : (rounds settings (n + 1) iteration (new settings).passes program).result = .ok stats) :
    Numbers settings program := by
  rw [rounds] at h
  cases hr : (round settings iteration (new settings).passes program).result with
  | error e =>
    simp only [hr] at h
    cases h
  | ok first => exact numbers_of_round hr

/-- **A run that stops by itself** has had a round without changes on a closed
program. -/
theorem exists_unchanged (n : Nat) {iteration : Nat} {program : Program} {stats : Stats}
    (hclosed : program.Closed) (hnan : program.NaNFree)
    (h : (rounds settings (n + 1) iteration (new settings).passes program).result = .ok stats)
    (hlast : ∀ last ∈ (iterations settings (n + 1) iteration
      (new settings).passes program).getLast?,
      last.changed = false) :
    let run := rounds settings (n + 1) iteration (new settings).passes program
    run.passes = (new settings).passes
      ∧ ∃ p : Program, p.Closed ∧ p.NaNFree ∧ Numbers settings p
        ∧ (counted settings p).changed = false
        ∧ run.program = rewritten settings p := by
  have hnumbers := numbers_of_rounds h
  by_cases hc : (counted settings program).changed = true
  · obtain ⟨hpasses, hprogram, hresult, hiterations⟩ := rounds_of_changed hnumbers hc n iteration
    simp only [hpasses, hprogram]
    rw [hiterations, List.getLast?_cons] at hlast
    cases n with
    | zero =>
      -- The only round counts a change.
      rw [show (counted settings program).changed = false from hlast _ rfl] at hc
      cases hc
    | succ n =>
      obtain ⟨others, hothers, -⟩ := exists_of_map (hresult.symm.trans h)
      refine exists_unchanged n (closed_rewritten hclosed hnan hnumbers)
        (nanFree_rewritten hnan hnumbers) hothers fun last hlast' => hlast last ?_
      rw [Option.mem_def.1 hlast']
      rfl
  · have hunchanged := Bool.eq_false_iff.2 hc
    obtain ⟨hpasses, hprogram, -⟩ := rounds_of_unchanged hnumbers hunchanged n iteration
    exact ⟨hpasses, program, hclosed, hnan, hnumbers, hunchanged, hprogram⟩

/-- A run behind one that stopped by itself changes nothing. -/
theorem rounds_again (n : Nat) (hclosed : program.Closed) (hnan : program.NaNFree)
    (h : (rounds settings n iteration (new settings).passes program).result = .ok stats)
    (hlast : ∀ last ∈ (iterations settings n iteration (new settings).passes program).getLast?,
      last.changed = false) :
    let after := rounds settings n iteration (new settings).passes program
    let again := rounds settings n iteration (new settings).passes after.program
    after.passes = (new settings).passes
      ∧ again.program = after.program ∧ ∃ total, again.result = .ok total
        ∧ total.changed = false := by
  cases n with
  | zero => exact ⟨rfl, rfl, {}, rfl, rfl⟩
  | succ n =>
    obtain ⟨hpasses, p, hp, hpnan, hnumbers, hunchanged, hprogram⟩ :=
      exists_unchanged n hclosed hnan h hlast
    obtain ⟨hnumbers', hrewritten, hcounted⟩ := round_again hp hpnan hnumbers hunchanged
    rw [← hcounted] at hunchanged
    obtain ⟨-, hprogram', hresult⟩ := rounds_of_unchanged hnumbers' hunchanged n iteration
    simp only [hprogram]
    exact ⟨hpasses, hprogram'.trans hrewritten, _, hresult, hunchanged⟩

/-- **The optimiser stops at a fixed point** on a closed program without NaNs.
If the last round that was run counted no change, optimising the result once
more, with the same optimiser or with a new one, succeeds, counts no change, and
leaves the functions and the table of constants. -/
theorem optimize_fixed (hclosed : program.Closed) (hnan : program.NaNFree)
    (hok : ((new settings).optimize program).result = .ok stats)
    (hlast : ∀ last ∈ (iterations settings settings.maxIterations
      0 (new settings).passes program).getLast?,
      last.changed = false) :
    let after := (new settings).optimize program
    ∀ o : Optimizer, o = new settings ∨ o = ⟨settings, after.passes⟩ →
      let again := o.optimize after.program
      again.program = after.program ∧ ∃ total, again.result = .ok total
        ∧ total.changed = false := by
  intro after o ho
  obtain ⟨hpasses, hagain⟩ := rounds_again settings.maxIterations hclosed hnan hok hlast
  rcases ho with rfl | rfl
  · exact hagain
  · rw [show after.passes = (new settings).passes from hpasses]
    exact hagain

/-- A program with a function that computes a sum of literals, waits for it, and
stores another literal. -/
def addsThenStores (globals : Constants) : Program :=
  let o : Var := ⟨"o", .future .int, .stack, .outArg, .user⟩
  let y := Var.future "y" .int
  let block := .mk [y] (.instr (.compute .later .add y [.lit (.int 2), .lit (.int 3)])
    (.cont (.deferred (.wait [y] .control .waitOnly) (.mk [] .done))
      (.instr (.storeScalar o (.lit (.int 6))) .done)))
  ⟨[⟨"f", [], [o], .control, block⟩], globals, .empty⟩

/-- The settings with all waits kept. -/
def keepsWaits : Settings := { pruneWaits := false }

theorem optimize_fixed_addsThenStores :
    let program := addsThenStores .empty
    let after := (new keepsWaits).optimize program
    program.Closed ∧ after.result = .ok ⟨0, 0, 0, 1, 0, 0⟩
      ∧ iterations keepsWaits keepsWaits.maxIterations 0 (new keepsWaits).passes program
        = [⟨0, 0, 0, 1, 0, 0⟩, {}]
      ∧ ((new keepsWaits).optimize after.program).program = after.program := by
  have hclosed : (addsThenStores .empty).Closed := by decide +kernel
  have hnan : (addsThenStores .empty).NaNFree := ⟨by decide, Constants.nanFree_empty⟩
  have hok : ((new keepsWaits).optimize (addsThenStores .empty)).result
    = .ok ⟨0, 0, 0, 1, 0, 0⟩ := by decide +kernel
  have hiterations : iterations keepsWaits keepsWaits.maxIterations
        0 (new keepsWaits).passes (addsThenStores .empty)
      = [⟨0, 0, 0, 1, 0, 0⟩, {}] := by decide +kernel
  refine ⟨hclosed, hok, hiterations, (optimize_fixed hclosed hnan hok ?_ _ (.inl rfl)).1⟩
  rw [hiterations]
  intro last hlast
  obtain rfl := Option.some.inj hlast
  rfl

/-- A table that gives the name of the constant six to the constant five. -/
def misnamesFive : Constants :=
  ⟨Dict.empty.insert "__c:i:5"
    ⟨⟨"__c:i:6", .future .int, .globalConst, .globalConst, .unknown⟩, .lit (.int 5)⟩⟩

/-- **A table that gives the name of one constant to another.** All constants
that the function mentions are in the table. The first run stops after a round
that counts no change but adds the constant six. So the second run takes six for
the value of the sum, and counts a change. -/
theorem changed_of_misnamed :
    let program := addsThenStores misnamesFive
    let after := (new keepsWaits).optimize program
    program.Enters ∧ after.result = .ok {}
      ∧ iterations keepsWaits keepsWaits.maxIterations 0 (new keepsWaits).passes program = [{}]
      ∧ ((new keepsWaits).optimize after.program).result = .ok ⟨0, 0, 0, 1, 0, 0⟩
      ∧ ((new keepsWaits).optimize after.program).program.functions ≠ after.program.functions := by
  decide +kernel

end Optimizer

end ValueFlow
