import ValueFlow.Proofs.GroundedRuns

/-!
# Sound tables of constants

A table of constants is sound if each constant is entered under its own name
and holds a literal, its type is that of a future of this literal, and a name
that belongs to a literal is used for no other one (`Constants.Sound`). The
name that belongs to all NaNs is left out of this. Tables stay sound and only
grow: whatever is asked of a pool, and however many functions and rounds add
their constants to the table, no entry changes or goes
(`Constants.Sound.only_grows`). So a constant that is in the text of a numbered
function can be looked up, unless the text mentioned it before without its
being in the table.
-/

namespace ValueFlow

/-! ## Soundness -/

/-- **The constant may be entered under a name**: the variable has this name and
is marked as a constant, and it is a future of the type of the literal that is
held, which is the literal of the name if the name has one that is no NaN. -/
def Constant.Sound (name : String) (c : Constant) : Prop :=
  c.var.name = name ∧ c.var.definition = .globalConst
    ∧ ∃ l s, c.value = .lit l ∧ l.type? = some s ∧ c.var.ty = .future s
      ∧ ∀ l', l'.isNaN = false → Constant.nameFor? l' = some name → l' = l

theorem Constant.sound_make? {l : Literal} {provenance : Provenance} {c : Constant}
    (h : make? l provenance = some c) : c.Sound c.var.name := by
  obtain ⟨hname, -, -⟩ := make?_eq_some h
  obtain ⟨name, -, h⟩ := Option.bind_eq_some_iff.1 h
  obtain ⟨s, htype, h⟩ := Option.bind_eq_some_iff.1 h
  obtain rfl := Option.some.inj h
  exact ⟨rfl, rfl, l, s, rfl, htype, rfl, fun l' hnan hl' => nameFor?_inj hnan hl' hname⟩

/-- **Every constant of the table may be entered under the name it is entered
under.** -/
def Constants.Sound (t : Constants) : Prop := ∀ name c, t.get? name = some c → c.Sound name

namespace Constants

variable {t t' : Constants}

theorem Made.sound (h : t.Made) : t.Sound := by
  intro name c hc
  obtain ⟨l, hmade, rfl⟩ := h name c hc
  exact Constant.sound_make? hmade

theorem Sound.merge (h : t.Sound) (h' : t'.Made) : (t.merge t').Sound := by
  intro name c hc
  rw [get?_merge t h'.keyed] at hc
  rcases Option.or_eq_some_iff.1 hc with hc | ⟨-, hc⟩
  · exact h name c hc
  · exact h'.sound name c hc

/-- The constants of a sound table speak of themselves only. -/
theorem Sound.grounded (h : t.Sound) (loose : String → Prop) : t.pool.Grounded loose := by
  intro name c hc
  rw [get?_pool] at hc
  obtain ⟨hname, -, l, s, hvalue, -⟩ := h name c hc
  rw [hvalue]
  exact ⟨fun _ => .inl ⟨c, by rw [get?_pool, hname, hc]⟩, trivial⟩

end Constants

/-! ## Questions -/

namespace Pool

/-- The pool after some questions for the constants of literals. -/
def ask (p : Pool) (ls : List Literal) : Pool := ls.foldl (fun p l => (p.getOrCreate l).2) p

theorem grows_ask (p : Pool) (ls : List Literal) : p.Grows (p.ask ls) := ⟨ls, rfl⟩

theorem ask_append_cons (p : Pool) (before later : List Literal) (l : Literal) :
    p.ask (before ++ l :: later) = ((p.ask before).getOrCreate l).2.ask later := List.foldl_append

/-- Every constant of the pool may be entered under its name. -/
def Sound (p : Pool) : Prop := ∀ name c, p.get? name = some c → c.Sound name

variable {p : Pool} {l l' : Literal} {v v' : Var}

theorem Sound.grows {p' : Pool} (h : p.Sound) (hp : p.Grows p') : p'.Sound := by
  intro name c hc
  rcases hp.get?_eq_some hc with hold | ⟨l, hmade, rfl⟩
  · exact h name c hold
  · exact Constant.sound_make? hmade

/-- Only `null` has no constant. -/
theorem exists_nameFor? (h : l ≠ .null) : ∃ name, Constant.nameFor? l = some name := by
  cases l with
  | null => exact absurd rfl h
  | int n => exact ⟨_, rfl⟩
  | float x => exact ⟨_, rfl⟩
  | bool b => exact ⟨_, rfl⟩
  | str s => exact ⟨_, rfl⟩

/-- **The answer to a question** is the variable of the constant that is entered
under the name of the literal. -/
theorem getOrCreate_spec (p : Pool) {name : String} (hname : Constant.nameFor? l = some name) :
    ∃ c, (p.getOrCreate l).1 = some c.var ∧ (p.getOrCreate l).2.get? name = some c := by
  cases hget : p.get? name with
  | some c =>
    rw [getOrCreate_of_get? hname hget]
    exact ⟨c, rfl, hget⟩
  | none =>
    obtain ⟨c, hmade⟩ := Constant.exists_make? hname .optimizer
    obtain rfl := Option.some.inj ((Constant.make?_eq_some hmade).1.symm.trans hname)
    have heq : p.getOrCreate l = (some c.var, { p with created := p.created.insert c }) := by
      unfold getOrCreate
      rw [hname, hmade]
      unfold get? at hget
      simp only [hget]
    rw [heq]
    exact ⟨c, rfl, (get?_insert hget _).trans (if_pos rfl)⟩

/-- The answer to a question has the name of the literal. -/
theorem Sound.nameFor?_of_getOrCreate (hp : p.Sound) (hv : (p.getOrCreate l).1 = some v) :
    Constant.nameFor? l = some v.name := by
  obtain ⟨name, hname⟩ := exists_nameFor? (l := l) (by rintro rfl; cases hv)
  obtain ⟨c, hfst, hget⟩ := p.getOrCreate_spec hname
  obtain rfl := Option.some.inj (hv.symm.trans hfst)
  rw [hname, (hp.grows (.getOrCreate p l) name c hget).1]

/-- **The constant of a literal holds the literal**, whatever is asked later, if
it is no NaN. -/
theorem Sound.valueOf?_getOrCreate (hp : p.Sound) (hl : l ≠ .null) (hnan : l.isNaN = false) :
    ∃ v, (p.getOrCreate l).1 = some v
      ∧ ∀ p', (p.getOrCreate l).2.Grows p' → p'.valueOf? v = some (.lit l) := by
  obtain ⟨name, hname⟩ := exists_nameFor? hl
  obtain ⟨c, hfst, hget⟩ := p.getOrCreate_spec hname
  obtain ⟨hvar, hdefinition, l', s, hvalue, -, -, huse⟩ := hp.grows (.getOrCreate p l) name c hget
  refine ⟨c.var, hfst, fun p' hgrows => ?_⟩
  rw [valueOf?_eq (decide_eq_true hdefinition), hvar, hgrows.get? hget, huse l hnan hname, ← hvalue]
  rfl

/-- **Equal literals share a constant, and different literals have different
ones** if they are not both NaNs, whatever is asked between. -/
theorem Sound.getOrCreate_fst {p' : Pool} (hp : p.Sound) (hgrows : (p.getOrCreate l).2.Grows p')
    (hv : (p.getOrCreate l).1 = some v) (hv' : (p'.getOrCreate l').1 = some v') :
    (l = l' → v = v')
      ∧ (l ≠ l' → l.isNaN = false ∨ l'.isNaN = false → v.name ≠ v'.name) := by
  have hname := hp.nameFor?_of_getOrCreate hv
  have hname' := ((hp.grows (.getOrCreate p l)).grows hgrows).nameFor?_of_getOrCreate hv'
  refine ⟨?_, fun hne hnan heq => hne ?_⟩
  · rintro rfl
    obtain ⟨c, hfst, hget⟩ := p.getOrCreate_spec hname
    rw [getOrCreate_of_get? hname (hgrows.get? hget)] at hv'
    exact Option.some.inj (hv.symm.trans (hfst.trans hv'))
  · rw [← heq] at hname'
    rcases hnan with hnan | hnan
    · exact Constant.nameFor?_inj hnan hname hname'
    · exact (Constant.nameFor?_inj hnan hname' hname).symm

end Pool

/-! ## Rounds of questions -/

namespace Constants

variable {t : Constants}

theorem Sound.pool (h : t.Sound) : t.pool.Sound := by
  intro name c hc
  rw [get?_pool] at hc
  exact h name c hc

/-- **The table after a round** in which several functions ask for constants,
each with a pool of its own, and what they add is merged into the table. -/
def extend (t : Constants) (requests : List (List Literal)) : Constants :=
  t.merge (requests.foldl (fun added ls => added.merge (t.pool.ask ls).created) .empty)

theorem made_ask (t : Constants) (ls : List Literal) : (t.pool.ask ls).created.Made :=
  (t.pool.grows_ask ls).created (fun l _ hc => ⟨l, hc, rfl⟩) made_empty

theorem Sound.extend (h : t.Sound) (requests : List (List Literal)) :
    (t.extend requests).Sound ∧ t.Within (t.extend requests) := by
  obtain ⟨hmade, -, -⟩ := within_foldl_merge (t.made_ask ·) requests made_empty
  exact ⟨h.merge hmade, within_merge t hmade⟩

theorem Sound.foldl_extend (h : t.Sound) (rounds : List (List (List Literal))) :
    (rounds.foldl Constants.extend t).Sound ∧ t.Within (rounds.foldl Constants.extend t) := by
  induction rounds generalizing t with
  | nil => exact ⟨h, .refl t⟩
  | cons requests rounds ih =>
    obtain ⟨hsound, hwithin⟩ := h.extend requests
    obtain ⟨hsound', hwithin'⟩ := ih hsound
    exact ⟨hsound', hwithin.trans hwithin'⟩

end Constants

/-! ## Passes -/

namespace Pass

variable {p : Pass} {settings : Settings} {foreign : Foreign} {globals : Constants}

/-- **The constants that a pass has still to hand over were made for literals.**
A fresh pass has none. -/
def Tidy (p : Pass) : Prop := p.takeConstants.1.Made

theorem tidy_takeConstants (p : Pass) : p.takeConstants.2.Tidy := by
  cases p <;> exact Constants.made_empty

theorem tidy_runOnFunction (hp : p.Tidy) (f : Function) :
    (p.runOnFunction settings foreign globals f).pass.Tidy := by
  cases p with
  | constantBranches => exact hp
  | numbering pending =>
    unfold runOnFunction
    cases hr : (Numbering.run settings foreign globals f).result with
    | error e =>
      simp only [hr]
      exact hp
    | ok r =>
      simp only [hr]
      exact Constants.Made.merge hp (Numbering.made_created hr)

theorem tidy_runOnFunctions (hp : p.Tidy) (fs : List Function) :
    (p.runOnFunctions settings foreign globals fs).pass.Tidy := by
  induction fs generalizing p with
  | nil => exact hp
  | cons f fs ih =>
    have hfirst : (p.runOnFunction settings foreign globals f).pass.Tidy := tidy_runOnFunction hp f
    rw [runOnFunctions_cons]
    simp only
    split
    · exact hfirst
    · exact ih hfirst

/-- **A pass adds made constants to the table, or leaves it.** -/
theorem runOnProgram_globals (settings : Settings) (hp : p.Tidy) (program : Program) :
    (p.runOnProgram settings program).pass.Tidy
      ∧ ∃ created : Constants, created.Made
        ∧ (p.runOnProgram settings program).subject.globals = program.globals.merge created := by
  have hpass : (p.runOnFunctions settings program.foreign
      program.globals program.functions).pass.Tidy :=
    tidy_runOnFunctions hp program.functions
  unfold runOnProgram
  simp only
  split
  · exact ⟨hpass, .empty, Constants.made_empty, rfl⟩
  · exact ⟨tidy_takeConstants _, _, hpass, rfl⟩

end Pass

/-! ## Constants in the text -/

/-- The function mentions a constant of this name that is not in the table. -/
def Function.Dangles (f : Function) (globals : Constants) (name : String) : Prop :=
  ∃ v ∈ f.occurrences, v.isGlobalConst = true ∧ v.name = name ∧ globals.get? name = none

theorem Function.grounds_dangles (f : Function) (globals : Constants) :
    ∀ v ∈ f.occurrences, globals.pool.Grounds (f.Dangles globals) v := by
  intro v hv hconst
  rw [Constants.get?_pool]
  cases hget : globals.get? v.name with
  | some c => exact .inl ⟨c, rfl⟩
  | none => exact .inr ⟨v, hv, hconst, rfl, hget⟩

namespace Pass

variable {p : Pass} {settings : Settings} {program : Program} {stats : Stats}

/-- **Behind a pass the constants of a function are in the table**, those apart
that were not before. -/
theorem mentions_runOnProgram (hp : p.Tidy) (hsound : program.globals.Sound)
    (hok : (p.runOnProgram settings program).result = .ok stats) :
    let after := (p.runOnProgram settings program).subject
    List.Forall₂ (fun f g => ∀ v ∈ g.occurrences,
      after.globals.pool.Grounds (f.Dangles program.globals) v)
      program.functions after.functions := by
  cases p with
  | constantBranches =>
    rw [runOnProgram_constantBranches]
    refine List.forall₂_map_right_iff.2 (List.forall₂_same.2 fun f _ => ?_)
    exact Function.occurrences_foldBranches (f.grounds_dangles program.globals)
  | numbering pending =>
    have hall := run_ok_of_runOnProgram hok
    obtain ⟨-, hsubject, -⟩ := runOnProgram_numbering program hall pending
    obtain ⟨hmade, -, hwithin⟩ := Constants.within_foldl_merge
      (Numbering.Outcome.made_created settings program.foreign program.globals) program.functions hp
    rw [hsubject]
    refine List.forall₂_map_right_iff.2 (List.forall₂_same.2 fun f hf v hv => ?_)
    obtain ⟨r, hr⟩ := hall f hf
    obtain ⟨-, hmentions⟩ :=
      Numbering.mentions_run (hsound.grounded _) (f.grounds_dangles program.globals) hr
    have hcreated : (Numbering.run settings program.foreign program.globals f).created = r.2 := by
      unfold Numbering.Outcome.created
      rw [hr]
    refine fun hconst => (hmentions v hv hconst).imp_left ?_
    rintro ⟨c, hc⟩
    rw [Constants.get?_pool, Constants.get?_merge _ (Numbering.made_created hr).keyed] at hc
    rw [Constants.get?_pool]
    have hget := Constants.get?_merge program.globals hmade.keyed v.name
    rcases Option.or_eq_some_iff.1 hc with hc | ⟨hnone, hc⟩
    · exact ⟨c, hget.trans (Option.or_eq_some_iff.2 (.inl hc))⟩
    · obtain ⟨d, hd, -⟩ := hwithin f hf v.name c (hcreated ▸ hc)
      exact ⟨d, hget.trans (Option.or_eq_some_iff.2 (.inr ⟨hnone, hd⟩))⟩

end Pass

/-! ## The optimiser -/

namespace Optimizer

variable (settings : Settings) {program : Program} {passes : List Pass}

theorem round_globals (hpasses : ∀ p ∈ passes, p.Tidy) (hsound : program.globals.Sound)
    (iteration : Nat) :
    let run := round settings iteration passes program
    (∀ p ∈ run.passes, p.Tidy) ∧ run.program.globals.Sound
      ∧ program.globals.Within run.program.globals := by
  induction passes generalizing program with
  | nil => exact ⟨hpasses, hsound, .refl _⟩
  | cons p passes ih =>
    obtain ⟨hp, hpasses⟩ := List.forall_mem_cons.1 hpasses
    obtain ⟨hpass, created, hmade, heq⟩ := Pass.runOnProgram_globals settings hp program
    have hsound' : (p.runOnProgram settings program).subject.globals.Sound :=
      heq ▸ hsound.merge hmade
    have hwithin : program.globals.Within (p.runOnProgram settings program).subject.globals :=
      heq ▸ Constants.within_merge _ hmade
    obtain ⟨hrest, hsound'', hwithin'⟩ := ih hpasses hsound'
    simp only [round]
    split
    · exact ⟨List.forall_mem_cons.2 ⟨hpass, hpasses⟩, hsound', hwithin⟩
    · exact ⟨List.forall_mem_cons.2 ⟨hpass, hrest⟩, hsound'', hwithin.trans hwithin'⟩

/-- **However many rounds there are, and however they end**, the table stays
sound and keeps its constants. -/
theorem rounds_globals (hpasses : ∀ p ∈ passes, p.Tidy) (hsound : program.globals.Sound)
    (n iteration : Nat) :
    let run := rounds settings n iteration passes program
    run.program.globals.Sound ∧ program.globals.Within run.program.globals := by
  induction n generalizing iteration passes program with
  | zero => exact ⟨hsound, .refl _⟩
  | succ n ih =>
    obtain ⟨hpasses', hsound', hwithin⟩ := round_globals settings hpasses hsound iteration
    simp only [rounds]
    split
    · exact ⟨hsound', hwithin⟩
    · split
      · obtain ⟨hsound'', hwithin'⟩ := ih hpasses' hsound' (iteration + 1)
        exact ⟨hsound'', hwithin.trans hwithin'⟩
      · exact ⟨hsound', hwithin⟩

end Optimizer

namespace Constants

/-- **A sound table stays sound and only grows.**

* The constant of a literal that is no NaN holds the literal as soon as it was
  asked for and after all later questions. Equal literals share a constant, and
  different literals, not both of them NaNs, have constants with different names.
* The table is sound and has all its constants as they were after any number of
  rounds in which any number of functions ask for constants, and after any run
  of an optimiser.
* Behind a pass over a program, each constant in the text of a function that was
  not missing from the table before is in it, with the literal of its name, if
  the name has one that is no NaN, and with what it held before, if it was
  there. -/
theorem Sound.only_grows {program : Program} (h : program.globals.Sound) (settings : Settings) :
    (∀ (before later : List Literal) (l : Literal), l ≠ .null → l.isNaN = false →
      ∃ v, ((program.globals.pool.ask before).getOrCreate l).1 = some v
        ∧ (program.globals.pool.ask (before ++ [l])).valueOf? v = some (.lit l)
        ∧ (program.globals.pool.ask (before ++ l :: later)).valueOf? v = some (.lit l))
    ∧ (∀ (before between : List Literal) (l l' : Literal) (v v' : Var),
      ((program.globals.pool.ask before).getOrCreate l).1 = some v →
      ((program.globals.pool.ask (before ++ l :: between)).getOrCreate l').1 = some v' →
      (l = l' → v = v') ∧ (l ≠ l' → l.isNaN = false ∨ l'.isNaN = false → v.name ≠ v'.name))
    ∧ (∀ rounds : List (List (List Literal)),
      (rounds.foldl Constants.extend program.globals).Sound
        ∧ program.globals.Within (rounds.foldl Constants.extend program.globals))
    ∧ (∀ passes : List Pass, (∀ p ∈ passes, p.Tidy) →
      let after := (Optimizer.optimize ⟨settings, passes⟩ program).program.globals
      after.Sound ∧ program.globals.Within after)
    ∧ ∀ (p : Pass) (stats : Stats), p.Tidy → (p.runOnProgram settings program).result = .ok stats →
      let after := (p.runOnProgram settings program).subject
      List.Forall₂ (fun f g => ∀ v ∈ g.occurrences, v.isGlobalConst = true →
        ¬ f.Dangles program.globals v.name →
          ∃ l, after.globals.valueOf? v = some (.lit l)
            ∧ (∀ l', l'.isNaN = false → Constant.nameFor? l' = some v.name → l' = l)
            ∧ ∀ a, program.globals.valueOf? v = some a → a = .lit l)
        program.functions after.functions := by
  have hpool : ∀ ls, (program.globals.pool.ask ls).Sound :=
    fun ls => h.pool.grows (Pool.grows_ask _ ls)
  refine ⟨fun before later l hl hnan => ?_, fun before between l l' v v' hv hv' => ?_,
    h.foldl_extend, fun passes hpasses => ?_, fun p stats hp hok => ?_⟩
  · obtain ⟨v, hfst, hvalue⟩ := (hpool before).valueOf?_getOrCreate hl hnan
    refine ⟨v, hfst, ?_, ?_⟩
    · rw [Pool.ask_append_cons]
      exact hvalue _ (.refl _)
    · rw [Pool.ask_append_cons]
      exact hvalue _ (Pool.grows_ask _ later)
  · rw [Pool.ask_append_cons] at hv'
    exact (hpool before).getOrCreate_fst (Pool.grows_ask _ between) hv hv'
  · exact Optimizer.rounds_globals settings hpasses h settings.maxIterations 0
  · obtain ⟨-, created, hmade, hglobals⟩ := Pass.runOnProgram_globals settings hp program
    have hsound : (p.runOnProgram settings program).subject.globals.Sound :=
      hglobals ▸ h.merge hmade
    have hwithin : program.globals.Within (p.runOnProgram settings program).subject.globals :=
      hglobals ▸ within_merge _ hmade
    refine (Pass.mentions_runOnProgram hp h hok).imp fun f g hmentions v hv hconst hdangles => ?_
    obtain ⟨c, hc⟩ := (hmentions v hv hconst).resolve_right hdangles
    rw [get?_pool] at hc
    obtain ⟨-, -, l, s, hvalue, -, -, huse⟩ := hsound v.name c hc
    have hvalueOf : ∀ {t : Constants}, t.get? v.name = some c → t.valueOf? v = some (.lit l) :=
        fun hget => by
      rw [← hvalue]
      exact congrArg (Option.map Constant.value) hget
    refine ⟨l, hvalueOf hc, huse, fun a ha => ?_⟩
    obtain ⟨c', hc', -⟩ := Option.map_eq_some_iff.1 ha
    obtain rfl := Option.some.inj (hc.symm.trans (hwithin _ c' hc'))
    exact Option.some.inj (ha.symm.trans (hvalueOf hc'))

/-- A program with the constant five and a function that stores five and negates
it. -/
def negatingFive : Program :=
  ⟨[Pass.negating "f" 5], (Constants.empty.pool.ask [.int 5]).created, .empty⟩

theorem only_grows_negatingFive :
    negatingFive.globals.Sound
      ∧ (Pass.valueNumbering.runOnProgram {} negatingFive).result = .ok ⟨0, 1, 0, 0, 0, 0⟩
      ∧ ((Optimizer.new {}).optimize negatingFive).program.globals.Sound
      ∧ List.Forall₂ (fun f g => ∀ v ∈ g.occurrences, v.isGlobalConst = true →
          ¬ f.Dangles negatingFive.globals v.name →
          ∃ l, (Pass.valueNumbering.runOnProgram {} negatingFive).subject.globals.valueOf? v
            = some (.lit l))
        negatingFive.functions
          (Pass.valueNumbering.runOnProgram {} negatingFive).subject.functions := by
  have hsound : negatingFive.globals.Sound := (made_ask .empty [.int 5]).sound
  have hok : (Pass.valueNumbering.runOnProgram {} negatingFive).result
    = .ok ⟨0, 1, 0, 0, 0, 0⟩ := by decide +kernel
  have hpasses : ∀ p ∈ (Optimizer.new {}).passes, p.Tidy :=
    List.forall_mem_cons.2 ⟨made_empty, List.forall_mem_singleton.2 made_empty⟩
  obtain ⟨-, -, -, hoptimize, hmentions⟩ := hsound.only_grows {}
  refine ⟨hsound, hok, (hoptimize (Optimizer.new {}).passes hpasses).1, ?_⟩
  refine (hmentions Pass.valueNumbering _ made_empty hok).imp fun f g hfg v hv hc hd => ?_
  obtain ⟨l, hl, -⟩ := hfg v hv hc hd
  exact ⟨l, hl⟩

end Constants

end ValueFlow
