import ValueFlow.Proofs.Walk

/-!
# Runs

A run enters the inputs of a function, walks over its block from the state
`opened`, and cleans the function up (`run_eq_ok`).
-/

namespace ValueFlow

namespace Numbering

/-! ## Entering a function -/

section Inputs

variable {V : Vocabulary} {v : Var} {inputs : List Var} {c c' : Congruence}

theorem enterInput_eq_ok (h : enterInput c v = .ok c') :
    c'.outer = c.outer ∧ c'.top.kind = c.top.kind ∧ c'.top.canonical = c.top.canonical
      ∧ c'.top.values = c.top.values ∧ c'.top.declared = v.name :: c.top.declared
      ∧ c'.top.defined = v.name :: c.top.defined := by
  unfold enterInput at h
  cases hd : (c.declare v).define v with
  | error e =>
    rw [hd] at h
    cases h
  | ok c₁ =>
    rw [hd] at h
    obtain ⟨-, rfl⟩ := Congruence.define_eq_ok.1 hd
    obtain rfl := Except.ok.inj h
    split <;> exact ⟨rfl, rfl, rfl, rfl, rfl, rfl⟩

theorem tidy_enterInput (hc : V.Tidy c.scopes) (hv : V.text v) (h : enterInput c v = .ok c') :
    V.Tidy c'.scopes := by
  unfold enterInput at h
  cases hd : (c.declare v).define v with
  | error e =>
    rw [hd] at h
    cases h
  | ok c₁ =>
    have hc₁ := Congruence.tidy_define (Congruence.tidy_declare hc v) hd
    rw [hd] at h
    obtain ⟨-, rfl⟩ := Congruence.define_eq_ok.1 hd
    obtain rfl := Except.ok.inj h
    split
    · exact Congruence.tidy_close hc₁ (.inr ⟨hv, Congruence.mem_names.2 (.inl List.mem_cons_self)⟩)
    · exact hc₁

/-- **The inputs are declared and assigned**, and nothing else is known. -/
theorem foldlM_enterInput (h : inputs.foldlM enterInput c = .ok c') :
    c'.outer = c.outer ∧ c'.top.kind = c.top.kind ∧ c'.top.canonical = c.top.canonical
      ∧ c'.top.values = c.top.values
      ∧ (∀ n, n ∈ c'.top.declared ↔ n ∈ c.top.declared ∨ n ∈ inputs.map (·.name))
      ∧ ∀ n, n ∈ c'.top.defined ↔ n ∈ c.top.defined ∨ n ∈ inputs.map (·.name) := by
  induction inputs generalizing c with
  | nil =>
    obtain rfl := Except.ok.inj h
    simp
  | cons v inputs ih =>
    rw [List.foldlM_cons] at h
    cases hv : enterInput c v with
    | error e =>
      rw [hv] at h
      cases h
    | ok c₁ =>
      rw [hv] at h
      obtain ⟨ho, hk, hcan, hval, hdecl, hdef⟩ := enterInput_eq_ok hv
      obtain ⟨ho', hk', hcan', hval', hdecl', hdef'⟩ := ih h
      refine ⟨ho'.trans ho, hk'.trans hk, hcan'.trans hcan,
        hval'.trans hval, fun n => ?_, fun n => ?_⟩
      · rw [hdecl', hdecl, List.map_cons, List.mem_cons, List.mem_cons]
        tauto
      · rw [hdef', hdef, List.map_cons, List.mem_cons, List.mem_cons]
        tauto

theorem tidy_foldlM_enterInput (hc : V.Tidy c.scopes) (hv : ∀ v ∈ inputs, V.text v)
    (h : inputs.foldlM enterInput c = .ok c') : V.Tidy c'.scopes := by
  induction inputs generalizing c with
  | nil =>
    obtain rfl := Except.ok.inj h
    exact hc
  | cons v inputs ih =>
    obtain ⟨hfirst, hv⟩ := List.forall_mem_cons.1 hv
    rw [List.foldlM_cons] at h
    cases hin : enterInput c v with
    | error e =>
      rw [hin] at h
      cases h
    | ok c₁ =>
      rw [hin] at h
      exact ih (tidy_enterInput hc hfirst hin) hv h

end Inputs

/-- The state in which the block of a function is walked, its inputs having been
entered. -/
def opened (globals : Constants) (f : Function) (facts : Congruence) : State :=
  { State.new globals with facts := f.outputs.foldl Congruence.declare facts }

section Opened

variable {V : Vocabulary} {globals : Constants} {f : Function} {facts : Congruence} {n : String}

theorem wellFormed_opened (htext : ∀ v ∈ f.inputs, V.text v)
    (hc : KnownPool V ⟨globals, .empty⟩) (h : f.inputs.foldlM enterInput .new = .ok facts) :
    WellFormed V (opened globals f facts) := by
  refine ⟨tidy_foldl_declare f.outputs (tidy_foldlM_enterInput ?_ htext h), hc⟩
  exact ⟨.new _, trivial⟩

/-- When the walk starts, nothing stands for something else. -/
theorem stand_opened (h : f.inputs.foldlM enterInput .new = .ok facts) (Q : Operand → Prop) :
    (opened globals f facts).facts.Stand Q := by
  obtain ⟨ho, -, hcan, hval, -⟩ := foldlM_enterInput h
  obtain ⟨ho', -, -, hcan', hval', -⟩ := foldl_declare_spec f.outputs facts
  have hnew : Congruence.new.Stand Q :=
    List.forall_mem_singleton.2 ⟨Table.all_empty, Table.all_empty⟩
  exact hnew.of_level (ho'.trans ho) (hcan'.trans hcan) (hval'.trans hval)

theorem representative?_opened (h : f.inputs.foldlM enterInput .new = .ok facts) (v : Var) :
    (opened globals f facts).facts.representative? v = none :=
  Option.eq_none_iff_forall_ne_some.2 fun _ => (stand_opened h fun _ => False).of_representative?

end Opened

/-! ## Runs -/

section Runs

variable {settings : Settings} {foreign : Foreign} {globals created : Constants}
  {f : Function} {stats : Stats}
  {ctx : Context}

theorem contextOf_eq_ok (h : contextOf settings foreign f = .ok ctx) :
    f.block.aliases = .ok ctx.aliases.facts ∧ ctx.foreign = foreign ∧ ctx.settings = settings
      ∧ ctx.writes = f.block.writtenLocations ctx.aliases := by
  unfold contextOf at h
  cases ha : f.block.aliases with
  | error e =>
    rw [ha] at h
    cases h
  | ok as =>
    rw [ha] at h
    obtain rfl := Except.ok.inj h
    exact ⟨rfl, rfl, rfl, rfl⟩

theorem pool_removeRedundant (ctx : Context) (f : Function) (s : State) :
    (removeRedundant ctx f s).2.pool = s.pool := by
  unfold removeRedundant
  split <;> rfl

/-- **An accepted run**: the inputs are entered, the block is walked without a
fault, and the function is cleaned up. -/
theorem run_eq_ok (h : (run settings foreign globals f).result = .ok (stats, created)) :
    ∃ ctx facts, contextOf settings foreign f = .ok ctx
      ∧ f.inputs.foldlM enterInput .new = .ok facts
      ∧ let v := visitBlock ctx f.block (opened globals f facts)
        v.fault = none ∧ created = v.state.pool.created
          ∧ (run settings foreign globals f).function
            = (removeRedundant ctx { f with block := v.tree } v.state).1 := by
  unfold run at h ⊢
  cases hctx : contextOf settings foreign f with
  | error e =>
    rw [hctx] at h
    cases h
  | ok ctx =>
    simp only [hctx] at h ⊢
    unfold visitFunction at h ⊢
    cases hin : f.inputs.foldlM enterInput (State.new globals).facts with
    | error e =>
      simp only [hin] at h
      cases h
    | ok facts =>
      simp only [hin, Visit.map] at h ⊢
      cases hf : (visitBlock ctx f.block (opened globals f facts)).fault with
      | some e =>
        unfold opened at hf
        simp only [hf] at h
        cases h
      | none =>
        refine ⟨ctx, facts, rfl, hin, hf, ?_, ?_⟩
        · unfold opened at hf
          simp only [hf] at h
          obtain ⟨-, rfl⟩ := Prod.mk.inj (Except.ok.inj h)
          exact congrArg Pool.created (pool_removeRedundant _ _ _)
        · unfold opened at hf ⊢
          simp only [hf]

end Runs

end Numbering

end ValueFlow
