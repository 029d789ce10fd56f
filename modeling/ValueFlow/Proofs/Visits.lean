import ValueFlow.Numbering.Walk
import ValueFlow.Proofs.ConstantNames
import ValueFlow.Proofs.Scopes

/-!
# Visiting an instruction

What the visit of an instruction does to the state, phase by phase, said once.
`visitInstruction_cases` takes a visit apart; `bindOutput_cases` says what one
value does: nothing, a representative for the output, or a new entry. From these
it follows that a visit keeps the scopes tidy and touches nothing but the
innermost scope, the pool and the marks of its own block
(`wellFormed_visitInstruction`, `facts_visitInstruction`,
`marks_visitInstruction`).
-/

namespace ValueFlow

/-! ## Instructions -/

namespace Instruction

/-- The variables that the instruction reads and defines have a property. -/
def All (P : Var → Prop) (i : Instruction) : Prop :=
  (∀ r ∈ i.reads, r.2.All P) ∧ ∀ v ∈ i.outputs, P v

/-- The outputs that the instruction assigns, as opposed to a name that it binds. -/
def results (i : Instruction) : List Var := if i.bindsAlias then [] else i.outputs

theorem results_subset (i : Instruction) : i.results ⊆ i.outputs := by
  unfold results
  split
  · exact List.nil_subset _
  · exact List.Subset.refl _

theorem mem_assigned {i : Instruction} {v : Var} :
    v ∈ i.assigned ↔ v ∈ i.results ∧ v.alloc ≠ .part := by
  unfold assigned results
  split <;> simp

section MapOperands

variable (f : Role → Operand → Operand) (i : Instruction)

@[simp] theorem outputs_mapOperands : (i.mapOperands f).outputs = i.outputs := by
  cases i <;> rfl

@[simp] theorem bindsAlias_mapOperands : (i.mapOperands f).bindsAlias = i.bindsAlias := by
  cases i with
  | readElement access dst arr ix => cases access <;> rfl
  | _ => rfl

@[simp] theorem results_mapOperands : (i.mapOperands f).results = i.results := by
  unfold results
  rw [outputs_mapOperands, bindsAlias_mapOperands]

@[simp] theorem assigned_mapOperands : (i.mapOperands f).assigned = i.assigned := by
  unfold assigned
  rw [outputs_mapOperands, bindsAlias_mapOperands]

@[simp] theorem writes_mapOperands : (i.mapOperands f).writes = i.writes := by
  cases i with
  | readElement access dst arr ix => cases access <;> rfl
  | _ => rfl

variable {f i}

/-- An instruction whose operands are all kept stays as it is. -/
theorem mapOperands_eq_self (h : ∀ r ∈ i.replaceable, f r.1 r.2 = r.2) : i.mapOperands f = i := by
  have hmap : ∀ (role : Role) (inputs : List Operand), role ≠ .container →
      (∀ r ∈ (inputs.map (role, ·)).filter (·.1 ≠ .container), f r.1 r.2 = r.2) →
      inputs.map (f role) = inputs := by
    intro role inputs hrole hinputs
    refine (List.map_congr_left fun a ha => ?_).trans (List.map_id inputs)
    exact hinputs (role, a) (List.mem_filter.2 ⟨List.mem_map.2 ⟨a, ha, rfl⟩, by simpa using hrole⟩)
  cases i with
  | storeScalar dst src =>
    have := h (.value, src) (by simp [replaceable, reads])
    simp_all [mapOperands]
  | loadScalar dst src =>
    have := h (.retrieved, .var src) (by simp [replaceable, reads])
    simp_all [mapOperands, varOr]
  | storeRef dst src => rfl
  | loadRef dst src =>
    have := h (.retrieved, .var src) (by simp [replaceable, reads])
    simp_all [mapOperands, varOr]
  | compute timing op dst inputs =>
    rw [mapOperands, hmap timing.role inputs (by cases timing <;> decide) h]
  | call timing function outputs inputs =>
    rw [mapOperands, hmap timing.role inputs (by cases timing <;> decide) h]
  | readField access dst record path => rfl
  | writeField record path src =>
    have := h (.value, src) (by simp [replaceable, reads])
    simp_all [mapOperands]
  | readElement access dst arr ix =>
    have := h (.value, ix) (by simp [replaceable, reads])
    simp_all [mapOperands]
  | writeElement arr ix src =>
    have hix := h (.value, ix) (by simp [replaceable, reads])
    have hsrc := h (.value, src) (by simp [replaceable, reads])
    simp_all [mapOperands]

/-- What becomes of an operand: a container stays, and what is read at once
stays a variable. -/
def mapOperand (f : Role → Operand → Operand) (r : Role × Operand) : Operand :=
  match r with
  | (.container, a) => a
  | (.retrieved, .var v) => .var (varOr v (f .retrieved (.var v)))
  | (role, a) => f role a

theorem reads_mapOperands (f : Role → Operand → Operand) (i : Instruction) :
    (i.mapOperands f).reads = i.reads.map fun r => (r.1, mapOperand f r) := by
  have hmap : ∀ (timing : Timing) (inputs : List Operand),
        (inputs.map (f timing.role)).map (timing.role, ·)
      = (inputs.map (timing.role, ·)).map fun r => (r.1, mapOperand f r) := by
    intro timing inputs
    rw [List.map_map, List.map_map]
    cases timing <;> rfl
  cases i with
  | compute timing op dst inputs => exact hmap timing inputs
  | call timing function outputs inputs => exact hmap timing inputs
  | _ => rfl

/-- Transformed operands have a property that the transformation keeps. -/
theorem forall_reads_mapOperands {Q : Operand → Prop} (hreads : ∀ r ∈ i.reads, Q r.2)
    (hf : ∀ role a, Q a → Q (f role a)) : ∀ r ∈ (i.mapOperands f).reads, Q r.2 := by
  intro r hr
  rw [reads_mapOperands] at hr
  obtain ⟨⟨role, a⟩, ha, rfl⟩ := List.mem_map.1 hr
  have hkept : Q a := hreads _ ha
  have hmapped := hf role a hkept
  cases role with
  | container => exact hkept
  | retrieved =>
    cases a with
    | lit l => exact hmapped
    | var v =>
      show Q (.var (varOr v (f .retrieved (.var v))))
      cases hrep : f .retrieved (.var v) with
      | var w => rwa [hrep] at hmapped
      | lit l => exact hkept
  | _ => exact hmapped

theorem All.mapOperands {P : Var → Prop} (hi : i.All P)
    (hf : ∀ role a, a.All P → (f role a).All P) : (i.mapOperands f).All P :=
  ⟨forall_reads_mapOperands (Q := Operand.All P) hi.1 hf, by simpa using hi.2⟩

end MapOperands

variable {P : Var → Prop} {i : Instruction}

theorem All.closes (hi : i.All P) : ∀ v ∈ i.closes, P v := by
  intro v hv
  rcases List.mem_append.1 hv with hv | hv
  · cases i with
    | storeScalar dst src =>
      obtain rfl := List.mem_singleton.1 hv
      exact hi.2 v (by simp [outputs])
    | storeRef dst src =>
      obtain rfl := List.mem_singleton.1 hv
      exact hi.2 v (by simp [outputs])
    | loadScalar dst src =>
      obtain rfl := List.mem_singleton.1 hv
      exact hi.1 (.retrieved, .var v) (by simp [reads])
    | loadRef dst src =>
      obtain rfl := List.mem_singleton.1 hv
      exact hi.1 (.retrieved, .var v) (by simp [reads])
    | _ => simp at hv
  · exact hi.2 v (List.mem_filter.1 hv).1

end Instruction

/-- The output that is bound, if one is. -/
def Binding.outs : Binding → List Var
  | .output v => [v]
  | .known _ => []

/-- The operand of a binding. -/
def Binding.operand : Binding → Operand
  | .output v => .var v
  | .known a => a

/-- The variables of a binding have a property. -/
def Binding.All (P : Var → Prop) (b : Binding) : Prop := b.operand.All P

theorem Binding.All.mono {P Q : Var → Prop} (h : ∀ v, P v → Q v) {b : Binding} (hb : b.All P) :
    b.All Q :=
  Operand.All.mono h hb

namespace Instruction

variable {P : Var → Prop} {i : Instruction} {foreign : Foreign}
  {values : List (Signature × Binding)}

theorem mem_callSignatures {timing : Timing} {f : ForeignFunction} {function : String}
    {inputs : List Operand} {outs : List Var} {k : Nat} {value : Signature × Binding}
    (h : value ∈ callSignatures timing f function inputs k outs) :
    ∃ k', ∃ out ∈ outs, value
      = (.make (.foreign function timing k') inputs f.commutative, .output out) := by
  induction outs generalizing k with
  | nil => cases h
  | cons out outs ih =>
    rcases List.mem_cons.1 h with rfl | h
    · exact ⟨k, out, List.mem_cons_self, rfl⟩
    · obtain ⟨k', out', hout', heq⟩ := ih h
      exact ⟨k', out', List.mem_cons_of_mem _ hout', heq⟩

/-- **The values of a foreign call** are computed from its inputs, each into one
of its outputs. None is read out of storage. -/
theorem signatures_call {timing : Timing} {function : String} {outs : List Var}
    {inputs : List Operand}
    (h : (call timing function outs inputs).signatures foreign = .ok values) : ∀ value ∈ values,
      ∃ op commutative, op.readPath? = none ∧ ∃ out ∈ outs,
        value = (.make op inputs commutative, .output out) := by
  intro value hv
  simp only [signatures] at h
  cases hf : foreign.lookup function with
  | error e =>
    rw [hf] at h
    cases h
  | ok f =>
    rw [hf] at h
    simp only [bind, Except.bind, pure, Except.pure] at h
    split at h
    · cases h
      cases hv
    · split at h
      · cases h
        obtain rfl := List.mem_singleton.1 hv
        exact ⟨_, _, rfl, _, List.mem_singleton_self _, rfl⟩
      · cases h
        obtain ⟨k, out, hout, heq⟩ := mem_callSignatures hv
        exact ⟨_, _, rfl, out, hout, heq⟩

/-- The outputs that get values are assigned, not bound. -/
theorem outs_signatures
    (h : i.signatures foreign = .ok values) : ∀ value ∈ values, value.2.outs ⊆ i.results := by
  cases i with
  | call timing function outs inputs =>
    intro value hv
    obtain ⟨op, commutative, -, out, hout, rfl⟩ := signatures_call h value hv
    exact List.cons_subset.2 ⟨hout, List.nil_subset _⟩
  | readField access dst record path =>
    cases access <;> cases h <;> simp [Binding.outs, results, outputs, bindsAlias]
  | readElement access dst arr ix =>
    cases access <;> cases h <;> simp [Binding.outs, results, outputs, bindsAlias]
  | _ => cases h; simp [Binding.outs, results, outputs, bindsAlias]

theorem outs_signatures_mapOperands {f : Role → Operand → Operand}
    (h : (i.mapOperands f).signatures foreign = .ok values) :
    ∀ value ∈ values, value.2.outs ⊆ i.results := results_mapOperands f i ▸ outs_signatures h

/-- **The signature of an output mentions only what the instruction reads.** -/
theorem forall_of_output {Q : Operand → Prop} (hreads : ∀ r ∈ i.reads, Q r.2)
    (h : i.signatures foreign = .ok values) {value : Signature × Binding}
    (hvalue : value ∈ values) {out : Var} (hout : value.2 = .output out) :
    ∀ a ∈ value.1.inputs, Q a := by
  have hinputs : ∀ {timing : Timing} {inputs : List Operand},
      i.reads = inputs.map (timing.role, ·) →
      ∀ op commutative, ∀ a ∈ (Signature.make op inputs commutative).inputs, Q a :=
    fun {timing _} heq _ _ a ha => by
      refine hreads (timing.role, a) ?_
      rw [heq]
      exact List.mem_map.2 ⟨a, (Signature.inputs_normalize_perm _).mem_iff.1 ha, rfl⟩
  cases i with
  | compute timing op dst inputs =>
    cases h
    obtain rfl := List.mem_singleton.1 hvalue
    exact hinputs rfl _ _
  | call timing function outs inputs =>
    obtain ⟨op, commutative, -, out, -, rfl⟩ := signatures_call h value hvalue
    exact hinputs rfl op commutative
  | readField access dst record path =>
    cases access <;> cases h <;> simp_all [Signature.plain, reads]
  | readElement access dst arr ix => cases access <;> cases h <;> simp_all [Signature.plain, reads]
  | _ =>
    cases h
    simp only [List.mem_cons, List.not_mem_nil, or_false] at hvalue
    rcases hvalue with rfl | rfl <;> simp_all [Signature.plain, reads]

/-- **The values of an instruction mention only what it reads and its outputs.** -/
theorem forall_signatures {Q : Operand → Prop} (hreads : ∀ r ∈ i.reads, Q r.2)
    (houts : ∀ v ∈ i.outputs, Q (.var v)) (h : i.signatures foreign = .ok values) :
    ∀ value ∈ values, (∀ a ∈ value.1.inputs, Q a) ∧ Q value.2.operand := by
  intro value hvalue
  have hout : ∀ out, value.2 = .output out → (∀ a ∈ value.1.inputs, Q a) ∧ Q value.2.operand :=
      fun out hout => by
    refine ⟨forall_of_output hreads h hvalue hout, ?_⟩
    have hresult := outs_signatures h value hvalue
    rw [hout] at hresult ⊢
    exact houts out (i.results_subset (hresult (List.mem_singleton_self out)))
  cases i with
  | compute timing op dst inputs =>
    cases h
    exact hout dst (congrArg Prod.snd (List.mem_singleton.1 hvalue))
  | call timing function outs inputs =>
    obtain ⟨op, commutative, -, out, -, heq⟩ := signatures_call h value hvalue
    exact hout out (congrArg Prod.snd heq)
  | readField access dst record path =>
    cases access <;> cases h <;> simp_all [Signature.plain, Binding.operand, reads, outputs]
  | readElement access dst arr ix =>
    cases access <;> cases h <;> simp_all [Signature.plain, Binding.operand, reads, outputs]
  | _ =>
    cases h
    simp only [List.mem_cons, List.not_mem_nil, or_false] at hvalue
    rcases hvalue with rfl | rfl <;> simp_all [Signature.plain, Binding.operand, reads, outputs]

/-- The values of an instruction mention only variables of the instruction. -/
theorem All.signatures (hi : i.All P)
    (h : i.signatures foreign = .ok values) : ∀ value ∈ values, value.1.All P ∧ value.2.All P :=
  forall_signatures (Q := Operand.All P) hi.1 hi.2 h

end Instruction

namespace Congruence

/-- The two differ in the facts of the innermost scope only. -/
structure SameLevel (c c' : Congruence) : Prop where
  outer : c'.outer = c.outer
  kind : c'.top.kind = c.top.kind
  declared : c'.top.declared = c.top.declared

namespace SameLevel

variable {c c' c'' : Congruence}

theorem refl (c : Congruence) : SameLevel c c := ⟨rfl, rfl, rfl⟩

theorem trans (h : SameLevel c c') (h' : SameLevel c' c'') : SameLevel c c'' :=
  ⟨h'.outer.trans h.outer, h'.kind.trans h.kind, h'.declared.trans h.declared⟩

theorem names (h : SameLevel c c') : c'.names = c.names := names_eq_of_outer h.outer h.declared

end SameLevel

/-- What a conditional does to the scope around it, facts apart. -/
theorem mergeBranches_spec (aliases : AliasMap) (keep : Bool) (arms : List Scope) (c : Congruence) :
    let c' := (c.mergeBranches aliases keep arms).2
    c.SameLevel c' ∧ c'.top.invalidated = c.top.invalidated ++ arms.flatMap (·.invalidated)
      ∧ ∀ n, n ∈ c'.top.defined ↔ n ∈ c.top.defined ∨ ∃ arm ∈ arms, n ∈ arm.outliving := by
  obtain ⟨h₁, h₂, h₃, -, -, h₄, h₅⟩ := absorbArms_spec aliases arms c
  rcases mergeBranches_cases aliases keep arms c with heq | ⟨first, rest, rfl, heq⟩
  · rw [heq]
    exact ⟨⟨h₁, h₂, h₃⟩, h₄, h₅⟩
  · rw [heq]
    exact ⟨⟨h₁, h₂, h₃⟩, h₄, h₅⟩

/-- **What assigning some variables does**: none of them was assigned before,
and all are now. -/
theorem foldlM_define_eq_ok {vars : List Var} {c c' : Congruence}
    (h : vars.foldlM define c = .ok c') :
    c' = { c with top.defined := (vars.map (·.name)).reverse ++ c.top.defined }
      ∧ (∀ v ∈ vars, v.name ∉ c.definedNames) ∧ (vars.map (·.name)).Nodup := by
  induction vars generalizing c with
  | nil =>
    obtain rfl := Except.ok.inj h
    exact ⟨rfl, List.forall_mem_nil _, List.nodup_nil⟩
  | cons v vars ih =>
    rw [List.foldlM_cons] at h
    cases hv : c.define v with
    | error e =>
      rw [hv] at h
      cases h
    | ok c₁ =>
      rw [hv] at h
      obtain ⟨hnew, rfl⟩ := define_eq_ok.1 hv
      obtain ⟨rfl, hrest, hnodup⟩ := ih h
      have hmem : ∀ n, n ∈ ({ c with top.defined := v.name :: c.top.defined } :
          Congruence).definedNames ↔ n = v.name ∨ n ∈ c.definedNames := by
        intro n
        simp only [mem_definedNames, List.mem_cons, or_assoc]
      refine ⟨?_, List.forall_mem_cons.2 ⟨hnew, fun w hw hc => ?_⟩, ?_⟩
      · simp
      · exact hrest w hw ((hmem _).2 (.inr hc))
      · rw [List.map_cons, List.nodup_cons]
        refine ⟨fun hmem' => ?_, hnodup⟩
        obtain ⟨w, hw, hname⟩ := List.mem_map.1 hmem'
        exact hrest w hw ((hmem _).2 (.inl hname))

/-- Closing variables changes nothing else. -/
theorem exists_foldl_close (vars : List Var) (c : Congruence) :
    ∃ closed, vars.foldl close c = { c with top := { c.top with closed } } := by
  induction vars generalizing c with
  | nil => exact ⟨c.top.closed, rfl⟩
  | cons v vars ih =>
    obtain ⟨closed, h⟩ := ih (c.close v)
    exact ⟨closed, h⟩

theorem foldl_close_spec (vars : List Var) (c : Congruence) :
    let c' := vars.foldl close c
    SameLevel c c' ∧ c'.top.defined = c.top.defined ∧ c'.top.invalidated = c.top.invalidated
      ∧ c'.top.canonical = c.top.canonical ∧ c'.top.values = c.top.values
      ∧ c'.top.poisoned = c.top.poisoned := by
  obtain ⟨closed, h⟩ := exists_foldl_close vars c
  intro c'
  rw [show c' = _ from h]
  exact ⟨⟨rfl, rfl, rfl⟩, rfl, rfl, rfl, rfl, rfl⟩

theorem tidy_foldl_close {V : Vocabulary} {vars : List Var} {c : Congruence}
    (h : V.Tidy c.scopes) (hv : ∀ v ∈ vars, V.Names c.names v) :
    V.Tidy (vars.foldl close c).scopes := by
  induction vars generalizing c with
  | nil => exact h
  | cons v vars ih =>
    obtain ⟨hv, hvars⟩ := List.forall_mem_cons.1 hv
    exact ih (tidy_close h hv) hvars

end Congruence

/-- The vocabulary with some text and shared constants, in which any name may be
that of a constant. -/
def Vocabulary.over (aliases : AliasMap) (text shared : Var → Prop)
    (h : ∀ v, text v → v.isGlobalConst = true → shared v) : Vocabulary where
  text := text
  shared := shared
  constant _ := True
  stable v := aliases.isStable v = true
  fixed v := Numbering.isFixed aliases v = true
  shared_of_isGlobalConst := h
  constant_of_shared _ _ := trivial

namespace Numbering

variable {ctx : Context} {s : State} {V : Vocabulary} {block : Nat} {i : Instruction}

/-! ## The phases of a visit -/

section Replace

variable {facts : Congruence} {role : Role} {a : Operand}

/-- What replaces an operand is the representative of its variable. -/
theorem replacement?_eq_some {rep : Operand} (h : replacement? facts role a = some rep) :
    ∃ v, a = .var v ∧ facts.canonical? v = some rep := by
  cases a with
  | lit l => cases h
  | var v =>
    refine ⟨v, rfl, ?_⟩
    simp only [replacement?, Operand.var?, Option.bind_eq_bind, Option.bind_some] at h
    obtain ⟨rep', hrep', h⟩ := Option.bind_eq_some_iff.1 h
    simp only [Option.ite_none_left_eq_some, Option.ite_none_right_eq_some, Option.some.injEq] at h
    exact h.2.2 ▸ hrep'

theorem replace_cases (facts : Congruence) (role : Role) (a : Operand) :
    replace facts role a = a
      ∨ ∃ v rep, a = .var v ∧ facts.canonical? v = some rep ∧ replace facts role a = rep := by
  unfold replace
  cases h : replacement? facts role a with
  | none => exact .inl rfl
  | some rep =>
    obtain ⟨v, hv, hrep⟩ := replacement?_eq_some h
    exact .inr ⟨v, rep, hv, hrep, rfl⟩

theorem names_replace {V : Vocabulary} (h : V.Tidy facts.scopes)
    (ha : a.All (V.Names facts.names)) : (replace facts role a).All (V.Names facts.names) := by
  rcases replace_cases facts role a with heq | ⟨v, rep, -, hrep, heq⟩
  · rwa [heq]
  · rw [heq]
    exact (Congruence.stands_of_canonical? h hrep).mono fun _ hv => hv.1

end Replace

/-- Substitution transforms all operands, whether or not one is replaced. -/
theorem substitute_fst (i : Instruction) (s : State) :
    (substitute i s).1 = i.mapOperands (replace s.facts) := by
  unfold substitute
  simp only
  split
  · rename_i hn
    refine (Instruction.mapOperands_eq_self fun r hr => ?_).symm
    have hnone := List.countP_eq_zero.1 hn r hr
    unfold replace
    cases hrep : replacement? s.facts r.1 r.2 with
    | none => rfl
    | some rep => simp [hrep] at hnone
  · rfl

/-- The two states differ in counters and events only. -/
structure Quiet (s s' : State) : Prop where
  facts : s'.facts = s.facts
  pool : s'.pool = s.pool
  marks : s'.marks = s.marks
  nextBlock : s'.nextBlock = s.nextBlock

theorem Quiet.refl (s : State) : Quiet s s := ⟨rfl, rfl, rfl, rfl⟩

theorem substitute_quiet (i : Instruction) (s : State) : Quiet s (substitute i s).2 := by
  unfold substitute
  simp only
  split
  · exact .refl s
  · exact ⟨rfl, rfl, rfl, rfl⟩

theorem undeclared?_eq_none {vars : List Var} :
    ctx.undeclared? s vars = none ↔ ∀ v ∈ vars, s.knows v = true := by
  simp [Context.undeclared?]

theorem names_of_knows {v : Var} (h : s.knows v = true)
    (hv : V.text v) : V.Names s.facts.names v := by
  rcases Bool.or_eq_true_iff.1 h with h | h
  · rcases Congruence.isDeclared_iff.1 h with hg | hn
    · exact .inl (V.shared_of_isGlobalConst v hv hg)
    · exact .inr ⟨hv, hn⟩
  · obtain ⟨a, ha⟩ := Option.isSome_iff_exists.1 h
    exact .inl (V.shared_of_isGlobalConst v hv (Pool.valueOf?_eq_some ha).1)

/-- The locations that some targets of writes denote. -/
def writtenBy (aliases : AliasMap) (targets : List (Var × List Step)) : List Location :=
  targets.filterMap fun w => aliases.written? w.1 w.2

/-- **Writes end what is known about the storage that they touch**, and do
nothing else. -/
theorem foldl_write_spec (ctx : Context) (targets : List (Var × List Step)) (s : State) :
    let s' := targets.foldl (write ctx) s
    s'.facts = (writtenBy ctx.aliases targets).foldl
        (fun c l => (c.invalidate ctx.aliases l).2) s.facts
      ∧ s'.pool = s.pool ∧ s'.marks = s.marks ∧ s'.nextBlock = s.nextBlock := by
  induction targets generalizing s with
  | nil => exact ⟨rfl, rfl, rfl, rfl⟩
  | cons w targets ih =>
    obtain ⟨h₁, h₂, h₃, h₄⟩ := ih (write ctx s w)
    simp only [List.foldl_cons, h₁, h₂, h₃, h₄]
    unfold write writtenBy
    rw [List.filterMap_cons]
    cases ctx.aliases.written? w.1 w.2 with
    | none => exact ⟨rfl, rfl, rfl, rfl⟩
    | some l =>
      simp only
      split <;> exact ⟨rfl, rfl, rfl, rfl⟩

/-! ## The values of an instruction -/

/-- **What a signature alone may tell**: the constant of a literal, what one of
its inputs holds, one of its inputs, or a literal or nothing. Only the first of
these changes the state. -/
theorem resolve_cases (ctx : Context) (sig : Signature) (s : State) :
    (∃ l, resolve ctx sig s = constantFor l s)
      ∨ (∃ v, .var v ∈ sig.inputs
        ∧ (resolve ctx sig s = (s.pool.valueOf? v, s) ∨ resolve ctx sig s = (some (.var v), s)))
      ∨ ∃ value : Option Literal, resolve ctx sig s = (value.map .lit, s) := by
  unfold resolve
  split
  · split
    · exact .inl ⟨_, rfl⟩
    · exact .inr (.inr ⟨none, rfl⟩)
  · rename_i hinputs
    exact .inr (.inl ⟨_, by rw [hinputs]; exact List.mem_singleton_self _, .inl rfl⟩)
  · rename_i hinputs
    exact .inr (.inl ⟨_, by rw [hinputs]; exact List.mem_singleton_self _, .inr rfl⟩)
  · split
    · exact .inr (.inr ⟨_, rfl⟩)
    · exact .inr (.inr ⟨none, rfl⟩)
  · split
    · split
      · exact .inl ⟨_, rfl⟩
      · exact .inr (.inr ⟨none, rfl⟩)
    · exact .inr (.inr ⟨none, rfl⟩)
  · exact .inr (.inr ⟨none, rfl⟩)

/-- Finding the value of a signature changes the pool only, by asking for
constants. -/
theorem resolve_snd (ctx : Context) (sig : Signature) (s : State) :
    ∃ p, (resolve ctx sig s).2 = { s with pool := p } ∧ s.pool.Grows p := by
  rcases resolve_cases ctx sig s with ⟨l, heq⟩ | ⟨v, -, heq | heq⟩ | ⟨value, heq⟩
  · exact ⟨_, congrArg Prod.snd heq, .getOrCreate _ _⟩
  · exact ⟨_, congrArg Prod.snd heq, .refl _⟩
  · exact ⟨_, congrArg Prod.snd heq, .refl _⟩
  · exact ⟨_, congrArg Prod.snd heq, .refl _⟩

@[simp] theorem facts_resolve (ctx : Context) (sig : Signature) (s : State) :
    (resolve ctx sig s).2.facts = s.facts := by
  obtain ⟨p, h, -⟩ := resolve_snd ctx sig s
  rw [h]

/-- The operand is known to hold the value of the signature. -/
def Finds (ctx : Context) (sig : Signature) (s : State) (rep : Operand) : Prop :=
  (resolve ctx sig s).1 = some rep
    ∨ (resolve ctx sig s).1 = none ∧ s.facts.lookup ctx.aliases ctx.writes sig = some rep

/-- **What a computed value does**: nothing; or, if an operand with this value
is known, it gives its output a representative and perhaps a mark; or else the
output becomes the operand that is known. -/
theorem bindOutput_cases (ctx : Context) (block : Nat) (removable : Bool) (sig : Signature)
    (out : Var) (s : State) :
    let s₁ := (resolve ctx sig s).2
    let s' := bindOutput ctx block removable sig out s
    s' = s₁
      ∨ (∃ rep, Finds ctx sig s rep ∧ accepts ctx.aliases out rep = true
        ∧ s'.facts = s.facts.setCanonical out rep ∧ s'.pool = s₁.pool
        ∧ s'.nextBlock = s.nextBlock
        ∧ (s'.marks = s.marks ∨ removable = true ∧ out.definition ≠ .outArg
          ∧ ∃ r, rep = .var r ∧ s'.marks = s.marks.add block out (s₁.pool.valueOf? r)))
      ∨ ctx.aliases.isStable out = true ∧ (∀ rep, ¬ Finds ctx sig s rep)
        ∧ s' = { s₁ with facts := (s.facts.record ctx.aliases sig (.var out)).2 } := by
  obtain ⟨p, hs₁, -⟩ := resolve_snd ctx sig s
  have hfinds : ∀ rep, (resolve ctx sig s).1.or
      ((resolve ctx sig s).2.facts.lookup ctx.aliases ctx.writes sig) = some rep
        ↔ Finds ctx sig s rep := by
    intro rep
    rw [facts_resolve, Option.or_eq_some_iff]
    exact Iff.rfl
  unfold bindOutput
  simp only
  split
  · rename_i rep hrep
    split
    · exact .inl rfl
    · rename_i hok
      simp only [Bool.or_eq_true, Bool.not_eq_true', not_or, Bool.not_eq_false] at hok
      refine .inr (.inl ⟨rep, (hfinds rep).1 hrep, hok.2, ?_⟩)
      split
      · rename_i hr
        simp only [Bool.and_eq_true, decide_eq_true_eq] at hr
        cases rep with
        | var r =>
          refine ⟨?_, rfl, ?_, .inr ⟨hr.1, hr.2, r, rfl, ?_⟩⟩ <;>
            simp only [markRedundant, State.emit, hs₁]
        | lit l =>
          refine ⟨?_, rfl, ?_, .inl ?_⟩ <;> simp only [markRedundant, State.emit, hs₁]
      · refine ⟨?_, rfl, ?_, .inl ?_⟩ <;> simp only [State.emit, hs₁]
  · rename_i hnone
    have hno : ∀ rep, ¬ Finds ctx sig s rep := by
      intro rep hrep
      rw [(hfinds rep).2 hrep] at hnone
      cases hnone
    split
    · rename_i hstable
      refine .inr (.inr ⟨hstable, hno, ?_⟩)
      rw [facts_resolve]
    · exact .inl rfl

/-- **What a known value does**: nothing, or an entry if none is there. -/
theorem bindKnown_cases (ctx : Context) (sig : Signature) (src : Operand) (s : State) :
    let rep := s.facts.canonicalOperand src
    bindKnown ctx sig src s = s
      ∨ isUsable ctx.aliases rep = true ∧ s.facts.lookup ctx.aliases ctx.writes sig = none
        ∧ bindKnown ctx sig src s
          = { s with facts := (s.facts.record ctx.aliases sig rep).2 } := by
  unfold bindKnown
  simp only
  split
  · rename_i h
    simp only [Bool.and_eq_true, Option.isNone_iff_eq_none] at h
    exact .inr ⟨h.1, h.2, rfl⟩
  · exact .inl rfl

/-! ## What a visit keeps -/

/-- **The vocabulary matches the context**: the stable and the fixed variables
are those of the context. -/
structure Matches (V : Vocabulary) (ctx : Context) : Prop where
  stable : ∀ v, V.stable v ↔ ctx.aliases.isStable v = true
  fixed : ∀ v, V.fixed v ↔ isFixed ctx.aliases v = true

theorem Matches.over {text shared : Var → Prop}
    (h : ∀ v, text v → v.isGlobalConst = true → shared v) :
    Matches (.over ctx.aliases text shared h) ctx := ⟨fun _ => Iff.rfl, fun _ => Iff.rfl⟩

/-- **The vocabulary serves the context**: it matches it, and the constants of
all literals are constants. -/
structure Serves (V : Vocabulary) (ctx : Context) : Prop extends Matches V ctx where
  made : ∀ l c, Constant.make? l .optimizer = some c → V.shared c.var

/-- **The vocabulary suits the context**: it serves it, and occurrences of one
variable are equal. -/
structure Suits (V : Vocabulary) (ctx : Context) : Prop extends Serves V ctx where
  consistent : ∀ v w, V.text v → V.text w → v.name = w.name → v = w

instance {V : Vocabulary} {ctx : Context} : Coe (Suits V ctx) (Serves V ctx) := ⟨Suits.toServes⟩

/-- The constants in the pool are constants, and so is what they hold, if it is
a variable. -/
def KnownPool (V : Vocabulary) (p : Pool) : Prop :=
  ∀ name c, p.get? name = some c → V.shared c.var ∧ c.value.All V.shared

/-- **The state is well formed**: the scopes are tidy and the pool has constants
only. -/
structure WellFormed (V : Vocabulary) (s : State) : Prop where
  tidy : V.Tidy s.facts.scopes
  constants : KnownPool V s.pool

section Values

variable {rep : Operand}

theorem KnownPool.of_grows (hV : Serves V ctx) {p p' : Pool} (h : KnownPool V p) (hp : p.Grows p') :
    KnownPool V p' := by
  intro name c hc
  rcases hp.get?_eq_some hc with hc | ⟨l, hmade, -⟩
  · exact h name c hc
  · obtain ⟨-, hvalue, -⟩ := Constant.make?_eq_some hmade
    rw [hvalue]
    exact ⟨hV.made l c hmade, trivial⟩

/-- A pool that has grown had only constants before, too. -/
theorem KnownPool.of_grown {p p' : Pool} (h : KnownPool V p') (hp : p.Grows p') : KnownPool V p :=
  fun name c hc => h name c (hp.get? hc)

-- What is found may be a constant that was made for it, so it is the pool behind
-- the search that counts.
theorem names_of_constantFor {l : Literal} (h : KnownPool V (constantFor l s).2.pool)
    (hrep : (constantFor l s).1 = some rep) : rep.All (V.Names s.facts.names) := by
  obtain ⟨v, hv, rfl⟩ := Option.map_eq_some_iff.1 hrep
  obtain ⟨name, c, hc, rfl⟩ := Pool.exists_of_getOrCreate_fst hv
  exact .inl (h name c hc).1

/-- What follows from a signature alone mentions a constant or a variable of the
signature. -/
theorem names_of_resolve {sig : Signature} (h : KnownPool V (resolve ctx sig s).2.pool)
    (hsig : sig.All (V.Names s.facts.names))
    (hrep : (resolve ctx sig s).1 = some rep) : rep.All (V.Names s.facts.names) := by
  rcases resolve_cases ctx sig s with ⟨l, heq⟩ | ⟨v, hv, heq | heq⟩ | ⟨value, heq⟩
  · rw [heq] at h hrep
    exact names_of_constantFor h hrep
  · rw [heq] at h hrep
    obtain ⟨-, c, hc, rfl⟩ := Pool.valueOf?_eq_some hrep
    exact (h _ c hc).2.mono fun _ => .inl
  · rw [heq] at hrep
    exact Option.some.inj hrep ▸ hsig (.var v) hv
  · rw [heq] at hrep
    obtain ⟨l, -, rfl⟩ := Option.map_eq_some_iff.1 hrep
    trivial

theorem names_of_finds (ht : V.Tidy s.facts.scopes) {sig : Signature}
    (hp : KnownPool V (resolve ctx sig s).2.pool) (hsig : sig.All (V.Names s.facts.names))
    (hrep : Finds ctx sig s rep) : rep.All (V.Names s.facts.names) := by
  rcases hrep with hrep | ⟨-, hrep⟩
  · exact names_of_resolve hp hsig hrep
  · obtain ⟨crossed, hfind⟩ := Congruence.find?_of_lookup hrep
    exact (Congruence.stands_of_find? ht hfind).mono fun _ hv => hv.1

theorem accepts_eq_true {aliases : AliasMap} {out : Var}
    (h : accepts aliases out rep = true) :
    aliases.isStable out = true ∧ rep.All fun r => isFixed aliases r = true := by
  obtain ⟨hout, hrep⟩ := Bool.and_eq_true_iff.1 h
  refine ⟨hout, ?_⟩
  cases rep with
  | var r => exact (Bool.and_eq_true_iff.1 hrep).2
  | lit l => trivial

theorem isFixed_of_isUsable {aliases : AliasMap} (h : isUsable aliases rep = true) :
    rep.All fun r => isFixed aliases r = true := by
  cases rep with
  | var r => exact h
  | lit l => trivial

theorem Matches.stands (hV : Matches V ctx) {names : List String}
    (hn : rep.All (V.Names names)) (hf : rep.All fun r => isFixed ctx.aliases r = true) :
    rep.All (V.Stands names) := by
  cases rep with
  | var r => exact ⟨hn, (hV.fixed r).2 hf⟩
  | lit l => trivial

end Values

/-- **What the values of an instruction do to the state.** The innermost scope
gets facts, the pool grows, and some of the given outputs, which are stable, are
marked. -/
structure Notes (ctx : Context) (block : Nat) (outs : List Var) (s s' : State) : Prop where
  level : s.facts.SameLevel s'.facts
  defined : s'.facts.top.defined = s.facts.top.defined
  invalidated : s'.facts.top.invalidated = s.facts.top.invalidated
  poisoned : s'.facts.top.poisoned = s.facts.top.poisoned
  pool : s.pool.Grows s'.pool
  nextBlock : s'.nextBlock = s.nextBlock
  marks : ∃ new, s'.marks.entries = new ++ s.marks.entries ∧ ∀ e ∈ new, e.1.1 = block
    ∧ (∃ v ∈ outs, v.name = e.1.2 ∧ ctx.aliases.isStable v = true) ∧ s'.pool.Backs e.2

namespace Notes

variable {outs : List Var} {s' s'' : State}

theorem refl (s : State) : Notes ctx block outs s s :=
  ⟨.refl _, rfl, rfl, rfl, .refl _, rfl, [], rfl, fun _ h => nomatch h⟩

theorem trans (h : Notes ctx block outs s s') (h' : Notes ctx block outs s' s'') :
    Notes ctx block outs s s'' := by
  obtain ⟨new, hnew, hok⟩ := h.marks
  obtain ⟨new', hnew', hok'⟩ := h'.marks
  refine ⟨h.level.trans h'.level, h'.defined.trans h.defined, h'.invalidated.trans h.invalidated,
    h'.poisoned.trans h.poisoned, h.pool.trans h'.pool, h'.nextBlock.trans h.nextBlock,
    new' ++ new, ?_, ?_⟩
  · rw [hnew', hnew, List.append_assoc]
  · intro e he
    rcases List.mem_append.1 he with he | he
    · exact hok' e he
    · obtain ⟨hb, hv, hbacks⟩ := hok e he
      exact ⟨hb, hv, hbacks.of_grows h'.pool⟩

end Notes

section Values

variable {removable : Bool} {outs : List Var} {value : Signature × Binding}

theorem notes_of_facts {facts : Congruence} {p : Pool}
    (hl : s.facts.SameLevel facts) (hd : facts.top.defined = s.facts.top.defined)
    (hi : facts.top.invalidated = s.facts.top.invalidated)
    (hp : facts.top.poisoned = s.facts.top.poisoned) (hpool : s.pool.Grows p) :
    Notes ctx block outs s { s with facts := facts, pool := p } :=
  ⟨hl, hd, hi, hp, hpool, rfl, [], rfl, fun _ h => nomatch h⟩

theorem record_level (c : Congruence) (aliases : AliasMap) (sig : Signature) (rep : Operand) :
    c.SameLevel (c.record aliases sig rep).2
      ∧ (c.record aliases sig rep).2.top.defined = c.top.defined
      ∧ (c.record aliases sig rep).2.top.invalidated = c.top.invalidated
      ∧ (c.record aliases sig rep).2.top.poisoned = c.top.poisoned := by
  unfold Congruence.record
  split <;> exact ⟨⟨rfl, rfl, rfl⟩, rfl, rfl, rfl⟩

theorem notes_bindOutput (sig : Signature) (out : Var) (s : State)
    (hout : out ∈ outs) : Notes ctx block outs s (bindOutput ctx block removable sig out s) := by
  obtain ⟨p, hs₁, hp⟩ := resolve_snd ctx sig s
  have h₁ : Notes ctx block outs s (resolve ctx sig s).2 := by
    rw [hs₁]
    exact notes_of_facts (.refl _) rfl rfl rfl hp
  rcases bindOutput_cases ctx block removable sig out s with heq |
    ⟨rep, -, hok, hfacts, hpool, hnext, hmarks⟩ | ⟨-, -, heq⟩
  · rw [heq]
    exact h₁
  · have hlevel : s.facts.SameLevel (s.facts.setCanonical out rep) := ⟨rfl, rfl, rfl⟩
    have hgrows : s.pool.Grows (bindOutput ctx block removable sig out s).pool := by
      rw [hpool]
      exact h₁.pool
    refine ⟨by rwa [hfacts], by rw [hfacts]; rfl, by rw [hfacts]; rfl, by rw [hfacts]; rfl, hgrows,
      hnext, ?_⟩
    rcases hmarks with hmarks | ⟨-, -, r, -, hmarks⟩
    · exact ⟨[], by rw [hmarks]; rfl, fun _ h => nomatch h⟩
    · refine ⟨[((block, out.name), (resolve ctx sig s).2.pool.valueOf? r)], by rw [hmarks]; rfl, ?_⟩
      intro e he
      obtain rfl := List.mem_singleton.1 he
      refine ⟨rfl, ⟨out, hout, rfl, (accepts_eq_true hok).1⟩, ?_⟩
      rw [hpool]
      exact Pool.backs_valueOf? _ r
  · rw [heq, hs₁]
    obtain ⟨hl, hd, hi, hpo⟩ := record_level s.facts ctx.aliases sig (.var out)
    exact notes_of_facts hl hd hi hpo hp

theorem notes_bindKnown (sig : Signature) (src : Operand) (s : State) (outs : List Var) :
    Notes ctx block outs s (bindKnown ctx sig src s) := by
  rcases bindKnown_cases ctx sig src s with heq | ⟨-, -, heq⟩
  · rw [heq]
    exact .refl s
  · rw [heq]
    obtain ⟨hl, hd, hi, hpo⟩ :=
      record_level s.facts ctx.aliases sig (s.facts.canonicalOperand src)
    exact notes_of_facts hl hd hi hpo (.refl _)

theorem notes_bind (hvalue : value.2.outs ⊆ outs)
    (s : State) : Notes ctx block outs s (bind ctx block removable s value) := by
  obtain ⟨sig, binding⟩ := value
  cases binding with
  | output out => exact notes_bindOutput _ out s (hvalue (List.mem_singleton_self out))
  | known src => exact notes_bindKnown _ src s outs

theorem notes_foldl_bind {values : List (Signature × Binding)}
    (hvalues : ∀ value ∈ values, value.2.outs ⊆ outs) (s : State) :
    Notes ctx block outs s (values.foldl (bind ctx block removable) s) := by
  induction values generalizing s with
  | nil => exact .refl s
  | cons value values ih =>
    obtain ⟨hvalue, hvalues⟩ := List.forall_mem_cons.1 hvalues
    exact (notes_bind hvalue s).trans (ih hvalues _)

/-- The outputs of the values are all that is noted. -/
theorem notes_foldl_bind_outs (ctx : Context) (block : Nat) (removable : Bool)
    (values : List (Signature × Binding)) (s : State) :
    Notes ctx block (values.flatMap (·.2.outs)) s (values.foldl (bind ctx block removable) s) :=
  notes_foldl_bind (fun value hv _ hout => List.mem_flatMap.2 ⟨value, hv, hout⟩) s

theorem tidy_bindOutput (hV : Matches V ctx) (h : V.Tidy s.facts.scopes) {sig : Signature}
    {out : Var} (hp : KnownPool V (bindOutput ctx block removable sig out s).pool)
    (hsig : sig.All (V.Names s.facts.names)) (hname : V.Names s.facts.names out)
    (htext : V.text out) : V.Tidy (bindOutput ctx block removable sig out s).facts.scopes := by
  obtain ⟨p, hs₁, -⟩ := resolve_snd ctx sig s
  rcases bindOutput_cases ctx block removable sig out s with heq |
    ⟨rep, hfinds, hok, hfacts, hpool, -⟩ | ⟨hstable, -, heq⟩
  · rw [heq, hs₁]
    exact h
  · obtain ⟨hout, hfixed⟩ := accepts_eq_true hok
    rw [hpool] at hp
    rw [hfacts]
    exact Congruence.tidy_setCanonical h ⟨hname, htext, (hV.stable out).2 hout⟩
      (hV.stands (names_of_finds h hp hsig hfinds) hfixed)
  · rw [heq, hs₁]
    refine Congruence.tidy_record h _ hsig ⟨hname, (hV.fixed out).2 ?_⟩
    exact Bool.or_eq_true_iff.2 (.inr hstable)

theorem tidy_bindKnown (hV : Matches V ctx) (h : V.Tidy s.facts.scopes) {sig : Signature}
    (hsig : sig.All (V.Names s.facts.names)) {src : Operand}
    (hsrc : src.All (V.Names s.facts.names)) : V.Tidy (bindKnown ctx sig src s).facts.scopes := by
  rcases bindKnown_cases ctx sig src s with heq | ⟨husable, -, heq⟩
  · rw [heq]
    exact h
  · rw [heq]
    refine Congruence.tidy_record h _ hsig (hV.stands ?_ (isFixed_of_isUsable husable))
    exact Congruence.names_canonicalOperand h hsrc

/-- Taking note of a value keeps the scopes tidy, if the pool behind it has
constants only. -/
theorem tidy_bind (hV : Matches V ctx) (h : V.Tidy s.facts.scopes)
    (hp : KnownPool V (bind ctx block removable s value).pool)
    (hsig : value.1.All (V.Names s.facts.names)) (hbinding : value.2.All (V.Names s.facts.names))
    (htext : ∀ out, value.2 = .output out → V.text out) :
    V.Tidy (bind ctx block removable s value).facts.scopes := by
  obtain ⟨sig, binding⟩ := value
  have hsig' := Congruence.names_canonicalize h hsig
  cases binding with
  | output out => exact tidy_bindOutput hV h hp hsig' hbinding (htext out rfl)
  | known src => exact tidy_bindKnown hV h hsig' hbinding

theorem tidy_foldl_bind (hV : Matches V ctx) {values : List (Signature × Binding)} {s : State}
    (h : V.Tidy s.facts.scopes) (hp : KnownPool V (values.foldl (bind ctx block removable) s).pool)
    (hvalues : ∀ value ∈ values, value.1.All (V.Names s.facts.names)
      ∧ value.2.All (V.Names s.facts.names) ∧ ∀ out, value.2 = .output out → V.text out) :
    V.Tidy (values.foldl (bind ctx block removable) s).facts.scopes := by
  induction values generalizing s with
  | nil => exact h
  | cons value values ih =>
    obtain ⟨⟨hsig, hbinding, htext⟩, hvalues⟩ := List.forall_mem_cons.1 hvalues
    have hrest := notes_foldl_bind_outs ctx block removable
      values (bind ctx block removable s value)
    refine ih (tidy_bind hV h (hp.of_grown hrest.pool) hsig hbinding htext) hp ?_
    have hnames : (bind ctx block removable s value).facts.names = s.facts.names :=
      (notes_bind (List.Subset.refl value.2.outs) s).level.names
    rw [hnames]
    exact hvalues

theorem wellFormed_bind (hV : Serves V ctx) (h : WellFormed V s)
    (hsig : value.1.All (V.Names s.facts.names)) (hbinding : value.2.All (V.Names s.facts.names))
    (htext : ∀ out, value.2 = .output out → V.text out) :
    WellFormed V (bind ctx block removable s value) := by
  have hnotes : Notes ctx block value.2.outs s (bind ctx block removable s value) :=
    notes_bind (List.Subset.refl _) s
  have hp := h.constants.of_grows hV hnotes.pool
  exact ⟨tidy_bind hV.toMatches h.tidy hp hsig hbinding htext, hp⟩

end Values

/-! ## The whole visit -/

/-- The state in which the values of an instruction are looked up: its outputs
are assigned and its writes are done. -/
def carriedOut (ctx : Context) (i : Instruction) (facts : Congruence) (s : State) : State :=
  i.writes.foldl (write ctx) { (substitute i s).2 with facts }

/-- Folds if the settings say so. -/
def foldIf (ctx : Context) (block : Nat) (i : Instruction) (s : State) : Instruction × State :=
  if ctx.settings.constantFold then fold ctx block i s else (i, s)

/-- **A visit without a fault, phase by phase.** -/
theorem visitInstruction_cases
    (h : (visitInstruction ctx block i s).fault = none) :
    ∃ facts removable values,
      (∀ v ∈ i.readVars ++ i.outputs, s.knows v = true)
      ∧ i.assigned.foldlM Congruence.define s.facts = .ok facts
      ∧ (i.mapOperands (replace s.facts)).isRemovable ctx.foreign = .ok removable
      ∧ (i.mapOperands (replace s.facts)).signatures ctx.foreign = .ok values
      ∧ let r := foldIf ctx block (i.mapOperands (replace s.facts))
          (values.foldl (bind ctx block removable) (carriedOut ctx i facts s))
        visitInstruction ctx block i s
          = ⟨r.1, { r.2 with facts := r.1.closes.foldl Congruence.close r.2.facts }, none⟩ := by
  unfold visitInstruction at h ⊢
  cases hu : ctx.undeclared? s (i.readVars ++ i.outputs) with
  | some e => simp [hu] at h
  | none =>
    simp only [hu, substitute_fst, (substitute_quiet i s).facts, Instruction.assigned_mapOperands,
      Instruction.writes_mapOperands] at h ⊢
    cases hd : i.assigned.foldlM Congruence.define s.facts with
    | error e => simp [hd] at h
    | ok facts =>
      simp only [hd] at h ⊢
      unfold numberValues at h ⊢
      cases hr : (i.mapOperands (replace s.facts)).isRemovable ctx.foreign with
      | error e => simp [hr, Bind.bind, Except.bind] at h
      | ok removable =>
        cases hv : (i.mapOperands (replace s.facts)).signatures ctx.foreign with
        | error e => simp [hr, hv, Bind.bind, Except.bind] at h
        | ok values =>
          exact ⟨facts, removable, values, undeclared?_eq_none.1 hu, rfl, rfl, rfl, rfl⟩

theorem foldable?_eq_some {foreign : Foreign} {dst : Var}
    (h : foldable? foreign i = some dst) : i.results = [dst] := by
  unfold foldable? at h
  split at h
  · split at h
    · exact Option.some.inj h ▸ rfl
    · cases h
  · split at h
    · exact Option.some.inj h ▸ rfl
    · cases h
  · cases h

/-- **What folding does**: nothing, or it marks an output whose representative
is a literal and perhaps puts a copy of the literal in place of the computation.
-/
theorem foldIf_cases (ctx : Context) (block : Nat) (i : Instruction) (s : State) :
    let r := foldIf ctx block i s
    r.2.facts = s.facts ∧ r.2.pool = s.pool ∧ r.2.nextBlock = s.nextBlock
      ∧ (r.1 = i ∧ r.2.marks = s.marks
        ∨ ∃ dst l, foldable? ctx.foreign i = some dst ∧ s.facts.canonical? dst = some (.lit l)
          ∧ (r.1 = i ∨ r.1 = .compute .now .copy dst [.lit l])
          ∧ (r.2.marks = s.marks ∨ r.2.marks = s.marks.add block dst none)) := by
  unfold foldIf
  simp only
  split
  · unfold fold
    split
    · exact ⟨rfl, rfl, rfl, .inl ⟨rfl, rfl⟩⟩
    · rename_i dst hdst
      split
      · rename_i l hl
        have hmarks : ∀ s₁ : State, s₁ = (if dst.definition ≠ .outArg
            then { s with marks := s.marks.add block dst none } else s) →
            s₁.facts = s.facts ∧ s₁.pool = s.pool ∧ s₁.nextBlock = s.nextBlock
              ∧ (s₁.marks = s.marks ∨ s₁.marks = s.marks.add block dst none) := by
          rintro s₁ rfl
          split
          · exact ⟨rfl, rfl, rfl, .inr rfl⟩
          · exact ⟨rfl, rfl, rfl, .inl rfl⟩
        obtain ⟨h₁, h₂, h₃, h₄⟩ := hmarks _ rfl
        simp only
        split
        · exact ⟨h₁, h₂, h₃, .inr ⟨dst, l, hdst, hl, .inl rfl, h₄⟩⟩
        · exact ⟨h₁, h₂, h₃, .inr ⟨dst, l, hdst, hl, .inr rfl, h₄⟩⟩
      · exact ⟨rfl, rfl, rfl, .inl ⟨rfl, rfl⟩⟩
  · exact ⟨rfl, rfl, rfl, .inl ⟨rfl, rfl⟩⟩

/-- **The facts behind a visit, phase by phase.** -/
theorem visitInstruction_facts
    (h : (visitInstruction ctx block i s).fault = none) :
    ∃ facts removable values, (∀ v ∈ i.readVars ++ i.outputs, s.knows v = true)
      ∧ i.assigned.foldlM Congruence.define s.facts = .ok facts
      ∧ (i.mapOperands (replace s.facts)).isRemovable ctx.foreign = .ok removable
      ∧ (i.mapOperands (replace s.facts)).signatures ctx.foreign = .ok values
      ∧ (visitInstruction ctx block i s).state.facts
        = (visitInstruction ctx block i s).tree.closes.foldl Congruence.close
          (values.foldl (bind ctx block removable) (carriedOut ctx i facts s)).facts := by
  obtain ⟨facts, removable, values, hknown, hdefine, hremovable, hvalues, heq⟩ :=
    visitInstruction_cases h
  refine ⟨facts, removable, values, hknown, hdefine, hremovable, hvalues, ?_⟩
  rw [heq]
  dsimp only
  rw [(foldIf_cases ctx block _ _).1]

/-- **The instruction that a visit leaves**: the visited one with its operands
replaced, or a copy of a literal in its place. -/
theorem visitInstruction_tree
    (h : (visitInstruction ctx block i s).fault = none) :
    (visitInstruction ctx block i s).tree = i.mapOperands (replace s.facts)
      ∨ ∃ dst l, foldable? ctx.foreign (i.mapOperands (replace s.facts)) = some dst
        ∧ (visitInstruction ctx block i s).tree = .compute .now .copy dst [.lit l] := by
  obtain ⟨facts, removable, values, -, -, -, -, heq⟩ := visitInstruction_cases h
  obtain ⟨-, -, -, hcases⟩ := foldIf_cases ctx block (i.mapOperands (replace s.facts))
    (values.foldl (bind ctx block removable) (carriedOut ctx i facts s))
  rw [heq]
  rcases hcases with ⟨htree, -⟩ | ⟨dst, l, hdst, -, htree | htree, -⟩
  · exact .inl htree
  · exact .inl htree
  · exact .inr ⟨dst, l, hdst, htree⟩

/-- A variable with a representative is stable. -/
theorem isStable_of_canonical? (hV : Suits V ctx)
    {facts : Congruence} (h : V.Tidy facts.scopes) {v : Var} (hv : V.text v) {rep : Operand}
    (hrep : facts.canonical? v = some rep) : ctx.aliases.isStable v = true := by
  obtain ⟨a, ha, -⟩ := Option.map_eq_some_iff.1 hrep
  obtain ⟨scope, hmem, hget⟩ := List.exists_of_findSome?_eq_some ha
  obtain ⟨e, he, hk, -⟩ := Table.get?_eq_some_iff.1 hget
  obtain ⟨-, htext, hstable⟩ := ((Congruence.mentions_of_tidy h hmem).canonical e he).1
  exact hV.consistent e.1 v htext hv hk ▸ (hV.stable e.1).1 hstable

theorem notes_foldIf (hV : Suits V ctx) (block : Nat)
    (h : V.Tidy s.facts.scopes) (hi : ∀ v ∈ i.outputs, V.text v) :
    Notes ctx block i.results s (foldIf ctx block i s).2 := by
  obtain ⟨h₁, h₂, h₃, h₄⟩ := foldIf_cases ctx block i s
  refine ⟨by rw [h₁]; exact .refl _, by rw [h₁], by rw [h₁], by rw [h₁], by rw [h₂]; exact .refl _,
    h₃, ?_⟩
  rcases h₄ with ⟨-, hm⟩ | ⟨dst, l, hdst, hl, -, hm | hm⟩
  · exact ⟨[], by rw [hm]; rfl, fun _ h => nomatch h⟩
  · exact ⟨[], by rw [hm]; rfl, fun _ h => nomatch h⟩
  · have hmem : dst ∈ i.results := by
      rw [foldable?_eq_some hdst]
      exact List.mem_singleton_self dst
    refine ⟨[((block, dst.name), none)], by rw [hm]; rfl, fun e he => ?_⟩
    obtain rfl := List.mem_singleton.1 he
    refine ⟨rfl, ⟨dst, hmem, rfl, ?_⟩, Pool.backs_none _⟩
    exact isStable_of_canonical? hV h (hi dst (i.results_subset hmem)) hl

/-- The locations that instructions write. -/
def locations (aliases : AliasMap) (is : List Instruction) : List Location :=
  is.flatMap fun i => writtenBy aliases i.writes

section Visit

variable {facts : Congruence}

theorem carriedOut_phases (ctx : Context) (i : Instruction) (facts : Congruence) (s : State) :
    (carriedOut ctx i facts s).facts = (writtenBy ctx.aliases i.writes).foldl
        (fun c l => (c.invalidate ctx.aliases l).2) facts
      ∧ (carriedOut ctx i facts s).pool = s.pool ∧ (carriedOut ctx i facts s).marks = s.marks
      ∧ (carriedOut ctx i facts s).nextBlock = s.nextBlock := by
  have hquiet := substitute_quiet i s
  obtain ⟨hfacts, hpool, hmarks, hnext⟩ :=
    foldl_write_spec ctx i.writes { (substitute i s).2 with facts }
  exact ⟨hfacts, hpool.trans hquiet.pool, hmarks.trans hquiet.marks, hnext.trans hquiet.nextBlock⟩

/-- Behind its writes, the outputs of an instruction are assigned and its
locations written. -/
theorem carriedOut_spec (ctx : Context)
    (hd : i.assigned.foldlM Congruence.define s.facts = .ok facts) :
    s.facts.SameLevel (carriedOut ctx i facts s).facts
      ∧ (carriedOut ctx i facts s).facts.top.defined
        = (i.assigned.map (·.name)).reverse ++ s.facts.top.defined
      ∧ (carriedOut ctx i facts s).facts.top.invalidated
        = s.facts.top.invalidated ++ writtenBy ctx.aliases i.writes := by
  obtain ⟨hfacts, -, -, -⟩ := carriedOut_phases ctx i facts s
  obtain ⟨h₁, h₂, h₃, h₄, -, -, -, h₈⟩ :=
    Congruence.sameLevel_invalidateAll ctx.aliases (writtenBy ctx.aliases i.writes) facts
  obtain ⟨rfl, -, -⟩ := Congruence.foldlM_define_eq_ok hd
  rw [hfacts]
  exact ⟨⟨h₁, h₂, h₃⟩, h₄, h₈⟩

theorem tidy_carriedOut (hs : V.Tidy s.facts.scopes)
    (hd : i.assigned.foldlM Congruence.define s.facts = .ok facts) :
    V.Tidy (carriedOut ctx i facts s).facts.scopes := by
  obtain ⟨hfacts, -, -, -⟩ := carriedOut_phases ctx i facts s
  obtain ⟨rfl, -, -⟩ := Congruence.foldlM_define_eq_ok hd
  obtain ⟨htop, houter⟩ := Congruence.tidy_iff.1 hs
  rw [hfacts]
  refine Congruence.tidy_invalidateAll _ _ (Congruence.tidy_iff.2 ⟨?_, houter⟩)
  exact ⟨htop.canonical, htop.values, htop.closed⟩

/-- An instruction of the text mentions only what may be mentioned, once its
variables are checked. -/
theorem names_of_known (hi : i.All V.text)
    (hknown : ∀ v ∈ i.readVars ++ i.outputs, s.knows v = true) : i.All (V.Names s.facts.names) := by
  refine ⟨fun r hr => ?_, fun v hv => ?_⟩
  · obtain ⟨role, a⟩ := r
    cases a with
    | var v =>
      refine names_of_knows (hknown v (List.mem_append_left _ ?_)) (hi.1 _ hr)
      exact List.mem_filterMap.2 ⟨_, hr, rfl⟩
    | lit l => trivial
  · exact names_of_knows (hknown v (List.mem_append_right _ hv)) (hi.2 v hv)

end Visit

section Visit

variable {facts : Congruence} {values : List (Signature × Binding)}

theorem wellFormed_carriedOut (hs : WellFormed V s)
    (hd : i.assigned.foldlM Congruence.define s.facts = .ok facts) :
    WellFormed V (carriedOut ctx i facts s) := by
  refine ⟨tidy_carriedOut hs.tidy hd, ?_⟩
  rw [(carriedOut_phases ctx i facts s).2.1]
  exact hs.constants

theorem all_mapOperands (hs : V.Tidy s.facts.scopes) (hi : i.All V.text)
    (hknown : ∀ v ∈ i.readVars ++ i.outputs, s.knows v = true)
    (hd : i.assigned.foldlM Congruence.define s.facts = .ok facts) :
    (i.mapOperands (replace s.facts)).All (V.Names (carriedOut ctx i facts s).facts.names) := by
  rw [(carriedOut_spec ctx hd).1.names]
  exact (names_of_known hi hknown).mapOperands fun _ _ => names_replace hs

/-- The values that an instruction makes available are told in terms of what may
be used. -/
theorem names_values (hs : V.Tidy s.facts.scopes) (hi : i.All V.text)
    (hknown : ∀ v ∈ i.readVars ++ i.outputs, s.knows v = true)
    (hd : i.assigned.foldlM Congruence.define s.facts = .ok facts)
    (hv : (i.mapOperands (replace s.facts)).signatures ctx.foreign = .ok values) :
    ∀ value ∈ values, value.1.All (V.Names (carriedOut ctx i facts s).facts.names)
      ∧ value.2.All (V.Names (carriedOut ctx i facts s).facts.names)
      ∧ ∀ out, value.2 = .output out → V.text out := by
  intro value hvalue
  obtain ⟨hsig, hbinding⟩ := (all_mapOperands hs hi hknown hd).signatures hv value hvalue
  refine ⟨hsig, hbinding, fun out hout => hi.2 out ?_⟩
  have hresult := Instruction.outs_signatures hv value hvalue
  rw [Instruction.results_mapOperands, hout] at hresult
  exact i.results_subset (hresult (List.mem_singleton_self out))

/-- Noting the values of an instruction keeps the scopes tidy, if the pool
behind it has constants only. -/
theorem tidy_values (hV : Matches V ctx) (block : Nat) (removable : Bool)
    (hs : V.Tidy s.facts.scopes) (hi : i.All V.text)
    (hknown : ∀ v ∈ i.readVars ++ i.outputs, s.knows v = true)
    (hd : i.assigned.foldlM Congruence.define s.facts = .ok facts)
    (hv : (i.mapOperands (replace s.facts)).signatures ctx.foreign = .ok values)
    (hp : KnownPool V (values.foldl (bind ctx block removable) (carriedOut ctx i facts s)).pool) :
    V.Tidy (values.foldl (bind ctx block removable) (carriedOut ctx i facts s)).facts.scopes :=
  tidy_foldl_bind hV (tidy_carriedOut hs hd) hp (names_values hs hi hknown hd hv)

/-- Noting the values of an instruction keeps the state well formed. -/
theorem wellFormed_values (hV : Serves V ctx) (block : Nat) (removable : Bool) (hs : WellFormed V s)
    (hi : i.All V.text) (hknown : ∀ v ∈ i.readVars ++ i.outputs, s.knows v = true)
    (hd : i.assigned.foldlM Congruence.define s.facts = .ok facts)
    (hv : (i.mapOperands (replace s.facts)).signatures ctx.foreign = .ok values) :
    WellFormed V (values.foldl (bind ctx block removable) (carriedOut ctx i facts s)) := by
  have hnotes : Notes ctx block _ _
      (values.foldl (bind ctx block removable) (carriedOut ctx i facts s)) :=
    notes_foldl_bind (Instruction.outs_signatures hv) _
  have hw : WellFormed V (carriedOut ctx i facts s) := wellFormed_carriedOut hs hd
  have hp := hw.constants.of_grows hV hnotes.pool
  exact ⟨tidy_values hV.toMatches block removable hs.tidy hi hknown hd hv hp, hp⟩

/-- Folding mentions no other variables. -/
theorem all_foldIf {P : Var → Prop} (hi : i.All P) (block : Nat) (s : State) :
    (foldIf ctx block i s).1.All P := by
  obtain ⟨-, -, -, hcases⟩ := foldIf_cases ctx block i s
  rcases hcases with ⟨hr, -⟩ | ⟨dst, l, hdst, -, hr | hr, -⟩
  · rwa [hr]
  · rwa [hr]
  · rw [hr]
    refine ⟨fun a ha => ?_, fun v hv => ?_⟩
    · obtain rfl := List.mem_singleton.1 ha
      trivial
    · obtain rfl := List.mem_singleton.1 hv
      refine hi.2 v (i.results_subset ?_)
      rw [foldable?_eq_some hdst]
      exact List.mem_singleton_self v

/-- What is noted about an instruction. -/
theorem notes_of_values (hV : Suits V ctx) (block : Nat) (removable : Bool) (hs : WellFormed V s)
    (hi : i.All V.text) (hknown : ∀ v ∈ i.readVars ++ i.outputs, s.knows v = true)
    (hd : i.assigned.foldlM Congruence.define s.facts = .ok facts)
    (hv : (i.mapOperands (replace s.facts)).signatures ctx.foreign = .ok values) :
    let s₂ := carriedOut ctx i facts s
    let r := foldIf ctx block (i.mapOperands (replace s.facts))
      (values.foldl (bind ctx block removable) s₂)
    Notes ctx block i.results s₂ r.2 := by
  intro s₂ r
  let i₁ := i.mapOperands (replace s.facts)
  let s₃ := values.foldl (bind ctx block removable) s₂
  have hn₃ : Notes ctx block i.results s₂ s₃ :=
    notes_foldl_bind (Instruction.outs_signatures_mapOperands hv) s₂
  have hw₃ : WellFormed V s₃ := wellFormed_values hV block removable hs hi hknown hd hv
  have hn₄ : Notes ctx block i.results s₃ r.2 := by
    have h₄ : Notes ctx block i₁.results s₃ r.2 :=
      notes_foldIf hV block hw₃.tidy (by simpa [i₁] using hi.2)
    simpa [i₁] using h₄
  exact hn₃.trans hn₄

end Visit

/-- **The visit of an instruction keeps the scopes tidy**, if the pool behind it
has constants only, and leaves an instruction that mentions only what may be
mentioned. -/
theorem tidy_visitInstruction (hV : Matches V ctx)
    (hs : V.Tidy s.facts.scopes) (hi : i.All V.text)
    (h : (visitInstruction ctx block i s).fault = none)
    (hp : KnownPool V (visitInstruction ctx block i s).state.pool) :
    V.Tidy (visitInstruction ctx block i s).state.facts.scopes
      ∧ (visitInstruction ctx block i s).tree.All (V.Names s.facts.names) := by
  obtain ⟨facts, removable, values, hknown, hdefine, -, hvalues, heq⟩ := visitInstruction_cases h
  have hnotes : Notes ctx block _ _
      (values.foldl (bind ctx block removable) (carriedOut ctx i facts s)) :=
    notes_foldl_bind (Instruction.outs_signatures hvalues) _
  obtain ⟨hfacts, hpool, -⟩ := foldIf_cases ctx block (i.mapOperands (replace s.facts))
    (values.foldl (bind ctx block removable) (carriedOut ctx i facts s))
  have hnames : (visitInstruction ctx block i s).tree.All (V.Names s.facts.names) := by
    rw [heq]
    exact all_foldIf ((names_of_known hi hknown).mapOperands fun _ _ => names_replace hs) block _
  refine ⟨?_, hnames⟩
  rw [heq] at hp hnames ⊢
  replace hp : KnownPool V (foldIf ctx block (i.mapOperands (replace s.facts))
    (values.foldl (bind ctx block removable) (carriedOut ctx i facts s))).2.pool := hp
  rw [hpool] at hp
  refine Congruence.tidy_foldl_close ?_ fun v hv => ?_
  · rw [hfacts]
    exact tidy_values hV block removable hs hi hknown hdefine hvalues hp
  · rw [hfacts, hnotes.level.names, (carriedOut_spec ctx hdefine).1.names]
    exact hnames.closes v hv

/-- The pool grows with a visit, and the marks that it makes are for outputs of
the instruction. -/
theorem marks_visitInstruction
    (h : (visitInstruction ctx block i s).fault = none) :
    s.pool.Grows (visitInstruction ctx block i s).state.pool
      ∧ ∃ new, (visitInstruction ctx block i s).state.marks.entries = new ++ s.marks.entries
        ∧ ∀ e ∈ new, e.1.1 = block ∧ (∃ v ∈ i.results, v.name = e.1.2)
          ∧ (visitInstruction ctx block i s).state.pool.Backs e.2 := by
  obtain ⟨facts, removable, values, -, -, -, hvalues, heq⟩ := visitInstruction_cases h
  obtain ⟨-, hpool₂, hmarks₂, -⟩ := carriedOut_phases ctx i facts s
  have hnotes : Notes ctx block i.results _
      (values.foldl (bind ctx block removable) (carriedOut ctx i facts s)) :=
    notes_foldl_bind (Instruction.outs_signatures_mapOperands hvalues) _
  obtain ⟨-, hpool, -, hcases⟩ := foldIf_cases ctx block (i.mapOperands (replace s.facts))
    (values.foldl (bind ctx block removable) (carriedOut ctx i facts s))
  obtain ⟨new, hnew, hok⟩ := hnotes.marks
  rw [hmarks₂] at hnew
  have hok' : ∀ e ∈ new, e.1.1 = block ∧ (∃ v ∈ i.results, v.name = e.1.2)
      ∧ (foldIf ctx block (i.mapOperands (replace s.facts))
        (values.foldl (bind ctx block removable) (carriedOut ctx i facts s))).2.pool.Backs e.2 := by
    intro e he
    obtain ⟨hb, ⟨v, hv, hname, -⟩, hbacks⟩ := hok e he
    exact ⟨hb, ⟨v, hv, hname⟩, hpool ▸ hbacks⟩
  rw [heq]
  refine ⟨?_, ?_⟩
  · show s.pool.Grows (foldIf _ _ _ _).2.pool
    rw [hpool, ← hpool₂]
    exact hnotes.pool
  · show ∃ new, (foldIf _ _ _ _).2.marks.entries = _ ∧ _
    rcases hcases with ⟨-, hm⟩ | ⟨dst, l, hdst, -, -, hm | hm⟩
    · exact ⟨new, by rw [hm, hnew], hok'⟩
    · exact ⟨new, by rw [hm, hnew], hok'⟩
    · refine ⟨((block, dst.name), none) :: new, by rw [hm, List.cons_append, ← hnew]; rfl, ?_⟩
      refine List.forall_mem_cons.2 ⟨⟨rfl, ⟨dst, ?_, rfl⟩, Pool.backs_none _⟩, hok'⟩
      rw [← Instruction.results_mapOperands (replace s.facts), foldable?_eq_some hdst]
      exact List.mem_singleton_self dst

/-- **The visit of an instruction keeps the state well formed** and leaves an
instruction that mentions only what may be mentioned. -/
theorem wellFormed_visitInstruction (hV : Serves V ctx)
    (hs : WellFormed V s) (hi : i.All V.text)
    (h : (visitInstruction ctx block i s).fault = none) :
    WellFormed V (visitInstruction ctx block i s).state
      ∧ (visitInstruction ctx block i s).tree.All (V.Names s.facts.names) := by
  have hp := hs.constants.of_grows hV (marks_visitInstruction h).1
  obtain ⟨htidy, hnames⟩ := tidy_visitInstruction hV.toMatches hs.tidy hi h hp
  exact ⟨⟨htidy, hp⟩, hnames⟩

/-- **The facts behind a visit**: of the innermost scope, more is assigned and
written. -/
theorem facts_visitInstruction
    (h : (visitInstruction ctx block i s).fault = none) :
    let s' := (visitInstruction ctx block i s).state
    s.facts.SameLevel s'.facts
      ∧ s'.facts.top.defined = (i.assigned.map (·.name)).reverse ++ s.facts.top.defined
      ∧ s'.facts.top.invalidated = s.facts.top.invalidated ++ writtenBy ctx.aliases i.writes := by
  obtain ⟨facts, removable, values, -, hdefine, -, hvalues, hfacts⟩ := visitInstruction_facts h
  obtain ⟨hlevel, hdefined, hinvalidated⟩ := carriedOut_spec ctx hdefine
  have hnotes : Notes ctx block _ _
      (values.foldl (bind ctx block removable) (carriedOut ctx i facts s)) :=
    notes_foldl_bind (Instruction.outs_signatures hvalues) _
  dsimp only
  rw [hfacts]
  obtain ⟨hlevel', hdefined', hinvalidated', -⟩ := Congruence.foldl_close_spec
    (visitInstruction ctx block i s).tree.closes
    (values.foldl (bind ctx block removable) (carriedOut ctx i facts s)).facts
  exact ⟨(hlevel.trans hnotes.level).trans hlevel', hdefined'.trans (hnotes.defined.trans hdefined),
    hinvalidated'.trans (hnotes.invalidated.trans hinvalidated)⟩

/-- **A visit marks stable variables that its instruction assigns.** -/
theorem stable_visitInstruction (hV : Suits V ctx)
    (hs : WellFormed V s) (hi : i.All V.text)
    (h : (visitInstruction ctx block i s).fault = none) :
    ∀ e ∈ (visitInstruction ctx block i s).state.marks.entries, e ∈ s.marks.entries
      ∨ e.1.1 = block ∧ ∃ v ∈ i.assigned, V.text v ∧ v.name = e.1.2
        ∧ ctx.aliases.isStable v = true := by
  obtain ⟨facts, removable, values, hknown, hdefine, -, hvalues, heq⟩ := visitInstruction_cases h
  obtain ⟨new, hnew, hok⟩ := (notes_of_values hV block removable hs hi hknown hdefine hvalues).marks
  rw [heq]
  intro e he
  rcases List.mem_append.1 (hnew ▸ he) with he | he
  · obtain ⟨hb, ⟨v, hv, hname, hstable⟩, -⟩ := hok e he
    have hmem : v ∈ i.assigned :=
      Instruction.mem_assigned.2 ⟨hv, by simpa using (Bool.and_eq_true_iff.1 hstable).1⟩
    exact .inr ⟨hb, v, hmem, hi.2 v (i.results_subset hv), hname, hstable⟩
  · rw [(carriedOut_phases ctx i facts s).2.2.1] at he
    exact .inl he

end Numbering

end ValueFlow
