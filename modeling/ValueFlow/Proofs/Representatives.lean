import ValueFlow.Proofs.FunctionSimulation

/-!
# Which variables have representatives

A variable gets a representative when it is assigned, and loses it at the latest
when its scope is left. So, as long as blocks declare new names (`anew`) and
none of these is marked as a constant, a variable that is not assigned yet has
no representative (`InOrder.assigned`). The marks are in order as well: where
the output of an instruction is marked, the instruction only computes something,
and a foreign function that it calls gives the same result each time
(`Instruction.isPure`).
-/

namespace ValueFlow

/-! ## New names -/

/-- **Blocks declare new names**, and none of the variables that they declare is
marked as a constant. -/
def anew : Requirement where
  declares p vars := ∀ v ∈ vars, v.name ∉ p.names ∧ v.isGlobalConst = false
  instruction _ _ _ := True
  operand _ _ := True
  trigger p t := ∀ v ∈ t.declared, v.name ∉ p.names

section Anew

variable {names : List String}

theorem not_mem_of_all {vars : List Var} (h : vars.all (fun v => !names.contains v.name) = true)
    {p : Point} (hp : p.names ⊆ names) : ∀ v ∈ vars, v.name ∉ p.names := fun v hv hmem => by
  have hall := List.all_eq_true.1 h v hv
  rw [Bool.not_eq_true', ← Bool.not_eq_true, List.contains_iff_mem] at hall
  exact hall (hp hmem)

theorem declare_names_subset {p : Point} (hp : p.names ⊆ names) (vars : List Var) :
    (p.declare vars).names ⊆ vars.map (·.name) ++ names :=
  List.append_subset.2 ⟨fun _ hn => List.mem_append_left _ (List.mem_reverse.1 hn),
    List.subset_append_of_subset_right _ hp⟩

mutual
theorem Block.meets_anew : ∀ {b : Block} {names : List String} {n : Nat} {p : Point},
    b.declaresAnew names = true → (∀ v ∈ b.declarations, v.isGlobalConst = false) →
    p.names ⊆ names →
    b.Meets anew n p
  | .mk vars body, names, n, p, h, hd, hp => by
    rw [Block.declaresAnew, Bool.and_eq_true] at h
    rw [Block.declarations, List.forall_mem_append] at hd
    refine ⟨fun v hv => ⟨not_mem_of_all h.1 hp v hv, hd.1 v hv⟩, ?_⟩
    exact Body.meets_anew h.2 hd.2 (declare_names_subset hp vars)
theorem Body.meets_anew : ∀ {b : Body} {names : List String} {block n : Nat} {p : Point},
    b.declaresAnew names = true → (∀ v ∈ b.declarations, v.isGlobalConst = false) →
    p.names ⊆ names →
    b.Meets anew block n p
  | .done, names, block, n, p, _, _, _ => trivial
  | .instr i rest, names, block, n, p, h, hd, hp => ⟨trivial, Body.meets_anew h hd hp⟩
  | .cont c rest, names, block, n, p, h, hd, hp => by
    rw [Body.declaresAnew, Bool.and_eq_true] at h
    rw [Body.declarations, List.forall_mem_append] at hd
    exact ⟨Continuation.meets_anew h.1 hd.1 hp, Body.meets_anew h.2 hd.2 hp⟩
theorem Continuation.meets_anew : ∀ {c : Continuation} {names : List String} {n : Nat} {p : Point},
    c.declaresAnew names = true → (∀ v ∈ c.declarations, v.isGlobalConst = false) →
    p.names ⊆ names →
    c.Meets anew n p
  | .ifElse condition t e, names, n, p, h, hd, hp => by
    rw [Continuation.declaresAnew, Bool.and_eq_true] at h
    rw [Continuation.declarations, List.forall_mem_append] at hd
    exact ⟨trivial, Block.meets_anew h.1 hd.1 hp, Block.meets_anew h.2 hd.2 hp⟩
  | .switch value arms, names, n, p, h, hd, hp => ⟨trivial, Arms.meets_anew h hd hp⟩
  | .deferred trigger b, names, n, p, h, hd, hp => by
    rw [Continuation.declaresAnew, Bool.and_eq_true] at h
    refine ⟨not_mem_of_all h.1 hp, Block.meets_anew h.2 hd ?_⟩
    exact declare_names_subset hp trigger.declared
  | .nested b, names, n, p, h, hd, hp => Block.meets_anew h hd hp
theorem Arms.meets_anew : ∀ {arms : Arms} {names : List String} {n : Nat} {p : Point},
    arms.declaresAnew names = true → (∀ v ∈ arms.declarations, v.isGlobalConst = false) →
    p.names ⊆ names → arms.Meets anew n p
  | .none, names, n, p, _, _, _ => trivial
  | .default b, names, n, p, h, hd, hp => Block.meets_anew h hd hp
  | .case label b rest, names, n, p, h, hd, hp => by
    rw [Arms.declaresAnew, Bool.and_eq_true] at h
    rw [Arms.declarations, List.forall_mem_append] at hd
    exact ⟨Block.meets_anew h.1 hd.1 hp, Arms.meets_anew h.2 hd.2 hp⟩
end

end Anew

/-! ## Pure instructions -/

namespace Instruction

/-- **The instruction is pure**: it only computes its outputs, from its inputs
and the storage that it reads. A foreign function that it calls acts on nothing
else and gives the same result each time. -/
def isPure (foreign : Foreign) (i : Instruction) : Bool :=
  i.onlyComputes && match i with
    | call _ function _ _ =>
      match foreign.lookup function with
      | .ok g => g.deterministic && !g.sideEffects
      | .error _ => false
    | _ => true

variable {foreign : Foreign} {i : Instruction}

@[simp] theorem isPure_mapOperands (f : Role → Operand → Operand) (i : Instruction) :
    (i.mapOperands f).isPure foreign = i.isPure foreign := by
  cases i with
  | readElement access dst arr ix => cases access <;> rfl
  | readField access dst record path => cases access <;> rfl
  | _ => rfl

/-- What may be deleted and makes a value available is pure. -/
theorem isPure_of_signatures {values : List (Signature × Binding)}
    (hrem : i.isRemovable foreign = .ok true) (hvalues : i.signatures foreign = .ok values)
    (hne : values ≠ []) : i.isPure foreign = true := by
  unfold isRemovable at hrem
  unfold isPure
  split at hrem
  · rename_i honly
    rw [honly, Bool.true_and]
    cases i with
    | call timing function outputs inputs =>
      unfold hasSideEffects at hrem
      unfold signatures at hvalues
      cases hg : foreign.lookup function with
      | error e =>
        simp only [hg] at hrem
        cases hrem
      | ok g =>
        simp only [hg] at hrem hvalues ⊢
        have heffects : (!g.sideEffects) = true := Except.ok.inj hrem
        cases hdet : g.deterministic with
        | true => rw [heffects, Bool.and_self]
        | false =>
          replace hvalues : (if (!g.deterministic) = true then pure [] else _) = Except.ok values :=
            hvalues
          rw [hdet] at hvalues
          exact absurd (Except.ok.inj hvalues).symm hne
    | _ => rfl
  · cases hrem

end Instruction

namespace Numbering

/-! ## Where representatives come from -/

section Visit

variable {ctx : Context} {block : Nat} {removable : Bool}
  {i : Instruction} {v : Var} {rep : Operand}
  {values : List (Signature × Binding)} {s : State}

/-- A computed value gives a representative to its output only. -/
theorem representative?_bindOutput {sig : Signature} {out : Var}
    (h : (bindOutput ctx block removable sig out s).facts.representative? v = some rep) :
    s.facts.representative? v = some rep
      ∨ out.name = v.name ∧ Finds ctx sig s rep ∧ accepts ctx.aliases out rep = true := by
  rcases bindOutput_cases ctx block removable sig out s
    with heq | ⟨rep', hfinds, hok, hfacts, -⟩ | ⟨-, -, heq⟩
  · rw [heq, facts_resolve] at h
    exact .inl h
  · rw [hfacts] at h
    rcases Congruence.representative?_setCanonical h with ⟨hname, rfl⟩ | h
    · exact .inr ⟨hname, hfinds, hok⟩
    · exact .inl h
  · rw [heq] at h
    rw [Congruence.representative?_record] at h
    exact .inl h

theorem representative?_bindKnown (sig : Signature) (src : Operand) (s : State) :
    (bindKnown ctx sig src s).facts.representative? = s.facts.representative? := by
  rcases bindKnown_cases ctx sig src s with heq | ⟨-, -, heq⟩
  · rw [heq]
  · rw [heq]
    exact Congruence.representative?_record _ _ _

/-- The values of an instruction give representatives to outputs only, which
accept them. -/
theorem representative?_foldl_bind {outs : List Var} (houts : ∀ value ∈ values, value.2.outs ⊆ outs)
    (h : (values.foldl (bind ctx block removable) s).facts.representative? v = some rep) :
    s.facts.representative? v = some rep
      ∨ ∃ out ∈ outs, out.name = v.name ∧ accepts ctx.aliases out rep = true := by
  induction values generalizing s with
  | nil => exact .inl h
  | cons value values ih =>
    obtain ⟨hvalue, houts⟩ := List.forall_mem_cons.1 houts
    rcases ih houts h with h | h
    · unfold bind at h
      obtain ⟨sig, binding⟩ := value
      cases binding with
      | output out =>
        rcases representative?_bindOutput h with h | ⟨hname, -, hok⟩
        · exact .inl h
        · exact .inr ⟨out, hvalue (List.mem_singleton_self out), hname, hok⟩
      | known src =>
        rw [representative?_bindKnown] at h
        exact .inl h
    · exact .inr h

theorem representative?_carriedOut {facts : Congruence}
    (hd : i.assigned.foldlM Congruence.define s.facts = .ok facts) :
    (carriedOut ctx i facts s).facts.representative? = s.facts.representative? := by
  obtain ⟨hfacts, -⟩ := carriedOut_phases ctx i facts s
  obtain ⟨rfl, -, -⟩ := Congruence.foldlM_define_eq_ok hd
  rw [hfacts, Congruence.representative?_invalidateAll]
  exact Congruence.representative?_eq_of_top rfl rfl

theorem representative?_foldl_close (vars : List Var) (c : Congruence) :
    (vars.foldl Congruence.close c).representative? = c.representative? := by
  induction vars generalizing c with
  | nil => rfl
  | cons v vars ih => exact (ih _).trans (Congruence.representative?_eq_of_top rfl rfl)

/-- **The visit of an instruction gives representatives only to variables that
it assigns** and that accept them. -/
theorem representative?_visitInstruction (hf : (visitInstruction ctx block i s).fault = none)
    (h : (visitInstruction ctx block i s).state.facts.representative? v = some rep) :
    s.facts.representative? v = some rep
      ∨ ∃ out ∈ i.assigned, out.name = v.name ∧ accepts ctx.aliases out rep = true := by
  obtain ⟨facts, removable, values, -, hdefine, -, hvalues, hfacts⟩ := visitInstruction_facts hf
  rw [hfacts, representative?_foldl_close] at h
  have houts := Instruction.outs_signatures_mapOperands hvalues
  rcases representative?_foldl_bind houts h with h | ⟨out, hout, hname, hok⟩
  · rw [representative?_carriedOut hdefine] at h
    exact .inl h
  · refine .inr ⟨out, Instruction.mem_assigned.2 ⟨hout, ?_⟩, hname, hok⟩
    simpa using (Bool.and_eq_true_iff.1 (accepts_eq_true hok).1).1

theorem kind_enterDeferred {t : Trigger} (hf : (enterDeferred ctx t s).fault = none) :
    (enterDeferred ctx t s).state.facts.top.kind = .deferred := by
  obtain ⟨closed, hfacts⟩ := facts_enterDeferred hf
  rw [hfacts]
  rfl

/-- Entering a deferred block changes no representatives. -/
theorem representative?_enterDeferred {t : Trigger} (hf : (enterDeferred ctx t s).fault = none) :
    (enterDeferred ctx t s).state.facts.representative? = s.facts.representative? := by
  obtain ⟨closed, hfacts⟩ := facts_enterDeferred hf
  rw [hfacts]
  rfl

end Visit

section Leaving

variable {c : Congruence} {v : Var} {rep : Operand}

/-- A representative that is known behind a nested block was known before it, or
it is kept from the block. -/
theorem representative?_of_mergeNested {child : Scope}
    (h : (c.mergeNested child).representative? v = some rep) :
    c.representative? v = some rep ∨ ∃ e ∈ child.canonical.entries, e.1.name = v.name ∧ e.2 = rep
      ∧ c.isDeclared e.1 = true ∧ c.isVisible e.2 = true := by
  rcases Congruence.representative?_insertAll c _ _ h rfl rfl with ⟨e, he, hname, hrep⟩ | h
  · obtain ⟨hmem, hok⟩ := List.mem_filter.1 he
    exact .inr ⟨e, hmem, hname, hrep, Bool.and_eq_true_iff.1 hok⟩
  · exact .inl h

/-- A representative that is known behind a conditional was known before it, or
all arms agree on it. -/
theorem representative?_of_mergeBranches {m : AliasMap} {keep : Bool} {arms : List Scope}
    (h : (c.mergeBranches m keep arms).2.representative? v = some rep) :
    c.representative? v = some rep ∨ ∃ first rest, arms = first :: rest
      ∧ ∃ e ∈ first.canonical.entries, e.1.name = v.name ∧ e.2 = rep
        ∧ c.isDeclared e.1 = true ∧ c.isVisible e.2 = true := by
  rcases Congruence.mergeBranches_cases m keep arms c with heq | ⟨first, rest, rfl, heq⟩
  · rw [heq, Congruence.representative?_absorbArms] at h
    exact .inl h
  · rw [heq] at h
    rcases Congruence.representative?_insertAll
      ((first :: rest).foldl (Congruence.absorbArm m) c) _ _ h rfl rfl
      with ⟨e, he, hname, hrep⟩ | h
    · obtain ⟨hmem, hok⟩ := List.mem_filter.1 he
      simp only [Bool.and_eq_true] at hok
      -- the arms do not change what is declared
      obtain ⟨h₁, -, h₃, -⟩ := Congruence.absorbArms_spec m (first :: rest) c
      have hnames := Congruence.names_eq_of_outer h₁ h₃
      refine .inr ⟨first, rest, rfl, e, hmem, hname, hrep, ?_, ?_⟩
      · rw [Congruence.isDeclared_eq, ← hnames, ← Congruence.isDeclared_eq]
        exact hok.1.2
      · cases hvar : e.2 with
        | var w =>
          rw [hvar] at hok
          show c.isDeclared w = true
          rw [Congruence.isDeclared_eq, ← hnames, ← Congruence.isDeclared_eq]
          exact hok.2
        | lit l => rfl
    · rw [Congruence.representative?_absorbArms] at h
      exact .inl h

end Leaving

/-! ## States in order -/

/-- **Names that are declared in an inner scope are new there**, and unless the
scope is that of a deferred block, no variable with such a name is marked as a
constant. -/
def DeclaresAnew (V : Vocabulary) (c : Congruence) : Prop :=
  c.outer ≠ [] → ∀ n ∈ c.top.declared, n ∉ scopeNames c.outer
    ∧ (c.top.kind ≠ .deferred → ∀ v, V.text v → v.name = n → v.isGlobalConst = false)

/-- **What is assigned in a scope and may be used around it lives on.** -/
theorem DeclaresAnew.outlives {V : Vocabulary} {c : Congruence} {child : Scope}
    (h : DeclaresAnew V ⟨child, c.scopes⟩) (hkind : child.kind ≠ .deferred) {v : Var}
    (hv : V.text v) (hdeclared : c.isDeclared v = true) (hdefined : v.name ∈ child.defined) :
    v.name ∈ child.outliving := by
  refine List.mem_filter.2 ⟨hdefined, ?_⟩
  rw [Bool.not_eq_true', ← Bool.not_eq_true, List.contains_iff_mem]
  intro hmem
  obtain ⟨hnew, hconst⟩ := h (List.cons_ne_nil _ _) v.name hmem
  rcases Congruence.isDeclared_iff.1 hdeclared with hg | hn
  · rw [hconst hkind v hv rfl] at hg
    cases hg
  · exact hnew hn

/-- **The state is in order**: variables with representatives are assigned,
scopes declare new names, and where an output is marked, one of the given
instructions assigns it and is pure. -/
structure InOrder (V : Vocabulary) (ctx : Context) (is : List (Nat × Instruction)) (s : State) :
    Prop where
  wellFormed : WellFormed V s
  assigned : ∀ v rep, s.facts.representative? v = some rep → v.name ∈ s.facts.definedNames
  anew : DeclaresAnew V s.facts
  marked : ∀ e ∈ s.marks.entries, ∃ i, (e.1.1, i) ∈ is ∧ i.isPure ctx.foreign = true
    ∧ ∃ v ∈ i.assigned, v.name = e.1.2 ∧ V.text v

section InOrder

variable {V : Vocabulary} {ctx : Context} {is : List (Nat × Instruction)}
  {block : Nat} {i : Instruction}
  {s : State}

/-- Only an instruction that may be deleted and makes a value available marks
its outputs. -/
theorem marks_foldl_bind (removable : Bool) (values : List (Signature × Binding)) (s : State) :
    (values.foldl (bind ctx block removable) s).marks = s.marks
      ∨ removable = true ∧ values ≠ [] := by
  cases removable with
  | true =>
    cases values with
    | nil => exact .inl rfl
    | cons value values => exact .inr ⟨rfl, List.cons_ne_nil _ _⟩
  | false =>
    refine .inl ?_
    induction values generalizing s with
    | nil => rfl
    | cons value values ih =>
      refine (ih _).trans ?_
      obtain ⟨sig, binding⟩ := value
      cases binding with
      | output out =>
        obtain ⟨p, hp, -⟩ := resolve_snd ctx (s.facts.canonicalize sig) s
        rcases bindOutput_cases ctx block false (s.facts.canonicalize sig) out s with
          heq | ⟨rep, -, -, -, -, -, hmarks⟩ | ⟨-, -, heq⟩
        · show (bindOutput ctx block false (s.facts.canonicalize sig) out s).marks = s.marks
          rw [heq, hp]
        · rcases hmarks with hmarks | ⟨hfalse, -⟩
          · exact hmarks
          · cases hfalse
        · show (bindOutput ctx block false (s.facts.canonicalize sig) out s).marks = s.marks
          rw [heq, hp]
      | known src =>
        rcases bindKnown_cases ctx (s.facts.canonicalize sig) src s with heq | ⟨-, -, heq⟩
        · show (bindKnown ctx (s.facts.canonicalize sig) src s).marks = s.marks
          rw [heq]
        · show (bindKnown ctx (s.facts.canonicalize sig) src s).marks = s.marks
          rw [heq]

/-- **What is folded is pure.** A foreign function whose results vary makes no
value available, and before its output is assigned it has no representative. -/
theorem InOrder.isPure_of_foldable? (hV : Suits V ctx) (hs : InOrder V ctx is s)
    (hi : i.All V.text) {facts : Congruence} {removable : Bool}
    {values : List (Signature × Binding)}
    (hknown : ∀ v ∈ i.readVars ++ i.outputs, s.knows v = true)
    (hdefine : i.assigned.foldlM Congruence.define s.facts = .ok facts)
    (hvalues : (i.mapOperands (replace s.facts)).signatures ctx.foreign = .ok values) {dst : Var}
    {a : Operand} (hdst : foldable? ctx.foreign (i.mapOperands (replace s.facts)) = some dst)
    (hrep : (values.foldl (bind ctx block removable) (carriedOut ctx i facts s)).facts.canonical?
      dst = some a) :
    i.isPure ctx.foreign = true := by
  by_cases hne : values = []
  · have htidy := (wellFormed_values hV block removable
      hs.wellFormed hi hknown hdefine hvalues).tidy
    have hres : dst ∈ i.results := by
      rw [← Instruction.results_mapOperands (replace s.facts), foldable?_eq_some hdst]
      exact List.mem_singleton_self dst
    have hstable := isStable_of_canonical? hV htidy (hi.2 dst (i.results_subset hres)) hrep
    have hassigned : dst ∈ i.assigned :=
      Instruction.mem_assigned.2 ⟨hres, by simpa using (Bool.and_eq_true_iff.1 hstable).1⟩
    obtain ⟨rep, hrep, -⟩ := Option.map_eq_some_iff.1 hrep
    rw [hne, List.foldl_nil, representative?_carriedOut hdefine] at hrep
    exact absurd (hs.assigned dst rep hrep)
      ((Congruence.foldlM_define_eq_ok hdefine).2.1 dst hassigned)
  · rw [← Instruction.isPure_mapOperands (replace s.facts)]
    exact Instruction.isPure_of_signatures (isRemovable_of_foldable? hdst).2 hvalues hne

/-- **The marks of a visit** are for variables that a pure instruction assigns. -/
theorem InOrder.marks_visitInstruction (hV : Suits V ctx) (hs : InOrder V ctx is s)
    (hi : i.All V.text) (h : (visitInstruction ctx block i s).fault = none) :
    ∃ new, (visitInstruction ctx block i s).state.marks.entries = new ++ s.marks.entries
      ∧ ∀ e ∈ new, e.1.1 = block ∧ i.isPure ctx.foreign = true
        ∧ ∃ v ∈ i.assigned, v.name = e.1.2 := by
  obtain ⟨facts, removable, values, hknown, hdefine, hrem, hvalues, heq⟩ := visitInstruction_cases h
  have hnotes := notes_of_values hV block removable hs.wellFormed hi hknown hdefine hvalues
  obtain ⟨-, -, hmarks₂, -⟩ := carriedOut_phases ctx i facts s
  obtain ⟨new, hnew, hok⟩ := hnotes.marks
  rw [hmarks₂] at hnew
  rw [heq]
  refine ⟨new, hnew, fun e he => ?_⟩
  obtain ⟨hb, ⟨v, hv, hname, hstable⟩, -⟩ := hok e he
  refine ⟨hb, ?_, v,
    Instruction.mem_assigned.2 ⟨hv, by simpa using (Bool.and_eq_true_iff.1 hstable).1⟩, hname⟩
  -- a mark was made, when a value was noted or by folding
  obtain ⟨-, -, -, hcases⟩ := foldIf_cases ctx block (i.mapOperands (replace s.facts))
    (values.foldl (bind ctx block removable) (carriedOut ctx i facts s))
  have hpure : removable = true ∧ values ≠ [] → i.isPure ctx.foreign = true := by
    rintro ⟨rfl, hne⟩
    rw [← Instruction.isPure_mapOperands (replace s.facts)]
    exact Instruction.isPure_of_signatures hrem hvalues hne
  have hunmarked : (foldIf ctx block (i.mapOperands (replace s.facts))
      (values.foldl (bind ctx block removable) (carriedOut ctx i facts s))).2.marks
      = (values.foldl (bind ctx block removable) (carriedOut ctx i facts s)).marks →
      i.isPure ctx.foreign = true := by
    intro hm
    rcases marks_foldl_bind removable values (carriedOut ctx i facts s) with hsame | hrem
    · rw [hm, hsame, hmarks₂] at hnew
      rw [List.self_eq_append_left.1 hnew] at he
      cases he
    · exact hpure hrem
  rcases hcases with ⟨-, hm⟩ | ⟨dst, l, hdst, hlit, -, -⟩
  · exact hunmarked hm
  · exact hs.isPure_of_foldable? hV hi hknown hdefine hvalues hdst hlit

/-- **The instruction that a visit leaves**: the visited one with its operands
replaced, or, in place of a pure one, a copy of a literal. -/
theorem InOrder.visitInstruction_tree (hV : Suits V ctx) (hs : InOrder V ctx is s)
    (hi : i.All V.text) (h : (visitInstruction ctx block i s).fault = none) :
    (visitInstruction ctx block i s).tree = i.mapOperands (replace s.facts)
      ∨ i.isPure ctx.foreign = true ∧ ∃ dst l, i.outputs = [dst]
        ∧ (visitInstruction ctx block i s).tree = .compute .now .copy dst [.lit l] := by
  obtain ⟨facts, removable, values, hknown, hdefine, -, hvalues, heq⟩ := visitInstruction_cases h
  obtain ⟨-, -, -, hcases⟩ := foldIf_cases ctx block (i.mapOperands (replace s.facts))
    (values.foldl (bind ctx block removable) (carriedOut ctx i facts s))
  rw [heq]
  rcases hcases with ⟨htree, -⟩ | ⟨dst, l, hdst, hlit, htree | htree, -⟩
  · exact .inl htree
  · exact .inl htree
  · refine .inr ⟨hs.isPure_of_foldable? hV hi hknown hdefine hvalues hdst hlit, dst, l, ?_, htree⟩
    rw [← Instruction.outputs_mapOperands (replace s.facts)]
    exact (isRemovable_of_foldable? hdst).1

theorem definedNames_mono {c c' : Congruence} (ho : c'.outer = c.outer)
    (hdefined : c.top.defined ⊆ c'.top.defined) {n : String} (hn : n ∈ c.definedNames) :
    n ∈ c'.definedNames := by
  rw [Congruence.mem_definedNames] at hn ⊢
  rw [ho]
  exact hn.imp_left (hdefined ·)

/-- **What gets its representative in a scope and may be used around it** is
assigned behind the scope. -/
theorem InOrder.mem_definedNames {c c' : Congruence} {child : Scope} {s' : State}
    (hs' : InOrder V ctx is s') (hfacts : s'.facts = ⟨child, c.scopes⟩)
    (hkind : child.kind ≠ .deferred) (ho : c'.outer = c.outer)
    (hdefined : c.top.defined ⊆ c'.top.defined) (houtliving : child.outliving ⊆ c'.top.defined)
    {e : Var × Operand} (he : e ∈ child.canonical.entries) (hdeclared : c.isDeclared e.1 = true) :
    e.1.name ∈ c'.definedNames := by
  have htext : V.text e.1 := by
    have htidy := hs'.wellFormed.tidy
    rw [hfacts] at htidy
    exact (htidy.1.canonical e he).1.2.1
  have hmem := hs'.assigned e.1 e.2
    (hfacts ▸ Congruence.representative?_of_get? (Table.get?_of_mem he))
  rw [hfacts, Congruence.mem_definedNames] at hmem
  rw [Congruence.mem_definedNames, ho]
  rcases hmem with hmem | hmem
  · have hanew : DeclaresAnew V ⟨child, c.scopes⟩ := hfacts ▸ hs'.anew
    exact .inl (houtliving (hanew.outlives hkind htext hdeclared hmem))
  · rcases List.mem_append.1 hmem with hmem | hmem
    · exact .inl (hdefined hmem)
    · exact .inr hmem

/-- What the text of a walk in order is like. -/
abbrev ordered (V : Vocabulary) (is : List (Nat × Instruction)) : Requirement :=
  (Requirement.ofVars V.text).and (anew.and (.ofInstructions fun n i => (n, i) ∈ is))

/-- **The walk keeps the state in order.** -/
theorem upheld_inOrder (hV : Suits V ctx) :
    Upheld ctx (ordered V is)
      (InOrder V ctx is) := by
  have hU := upheld_wellFormed hV.toServes
  exact {
    quiet := fun hs hq => ⟨hU.quiet hs.wellFormed hq, hq.facts ▸ hs.assigned, hq.facts ▸ hs.anew,
      hq.marks ▸ hs.marked⟩
    declare := fun {s vars} hs hd => by
      obtain ⟨ho, hk, -, hcan, -, -, -, hdecl⟩ := foldl_declare_spec vars s.facts
      refine ⟨hU.declare hs.wellFormed hd.1, fun v rep hrep => ?_, fun hne n hn => ?_, hs.marked⟩
      · show v.name ∈ (vars.foldl Congruence.declare s.facts).definedNames
        rw [definedNames_foldl_declare]
        exact hs.assigned v rep (Congruence.representative?_eq_of_top ho hcan ▸ hrep)
      · replace hne : (vars.foldl Congruence.declare s.facts).outer ≠ [] := hne
        show n ∉ scopeNames (vars.foldl Congruence.declare s.facts).outer
          ∧ ((vars.foldl Congruence.declare s.facts).top.kind ≠ .deferred → _)
        rw [ho] at hne ⊢
        rw [hk]
        rcases (hdecl n).1 hn with hn | ⟨w, hw, rfl⟩
        · exact hs.anew hne n hn
        · obtain ⟨hnew, hconst⟩ := hd.2.1 w hw
          refine ⟨fun hmem => hnew (Congruence.mem_names.2 (.inr hmem)), fun _ v hv hname => ?_⟩
          rw [hV.consistent v w hv (hd.1 w hw) hname]
          exact hconst
    instruction := fun {s block i} hs hi hf => by
      obtain ⟨new, hnew, hok⟩ := hs.marks_visitInstruction hV hi.1 hf
      have hassigns := assigns_visitInstruction hf
      have hdefined : (visitInstruction ctx block i s).state.facts.definedNames
          = i.assigns ++ s.facts.definedNames := congrArg Point.assigned hassigns.point
      refine ⟨hU.instruction hs.wellFormed hi.1 hf, fun v rep hrep => ?_, ?_, fun e he => ?_⟩
      · rw [hdefined]
        rcases representative?_visitInstruction hf hrep with hrep | ⟨out, hout, hname, -⟩
        · exact List.mem_append_right _ (hs.assigned v rep hrep)
        · exact List.mem_append_left _ (List.mem_reverse.2 (List.mem_map.2 ⟨out, hout, hname⟩))
      · unfold DeclaresAnew
        rw [hassigns.level.outer, hassigns.level.declared, hassigns.level.kind]
        exact hs.anew
      · rw [hnew] at he
        rcases List.mem_append.1 he with he | he
        · obtain ⟨rfl, hpure, v, hv, hname⟩ := hok e he
          exact ⟨i, hi.2.2, hpure, v, hv, hname,
            hi.1.2 v (i.results_subset (Instruction.mem_assigned.1 hv).1)⟩
        · exact hs.marked e he
    push := fun kind hs => ⟨hU.push kind hs.wellFormed, hs.assigned,
      fun _ => List.forall_mem_nil _, hs.marked⟩
    defer := fun {s t} hs ht hknown hf => by
      obtain ⟨ho, hdeclared, -⟩ := enterDeferred_assigned hf
      refine ⟨hU.defer hs.wellFormed ht.1 hknown hf, fun v rep hrep => ?_,
        fun _ n hn => ⟨?_, fun hkind => ?_⟩, ?_⟩
      · rw [representative?_enterDeferred hf] at hrep
        exact definedNames_enterDeferred hf (hs.assigned v rep hrep)
      · rw [hdeclared] at hn
        obtain ⟨w, hw, rfl⟩ := List.mem_map.1 hn
        rw [ho]
        exact ht.2.1 w hw
      · exact absurd (kind_enterDeferred hf) hkind
      · rw [show (enterDeferred ctx t s).state.marks
          = s.marks from congrArg Prod.snd (enterDeferred_frame t s).2]
        exact hs.marked
    nested := fun {s s'} hs hs' ho hk => by
      have hfacts : s'.facts = ⟨s'.facts.top, s.facts.scopes⟩ := by rw [← ho]
      have houter : (s.facts.mergeNested s'.facts.top).outer = s.facts.outer := rfl
      refine ⟨hU.nested hs.wellFormed hs'.wellFormed ho hk,
        fun v rep hrep => ?_, hs.anew, hs'.marked⟩
      rcases representative?_of_mergeNested hrep with hrep | ⟨e, he, hname, -, hdeclared, -⟩
      · exact definedNames_mono houter (List.subset_append_right _ _) (hs.assigned v rep hrep)
      · rw [← hname]
        exact hs'.mem_definedNames hfacts (by simp [hk]) houter (List.subset_append_right _ _)
          (List.subset_append_left _ _) he hdeclared
    deferred := fun {s s'} hs hs' ho => by
      have houter : (s.facts.mergeDeferred s'.facts.top).outer = s.facts.outer := rfl
      refine ⟨hU.deferred hs.wellFormed hs'.wellFormed ho,
        fun v rep hrep => ?_, hs.anew, hs'.marked⟩
      exact definedNames_mono houter (List.subset_append_right _ _)
        (hs.assigned v rep (Congruence.representative?_eq_of_top houter rfl ▸ hrep))
    arm := fun hs hs' ho =>
      ⟨hU.arm hs.wellFormed hs'.wellFormed ho, hs.assigned, hs.anew, hs'.marked⟩
    branches := fun {s arms} hs harms => by
      obtain ⟨hlevel, -, hdefined⟩ :=
        Congruence.mergeBranches_spec ctx.aliases ctx.settings.branchMerge arms s.facts
      have hgrows : s.facts.top.defined
          ⊆ (s.facts.mergeBranches ctx.aliases ctx.settings.branchMerge arms).2.top.defined :=
        fun n hn => (hdefined n).2 (.inl hn)
      refine ⟨hU.branches hs.wellFormed fun arm harm => ?_, fun v rep hrep => ?_, ?_, hs.marked⟩
      · obtain ⟨hk, s', hs', hfacts⟩ := harms arm harm
        exact ⟨hk, s', hs'.wellFormed, hfacts⟩
      · rcases representative?_of_mergeBranches hrep
          with hrep | ⟨first, rest, rfl, e, he, hname, -, hdeclared, -⟩
        · exact definedNames_mono hlevel.outer hgrows (hs.assigned v rep hrep)
        · obtain ⟨hk, s', hs', hfacts⟩ := harms first List.mem_cons_self
          rw [← hname]
          exact hs'.mem_definedNames hfacts (by simp [hk]) hlevel.outer hgrows
            (fun n hn => (hdefined n).2 (.inr ⟨first, List.mem_cons_self, hn⟩)) he hdeclared
      · show DeclaresAnew V (s.facts.mergeBranches ctx.aliases ctx.settings.branchMerge arms).2
        unfold DeclaresAnew
        rw [hlevel.outer, hlevel.declared, hlevel.kind]
        exact hs.anew }

end InOrder

end Numbering

end ValueFlow
