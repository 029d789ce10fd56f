import ValueFlow.Proofs.Representatives

/-!
# Short chains of representatives

The representative of a variable may get a representative of its own later on,
if it is read before it is assigned. The canonical representative is found by
following such a chain, but only for as many steps as there are scopes. So it
may change where nothing was learnt: in a scope further inside, a longer part of
the chain is followed.

No such thing happens as long as *chains are short*, that is, as long as no
representative has a representative itself (`Congruence.isShort`). Then the
canonical representative is the one that was entered (`Short.canonical?`).
`steady` asks for this at every point of a walk; it also asks that nothing is
assigned that has a representative already.
-/

namespace ValueFlow

namespace Congruence

variable {c : Congruence} {v r : Var}

/-- **Chains are short**: no representative has a representative itself. -/
def isShort (c : Congruence) : Bool :=
  c.scopes.all fun scope => scope.canonical.entries.all
    fun e => (e.2.var?.bind c.representative?).isNone

theorem representative?_of_isShort (h : c.isShort = true)
    (hv : c.representative? v = some (.var r)) : c.representative? r = none := by
  obtain ⟨scope, hscope, hget⟩ := List.exists_of_findSome?_eq_some hv
  obtain ⟨e, he, -, hrep⟩ := Table.get?_eq_some_iff.1 hget
  have hnone := List.all_eq_true.1 (List.all_eq_true.1 h scope hscope) e he
  rw [hrep] at hnone
  exact Option.isNone_iff_eq_none.1 hnone

/-- A chain ends at a variable without representative. -/
theorem follow_of_none {r : Var} (h : c.representative? r = none) (n : Nat) :
    c.follow n (.var r) = .var r := by
  cases n with
  | zero => rfl
  | succ n => rw [follow, show (Operand.var r).var?.bind c.representative? = none from h]

/-- **Chains are short**, as far as look-ups tell: no representative has a
representative itself. -/
def Short (c : Congruence) : Prop :=
  ∀ v r, c.representative? v = some (.var r) → c.representative? r = none

theorem short_of_isShort (h : c.isShort = true) : c.Short := fun _ _ => representative?_of_isShort h

/-- **In short chains the canonical representative is the one that was entered.** -/
theorem Short.canonical? (h : c.Short) (v : Var) : c.canonical? v = c.representative? v := by
  unfold Congruence.canonical?
  cases hrep : c.representative? v with
  | none => rfl
  | some rep =>
    cases rep with
    | lit l => rfl
    | var r => exact congrArg some (follow_of_none (h v r hrep) _)

theorem representative?_congr {w : Var} (h : v.name = w.name) :
    c.representative? v = c.representative? w := by
  unfold representative?
  congr 1
  funext scope
  exact Table.get?_congr h

theorem representative?_setCanonical_of_ne {out : Var} (h : out.name ≠ v.name) (c : Congruence)
    (rep : Operand) : (c.setCanonical out rep).representative? v = c.representative? v := by
  unfold representative? scopes setCanonical
  rw [List.findSome?_cons, List.findSome?_cons, Table.get?_insert]
  exact if_neg h ▸ rfl

/-- A representative stays behind new entries in the innermost scope that agree
with it. -/
theorem representative?_eq_of_insertAll (c c' : Congruence) (entries : List (Var × Operand))
    {rep : Operand} (h : c.representative? v = some rep) (ho : c'.outer = c.outer)
    (hc : c'.top.canonical = c.top.canonical.insertAll entries)
    (hentries : ∀ e ∈ entries, e.1.name = v.name → e.2 = rep) :
    c'.representative? v = some rep := by
  by_cases hmem : ∃ e ∈ entries, (Keyed.key e.1 : String) = Keyed.key v
  · obtain ⟨e, he, hkey, hget⟩ := Table.get?_insertAll_of_mem c.top.canonical hmem
    rw [← hentries e he hkey]
    exact representative?_of_get? (hc ▸ hget)
  · have hget := Table.get?_insertAll_of_not_mem c.top.canonical fun e he hkey => hmem ⟨e, he, hkey⟩
    unfold representative? scopes at h ⊢
    rw [List.findSome?_cons] at h ⊢
    rwa [ho, hc, hget]

end Congruence

namespace Numbering

/-! ## Steady walks -/

section Steady

variable (ctx : Context)

mutual
/-- **The walk over a block is steady**: chains are short at every point, and
nothing is assigned that has a representative. -/
def steadyBlock : Block → State → Bool
  | .mk vars body, s => steadyBody s.nextBlock body (enterBlock vars s)
/-- The walk over a body is steady. -/
def steadyBody (block : Nat) : Body → State → Bool
  | .done, s => s.facts.isShort
  | .instr i rest, s =>
    s.facts.isShort && i.assigned.all (fun o => (s.facts.representative? o).isNone)
      && steadyBody block rest (visitInstruction ctx block i s).state
  | .cont c rest, s =>
    s.facts.isShort && steadyContinuation c (governed c s)
      && steadyBody block rest (visitContinuation ctx c s).state
/-- The walks over the blocks of a continuation are steady. -/
def steadyContinuation : Continuation → State → Bool
  | .ifElse _ t e, s =>
    steadyBlock t (s.push .branch)
      && steadyBlock e ((leaveArm (visitBlock ctx t (s.push .branch))).state.push .branch)
  | .switch _ arms, s => steadyArms arms s
  | .deferred trigger b, s => steadyBlock b (enterDeferred ctx trigger s).state
  | .nested b, s => steadyBlock b (s.push .nested)
/-- The walks over the arms of a switch are steady. -/
def steadyArms : Arms → State → Bool
  | .none, _ => true
  | .default b, s => steadyBlock b (s.push .branch)
  | .case _ b rest, s =>
    steadyBlock b (s.push .branch)
      && steadyArms rest (leaveArm (visitBlock ctx b (s.push .branch))).state
end

end Steady

/-- **The walk over a function is steady.** -/
def steady (settings : Settings) (foreign : Foreign) (globals : Constants) (f : Function) : Bool :=
  match contextOf settings foreign f, f.inputs.foldlM enterInput .new with
  | .ok ctx, .ok facts => steadyBlock ctx f.block (opened globals f facts)
  | _, _ => false

/-! ## What a visit leaves as it is -/

section Visit

variable {ctx : Context} {block : Nat} {removable : Bool} {i : Instruction} {v : Var} {s : State}
  {values : List (Signature × Binding)}

theorem representative?_foldl_bind_of_unassigned {outs : List Var}
    (houts : ∀ value ∈ values, value.2.outs ⊆ outs)
    (hv : ∀ out ∈ outs, out.name = v.name → ctx.aliases.isStable out = false) (s : State) :
    (values.foldl (bind ctx block removable) s).facts.representative? v
      = s.facts.representative? v := by
  induction values generalizing s with
  | nil => rfl
  | cons value values ih =>
    obtain ⟨hvalue, houts⟩ := List.forall_mem_cons.1 houts
    refine (ih houts _).trans ?_
    obtain ⟨sig, binding⟩ := value
    cases binding with
    | output out =>
      show (bindOutput ctx block removable (s.facts.canonicalize sig) out s).facts.representative? v
        = _
      rcases bindOutput_cases ctx block removable (s.facts.canonicalize sig) out s with
        heq | ⟨rep, -, hok, hfacts, -⟩ | ⟨-, -, heq⟩
      · rw [heq, facts_resolve]
      · rw [hfacts]
        refine Congruence.representative?_setCanonical_of_ne (fun hname => ?_) _ _
        have hstable := (accepts_eq_true hok).1
        rw [hv out (hvalue (List.mem_singleton_self out)) hname] at hstable
        cases hstable
      · rw [heq, Congruence.representative?_record]
    | known src =>
      show (bindKnown ctx (s.facts.canonicalize sig) src s).facts.representative? v = _
      rw [representative?_bindKnown]

/-- **A visit leaves the representatives of what it does not assign.** -/
theorem representative?_of_unassigned (hf : (visitInstruction ctx block i s).fault = none)
    (hv : ∀ out ∈ i.assigned, out.name ≠ v.name) :
    (visitInstruction ctx block i s).state.facts.representative? v = s.facts.representative? v := by
  obtain ⟨facts, removable, values, -, hdefine, -, hvalues, hfacts⟩ := visitInstruction_facts hf
  have houts := Instruction.outs_signatures_mapOperands hvalues
  rw [hfacts, representative?_foldl_close, representative?_foldl_bind_of_unassigned houts ?_ _,
    representative?_carriedOut hdefine]
  intro out hout hname
  by_contra hstable
  rw [Bool.not_eq_false] at hstable
  refine hv out (Instruction.mem_assigned.2 ⟨hout, ?_⟩) hname
  simpa using (Bool.and_eq_true_iff.1 hstable).1

end Visit

/-! ## Representatives fit -/

/-- **A representative can stand wherever its variable is read.** -/
def Fitting (V : Vocabulary) (s : State) : Prop :=
  ∀ v rep, V.text v → s.facts.representative? v = some rep → rep.compatibleWith v = true

theorem compatibleWith_of_accepts {aliases : AliasMap} {out : Var} {rep : Operand}
    (h : accepts aliases out rep = true) : rep.compatibleWith out = true := by
  obtain ⟨-, h⟩ := Bool.and_eq_true_iff.1 h
  cases rep with
  | var r => exact (Bool.and_eq_true_iff.1 h).1
  | lit l => exact h

section Fitting

variable {V : Vocabulary} {ctx : Context}

theorem Fitting.of_facts {s s' : State} (h : Fitting V s)
    (hfacts : s'.facts.representative? = s.facts.representative?) : Fitting V s' := by
  intro v rep hv hrep
  rw [hfacts] at hrep
  exact h v rep hv hrep

/-- An entry of an inner scope fits. -/
theorem Fitting.of_entry {s : State} {child : Scope} {outer : List Scope} (h : Fitting V s)
    (hfacts : s.facts = ⟨child, outer⟩) {e : Var × Operand} (he : e ∈ child.canonical.entries)
    {v : Var} (hname : e.1.name = v.name) (hv : V.text v) : e.2.compatibleWith v = true := by
  refine h v e.2 hv ?_
  rw [hfacts, ← Congruence.representative?_congr hname]
  exact Congruence.representative?_of_get? (Table.get?_of_mem he)

theorem Fitting.nested {s s' : State} (hs : Fitting V s) (hs' : Fitting V s')
    (ho : s'.facts.outer = s.facts.scopes) :
    Fitting V { s' with facts := s.facts.mergeNested s'.facts.top } := by
  intro v rep hv hrep
  rcases representative?_of_mergeNested hrep with hrep | ⟨e, he, hname, rfl, -⟩
  · exact hs v rep hv hrep
  · have hfacts : s'.facts = ⟨s'.facts.top, s.facts.scopes⟩ := by rw [← ho]
    exact hs'.of_entry hfacts he hname hv

theorem Fitting.branches {s : State} {arms : List Scope} (hs : Fitting V s)
    (harms : ∀ arm ∈ arms, ∃ s', Fitting V s' ∧ s'.facts = ⟨arm, s.facts.scopes⟩) :
    Fitting V (mergeArms ctx arms s) := by
  intro v rep hv hrep
  rcases representative?_of_mergeBranches hrep with hrep | ⟨first, rest, rfl, e, he, hname, rfl, -⟩
  · exact hs v rep hv hrep
  · obtain ⟨s', hs', hfacts⟩ := harms first List.mem_cons_self
    exact hs'.of_entry hfacts he hname hv

/-- **All along a walk, representatives fit.** -/
theorem upheld_fitting (hconsistent : ∀ v w, V.text v → V.text w → v.name = w.name → v = w) :
    Upheld ctx (.ofVars V.text) (Fitting V) where
  quiet hs hq := hs.of_facts (congrArg _ hq.facts)
  declare {s vars} hs _ := by
    obtain ⟨ho, -, -, hcan, -⟩ := foldl_declare_spec vars s.facts
    exact hs.of_facts (Congruence.representative?_eq_of_top ho hcan)
  instruction {s block i} hs hi hf := by
    intro v rep hv hrep
    rcases representative?_visitInstruction hf hrep with hrep | ⟨out, hout, hname, hok⟩
    · exact hs v rep hv hrep
    · have htext := hi.2 out (i.results_subset (Instruction.mem_assigned.1 hout).1)
      rw [← hconsistent out v htext hv hname]
      exact compatibleWith_of_accepts hok
  push kind hs := hs
  defer hs _ _ hf := hs.of_facts (representative?_enterDeferred hf)
  nested hs hs' ho _ := hs.nested hs' ho
  deferred hs _ _ := hs.of_facts (Congruence.representative?_eq_of_top rfl rfl)
  arm hs _ _ := hs
  branches hs harms := hs.branches fun arm harm => (harms arm harm).2

end Fitting

end Numbering

end ValueFlow
