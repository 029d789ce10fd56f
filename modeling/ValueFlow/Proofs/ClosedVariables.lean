import ValueFlow.Proofs.Walk

/-!
# Closed variables

What the facts say about closed variables, behind each change of the facts. A
visit closes what the instruction that it leaves closes
(`isClosed_visitInstruction`). What is closed behind a block that was left was
closed at its end, and behind a conditional at the end of every arm.
-/

namespace ValueFlow

namespace Congruence

variable {c c' : Congruence} {v : Var} {aliases : AliasMap}

theorem isClosed_eq_of_top (ho : c'.outer = c.outer) (hc : c'.top.closed = c.top.closed) :
    c'.isClosed = c.isClosed := by
  funext v
  unfold isClosed scopes
  rw [List.any_cons, List.any_cons, ho, hc]

theorem isClosed_iff {top : Scope} {outer : List Scope} :
    (⟨top, outer⟩ : Congruence).isClosed v = true
    ↔ v.isGlobalConst = true ∨ top.closed.contains v = true
      ∨ ∃ scope ∈ outer, scope.closed.contains v = true := by
  unfold isClosed scopes
  rw [Bool.or_eq_true, List.any_cons, Bool.or_eq_true, List.any_eq_true]

theorem contains_insertAll {t : Table Var Unit} {entries : List (Var × Unit)} :
    (t.insertAll entries).contains v = true ↔ (∃ e ∈ entries, e.1.name = v.name)
      ∨ t.contains v = true := by
  unfold Table.contains
  by_cases hm : ∃ e ∈ entries, e.1.name = v.name
  · obtain ⟨e, -, -, hget⟩ := Table.get?_insertAll_of_mem t hm
    rw [hget]
    exact ⟨fun _ => .inl hm, fun _ => rfl⟩
  · rw [Table.get?_insertAll_of_not_mem t fun e he hk => hm ⟨e, he, hk⟩]
    exact (or_iff_right hm).symm

/-- What is closed behind new entries in the innermost scope. -/
theorem isClosed_insertAll (c c' : Congruence) (entries : List (Var × Unit))
    (ho : c'.outer = c.outer) (hc : c'.top.closed = c.top.closed.insertAll entries) :
    c'.isClosed v = true ↔ (∃ e ∈ entries, e.1.name = v.name) ∨ c.isClosed v = true := by
  obtain ⟨top, outer⟩ := c
  obtain ⟨top', outer'⟩ := c'
  obtain rfl : outer' = outer := ho
  rw [isClosed_iff, isClosed_iff, show top'.closed = _ from hc, contains_insertAll]
  grind

theorem isClosed_close {w : Var} :
    (c.close w).isClosed v = true ↔ w.name = v.name ∨ c.isClosed v = true := by
  rw [isClosed_insertAll c (c.close w) [(w, ())] rfl rfl]
  simp only [List.mem_singleton, exists_eq_left]

theorem isClosed_foldl_close (vars : List Var) (c : Congruence) :
    (vars.foldl close c).isClosed v = true ↔ v.name ∈ vars.map (·.name) ∨ c.isClosed v = true := by
  induction vars generalizing c with
  | nil => simp
  | cons w vars ih =>
    rw [List.foldl_cons, ih, isClosed_close, List.map_cons,
      List.mem_cons, or_left_comm, or_assoc, eq_comm]

theorem isClosed_foldl_declare (vars : List Var) (c : Congruence) :
    (vars.foldl declare c).isClosed = c.isClosed := by
  induction vars generalizing c with
  | nil => rfl
  | cons w vars ih => exact (ih _).trans (isClosed_eq_of_top rfl rfl)

theorem contains_of_mem {t : Table Var Unit} {e : Var × Unit} (he : e ∈ t.entries)
    (hname : e.1.name = v.name) : t.contains v = true := by
  unfold Table.contains
  rw [← Table.get?_congr hname, Table.get?_of_mem he]
  rfl

theorem isClosed_scopes :
    (∃ scope ∈ c.scopes, scope.closed.contains v = true) ∨ v.isGlobalConst = true
    ↔ c.isClosed v = true := by
  unfold isClosed
  rw [Bool.or_eq_true, List.any_eq_true, or_comm]

/-- What is closed behind a nested block was closed at its end. -/
theorem isClosed_of_mergeNested {child : Scope} (h : (c.mergeNested child).isClosed v = true) :
    (⟨child, c.scopes⟩ : Congruence).isClosed v = true := by
  rw [isClosed_insertAll c (c.mergeNested child) _ rfl rfl] at h
  rw [isClosed_iff]
  rcases h with ⟨e, he, hname⟩ | h
  · exact .inr (.inl (contains_of_mem (List.mem_filter.1 he).1 hname))
  · exact (isClosed_scopes.2 h).elim (.inr ∘ .inr) .inl

theorem isClosed_keepCommon {first : Scope} {rest : List Scope} :
    (keepCommon aliases first rest c).isClosed v = true
      ↔ (∃ e ∈ c.commonClosed first rest, e.1.name = v.name) ∨ c.isClosed v = true :=
  isClosed_insertAll c (keepCommon aliases first rest c) _ rfl rfl

/-- What is closed behind a conditional was closed at the end of every arm. -/
theorem isClosed_of_mergeBranches {keep : Bool} {arms : List Scope}
    (h : (c.mergeBranches aliases keep arms).2.isClosed v = true) :
    ∀ arm ∈ arms, (⟨arm, c.scopes⟩ : Congruence).isClosed v = true := by
  intro arm harm
  have houter : c.isClosed v = true → (⟨arm, c.scopes⟩ : Congruence).isClosed v = true :=
    fun h => isClosed_iff.2 ((isClosed_scopes.2 h).elim (.inr ∘ .inr) .inl)
  obtain ⟨ho, -, -, -, hclosed, -⟩ := absorbArms_spec aliases arms c
  have habsorbed := isClosed_eq_of_top ho hclosed
  rcases mergeBranches_cases aliases keep arms c with heq | ⟨first, rest, rfl, heq⟩
  · rw [heq, habsorbed] at h
    exact houter h
  · rw [heq, isClosed_keepCommon, habsorbed] at h
    rcases h with ⟨e, he, hname⟩ | h
    · obtain ⟨hmem, hok⟩ := List.mem_filter.1 he
      rw [Bool.and_eq_true, List.all_eq_true] at hok
      refine isClosed_iff.2 (.inr (.inl ?_))
      rcases List.mem_cons.1 harm with rfl | harm
      · exact contains_of_mem hmem hname
      · have hcontains := hok.1 arm harm
        unfold Table.contains at hcontains ⊢
        rwa [← Table.get?_congr hname]
    · exact houter h

theorem isClosed_mergeNested {child : Scope} (h : c.isClosed v = true) :
    (c.mergeNested child).isClosed v = true :=
  (isClosed_insertAll c (c.mergeNested child) _ rfl rfl).2 (.inr h)

theorem isClosed_mergeBranches {keep : Bool} {arms : List Scope} (h : c.isClosed v = true) :
    (c.mergeBranches aliases keep arms).2.isClosed v = true := by
  obtain ⟨ho, -, -, -, hclosed, -⟩ := absorbArms_spec aliases arms c
  rw [← isClosed_eq_of_top ho hclosed] at h
  rcases mergeBranches_cases aliases keep arms c with heq | ⟨first, rest, rfl, heq⟩
  · rwa [heq]
  · rw [heq]
    exact isClosed_keepCommon.2 (.inr h)

end Congruence

namespace Numbering

section Closing

variable {ctx : Context} {block : Nat} {removable : Bool} {i : Instruction} {v : Var} {s : State}

/-- The values of an instruction close nothing. -/
theorem closed_foldl_bind (values : List (Signature × Binding)) (s : State) :
    (values.foldl (bind ctx block removable) s).facts.outer = s.facts.outer
      ∧ (values.foldl (bind ctx block removable) s).facts.top.closed = s.facts.top.closed := by
  have hrecord : ∀ (c : Congruence) (sig : Signature) (rep : Operand),
      (c.record ctx.aliases sig rep).2.outer = c.outer
        ∧ (c.record ctx.aliases sig rep).2.top.closed = c.top.closed := by
    intro c sig rep
    unfold Congruence.record
    split <;> exact ⟨rfl, rfl⟩
  induction values generalizing s with
  | nil => exact ⟨rfl, rfl⟩
  | cons value values ih =>
    suffices h : (bind ctx block removable s value).facts.outer = s.facts.outer
        ∧ (bind ctx block removable s value).facts.top.closed = s.facts.top.closed from
      ⟨(ih _).1.trans h.1, (ih _).2.trans h.2⟩
    obtain ⟨sig, binding⟩ := value
    cases binding with
    | output out =>
      unfold Numbering.bind
      rcases bindOutput_cases ctx block removable (s.facts.canonicalize sig) out s with
        heq | ⟨rep, -, -, hfacts, -⟩ | ⟨-, -, heq⟩
      · simp only [heq, facts_resolve, and_self]
      · simp only [hfacts]
        exact ⟨rfl, rfl⟩
      · simp only [heq]
        exact hrecord _ _ _
    | known src =>
      unfold Numbering.bind
      rcases bindKnown_cases ctx (s.facts.canonicalize sig) src s with heq | ⟨-, -, heq⟩
      · simp only [heq, and_self]
      · simp only [heq]
        exact hrecord _ _ _

theorem isClosed_foldl_bind (values : List (Signature × Binding)) (s : State) :
    (values.foldl (bind ctx block removable) s).facts.isClosed = s.facts.isClosed :=
  Congruence.isClosed_eq_of_top (closed_foldl_bind values s).1 (closed_foldl_bind values s).2

/-- **A visit closes what the instruction that it leaves closes.** -/
theorem isClosed_visitInstruction (hf : (visitInstruction ctx block i s).fault = none) :
    (visitInstruction ctx block i s).state.facts.isClosed v = true
      ↔ v.name ∈ (visitInstruction ctx block i s).tree.closes.map (·.name)
        ∨ s.facts.isClosed v = true := by
  obtain ⟨facts, removable, values, -, hdefine, -, -, hfacts⟩ := visitInstruction_facts hf
  obtain ⟨hcarried, -⟩ := carriedOut_phases ctx i facts s
  obtain ⟨ho, -, -, -, -, hclosed, -⟩ :=
    Congruence.sameLevel_invalidateAll ctx.aliases (writtenBy ctx.aliases i.writes) facts
  obtain ⟨rfl, -, -⟩ := Congruence.foldlM_define_eq_ok hdefine
  rw [hfacts, Congruence.isClosed_foldl_close, isClosed_foldl_bind, hcarried,
    Congruence.isClosed_eq_of_top ho hclosed]
  exact Iff.rfl

end Closing

end Numbering

end ValueFlow
