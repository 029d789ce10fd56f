import ValueFlow.Proofs.Representatives

/-!
# Each variable gets its representative once

The visit of an instruction enters representatives for variables that the
instruction assigns (`canonical_visitInstruction`). A variable is assigned once,
and before that it has no representative. So, all along a walk, a variable that
has a representative in the innermost scope has none in the scopes around it
(`Congruence.Apart`): an inner scope never says something else about a variable,
and what it says is new to the scope that its facts are handed to.
-/

namespace ValueFlow

namespace Congruence

/-- **What has a representative in the innermost scope has none outside.** -/
def Apart (c : Congruence) : Prop :=
  ∀ v rep, c.top.canonical.get? v = some rep → c.outer.findSome? (·.canonical.get? v) = none

variable {c : Congruence} {v : Var}

theorem representative?_eq_none_iff : c.representative? v = none
    ↔ c.top.canonical.get? v = none ∧ c.outer.findSome? (·.canonical.get? v) = none := by
  unfold representative? scopes
  rw [List.findSome?_cons]
  cases c.top.canonical.get? v with
  | none => exact (and_iff_right rfl).symm
  | some rep => exact iff_of_false (fun h => nomatch h) fun h => nomatch h.1

/-- New entries for variables without representatives stay apart. -/
theorem Apart.insertAll (h : c.Apart) {c' : Congruence} {entries : List (Var × Operand)}
    (ho : c'.outer = c.outer) (hc : c'.top.canonical = c.top.canonical.insertAll entries)
    (hnone : ∀ e ∈ entries, c.representative? e.1 = none) : c'.Apart := by
  intro v rep hget
  rw [hc] at hget
  rw [ho]
  rcases Table.get?_insertAll_eq_some hget with ⟨e, he, hkey, -⟩ | ⟨-, hget⟩
  · have houter := (representative?_eq_none_iff.1 (hnone e he)).2
    refine Eq.trans (congrArg (List.findSome? · c.outer) ?_) houter
    funext scope
    exact (Table.get?_congr hkey).symm
  · exact h v rep hget

theorem Apart.of_canonical (h : c.Apart) {c' : Congruence} (ho : c'.outer = c.outer)
    (hc : c'.top.canonical = c.top.canonical) : c'.Apart :=
  h.insertAll ho (hc.trans (Table.insertAll_nil _).symm) (List.forall_mem_nil _)

/-- A variable with a representative in a scope has none in the facts around it. -/
theorem Apart.representative? {child : Scope} (h : Apart ⟨child, c.scopes⟩) :
    ∀ e ∈ child.canonical.entries, c.representative? e.1 = none :=
  fun e he => h e.1 e.2 (Table.get?_of_mem he)

end Congruence

namespace Numbering

section Visit

variable (ctx : Context) (block : Nat) (removable : Bool) {i : Instruction} {s : State}
  {values : List (Signature × Binding)}

theorem canonical_record (c : Congruence) (m : AliasMap) (sig : Signature) (rep : Operand) :
    (c.record m sig rep).2.top.canonical = c.top.canonical := by
  unfold Congruence.record
  split <;> rfl

/-- A value enters at most the representative of its output. -/
theorem canonical_bind (value : Signature × Binding) (s : State) :
    ∃ entries, (bind ctx block removable s value).facts.top.canonical
      = s.facts.top.canonical.insertAll entries
      ∧ ∀ e ∈ entries, e.1 ∈ value.2.outs ∧ accepts ctx.aliases e.1 e.2 = true := by
  obtain ⟨sig, binding⟩ := value
  unfold bind
  cases binding with
  | output out =>
    rcases bindOutput_cases ctx block removable (s.facts.canonicalize sig) out s with
      heq | ⟨rep, -, hok, hfacts, -⟩ | ⟨-, -, heq⟩
    · refine ⟨[], ?_, List.forall_mem_nil _⟩
      simp only [heq, facts_resolve, Table.insertAll_nil]
    · refine ⟨[(out, rep)], ?_, List.forall_mem_singleton.2 ⟨List.mem_singleton_self out, hok⟩⟩
      simp only [hfacts]
      rfl
    · refine ⟨[], ?_, List.forall_mem_nil _⟩
      simp only [heq, canonical_record, Table.insertAll_nil]
  | known src =>
    refine ⟨[], ?_, List.forall_mem_nil _⟩
    rcases bindKnown_cases ctx (s.facts.canonicalize sig) src s with heq | ⟨-, -, heq⟩
    · simp only [heq, Table.insertAll_nil]
    · simp only [heq, canonical_record, Table.insertAll_nil]

theorem canonical_foldl_bind {outs : List Var} (houts : ∀ value ∈ values, value.2.outs ⊆ outs)
    (s : State) :
    ∃ entries, (values.foldl (bind ctx block removable) s).facts.top.canonical
        = s.facts.top.canonical.insertAll entries
      ∧ ∀ e ∈ entries, e.1 ∈ outs ∧ accepts ctx.aliases e.1 e.2 = true := by
  induction values generalizing s with
  | nil => exact ⟨[], rfl, List.forall_mem_nil _⟩
  | cons value values ih =>
    obtain ⟨hvalue, houts⟩ := List.forall_mem_cons.1 houts
    obtain ⟨first, hfirst, hok⟩ := canonical_bind ctx block removable value s
    obtain ⟨others, hothers, hok'⟩ := ih houts (bind ctx block removable s value)
    refine ⟨first ++ others, ?_, List.forall_mem_append.2 ⟨fun e he => ?_, hok'⟩⟩
    · rw [List.foldl_cons, hothers, hfirst]
      exact List.foldl_append.symm
    · exact ⟨hvalue (hok e he).1, (hok e he).2⟩

variable {ctx block}

/-- **The visit of an instruction enters representatives of variables that it
assigns** and that accept them. -/
theorem canonical_visitInstruction (hf : (visitInstruction ctx block i s).fault = none) :
    ∃ entries, (visitInstruction ctx block i s).state.facts.top.canonical
      = s.facts.top.canonical.insertAll entries
      ∧ ∀ e ∈ entries, e.1 ∈ i.assigned ∧ accepts ctx.aliases e.1 e.2 = true := by
  obtain ⟨facts, removable, values, -, hdefine, -, hvalues, hfacts⟩ := visitInstruction_facts hf
  obtain ⟨hcarried, -⟩ := carriedOut_phases ctx i facts s
  obtain ⟨-, -, -, -, hwritten, -⟩ :=
    Congruence.sameLevel_invalidateAll ctx.aliases (writtenBy ctx.aliases i.writes) facts
  obtain ⟨rfl, -, -⟩ := Congruence.foldlM_define_eq_ok hdefine
  obtain ⟨entries, hentries, hok⟩ := canonical_foldl_bind ctx block removable
    (Instruction.outs_signatures_mapOperands hvalues)
    (carriedOut ctx i { s.facts with
      top.defined := (i.assigned.map (·.name)).reverse ++ s.facts.top.defined } s)
  refine ⟨entries, ?_, fun e he => ⟨Instruction.mem_assigned.2 ⟨(hok e he).1, ?_⟩, (hok e he).2⟩⟩
  · rw [hfacts, (Congruence.foldl_close_spec _ _).2.2.2.1, hentries, hcarried, hwritten]
  · simpa using (Bool.and_eq_true_iff.1 (accepts_eq_true (hok e he).2).1).1

end Visit

section InOrder

variable {V : Vocabulary} {ctx : Context} {is : List (Nat × Instruction)}
  {block : Nat} {i : Instruction} {s : State}

/-- **What an instruction assigns has no representative before.** -/
theorem InOrder.representative?_of_assigned (hs : InOrder V ctx is s)
    (hf : (visitInstruction ctx block i s).fault = none) :
    ∀ o ∈ i.assigned, s.facts.representative? o = none := by
  obtain ⟨facts, removable, values, -, hdefine, -⟩ := visitInstruction_cases hf
  intro o ho
  rw [Option.eq_none_iff_forall_not_mem]
  intro rep hrep
  exact (Congruence.foldlM_define_eq_ok hdefine).2.1 o ho (hs.assigned o rep hrep)

/-- **All along a walk in order, inner representatives are new.** -/
theorem upheld_apart (hV : Suits V ctx) :
    Upheld ctx (ordered V is)
      (fun s => InOrder V ctx is s ∧ s.facts.Apart) where
  quiet hs hq := ⟨(upheld_inOrder hV).quiet hs.1 hq, hq.facts ▸ hs.2⟩
  declare {s vars} hs hd := by
    obtain ⟨ho, -, -, hcan, -⟩ := foldl_declare_spec vars s.facts
    exact ⟨(upheld_inOrder hV).declare hs.1 hd, hs.2.of_canonical ho hcan⟩
  instruction {s block i} hs hi hf := by
    obtain ⟨entries, hentries, hok⟩ := canonical_visitInstruction hf
    refine ⟨(upheld_inOrder hV).instruction hs.1 hi hf, ?_⟩
    exact hs.2.insertAll (assigns_visitInstruction hf).level.outer hentries
      fun e he => hs.1.representative?_of_assigned hf e.1 (hok e he).1
  push kind hs := ⟨(upheld_inOrder hV).push kind hs.1, fun _ _ h => nomatch h⟩
  defer {s t} hs ht hknown hf := by
    refine ⟨(upheld_inOrder hV).defer hs.1 ht hknown hf, fun v rep hget => ?_⟩
    -- the new scope has no representatives
    obtain ⟨closed, hfacts⟩ := facts_enterDeferred hf
    rw [hfacts] at hget
    cases hget
  nested {s s'} hs hs' ho hk := by
    refine ⟨(upheld_inOrder hV).nested hs.1 hs'.1 ho hk, ?_⟩
    have hchild : Congruence.Apart ⟨s'.facts.top, s.facts.scopes⟩ := ho ▸ hs'.2
    exact hs.2.insertAll rfl rfl fun e he => hchild.representative? e (List.mem_filter.1 he).1
  deferred hs hs' ho := ⟨(upheld_inOrder hV).deferred hs.1 hs'.1 ho, hs.2.of_canonical rfl rfl⟩
  arm hs hs' ho := ⟨(upheld_inOrder hV).arm hs.1 hs'.1 ho, hs.2⟩
  branches {s arms} hs harms := by
    refine ⟨(upheld_inOrder hV).branches hs.1 fun arm harm => ?_, ?_⟩
    · obtain ⟨hk, s', hs', hfacts⟩ := harms arm harm
      exact ⟨hk, s', hs'.1, hfacts⟩
    · show (s.facts.mergeBranches ctx.aliases ctx.settings.branchMerge arms).2.Apart
      obtain ⟨ho, -, -, hcan, -⟩ := Congruence.absorbArms_spec ctx.aliases arms s.facts
      rcases Congruence.mergeBranches_cases ctx.aliases ctx.settings.branchMerge arms s.facts with
        heq | ⟨first, rest, rfl, heq⟩
      · rw [heq]
        exact hs.2.of_canonical ho hcan
      · obtain ⟨-, s', hs', hfacts⟩ := harms first List.mem_cons_self
        have hfirst : Congruence.Apart ⟨first, s.facts.scopes⟩ := hfacts ▸ hs'.2
        rw [heq]
        refine hs.2.insertAll ho (congrArg (Table.insertAll · _) hcan) fun e he => ?_
        exact hfirst.representative? e (List.mem_filter.1 he).1

end InOrder

end Numbering

end ValueFlow
