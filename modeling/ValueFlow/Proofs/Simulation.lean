import ValueFlow.Proofs.Recording
import ValueFlow.Proofs.Walk

/-!
# The walk preserves meaning

A state of the walk is *faithful* to a storage if its facts hold there and it
knows which variables have been assigned. Visiting an instruction in a faithful
state leaves an instruction that does the same, and the state is faithful to
what executing it gives (`simulates_visitInstruction`).
-/

namespace ValueFlow

variable {W : Type}

/-! ## Instructions that assign one variable -/

section Removable

variable {foreign : Foreign} {mach : Machine W} {i : Instruction} {dst : Var} {st st' : Store W}
  {l : Literal}

theorem Store.value_of_assign (h : st.assign dst.name l = some st') :
    st'.value dst.name = some l := by
  obtain ⟨c, hc, rfl⟩ := Store.assign_eq_some.1 h
  exact Store.value_put hc l

theorem Store.assignAll_singleton {ys : List Literal} (h : st.assignAll [dst] ys = some st') :
    ∃ l, st.assign dst.name l = some st' := by
  cases ys with
  | nil => cases h
  | cons l ys =>
    obtain ⟨c, hc, h⟩ := Store.assignAll_cons_eq_some.1 h
    cases ys with
    | nil => exact ⟨l, Store.assign_eq_some.2 ⟨c, hc, (Option.some.inj h).symm⟩⟩
    | cons => cases h

theorem assign_of_isRemovable (hm : mach.Obeys foreign) (ho : i.outputs = [dst])
    (hr : i.isRemovable foreign = .ok true) (h : i.exec mach st = some st') :
    ∃ l, st.assign dst.name l = some st' := by
  obtain ⟨ys, hys⟩ := Instruction.onlyAssigns_of_isRemovable hm hr st st' h
  exact Store.assignAll_singleton (ho ▸ hys)

theorem isRemovable_of_foldable? (h : Numbering.foldable? foreign i = some dst) :
    i.outputs = [dst] ∧ i.isRemovable foreign = .ok true := by
  unfold Numbering.foldable? at h
  split at h
  · split at h
    · obtain rfl := Option.some.inj h
      exact ⟨rfl, rfl⟩
    · cases h
  · rename_i function out inputs
    split at h
    · rename_i hpure
      obtain rfl := Option.some.inj h
      refine ⟨rfl, ?_⟩
      have hpure := (Bool.and_eq_true_iff.1 hpure).2
      unfold Numbering.isPureCall at hpure
      simp only [Instruction.isRemovable, Instruction.onlyComputes, if_true,
        Instruction.hasSideEffects, Bind.bind, Except.bind]
      cases hf : foreign.lookup function with
      | error e =>
        rw [hf] at hpure
        cases hpure
      | ok f =>
        rw [hf] at hpure
        exact congrArg Except.ok hpure
    · cases h
  · cases h

/-- A copy of the literal that is assigned does the same. -/
theorem exec_copy (hm : mach.Obeys foreign) (h : st.assign dst.name l = some st') :
    (Instruction.compute .now .copy dst [.lit l]).exec mach st = some st' := by
  refine Option.bind_eq_some_iff.2 ⟨l, Option.bind_eq_some_iff.2 ⟨[l], rfl, ?_⟩, h⟩
  exact hm.folds .copy [l] l rfl

end Removable

/-! ## Faithful states -/

namespace Numbering

/-- **What is given about a function and its machine.** -/
structure Premises (V : Vocabulary) (ctx : Context) (mach : Machine W) (own : String → Prop) :
    Prop where
  obeys : mach.Obeys ctx.foreign
  suits : Suits V ctx
  owned : V.Owned own
  oneParent : AliasMap.OneParent ctx.aliases.facts
  child : ∀ a ∈ ctx.aliases.facts, ¬ own a.child.name
  alloc : ∀ v, V.text v → (own v.name ↔ v.alloc ≠ .part)

/-- **What is given about an instruction.** -/
structure Fits (V : Vocabulary) (ctx : Context) (own : String → Prop) (i : Instruction) : Prop where
  text : i.All V.text
  outputs : ∀ v ∈ i.outputs, ¬ V.constant v.name
  plain : i.Plain own
  aliases : ∃ as, i.aliases = .ok as ∧ as ⊆ ctx.aliases.facts

/-- **The state is faithful to the storage.** -/
structure Faithful (V : Vocabulary) (ctx : Context) (mach : Machine W) (own : String → Prop)
    (s : State) (st : Store W) : Prop where
  wellFormed : WellFormed V s
  placed : Placed ctx.aliases own st
  holds : Holds mach own s.facts st
  assigned : ∀ n ∈ s.facts.names, (st.contents (.own n)).isSome = true → n ∈ s.facts.definedNames

section Instructions

variable {V : Vocabulary} {ctx : Context} {mach : Machine W} {own : String → Prop} {block : Nat}
  {i : Instruction} {s : State} {st st' : Store W}

/-- A variable that is assigned is declared in an open scope. -/
theorem Faithful.unassigned (hs : Faithful V ctx mach own s st) {v : Var} (ht : V.text v)
    (hc : ¬ V.constant v.name) (hknown : s.knows v = true) (hd : v.name ∉ s.facts.definedNames) :
    st.contents (.own v.name) = none := by
  have hmem : v.name ∈ s.facts.names := by
    rcases names_of_knows hknown ht with h | h
    · exact absurd (V.constant_of_shared v h) hc
    · exact h.2
  cases hcont : st.contents (.own v.name) with
  | none => rfl
  | some l => exact absurd (hs.assigned v.name hmem (by rw [hcont]; rfl)) hd

theorem Faithful.ready (hP : Premises V ctx mach own) (hi : Fits V ctx own i)
    (hs : Faithful V ctx mach own s st) {facts : Congruence}
    (hknown : ∀ v ∈ i.readVars ++ i.outputs, s.knows v = true)
    (hd : i.assigned.foldlM Congruence.define s.facts = .ok facts) :
    Ready ctx.aliases own i st where
  placed := hs.placed
  outputs v hv := hP.alloc v (hi.text.2 v hv)
  unassigned v hv := by
    have hout : v ∈ i.outputs := i.results_subset (Instruction.mem_assigned.1 hv).1
    exact hs.unassigned (hi.text.2 v hout) (hi.outputs v hout)
      (hknown v (List.mem_append_right _ hout)) ((Congruence.foldlM_define_eq_ok hd).2.1 v hv)
  nodup := (Congruence.foldlM_define_eq_ok hd).2.2

/-- The writes of an instruction that was executed. -/
theorem Faithful.holds_carriedOut (hP : Premises V ctx mach own) (hs : Faithful V ctx mach own s st)
    {facts : Congruence} (hd : i.assigned.foldlM Congruence.define s.facts = .ok facts)
    (he : Executed ctx.aliases own i st st') :
    Holds mach own (carriedOut ctx i facts s).facts st' := by
  obtain ⟨rfl, -, -⟩ := Congruence.foldlM_define_eq_ok hd
  have ht := hs.wellFormed.tidy
  rw [(carriedOut_phases ctx i _ s).1]
  refine Holds.invalidateAll (hs.holds.of_top rfl rfl rfl rfl) hP.owned ?_ hs.placed
    (he.frame.mono (fun _ _ => trivial) (List.Subset.refl _))
  exact ⟨⟨ht.1.canonical, ht.1.values, ht.1.closed⟩, ht.2⟩

/-- **A folded instruction does the same.** -/
theorem exec_foldIf (hm : mach.Obeys ctx.foreign) (block : Nat) (hh : Holds mach own s.facts st')
    (h : i.exec mach st = some st') :
    (foldIf ctx block i s).1.exec mach st = some st'
      ∧ Recorded mach own st' s (foldIf ctx block i s).2 := by
  obtain ⟨hfacts, -, -, hcases⟩ := foldIf_cases ctx block i s
  have hholds : Holds mach own (foldIf ctx block i s).2.facts st' := hfacts ▸ hh
  rcases hcases with ⟨htree, hmarks⟩ | ⟨dst, l, hdst, hl, htree, hmarks⟩
  · exact ⟨(congrArg (·.exec mach st) htree).trans h, .of_facts hholds hmarks⟩
  · constructor
    · rcases htree with htree | htree
      · exact (congrArg (·.exec mach st) htree).trans h
      · obtain ⟨hout, hrem⟩ := isRemovable_of_foldable? hdst
        obtain ⟨l', hassign⟩ := assign_of_isRemovable hm hout hrem h
        obtain ⟨l'', hvalue, hread⟩ := hh.read_canonical? hl
        obtain rfl := Option.some.inj hread
        obtain rfl := Option.some.inj ((Store.value_of_assign hassign).symm.trans hvalue)
        rw [htree]
        exact exec_copy hm hassign
    · rcases hmarks with hmarks | hmarks
      · exact .of_facts hholds hmarks
      · refine ⟨hholds, [((block, dst.name), none)], by rw [hmarks]; rfl, fun e he a ha => ?_⟩
        obtain rfl := List.mem_singleton.1 he
        cases ha

/-- **Visiting an instruction** leaves one that does the same. -/
theorem simulates_visitInstruction (hP : Premises V ctx mach own) (hi : Fits V ctx own i)
    (hs : Faithful V ctx mach own s st) (hf : (visitInstruction ctx block i s).fault = none)
    (h : i.exec mach st = some st') (hp : (visitInstruction ctx block i s).state.pool.WellFormed)
    (hst : Stocked (visitInstruction ctx block i s).state.pool st') :
    (visitInstruction ctx block i s).tree.exec mach st = some st'
      ∧ Faithful V ctx mach own (visitInstruction ctx block i s).state st'
      ∧ Executed ctx.aliases own i st st'
      ∧ Recorded mach own st' s (visitInstruction ctx block i s).state := by
  obtain ⟨hw, -⟩ := wellFormed_visitInstruction hP.suits.toServes hs.wellFormed hi.text hf
  obtain ⟨hlevel, hdefined, -⟩ := facts_visitInstruction hf
  obtain ⟨facts, removable, values, hknown, hdefine, -, hvalues, heq⟩ := visitInstruction_cases hf
  have hready := hs.ready hP hi hknown hdefine
  have he := (change_of_exec h).executed hready hP.oneParent hP.child hi.aliases
  -- the instruction with its operands replaced
  let i₁ := i.mapOperands (replace s.facts)
  have h₁ : i₁.exec mach st = some st' :=
    (Instruction.exec_mapOperands (fun role a => hs.holds.read_replace role a) i).trans h
  have hplain₁ : i₁.Plain own := by
    refine hi.plain.mapOperands fun role a => ?_
    rcases replace_cases s.facts role a with hrep | ⟨v, rep, rfl, hrep, heq⟩
    · exact .inl hrep
    · exact .inr fun n hn => ((Congruence.stands_of_canonical? hs.wellFormed.tidy hrep).stands
        hP.owned (heq ▸ hn)).2
  -- the values that it makes available
  have hproduced := produced_of_exec hP.obeys (hready.mapOperands _)
    hplain₁ h₁ (he.mapOperands _) hvalues
  have hpool : (values.foldl (bind ctx block removable) (carriedOut ctx i facts s)).pool
      = (visitInstruction ctx block i s).state.pool := by
    rw [heq]
    exact (foldIf_cases ctx block i₁ _).2.1.symm
  have hw₂ : WellFormed V (carriedOut ctx i facts s) := wellFormed_carriedOut hs.wellFormed hdefine
  have hrecorded := recorded_foldl_bind hP.suits hP.owned hP.obeys block removable hw₂
    (hpool ▸ hp) (hs.holds_carriedOut hP hdefine he)
    hproduced (names_values hs.wellFormed.tidy hi.text hknown hdefine hvalues) (hpool ▸ hst)
  obtain ⟨hexec, hfolded⟩ := exec_foldIf hP.obeys block hrecorded.holds h₁
  have hall := hrecorded.trans hfolded
  have hholds : Holds mach own (visitInstruction ctx block i s).state.facts st' := by
    rw [heq]
    obtain ⟨hlevel, -, -, hcanonical, hvals, -⟩ := Congruence.foldl_close_spec
      (foldIf ctx block i₁ _).1.closes (foldIf ctx block i₁ _).2.facts
    exact hall.holds.of_top hlevel.outer hlevel.kind hcanonical hvals
  refine ⟨by rw [heq]; exact hexec, ⟨hw, he.placed, hholds, ?_⟩, he, hholds, ?_⟩
  · intro n hn hsome
    rw [hlevel.names] at hn
    rw [Congruence.mem_definedNames, hlevel.outer, hdefined,
      List.mem_append, or_assoc, ← Congruence.mem_definedNames]
    rcases he.new n hsome with hold | ⟨v, hv, rfl⟩
    · exact .inr (hs.assigned n hn hold)
    · exact .inl (List.mem_reverse.2 (List.mem_map.2 ⟨v, hv, rfl⟩))
  · obtain ⟨new, hnew, hok⟩ := hall.marks
    refine ⟨new, ?_, hok⟩
    rw [heq, ← (carriedOut_phases ctx i facts s).2.2.1]
    exact hnew

end Instructions

end Numbering

end ValueFlow
