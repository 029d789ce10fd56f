import ValueFlow.Proofs.Counters
import ValueFlow.Proofs.FreshRepresentatives

/-!
# Visiting a rewritten instruction

A walked tree is walked once more, without the instructions that were deleted.
`Leans` relates the states of the two walks: the facts of the second one are
leaner, and it has marks only where the first one has the same. An instruction
that the first walk left is visited a second time without any change
(`leans_visitInstruction`): its operands have been replaced, the replacements
have no representatives themselves, since chains are short, and its values are
found again. If an instruction was deleted, only the first walk visits it
(`leans_visitDeleted`). All its outputs have got representatives, so they are
stable, and nothing is written.
-/

namespace ValueFlow

namespace Numbering

/-! ## Entries that can be missed -/

theorem isLive_of_isRetrieve (settings : Settings) {sig : Signature} (h : sig.isRetrieve = true) :
    isLive settings sig.key = true := by
  unfold isLive Signature.key
  cases hop : sig.op with
  | assign =>
    unfold Signature.isRetrieve at h
    rw [hop] at h
    cases h
  | _ => rfl

/-- **A value that is known without an entry is found.** -/
theorem isSome_resolve_of_moot {ctx : Context} {sig : Signature}
    (h : isLive ctx.settings sig.key = false) (s : State) :
    (resolve ctx sig s).1.isSome = true := by
  unfold isLive isMoot Signature.key at h
  rw [Bool.not_eq_false'] at h
  split at h
  · rename_i l _ hkey
    obtain ⟨hop, hrest⟩ := Prod.mk.inj hkey
    obtain ⟨hinputs, -⟩ := Prod.mk.inj hrest
    obtain ⟨a, hsingle, ha⟩ := List.map_eq_singleton_iff.1 hinputs
    obtain ⟨hshared, hnull⟩ := Bool.and_eq_true_iff.1 h
    cases a with
    | var v => cases ha
    | lit l' =>
      obtain rfl := Sum.inr.inj ha
      unfold resolve
      rw [hop, hsingle]
      simp only [hshared, if_true]
      obtain ⟨name, hname⟩ : ∃ name, Constant.nameFor? l' = some name := by
        cases l' with
        | null => cases hnull
        | _ => exact ⟨_, rfl⟩
      obtain ⟨made, hmade⟩ := Constant.exists_make? hname .optimizer
      unfold constantFor Pool.getOrCreate
      simp only [hname, hmade]
      split <;> rfl
  · cases h

/-! ## States that lean on others -/

theorem Marks.get?_add (m : Marks) (block : Nat) (out : Var) (literal : Option Operand) (k : Nat)
    (v : Var) :
    (m.add block out literal).get? k v = if (block, out.name)
      = (k, v.name) then some literal else m.get? k v := by
  unfold Marks.add Marks.get?
  by_cases h : (block, out.name) = (k, v.name)
  · rw [List.find?_cons_of_pos (by simpa using h), if_pos h]
    rfl
  · rw [List.find?_cons_of_neg (by simpa using h), if_neg h]

/-- **The second state leans on the first one**: its facts are leaner, and its
marks are marks of the first one. -/
structure Leans (settings : Settings) (hidden : String → Bool) (s t : State) : Prop where
  facts : s.facts.Leaner (isLive settings) hidden t.facts
  pool : t.pool = s.pool
  nextBlock : t.nextBlock = s.nextBlock
  marks : ∀ block v, t.marks.get? block v = none ∨ t.marks.get? block v = s.marks.get? block v

namespace Leans

variable {ctx : Context} {hidden : String → Bool} {block : Nat} {removable : Bool} {s t : State}
  {settings : Settings}

theorem of_quiet (h : Leans settings hidden s t) {s' t' : State} (hs : Quiet s s')
    (ht : Quiet t t') : Leans settings hidden s' t' :=
  ⟨hs.facts ▸ ht.facts ▸ h.facts, by rw [hs.pool, ht.pool, h.pool],
    by rw [hs.nextBlock, ht.nextBlock, h.nextBlock],
    hs.marks ▸ ht.marks ▸ h.marks⟩

theorem of_facts (h : Leans settings hidden s t) {a b : Congruence}
    (hfacts : a.Leaner (isLive settings) hidden b) :
    Leans settings hidden { s with facts := a } { t with facts := b } :=
  ⟨hfacts, h.pool, h.nextBlock, h.marks⟩

/-- Both states get the same mark. -/
theorem mark (h : Leans settings hidden s t) (block : Nat) (out : Var) (literal : Option Operand) :
    Leans settings hidden { s with marks := s.marks.add block out literal }
      { t with marks := t.marks.add block out literal } := by
  refine ⟨h.facts, h.pool, h.nextBlock, fun k v => ?_⟩
  dsimp only
  rw [Marks.get?_add, Marks.get?_add]
  split
  · exact .inr rfl
  · exact h.marks k v

/-! ### Values -/

/-- What follows from a signature alone depends on the pool only. -/
theorem resolve_eq (ctx : Context) (h : t.pool = s.pool) (sig : Signature) :
    (resolve ctx sig t).1 = (resolve ctx sig s).1
    ∧ (resolve ctx sig t).2 = { t with pool := (resolve ctx sig s).2.pool } := by
  obtain ⟨facts, pool, marks, stats, nextBlock, events⟩ := t
  obtain rfl : pool = s.pool := h
  unfold resolve
  split
  · split <;> exact ⟨rfl, rfl⟩
  · exact ⟨rfl, rfl⟩
  · exact ⟨rfl, rfl⟩
  · exact ⟨rfl, rfl⟩
  · split
    · dsimp only
      cases (List.mapM s.pool.literal? sig.inputs).bind _ <;> exact ⟨rfl, rfl⟩
    · exact ⟨rfl, rfl⟩
  · exact ⟨rfl, rfl⟩

/-- **A computed value does the same to both.** -/
theorem bindOutput (h : Leans ctx.settings hidden s t) {sig : Signature} {out : Var}
    (hout : ctx.aliases.isStable out = true → s.facts.representative? out = none) :
    Leans ctx.settings hidden (bindOutput ctx block removable sig out s)
      (bindOutput ctx block removable sig out t) := by
  obtain ⟨hfst, hsnd⟩ := resolve_eq ctx h.pool sig
  obtain ⟨p, hs, -⟩ := resolve_snd ctx sig s
  have hresolved : Leans ctx.settings hidden (resolve ctx sig s).2 (resolve ctx sig t).2 := by
    rw [hsnd, hs]
    exact ⟨h.facts, rfl, h.nextBlock, h.marks⟩
  have hfound : (resolve ctx sig t).1.or
        ((resolve ctx sig t).2.facts.lookup ctx.aliases ctx.writes sig)
      = (resolve ctx sig s).1.or
        ((resolve ctx sig s).2.facts.lookup ctx.aliases ctx.writes sig) := by
    rw [hfst]
    cases hrep : (resolve ctx sig s).1 with
    | some rep => rfl
    | none =>
      rw [Option.none_or, Option.none_or]
      refine hresolved.facts.lookup ctx.aliases ctx.writes (by_contra fun hmoot => ?_)
      have hsome := isSome_resolve_of_moot (Bool.eq_false_iff.2 hmoot) s
      rw [hrep] at hsome
      cases hsome
  unfold Numbering.bindOutput
  simp only [hfound]
  split
  · rename_i rep _
    split
    · exact hresolved
    · rename_i hok
      rw [Bool.not_eq_true, Bool.or_eq_false_iff, Bool.not_eq_false'] at hok
      have hnone : (resolve ctx sig s).2.facts.top.canonical.get? out = none := by
        rw [facts_resolve]
        exact (Congruence.representative?_eq_none_iff.1 (hout (accepts_eq_true hok.2).1)).1
      have hset : Leans ctx.settings hidden
          { (resolve ctx sig s).2 with
            facts := (resolve ctx sig s).2.facts.setCanonical out rep }
          { (resolve ctx sig t).2 with
            facts := (resolve ctx sig t).2.facts.setCanonical out rep } :=
        hresolved.of_facts (hresolved.facts.setCanonical hnone)
      split
      · cases rep with
        | var r =>
          have hmark := hset.mark block out ((resolve ctx sig s).2.pool.valueOf? r)
          unfold markRedundant State.emit
          simp only [hresolved.pool]
          exact ⟨hmark.facts, rfl, hmark.nextBlock, hmark.marks⟩
        | lit l => exact ⟨hset.facts, hset.pool, hset.nextBlock, hset.marks⟩
      · exact ⟨hset.facts, hset.pool, hset.nextBlock, hset.marks⟩
  · split
    · exact hresolved.of_facts (hresolved.facts.record ctx.aliases sig (.var out))
    · exact hresolved

/-- **A known value does the same to both**, entries that can be missed apart. -/
theorem bindKnown (h : Leans ctx.settings hidden s t) (hshort : s.facts.Short) (sig : Signature)
    {src : Operand} (hsrc : src.All fun v => hidden v.name = false) :
    Leans ctx.settings hidden (bindKnown ctx sig src s) (bindKnown ctx sig src t) := by
  have hrep := h.facts.canonicalOperand hshort hsrc
  by_cases hlive : isLive ctx.settings sig.key = true
  · unfold Numbering.bindKnown
    simp only [hrep, h.facts.lookup ctx.aliases ctx.writes hlive]
    split
    · exact h.of_facts (h.facts.record ctx.aliases sig _)
    · exact h
  · -- the entry may be made in one of the two only
    have hmoot : isLive ctx.settings sig.key = false := Bool.eq_false_iff.2 hlive
    have hleft : Leans ctx.settings hidden (Numbering.bindKnown ctx sig src s) t := by
      rcases bindKnown_cases ctx sig src s with hs | ⟨-, -, hs⟩
      · rwa [hs]
      · rw [hs]
        exact h.of_facts (h.facts.record_left ctx.aliases hmoot _)
    rcases bindKnown_cases ctx sig src t with ht | ⟨-, -, ht⟩
    · rwa [ht]
    · rw [ht]
      exact hleft.of_facts (hleft.facts.record_right ctx.aliases hmoot _)

theorem bind (h : Leans ctx.settings hidden s t) (hshort : s.facts.Short)
    {value : Signature × Binding} (hsig : value.1.All fun v => hidden v.name = false)
    (hbinding : value.2.All fun v => hidden v.name = false)
    (hout : ∀ out ∈ value.2.outs, ctx.aliases.isStable out = true →
      s.facts.representative? out = none) :
    Leans ctx.settings hidden (bind ctx block removable s value)
      (bind ctx block removable t value) := by
  obtain ⟨sig, binding⟩ := value
  unfold Numbering.bind
  simp only [h.facts.canonicalize hshort hsig]
  cases binding with
  | output out => exact h.bindOutput (hout out (List.mem_singleton_self out))
  | known src => exact h.bindKnown hshort _ hbinding

end Leans

section Values

variable {ctx : Context} {hidden : String → Bool} {block : Nat} {removable : Bool} {s t : State}
  {values : List (Signature × Binding)}

/-- Chains are short before values are noted, if they are short behind and
outputs without representatives get them. -/
theorem short_of_foldl_bind
    (hnone : ∀ o ∈ values.flatMap (·.2.outs), ctx.aliases.isStable o = true →
      s.facts.representative? o = none)
    (hshort : (values.foldl (bind ctx block removable) s).facts.Short) : s.facts.Short := by
  have hkept : ∀ v rep, s.facts.representative? v = some rep →
      (values.foldl (bind ctx block removable) s).facts.representative? v = some rep := by
    intro v rep hrep
    refine Eq.trans ?_ hrep
    refine representative?_foldl_bind_of_unassigned
      (fun value hvalue o ho => List.mem_flatMap.2 ⟨value, hvalue, ho⟩)
      (fun out hout hname => by_contra fun hstable => ?_) s
    have hrep' := hnone out hout (Bool.not_eq_false _ ▸ hstable)
    rw [Congruence.representative?_congr hname, hrep] at hrep'
    cases hrep'
  intro v r hv
  rw [Option.eq_none_iff_forall_not_mem]
  intro rep hrep
  have hr := hshort v r (hkept v (.var r) hv)
  rw [hkept r rep hrep] at hr
  cases hr

/-- **The values of an instruction do the same to both**, if its stable outputs
are different variables without representatives. -/
theorem Leans.foldl_bind (h : Leans ctx.settings hidden s t)
    (hvalues : ∀ value ∈ values, value.1.All (fun v => hidden v.name = false)
      ∧ value.2.All fun v => hidden v.name = false)
    (hnone : ∀ o ∈ values.flatMap (·.2.outs), ctx.aliases.isStable o = true →
      s.facts.representative? o = none)
    (hnodup : (((values.flatMap (·.2.outs)).filter ctx.aliases.isStable).map (·.name)).Nodup)
    (hshort : (values.foldl (Numbering.bind ctx block removable) s).facts.Short) :
    Leans ctx.settings hidden (values.foldl (Numbering.bind ctx block removable) s)
      (values.foldl (Numbering.bind ctx block removable) t) := by
  induction values generalizing s t with
  | nil => exact h
  | cons value values ih =>
    obtain ⟨⟨hsig, hbinding⟩, hvalues⟩ := List.forall_mem_cons.1 hvalues
    have hshort₀ := short_of_foldl_bind hnone hshort
    rw [List.flatMap_cons] at hnone
    rw [List.flatMap_cons, List.filter_append, List.map_append, List.nodup_append] at hnodup
    obtain ⟨hfirst, hothers⟩ := List.forall_mem_append.1 hnone
    refine ih (h.bind hshort₀ hsig hbinding hfirst) hvalues
      (fun o ho hstable => ?_) hnodup.2.1 hshort
    -- the value gives no representative to the other outputs
    rw [Option.eq_none_iff_forall_not_mem]
    intro rep hrep
    have hone : ∀ value' ∈ [value], value'.2.outs ⊆ value.2.outs := fun value' hvalue' => by
      rw [List.mem_singleton.1 hvalue']
      exact List.Subset.refl _
    rcases representative?_foldl_bind hone hrep with hrep | ⟨out, hout, hname, hok⟩
    · rw [hothers o ho hstable] at hrep
      cases hrep
    · refine hnodup.2.2 _
        (List.mem_map.2 ⟨out, List.mem_filter.2 ⟨hout, (accepts_eq_true hok).1⟩, rfl⟩) _
        (List.mem_map.2 ⟨o, List.mem_filter.2 ⟨ho, hstable⟩, rfl⟩) hname

end Values

/-! ## Operands that were replaced -/

section Replace

variable {a b : Congruence} {live : Opcode × List (String ⊕ Literal) × Bool → Bool}
  {hidden : String → Bool}
  {role : Role} {x : Operand} {v : Var}

theorem replacement?_of_canonical? {rep : Operand} (hcan : b.canonical? v = a.canonical? v)
    (hclosed : ∀ r, b.isClosed r = true → a.isClosed r = true)
    (h : replacement? b role (.var v) = some rep) : replacement? a role (.var v) = some rep := by
  unfold replacement? at h ⊢
  simp only [Operand.var?, Option.bind_eq_bind, Option.bind_some, hcan] at h ⊢
  obtain ⟨rep', hrep', h⟩ := Option.bind_eq_some_iff.1 h
  rw [hrep', Option.bind_some]
  simp only [Option.ite_none_left_eq_some, Option.ite_none_right_eq_some] at h ⊢
  refine ⟨h.1, ?_, h.2.2⟩
  have hadmitted := h.2.1
  cases role with
  | retrieved =>
    cases rep' with
    | var r =>
      simp only [Bool.and_eq_true] at hadmitted ⊢
      exact ⟨hadmitted.1, hclosed r hadmitted.2⟩
    | lit l => exact hadmitted
  | _ => exact hadmitted

/-- **What was replaced is not replaced again**, and what was not replaced is
not replaced later. -/
theorem replacement?_replace (h : a.Leaner live hidden b) (hshort : a.Short)
    (hread : (replace a role x).All fun v => hidden v.name = false) :
    replacement? b role (replace a role x) = none := by
  unfold replace at hread ⊢
  cases hx : replacement? a role x with
  | some rep =>
    rw [hx, Option.getD_some] at hread
    rw [Option.getD_some]
    obtain ⟨v, rfl, hcan⟩ := replacement?_eq_some hx
    cases rep with
    | lit l => rfl
    | var r =>
      rw [hshort.canonical?] at hcan
      have hnone := h.representative?_eq_none (hshort v r hcan)
      unfold replacement? Congruence.canonical?
      simp only [Operand.var?, Option.bind_eq_bind, Option.bind_some,
        hnone, Option.map_none, Option.bind_none]
  | none =>
    rw [hx, Option.getD_none] at hread
    rw [Option.getD_none]
    cases x with
    | lit l => rfl
    | var v =>
      rw [Option.eq_none_iff_forall_not_mem]
      intro rep hrep
      rw [replacement?_of_canonical? (h.canonical? hshort hread) (fun r => h.isClosed) hrep] at hx
      cases hx

theorem replace_retrieved (facts : Congruence) (v : Var) :
    ∃ w, replace facts .retrieved (.var v) = .var w := by
  unfold replace
  cases hrep : replacement? facts .retrieved (.var v) with
  | none => exact ⟨v, rfl⟩
  | some rep =>
    cases rep with
    | var w => exact ⟨w, rfl⟩
    | lit l =>
      simp only [replacement?, Operand.var?, Option.bind_eq_bind, Option.bind_some] at hrep
      obtain ⟨rep', -, hrep⟩ := Option.bind_eq_some_iff.1 hrep
      simp only [Option.ite_none_left_eq_some, Option.ite_none_right_eq_some, Option.some.injEq]
        at hrep
      obtain ⟨-, hadmitted, rfl⟩ := hrep
      cases hadmitted

end Replace

end Numbering

/-- The operands of a transformed instruction. -/
theorem Instruction.replaceable_mapOperands {f : Role → Operand → Operand}
    (hf : ∀ v, ∃ w, f .retrieved (.var v) = .var w) (i : Instruction) :
    (i.mapOperands f).replaceable = i.replaceable.map fun r => (r.1, f r.1 r.2) := by
  unfold replaceable
  rw [reads_mapOperands, List.filter_map]
  refine List.map_congr_left fun r hr => ?_
  obtain ⟨role, a⟩ := r
  have hrole : role ≠ .container := of_decide_eq_true (List.mem_filter.1 hr).2
  cases role with
  | container => exact absurd rfl hrole
  | retrieved =>
    cases a with
    | lit l => rfl
    | var v =>
      obtain ⟨w, hw⟩ := hf v
      simp only [mapOperand, hw, varOr]
  | _ => rfl

namespace Numbering

/-- **A rewritten instruction has no operand to replace.** -/
theorem countReplaced_mapOperands {a b : Congruence}
    {live : Opcode × List (String ⊕ Literal) × Bool → Bool} {hidden : String → Bool}
    (h : a.Leaner live hidden b) (hshort : a.Short) {i : Instruction}
    (hreads : ∀ v ∈ (i.mapOperands (replace a)).readVars, hidden v.name = false) :
    countReplaced b (i.mapOperands (replace a)).replaceable = 0 := by
  refine List.countP_eq_zero.2 fun r hr => ?_
  have hread : r.2.All fun v => hidden v.name = false := by
    obtain ⟨role, x⟩ := r
    cases x with
    | var v => exact hreads v (List.mem_filterMap.2 ⟨_, (List.mem_filter.1 hr).1, rfl⟩)
    | lit l => trivial
  rw [Instruction.replaceable_mapOperands (replace_retrieved a)] at hr
  obtain ⟨r, -, rfl⟩ := List.mem_map.1 hr
  rw [replacement?_replace h hshort hread]
  exact Bool.false_ne_true

end Numbering

namespace Instruction

variable {foreign : Foreign} {i : Instruction} {values : List (Signature × Binding)} {dst : Var}

theorem signatures_of_bindsAlias (h : i.bindsAlias = true)
    (hvalues : i.signatures foreign = .ok values) : values = [] := by
  cases i with
  | readField access dst record path =>
    cases access with
    | bind => exact (Except.ok.inj hvalues).symm
    | _ => cases h
  | readElement access dst arr ix =>
    cases access with
    | bind => exact (Except.ok.inj hvalues).symm
    | _ => cases h
  | _ => cases h

/-- The outputs that get values, each once. -/
theorem sublist_signatures (hvalues : i.signatures foreign = .ok values) :
    (values.flatMap (·.2.outs)).Sublist i.results := by
  have hcall : ∀ (timing : Timing) (f : ForeignFunction)
      (function : String) (inputs : List Operand) (k : Nat)
      (outs : List Var),
        (callSignatures timing f function inputs k outs).flatMap (·.2.outs) = outs := by
    intro timing f function inputs k outs
    induction outs generalizing k with
    | nil => rfl
    | cons out outs ih =>
      rw [callSignatures, List.flatMap_cons, ih]
      rfl
  cases i with
  | call timing function outs inputs =>
    simp only [signatures] at hvalues
    cases hf : foreign.lookup function with
    | error e =>
      rw [hf] at hvalues
      cases hvalues
    | ok f =>
      rw [hf] at hvalues
      simp only [bind, Except.bind, pure, Except.pure] at hvalues
      split at hvalues
      · cases hvalues
        exact List.nil_sublist _
      · split at hvalues
        · cases hvalues
          exact List.Sublist.refl _
        · cases hvalues
          rw [hcall]
          exact List.Sublist.refl _
  | readField access dst record path => cases access <;> cases hvalues <;> exact List.Sublist.refl _
  | readElement access dst arr ix => cases access <;> cases hvalues <;> exact List.Sublist.refl _
  | writeField record path src =>
    cases hvalues
    exact List.nil_sublist _
  | writeElement arr ix src =>
    cases hvalues
    exact List.nil_sublist _
  | _ =>
    cases hvalues
    exact List.Sublist.refl _

/-- What is folded computes at most one value, into its only output. -/
theorem signatures_of_foldable? (h : Numbering.foldable? foreign i = some dst)
    (hvalues : i.signatures foreign = .ok values) :
    values = [] ∨ ∃ sig, values = [(sig, .output dst)] := by
  unfold Numbering.foldable? at h
  split at h
  · split at h
    · obtain rfl := Option.some.inj h
      exact .inr ⟨_, (Except.ok.inj hvalues).symm⟩
    · cases h
  · rename_i function out inputs
    split at h
    · obtain rfl := Option.some.inj h
      simp only [signatures] at hvalues
      cases hf : foreign.lookup function with
      | error e =>
        rw [hf] at hvalues
        cases hvalues
      | ok f =>
        rw [hf] at hvalues
        simp only [bind, Except.bind, pure, Except.pure] at hvalues
        split at hvalues
        · exact .inl (Except.ok.inj hvalues).symm
        · split at hvalues
          · cases hvalues
            rename_i hout
            obtain rfl := (List.cons.inj hout).1
            exact .inr ⟨_, rfl⟩
          · exact .inr ⟨_, (Except.ok.inj hvalues).symm⟩
    · cases h
  · cases h

theorem writes_of_foldable? (h : Numbering.foldable? foreign i = some dst) :
    i.writes = [(dst, [])] := by
  unfold Numbering.foldable? at h
  split at h
  · split at h
    · exact Option.some.inj h ▸ rfl
    · cases h
  · split at h
    · exact Option.some.inj h ▸ rfl
    · cases h
  · cases h

theorem assigned_eq_filter (i : Instruction) : i.assigned = i.results.filter (·.alloc ≠ .part) := by
  unfold assigned results
  split <;> rfl

end Instruction

namespace Numbering

/-! ## Folding twice -/

section Fold

variable {ctx : Context} {block : Nat} {i : Instruction}
  {hidden : String → Bool} {s t : State} {dst : Var} {l : Literal}

/-- **What folds**: a literal is known for the only output of a computation on
literals. -/
def Folds (ctx : Context) (i : Instruction) (s : State) : Prop :=
  ctx.settings.constantFold = true
    ∧ ∃ dst l, foldable? ctx.foreign i = some dst ∧ s.facts.canonical? dst = some (.lit l)

theorem foldIf_of_lit (block : Nat) (hfold : ctx.settings.constantFold = true)
    (hdst : foldable? ctx.foreign i = some dst) (hlit : s.facts.canonical? dst = some (.lit l)) :
    let copy := Instruction.compute .now .copy dst [.lit l]
    let r := foldIf ctx block i s
    r.1 = (if i.same copy then i else copy) ∧ r.2.facts = s.facts ∧ r.2.pool = s.pool
      ∧ r.2.nextBlock = s.nextBlock
      ∧ r.2.marks = (if dst.definition ≠ .outArg then s.marks.add block dst none else s.marks)
      ∧ (i.same copy = true → r.2.stats.edits = s.stats.edits) := by
  intro copy r
  have hr : r = fold ctx block i s := if_pos hfold
  unfold fold at hr
  simp only [hdst, hlit] at hr
  rw [hr]
  by_cases hsame : i.same copy = true
  · rw [if_pos hsame]
    by_cases hdef : dst.definition ≠ .outArg
    · rw [if_pos hdef]
      exact ⟨(if_pos hsame).symm, rfl, rfl, rfl, (if_pos hdef).symm, fun _ => rfl⟩
    · rw [if_neg hdef]
      exact ⟨(if_pos hsame).symm, rfl, rfl, rfl, (if_neg hdef).symm, fun _ => rfl⟩
  · rw [if_neg hsame]
    by_cases hdef : dst.definition ≠ .outArg
    · rw [if_pos hdef]
      exact ⟨(if_neg hsame).symm, rfl, rfl, rfl, (if_pos hdef).symm, fun h => absurd h hsame⟩
    · rw [if_neg hdef]
      exact ⟨(if_neg hsame).symm, rfl, rfl, rfl, (if_neg hdef).symm, fun h => absurd h hsame⟩

theorem foldIf_of_not_folds (block : Nat) (h : ¬ Folds ctx i s) :
    foldIf ctx block i s = (i, s) := by
  unfold foldIf
  split
  · rename_i hfold
    unfold fold
    split
    · rfl
    · rename_i dst hdst
      split
      · rename_i l hlit
        exact absurd ⟨hfold, dst, l, hdst, hlit⟩ h
      · rfl
  · rfl

/-- **Folding what was folded changes nothing.** -/
theorem Leans.foldIf (block : Nat) (h : Leans ctx.settings hidden s t) (hshort : s.facts.Short)
    (hresults : ∀ v ∈ i.results, hidden v.name = false) :
    let j := (Numbering.foldIf ctx block i s).1
    Leans ctx.settings hidden (Numbering.foldIf ctx block i s).2 (Numbering.foldIf ctx block j t).2
      ∧ (Numbering.foldIf ctx block j t).1 = j
      ∧ (Numbering.foldIf ctx block j t).2.stats.edits = t.stats.edits := by
  have hcan : ∀ dst, foldable? ctx.foreign i = some dst →
      t.facts.canonical? dst = s.facts.canonical? dst := by
    intro dst hdst
    refine h.facts.canonical? hshort (hresults dst ?_)
    rw [foldable?_eq_some hdst]
    exact List.mem_singleton_self dst
  intro j
  by_cases hfolds : Folds ctx i s
  · obtain ⟨hfold, dst, l, hdst, hlit⟩ := hfolds
    obtain ⟨htree, hfacts, hpool, hnext, hmarks, -⟩ := foldIf_of_lit block hfold hdst hlit
    have hj : foldable? ctx.foreign j = some dst
        ∧ j.same (.compute .now .copy dst [.lit l]) = true := by
      by_cases hsame : i.same (.compute .now .copy dst [.lit l]) = true
      · rw [if_pos hsame] at htree
        rw [show j = i from htree]
        exact ⟨hdst, hsame⟩
      · rw [if_neg hsame] at htree
        rw [show j = .compute .now .copy dst [.lit l] from htree]
        exact ⟨rfl, decide_eq_true rfl⟩
    obtain ⟨htree', hfacts', hpool', hnext', hmarks', hedits⟩ :=
      foldIf_of_lit block hfold hj.1 ((hcan dst hdst).trans hlit)
    refine ⟨⟨?_, ?_, ?_, ?_⟩, htree'.trans (if_pos hj.2), hedits hj.2⟩
    · rw [hfacts, hfacts']
      exact h.facts
    · rw [hpool, hpool', h.pool]
    · rw [hnext, hnext', h.nextBlock]
    · rw [hmarks, hmarks']
      split
      · exact (h.mark block dst none).marks
      · exact h.marks
  · have hnot : ¬ Folds ctx i t := fun ⟨hfold, dst, l, hdst, hlit⟩ =>
      hfolds ⟨hfold, dst, l, hdst, hcan dst hdst ▸ hlit⟩
    have hj : j = i := congrArg Prod.fst (foldIf_of_not_folds block hfolds)
    rw [hj, foldIf_of_not_folds block hfolds, foldIf_of_not_folds block hnot]
    exact ⟨h, rfl, rfl⟩

/-- **A copy of the literal has the value that the computation had.** -/
theorem Leans.bind_copy (h : Leans ctx.settings hidden s t) {values : List (Signature × Binding)}
    {removable : Bool} (hfold : ctx.settings.constantFold = true)
    (hdst : foldable? ctx.foreign i = some dst) (hvalues : i.signatures ctx.foreign = .ok values)
    (hnone : s.facts.representative? dst = none)
    (hpool : (values.foldl (Numbering.bind ctx block removable) s).pool = s.pool)
    (hlit : (values.foldl (Numbering.bind ctx block removable) s).facts.representative? dst
      = some (.lit l))
    (removable' : Bool) :
    Leans ctx.settings hidden (values.foldl (Numbering.bind ctx block removable) s)
      (Numbering.bind ctx block removable' t (.ofBuiltin .now .copy [.lit l], .output dst)) := by
  rcases Instruction.signatures_of_foldable? hdst hvalues with rfl | ⟨sig, rfl⟩
  · rw [List.foldl_nil, hnone] at hlit
    cases hlit
  · rw [List.foldl_cons, List.foldl_nil] at hlit hpool ⊢
    rcases bindOutput_cases ctx block removable (s.facts.canonicalize sig) dst s with
      heq | ⟨rep, -, hok, hfacts, -, hnext, hmarks⟩ | ⟨-, -, heq⟩
    · rw [show Numbering.bind ctx block removable s (sig, .output dst)
        = _ from heq, facts_resolve, hnone] at hlit
      cases hlit
    · replace hfacts : (Numbering.bind ctx block removable s (sig, .output dst)).facts
        = s.facts.setCanonical dst rep := hfacts
      -- the representative that the computation gave to its output is the literal
      have hrep : rep = .lit l := by
        have hset : (s.facts.setCanonical dst rep).representative? dst = some rep :=
          Congruence.representative?_of_get? (by
            show (s.facts.top.canonical.insert dst rep).get? dst = some rep
            rw [Table.get?_insert, if_pos rfl])
        rw [hfacts, hset] at hlit
        exact Option.some.inj hlit
      subst hrep
      have hcopy : Numbering.bind ctx block removable' t
            (.ofBuiltin .now .copy [.lit l], .output dst)
          = { t.emit (.equated dst (.lit l)) with facts := t.facts.setCanonical dst (.lit l) } := by
        have hsig : t.facts.canonicalize (.ofBuiltin .now .copy [.lit l])
          = .ofBuiltin .now .copy [.lit l] := rfl
        have hresolve : resolve ctx (.ofBuiltin .now .copy [.lit l]) t = (some (.lit l), t) := by
          show (if ctx.settings.constantFold then (Builtin.foldOperands .copy [.lit l]).map
            Operand.lit else none, t) = _
          rw [if_pos hfold]
          rfl
        unfold Numbering.bind Numbering.bindOutput
        simp only [hsig, hresolve, Option.some_or]
        rw [if_neg]
        · split <;> rfl
        · rw [hok]
          exact Bool.false_ne_true
      rw [hcopy]
      refine ⟨?_, h.pool.trans hpool.symm, h.nextBlock.trans hnext.symm, ?_⟩
      · rw [hfacts]
        exact h.facts.setCanonical (Congruence.representative?_eq_none_iff.1 hnone).1
      · rcases hmarks with hmarks | ⟨-, -, r, hr, -⟩
        · intro k v
          rw [show (Numbering.bind ctx block removable s (sig, .output dst)).marks
            = s.marks from hmarks]
          exact h.marks k v
        · cases hr
    · rw [show Numbering.bind ctx block removable s (sig, .output dst)
        = _ from heq, Congruence.representative?_record,
        hnone] at hlit
      cases hlit

theorem foldIf_fst (ctx : Context) (block : Nat) (i : Instruction) (s : State) :
    (foldIf ctx block i s).1 = i
    ∨ ctx.settings.constantFold = true ∧ ∃ dst l, foldable? ctx.foreign i = some dst
      ∧ s.facts.canonical? dst = some (.lit l)
        ∧ (foldIf ctx block i s).1 = .compute .now .copy dst [.lit l] := by
  by_cases hfolds : Folds ctx i s
  · obtain ⟨hfold, dst, l, hdst, hlit⟩ := hfolds
    have htree := (foldIf_of_lit block hfold hdst hlit).1
    by_cases hsame : i.same (.compute .now .copy dst [.lit l]) = true
    · exact .inl (htree.trans (if_pos hsame))
    · exact .inr ⟨hfold, dst, l, hdst, hlit, htree.trans (if_neg hsame)⟩
  · exact .inl (congrArg Prod.fst (foldIf_of_not_folds block hfolds))

end Fold

/-! ## Visiting what a visit left -/

section Visit

variable {V : Vocabulary} {ctx : Context} {is : List (Nat × Instruction)}
  {hidden : String → Bool} {block : Nat}
  {i : Instruction} {s t : State}

theorem Leans.carriedOut (h : Leans ctx.settings hidden s t) {j : Instruction}
    {facts facts' : Congruence} (hwrites : j.writes = i.writes)
    (hd : i.assigned.foldlM Congruence.define s.facts = .ok facts)
    (hd' : j.assigned.foldlM Congruence.define t.facts = .ok facts') :
    Leans ctx.settings hidden (Numbering.carriedOut ctx i facts s)
      (Numbering.carriedOut ctx j facts' t) := by
  obtain ⟨hfacts, hpool, hmarks, hnext⟩ := carriedOut_phases ctx i facts s
  obtain ⟨hfacts', hpool', hmarks', hnext'⟩ := carriedOut_phases ctx j facts' t
  obtain ⟨rfl, -, -⟩ := Congruence.foldlM_define_eq_ok hd
  obtain ⟨rfl, -, -⟩ := Congruence.foldlM_define_eq_ok hd'
  refine ⟨?_, by rw [hpool, hpool', h.pool], by rw [hnext, hnext', h.nextBlock],
    by rw [hmarks, hmarks']; exact h.marks⟩
  rw [hfacts, hfacts', hwrites]
  exact (h.facts.define _ _).invalidateAll
    (fun _ => isLive_of_isRetrieve ctx.settings) ctx.aliases _

/-- What an instruction is to compute has no representative before. -/
theorem InOrder.representative?_of_results (hV : Suits V ctx) (hs : InOrder V ctx is s)
    (hi : i.All V.text) (hf : (visitInstruction ctx block i s).fault = none) :
    ∀ o ∈ i.results, s.facts.representative? o = none := by
  intro o ho
  by_cases hpart : o.alloc = .part
  · -- a part of another variable is not stable
    rw [Option.eq_none_iff_forall_not_mem]
    intro rep hrep
    have hcan : s.facts.canonical? o = some (s.facts.follow s.facts.depth rep) :=
      Option.map_eq_some_iff.2 ⟨rep, hrep, rfl⟩
    have hstable := isStable_of_canonical? hV hs.wellFormed.tidy (hi.2 o (i.results_subset ho)) hcan
    exact of_decide_eq_true (Bool.and_eq_true_iff.1 hstable).1 hpart
  · exact hs.representative?_of_assigned hf o (Instruction.mem_assigned.2 ⟨ho, hpart⟩)

/-- Different stable results have different names. -/
theorem nodup_stable_outs {facts facts' : Congruence} {values : List (Signature × Binding)}
    (hd : i.assigned.foldlM Congruence.define facts = .ok facts')
    (hvalues : i.signatures ctx.foreign = .ok values) :
    (((values.flatMap (·.2.outs)).filter ctx.aliases.isStable).map (·.name)).Nodup := by
  have hfilter : i.results.filter ctx.aliases.isStable
      = i.assigned.filter ctx.aliases.isStable := by
    rw [Instruction.assigned_eq_filter, List.filter_filter]
    refine List.filter_congr fun o _ => ?_
    unfold AliasMap.isStable
    cases decide (o.alloc ≠ .part) <;> simp
  have hsub : ((values.flatMap (·.2.outs)).filter ctx.aliases.isStable).Sublist i.assigned := by
    refine ((Instruction.sublist_signatures hvalues).filter _).trans ?_
    rw [hfilter]
    exact List.filter_sublist
  exact (Congruence.foldlM_define_eq_ok hd).2.2.sublist (hsub.map _)

/-- The values of an instruction do the same to both, if nothing about its
operands and results is hidden. -/
theorem Leans.bind_signatures (h : Leans ctx.settings hidden s t) {facts facts' : Congruence}
    {removable : Bool} {values : List (Signature × Binding)}
    (hd : i.assigned.foldlM Congruence.define facts = .ok facts')
    (hvalues : i.signatures ctx.foreign = .ok values)
    (hnone : ∀ o ∈ i.results, s.facts.representative? o = none)
    (hreads : ∀ v ∈ i.readVars, hidden v.name = false)
    (hresults : ∀ v ∈ i.results, hidden v.name = false)
    (hshort : (values.foldl (Numbering.bind ctx block removable) s).facts.Short) :
    Leans ctx.settings hidden (values.foldl (Numbering.bind ctx block removable) s)
      (values.foldl (Numbering.bind ctx block removable) t) := by
  refine h.foldl_bind ?_ (fun o ho _ => ?_) (nodup_stable_outs hd hvalues) hshort
  · by_cases halias : i.bindsAlias = true
    · rw [Instruction.signatures_of_bindsAlias halias hvalues]
      exact List.forall_mem_nil _
    · have hall : i.All fun v => hidden v.name = false := by
        refine ⟨fun r hr => ?_, fun v hv => hresults v ?_⟩
        · obtain ⟨role, a⟩ := r
          cases a with
          | var v => exact hreads v (List.mem_filterMap.2 ⟨_, hr, rfl⟩)
          | lit l => trivial
        · rw [Instruction.results, if_neg halias]
          exact hv
      exact hall.signatures hvalues
  · exact hnone o ((Instruction.sublist_signatures hvalues).subset ho)

/-- **An instruction that a visit left is visited again without any change.** -/
theorem leans_visitInstruction (hV : Suits V ctx) (hs : InOrder V ctx is s)
    (h : Leans ctx.settings hidden s t) (hi : i.All V.text)
    (hf : (visitInstruction ctx block i s).fault = none) (hshort : s.facts.Short)
    (hshort' : (visitInstruction ctx block i s).state.facts.Short)
    (hpool : (visitInstruction ctx block i s).state.pool = s.pool)
    (hreads : ∀ v ∈ (visitInstruction ctx block i s).tree.readVars, hidden v.name = false)
    (hf' : (visitInstruction ctx block (visitInstruction ctx block i s).tree t).fault = none) :
    Leans ctx.settings hidden (visitInstruction ctx block i s).state
        (visitInstruction ctx block (visitInstruction ctx block i s).tree t).state
      ∧ (visitInstruction ctx block (visitInstruction ctx block i s).tree t).state.stats.edits
        = t.stats.edits := by
  obtain ⟨facts, removable, values, -, hdefine, hrem, hvalues, heq⟩ := visitInstruction_cases hf
  obtain ⟨facts', removable', values', -, hdefine', hrem', hvalues', heq'⟩ :=
    visitInstruction_cases hf'
  have hnone := hs.representative?_of_results hV hi hf
  -- the results have no representatives yet, so nothing about them is hidden
  let shown : String → Bool := fun n => hidden n && !(i.results.map (·.name)).contains n
  have hresults : ∀ v ∈ i.results, shown v.name = false := fun v hv => by
    show (hidden v.name && !(i.results.map (·.name)).contains v.name) = false
    rw [List.contains_iff_mem.2 (List.mem_map.2 ⟨v, hv, rfl⟩), Bool.not_true, Bool.and_false]
  have hshown : ∀ n, hidden n = false → shown n = false := fun n hn => by
    show (hidden n && _) = false
    rw [hn, Bool.false_and]
  have hs₀ : Leans ctx.settings shown s t := by
    refine ⟨h.facts.reveal (fun n hn => (Bool.and_eq_true_iff.1 hn).1)
      fun v hv hv' => ?_, h.pool, h.nextBlock, h.marks⟩
    have hmem : v.name ∈ i.results.map (·.name) := by
      simpa only [shown, hv, Bool.true_and, Bool.not_eq_false', List.contains_iff_mem] using hv'
    obtain ⟨o, ho, hname⟩ := List.mem_map.1 hmem
    rw [← Congruence.representative?_congr hname]
    exact hnone o ho
  set j := (visitInstruction ctx block i s).tree with hj
  set i₁ := i.mapOperands (replace s.facts) with hi₁
  set s₃ := values.foldl (Numbering.bind ctx block removable)
    (Numbering.carriedOut ctx i facts s) with hs₃
  have hjfold : j = (Numbering.foldIf ctx block i₁ s₃).1 := by rw [hj, heq]
  obtain ⟨hfacts₄, hpool₄, -⟩ := foldIf_cases ctx block i₁ s₃
  have hshort₃ : s₃.facts.Short := by
    have hrep : (visitInstruction ctx block i s).state.facts.representative?
        = s₃.facts.representative? := by
      rw [heq]
      dsimp only
      rw [representative?_foldl_close, hfacts₄]
    intro v r hv
    rw [← hrep] at hv ⊢
    exact hshort' v r hv
  have hpool₃ : s₃.pool = (Numbering.carriedOut ctx i facts s).pool := by
    rw [heq] at hpool
    rw [(carriedOut_phases ctx i facts s).2.1, ← hpool₄]
    exact hpool
  have hresults₁ : ∀ v ∈ i₁.results, shown v.name = false := by
    rw [hi₁, Instruction.results_mapOperands]
    exact hresults
  -- nothing is replaced a second time
  have hcount : countReplaced t.facts j.replaceable = 0 := by
    rcases foldIf_fst ctx block i₁ s₃ with hfst | ⟨-, dst, l, -, -, hfst⟩
    · have hj₁ : j = i₁ := hjfold.trans hfst
      rw [hj₁] at hreads ⊢
      exact countReplaced_mapOperands h.facts hshort hreads
    · rw [hjfold, hfst]
      rfl
  have hkeep : j.mapOperands (replace t.facts) = j :=
    Instruction.mapOperands_eq_self (replace_of_countReplaced hcount)
  rw [hkeep] at hvalues' hrem' heq'
  -- the values are noted once more
  have hphase : Leans ctx.settings shown s₃
      (values'.foldl (Numbering.bind ctx block removable')
        (Numbering.carriedOut ctx j facts' t)) := by
    rcases foldIf_fst ctx block i₁ s₃ with hfst | ⟨hfold, dst, l, hdst, hlit, hfst⟩
    · have hj₁ : j = i₁ := hjfold.trans hfst
      have hcarried : Leans ctx.settings shown (Numbering.carriedOut ctx i facts s)
          (Numbering.carriedOut ctx j facts' t) :=
        hs₀.carriedOut (by rw [hj₁, hi₁, Instruction.writes_mapOperands]) hdefine hdefine'
      rw [hj₁] at hvalues' hrem' hcarried ⊢
      obtain rfl : values = values' := Except.ok.inj (hvalues.symm.trans hvalues')
      obtain rfl : removable = removable' := Except.ok.inj (hrem.symm.trans hrem')
      have hdefine₁ : i₁.assigned.foldlM Congruence.define s.facts = .ok facts := by
        rw [hi₁, Instruction.assigned_mapOperands]
        exact hdefine
      refine hcarried.bind_signatures hdefine₁ hvalues (fun o ho => ?_)
        (fun v hv => ?_) hresults₁ hshort₃
      · rw [representative?_carriedOut hdefine]
        rw [hi₁, Instruction.results_mapOperands] at ho
        exact hnone o ho
      · rw [hj₁] at hreads
        exact hshown _ (hreads v hv)
    · have hcopy : j = .compute .now .copy dst [.lit l] := hjfold.trans hfst
      have hdst' : dst ∈ i.results := by
        rw [← Instruction.results_mapOperands (replace s.facts), foldable?_eq_some hdst]
        exact List.mem_singleton_self dst
      have hcarried : Leans ctx.settings shown (Numbering.carriedOut ctx i facts s)
          (Numbering.carriedOut ctx j facts' t) := by
        refine hs₀.carriedOut ?_ hdefine hdefine'
        rw [hcopy, ← Instruction.writes_mapOperands (replace s.facts) i,
          Instruction.writes_of_foldable? hdst]
        rfl
      rw [hcopy] at hvalues'
      obtain rfl := Except.ok.inj hvalues'
      rw [hshort₃.canonical?] at hlit
      refine hcarried.bind_copy hfold hdst hvalues ?_ hpool₃ hlit removable'
      rw [representative?_carriedOut hdefine]
      exact hnone dst hdst'
  obtain ⟨hfolded, htree, hedits⟩ := hphase.foldIf block hshort₃ hresults₁
  rw [← hjfold] at hfolded htree hedits
  rw [heq, heq']
  dsimp only
  rw [htree, ← hjfold]
  refine ⟨⟨?_, hfolded.pool, hfolded.nextBlock, hfolded.marks⟩, ?_⟩
  · exact (hfolded.facts.close (List.Subset.refl _)).widen fun n hn => (Bool.and_eq_true_iff.1 hn).1
  · rw [hedits, stats_foldl_bind, edits_carriedOut, hcount, Nat.add_zero]

/-! ## Deleted instructions -/

/-- What a visit does to the rest of the innermost scope: nothing new is written
at any time, and variables are closed. -/
theorem poisoned_visitInstruction (hf : (visitInstruction ctx block i s).fault = none) :
    (visitInstruction ctx block i s).state.facts.top.poisoned = s.facts.top.poisoned
      ∧ ∃ entries, (visitInstruction ctx block i s).state.facts.top.closed
        = s.facts.top.closed.insertAll entries := by
  obtain ⟨facts, removable, values, -, hdefine, -, hvalues, hfacts⟩ := visitInstruction_facts hf
  obtain ⟨hcarried, -⟩ := carriedOut_phases ctx i facts s
  obtain ⟨-, -, -, -, -, hclosed, hpoisoned, -⟩ :=
    Congruence.sameLevel_invalidateAll ctx.aliases (writtenBy ctx.aliases i.writes) facts
  have hnotes : Notes ctx block _ _
      (values.foldl (bind ctx block removable) (carriedOut ctx i facts s)) :=
    notes_foldl_bind (Instruction.outs_signatures hvalues) _
  have hbound : (values.foldl (bind ctx block removable)
      (carriedOut ctx i facts s)).facts.top.closed = facts.top.closed := by
    rw [(closed_foldl_bind values _).2, hcarried, hclosed]
  obtain ⟨rfl, -, -⟩ := Congruence.foldlM_define_eq_ok hdefine
  rw [hfacts, Congruence.foldl_close_eq]
  exact ⟨hnotes.poisoned.trans ((congrArg (·.top.poisoned) hcarried).trans hpoisoned), _,
    congrArg (Table.insertAll · _) hbound⟩

/-- Stable outputs of a computation are not written again. -/
theorem writtenBy_of_stable (honly : i.onlyComputes = true)
    (hstable : ∀ o ∈ i.outputs, ctx.aliases.isStable o = true) :
    writtenBy ctx.aliases i.writes = [] := by
  have hwrites : i.writes = i.outputs.map (·, []) := by
    cases i with
    | readField access dst record path => cases access <;> first | rfl | cases honly
    | readElement access dst arr ix => cases access <;> first | rfl | cases honly
    | writeField record path src => cases honly
    | writeElement arr ix src => cases honly
    | _ => rfl
  rw [hwrites]
  refine List.filterMap_eq_nil_iff.2 fun w hw => ?_
  obtain ⟨o, ho, rfl⟩ := List.mem_map.1 hw
  unfold AliasMap.written?
  rw [hstable o ho]
  rfl

/-- **A deleted instruction is visited once only**, and the second walk misses
nothing: its outputs have representatives, so they are not written, and what is
known about them is hidden. -/
theorem leans_visitDeleted (hV : Suits V ctx) (hs : InOrder V ctx is s)
    (h : Leans ctx.settings hidden s t) (hi : i.All V.text)
    (hf : (visitInstruction ctx block i s).fault = none) (honly : i.onlyComputes = true)
    (hpool : (visitInstruction ctx block i s).state.pool = s.pool)
    (hrep : ∀ o ∈ i.outputs,
      ((visitInstruction ctx block i s).state.facts.representative? o).isSome = true)
    (hhidden : ∀ o ∈ i.outputs, hidden o.name = true)
    (hvalues : s.facts.top.values.Agrees (isLive ctx.settings)
      (visitInstruction ctx block i s).state.facts.top.values)
    (hmarks : ∀ o ∈ i.outputs, s.marks.get? block o = none) :
    Leans ctx.settings hidden (visitInstruction ctx block i s).state t := by
  obtain ⟨hwf, -⟩ := wellFormed_visitInstruction hV.toServes hs.wellFormed hi hf
  obtain ⟨hlevel, -, hinvalidated⟩ := facts_visitInstruction hf
  obtain ⟨hpoisoned, closed, hclosed⟩ := poisoned_visitInstruction hf
  obtain ⟨entries, hcanonical, hentries⟩ := canonical_visitInstruction hf
  obtain ⟨-, new, hnew, hok⟩ := marks_visitInstruction hf
  have hstable : ∀ o ∈ i.outputs, ctx.aliases.isStable o = true := by
    intro o ho
    obtain ⟨rep, hrep⟩ := Option.isSome_iff_exists.1 (hrep o ho)
    exact isStable_of_canonical? hV hwf.tidy (hi.2 o ho) (Option.map_eq_some_iff.2 ⟨rep, hrep, rfl⟩)
  have houtput : ∀ e ∈ entries, e.1 ∈ i.outputs := fun e he =>
    i.results_subset (Instruction.mem_assigned.1 (hentries e he).1).1
  refine ⟨⟨⟨?_, ?_, ?_, ?_, ?_, ?_, ?_, ?_⟩, ?_⟩, h.pool.trans hpool.symm, ?_, fun k v => ?_⟩
  · exact h.facts.top.kind.trans hlevel.kind.symm
  · rw [hlevel.declared]
    exact h.facts.top.declared
  · rw [hcanonical]
    refine h.facts.top.canonical.insertAll_left fun e he => ?_
    show (!hidden e.1.name) = false
    rw [hhidden e.1 (houtput e he)]
    rfl
  · intro e he
    rw [hcanonical]
    refine Table.mem_insertAll (h.facts.top.subset he) fun e' he' hkey => ?_
    -- what is assigned had no representative
    have hnone := hs.representative?_of_assigned hf e'.1 (hentries e' he').1
    rw [← Congruence.representative?_congr hkey] at hnone
    have hget := (Congruence.representative?_eq_none_iff.1 hnone).1
    rw [Table.get?_of_mem (h.facts.top.subset he)] at hget
    cases hget
  · exact h.facts.top.values.trans hvalues.symm
  · intro v hv
    rw [hclosed, Congruence.contains_insertAll]
    exact .inr (h.facts.top.closed v hv)
  · rw [hinvalidated, writtenBy_of_stable honly hstable, List.append_nil]
    exact h.facts.top.invalidated
  · exact h.facts.top.poisoned.trans hpoisoned.symm
  · rw [hlevel.outer]
    exact h.facts.outer
  · exact h.nextBlock.trans (nextBlock_visitInstruction hf).symm
  · -- new marks are made where there was none
    by_cases hmark : ∃ e ∈ new, e.1 = (k, v.name)
    · obtain ⟨e, he, hkey⟩ := hmark
      obtain ⟨hb, ⟨o, ho, hname⟩, -⟩ := hok e he
      rw [hkey] at hb hname
      obtain rfl : k = block := hb
      have hnone := hmarks o (i.results_subset ho)
      have hget : s.marks.get? k v = none := by
        unfold Marks.get? at hnone ⊢
        rwa [← show o.name = v.name from hname]
      rcases h.marks k v with ht | ht
      · exact .inl ht
      · exact .inl (ht.trans hget)
    · have hget : (visitInstruction ctx block i s).state.marks.get? k v = s.marks.get? k v := by
        unfold Marks.get?
        rw [hnew, List.find?_append, List.find?_eq_none.2 fun e he => ?_, Option.none_or]
        simpa using fun hkey => hmark ⟨e, he, hkey⟩
      rw [hget]
      exact h.marks k v

end Visit

end Numbering

end ValueFlow
