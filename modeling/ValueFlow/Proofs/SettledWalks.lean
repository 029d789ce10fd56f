import ValueFlow.Proofs.InPlace
import ValueFlow.Proofs.LeanerVisits

/-!
# Walks that settle everything

Numbering a numbered function once more changes nothing, provided that the first
walk *settles* everything it can. `settles` asks for three things. Chains are
short at every point, so an operand is replaced by something that is not
replaced again. An instruction that may be deleted since all its outputs have
representatives makes no entry that a later walk would miss. And the cleanup
puts in no store, which would close its variable. It does not matter whether the
constants that the walk adds are in the table already (`settles_of_within`).

The walks over the function and over what is left of it are compared visit by
visit. The first walk makes no constant, and if an instruction is deleted in the
end, it was its visit that marked its outputs (`Site.Settled`).
-/

namespace ValueFlow

/-- A pool that grew within itself has not grown. -/
theorem Pool.Grows.eq_of_within {p p' : Pool} (h : p.Grows p') (hw : p'.Within p) : p' = p := by
  obtain ⟨ls, rfl⟩ := h
  induction ls generalizing p with
  | nil => rfl
  | cons l ls ih =>
    have hstep : (p.getOrCreate l).2.Within p :=
      Grows.within ⟨ls, rfl⟩ |>.trans hw
    have heq : (p.getOrCreate l).2 = p := congrArg Prod.snd (Pool.getOrCreate_of_within hstep)
    rw [List.foldl_cons, heq] at hw ⊢
    exact ih hw

namespace Instruction

theorem onlyComputes_of_isRemovable {foreign : Foreign} {i : Instruction}
    (h : i.isRemovable foreign = .ok true) : i.onlyComputes = true := by
  unfold isRemovable at h
  split at h
  · assumption
  · cases h

theorem onlyComputes_mapOperands (f : Role → Operand → Operand) (i : Instruction) :
    (i.mapOperands f).onlyComputes = i.onlyComputes := by
  cases i with
  | readField access dst record path => cases access <;> rfl
  | readElement access dst arr ix => cases access <;> rfl
  | _ => rfl

theorem bindsAlias_of_onlyComputes {i : Instruction} (h : i.onlyComputes = true) :
    i.bindsAlias = false := by
  cases i with
  | readField access dst record path =>
    cases access with
    | bind => cases h
    | _ => rfl
  | readElement access dst arr ix =>
    cases access with
    | bind => cases h
    | _ => rfl
  | _ => rfl

end Instruction

namespace Numbering

/-! ## What is asked of a walk -/

theorem agrees_of_tellsRepresentatives {settings : Settings} {i : Instruction}
    {before after : Congruence} (h : tellsRepresentatives settings i before after = true)
    (honly : i.onlyComputes = true)
    (hrep : ∀ o ∈ i.outputs, (after.representative? o).isSome = true) :
    before.top.values.Agrees (isLive settings) after.top.values := by
  unfold tellsRepresentatives at h
  have hall : (i.outputs.all fun o => (after.representative? o).isSome) = true :=
    List.all_eq_true.2 hrep
  rw [honly, hall, Bool.and_true, Bool.not_true, Bool.false_or, decide_eq_true_eq] at h
  exact h

/-- **Numbering a function settles everything**: the walk does, and the cleanup
puts in no store. -/
def settles (settings : Settings) (foreign : Foreign) (globals : Constants) (f : Function) : Bool :=
  match contextOf settings foreign f, f.inputs.foldlM enterInput .new with
  | .ok ctx, .ok facts =>
    let v := visitBlock ctx f.block (opened globals f facts)
    settlesBlock ctx f.block (opened globals f facts)
      && (removeRedundant ctx { f with block := v.tree } v.state).2.stats.instructionsFolded
        = v.state.stats.instructionsFolded
  | _, _ => false

theorem short_of_settlesBody {ctx : Context} {block : Nat} {b : Body} {s : State}
    (h : settlesBody ctx block b s = true) : s.facts.Short := by
  refine Congruence.short_of_isShort ?_
  cases b with
  | done => exact h
  | instr i rest =>
    rw [settlesBody, Bool.and_eq_true, Bool.and_eq_true] at h
    exact h.1.1
  | cont c rest =>
    rw [settlesBody, Bool.and_eq_true, Bool.and_eq_true] at h
    exact h.1.1

/-- **With all constants in the table** that a run adds, it settles the same. -/
theorem settles_of_within {loose : String → Prop} {settings : Settings} {foreign : Foreign}
    {globals created t : Constants} {f : Function} {stats : Stats}
    (htable : globals.pool.Grounded loose)
    (hf : ∀ v ∈ f.occurrences, globals.pool.Grounds loose v)
    (h : (run settings foreign globals f).result = .ok (stats, created))
    (hloose : ∀ n, loose n → t.get? n = none) (hwithin : (globals.merge created).Within t) :
    settles settings foreign t f = settles settings foreign globals f := by
  obtain ⟨ctx, facts, hctx, hin, -, hstep, hget⟩ := inStep_run htable hf h
  obtain ⟨hsame, hset⟩ := hstep.same t.pool (fun n hn => (t.get?_pool n).trans (hloose n hn))
    fun name c hc => hwithin.pool name c (hget name ▸ hc)
  have hsame : visitBlock ctx f.block (opened t f facts) = _ := hsame
  have hset : settlesBlock ctx f.block (opened t f facts) = _ := hset
  unfold settles
  rw [hctx, hin]
  simp only [hset, hsame, Visit.withPool, removeRedundant_withPool]

/-! ## What is marked has a representative -/

section Marks

variable {ctx : Context} {block : Nat} {removable : Bool} {i : Instruction} {s : State}
  {values : List (Signature × Binding)}

/-- What is marked by these steps has a representative behind them. -/
def MarksRepresented (s s' : State) : Prop :=
  (∀ v, (s.facts.representative? v).isSome = true → (s'.facts.representative? v).isSome = true)
    ∧ ∃ new, s'.marks.entries = new ++ s.marks.entries
      ∧ ∀ e ∈ new, ∃ v : Var, v.name = e.1.2 ∧ (s'.facts.representative? v).isSome = true

theorem MarksRepresented.trans {s' s'' : State} (h : MarksRepresented s s')
    (h' : MarksRepresented s' s'') : MarksRepresented s s'' := by
  obtain ⟨hkept, new, hnew, hok⟩ := h
  obtain ⟨hkept', new', hnew', hok'⟩ := h'
  refine ⟨fun v hv => hkept' v (hkept v hv), new' ++ new,
    by rw [hnew', hnew, List.append_assoc], ?_⟩
  refine List.forall_mem_append.2 ⟨hok', fun e he => ?_⟩
  obtain ⟨v, hv, hrep⟩ := hok e he
  exact ⟨v, hv, hkept' v hrep⟩

theorem MarksRepresented.of_same {s' : State}
    (hf : s'.facts.representative? = s.facts.representative?) (hm : s'.marks = s.marks) :
    MarksRepresented s s' :=
  ⟨fun v hv => by rwa [hf], [], by rw [hm, List.nil_append], List.forall_mem_nil _⟩

theorem representative?_setCanonical (c : Congruence) (out : Var) (rep : Operand) :
    (c.setCanonical out rep).representative? out = some rep := by
  refine Congruence.representative?_of_get? ?_
  show (c.top.canonical.insert out rep).get? out = some rep
  rw [Table.get?_insert, if_pos rfl]

theorem marksRepresented_bind (removable : Bool) (s : State) (value : Signature × Binding) :
    MarksRepresented s (bind ctx block removable s value) := by
  obtain ⟨sig, binding⟩ := value
  cases binding with
  | output out =>
    show MarksRepresented s (bindOutput ctx block removable (s.facts.canonicalize sig) out s)
    obtain ⟨p, hp, -⟩ := resolve_snd ctx (s.facts.canonicalize sig) s
    rcases bindOutput_cases ctx block removable (s.facts.canonicalize sig) out s with
      heq | ⟨rep, -, -, hfacts, -, -, hmarks⟩ | ⟨-, -, heq⟩
    · rw [heq, hp]
      exact .of_same rfl rfl
    · have hout := representative?_setCanonical s.facts out rep
      refine ⟨fun v hv => ?_, ?_⟩
      · rw [hfacts]
        by_cases hname : out.name = v.name
        · rw [← Congruence.representative?_congr hname, hout]
          rfl
        · rwa [Congruence.representative?_setCanonical_of_ne hname]
      · rcases hmarks with hmarks | ⟨-, -, r, -, hmarks⟩
        · exact ⟨[], by rw [hmarks, List.nil_append], List.forall_mem_nil _⟩
        · refine ⟨[_], by rw [hmarks]; rfl, List.forall_mem_singleton.2 ⟨out, rfl, ?_⟩⟩
          rw [hfacts, hout]
          rfl
    · rw [heq, hp]
      exact .of_same (Congruence.representative?_record _ _ _) rfl
  | known src =>
    show MarksRepresented s (bindKnown ctx (s.facts.canonicalize sig) src s)
    refine .of_same (representative?_bindKnown _ src s) ?_
    rcases bindKnown_cases ctx (s.facts.canonicalize sig) src s with heq | ⟨-, -, heq⟩
    · rw [heq]
    · rw [heq]

theorem marksRepresented_foldl_bind (removable : Bool) (values : List (Signature × Binding))
    (s : State) : MarksRepresented s (values.foldl (bind ctx block removable) s) := by
  induction values generalizing s with
  | nil => exact .of_same rfl rfl
  | cons value values ih => exact (marksRepresented_bind removable s value).trans (ih _)

theorem marksRepresented_foldIf (ctx : Context) (block : Nat) (i : Instruction) (s : State) :
    MarksRepresented s (foldIf ctx block i s).2 := by
  obtain ⟨hfacts, -, -, hcases⟩ := foldIf_cases ctx block i s
  have hsame : ((foldIf ctx block i s).2.facts).representative?
    = s.facts.representative? := by rw [hfacts]
  rcases hcases with ⟨-, hmarks⟩ | ⟨dst, l, -, hlit, -, hmarks | hmarks⟩
  · exact .of_same hsame hmarks
  · exact .of_same hsame hmarks
  · obtain ⟨rep, hrep, -⟩ := Option.map_eq_some_iff.1 hlit
    refine ⟨fun v hv => by rwa [hsame], [_], by rw [hmarks]; rfl,
      List.forall_mem_singleton.2 ⟨dst, rfl, ?_⟩⟩
    rw [hsame, hrep]
    rfl

/-- **What the visit of an instruction marks has a representative behind it.** -/
theorem marksRepresented_visitInstruction (hf : (visitInstruction ctx block i s).fault = none) :
    MarksRepresented s (visitInstruction ctx block i s).state := by
  obtain ⟨facts, removable, values, -, hdefine, -, -, heq⟩ := visitInstruction_cases hf
  obtain ⟨-, -, hmarks, -⟩ := carriedOut_phases ctx i facts s
  have hcarried : MarksRepresented s (carriedOut ctx i facts s) :=
    .of_same (representative?_carriedOut hdefine) hmarks
  have hbound : MarksRepresented s
      (values.foldl (bind ctx block removable) (carriedOut ctx i facts s)) :=
    hcarried.trans (marksRepresented_foldl_bind removable values _)
  refine (hbound.trans
    (marksRepresented_foldIf ctx block (i.mapOperands (replace s.facts)) _)).trans ?_
  rw [heq]
  exact .of_same (representative?_foldl_close _ _) rfl

end Marks

/-! ## Visits of the first walk -/

/-- **A visit in a walk that makes no constants**; `marks` are the marks in the
end. -/
def Site.Settled (ctx : Context) (marks : Marks) (i : Site) : Prop :=
  ∃ p m, i.Exact ctx (p, m) (p, marks)

section Visits

variable {V : Vocabulary} {ctx : Context} {is : List (Nat × Instruction)}
  {marks : Marks} {block : Nat}
  {i : Instruction} {s : State} {rest : Body}

theorem Site.Settled.pool_eq (h : Site.Settled ctx marks ⟨block, i, s, rest⟩)
    (hf : (visitInstruction ctx block i s).fault = none) :
    (visitInstruction ctx block i s).state.pool = s.pool := by
  obtain ⟨p, m, hexact⟩ := h
  exact (marks_visitInstruction hf).1.eq_of_within (hexact.grows.within.trans hexact.grown.within)

/-- **What is redundant in the end only computes outputs that are stable**;
`marks` are the marks in the end. -/
theorem InOrder.of_redundant (hV : Suits V ctx) (hs : InOrder V ctx is s)
    (hstable : ∀ e ∈ marks.entries, ∃ v, V.text v ∧ v.name = e.1.2 ∧ ctx.aliases.isStable v = true)
    (hi : i.All V.text) (hf : (visitInstruction ctx block i s).fault = none)
    (hred : Cleanup.isRedundant ⟨ctx.foreign, marks⟩ block (visitInstruction ctx block i s).tree
      = true) :
    i.onlyComputes = true ∧ (visitInstruction ctx block i s).tree.outputs = i.outputs
      ∧ ∀ o ∈ i.outputs, ctx.aliases.isStable o = true ∧ ∃ lit, marks.get? block o = some lit := by
  obtain ⟨hrem, hall⟩ := Cleanup.isRedundant_eq_true hred
  obtain ⟨honly, houtputs⟩ : i.onlyComputes = true
      ∧ (visitInstruction ctx block i s).tree.outputs = i.outputs := by
    rcases hs.visitInstruction_tree hV hi hf with htree | ⟨hpure, dst, l, hout, htree⟩
    · rw [htree, Instruction.outputs_mapOperands]
      rw [htree] at hrem
      exact ⟨(Instruction.onlyComputes_mapOperands _ i).symm.trans
        (Instruction.onlyComputes_of_isRemovable hrem), rfl⟩
    · rw [htree, hout]
      exact ⟨(Bool.and_eq_true_iff.1 hpure).1, rfl⟩
  refine ⟨honly, houtputs, fun o ho => ?_⟩
  rw [houtputs] at hall
  obtain ⟨lit, hget⟩ := Option.isSome_iff_exists.1 (hall o ho)
  obtain ⟨v, htext, hname, hv⟩ := hstable _ (mem_of_get? hget)
  obtain rfl : v = o := hV.consistent v o htext (hi.2 o ho) hname
  exact ⟨hv, lit, hget⟩

/-- **What is redundant in the end was marked by its visit.** Its outputs have
representatives right behind it, and they were not marked before. -/
theorem Site.Settled.of_redundant (hV : Suits V ctx)
    (h : Site.Settled ctx marks ⟨block, i, s, rest⟩) (hs : InOrder V ctx is s)
    (hstable : ∀ e ∈ marks.entries, ∃ v, V.text v ∧ v.name = e.1.2 ∧ ctx.aliases.isStable v = true)
    (hi : i.All V.text) (hf : (visitInstruction ctx block i s).fault = none)
    (hred : Cleanup.isRedundant ⟨ctx.foreign, marks⟩ block (visitInstruction ctx block i s).tree
      = true) :
    i.onlyComputes = true ∧ (visitInstruction ctx block i s).tree.outputs = i.outputs
      ∧ ∀ o ∈ i.outputs, s.marks.get? block o = none
        ∧ ((visitInstruction ctx block i s).state.facts.representative? o).isSome = true := by
  obtain ⟨honly, houtputs, hout⟩ := hs.of_redundant hV hstable hi hf hred
  obtain ⟨p, m, hexact⟩ := h
  refine ⟨honly, houtputs, fun v ho => ?_⟩
  obtain ⟨-, lit, hget⟩ := hout v ho
  obtain ⟨hmem, hunmarked⟩ :=
    hexact.made hV hstable hi (Instruction.bindsAlias_of_onlyComputes honly) ho (mem_of_get? hget)
  obtain ⟨-, new, hnew, hrep⟩ := marksRepresented_visitInstruction hf
  have hmem : _ ∈ (visitInstruction ctx block i s).state.marks.entries := hmem
  rw [hnew] at hmem
  obtain ⟨w, hw, hsome⟩ := hrep _ ((List.mem_append.1 hmem).resolve_right (hunmarked lit))
  refine ⟨?_, by rwa [← Congruence.representative?_congr hw]⟩
  rw [Option.eq_none_iff_forall_not_mem]
  exact fun lit hlit => hunmarked lit (mem_of_get? hlit)

end Visits

end Numbering

end ValueFlow
