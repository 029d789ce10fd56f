import ValueFlow.Proofs.ResolvedChains
import ValueFlow.Proofs.SecondRuns
import Mathlib.Data.List.Infix

/-!
# Copies of what is assigned before

A copy, a store or a load *hands on* a variable: from then on the variable may
stand for what was copied (`Instruction.handsOn`). A function *copies forward*
if whatever it hands on is assigned before, or is not assigned in the same task
at all (`Function.copiesForward`); a task is the function or a deferred block. A
block may wait for a future that is assigned behind it, read it and copy it,
since nothing that is known inside is known behind.

In such a function the facts are settled all along the walk
(`short_visitBlock`), so representatives are fully resolved
(`representatives_resolved`). Otherwise a future may be copied first and get a
representative afterwards. Each such copy makes the chain longer, until it is
longer than the scopes allow for (`unresolved_of_copiesBackwards`).
-/

namespace ValueFlow

/-! ## Variables that are handed on -/

/-- **The variable that a value hands on**, which may stand for something else
from then on: the input of a copy, or the operand that a value is known to
equal. -/
def handedOn? : Signature × Binding → Option Var
  | (_, .known a) => a.var?
  | (⟨.builtin _ .copy, [a], _⟩, .output _) => a.var?
  | _ => none

namespace Instruction

variable {timing : Timing} {inputs : List Operand}

/-- **The variables that an instruction hands on**: the source of a copy, a
store or a load. -/
def handsOn (foreign : Foreign) (i : Instruction) : List Var :=
  match i.signatures foreign with
  | .ok values => values.filterMap handedOn?
  | .error _ => []

variable {foreign : Foreign} {g : Role → Operand → Operand} {w : Var}

theorem handedOn?_ofBuiltin {op : Builtin} {out : Var} :
    handedOn? (.ofBuiltin timing op inputs, .output out) = some w
      ↔ op = .copy ∧ inputs = [.var w] := by
  cases op with
  | copy =>
    show handedOn? (⟨.builtin timing .copy, inputs, false⟩, .output out) = some w ↔ _
    match inputs with
    | [] => simp [handedOn?]
    | [.var v] => simp [handedOn?, Operand.var?]
    | [.lit l] => simp [handedOn?, Operand.var?]
    | _ :: _ :: _ => simp [handedOn?]
  | _ =>
    simp [handedOn?, Signature.ofBuiltin, Signature.make,
      Signature.normalize, Builtin.isCommutative]

theorem handedOn?_callSignatures {f : ForeignFunction} {function : String}
    {k : Nat} {outs : List Var} :
    (callSignatures timing f function inputs k outs).filterMap handedOn? = [] := by
  induction outs generalizing k with
  | nil => rfl
  | cons out outs ih =>
    rw [callSignatures, List.filterMap_cons_none, ih]
    cases f.commutative <;> simp [handedOn?, Signature.make, Signature.normalize]

/-- A call hands on its only input if its function is a copy. -/
theorem mem_handsOn_call {function : String} {outs : List Var} :
    w ∈ (call timing function outs inputs).handsOn foreign
      ↔ ∃ f out, foreign.lookup function = .ok f
      ∧ f.deterministic = true ∧ f.builtin = some .copy ∧ outs = [out] ∧ inputs = [.var w] := by
  unfold handsOn
  cases hf : foreign.lookup function with
  | error e => simp [signatures, hf, bind, Except.bind]
  | ok f =>
    cases hd : f.deterministic with
    | false => simp [signatures, hf, hd, bind, Except.bind, pure, Except.pure]
    | true =>
      cases hb : f.builtin with
      | none =>
        simp [signatures, hf, hd, hb, bind, Except.bind,
          pure, Except.pure, handedOn?_callSignatures]
      | some op =>
        rcases outs with _ | ⟨out, _ | ⟨out', rest⟩⟩
        · simp [signatures, hf, hd, hb, bind, Except.bind,
            pure, Except.pure, handedOn?_callSignatures]
        · simp [signatures, hf, hd, hb, bind, Except.bind, pure, Except.pure, handedOn?_ofBuiltin]
        · simp [signatures, hf, hd, hb, bind, Except.bind,
            pure, Except.pure, handedOn?_callSignatures]

/-- **What an instruction hands on behind a replacement of its operands** was
put in place of what it handed on before. -/
theorem mem_handsOn_mapOperands (hg : ∀ role l, g role (.lit l) = .lit l) {i : Instruction}
    (h : w ∈ (i.mapOperands g).handsOn foreign) :
    w ∈ i.handsOn foreign ∨ ∃ v ∈ i.handsOn foreign, ∃ role, g role (.var v) = .var w := by
  -- a literal stays a literal, so what is handed on stands in the place of a variable
  have hvar {role : Role} {a : Operand} (ha : (g role a).var? = some w) :
      ∃ v, a = .var v ∧ g role (.var v) = .var w := by
    cases a with
    | lit l => cases (congrArg Operand.var? (hg role l)).symm.trans ha
    | var v =>
      refine ⟨v, rfl, ?_⟩
      cases hgv : g role (.var v) with
      | lit l => cases (congrArg Operand.var? hgv).symm.trans ha
      | var x => rw [Option.some.inj ((congrArg Operand.var? hgv).symm.trans ha)]
  have hsingle {role : Role} {inputs : List Operand} (hinputs : inputs.map (g role) = [.var w]) :
      ∃ v, inputs = [.var v] ∧ g role (.var v) = .var w := by
    obtain ⟨a, rfl, ha⟩ := List.map_eq_singleton_iff.1 hinputs
    obtain ⟨v, rfl, hv⟩ := hvar (congrArg Operand.var? ha)
    exact ⟨v, rfl, hv⟩
  have hload {role : Role} {src : Var} (hsrc : varOr src (g role (.var src)) = w) :
      w = src ∨ g role (.var src) = .var w := by
    cases hgv : g role (.var src) with
    | lit l => exact .inl (hsrc.symm.trans (by rw [hgv, varOr]))
    | var x => exact .inr (congrArg Operand.var (by rw [← hsrc, hgv, varOr]))
  cases i with
  | storeScalar dst src =>
    have hw : (g .value src).var? = some w := by
      simpa [handsOn, mapOperands, signatures, handedOn?, Signature.plain] using h
    obtain ⟨v, rfl, hv⟩ := hvar hw
    exact .inr ⟨v, by simp [handsOn, signatures, handedOn?, Operand.var?], _, hv⟩
  | loadScalar dst src =>
    have hsrc : varOr src (g .retrieved (.var src)) = w := by
      simpa [handsOn, mapOperands, signatures, handedOn?, Signature.plain, Operand.var?, eq_comm]
        using h
    have hmem : src ∈ (loadScalar dst src).handsOn foreign := by
      simp [handsOn, signatures, handedOn?, Operand.var?]
    rcases hload hsrc with rfl | hv
    · exact .inl hmem
    · exact .inr ⟨src, hmem, _, hv⟩
  | storeRef dst src => exact .inl h
  | loadRef dst src =>
    have hsrc : varOr src (g .retrieved (.var src)) = w := by
      simpa [handsOn, mapOperands, signatures, handedOn?, Signature.plain, Operand.var?, eq_comm]
        using h
    have hmem : src ∈ (loadRef dst src).handsOn foreign := by
      simp [handsOn, signatures, handedOn?, Operand.var?]
    rcases hload hsrc with rfl | hv
    · exact .inl hmem
    · exact .inr ⟨src, hmem, _, hv⟩
  | compute timing op dst inputs =>
    have hcopy : handedOn? (.ofBuiltin timing op (inputs.map (g timing.role)), .output dst)
        = some w := by
      simpa [handsOn, mapOperands, signatures] using h
    obtain ⟨rfl, hinputs⟩ := handedOn?_ofBuiltin.1 hcopy
    obtain ⟨v, rfl, hv⟩ := hsingle hinputs
    exact .inr ⟨v, by simp [handsOn, signatures, handedOn?_ofBuiltin], _, hv⟩
  | call timing function outs inputs =>
    obtain ⟨f, out, hf, hd, hb, rfl, hinputs⟩ := mem_handsOn_call.1 h
    obtain ⟨v, rfl, hv⟩ := hsingle hinputs
    exact .inr ⟨v, mem_handsOn_call.2 ⟨f, out, hf, hd, hb, rfl, rfl⟩, _, hv⟩
  | readField access dst record path => exact .inl h
  | writeField record path src =>
    have hw : (g .value src).var? = some w := by
      simpa [handsOn, mapOperands, signatures, handedOn?, Signature.plain] using h
    obtain ⟨v, rfl, hv⟩ := hvar hw
    exact .inr ⟨v, by simp [handsOn, signatures, handedOn?, Operand.var?], _, hv⟩
  | readElement access dst arr ix =>
    cases access <;> simp [handsOn, mapOperands, signatures, handedOn?, Signature.plain] at h
  | writeElement arr ix src =>
    have hw : (g .value src).var? = some w := by
      simpa [handsOn, mapOperands, signatures, handedOn?, Signature.plain] using h
    obtain ⟨v, rfl, hv⟩ := hvar hw
    exact .inr ⟨v, by simp [handsOn, signatures, handedOn?, Operand.var?], _, hv⟩

end Instruction

namespace Numbering

/-! ## The values of an instruction -/

section Values

variable {V : Vocabulary} {ctx : Context} {block : Nat}
  {removable : Bool} {s : State} {assigned later : List String}
  {sig : Signature}

/-- **A variable that follows from a signature alone** is a constant or the
input of a copy. -/
theorem resolve_eq_var (hV : Serves V ctx) (hpool : KnownPool V s.pool) {r : Var}
    (h : (resolve ctx sig s).1 = some (.var r)) :
    V.shared r ∨ (∃ timing, sig.op = .builtin timing .copy) ∧ sig.inputs = [.var r] := by
  have hconstant {l : Literal} (hr : (constantFor l s).1 = some (.var r)) : V.shared r := by
    obtain ⟨v, hv, heq⟩ := Option.map_eq_some_iff.1 hr
    obtain ⟨name, c, hc, rfl⟩ := Pool.exists_of_getOrCreate_fst hv
    obtain rfl := Operand.var.inj heq
    exact (hpool.of_grows hV (.getOrCreate _ _) name c hc).1
  unfold resolve at h
  split at h
  · split at h
    · exact .inl (hconstant h)
    · cases h
  · obtain ⟨-, c, hc, hvalue⟩ := Pool.valueOf?_eq_some h
    have hshared := (hpool _ c hc).2
    rw [hvalue] at hshared
    exact .inl hshared
  · rename_i timing v hop hinputs
    obtain rfl := Operand.var.inj (Option.some.inj h)
    exact .inr ⟨⟨timing, hop⟩, hinputs⟩
  · split at h
    · obtain ⟨l, -, heq⟩ := Option.map_eq_some_iff.1 h
      cases heq
    · cases h
  · split at h
    · split at h
      · exact .inl (hconstant h)
      · cases h
    · cases h
  · cases h

/-- The input of a canonical copy is the canonical operand of the input of the
copy. -/
theorem inputs_of_canonicalize {c : Congruence} {timing : Timing} {a : Operand}
    (hop : (c.canonicalize sig).op = .builtin timing .copy)
    (hinputs : (c.canonicalize sig).inputs = [a]) :
    sig.op = .builtin timing .copy ∧ ∃ b, sig.inputs = [b] ∧ c.canonicalOperand b = a := by
  obtain ⟨op, inputs, commutative⟩ := sig
  obtain rfl : op = .builtin timing .copy := by
    rw [← hop, Congruence.canonicalize, Signature.mapInputs, Signature.op_normalize]
  refine ⟨rfl, ?_⟩
  have hmap : (c.canonicalize ⟨.builtin timing .copy, inputs, commutative⟩).inputs.Perm
      (inputs.map c.canonicalOperand) :=
    Signature.inputs_normalize_perm
      ⟨.builtin timing .copy, inputs.map c.canonicalOperand, commutative⟩
  rw [hinputs, List.singleton_perm] at hmap
  obtain ⟨b, hb, hab⟩ := List.map_eq_singleton_iff.1 hmap.symm
  exact ⟨b, hb, hab⟩

/-- **An operand that is found for a value is final**, if what the value hands
on is assigned no more. -/
theorem final_of_finds (hV : Serves V ctx) (hpool : KnownPool V s.pool)
    (hs : s.facts.Settled V assigned later) {out : Var}
    (hsource : ∀ w, handedOn? (sig, .output out) = some w → V.Past assigned later w.name)
    {rep : Operand} (h : Finds ctx (s.facts.canonicalize sig) s rep) :
    rep.All (s.facts.Final V assigned later) := by
  cases rep with
  | lit l => trivial
  | var r =>
    rcases h with hresolve | ⟨-, hlookup⟩
    · rcases resolve_eq_var hV hpool hresolve with hshared | ⟨⟨timing, hop⟩, hinputs⟩
      · exact hs.final_of_constant (V.constant_of_shared r hshared)
      · obtain ⟨hop, b, hb, hcanonical⟩ := inputs_of_canonicalize hop hinputs
        show (Operand.var r).All _
        rw [← hcanonical]
        refine hs.final_canonicalOperand ?_
        obtain ⟨op, inputs, commutative⟩ := sig
        obtain rfl : op = .builtin timing .copy := hop
        obtain rfl : inputs = [b] := hb
        cases b with
        | var w => exact hsource w rfl
        | lit l => trivial
    · exact hs.stand.of_lookup hlookup

/-- **The names that values give to be settled**: those of their stable outputs. -/
def outNames (aliases : AliasMap) (values : List (Signature × Binding)) : List String :=
  ((values.flatMap (·.2.outs)).filter aliases.isStable).map (·.name)

/-- **One value is taken note of.** Its output is assigned now, and what it
hands on is assigned no more. -/
theorem settled_bind (hV : Serves V ctx) (hpool : KnownPool V s.pool)
    (hs : s.facts.Settled V assigned later) {value : Signature × Binding}
    (houts : ∀ n ∈ outNames ctx.aliases [value], ¬ V.Past assigned later n)
    (hsource : ∀ w, handedOn? value = some w → V.Past assigned later w.name) :
    (bind ctx block removable s value).facts.Settled V
      (outNames ctx.aliases [value] ++ assigned) later := by
  have hkept : s.facts.Settled V (outNames ctx.aliases [value] ++ assigned) later :=
    hs.mono (List.subset_append_right _ _) (List.Subset.refl _)
  obtain ⟨sig, binding⟩ := value
  cases binding with
  | output out =>
    have hnames (hstable : ctx.aliases.isStable out = true) :
        outNames ctx.aliases [(sig, .output out)] = [out.name] := by
      simp [outNames, Binding.outs, hstable]
    show (bindOutput ctx block removable (s.facts.canonicalize sig) out s).facts.Settled V _ later
    rcases bindOutput_cases ctx block removable (s.facts.canonicalize sig) out s with
      heq | ⟨rep, hfinds, hok, hfacts, -⟩ | ⟨hstable, -, heq⟩
    · rw [heq, facts_resolve]
      exact hkept
    · have hstable := (accepts_eq_true hok).1
      rw [hnames hstable] at houts ⊢
      rw [hfacts]
      exact hs.setCanonical (houts out.name List.mem_cons_self)
        (final_of_finds hV hpool hs hsource hfinds)
    · rw [hnames hstable] at houts ⊢
      rw [heq]
      exact hs.record_output ctx.aliases _ (houts out.name List.mem_cons_self)
  | known src =>
    show (bindKnown ctx (s.facts.canonicalize sig) src s).facts.Settled V _ later
    rcases bindKnown_cases ctx (s.facts.canonicalize sig) src s with heq | ⟨-, -, heq⟩
    · rw [heq]
      exact hkept
    · rw [heq]
      refine hs.record ctx.aliases _ (hs.final_canonicalOperand ?_)
      cases src with
      | var w => exact hsource w rfl
      | lit l => trivial

/-- What every one of some values gives, and each one alone. -/
theorem outNames_cons (aliases : AliasMap) (value : Signature × Binding)
    (values : List (Signature × Binding)) :
    outNames aliases (value :: values) = outNames aliases [value] ++ outNames aliases values := by
  simp [outNames]

/-- **All values are taken note of**, each one with an output of its own. -/
theorem settled_foldl_bind (hV : Serves V ctx) {values : List (Signature × Binding)}
    (hpool : KnownPool V s.pool) (hs : s.facts.Settled V assigned later)
    (hnodup : (outNames ctx.aliases values).Nodup)
    (houts : ∀ n ∈ outNames ctx.aliases values, ¬ V.Past assigned later n)
    (hsources : ∀ value ∈ values, ∀ w, handedOn? value = some w → V.Past assigned later w.name) :
    (values.foldl (bind ctx block removable) s).facts.Settled
      V (outNames ctx.aliases values ++ assigned) later := by
  induction values generalizing s assigned with
  | nil => exact hs
  | cons value values ih =>
    rw [outNames_cons] at hnodup houts ⊢
    obtain ⟨-, hrest, hapart⟩ := List.nodup_append.1 hnodup
    obtain ⟨hsource, hsources⟩ := List.forall_mem_cons.1 hsources
    have hfirst : (bind ctx block removable s value).facts.Settled
        V (outNames ctx.aliases [value] ++ assigned) later :=
      settled_bind hV hpool hs (fun n hn => houts n (List.mem_append_left _ hn)) hsource
    have hpool' : KnownPool V (bind ctx block removable s value).pool :=
      hpool.of_grows hV (notes_bind (List.Subset.refl _) s).pool
    refine (ih hpool' hfirst hrest (fun n hn hpast => ?_) fun value hvalue w hw => ?_).mono
      ?_ (List.Subset.refl _)
    · -- the first value has another output
      rcases hpast with hconst | hmem | hlater
      · exact houts n (List.mem_append_right _ hn) (.inl hconst)
      · rcases List.mem_append.1 hmem with hmem | hmem
        · exact hapart n hmem n hn rfl
        · exact houts n (List.mem_append_right _ hn) (.inr (.inl hmem))
      · exact houts n (List.mem_append_right _ hn) (.inr (.inr hlater))
    · exact (hsources value hvalue w hw).mono (List.subset_append_right _ _) (List.Subset.refl _)
    · intro n hn
      simp only [List.mem_append] at hn ⊢
      rcases hn with hn | hn | hn
      · exact .inl (.inr hn)
      · exact .inl (.inl hn)
      · exact .inr hn

end Values

/-! ## The visit of an instruction -/

/-- **The facts while the values of an instruction are taken note of**, one
after the other. -/
def valueFacts (ctx : Context) (block : Nat) (i : Instruction) (s : State) : List Congruence :=
  let read := i.mapOperands (replace s.facts)
  match i.assigned.foldlM Congruence.define s.facts, read.isRemovable ctx.foreign,
      read.signatures ctx.foreign with
  | .ok facts, .ok removable, .ok values =>
    values.inits.map fun noted =>
      (noted.foldl (bind ctx block removable) (carriedOut ctx i facts s)).facts
  | _, _, _ => []

section Visit

variable {V : Vocabulary} {ctx : Context} {block : Nat}
  {i : Instruction} {s : State} {later : List String}
  {values : List (Signature × Binding)}

/-- **What the values of an instruction hand on** is assigned no more. -/
theorem past_of_handedOn? (hs : s.facts.Settled V s.facts.definedNames later)
    (hhands : ∀ w ∈ i.handsOn ctx.foreign, w.name ∈ s.facts.definedNames ∨ w.name ∉ later)
    (hvalues : (i.mapOperands (replace s.facts)).signatures ctx.foreign = .ok values) :
    ∀ value ∈ values, ∀ w, handedOn? value = some w → V.Past s.facts.definedNames later w.name := by
  intro value hvalue w hw
  have hmem : w ∈ (i.mapOperands (replace s.facts)).handsOn ctx.foreign := by
    unfold Instruction.handsOn
    rw [hvalues]
    exact List.mem_filterMap.2 ⟨value, hvalue, hw⟩
  rcases Instruction.mem_handsOn_mapOperands (fun _ _ => rfl) hmem
    with hmem | ⟨v, hv, role, hreplace⟩
  · exact .inr (hhands w hmem)
  · rcases replace_cases s.facts role (.var v) with hsame | ⟨x, rep, hx, hrep, hsame⟩
    · obtain rfl := Operand.var.inj (hsame.symm.trans hreplace)
      exact .inr (hhands v hv)
    · -- a representative is final
      obtain rfl := Operand.var.inj hx
      obtain rfl := hsame.symm.trans hreplace
      rw [hs.short.canonical?] at hrep
      exact (hs.stand.of_representative? hrep).2

/-- The outputs that get values are assigned by the instruction, each once. -/
theorem outNames_sublist (facts : Congruence)
    (hvalues : (i.mapOperands (replace facts)).signatures ctx.foreign = .ok values) :
    (outNames ctx.aliases values).Sublist (i.assigned.map (·.name)) := by
  refine List.Sublist.map _ (((Instruction.sublist_signatures hvalues).filter _).trans ?_)
  rw [Instruction.results_mapOperands]
  unfold Instruction.results Instruction.assigned
  split
  · exact List.Sublist.refl _
  · refine List.monotone_filter_right _ fun v hv => ?_
    simpa using (Bool.and_eq_true_iff.1 hv).1

/-- **The visit of an instruction keeps the facts settled**, at every step, if
what it hands on is assigned before. -/
theorem settled_visitInstruction (hV : Serves V ctx) (hpool : KnownPool V s.pool)
    (hs : s.facts.Settled V s.facts.definedNames later)
    (hassigned : ∀ v ∈ i.assigned, ¬ V.constant v.name ∧ v.name ∈ later)
    (hhands : ∀ w ∈ i.handsOn ctx.foreign, w.name ∈ s.facts.definedNames ∨ w.name ∉ later)
    (hf : (visitInstruction ctx block i s).fault = none) :
    (visitInstruction ctx block i s).state.facts.Settled V
        (visitInstruction ctx block i s).state.facts.definedNames later
      ∧ ∀ c ∈ valueFacts ctx block i s, c.Short := by
  have hpoint := (assigns_visitInstruction hf).point
  obtain ⟨facts, removable, values, -, hdefine, hremovable, hvalues, heq⟩ :=
    visitInstruction_cases hf
  obtain ⟨hlevel, hnew, hnodup⟩ := Congruence.foldlM_define_eq_ok hdefine
  obtain ⟨hfacts, hpool', -⟩ := carriedOut_phases ctx i facts s
  have hcarried : (carriedOut ctx i facts s).facts.Settled V s.facts.definedNames later := by
    refine hs.of_stand (representative?_carriedOut hdefine)
      (fun Q h => ?_) (List.Subset.refl _) (List.Subset.refl _)
    rw [hfacts, hlevel]
    have hdefined : Congruence.Stand Q
        { s.facts with top.defined := (i.assigned.map (·.name)).reverse ++ s.facts.top.defined } :=
      h.of_level rfl rfl rfl
    exact hdefined.invalidateAll _ _
  have hsublist := outNames_sublist s.facts hvalues
  have houts : ∀ n ∈ outNames ctx.aliases values, ¬ V.Past s.facts.definedNames later n := by
    intro n hn hpast
    obtain ⟨v, hv, rfl⟩ := List.mem_map.1 (hsublist.subset hn)
    rcases hpast with hconst | hmem | hlater
    · exact (hassigned v hv).1 hconst
    · exact hnew v hv hmem
    · exact hlater (hassigned v hv).2
  have hsources := past_of_handedOn? hs hhands hvalues
  -- the same holds of the first few values
  have hnoted (noted : List (Signature × Binding)) (hnoted : noted <+: values) :
      (noted.foldl (bind ctx block removable) (carriedOut ctx i facts s)).facts.Settled V
        (outNames ctx.aliases noted ++ s.facts.definedNames) later := by
    have hfew : (outNames ctx.aliases noted).Sublist (outNames ctx.aliases values) := by
      obtain ⟨rest, rfl⟩ := hnoted
      simp [outNames]
    exact settled_foldl_bind hV (hpool'.symm ▸ hpool) hcarried (hfew.nodup (hsublist.nodup hnodup))
      (fun n hn => houts n (hfew.subset hn))
      fun value hvalue => hsources value (hnoted.subset hvalue)
  constructor
  · have hnames : (visitInstruction ctx block i s).state.facts.definedNames
        = i.assigns ++ s.facts.definedNames :=
      congrArg Point.assigned hpoint
    rw [hnames, heq]
    obtain ⟨hfold, -⟩ := foldIf_cases ctx block (i.mapOperands (replace s.facts))
      (values.foldl (bind ctx block removable) (carriedOut ctx i facts s))
    have hsub : outNames ctx.aliases values ++ s.facts.definedNames
        ⊆ i.assigns ++ s.facts.definedNames :=
      List.append_subset.2
        ⟨fun n hn => List.mem_append_left _ (List.mem_reverse.2 (hsublist.subset hn)),
        List.subset_append_right _ _⟩
    refine (hnoted values (List.prefix_refl _)).of_stand
      ?_ (fun P h => ?_) hsub (List.Subset.refl _)
    · exact (representative?_foldl_close _ _).trans (congrArg _ hfold)
    · obtain ⟨hlevel, -, -, hcan, hval, -⟩ := Congruence.foldl_close_spec
        (foldIf ctx block (i.mapOperands (replace s.facts))
          (values.foldl (bind ctx block removable) (carriedOut ctx i facts s))).1.closes
        (values.foldl (bind ctx block removable) (carriedOut ctx i facts s)).facts
      rw [← hfold] at h hlevel hcan hval
      exact h.of_level hlevel.outer hcan hval
  · intro c hc
    unfold valueFacts at hc
    simp only [hdefine, hremovable, hvalues] at hc
    obtain ⟨noted, hmem, rfl⟩ := List.mem_map.1 hc
    exact (hnoted noted ((List.mem_inits _ _).1 hmem)).short

end Visit

/-! ## Functions that copy forward -/

end Numbering

/-- The names that are assigned in a block, at any depth. -/
def Block.assignedNames (b : Block) : List String := b.instructions.flatMap (·.assigns)

section Forward

variable (foreign : Foreign)

mutual
/-- **A block copies forward**: whatever it hands on is assigned before, or none
of the given names. What a deferred block hands on may be assigned behind the
block, but not inside. -/
def Block.copiesForward (names : List String) (p : Point) : Block → Bool
  | .mk vars body => body.copiesForward names (p.declare vars)
/-- A body copies forward. -/
def Body.copiesForward (names : List String) (p : Point) : Body → Bool
  | .done => true
  | .instr i rest =>
    (i.handsOn foreign).all (fun w => p.assigned.contains w.name || !names.contains w.name)
      && rest.copiesForward names (p.assign i.assigns)
  | .cont c rest => c.copiesForward names p && rest.copiesForward names (p.assign c.assigns)
/-- The blocks of a continuation copy forward. -/
def Continuation.copiesForward (names : List String) (p : Point) : Continuation → Bool
  | .ifElse _ t e => t.copiesForward names p && e.copiesForward names p
  | .switch _ arms => arms.copiesForward names p
  | .deferred trigger b => b.copiesForward b.assignedNames (p.enter trigger)
  | .nested b => b.copiesForward names p
/-- The arms of a switch copy forward. -/
def Arms.copiesForward (names : List String) (p : Point) : Arms → Bool
  | .none => true
  | .default b => b.copiesForward names p
  | .case _ b rest => b.copiesForward names p && rest.copiesForward names p
end

/-- **A function copies forward.** -/
def Function.copiesForward (f : Function) : Bool :=
  f.block.copiesForward foreign f.block.assignedNames f.point

end Forward

namespace Numbering

section Facts

variable (ctx : Context)

mutual
/-- **The facts at every point of the walk over a block**, in order. -/
def blockFacts : Block → State → List Congruence
  | .mk vars body, s => bodyFacts s.nextBlock body (enterBlock vars s)
/-- The facts at every point of the walk over a body. -/
def bodyFacts (block : Nat) : Body → State → List Congruence
  | .done, s => [s.facts]
  | .instr i rest, s =>
    s.facts :: (valueFacts ctx block i s
      ++ bodyFacts block rest (visitInstruction ctx block i s).state)
  | .cont c rest, s =>
    s.facts :: (continuationFacts c (governed c s)
      ++ bodyFacts block rest (visitContinuation ctx c s).state)
/-- The facts at every point inside a continuation. -/
def continuationFacts : Continuation → State → List Congruence
  | .ifElse _ t e, s =>
    blockFacts t (s.push .branch)
      ++ blockFacts e ((leaveArm (visitBlock ctx t (s.push .branch))).state.push .branch)
  | .switch _ arms, s => armsFacts arms s
  | .deferred trigger b, s => blockFacts b (enterDeferred ctx trigger s).state
  | .nested b, s => blockFacts b (s.push .nested)
/-- The facts at every point inside the arms of a switch. -/
def armsFacts : Arms → State → List Congruence
  | .none, _ => []
  | .default b, s => blockFacts b (s.push .branch)
  | .case _ b rest, s =>
    blockFacts b (s.push .branch)
      ++ armsFacts rest (leaveArm (visitBlock ctx b (s.push .branch))).state
end

/-- **The facts at every point of the walk over a function.** -/
def factsAlong (globals : Constants) (f : Function) : List Congruence :=
  match f.inputs.foldlM enterInput .new with
  | .ok facts => blockFacts ctx f.block (opened globals f facts)
  | .error _ => []

end Facts

/-! ## Walks over such functions -/

/-- What an instruction assigns is among the given names, and none of it is a
constant. -/
def AssignsAmong (V : Vocabulary) (names : List String) (i : Instruction) : Prop :=
  ∀ v ∈ i.assigned, ¬ V.constant v.name ∧ v.name ∈ names

/-- **An instruction assigns some of the given names**, and hands on what is
assigned before or none of them. -/
def forward (V : Vocabulary) (foreign : Foreign) (names : List String) : Requirement where
  declares _ _ := True
  instruction _ p i := AssignsAmong V names i ∧ ∀ w ∈ i.handsOn foreign,
    w.name ∈ p.assigned ∨ w.name ∉ names
  operand _ _ := True
  trigger _ _ := True

/-- **The state is in order and its facts are settled**, where the given names
are assigned. -/
structure SettledState (V : Vocabulary) (ctx : Context) (is : List (Nat × Instruction))
    (names : List String) (s : State) : Prop where
  inOrder : InOrder V ctx is s
  settled : s.facts.Settled V s.facts.definedNames names

section Walk

variable {V : Vocabulary} {ctx : Context} {is : List (Nat × Instruction)}
  {names : List String} {s s' : State}

theorem SettledState.leave {child : Scope} {c : Congruence} (hs : SettledState V ctx is names s)
    (hs' : SettledState V ctx is names s') (hfacts : s'.facts = ⟨child, s.facts.scopes⟩)
    (hkind : child.kind ≠ .deferred)
    (ho : c.outer = s.facts.outer) (hdefined : s.facts.top.defined ⊆ c.top.defined)
    (houtliving : child.outliving ⊆ c.top.defined)
    (hrep : ∀ v rep, c.representative? v = some rep → s.facts.representative? v = some rep
      ∨ ∃ e ∈ child.canonical.entries, e.1.name = v.name ∧ s.facts.isDeclared e.1 = true)
    (hstand : ∀ Q, s.facts.Stand Q →
      (child.Stand fun a => s.facts.isVisible a = true → Q a) → c.Stand Q) :
    c.Settled V c.definedNames names := by
  obtain ⟨hinOrder, hsettled⟩ := hs'
  have htidy := hinOrder.wellFormed.tidy
  have hanew := hinOrder.anew
  rw [hfacts] at hsettled htidy hanew
  refine hs.settled.leave hsettled htidy hanew hkind (fun _ => definedNames_mono ho hdefined)
    (fun n hn => ?_)
    hrep hstand
  exact Congruence.mem_definedNames.2 (.inl (houtliving hn))

/-- A deferred block is left. Whatever is known at its end, the facts before it
are settled behind it. -/
theorem SettledState.deferred (hV : Suits V ctx) (hs : SettledState V ctx is names s)
    (hs' : InOrder V ctx is s') (ho : s'.facts.outer = s.facts.scopes) :
    SettledState V ctx is names { s' with facts := s.facts.mergeDeferred s'.facts.top } := by
  have houter : (s.facts.mergeDeferred s'.facts.top).outer = s.facts.outer := rfl
  refine ⟨(upheld_inOrder hV).deferred hs.inOrder hs' ho, ?_⟩
  exact hs.settled.of_stand (Congruence.representative?_eq_of_top houter rfl)
    (fun P h => h.of_level houter rfl rfl)
    (fun _ => definedNames_mono houter (List.subset_append_right _ _)) (List.Subset.refl _)

/-- **The walk keeps the facts settled**, as long as instructions assign the
given names and copy forward. -/
theorem upheld_settled (hV : Suits V ctx) :
    Upheld ctx ((ordered V is).and (forward V ctx.foreign names))
      (SettledState V ctx is names) := by
  have hU : Upheld ctx _ (InOrder V ctx is) := upheld_inOrder hV
  exact {
    quiet := fun hs hq => ⟨hU.quiet hs.inOrder hq, hq.facts ▸ hs.settled⟩
    declare := fun {s vars} hs hd => by
      obtain ⟨ho, -, -, hcan, hval, -⟩ := foldl_declare_spec vars s.facts
      refine ⟨hU.declare hs.inOrder hd.1, ?_⟩
      show (vars.foldl Congruence.declare s.facts).Settled
        V (vars.foldl Congruence.declare s.facts).definedNames names
      rw [definedNames_foldl_declare]
      exact hs.settled.of_stand (Congruence.representative?_eq_of_top ho hcan)
        (fun P h => h.of_level ho hcan hval)
        (List.Subset.refl _) (List.Subset.refl _)
    instruction := fun hs hi hf => ⟨hU.instruction hs.inOrder hi.1 hf,
      (settled_visitInstruction hV.toServes hs.inOrder.wellFormed.constants
        hs.settled hi.2.1 hi.2.2 hf).1⟩
    push := fun kind hs => ⟨hU.push kind hs.inOrder,
      hs.settled.of_stand rfl (fun P h => h.push kind) (List.Subset.refl _) (List.Subset.refl _)⟩
    defer := fun {s trigger} hs ht hknown hf => by
      refine ⟨hU.defer hs.inOrder ht.1 hknown hf, ?_⟩
      exact hs.settled.of_stand (representative?_enterDeferred hf)
        (fun P h => stand_enterDeferred h hf)
        (definedNames_enterDeferred hf) (List.Subset.refl _)
    nested := fun {s s'} hs hs' ho hk => by
      have hfacts : s'.facts = ⟨s'.facts.top, s.facts.scopes⟩ := by rw [← ho]
      refine ⟨hU.nested hs.inOrder hs'.inOrder ho hk, ?_⟩
      refine hs.leave hs' hfacts (by simp [hk]) rfl (List.subset_append_right _ _)
        (List.subset_append_left _ _)
        (fun v rep hrep => ?_) fun Q h hchild => h.mergeNested hchild
      exact (representative?_of_mergeNested hrep).imp_right fun ⟨e, he, hname, _, hdeclared, _⟩ =>
        ⟨e, he, hname, hdeclared⟩
    deferred := fun hs hs' ho => hs.deferred hV hs'.inOrder ho
    arm := fun hs hs' ho => ⟨hU.arm hs.inOrder hs'.inOrder ho, hs.settled⟩
    branches := fun {s arms} hs harms => by
      refine ⟨hU.branches hs.inOrder fun arm harm => ?_, ?_⟩
      · obtain ⟨hk, s', hs', hfacts⟩ := harms arm harm
        exact ⟨hk, s', hs'.inOrder, hfacts⟩
      obtain ⟨hlevel, -, hdefined⟩ :=
        Congruence.mergeBranches_spec ctx.aliases ctx.settings.branchMerge arms s.facts
      cases arms with
      | nil =>
        rcases Congruence.mergeBranches_cases ctx.aliases ctx.settings.branchMerge [] s.facts
          with heq | ⟨_, _, h, -⟩
        · show (s.facts.mergeBranches ctx.aliases ctx.settings.branchMerge []).2.Settled V
            (s.facts.mergeBranches ctx.aliases ctx.settings.branchMerge []).2.definedNames names
          rw [heq]
          exact hs.settled
        · cases h
      | cons first rest =>
        obtain ⟨hk, s', hs', hfacts⟩ := harms first List.mem_cons_self
        refine hs.leave hs' hfacts (by simp [hk]) hlevel.outer
          (fun n hn => (hdefined n).2 (.inl hn))
          (fun n hn => (hdefined n).2 (.inr ⟨first, List.mem_cons_self, hn⟩)) (fun v rep hrep => ?_)
          fun Q h hchild => ?_
        · refine (representative?_of_mergeBranches hrep).imp_right ?_
          rintro ⟨_, _, harms, e, he, hname, -, hdeclared, -⟩
          obtain ⟨rfl, rfl⟩ := List.cons.inj harms
          exact ⟨e, he, hname, hdeclared⟩
        · refine h.mergeBranches (fun arm harm => ?_) _ _
          obtain rfl := Option.some.inj harm
          exact hchild }

/-- A deferred block is entered, where other names are assigned. -/
theorem SettledState.mono {names' : List String} (hs : SettledState V ctx is names s)
    (h : names' ⊆ names) :
    SettledState V ctx is names' s := ⟨hs.inOrder, hs.settled.mono (List.Subset.refl _) h⟩

variable (hV : Suits V ctx)
include hV

mutual
/-- **Chains are short all along the walk over a block** that copies forward. -/
theorem short_visitBlock : ∀ (b : Block) {names : List String} (s : State),
    SettledState V ctx is names s → b.Meets (ordered V is) s.nextBlock s.facts.point →
    b.copiesForward ctx.foreign names s.facts.point = true →
    (∀ i ∈ b.instructions, AssignsAmong V names i) →
    (visitBlock ctx b s).fault = none →
    SettledState V ctx is names (visitBlock ctx b s).state ∧ ∀ c ∈ blockFacts ctx b s, c.Short
  | .mk vars body, names, s, hs, hb, hcopies, hnames, h => by
    rw [visitBlock_eq] at h ⊢
    rw [Block.Meets, ← point_enterBlock] at hb
    rw [Block.copiesForward, ← point_enterBlock] at hcopies
    exact short_visitBody s.nextBlock body _ ((upheld_settled hV).declare hs ⟨hb.1, trivial⟩)
      hb.2 hcopies hnames h
theorem short_visitBody (block : Nat) : ∀ (b : Body) {names : List String} (s : State),
    SettledState V ctx is names s → b.Meets (ordered V is) block s.nextBlock s.facts.point →
    b.copiesForward ctx.foreign names s.facts.point = true →
    (∀ i ∈ b.instructions, AssignsAmong V names i) →
    (visitBody ctx block b s).fault = none →
    SettledState V ctx is names (visitBody ctx block b s).state
      ∧ ∀ c ∈ bodyFacts ctx block b s, c.Short
  | .done, names, s, hs, _, _, _, _ => ⟨hs, List.forall_mem_singleton.2 hs.settled.short⟩
  | .instr i rest, names, s, hs, hb, hcopies, hnames, h => by
    rw [visitBody] at h ⊢
    rw [Body.Meets] at hb
    rw [Body.copiesForward, Bool.and_eq_true, List.all_eq_true] at hcopies
    obtain ⟨hassigns, hnames⟩ := List.forall_mem_cons.1 hnames
    obtain ⟨h₁, heq⟩ := andThen_fault h
    rw [heq] at h ⊢
    have hhands : ∀ w ∈ i.handsOn ctx.foreign, w.name ∈ s.facts.definedNames ∨ w.name ∉ names :=
        fun w hw => by
      simpa [Congruence.point] using hcopies.1 w hw
    obtain ⟨-, hshort⟩ := settled_visitInstruction hV.toServes
      hs.inOrder.wellFormed.constants hs.settled hassigns hhands h₁
    have hs₁ := (upheld_settled hV).instruction hs ⟨hb.1, hassigns, hhands⟩ h₁
    rw [← (assigns_visitInstruction h₁).point] at hb hcopies
    rw [← nextBlock_visitInstruction h₁] at hb
    obtain ⟨hrest, hshorts⟩ := short_visitBody block rest _ hs₁ hb.2 hcopies.2 hnames h
    exact ⟨hrest, List.forall_mem_cons.2
      ⟨hs.settled.short, List.forall_mem_append.2 ⟨hshort, hshorts⟩⟩⟩
  | .cont c rest, names, s, hs, hb, hcopies, hnames, h => by
    rw [visitBody] at h ⊢
    rw [Body.Meets] at hb
    rw [Body.copiesForward, Bool.and_eq_true] at hcopies
    obtain ⟨hinside, hnames⟩ := List.forall_mem_append.1 hnames
    obtain ⟨h₁, heq⟩ := andThen_fault h
    rw [heq] at h ⊢
    obtain ⟨hs₁, hshort⟩ := short_visitContinuation c s hs hb.1 hcopies.1 hinside h₁
    rw [← (assigns_visitContinuation c s h₁).point] at hb hcopies
    rw [← (numbers_visitContinuation c s h₁).1] at hb
    obtain ⟨hrest, hshorts⟩ := short_visitBody block rest _ hs₁ hb.2 hcopies.2 hnames h
    exact ⟨hrest, List.forall_mem_cons.2
      ⟨hs.settled.short, List.forall_mem_append.2 ⟨hshort, hshorts⟩⟩⟩
theorem short_visitContinuation : ∀ (c : Continuation) {names : List String} (s : State),
    SettledState V ctx is names s → c.Meets (ordered V is) s.nextBlock s.facts.point →
    c.copiesForward ctx.foreign names s.facts.point = true →
    (∀ i ∈ c.instructions, AssignsAmong V names i) →
    (visitContinuation ctx c s).fault = none →
    SettledState V ctx is names (visitContinuation ctx c s).state
      ∧ ∀ f ∈ continuationFacts ctx c (governed c s), f.Short
  | .ifElse condition t e, names, s, hs, hc, hcopies, hnames, h => by
    have hU : Upheld ctx _ (SettledState V ctx is names) := upheld_settled hV
    have hq := quiet_governed (.ifElse condition t e) s
    have hs₁ := hU.quiet hs hq
    rw [Continuation.Meets, ← hq.facts, ← hq.nextBlock] at hc
    rw [Continuation.copiesForward, Bool.and_eq_true, ← hq.facts] at hcopies
    obtain ⟨hthen, helse⟩ := List.forall_mem_append.1 hnames
    obtain ⟨h₁, h₂, heq⟩ := visitIfElse_eq h
    obtain ⟨ht, hshort₁⟩ :=
      short_visitBlock t _ (hU.push .branch hs₁) hc.2.1 hcopies.1 hthen (leaveArm_fault h₁)
    -- the second arm starts from the same facts as the first
    obtain ⟨hs₂, hfacts₂, hnext₂, -, harm₁⟩ := hU.leaveArm hs₁ h₁ ht
    rw [← hfacts₂] at hc hcopies
    rw [← hnext₂] at hc
    obtain ⟨he, hshort₂⟩ :=
      short_visitBlock e _ (hU.push .branch hs₂) hc.2.2 hcopies.2 helse (leaveArm_fault h₂)
    obtain ⟨hs₃, hfacts₃, -, -, harm₂⟩ := hU.leaveArm hs₂ h₂ he
    rw [continuationFacts, heq]
    refine ⟨hU.branches hs₃ ?_, List.forall_mem_append.2 ⟨hshort₁, hshort₂⟩⟩
    rw [hfacts₃]
    refine List.forall_mem_cons.2 ⟨?_, List.forall_mem_singleton.2 harm₂⟩
    rwa [hfacts₂]
  | .switch value arms, names, s, hs, hc, hcopies, hnames, h => by
    have hU : Upheld ctx _ (SettledState V ctx is names) := upheld_settled hV
    have hq := quiet_governed (.switch value arms) s
    rw [Continuation.Meets, ← hq.facts, ← hq.nextBlock] at hc
    rw [Continuation.copiesForward, ← hq.facts] at hcopies
    obtain ⟨h₁, heq⟩ := visitSwitch_eq h
    obtain ⟨hs₂, hfacts, harms, hshort⟩ :=
      short_visitArms arms _ (hU.quiet hs hq) hc.2 hcopies hnames h₁
    rw [continuationFacts, heq]
    exact ⟨hU.branches hs₂ (hfacts ▸ harms), hshort⟩
  | .deferred trigger b, names, s, hs, hc, hcopies, hnames, h => by
    have hU : Upheld ctx _ (SettledState V ctx is names) := upheld_settled hV
    have hq := quiet_governed (.deferred trigger b) s
    have hs₁ := hU.quiet hs hq
    have hknown : ∀ v ∈ trigger.reads.filterMap Operand.var?,
        (governed (.deferred trigger b) s).knows v = true :=
      knows_of_visitContinuation h
    rw [Continuation.Meets, ← hq.facts, ← hq.nextBlock] at hc
    rw [Continuation.copiesForward, ← hq.facts] at hcopies
    obtain ⟨h₁, h₂, heq⟩ := visitDeferred_eq h
    -- inside, only the names matter that the block assigns itself
    have hinside : b.assignedNames ⊆ names := fun n hn => by
      obtain ⟨i, hi, hmem⟩ := List.mem_flatMap.1 hn
      obtain ⟨v, hv, rfl⟩ := List.mem_map.1 (List.mem_reverse.1 hmem)
      exact (hnames i hi v hv).2
    have hamong : ∀ i ∈ b.instructions, AssignsAmong V b.assignedNames i := fun i hi v hv =>
      ⟨(hnames i hi v hv).1,
        List.mem_flatMap.2 ⟨i, hi, List.mem_reverse.2 (List.mem_map_of_mem hv)⟩⟩
    have hentered := (upheld_settled hV).defer (hs₁.mono hinside) ⟨hc.1, trivial⟩ hknown h₁
    rw [← point_enterDeferred h₁] at hc hcopies
    rw [← nextBlock_enterDeferred] at hc
    obtain ⟨hb, hshort⟩ := short_visitBlock b _ hentered hc.2 hcopies hamong (leave_fault h₂)
    have ho := outer_of_assigns (enterDeferred_assigned h₁).1
      (assigns_visitBlock b _ (leave_fault h₂))
    rw [continuationFacts, heq, leave_eq (leave_fault h₂) ho]
    exact ⟨hs₁.deferred hV hb.inOrder ho, hshort⟩
  | .nested b, names, s, hs, hc, hcopies, hnames, h => by
    have hU : Upheld ctx _ (SettledState V ctx is names) := upheld_settled hV
    have hq := quiet_governed (.nested b) s
    have hs₁ := hU.quiet hs hq
    rw [Continuation.Meets, ← hq.facts, ← hq.nextBlock] at hc
    rw [Continuation.copiesForward, ← hq.facts] at hcopies
    obtain ⟨h₁, heq⟩ := visitNested_eq h
    obtain ⟨hb, hshort⟩ :=
      short_visitBlock b _ (hU.push .nested hs₁) hc hcopies hnames (leave_fault h₁)
    have ho := outer_visitBlock (leave_fault h₁)
    rw [continuationFacts, heq, leave_eq (leave_fault h₁) ho]
    exact ⟨hU.nested hs₁ hb ho (Upheld.kind_visitBlock b _ (leave_fault h₁)), hshort⟩
theorem short_visitArms : ∀ (arms : Arms) {names : List String} (s : State),
    SettledState V ctx is names s → arms.Meets (ordered V is) s.nextBlock s.facts.point →
    arms.copiesForward ctx.foreign names s.facts.point = true →
    (∀ i ∈ arms.instructions, AssignsAmong V names i) →
    (visitArms ctx arms s).fault = none →
    SettledState V ctx is names (visitArms ctx arms s).state
      ∧ (visitArms ctx arms s).state.facts = s.facts
      ∧ (∀ arm ∈ (visitArms ctx arms s).tree.2, arm.kind = .branch
        ∧ ∃ s', SettledState V ctx is names s' ∧ s'.facts = ⟨arm, s.facts.scopes⟩)
      ∧ ∀ c ∈ armsFacts ctx arms s, c.Short
  | .none, names, s, hs, _, _, _, _ => by
    refine ⟨hs, rfl, List.forall_mem_singleton.2 ⟨rfl, s.push .branch, ?_, rfl⟩,
      List.forall_mem_nil _⟩
    exact (upheld_settled hV).push .branch hs
  | .default b, names, s, hs, hb, hcopies, hnames, h => by
    have hU : Upheld ctx _ (SettledState V ctx is names) := upheld_settled hV
    obtain ⟨h₁, heq⟩ := visitDefault_cases h
    obtain ⟨hwalk, hshort⟩ :=
      short_visitBlock b _ (hU.push .branch hs) hb hcopies hnames (leaveArm_fault h₁)
    obtain ⟨hs₁, hfacts, -, -, harm⟩ := hU.leaveArm hs h₁ hwalk
    rw [heq, armsFacts]
    exact ⟨hs₁, hfacts, List.forall_mem_singleton.2 harm, hshort⟩
  | .case label b rest, names, s, hs, hb, hcopies, hnames, h => by
    have hU : Upheld ctx _ (SettledState V ctx is names) := upheld_settled hV
    rw [Arms.Meets] at hb
    rw [Arms.copiesForward, Bool.and_eq_true] at hcopies
    obtain ⟨hfirst, hnames⟩ := List.forall_mem_append.1 hnames
    obtain ⟨h₁, h₂, heq⟩ := visitCase_cases h
    obtain ⟨hwalk, hshort⟩ :=
      short_visitBlock b _ (hU.push .branch hs) hb.1 hcopies.1 hfirst (leaveArm_fault h₁)
    obtain ⟨hs₁, hfacts₁, hnext₁, -, harm⟩ := hU.leaveArm hs h₁ hwalk
    rw [← hfacts₁] at hb hcopies
    rw [← hnext₁] at hb
    obtain ⟨hs₂, hfacts₂, harms, hshorts⟩ := short_visitArms rest _ hs₁ hb.2 hcopies.2 hnames h₂
    rw [heq, armsFacts]
    refine ⟨hs₂, hfacts₂.trans hfacts₁, List.forall_mem_cons.2 ⟨harm, ?_⟩,
      List.forall_mem_append.2 ⟨hshort, hshorts⟩⟩
    exact hfacts₁ ▸ harms
end

end Walk

/-! ## Runs -/

section Runs

variable {settings : Settings} {foreign : Foreign} {globals created : Constants}
  {f : Function} {stats : Stats}
  {ctx : Context}

/-- The walk starts with settled facts: there are none. -/
theorem settled_opened {V : Vocabulary} {names : List String} {facts : Congruence}
    (h : f.inputs.foldlM enterInput .new = .ok facts) :
    (opened globals f facts).facts.Settled V (opened globals f facts).facts.definedNames names := by
  refine ⟨fun v rep hv => ?_, stand_opened h _⟩
  rw [representative?_opened h] at hv
  cases hv

/-- **Chains are short all along a run** over a conventional function that
copies forward. -/
theorem short_factsAlong (hf : f.Conventional globals) (hforward : f.copiesForward foreign = true)
    (hctx : contextOf settings foreign f = .ok ctx)
    (h : (run settings foreign globals f).result = .ok (stats, created)) :
    ∀ c ∈ factsAlong ctx globals f, c.Short := by
  obtain ⟨ctx', facts, hctx', hfacts, hfault, -, -⟩ := run_eq_ok h
  obtain rfl : ctx = ctx' := Except.ok.inj (hctx.symm.trans hctx')
  have halong : factsAlong ctx globals f = blockFacts ctx f.block (opened globals f facts) := by
    unfold factsAlong
    rw [hfacts]
  have hunmarked : ∀ v ∈ f.block.declarations, v.isGlobalConst = false := fun v hv => by
    refine Bool.eq_false_iff.2
      fun hg => hf.untouched v (List.mem_append_left _ (List.mem_append_right _ hv)) ?_
    exact .inr (.inr ⟨v, List.mem_append_right _ (f.block.declarations_subset hv), hg, rfl⟩)
  have hwell : WellFormed (f.vocabulary globals ctx.aliases) (opened globals f facts) :=
    wellFormed_opened (fun v hv => List.mem_append_left _ (List.mem_append_left _ hv))
      (hf.constants_globals _) hfacts
  have hamong : ∀ i ∈ f.block.instructions,
      AssignsAmong (f.vocabulary globals ctx.aliases) f.block.assignedNames i := fun i hi v hv =>
    ⟨hf.not_isConstant_output hi (i.results_subset (Instruction.mem_assigned.1 hv).1),
      List.mem_flatMap.2 ⟨i, hi, List.mem_reverse.2 (List.mem_map_of_mem hv)⟩⟩
  have hpoint : (opened globals f facts).facts.point = f.point := point_opened hfacts
  obtain rfl : ctx.foreign = foreign := (contextOf_eq_ok hctx).2.1
  rw [halong]
  refine (short_visitBlock hf.suits f.block _
    ⟨inOrder_opened (f.block.numbered 0) hwell hfacts, settled_opened hfacts⟩
    (meets_ordered (fun v hv => List.mem_append_right _ hv) hf.declaresAnew hunmarked hfacts)
    ?_ hamong hfault).2
  rw [hpoint]
  exact hforward

/-- **Representatives are fully resolved where chains are short enough.** All
along a run, a representative is fully resolved if and only if the chain to it
has at most one step more than there are open scopes, and such a representative
does not change in a scope further inside. In a conventional function that
copies forward, all of them are fully resolved, so looking them up again changes
nothing. -/
theorem representatives_resolved (hctx : contextOf settings foreign f = .ok ctx)
    (h : (run settings foreign globals f).result = .ok (stats, created)) :
    ∀ c ∈ factsAlong ctx globals f,
      (∀ v, (c.Resolved v ↔ c.endsWithin (c.depth + 1) (.var v) = true)
        ∧ (c.Resolved v → ∀ kind, (c.push kind).canonical? v = c.canonical? v))
      ∧ (f.Conventional globals → f.copiesForward foreign = true →
        (∀ v, c.Resolved v) ∧ ∀ a,
          c.canonicalOperand (c.canonicalOperand a) = c.canonicalOperand a) := by
  refine fun c hc =>
    ⟨fun v => ⟨Congruence.resolved_iff, Congruence.canonical?_push⟩, fun hf hforward => ?_⟩
  have hresolved := (short_factsAlong hf hforward hctx h c hc).resolved
  exact ⟨hresolved, Congruence.canonicalOperand_canonicalOperand hresolved⟩

end Runs

/-- A function that waits for a future, copies it twice inside, and assigns it
behind. -/
def copiesInside : Function where
  name := "f"
  inputs := [⟨"x", .future .int, .stack, .inArg, .user⟩]
  outputs := [⟨"o", .future .int, .stack, .outArg, .user⟩]
  target := .control
  block :=
    let x : Var := ⟨"x", .future .int, .stack, .inArg, .user⟩
    let o : Var := ⟨"o", .future .int, .stack, .outArg, .user⟩
    let a := Var.future "a" .int
    let b := Var.future "b" .int
    let c := Var.future "c" .int
    .mk [a]
      (.cont (.deferred (.wait [a] .control .dispatch) (.mk [b, c]
        (.instr (.compute .later .copy b [.var a])
        (.instr (.compute .later .copy c [.var b])
        (.instr (.compute .later .neg o [.var c]) .done)))))
      (.instr (.compute .later .copy a [.var x]) .done))

/-- Inside, both copies have the future as their representative; behind, it has
one itself. -/
theorem representatives_resolved_copiesInside :
    let a := Var.future "a" .int
    let c := Var.future "c" .int
    copiesInside.Conventional .empty ∧ copiesInside.copiesForward .empty = true
      ∧ ∃ ctx, contextOf {} .empty copiesInside = .ok ctx
        ∧ (∀ facts ∈ factsAlong ctx .empty copiesInside, (∀ v, facts.Resolved v)
          ∧ ∀ a, facts.canonicalOperand (facts.canonicalOperand a) = facts.canonicalOperand a)
        ∧ (∃ facts ∈ factsAlong ctx .empty copiesInside, facts.canonical? c = some (.var a))
        ∧ ∃ facts ∈ factsAlong ctx .empty copiesInside, (facts.canonical? a).isSome = true := by
  have hf : copiesInside.Conventional .empty :=
    Function.conventional_of_names (by decide +kernel) (by decide) (by decide +kernel)
  have hforward : copiesInside.copiesForward .empty = true := by decide +kernel
  refine ⟨hf, hforward, _, rfl, fun facts hfacts => ?_, by decide +kernel, by decide +kernel⟩
  obtain ⟨⟨stats, created⟩, hrun⟩ : ∃ r, (run {} .empty .empty copiesInside).result = .ok r :=
    ⟨_, rfl⟩
  exact (representatives_resolved rfl hrun facts hfacts).2 hf hforward

/-- **A copy of what is copied itself later is not fully resolved.** Where three
futures are copied before they are assigned, the first has the third as its
representative, although the third has one itself, and another one in a scope
further inside. -/
theorem unresolved_of_copiesBackwards :
    let x : Var := ⟨"x", .future .int, .stack, .inArg, .user⟩
    let a₁ := Var.future "a1" .int
    let a₃ := Var.future "a3" .int
    copiesBackwards.copiesForward .empty = false
      ∧ (∃ r, (run {} .empty .empty copiesBackwards).result = .ok r)
      ∧ (∀ v ∈ copiesBackwards.occurrences, ∀ w ∈ copiesBackwards.occurrences,
        v.name = w.name → v = w)
      ∧ copiesBackwards.block.declaresAnew
        ((copiesBackwards.inputs ++ copiesBackwards.outputs).map (·.name)) = true
      ∧ ∃ ctx, contextOf {} .empty copiesBackwards = .ok ctx
        ∧ ∃ facts ∈ factsAlong ctx .empty copiesBackwards, facts.canonical? a₁ = some (.var a₃)
          ∧ facts.canonical? a₃ = some (.var x)
            ∧ (facts.push .nested).canonical? a₁ = some (.var x) :=
  ⟨by decide +kernel, ⟨_, rfl⟩, by decide +kernel, by decide +kernel, _, rfl, by decide +kernel⟩

end Numbering

end ValueFlow
