import ValueFlow.Proofs.Knowledge

/-!
# What an instruction makes available

Value numbering takes it from the text of an instruction which signatures are
known once the instruction has been carried out. Here this is compared with what
executing the instruction does: each such signature denotes what its output or
its known operand then holds (`produced_of_exec`).
-/

namespace ValueFlow

variable {W : Type}

/-! ## Replaced operands -/

namespace Instruction

/-- **Replacing operands by others that hold the same** does not change what is
executed. -/
theorem exec_mapOperands {mach : Machine W} {st : Store W} {f : Role → Operand → Operand}
    (hf : ∀ role a, st.read (f role a) = st.read a) (i : Instruction) :
    (i.mapOperands f).exec mach st = i.exec mach st := by
  have hix : ∀ (arr : String) (ix : Operand),
      st.element? arr (f .value ix).key = st.element? arr ix.key := by
    intro arr ix
    have hget : st.get (f .value ix).key = st.get ix.key := hf .value ix
    unfold Store.element?
    rw [hget]
  cases i with
  | storeScalar dst src => simp only [mapOperands, exec, hf]
  | loadScalar dst src =>
    have hsrc : st.value (varOr src (f .retrieved (.var src))).name = st.value src.name := by
      have := hf .retrieved (.var src)
      cases hrep : f .retrieved (.var src) with
      | var v =>
        rw [hrep] at this
        exact this
      | lit l => rfl
    simp only [mapOperands, exec, hsrc]
  | storeRef dst src => rfl
  | loadRef dst src => rfl
  | compute timing op dst inputs =>
    simp only [mapOperands, exec, Store.readAll_map _ fun a _ => hf timing.role a]
  | call timing function outputs inputs =>
    simp only [mapOperands, exec, Store.readAll_map _ fun a _ => hf timing.role a]
  | readField access dst record path => rfl
  | writeField record path src => simp only [mapOperands, exec, hf]
  | readElement access dst arr ix => simp only [mapOperands, exec, hix]
  | writeElement arr ix src => simp only [mapOperands, exec, hf, hix]

/-- What is read as a value is a literal or a variable with storage of its own. -/
def Plain (own : String → Prop) (i : Instruction) : Prop :=
  ∀ r ∈ i.reads, r.1 = .value ∨ r.1 = .awaited → ∀ n, r.2.key = .inl n → own n

theorem role_plain (timing : Timing) : timing.role = .value ∨ timing.role = .awaited := by
  cases timing
  · exact .inl rfl
  · exact .inr rfl

theorem Plain.mapOperands {own : String → Prop} {i : Instruction} (hi : i.Plain own)
    {f : Role → Operand → Operand}
    (hf : ∀ role a, f role a = a ∨ ∀ n, (f role a).key = .inl n → own n) :
    (i.mapOperands f).Plain own := by
  intro r hr hrole n hn
  rw [reads_mapOperands] at hr
  obtain ⟨⟨role, a⟩, ha, rfl⟩ := List.mem_map.1 hr
  have hmapped : mapOperand f (role, a) = f role a := by
    rcases hrole with rfl | rfl <;> rfl
  replace hn : (f role a).key = .inl n := hmapped ▸ hn
  rcases hf role a with heq | hown
  · exact hi _ ha hrole n (heq ▸ hn)
  · exact hown n hn

end Instruction

/-! ## Produced values -/

/-- The output or the known operand holds a literal. An output that is a part of
another variable is not looked at. -/
def Binding.Has (own : String → Prop) (st : Store W) (l : Literal) : Binding → Prop
  | .output v => own v.name → st.value v.name = some l
  | .known a => st.read a = some l

/-- **A signature denotes what it is said to.** -/
structure Produced (foreign : Foreign) (mach : Machine W) (own : String → Prop) (st : Store W)
    (value : Signature × Binding) : Prop where
  lawful : value.1.Lawful foreign
  /-- A value that was computed was computed from variables with storage of their own. -/
  plain : ∀ v, value.2 = .output v → value.1.Plain own
  denotes : value.1.Plain own →
    value.1.Settled st ∧ ∃ l, value.1.Denotes mach st l ∧ value.2.Has own st l

section Stores

variable {st : Store W} {c : Cell} {l : Literal}

/-- Storing a literal changes nothing where the same literal is stored already. -/
theorem Store.contents_put_same (h : st.contents c = some l) (c' : Cell) :
    (st.put c' l).contents c = some l := by
  rw [Store.contents_put]
  split
  · rfl
  · exact h

theorem Store.get_put_same {k : String ⊕ Literal} (h : st.get k = some l) (c' : Cell) :
    (st.put c' l).get k = some l := by
  cases k with
  | inr l' => exact h
  | inl n =>
    obtain ⟨c, hc, hl⟩ := Option.bind_eq_some_iff.1 h
    exact Option.bind_eq_some_iff.2 ⟨c, hc, Store.contents_put_same hl c'⟩

theorem Store.value_put {n : String} (h : st.places n = some c) (l : Literal) :
    (st.put c l).value n = some l := by
  refine Option.bind_eq_some_iff.2 ⟨c, h, ?_⟩
  rw [Store.contents_put, if_pos rfl]

end Stores

theorem Store.isSome_of_getAll {st : Store W} {keys : List (String ⊕ Literal)} {xs : List Literal}
    (h : st.getAll keys = some xs) : ∀ k ∈ keys, (st.get k).isSome = true := by
  replace h := Store.getAll_eq_some.1 h
  induction h with
  | nil => exact fun k hk => absurd hk List.not_mem_nil
  | @cons k l _ _ hl _ ih =>
    exact List.forall_mem_cons.2 ⟨Option.isSome_iff_exists.2 ⟨l, hl⟩, ih⟩

theorem Signature.lawful_plain (foreign : Foreign) {op : Opcode} (inputs : List Operand)
    (hop : ∀ function timing output, op ≠ .foreign function timing output) :
    (Signature.plain op inputs).Lawful foreign :=
  ⟨fun h => (nomatch h), fun function timing output h => absurd h (hop function timing output)⟩

theorem Signature.lawful_ofBuiltin (foreign : Foreign) (timing : Timing) (op : Builtin)
    (inputs : List Operand) : (Signature.ofBuiltin timing op inputs).Lawful foreign := by
  have h : Signature.Lawful foreign ⟨.builtin timing op, inputs, op.isCommutative⟩ :=
    ⟨fun h => .inl ⟨timing, op, rfl, h⟩, fun _ _ _ h => nomatch h⟩
  exact h.normalize

section Produced

variable {foreign : Foreign} {mach : Machine W} {m : AliasMap} {own : String → Prop}
  {st st' : Store W} {binding : Binding} {l : Literal} {inputs : List Operand}

theorem produced_assign {a : Operand} (ha : st.read a = some l)
    (hb : binding.Has own st l) (hown : ∀ v, binding = .output v → ∀ n, a.key = .inl n → own n) :
    Produced foreign mach own st (.plain .assign [a], binding) where
  lawful := Signature.lawful_plain foreign _ fun _ _ _ h => nomatch h
  plain v hv n hn := hown v hv n (List.mem_singleton.1 hn).symm
  denotes _ := by
    refine ⟨⟨fun k hk => ?_, fun h => nomatch h⟩, l, .assign ha, hb⟩
    obtain rfl := List.mem_singleton.1 hk
    exact Option.isSome_iff_exists.2 ⟨l, ha⟩

theorem produced_retrieve {v : Var}
    (hv : st.value v.name = some l) (hb : binding.Has own st l) :
    Produced foreign mach own st (.plain .retrieve [.var v], binding) where
  lawful := Signature.lawful_plain foreign _ fun _ _ _ h => nomatch h
  plain _ _ _ hn := absurd hn List.not_mem_nil
  denotes _ := ⟨Opcode.settled_retrieve (k := Sum.inl v.name) hv, l,
    Opcode.denotes_retrieve (k := Sum.inl v.name) hv, hb⟩

theorem produced_builtin (hm : mach.Obeys foreign) (timing : Timing) {op : Builtin}
    {xs : List Literal}
    (hxs : st.readAll inputs = some xs) (hl : mach.builtin op xs = some l)
    (hb : binding.Has own st l) (hown : ∀ a ∈ inputs, ∀ n, a.key = .inl n → own n) :
    Produced foreign mach own st (.ofBuiltin timing op inputs, binding) where
  lawful := Signature.lawful_ofBuiltin foreign timing op inputs
  plain _ _ := by
    have hlaw : Signature.Lawful foreign ⟨.builtin timing op, inputs, op.isCommutative⟩ :=
      ⟨fun h => .inl ⟨timing, op, rfl, h⟩, fun _ _ _ h => nomatch h⟩
    refine (Signature.plain_normalize hlaw).2 fun n hn => ?_
    obtain ⟨a, ha, hkey⟩ := List.mem_map.1 hn
    exact hown a ha n hkey
  denotes _ := by
    have hlaw : Signature.Lawful foreign ⟨.builtin timing op, inputs, op.isCommutative⟩ :=
      ⟨fun h => .inl ⟨timing, op, rfl, h⟩, fun _ _ _ h => nomatch h⟩
    have hden : Signature.Denotes mach st ⟨.builtin timing op, inputs, op.isCommutative⟩ l :=
      .builtin hxs hl
    have hset : Signature.Settled st ⟨.builtin timing op, inputs, op.isCommutative⟩ :=
      ⟨Store.isSome_of_getAll hxs, fun h => nomatch h⟩
    exact ⟨hset.normalize hlaw, l, (Signature.denotes_normalize hm hlaw).2 hden, hb⟩

/-- The outputs of a deterministic foreign function. -/
theorem produced_callSignatures (hm : mach.Obeys foreign) (timing : Timing) {f : ForeignFunction}
    {function : String} (hf : foreign.lookup function = .ok f) (hdet : f.deterministic = true)
    {xs ys : List Literal} {w w' : W} (hxs : st.readAll inputs = some xs)
    (hys : mach.call function xs w = some (ys, w'))
    (hown : ∀ a ∈ inputs, ∀ n, a.key = .inl n → own n) {outs : List Var} (k : Nat)
    (hout : List.Forall₂ (fun v l => own v.name → st.value v.name = some l) outs (ys.drop k)) :
    ∀ value ∈ Instruction.callSignatures timing f function inputs k outs,
      Produced foreign mach own st value := by
  induction outs generalizing k with
  | nil => exact fun value hv => absurd hv List.not_mem_nil
  | cons out outs ih =>
    cases hdrop : ys.drop k with
    | nil =>
      rw [hdrop] at hout
      cases hout
    | cons l rest =>
      rw [hdrop] at hout
      obtain ⟨hl, hrest⟩ := List.forall₂_cons.1 hout
      have hk : ys[k]? = some l := by
        rw [← List.head?_drop, hdrop, List.head?_cons]
      have htail : rest = ys.drop (k + 1) := by
        rw [← List.tail_drop, hdrop, List.tail_cons]
      refine List.forall_mem_cons.2 ⟨?_, ih (k + 1) (htail ▸ hrest)⟩
      have hlaw : Signature.Lawful foreign ⟨.foreign function timing k, inputs, f.commutative⟩ := by
        refine ⟨fun h => .inr ⟨function, timing, k, f, rfl, hf, h⟩, fun _ _ _ h => ?_⟩
        obtain ⟨rfl, -, -⟩ := Opcode.foreign.inj h
        exact ⟨f, hf, hdet⟩
      have hden : Signature.Denotes mach st ⟨.foreign function timing k, inputs, f.commutative⟩ l :=
        .foreign hxs hys hk
      have hset : Signature.Settled st ⟨.foreign function timing k, inputs, f.commutative⟩ :=
        ⟨Store.isSome_of_getAll hxs, fun h => nomatch h⟩
      refine ⟨hlaw.normalize, fun _ _ => (Signature.plain_normalize hlaw).2 fun n hn => ?_, fun _ =>
        ⟨hset.normalize hlaw, l, (Signature.denotes_normalize hm hlaw).2 hden, hl⟩⟩
      obtain ⟨a, ha, hkey⟩ := List.mem_map.1 hn
      exact hown a ha n hkey

/-- A foreign call, which may be known as a builtin operation. -/
theorem produced_call (hm : mach.Obeys foreign) {timing : Timing} {function : String}
    {outputs : List Var} {xs ys : List Literal} {w w' : W}
    (hxs : st.readAll inputs = some xs) (hys : mach.call function xs w = some (ys, w'))
    (hown : ∀ a ∈ inputs, ∀ n, a.key = .inl n → own n)
    (hout : List.Forall₂ (fun v l => own v.name → st.value v.name = some l) outputs ys)
    {values : List (Signature × Binding)}
    (hv : (Instruction.call timing function outputs inputs).signatures foreign = .ok values) :
    ∀ value ∈ values, Produced foreign mach own st value := by
  simp only [Instruction.signatures, Bind.bind, Except.bind] at hv
  cases hf : foreign.lookup function with
  | error e =>
    rw [hf] at hv
    cases hv
  | ok f =>
    rw [hf] at hv
    dsimp only at hv
    split at hv
    · obtain rfl := Except.ok.inj hv
      exact fun value hv => absurd hv List.not_mem_nil
    · rename_i hdet
      have hdet : f.deterministic = true := by simpa using hdet
      split at hv
      · rename_i op out hop
        obtain rfl := Except.ok.inj hv
        obtain ⟨y, rfl⟩ : ∃ y, ys = [y] := by
          cases hout with
          | cons _ hnil =>
            cases hnil
            exact ⟨_, rfl⟩
        obtain ⟨hy, -⟩ := List.forall₂_cons.1 hout
        have hl := hm.builtin function f op hf hdet hop xs w y w' hys
        exact List.forall_mem_singleton.2 (produced_builtin hm timing hxs hl hy hown)
      · obtain rfl := Except.ok.inj hv
        exact produced_callSignatures hm timing hf hdet hxs hys hown 0 hout

theorem produced_field {record : Var} {path : List String} {c : Cell}
    (hc : st.field? record.name path = some c) (hl : st.contents c = some l)
    (hb : binding.Has own st l) :
    Produced foreign mach own st (.plain (.fieldRetrieve path) [.var record], binding) where
  lawful := Signature.lawful_plain foreign _ fun _ _ _ h => nomatch h
  plain _ _ _ hn := absurd hn List.not_mem_nil
  denotes _ := by
    have hcell : (Opcode.fieldRetrieve path).cell? st [.inl record.name] = some c := hc
    refine ⟨⟨fun k hk => absurd hk List.not_mem_nil, fun _ => ?_⟩, l, .cell hcell hl, hb⟩
    exact .inl ⟨c, hcell, fun _ => Option.isSome_iff_exists.2 ⟨l, hl⟩⟩

theorem produced_element {arr : Var} {ix : Operand} {c : Cell}
    (hc : st.element? arr.name ix.key = some c) (hl : st.contents c = some l)
    (hb : binding.Has own st l) (hown : ∀ n, ix.key = .inl n → own n) :
    Produced foreign mach own st (.plain .elementRetrieve [.var arr, ix], binding) where
  lawful := Signature.lawful_plain foreign _ fun _ _ _ h => nomatch h
  plain _ _ n hn := hown n (List.mem_singleton.1 hn).symm
  denotes _ := by
    have hcell : Opcode.elementRetrieve.cell? st [.inl arr.name, ix.key] = some c := hc
    obtain ⟨-, x, -, hx, -⟩ := Store.element?_eq_some.1 hc
    refine ⟨⟨fun k hk => ?_, fun _ => ?_⟩, l, .cell hcell hl, hb⟩
    · obtain rfl := List.mem_singleton.1 hk
      exact Option.isSome_iff_exists.2 ⟨x, hx⟩
    · exact .inl ⟨c, hcell, fun _ => Option.isSome_iff_exists.2 ⟨l, hl⟩⟩

/-- The index of an element keeps its value. -/
theorem Frame.element? {names : String → Prop} {written : List Location}
    (hf : Frame m names written st st') (hp : Placed m own st) (hplaces : st'.places = st.places)
    {arr : String} {ix : Operand} (hix : ∀ n, ix.key = .inl n → names n ∧ own n) {c : Cell}
    (hc : st.element? arr ix.key = some c) : st'.element? arr ix.key = some c := by
  obtain ⟨c₀, x, hc₀, hx, rfl⟩ := Store.element?_eq_some.1 hc
  exact Store.element?_eq_some.2 ⟨c₀, x, hplaces ▸ hc₀, hf.get hp hix hx, rfl⟩

/-- Inputs with storage of their own keep their values. -/
theorem Frame.readAll {names : String → Prop} {written : List Location}
    (hf : Frame m names written st st') (hp : Placed m own st)
    (hown : ∀ a ∈ inputs, ∀ n, a.key = .inl n → names n ∧ own n) {xs : List Literal}
    (hxs : st.readAll inputs = some xs) : st'.readAll inputs = some xs := by
  refine hf.getAll hp (fun n hn => ?_) hxs
  obtain ⟨a, ha, hkey⟩ := List.mem_map.1 hn
  exact hown a ha n hkey

/-- **Every value that an instruction makes available is there** once the
instruction was executed. -/
theorem produced_of_exec (hm : mach.Obeys foreign) {i : Instruction} (hr : Ready m own i st)
    (hi : i.Plain own) (h : i.exec mach st = some st') (he : Executed m own i st st')
    {values : List (Signature × Binding)} (hv : i.signatures foreign = .ok values) :
    ∀ value ∈ values, Produced foreign mach own st' value := by
  have hp := hr.placed
  have hf := he.frame
  cases i with
  | storeScalar dst src =>
    obtain ⟨l, hl, h⟩ := Option.bind_eq_some_iff.1 h
    obtain ⟨c, hc, rfl⟩ := Store.assign_eq_some.1 h
    obtain rfl := Except.ok.inj hv
    have hsrc : (st.put c l).read src = some l := Store.get_put_same hl c
    refine List.forall_mem_cons.2 ⟨produced_assign hsrc (fun _ => Store.value_put hc l)
      (fun _ _ => hi _ List.mem_cons_self (.inl rfl)),
      List.forall_mem_singleton.2 (produced_retrieve (Store.value_put hc l) hsrc)⟩
  | loadScalar dst src =>
    obtain ⟨l, hl, h⟩ := Option.bind_eq_some_iff.1 h
    obtain ⟨c, hc, rfl⟩ := Store.assign_eq_some.1 h
    obtain rfl := Except.ok.inj hv
    have hsrc : (st.put c l).value src.name = some l :=
      Store.get_put_same (k := Sum.inl src.name) hl c
    exact List.forall_mem_cons.2 ⟨produced_retrieve hsrc fun _ => Store.value_put hc l,
      List.forall_mem_singleton.2 (produced_assign (a := .var dst) (Store.value_put hc l) hsrc
        fun _ h => nomatch h)⟩
  | storeRef dst src => cases h
  | loadRef dst src => cases h
  | compute timing op dst inputs =>
    obtain ⟨l, hl, h⟩ := Option.bind_eq_some_iff.1 h
    obtain ⟨xs, hxs, hl⟩ := Option.bind_eq_some_iff.1 hl
    obtain ⟨c, hc, rfl⟩ := Store.assign_eq_some.1 h
    obtain rfl := Except.ok.inj hv
    have hown : ∀ a ∈ inputs, ∀ n, a.key = .inl n → own n := fun a ha =>
      hi _ (List.mem_map.2 ⟨a, ha, rfl⟩) (Instruction.role_plain timing)
    have hxs' := hf.readAll hp (fun a ha n hn => ⟨trivial, hown a ha n hn⟩) hxs
    exact List.forall_mem_singleton.2
      (produced_builtin hm timing hxs' hl (fun _ => Store.value_put hc l) hown)
  | call timing function outputs inputs =>
    obtain ⟨xs, hxs, h⟩ := Option.bind_eq_some_iff.1 h
    obtain ⟨⟨ys, w⟩, hys, h⟩ := Option.bind_eq_some_iff.1 h
    have hall := hr.assignAll rfl h
    have hown : ∀ a ∈ inputs, ∀ n, a.key = .inl n → own n := fun a ha =>
      hi _ (List.mem_map.2 ⟨a, ha, rfl⟩) (Instruction.role_plain timing)
    have hxs' := hf.readAll hp (fun a ha n hn => ⟨trivial, hown a ha n hn⟩) hxs
    exact produced_call hm hxs' hys hown hall.values hv
  | readField access dst record path =>
    obtain ⟨c, hc, h⟩ := Option.bind_eq_some_iff.1 h
    cases access with
    | bind =>
      obtain rfl := Except.ok.inj hv
      exact fun value hv => absurd hv List.not_mem_nil
    | retrieve =>
      obtain ⟨l, hl, h⟩ := Option.bind_eq_some_iff.1 h
      obtain ⟨cd, hcd, rfl⟩ := Store.assign_eq_some.1 h
      obtain rfl := Except.ok.inj hv
      exact List.forall_mem_singleton.2 (produced_field (c := c) hc (Store.contents_put_same hl cd)
        fun _ => Store.value_put hcd l)
    | copy => cases h
  | writeField record path src =>
    obtain ⟨c, hc, h⟩ := Option.bind_eq_some_iff.1 h
    obtain ⟨l, hl, rfl⟩ := Option.map_eq_some_iff.1 h
    obtain rfl := Except.ok.inj hv
    refine List.forall_mem_singleton.2 (produced_field (c := c) hc ?_ (Store.get_put_same hl c))
    rw [Store.contents_put, if_pos rfl]
  | readElement access dst arr ix =>
    obtain ⟨c, hc, h⟩ := Option.bind_eq_some_iff.1 h
    have hix : ∀ n, ix.key = .inl n → own n := hi _ (.tail _ List.mem_cons_self) (.inl rfl)
    cases access with
    | bind =>
      obtain rfl := Except.ok.inj hv
      exact fun value hv => absurd hv List.not_mem_nil
    | retrieve =>
      obtain ⟨l, hl, h⟩ := Option.bind_eq_some_iff.1 h
      obtain ⟨cd, hcd, rfl⟩ := Store.assign_eq_some.1 h
      obtain rfl := Except.ok.inj hv
      have hc' := hf.element? hp rfl (fun n hn => ⟨trivial, hix n hn⟩) hc
      exact List.forall_mem_singleton.2 (produced_element hc' (Store.contents_put_same hl cd)
        (fun _ => Store.value_put hcd l) hix)
    | copy => cases h
  | writeElement arr ix src =>
    obtain ⟨c, hc, h⟩ := Option.bind_eq_some_iff.1 h
    obtain ⟨l, hl, rfl⟩ := Option.map_eq_some_iff.1 h
    obtain rfl := Except.ok.inj hv
    have hix : ∀ n, ix.key = .inl n → own n := hi _ (.tail _ List.mem_cons_self) (.inl rfl)
    have hc' := hf.element? hp rfl (fun n hn => ⟨trivial, hix n hn⟩) hc
    refine List.forall_mem_singleton.2 (produced_element hc' ?_ (Store.get_put_same hl c) hix)
    rw [Store.contents_put, if_pos rfl]

end Produced

end ValueFlow
