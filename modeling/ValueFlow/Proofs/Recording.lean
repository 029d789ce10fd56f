import ValueFlow.Proofs.Production

/-!
# Entering values

What value numbering finds for a signature holds what the signature denotes, be
it found among the facts, be it a constant or be it computed (`read_of_finds`).
So entering the values of an instruction keeps the facts true, and the literals
noted with the marks are right (`recorded_foldl_bind`).
-/

namespace ValueFlow

variable {W : Type}

/-! ## Constants -/

/-- **The constants of the pool hold their literals.** -/
def Stocked (p : Pool) (st : Store W) : Prop :=
  ∀ name c, p.get? name = some c → ∃ l, c.value = .lit l ∧ st.value name = some l

namespace Stocked

variable {p p' : Pool} {st : Store W}

theorem of_grows (h : Stocked p' st) (hp : p.Grows p') : Stocked p st :=
  fun name c hc => h name c (hp.get? hc)

theorem valueOf? (h : Stocked p st) {v : Var} {a : Operand} (ha : p.valueOf? v = some a) :
    ∃ l, a = .lit l ∧ st.value v.name = some l := by
  obtain ⟨-, c, hc, rfl⟩ := Pool.valueOf?_eq_some ha
  exact h v.name c hc

theorem literal? (h : Stocked p st) {a b : Operand} (hb : p.literal? a = some b) :
    ∃ l, b = .lit l ∧ st.read a = some l := by
  cases a with
  | var v => exact h.valueOf? hb
  | lit l => exact ⟨l, (Option.some.inj hb).symm, rfl⟩

theorem readAll (h : Stocked p st) {inputs lits : List Operand}
    (hl : inputs.mapM p.literal? = some lits) :
    ∃ xs : List Literal, lits = xs.map .lit ∧ st.readAll inputs = some xs := by
  induction inputs generalizing lits with
  | nil =>
    obtain rfl := Option.some.inj hl
    exact ⟨[], rfl, rfl⟩
  | cons a inputs ih =>
    rw [List.mapM_cons] at hl
    obtain ⟨b, hb, hl⟩ := Option.bind_eq_some_iff.1 hl
    obtain ⟨bs, hbs, hl⟩ := Option.bind_eq_some_iff.1 hl
    obtain rfl := Option.some.inj hl
    obtain ⟨l, rfl, hread⟩ := h.literal? hb
    obtain ⟨xs, rfl, hxs⟩ := ih hbs
    refine ⟨l :: xs, rfl, Store.getAll_eq_some.2 (.cons hread (Store.getAll_eq_some.1 hxs))⟩

end Stocked

theorem Operand.mapM_lit?_eq_some {inputs : List Operand} {xs : List Literal}
    (h : inputs.mapM Operand.lit? = some xs) : inputs = xs.map .lit := by
  induction mapM_eq_some.1 h with
  | nil => rfl
  | @cons a l _ _ hl hls ih =>
    cases a with
    | var => cases hl
    | lit l' =>
      obtain rfl := Option.some.inj hl
      rw [ih (mapM_eq_some.2 hls)]
      rfl

theorem Builtin.foldOperands_eq_some {op : Builtin} {inputs : List Operand} {l : Literal}
    (h : op.foldOperands inputs = some l) :
    ∃ xs : List Literal, inputs = xs.map .lit ∧ op.fold xs = some l := by
  obtain ⟨xs, hxs, hl⟩ := Option.bind_eq_some_iff.1 h
  exact ⟨xs, Operand.mapM_lit?_eq_some hxs, hl⟩

theorem Store.readAll_lits (st : Store W) (xs : List Literal) :
    st.readAll (xs.map .lit) = some xs := by
  refine Store.getAll_eq_some.2 ?_
  rw [List.map_map, List.forall₂_map_left_iff]
  exact List.forall₂_same.2 fun l _ => rfl

namespace Numbering

/-! ## What is found -/

section Finds

variable {ctx : Context} {mach : Machine W} {own : String → Prop} {sig : Signature} {s : State}
  {st : Store W} {rep : Operand} {l : Literal}

/-- **What follows from a signature alone**, case by case. -/
theorem resolve_eq_some (h : (resolve ctx sig s).1 = some rep) :
    (∃ l, sig.op = .assign ∧ sig.inputs = [.lit l] ∧ resolve ctx sig s = constantFor l s)
      ∨ (∃ v, sig.op = .retrieve ∧ sig.inputs = [.var v]
        ∧ resolve ctx sig s = (s.pool.valueOf? v, s))
      ∨ (∃ timing v, sig.op = .builtin timing .copy ∧ sig.inputs = [.var v] ∧ rep = .var v)
      ∨ (∃ timing op l, sig.op = .builtin timing op ∧ op.foldOperands sig.inputs = some l
        ∧ rep = .lit l)
      ∨ ∃ timing op lits l, sig.op = .builtin timing op
        ∧ sig.inputs.mapM s.pool.literal? = some lits
        ∧ op.foldOperands lits = some l ∧ resolve ctx sig s = constantFor l s := by
  obtain ⟨op, inputs, commutative⟩ := sig
  unfold resolve at h ⊢
  dsimp only at h ⊢
  split at h
  · rename_i l
    split at h
    · rename_i hset
      exact .inl ⟨l, rfl, rfl, by simp [hset]⟩
    · cases h
  · rename_i v
    exact .inr (.inl ⟨v, rfl, rfl, rfl⟩)
  · rename_i timing v
    exact .inr (.inr (.inl ⟨timing, v, rfl, rfl, (Option.some.inj h).symm⟩))
  · rename_i op _
    split at h
    · obtain ⟨l, hl, rfl⟩ := Option.map_eq_some_iff.1 h
      exact .inr (.inr (.inr (.inl ⟨.now, op, l, rfl, hl, rfl⟩)))
    · cases h
  · rename_i op hcopy
    split at h
    · rename_i hset
      split at h
      · rename_i l hl
        obtain ⟨lits, hlits, hl'⟩ := Option.bind_eq_some_iff.1 hl
        refine .inr (.inr (.inr (.inr ⟨.later, op, lits, l, rfl, hlits, hl', ?_⟩)))
        simp [hset]
      · cases h
    · cases h
  · cases h

theorem read_of_constantFor (hp : s.pool.WellFormed) (h : (constantFor l s).1 = some rep)
    (hst : Stocked (constantFor l s).2.pool st) : st.read rep = some l := by
  obtain ⟨v, hv, rfl⟩ := Option.map_eq_some_iff.1 h
  obtain ⟨-, c, hc, hval⟩ := hp.getOrCreate_eq_some hv
  obtain ⟨l', hl', hread⟩ := hst v.name c hc
  obtain rfl := Operand.lit.inj (hval.symm.trans hl')
  exact hread

/-- What follows from a signature alone holds what the signature denotes. -/
theorem read_of_resolve (hm : mach.Obeys ctx.foreign) (hp : s.pool.WellFormed)
    (hden : sig.Denotes mach st l) (h : (resolve ctx sig s).1 = some rep)
    (hst : Stocked (resolve ctx sig s).2.pool st) : st.read rep = some l := by
  unfold Signature.Denotes Signature.keys at hden
  rcases resolve_eq_some h
    with ⟨l', hop, hin, heq⟩ | ⟨v, hop, hin, heq⟩ | ⟨timing, v, hop, hin, rfl⟩
    | ⟨timing, op, l', hop, hfold, rfl⟩ | ⟨timing, op, lits, l', hop, hlits, hfold, heq⟩
  · rw [hop, hin] at hden
    rw [heq] at h hst
    cases hden with
    | assign hl =>
      obtain rfl := Option.some.inj hl
      exact read_of_constantFor hp h hst
    | cell hc _ => exact absurd hc (Opcode.not_cell? rfl)
  · rw [hop, hin] at hden
    rw [heq] at h hst
    obtain ⟨l', rfl, hl'⟩ := Stocked.valueOf? hst h
    cases hden with
    | cell hc hl =>
      have : st.value v.name = some l := Option.bind_eq_some_iff.2 ⟨_, hc, hl⟩
      exact hl'.symm.trans this
  · rw [hop, hin] at hden
    cases hden with
    | builtin hxs hl =>
      cases Store.getAll_eq_some.1 hxs with
      | @cons _ x _ _ hx hnil =>
        cases hnil
        have hcopy := hm.folds .copy [x] x rfl
        exact hx.trans (hcopy.symm.trans hl)
    | cell hc _ => exact absurd hc (Opcode.not_cell? rfl)
  · obtain ⟨xs, hin, hfold⟩ := Builtin.foldOperands_eq_some hfold
    rw [hop, hin] at hden
    cases hden with
    | builtin hxs hl =>
      obtain rfl := Option.some.inj ((st.readAll_lits xs).symm.trans hxs)
      exact (hm.folds op xs l' hfold).symm.trans hl
    | cell hc _ => exact absurd hc (Opcode.not_cell? rfl)
  · obtain ⟨p, hpool, hgrows⟩ := resolve_snd ctx sig s
    have hst' : Stocked s.pool st := Stocked.of_grows (by rw [hpool] at hst; exact hst) hgrows
    obtain ⟨xs, rfl, hxs⟩ := hst'.readAll hlits
    obtain ⟨xs', hxs', hfold⟩ := Builtin.foldOperands_eq_some hfold
    have hinj : Function.Injective Operand.lit := fun _ _ h => Operand.lit.inj h
    obtain rfl := hinj.list_map hxs'
    rw [hop] at hden
    rw [heq] at h hst
    cases hden with
    | builtin hys hl =>
      obtain rfl := Option.some.inj (hxs.symm.trans hys)
      obtain rfl := Option.some.inj ((hm.folds op xs l' hfold).symm.trans hl)
      exact read_of_constantFor hp h hst
    | cell hc _ => exact absurd hc (Opcode.not_cell? rfl)

/-- **What is found for a signature holds what the signature denotes.** -/
theorem read_of_finds (hm : mach.Obeys ctx.foreign) (hp : s.pool.WellFormed)
    (hh : Holds mach own s.facts st) (hden : sig.Denotes mach st l) (hplain : sig.Plain own)
    (h : Finds ctx sig s rep) (hst : Stocked (resolve ctx sig s).2.pool st) :
    st.read rep = some l := by
  rcases h with h | ⟨-, h⟩
  · exact read_of_resolve hm hp hden h hst
  · obtain ⟨crossed, hfind⟩ := Congruence.find?_of_lookup h
    obtain ⟨-, l', hl', hall⟩ := hh.values sig rep crossed hfind hplain
    rw [hl', hall l hden]

end Finds

/-! ## What is entered -/

/-- **Entering values**: the facts hold, and the literals noted with new marks
are those that the marked variables hold. -/
structure Recorded (mach : Machine W) (own : String → Prop) (st : Store W) (s s' : State) :
    Prop where
  holds : Holds mach own s'.facts st
  marks : ∃ new, s'.marks.entries = new ++ s.marks.entries
    ∧ ∀ e ∈ new, ∀ a, e.2 = some a → ∃ l, a = .lit l ∧ st.value e.1.2 = some l

section Recorded

variable {V : Vocabulary} {ctx : Context} {block : Nat} {removable : Bool} {mach : Machine W}
  {own : String → Prop} {st : Store W} {s s' s'' : State}

theorem Recorded.of_facts (h : Holds mach own s'.facts st) (hm : s'.marks = s.marks) :
    Recorded mach own st s s' := ⟨h, [], by rw [hm, List.nil_append], fun _ h => nomatch h⟩

theorem Recorded.trans (h : Recorded mach own st s s') (h' : Recorded mach own st s' s'') :
    Recorded mach own st s s'' := by
  obtain ⟨new, hnew, hok⟩ := h.marks
  obtain ⟨new', hnew', hok'⟩ := h'.marks
  refine ⟨h'.holds, new' ++ new, by rw [hnew', hnew, List.append_assoc], fun e he => ?_⟩
  exact (List.mem_append.1 he).elim (hok' e) (hok e)

theorem recorded_bindOutput (hV : Suits V ctx) (hown : V.Owned own) (hm : mach.Obeys ctx.foreign)
    (hp : s.pool.WellFormed) (hh : Holds mach own s.facts st) {sig : Signature} {out : Var}
    {l : Literal} (htext : V.text out) (hsettled : sig.Settled st) (hplain : sig.Plain own)
    (hden : sig.Denotes mach st l) (hunique : ∀ l', sig.Denotes mach st l' → l' = l)
    (hout : own out.name → st.value out.name = some l)
    (hst : Stocked (bindOutput ctx block removable sig out s).pool st) :
    Recorded mach own st s (bindOutput ctx block removable sig out s) := by
  obtain ⟨p, hpool, -⟩ := resolve_snd ctx sig s
  have hmarks : (resolve ctx sig s).2.marks = s.marks := by rw [hpool]
  have hstable : ctx.aliases.isStable out = true → st.value out.name = some l := fun h =>
    hout (hown.keys out htext ((hV.stable out).2 h))
  rcases bindOutput_cases ctx block removable sig out s with
    heq | ⟨rep, hfinds, haccepts, hfacts, hpool', -, hmark⟩ | ⟨hstab, -, heq⟩
  · rw [heq]
    exact .of_facts (by rw [facts_resolve]; exact hh) hmarks
  · rw [hpool'] at hst
    have hrep := read_of_finds hm hp hh hden hplain hfinds hst
    have hvalue := hstable (accepts_eq_true haccepts).1
    refine ⟨hfacts ▸ hh.setCanonical hvalue hrep, ?_⟩
    rcases hmark with hmark | ⟨-, -, r, rfl, hmark⟩
    · exact ⟨[], by rw [hmark, List.nil_append], fun _ h => nomatch h⟩
    · refine ⟨[((block, out.name), (resolve ctx sig s).2.pool.valueOf? r)], by rw [hmark]; rfl, ?_⟩
      intro e he a ha
      obtain rfl := List.mem_singleton.1 he
      obtain ⟨l', rfl, hl'⟩ := hst.valueOf? ha
      exact ⟨l', rfl, hvalue.trans (hrep.symm.trans hl')⟩
  · rw [heq]
    refine .of_facts ?_ hmarks
    refine hh.record ctx.aliases fun _ => ⟨hsettled, l, hstable hstab, hunique⟩

theorem recorded_bindKnown (hh : Holds mach own s.facts st) {sig : Signature} {src : Operand}
    (hsig : sig.Plain own → sig.Settled st ∧ ∃ l, st.read src = some l
      ∧ ∀ l', sig.Denotes mach st l' → l' = l) :
    Recorded mach own st s (bindKnown ctx sig src s) := by
  rcases bindKnown_cases ctx sig src s with heq | ⟨-, -, heq⟩
  · rw [heq]
    exact .of_facts hh rfl
  · rw [heq]
    refine .of_facts (hh.record ctx.aliases fun hplain => ?_) rfl
    obtain ⟨hsettled, l, hl, hunique⟩ := hsig hplain
    exact ⟨hsettled, l, (hh.alike_canonicalOperand src).get.trans hl, hunique⟩

/-- **Entering one value.** -/
theorem recorded_bind (hV : Suits V ctx) (hown : V.Owned own) (hm : mach.Obeys ctx.foreign)
    (hw : WellFormed V s) (hp : s.pool.WellFormed) (hh : Holds mach own s.facts st)
    {value : Signature × Binding} (hvalue : Produced ctx.foreign mach own st value)
    (htext : ∀ out, value.2 = .output out → V.text out)
    (hst : Stocked (bind ctx block removable s value).pool st) :
    Recorded mach own st s (bind ctx block removable s value) := by
  obtain ⟨sig, binding⟩ := value
  have hlaw := hvalue.lawful
  have hplain := Congruence.plain_canonicalize hown hw.tidy hlaw
  have hden : ∀ l, (s.facts.canonicalize sig).Denotes mach st l ↔ sig.Denotes mach st l :=
    fun l => Holds.denotes_canonicalize hm hh hlaw
  cases binding with
  | output out =>
    have hsig := hvalue.plain out rfl
    obtain ⟨hsettled, l, hl, hout⟩ := hvalue.denotes hsig
    refine recorded_bindOutput hV hown hm hp hh (htext out rfl)
      (Holds.settled_canonicalize hh hlaw hsettled) (hplain.2 hsig) ((hden l).2 hl)
      (fun l' hl' => ?_) hout hst
    exact Opcode.Denotes.unique hm hlaw.deterministic ((hden l').1 hl') hl
  | known src =>
    refine recorded_bindKnown hh fun hsig => ?_
    obtain ⟨hsettled, l, hl, hsrc⟩ := hvalue.denotes (hplain.1 hsig)
    refine ⟨Holds.settled_canonicalize hh hlaw hsettled, l, hsrc, fun l' hl' => ?_⟩
    exact Opcode.Denotes.unique hm hlaw.deterministic ((hden l').1 hl') hl

/-- **Entering all values of an instruction.** -/
theorem recorded_foldl_bind (hV : Suits V ctx) (hown : V.Owned own) (hm : mach.Obeys ctx.foreign)
    (block : Nat) (removable : Bool) {values : List (Signature × Binding)}
    {s : State} (hw : WellFormed V s)
    (hp : (values.foldl (bind ctx block removable) s).pool.WellFormed)
    (hh : Holds mach own s.facts st)
    (hvalues : ∀ value ∈ values, Produced ctx.foreign mach own st value)
    (hnames : ∀ value ∈ values, value.1.All (V.Names s.facts.names)
      ∧ value.2.All (V.Names s.facts.names) ∧ ∀ out, value.2 = .output out → V.text out)
    (hst : Stocked (values.foldl (bind ctx block removable) s).pool st) :
    Recorded mach own st s (values.foldl (bind ctx block removable) s) := by
  induction values generalizing s with
  | nil => exact .of_facts hh rfl
  | cons value values ih =>
    obtain ⟨hvalue, hvalues⟩ := List.forall_mem_cons.1 hvalues
    obtain ⟨⟨hsig, hbinding, htext⟩, hnames⟩ := List.forall_mem_cons.1 hnames
    rw [List.foldl_cons] at hst hp ⊢
    have hn : Notes ctx block value.2.outs s (bind ctx block removable s value) :=
      notes_bind (List.Subset.refl _) s
    have hrest := notes_foldl_bind_outs ctx block removable
      values (bind ctx block removable s value)
    have hfirst := recorded_bind hV hown hm hw ((hn.pool.trans hrest.pool).wellFormed_before hp)
      hh hvalue htext
      (hst.of_grows hrest.pool)
    refine hfirst.trans
      (ih (wellFormed_bind hV hw hsig hbinding htext) hp hfirst.holds hvalues ?_ hst)
    rw [hn.level.names]
    exact hnames

end Recorded

end Numbering

end ValueFlow
