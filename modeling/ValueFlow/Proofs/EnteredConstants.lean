import ValueFlow.Proofs.ConstantMerging
import ValueFlow.Proofs.LeanerFacts

/-!
# Constants that are entered

A walk asks its pool for constants, and the pool makes those that it does not
have. Two things follow from the way it does so.

* Every constant that the facts of a walk speak of, and every constant that the
  walked tree mentions, is entered in the pool (`Backed`). Only constants that
  the text mentions without their being in the table stay out; their names are
  the *loose* ones.
* A walk in which the pool has all constants from the start, those included that
  would have been made on the way, is the same walk (`inStep_visitBlock`): it
  makes nothing, everything beside the pool is as before, and it settles as much.

The second point needs the first one. What the walk finds depends on the pool
where it asks what a constant holds, and a constant that is entered holds the
same in both pools.
-/

namespace ValueFlow

/-! ## Pools with more constants -/

namespace Pool

/-- **All constants of a pool are in another one**, under the same names. -/
def Within (p q : Pool) : Prop := ∀ name c, p.get? name = some c → q.get? name = some c

variable {p p' q : Pool} {loose : String → Prop} {v : Var}

theorem Within.trans (h : p.Within p') (h' : p'.Within q) : p.Within q :=
  fun name c hc => h' name c (h name c hc)

theorem Grows.within (h : p.Grows p') : p.Within p' := fun _ _ hc => h.get? hc

theorem getOrCreate_of_get? {l : Literal} {name : String} {c : Constant}
    (hname : Constant.nameFor? l = some name) (hc : q.get? name = some c) :
    q.getOrCreate l = (some c.var, q) := by
  obtain ⟨made, hmade⟩ := Constant.exists_make? hname .optimizer
  unfold getOrCreate
  rw [hname, hmade]
  unfold get? at hc
  simp only [hc]

/-- **Where the constant is there already, nothing is made, and the answer is
the same.** -/
theorem getOrCreate_of_within {l : Literal} (h : (p.getOrCreate l).2.Within q) :
    q.getOrCreate l = ((p.getOrCreate l).1, q) := by
  cases hname : Constant.nameFor? l with
  | none =>
    unfold getOrCreate
    rw [hname]
  | some name =>
    obtain ⟨made, hmade⟩ := Constant.exists_make? hname .optimizer
    obtain ⟨hname', -, -⟩ := Constant.make?_eq_some hmade
    obtain rfl : made.var.name = name := Option.some.inj (hname'.symm.trans hname)
    cases hget : p.get? made.var.name with
    | some c =>
      have heq : p.getOrCreate l = (some c.var, p) := getOrCreate_of_get? hname hget
      rw [heq] at h ⊢
      exact getOrCreate_of_get? hname (h _ c hget)
    | none =>
      have heq : p.getOrCreate l
          = (some made.var, { p with created := p.created.insert made }) := by
        unfold getOrCreate
        unfold get? at hget
        simp only [hname, hmade, hget]
      rw [heq] at h ⊢
      refine getOrCreate_of_get? hname (h _ made ?_)
      rw [get?_insert hget, if_pos rfl]

/-- The variable is no constant, or it is entered, or its name is one of some
loose ones. -/
def Grounds (p : Pool) (loose : String → Prop) (v : Var) : Prop :=
  v.isGlobalConst = true → (∃ c, p.get? v.name = some c) ∨ loose v.name

theorem Grounds.mono (h : p.Grounds loose v) (hp : p.Within p') : p'.Grounds loose v :=
  fun hv => (h hv).imp_left fun ⟨c, hc⟩ => ⟨c, hp _ c hc⟩

/-- The constants of the pool speak only of constants that are entered, loose
ones apart. -/
def Grounded (p : Pool) (loose : String → Prop) : Prop :=
  ∀ name c, p.get? name = some c → p.Grounds loose c.var ∧ c.value.All (p.Grounds loose)

/-- So do the constants of a pool that has grown, since new ones are entered
under their names. -/
theorem Grounded.grows (h : p.Grounded loose) (hp : p.Grows p') : p'.Grounded loose := by
  intro name c hc
  rcases hp.get?_eq_some hc with hold | ⟨l, hmade, rfl⟩
  · obtain ⟨hvar, hvalue⟩ := h name c hold
    exact ⟨hvar.mono hp.within, hvalue.mono fun _ hv => hv.mono hp.within⟩
  · obtain ⟨-, hvalue, -⟩ := Constant.make?_eq_some hmade
    rw [hvalue]
    exact ⟨fun _ => .inl ⟨c, hc⟩, trivial⟩

theorem Grounded.congr (h : p.Grounded loose) (hget : ∀ name, p.get? name = q.get? name) :
    q.Grounded loose := by
  have hwithin : p.Within q := fun name c hc => hget name ▸ hc
  intro name c hc
  obtain ⟨hvar, hvalue⟩ := h name c (hget name ▸ hc)
  exact ⟨hvar.mono hwithin, hvalue.mono fun _ hv => hv.mono hwithin⟩

/-- A constant holds the same in a pool with more constants, if that has none of
the loose ones. -/
theorem valueOf?_of_within (h : p.Within q) (hloose : ∀ n, loose n → q.get? n = none)
    (hv : p.Grounds loose v) : q.valueOf? v = p.valueOf? v := by
  by_cases hc : v.isGlobalConst = true
  · rw [valueOf?_eq hc, valueOf?_eq hc]
    rcases hv hc with ⟨c, hget⟩ | hl
    · rw [hget, h _ c hget]
    · have hnone : p.get? v.name = none :=
        Option.eq_none_iff_forall_ne_some.2 fun c hget => by
          have hsome := h _ c hget
          rw [hloose _ hl] at hsome
          cases hsome
      rw [hloose _ hl, hnone]
  · unfold valueOf?
    rw [if_neg hc, if_neg hc]

theorem literal?_of_within (h : p.Within q) (hloose : ∀ n, loose n → q.get? n = none) {a : Operand}
    (ha : a.All (p.Grounds loose)) : q.literal? a = p.literal? a := by
  cases a with
  | var v => exact valueOf?_of_within h hloose ha
  | lit l => rfl

end Pool

/-! ## Vocabularies with more words -/

namespace Vocabulary

/-- **One vocabulary is part of another one.** -/
structure Le (V V' : Vocabulary) : Prop where
  text : ∀ v, V.text v → V'.text v
  shared : ∀ v, V.shared v → V'.shared v
  stable : ∀ v, V.stable v → V'.stable v
  fixed : ∀ v, V.fixed v → V'.fixed v

variable {V V' : Vocabulary} {ns : List String}

theorem Le.names (h : V.Le V') {v : Var} (hv : V.Names ns v) : V'.Names ns v :=
  hv.imp (h.shared v) fun ht => ⟨h.text v ht.1, ht.2⟩

theorem Le.stands (h : V.Le V') {v : Var} (hv : V.Stands ns v) : V'.Stands ns v :=
  ⟨h.names hv.1, h.fixed v hv.2⟩

theorem Le.mentions (h : V.Le V') {s : Scope} (hs : V.Mentions ns s) : V'.Mentions ns s where
  canonical := hs.canonical.mono (fun v hv => ⟨h.names hv.1, h.text v hv.2.1, h.stable v hv.2.2⟩)
    fun _ => .mono fun _ => h.stands
  values := hs.values.mono (fun _ => .mono fun _ => h.names)
    fun _ hb a ha => (hb a ha).mono fun _ => h.stands
  closed := hs.closed.mono (fun _ => h.names) fun _ => id

/-- Scopes stay tidy when more may be mentioned. -/
theorem Le.tidy (h : V.Le V') {scopes : List Scope} (hs : V.Tidy scopes) : V'.Tidy scopes := by
  induction scopes with
  | nil => trivial
  | cons s rest ih => exact ⟨h.mentions hs.1, ih hs.2⟩

end Vocabulary

namespace Numbering

/-! ## Backed states -/

section Backed

variable {ctx : Context} {loose : String → Prop} {p p' : Pool} {s : State}

/-- Facts may mention constants that are entered, and loose ones. -/
def backed (aliases : AliasMap) (loose : String → Prop) (p : Pool) : Vocabulary :=
  .over aliases (p.Grounds loose) (p.Grounds loose) fun _ h _ => h

theorem matches_backed (ctx : Context) (loose : String → Prop) (p : Pool) :
    Matches (backed ctx.aliases loose p) ctx := .over _

theorem names_backed {aliases : AliasMap} {names : List String} {v : Var} :
    (backed aliases loose p).Names names v ↔ p.Grounds loose v :=
  ⟨fun h => h.elim id And.left, .inl⟩

theorem backed_le (aliases : AliasMap) (h : p.Within p') :
    (backed aliases loose p).Le (backed aliases loose p') where
  text _ hv := hv.mono h
  shared _ hv := hv.mono h
  stable _ := id
  fixed _ := id

/-- **Every constant that the state speaks of is entered in its pool**, loose
ones apart. -/
def Backed (ctx : Context) (loose : String → Prop) (s : State) : Prop :=
  WellFormed (backed ctx.aliases loose s.pool) s

theorem Backed.grounded (h : Backed ctx loose s) : s.pool.Grounded loose := h.constants

theorem Backed.tidy_of_grows (h : Backed ctx loose s) (hp : s.pool.Grows p') :
    (backed ctx.aliases loose p').Tidy s.facts.scopes :=
  (backed_le ctx.aliases hp.within).tidy h.tidy

/-- **The visit of an instruction** keeps the state backed, and the instruction
that it leaves mentions only constants that are entered behind it. -/
theorem Backed.visitInstruction {block : Nat} {i : Instruction} (h : Backed ctx loose s)
    (hi : i.All (s.pool.Grounds loose)) (hf : (visitInstruction ctx block i s).fault = none) :
    Backed ctx loose (visitInstruction ctx block i s).state
      ∧ (visitInstruction ctx block i s).tree.All
        ((visitInstruction ctx block i s).state.pool.Grounds loose) := by
  have hgrows := (marks_visitInstruction hf).1
  have hp := h.grounded.grows hgrows
  have hi' : i.All (backed ctx.aliases loose
      (Numbering.visitInstruction ctx block i s).state.pool).text :=
    ⟨fun r hr => (hi.1 r hr).mono fun _ hv => hv.mono hgrows.within,
      fun v hv => (hi.2 v hv).mono hgrows.within⟩
  obtain ⟨htidy, hnames⟩ :=
    tidy_visitInstruction (matches_backed ctx loose _) (h.tidy_of_grows hgrows) hi' hf hp
  exact ⟨⟨htidy, hp⟩, fun r hr => (hnames.1 r hr).mono fun _ hv => names_backed.1 hv,
    fun v hv => names_backed.1 (hnames.2 v hv)⟩

/-- Taking note of a value keeps the state backed. -/
theorem Backed.bind {block : Nat} {removable : Bool} {value : Signature × Binding}
    (h : Backed ctx loose s) (hsig : value.1.All (s.pool.Grounds loose))
    (hbinding : value.2.All (s.pool.Grounds loose)) :
    Backed ctx loose (bind ctx block removable s value) := by
  have hnotes : Notes ctx block value.2.outs s (Numbering.bind ctx block removable s value) :=
    notes_bind (List.Subset.refl _) s
  have hp := h.grounded.grows hnotes.pool
  have hmono : ∀ v, s.pool.Grounds loose v →
      (Numbering.bind ctx block removable s value).pool.Grounds loose v :=
      fun _ hv => hv.mono hnotes.pool.within
  refine ⟨tidy_bind (matches_backed ctx loose _) (h.tidy_of_grows hnotes.pool) hp
    (hsig.mono fun v hv => names_backed.2 (hmono v hv))
    (hbinding.mono fun v hv => names_backed.2 (hmono v hv)) ?_, hp⟩
  intro out hout
  rw [hout] at hbinding
  exact hmono out hbinding

end Backed

/-! ## The same walk with another pool -/

/-- The state with another pool. -/
abbrev State.withPool (s : State) (q : Pool) : State := { s with pool := q }

/-- The walk with another pool at its end. -/
def Visit.withPool {α : Type} (v : Visit α) (q : Pool) : Visit α :=
  ⟨v.tree, v.state.withPool q, v.fault⟩

theorem mapM_congr_of_mem {α β : Type} {f g : α → Option β} {xs : List α}
    (h : ∀ x ∈ xs, f x = g x) : xs.mapM f = xs.mapM g := by
  induction xs with
  | nil => rfl
  | cons x xs ih =>
    obtain ⟨hx, hxs⟩ := List.forall_mem_cons.1 h
    rw [List.mapM_cons, List.mapM_cons, hx, ih hxs]

section Instructions

variable {ctx : Context} {loose : String → Prop} {s : State} {q : Pool} {sig : Signature}

theorem substitute_withPool (i : Instruction) (s : State) (q : Pool) :
    substitute i (s.withPool q) = ((substitute i s).1, (substitute i s).2.withPool q) := by
  unfold substitute
  by_cases hn : countReplaced s.facts i.replaceable = 0
  · simp only [if_pos hn]
  · simp only [if_neg hn]
    rfl

theorem write_withPool (s : State) (q : Pool) (target : Var × List Step) :
    write ctx (s.withPool q) target = (write ctx s target).withPool q := by
  unfold write
  cases ctx.aliases.written? target.1 target.2 with
  | none => rfl
  | some l =>
    by_cases hn : 0 < (s.facts.invalidate ctx.aliases l).1
    · simp only [if_pos hn]
      rfl
    · simp only [if_neg hn]

theorem foldl_write_withPool (targets : List (Var × List Step)) (s : State) (q : Pool) :
    targets.foldl (write ctx) (s.withPool q) = (targets.foldl (write ctx) s).withPool q := by
  induction targets generalizing s with
  | nil => rfl
  | cons target targets ih => rw [List.foldl_cons, List.foldl_cons, write_withPool, ih]

theorem carriedOut_withPool (i : Instruction) (facts : Congruence) (s : State) (q : Pool) :
    carriedOut ctx i facts (s.withPool q) = (carriedOut ctx i facts s).withPool q := by
  unfold carriedOut
  rw [substitute_withPool]
  exact foldl_write_withPool i.writes { (substitute i s).2 with facts } q

theorem constantFor_withPool {l : Literal} (h : (constantFor l s).2.pool.Within q) :
    constantFor l (s.withPool q) = ((constantFor l s).1, (constantFor l s).2.withPool q) := by
  show ((q.getOrCreate l).1.map Operand.var, { s with pool := (q.getOrCreate l).2 }) = _
  rw [Pool.getOrCreate_of_within h]
  rfl

/-- What a signature alone tells is the same with all constants in the pool. -/
theorem resolve_withPool (hloose : ∀ n, loose n → q.get? n = none)
    (hsig : sig.All (s.pool.Grounds loose)) (h : (resolve ctx sig s).2.pool.Within q) :
    resolve ctx sig (s.withPool q) = ((resolve ctx sig s).1, (resolve ctx sig s).2.withPool q) := by
  obtain ⟨p, hp, hgrows⟩ := resolve_snd ctx sig s
  have hs : s.pool.Within q := by
    rw [hp] at h
    exact hgrows.within.trans h
  revert h
  unfold resolve
  split
  · intro h
    split
    · rename_i hshared
      rw [if_pos hshared] at h
      exact constantFor_withPool h
    · rfl
  · rename_i v _ hinputs
    intro _
    have hv : s.pool.Grounds loose v :=
      hsig (.var v) (by rw [hinputs]; exact List.mem_singleton_self _)
    rw [show (s.withPool q).pool = q from rfl, Pool.valueOf?_of_within hs hloose hv]
  · exact fun _ => rfl
  · exact fun _ => rfl
  · intro h
    have hmap : sig.inputs.mapM (s.withPool q).pool.literal? = sig.inputs.mapM s.pool.literal? :=
      mapM_congr_of_mem fun a ha => Pool.literal?_of_within hs hloose (hsig a ha)
    rw [hmap]
    split
    · rename_i hfold
      rw [if_pos hfold] at h
      split
      · rename_i l hl
        rw [hl] at h
        exact constantFor_withPool h
      · rfl
    · rfl
  · exact fun _ => rfl

theorem markRedundant_withPool (hloose : ∀ n, loose n → q.get? n = none) (hs : s.pool.Within q)
    (block : Nat) (out : Var) {rep : Operand} (hrep : rep.All (s.pool.Grounds loose)) :
    markRedundant block out rep (s.withPool q) = (markRedundant block out rep s).withPool q := by
  cases rep with
  | lit l => rfl
  | var r =>
    show { s.withPool q with marks := s.marks.add block out (q.valueOf? r) } = _
    rw [Pool.valueOf?_of_within hs hloose hrep]
    rfl

theorem pool_bindOutput (block : Nat) (removable : Bool) (sig : Signature) (out : Var) (s : State) :
    (bindOutput ctx block removable sig out s).pool = (resolve ctx sig s).2.pool := by
  rcases bindOutput_cases ctx block removable sig out s
    with heq | ⟨_, -, -, -, hpool, -⟩ | ⟨-, -, heq⟩
  · rw [heq]
  · exact hpool
  · rw [heq]

theorem bindOutput_withPool (hloose : ∀ n, loose n → q.get? n = none) (block : Nat)
    (removable : Bool) (out : Var) (hs : Backed ctx loose s)
    (hsig : sig.All (s.pool.Grounds loose))
    (h : (bindOutput ctx block removable sig out s).pool.Within q) :
    bindOutput ctx block removable sig out (s.withPool q)
      = (bindOutput ctx block removable sig out s).withPool q := by
  rw [pool_bindOutput] at h
  obtain ⟨p, hp, hgrows⟩ := resolve_snd ctx sig s
  have hgrounds : ∀ rep, Finds ctx sig s rep →
      rep.All ((resolve ctx sig s).2.pool.Grounds loose) := by
    intro rep hrep
    have hpool : s.pool.Grows (resolve ctx sig s).2.pool := by rw [hp]; exact hgrows
    have hall := names_of_finds (hs.tidy_of_grows hpool) (hs.grounded.grows hpool)
      (hsig.mono fun _ hv => names_backed.2 (hv.mono hpool.within)) hrep
    exact hall.mono fun _ hv => names_backed.1 hv
  unfold bindOutput
  rw [resolve_withPool hloose hsig h]
  simp only [facts_resolve]
  split
  · rename_i rep hrep
    have hmark := markRedundant_withPool (s := (resolve ctx sig s).2.emit (.equated out rep))
      hloose h block out
      (hgrounds rep (Option.or_eq_some_iff.1 hrep))
    split
    · rfl
    · split
      · rw [show ((resolve ctx sig s).2.withPool q).emit (.equated out rep)
          = ((resolve ctx sig s).2.emit (.equated out rep)).withPool q from rfl, hmark]
      · rfl
  · split <;> rfl

theorem bind_withPool (hloose : ∀ n, loose n → q.get? n = none) (block : Nat) (removable : Bool)
    {value : Signature × Binding} (hs : Backed ctx loose s)
    (hsig : value.1.All (s.pool.Grounds loose))
    (h : (bind ctx block removable s value).pool.Within q) :
    bind ctx block removable (s.withPool q) value
      = (bind ctx block removable s value).withPool q := by
  obtain ⟨sig, binding⟩ := value
  cases binding with
  | output out =>
    have hsig' := Congruence.names_canonicalize hs.tidy (hsig.mono fun _ hv => names_backed.2 hv)
    exact bindOutput_withPool hloose block removable out
      hs (hsig'.mono fun _ hv => names_backed.1 hv) h
  | known src =>
    show bindKnown ctx (s.facts.canonicalize sig) src (s.withPool q)
      = (bindKnown ctx (s.facts.canonicalize sig) src s).withPool q
    unfold bindKnown
    by_cases hn : (isUsable ctx.aliases (s.facts.canonicalOperand src)
        && (s.facts.lookup ctx.aliases ctx.writes (s.facts.canonicalize sig)).isNone) = true
    · simp only [if_pos hn]
    · simp only [if_neg hn]

theorem foldl_bind_withPool (hloose : ∀ n, loose n → q.get? n = none) (block : Nat)
    (removable : Bool) {values : List (Signature × Binding)} (hs : Backed ctx loose s)
    (hvalues : ∀ value ∈ values, value.1.All (s.pool.Grounds loose)
      ∧ value.2.All (s.pool.Grounds loose))
    (h : (values.foldl (bind ctx block removable) s).pool.Within q) :
    values.foldl (bind ctx block removable) (s.withPool q)
      = (values.foldl (bind ctx block removable) s).withPool q := by
  induction values generalizing s with
  | nil => rfl
  | cons value values ih =>
    obtain ⟨⟨hsig, hbinding⟩, hvalues⟩ := List.forall_mem_cons.1 hvalues
    have hfirst : Notes ctx block value.2.outs s (bind ctx block removable s value) :=
      notes_bind (List.Subset.refl _) s
    have hrest := notes_foldl_bind_outs ctx block removable
      values (bind ctx block removable s value)
    rw [List.foldl_cons, List.foldl_cons,
      bind_withPool hloose block removable hs hsig (hrest.pool.within.trans h)]
    refine ih (hs.bind hsig hbinding) (fun value' hv => ?_) h
    exact ⟨(hvalues value' hv).1.mono fun _ hg => hg.mono hfirst.pool.within,
      (hvalues value' hv).2.mono fun _ hg => hg.mono hfirst.pool.within⟩

theorem foldIf_withPool (block : Nat) (i : Instruction) (s : State) (q : Pool) :
    foldIf ctx block i (s.withPool q)
      = ((foldIf ctx block i s).1, (foldIf ctx block i s).2.withPool q) := by
  unfold foldIf
  by_cases hc : ctx.settings.constantFold = true
  · simp only [if_pos hc]
    unfold fold
    split
    · rfl
    · rename_i dst _
      simp only
      split
      · rename_i l _
        by_cases hsame : i.same (.compute .now .copy dst [.lit l]) = true
        · by_cases hout : dst.definition ≠ .outArg
          · simp only [if_pos hsame, if_pos hout]
          · simp only [if_pos hsame, if_neg hout]
        · by_cases hout : dst.definition ≠ .outArg
          · simp only [if_neg hsame, if_pos hout]
            rfl
          · simp only [if_neg hsame, if_neg hout]
            rfl
      · rfl
  · simp only [if_neg hc]

/-- **The visit of an instruction** is the same with all constants in the pool. -/
theorem visitInstruction_withPool (hloose : ∀ n, loose n → q.get? n = none) {block : Nat}
    {i : Instruction} (hs : Backed ctx loose s) (hi : i.All (s.pool.Grounds loose))
    (hf : (visitInstruction ctx block i s).fault = none)
    (h : (visitInstruction ctx block i s).state.pool.Within q) :
    visitInstruction ctx block i (s.withPool q) = (visitInstruction ctx block i s).withPool q := by
  have hf' : (visitInstruction ctx block i (s.withPool q)).fault = none := by
    rw [fault_visitInstruction] at hf ⊢
    exact hf
  obtain ⟨facts, removable, values, hknown, hdefine, hremovable, hvalues, heq⟩ :=
    visitInstruction_cases hf
  obtain ⟨facts', removable', values', -, hdefine', hremovable', hvalues', heq'⟩ :=
    visitInstruction_cases hf'
  obtain rfl : facts' = facts := Except.ok.inj (hdefine'.symm.trans hdefine)
  obtain rfl : removable' = removable := Except.ok.inj (hremovable'.symm.trans hremovable)
  obtain rfl : values' = values := Except.ok.inj (hvalues'.symm.trans hvalues)
  let s₂ := carriedOut ctx i facts' s
  have hpool₂ : s₂.pool = s.pool := (carriedOut_phases ctx i facts' s).2.1
  have hs₂ : Backed ctx loose s₂ := by
    unfold Backed
    rw [hpool₂]
    exact wellFormed_carriedOut hs hdefine
  have hgrounds : ∀ value ∈ values', value.1.All (s₂.pool.Grounds loose)
      ∧ value.2.All (s₂.pool.Grounds loose) := by
    intro value hvalue
    obtain ⟨hsig, hbinding, -⟩ :=
      @names_values ctx _ _ _ _ _ hs.tidy hi hknown hdefine hvalues value hvalue
    rw [hpool₂]
    exact ⟨hsig.mono fun _ hv => names_backed.1 hv, hbinding.mono fun _ hv => names_backed.1 hv⟩
  have hpool₃ : (visitInstruction ctx block i s).state.pool
      = (values'.foldl (bind ctx block removable') s₂).pool := by
    rw [heq]
    exact (foldIf_cases ctx block _ _).2.1
  rw [hpool₃] at h
  rw [heq, heq', carriedOut_withPool, foldl_bind_withPool hloose block removable' hs₂ hgrounds h]
  simp only [foldIf_withPool]
  rfl

end Instructions

/-! ### Entering and leaving blocks -/

section Scopes

variable {ctx : Context} {loose : String → Prop} {s : State}

theorem foldl_emit_withPool (events : Var → Event) (vars : List Var) (s : State) (q : Pool) :
    vars.foldl (fun s v => s.emit (events v)) (s.withPool q)
      = (vars.foldl (fun s v => s.emit (events v)) s).withPool q := by
  induction vars generalizing s with
  | nil => rfl
  | cons v vars ih => exact ih (s.emit (events v))

theorem governed_withPool (c : Continuation) (s : State) (q : Pool) :
    governed c (s.withPool q) = (governed c s).withPool q := by
  cases c <;> rfl

theorem enterDeferred_withPool (trigger : Trigger) (s : State) (q : Pool) :
    enterDeferred ctx trigger (s.withPool q) = (enterDeferred ctx trigger s).withPool q := by
  cases trigger with
  | wait vars target mode =>
    unfold enterDeferred
    by_cases hprune : ctx.settings.pruneWaits = true
    · simp only [if_pos hprune, pruneWaits, foldl_emit_withPool]
      rfl
    · simp only [if_neg hprune]
      rfl
  | range index start stop step =>
    unfold enterDeferred
    simp only [substituteOperand, State.replaced, State.push]
    split <;> rfl
  | foreach array member => rfl

theorem leave_withPool (merge : Congruence → Scope → Congruence) (v : Visit Block) (q : Pool) :
    leave merge (v.withPool q) = (leave merge v).withPool q := by
  obtain ⟨tree, state, fault⟩ := v
  cases fault with
  | some e => rfl
  | none =>
    simp only [leave, Visit.andThen, Visit.withPool, State.withPool]
    cases state.facts.pop <;> rfl

theorem leaveArm_withPool (v : Visit Block) (q : Pool) :
    leaveArm (v.withPool q) = (leaveArm v).withPool q := by
  obtain ⟨tree, state, fault⟩ := v
  cases fault with
  | some e => rfl
  | none =>
    simp only [leaveArm, Visit.andThen, Visit.withPool, State.withPool]
    cases state.facts.pop <;> rfl

/-- A state stays backed when its pool grows and its facts stay. -/
theorem Backed.of_grows {s' : State} (h : Backed ctx loose s) (h' : Backed ctx loose s')
    (hp : s.pool.Grows s'.pool) :
    Backed ctx loose { s' with facts := s.facts } := ⟨h.tidy_of_grows hp, h'.constants⟩

theorem Backed.push (h : Backed ctx loose s) (kind : ScopeKind) : Backed ctx loose (s.push kind) :=
  WellFormed.push h kind

theorem Backed.of_quiet {s' : State} (h : Backed ctx loose s) (hq : Quiet s s') :
    Backed ctx loose s' := by
  unfold Backed
  rw [hq.pool]
  exact WellFormed.of_quiet h hq

theorem Backed.enterDeferred {trigger : Trigger} (h : Backed ctx loose s)
    (ht : ∀ v ∈ trigger.occurrences, s.pool.Grounds loose v)
    (hknown : ∀ v ∈ trigger.reads.filterMap Operand.var?, s.knows v = true)
    (hf : (enterDeferred ctx trigger s).fault = none) :
    Backed ctx loose (enterDeferred ctx trigger s).state := by
  unfold Backed
  rw [pool_enterDeferred]
  exact wellFormed_enterDeferred h ht hknown hf

/-- An operand that is replaced still mentions only constants that are entered. -/
theorem Backed.replace {a : Operand} (role : Role) (h : Backed ctx loose s)
    (ha : a.All (s.pool.Grounds loose)) : (replace s.facts role a).All (s.pool.Grounds loose) :=
  (names_replace h.tidy (ha.mono fun _ hv => names_backed.2 hv)).mono fun _ hv => names_backed.1 hv

/-- So does a trigger behind the visit. -/
theorem Backed.enterDeferred_tree {trigger : Trigger} (h : Backed ctx loose s)
    (ht : ∀ v ∈ trigger.occurrences, s.pool.Grounds loose v)
    (hf : (Numbering.enterDeferred ctx trigger s).fault = none) :
    ∀ v ∈ (Numbering.enterDeferred ctx trigger s).tree.occurrences, s.pool.Grounds loose v := by
  refine forall_occurrences_enterDeferred hf ht
    fun a ha => h.replace .value (Operand.all_iff.2 fun v hv => ?_)
  exact ht v (Trigger.mem_occurrences.2 (.inr ⟨a, ha, hv⟩))

end Scopes

/-! ### The induction over the tree -/

/-- **A walk that starts from a backed state**: it ends in one, and the tree
that it leaves mentions only constants that are entered behind it. If it starts
with all constants that it ends with, or more, it is the same walk, and it
settles the same. -/
structure InStep {α : Type} (ctx : Context) (loose : String → Prop) (occurrences : α → List Var)
    (settles : State → Bool) (walk : State → Visit α) (s : State) : Prop where
  grows : s.pool.Grows (walk s).state.pool
  backed : Backed ctx loose (walk s).state
  mentions : ∀ v ∈ occurrences (walk s).tree, (walk s).state.pool.Grounds loose v
  same : ∀ q, (∀ n, loose n → q.get? n = none) → (walk s).state.pool.Within q →
    walk (s.withPool q) = (walk s).withPool q ∧ settles (s.withPool q) = settles s

/-- A walk over arms leaves the facts as they were, and keeps the scopes of the
arms. -/
structure ArmsInStep {α : Type} (ctx : Context) (loose : String → Prop)
    (occurrences : α → List Var) (scopes : α → List Scope) (settles : State → Bool)
    (walk : State → Visit α) (s : State) : Prop extends
    InStep ctx loose occurrences settles walk s where
  facts : (walk s).state.facts = s.facts
  tidy : ∀ arm ∈ scopes (walk s).tree,
    (Numbering.backed ctx.aliases loose (walk s).state.pool).Tidy (arm :: s.facts.scopes)

section Tree

variable {ctx : Context} {loose : String → Prop}

/-- Text that mentions only entered constants still does when the pool has grown. -/
theorem grounds_of_grows {vars : List Var} {p p' : Pool} (h : ∀ v ∈ vars, p.Grounds loose v)
    (hp : p.Grows p') :
    ∀ v ∈ vars, p'.Grounds loose v := fun v hv => (h v hv).mono hp.within

section Steps

variable {α : Type} {occurrences : α → List Var} {scopes : α → List Scope} {settles : State → Bool}
  {walk : State → Visit α} {s : State}

/-- A walk whose outcome is known. -/
theorem InStep.of_eq {v : Visit α} (heq : walk s = v) (hgrows : s.pool.Grows v.state.pool)
    (hbacked : Backed ctx loose v.state)
    (hmentions : ∀ w ∈ occurrences v.tree, v.state.pool.Grounds loose w)
    (hsame : ∀ q, (∀ n, loose n → q.get? n = none) → v.state.pool.Within q →
      walk (s.withPool q) = v.withPool q ∧ settles (s.withPool q) = settles s) :
    InStep ctx loose occurrences settles walk s := by
  subst heq
  exact ⟨hgrows, hbacked, hmentions, hsame⟩

theorem inStep_visitInstruction {block : Nat} {i : Instruction} (hs : Backed ctx loose s)
    (hi : ∀ v ∈ i.readVars ++ i.outputs, s.pool.Grounds loose v)
    (hf : (visitInstruction ctx block i s).fault = none) :
    InStep ctx loose (fun i => i.readVars ++ i.outputs)
      (fun s => tellsRepresentatives ctx.settings i s.facts
        (visitInstruction ctx block i s).state.facts)
      (visitInstruction ctx block i) s := by
  have hall := Instruction.all_iff.2 hi
  refine ⟨(marks_visitInstruction hf).1, (hs.visitInstruction hall hf).1,
    Instruction.all_iff.1 (hs.visitInstruction hall hf).2, fun q hloose hq => ?_⟩
  have hsame := visitInstruction_withPool hloose hs hall hf hq
  refine ⟨hsame, ?_⟩
  rw [hsame]
  rfl

/-- A part of a body is walked, and then the rest of the body. -/
theorem InStep.andThen (build : α → Body → Body)
    (hbuild : ∀ a b, (build a b).occurrences = occurrences a ++ b.occurrences)
    {block : Nat} {rest : Body}
    (h : InStep ctx loose occurrences settles walk s) (hf : (walk s).fault = none)
    (hrest : InStep ctx loose Body.occurrences (settlesBody ctx block rest)
      (visitBody ctx block rest)
      (walk s).state) :
    InStep ctx loose Body.occurrences
      (fun s => s.facts.isShort && settles s && settlesBody ctx block rest (walk s).state)
      (fun s => (walk s).andThen (build · rest)
        fun a s => (visitBody ctx block rest s).map (build a)) s := by
  have heq : ((walk s).andThen (build · rest) fun a s => (visitBody ctx block rest s).map (build a))
      = (visitBody ctx block rest (walk s).state).map (build (walk s).tree) := by
    unfold Visit.andThen
    rw [hf]
  refine .of_eq heq (h.grows.trans hrest.grows) hrest.backed ?_ fun q hloose hq => ?_
  · rw [Visit.map, hbuild, List.forall_mem_append]
    exact ⟨grounds_of_grows h.mentions hrest.grows, hrest.mentions⟩
  · obtain ⟨hfirst, hfirst'⟩ := h.same q hloose (hrest.grows.within.trans hq)
    obtain ⟨hlast, hlast'⟩ := hrest.same q hloose hq
    rw [hfirst, hfirst']
    unfold Visit.withPool Visit.andThen
    simp only [hf]
    rw [hlast, hlast']
    exact ⟨rfl, rfl⟩

/-- A block that is walked as an arm. -/
theorem InStep.leaveArm {b : Block} (hs : Backed ctx loose s)
    (h : InStep ctx loose Block.occurrences (settlesBlock ctx b)
      (visitBlock ctx b) (s.push .branch))
    (hf : (leaveArm (visitBlock ctx b (s.push .branch))).fault = none) :
    ArmsInStep ctx loose (·.1.occurrences) (fun r => [r.2])
      (fun s => settlesBlock ctx b (s.push .branch))
      (fun s => Numbering.leaveArm (visitBlock ctx b (s.push .branch))) s := by
  have ho := outer_visitBlock (leaveArm_fault hf)
  have heq := leaveArm_eq (leaveArm_fault hf) ho
  refine ⟨.of_eq heq h.grows (hs.of_grows h.backed h.grows) h.mentions
    fun q hloose hq => ?_, ?_, fun arm harm => ?_⟩
  · obtain ⟨hsame, hsettles⟩ := h.same q hloose hq
    refine ⟨?_, hsettles⟩
    show Numbering.leaveArm (visitBlock ctx b ((s.push .branch).withPool q)) = _
    rw [hsame, leaveArm_withPool, heq]
  · rw [heq]
  · rw [heq] at harm ⊢
    obtain rfl := List.mem_singleton.1 harm
    rw [← ho]
    exact h.backed.tidy

/-- Combining the arms keeps the state backed. -/
theorem ArmsInStep.mergeArms (h : ArmsInStep ctx loose occurrences scopes settles walk s)
    {arms : List Scope}
    (harms : ∀ arm ∈ arms, (backed ctx.aliases loose (walk s).state.pool).Tidy
      (arm :: s.facts.scopes)) :
    Backed ctx loose (mergeArms ctx arms (walk s).state) :=
  ⟨Congruence.tidy_mergeBranches h.backed.tidy ctx.aliases ctx.settings.branchMerge
    fun arm harm => h.facts ▸ harms arm harm, h.backed.constants⟩

/-- A block is walked in a scope of its own that is left again. -/
theorem InStep.leave {b : Block} {merge : Congruence → Scope → Congruence} (enter : State → State)
    (h : InStep ctx loose Block.occurrences (settlesBlock ctx b) (visitBlock ctx b) (enter s))
    (hpool : (enter s).pool = s.pool) (henter : ∀ q, enter (s.withPool q) = (enter s).withPool q)
    (ho : (enter s).facts.outer = s.facts.scopes)
    (hf : (leave merge (visitBlock ctx b (enter s))).fault = none)
    (hmerge : ∀ p child, (Numbering.backed ctx.aliases loose p).Tidy (child :: s.facts.scopes) →
      (Numbering.backed ctx.aliases loose p).Tidy (merge s.facts child).scopes) :
    InStep ctx loose Block.occurrences (fun s => settlesBlock ctx b (enter s))
      (fun s => Numbering.leave merge (visitBlock ctx b (enter s))) s := by
  have ho' : (visitBlock ctx b (enter s)).state.facts.outer = s.facts.scopes :=
    outer_of_assigns ho (assigns_visitBlock b _ (leave_fault hf))
  have heq : Numbering.leave merge (visitBlock ctx b (enter s)) = ⟨_, _, none⟩ :=
    leave_eq (leave_fault hf) ho'
  refine .of_eq heq (hpool ▸ h.grows) ⟨hmerge _ _ ?_, h.backed.constants⟩ h.mentions
    fun q hloose hq => ?_
  · rw [← ho']
    exact h.backed.tidy
  · obtain ⟨hsame, hsettles⟩ := h.same q hloose hq
    rw [henter, hsame, leave_withPool, heq]
    exact ⟨rfl, hsettles⟩

end Steps

theorem visitContinuation_withPool_fault {c : Continuation} {s : State}
    (hf : (visitContinuation ctx c s).fault = none) (q : Pool) :
    (visitContinuation ctx c (s.withPool q)).fault = none := by
  rw [fault_visitContinuation] at hf ⊢
  exact hf

mutual
/-- **The walk over a block** that mentions only entered constants. -/
theorem inStep_visitBlock : ∀ (b : Block) (s : State), Backed ctx loose s →
    (∀ v ∈ b.occurrences, s.pool.Grounds loose v) → (visitBlock ctx b s).fault = none →
    InStep ctx loose Block.occurrences (settlesBlock ctx b) (visitBlock ctx b) s
  | .mk vars body, s, hs, hb, hf => by
    rw [Block.occurrences, List.forall_mem_append] at hb
    rw [visitBlock_eq] at hf
    have h := inStep_visitBody s.nextBlock body (enterBlock vars s)
      (WellFormed.enterBlock hs vars) hb.2 hf
    refine .of_eq (visitBlock_eq ..) h.grows h.backed ?_ fun q hloose hq => ?_
    · rw [Visit.map, Block.occurrences, List.forall_mem_append]
      exact ⟨grounds_of_grows hb.1 h.grows, h.mentions⟩
    · obtain ⟨hsame, hsettles⟩ := h.same q hloose hq
      exact ⟨(visitBlock_eq ..).trans (congrArg (Visit.map _) hsame), hsettles⟩
theorem inStep_visitBody (block : Nat) : ∀ (b : Body) (s : State), Backed ctx loose s →
    (∀ v ∈ b.occurrences, s.pool.Grounds loose v) → (visitBody ctx block b s).fault = none →
    InStep ctx loose Body.occurrences (settlesBody ctx block b) (visitBody ctx block b) s
  | .done, s, hs, _, _ => by
    rw [show visitBody ctx block .done = _ from funext fun s => by rw [visitBody]]
    refine ⟨.refl _, hs, ?_, fun q _ _ => ⟨rfl, rfl⟩⟩
    rw [Body.occurrences]
    exact List.forall_mem_nil _
  | .instr i rest, s, hs, hb, hf => by
    rw [Body.occurrences, List.forall_mem_append] at hb
    rw [visitBody] at hf
    obtain ⟨hf₁, heq⟩ := andThen_fault hf
    rw [heq] at hf
    have hi := inStep_visitInstruction hs hb.1 hf₁
    have hrest := inStep_visitBody block rest _ hi.backed (grounds_of_grows hb.2 hi.grows) hf
    rw [show visitBody ctx block (.instr i rest) = _ from funext fun s => by rw [visitBody]]
    exact hi.andThen Body.instr (fun j b => by rw [Body.occurrences]) hf₁ hrest
  | .cont c rest, s, hs, hb, hf => by
    rw [Body.occurrences, List.forall_mem_append] at hb
    rw [visitBody] at hf
    obtain ⟨hf₁, heq⟩ := andThen_fault hf
    rw [heq] at hf
    have hc := inStep_visitContinuation c s hs hb.1 hf₁
    have hrest := inStep_visitBody block rest _ hc.backed (grounds_of_grows hb.2 hc.grows) hf
    rw [show visitBody ctx block (.cont c rest) = _ from funext fun s => by rw [visitBody]]
    exact hc.andThen Body.cont (fun j b => by rw [Body.occurrences]) hf₁ hrest
theorem inStep_visitContinuation : ∀ (c : Continuation) (s : State), Backed ctx loose s →
    (∀ v ∈ c.occurrences, s.pool.Grounds loose v) → (visitContinuation ctx c s).fault = none →
    InStep ctx loose Continuation.occurrences (fun s => settlesContinuation ctx c (governed c s))
      (visitContinuation ctx c) s
  | .ifElse condition t e, s, hs, hc, hf => by
    rw [Continuation.occurrences, List.forall_mem_append, List.forall_mem_append] at hc
    obtain ⟨hf₁, hf₂, heq⟩ := visitIfElse_eq hf
    have hs₁ := hs.of_quiet (quiet_governed (.ifElse condition t e) s)
    have ht := (inStep_visitBlock t _ (hs₁.push .branch) hc.1.2 (leaveArm_fault hf₁)).leaveArm
      hs₁ hf₁
    have he := (inStep_visitBlock e _ (ht.backed.push .branch) (grounds_of_grows hc.2 ht.grows)
      (leaveArm_fault hf₂)).leaveArm ht.backed hf₂
    have hgrows := ht.grows.trans he.grows
    have hcondition := Operand.all_iff.1 (hs.replace .value (Operand.all_iff.2 hc.1.1))
    refine .of_eq heq hgrows (he.mergeArms fun arm harm => ?_) ?_ fun q hloose hq => ?_
    · rw [List.mem_cons, List.mem_singleton] at harm
      rcases harm with rfl | rfl
      · have htidy := ht.tidy _ (List.mem_singleton_self _)
        rw [← ht.facts] at htidy
        exact (backed_le ctx.aliases he.grows.within).tidy htidy
      · exact he.tidy _ (List.mem_singleton_self _)
    · rw [Continuation.occurrences, List.forall_mem_append, List.forall_mem_append]
      exact ⟨⟨grounds_of_grows hcondition hgrows, grounds_of_grows ht.mentions he.grows⟩,
        he.mentions⟩
    · obtain ⟨hthen, hthen'⟩ := ht.same q hloose (he.grows.within.trans hq)
      obtain ⟨helse, helse'⟩ := he.same q hloose hq
      obtain ⟨-, -, heq'⟩ := visitIfElse_eq (visitContinuation_withPool_fault hf q)
      rw [heq', governed_withPool, settlesContinuation, settlesContinuation, hthen]
      simp only [Visit.withPool]
      rw [helse]
      exact ⟨rfl, congrArg₂ (· && ·) hthen' helse'⟩
  | .switch value arms, s, hs, hc, hf => by
    rw [Continuation.occurrences, List.forall_mem_append] at hc
    obtain ⟨hf₁, heq⟩ := visitSwitch_eq hf
    have harms := inStep_visitArms arms _
      (hs.of_quiet (quiet_governed (.switch value arms) s)) hc.2 hf₁
    have hvalue := Operand.all_iff.1 (hs.replace .value (Operand.all_iff.2 hc.1))
    refine .of_eq heq harms.grows (harms.mergeArms harms.tidy) ?_ fun q hloose hq => ?_
    · rw [Continuation.occurrences, List.forall_mem_append]
      exact ⟨grounds_of_grows hvalue harms.grows, harms.mentions⟩
    · obtain ⟨hsame, hsettles⟩ := harms.same q hloose hq
      obtain ⟨-, heq'⟩ := visitSwitch_eq (visitContinuation_withPool_fault hf q)
      rw [heq', governed_withPool, hsame]
      exact ⟨rfl, hsettles⟩
  | .deferred trigger b, s, hs, hc, hf => by
    rw [Continuation.occurrences, List.forall_mem_append] at hc
    obtain ⟨hf₁, hf₂, heq⟩ := visitDeferred_eq hf
    have hs₁ := hs.of_quiet (quiet_governed (.deferred trigger b) s)
    have hentered := hs₁.enterDeferred hc.1 (knows_of_visitContinuation hf) hf₁
    have hpool : (enterDeferred ctx trigger (governed (.deferred trigger b) s)).state.pool
        = s.pool :=
      pool_enterDeferred _ _
    have h := (inStep_visitBlock b _ hentered (hpool ▸ hc.2) (leave_fault hf₂)).leave
      (fun s => (enterDeferred ctx trigger (governed (.deferred trigger b) s)).state) hpool
      (fun q => by rw [governed_withPool, enterDeferred_withPool]; rfl)
      (enterDeferred_assigned hf₁).1 hf₂
      fun p child hchild => Congruence.tidy_mergeDeferred hchild.2 child
    refine .of_eq heq h.grows h.backed ?_ fun q hloose hq => ?_
    · rw [Visit.map, Continuation.occurrences, List.forall_mem_append]
      exact ⟨grounds_of_grows (hs₁.enterDeferred_tree hc.1 hf₁) h.grows, h.mentions⟩
    · obtain ⟨hsame, hsettles⟩ := h.same q hloose hq
      obtain ⟨-, -, heq'⟩ := visitDeferred_eq (visitContinuation_withPool_fault hf q)
      rw [heq', hsame, governed_withPool, enterDeferred_withPool]
      exact ⟨rfl, hsettles⟩
  | .nested b, s, hs, hc, hf => by
    obtain ⟨hf₁, heq⟩ := visitNested_eq hf
    have hs₁ := hs.of_quiet (quiet_governed (.nested b) s)
    have h := (inStep_visitBlock b _ (hs₁.push .nested) hc (leave_fault hf₁)).leave
      (fun s => (governed (.nested b) s).push .nested) rfl (fun q => rfl) rfl hf₁
      fun p child hchild => Congruence.tidy_mergeNested hchild
    refine .of_eq heq h.grows h.backed ?_ fun q hloose hq => ?_
    · rw [Visit.map, Continuation.occurrences]
      exact h.mentions
    · obtain ⟨hsame, hsettles⟩ := h.same q hloose hq
      obtain ⟨-, heq'⟩ := visitNested_eq (visitContinuation_withPool_fault hf q)
      rw [heq', hsame]
      exact ⟨rfl, hsettles⟩
theorem inStep_visitArms : ∀ (arms : Arms) (s : State), Backed ctx loose s →
    (∀ v ∈ arms.occurrences, s.pool.Grounds loose v) → (visitArms ctx arms s).fault = none →
    ArmsInStep ctx loose (fun r => r.1.occurrences) (fun r => r.2)
      (settlesArms ctx arms) (visitArms ctx arms) s
  | .none, s, hs, _, _ => by
    rw [show visitArms ctx .none = _ from funext fun s => by rw [visitArms]]
    refine ⟨⟨.refl _, hs, ?_, fun q _ _ => ⟨rfl, rfl⟩⟩, rfl, fun arm harm => ?_⟩
    · rw [Arms.occurrences]
      exact List.forall_mem_nil _
    · obtain rfl := List.mem_singleton.1 harm
      exact Congruence.tidy_push hs.tidy .branch
  | .default b, s, hs, hb, hf => by
    obtain ⟨hf₁, -⟩ := visitDefault_cases hf
    have h := (inStep_visitBlock b _ (hs.push .branch) hb (leaveArm_fault hf₁)).leaveArm hs hf₁
    rw [show visitArms ctx (.default b) = _ from funext fun s => by rw [visitArms]]
    refine ⟨⟨h.grows, h.backed, ?_, fun q hloose hq => ?_⟩, h.facts, h.tidy⟩
    · rw [Visit.map, Arms.occurrences]
      exact h.mentions
    · obtain ⟨hsame, hsettles⟩ := h.same q hloose hq
      exact ⟨congrArg (Visit.map _) hsame, hsettles⟩
  | .case label b rest, s, hs, hb, hf => by
    obtain ⟨hf₁, hf₂, heq⟩ := visitCase_cases hf
    rw [Arms.occurrences, List.forall_mem_append] at hb
    have h₁ := (inStep_visitBlock b _ (hs.push .branch) hb.1 (leaveArm_fault hf₁)).leaveArm hs hf₁
    have h₂ := inStep_visitArms rest _ h₁.backed (grounds_of_grows hb.2 h₁.grows) hf₂
    refine ⟨.of_eq heq (h₁.grows.trans h₂.grows) h₂.backed ?_ fun q hloose hq => ?_, ?_, ?_⟩
    · rw [Arms.occurrences, List.forall_mem_append]
      exact ⟨grounds_of_grows h₁.mentions h₂.grows, h₂.mentions⟩
    · obtain ⟨hfirst, hfirst'⟩ := h₁.same q hloose (h₂.grows.within.trans hq)
      obtain ⟨hlast, hlast'⟩ := h₂.same q hloose hq
      have hf' : (visitArms ctx (.case label b rest) (s.withPool q)).fault = none := by
        rw [fault_visitArms] at hf ⊢
        exact hf
      obtain ⟨-, -, heq'⟩ := visitCase_cases hf'
      rw [heq', settlesArms, settlesArms, hfirst]
      simp only [Visit.withPool]
      rw [hlast]
      exact ⟨rfl, congrArg₂ (· && ·) hfirst' hlast'⟩
    · rw [heq]
      exact h₂.facts.trans h₁.facts
    · rw [heq]
      intro arm harm
      rcases List.mem_cons.1 harm with rfl | harm
      · exact (backed_le ctx.aliases h₂.grows.within).tidy (h₁.tidy _ (List.mem_singleton_self _))
      · exact h₁.facts ▸ h₂.tidy arm harm
end

end Tree

end Numbering

end ValueFlow
