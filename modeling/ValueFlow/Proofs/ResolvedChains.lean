import ValueFlow.Proofs.ShortChains

/-!
# Fully resolved representatives

The canonical representative of a variable is found by following the chain of
representatives from it, for as many steps as there are scopes. It is *fully
resolved* if the chain has ended by then (`Congruence.Resolved`), and this is
exactly the case if the chain is not too long (`resolved_iff`). Then it is
canonical itself, so it may be looked up again, and it stays the same in a scope
further inside.

Chains grow when something that stands for something else gets a representative.
The second part of the module says what stands for something else in some scopes
(`Congruence.Stand`) and how this changes from scope to scope. If it is *final*,
that is, if nothing assigns it from now on, then no chain grows any more; facts
of which only final variables are part are *settled* (`Congruence.Settled`), and
there all chains are short.
-/

namespace ValueFlow

/-! ## Chains that end -/

namespace Congruence

variable {c : Congruence} {v : Var} {n : Nat} {a : Operand}

/-- The chain of representatives from an operand ends within some number of
steps. -/
def endsWithin (c : Congruence) : Nat → Operand → Bool
  | 0, a => (a.var?.bind c.representative?).isNone
  | n + 1, a =>
    match a.var?.bind c.representative? with
    | some next => c.endsWithin n next
    | none => true

/-- **The representative of a variable is fully resolved**: it is something
else, and it has no representative itself. -/
def Resolved (c : Congruence) (v : Var) : Prop :=
  ∀ r, c.canonical? v = some r → r.same (.var v) = false ∧ r.var?.bind c.canonical? = none

theorem canonical?_eq_none : c.canonical? v = none ↔ c.representative? v = none :=
  Option.map_eq_none_iff

theorem bind_canonical?_eq_none :
    a.var?.bind c.canonical? = none ↔ a.var?.bind c.representative? = none := by
  cases a with
  | var w => exact canonical?_eq_none
  | lit l => exact Iff.rfl

theorem endsWithin_of_none (h : a.var?.bind c.representative? = none) (n : Nat) :
    c.endsWithin n a = true := by
  cases n with
  | zero => rw [endsWithin, h, Option.isNone_none]
  | succ n => rw [endsWithin, h]

theorem endsWithin_succ {next : Operand} (h : a.var?.bind c.representative? = some next) (n : Nat) :
    c.endsWithin (n + 1) a = c.endsWithin n next := by
  rw [endsWithin, h]

/-- An operand that is the same as its representative starts no chain that ends. -/
theorem endsWithin_of_same {next : Operand} (hnext : a.var?.bind c.representative? = some next)
    (hsame : next.same a = true) (n : Nat) : c.endsWithin n next = false := by
  have hloop : next.var?.bind c.representative? = some next := by
    cases a with
    | lit l => cases hnext
    | var w =>
      cases next with
      | lit l => exact absurd (of_decide_eq_true hsame) (by simp [Operand.key])
      | var x =>
        have hname : x.name = w.name := Sum.inl.inj (of_decide_eq_true hsame)
        exact (representative?_congr hname).trans hnext
  induction n with
  | zero => rw [endsWithin, hloop, Option.isNone_some]
  | succ n ih => rw [endsWithin_succ hloop, ih]

/-- Following a chain leads to its end if there are enough steps. -/
theorem follow_ends_iff (n : Nat) (a : Operand) :
    (c.follow n a).var?.bind c.representative? = none ↔ c.endsWithin n a = true := by
  induction n generalizing a with
  | zero => exact Option.isNone_iff_eq_none.symm
  | succ n ih =>
    rw [follow]
    cases hnext : a.var?.bind c.representative? with
    | none => simp [hnext, endsWithin_of_none hnext]
    | some next =>
      dsimp only
      rw [endsWithin_succ hnext]
      split
      · rename_i hsame
        simp [hnext, endsWithin_of_same hnext hsame n]
      · exact ih next

/-- **A representative is fully resolved if and only if the chain to it is not
longer than the scopes allow for.** -/
theorem resolved_iff : c.Resolved v ↔ c.endsWithin (c.depth + 1) (.var v) = true := by
  cases hrep : c.representative? v with
  | none => simp [Resolved, canonical?, hrep, endsWithin_of_none (a := .var v) hrep]
  | some next =>
    have hcanonical : c.canonical? v = some (c.follow c.depth next) := by
      rw [canonical?, hrep, Option.map_some]
    rw [endsWithin_succ (a := .var v) hrep, ← follow_ends_iff]
    constructor
    · exact fun h => bind_canonical?_eq_none.1 (h _ hcanonical).2
    · intro hends r hr
      obtain rfl := Option.some.inj (hcanonical.symm.trans hr)
      refine ⟨Bool.eq_false_iff.2 fun hsame => ?_, bind_canonical?_eq_none.2 hends⟩
      -- the variable itself has a representative
      cases hend : c.follow c.depth next with
      | lit l =>
        rw [hend] at hsame
        exact absurd (of_decide_eq_true hsame) (by simp [Operand.key])
      | var w =>
        rw [hend] at hsame hends
        have hname : w.name = v.name := Sum.inl.inj (of_decide_eq_true hsame)
        exact absurd ((representative?_congr hname).symm.trans hends) (by simp [hrep])

/-- What is fully resolved stays as it is when it is looked up again. -/
theorem canonicalOperand_canonicalOperand (h : ∀ v, c.Resolved v) (a : Operand) :
    c.canonicalOperand (c.canonicalOperand a) = c.canonicalOperand a := by
  cases a with
  | lit l => rfl
  | var w =>
    show c.canonicalOperand ((c.canonical? w).getD (.var w)) = (c.canonical? w).getD (.var w)
    cases hr : c.canonical? w with
    | none =>
      show (c.canonical? w).getD (.var w) = .var w
      rw [hr, Option.getD_none]
    | some r =>
      show (r.var?.bind c.canonical?).getD r = r
      rw [(h w r hr).2, Option.getD_none]

theorem follow_congr {c' : Congruence} (h : c'.representative? = c.representative?) (n : Nat)
    (a : Operand) : c'.follow n a = c.follow n a := by
  induction n generalizing a with
  | zero => rfl
  | succ n ih =>
    rw [follow, follow, h]
    cases a.var?.bind c.representative? with
    | none => rfl
    | some next =>
      dsimp only
      rw [ih]

theorem follow_succ (h : c.endsWithin n a = true) : c.follow (n + 1) a = c.follow n a := by
  induction n generalizing a with
  | zero =>
    have hnone : a.var?.bind c.representative? = none := Option.isNone_iff_eq_none.1 h
    simp only [follow, hnone]
  | succ n ih =>
    rw [follow, follow]
    cases hnext : a.var?.bind c.representative? with
    | none => rfl
    | some next =>
      rw [endsWithin_succ hnext] at h
      dsimp only
      rw [ih h]

/-- **One more scope changes nothing** about a representative that is fully
resolved. -/
theorem canonical?_push (h : c.Resolved v) (kind : ScopeKind) :
    (c.push kind).canonical? v = c.canonical? v := by
  have hsame : (c.push kind).representative? = c.representative? := rfl
  unfold canonical?
  rw [hsame]
  cases hrep : c.representative? v with
  | none => rfl
  | some next =>
    have hends := resolved_iff.1 h
    rw [endsWithin_succ (a := .var v) hrep] at hends
    rw [Option.map_some, Option.map_some, follow_congr hsame]
    exact congrArg some (follow_succ hends)

/-- In short chains all representatives are fully resolved. -/
theorem Short.resolved (h : c.Short) (v : Var) : c.Resolved v := by
  rw [resolved_iff]
  cases hrep : c.representative? v with
  | none => exact endsWithin_of_none (a := .var v) hrep _
  | some next =>
    rw [endsWithin_succ (a := .var v) hrep]
    cases next with
    | lit l => exact endsWithin_of_none rfl _
    | var r => exact endsWithin_of_none (a := .var r) (h v r hrep) _

end Congruence

theorem Operand.All.and {P Q : Var → Prop} {a : Operand} (h : a.All P) (h' : a.All Q) :
    a.All fun r => P r ∧ Q r := by
  cases a with
  | var r => exact ⟨h, h'⟩
  | lit l => trivial

/-! ## Settled facts -/

/-- **Nothing assigns the name from now on**: it belongs to a constant, it is
assigned already, or it is not among the names that are assigned at all. -/
def Vocabulary.Past (V : Vocabulary) (assigned later : List String) (n : String) : Prop :=
  V.constant n ∨ n ∈ assigned ∨ n ∉ later

theorem Vocabulary.Past.mono {V : Vocabulary} {assigned assigned' later later' : List String}
    {n : String} (h : V.Past assigned later n) (ha : assigned ⊆ assigned') (hl : later' ⊆ later) :
    V.Past assigned' later' n :=
  h.imp_right fun h => h.imp (ha ·) fun hn hmem => hn (hl hmem)

namespace Congruence

/-- **The variable is final**: it has no representative and gets none, since
nothing assigns it from now on. -/
def Final (V : Vocabulary) (assigned later : List String) (c : Congruence) (r : Var) : Prop :=
  c.representative? r = none ∧ V.Past assigned later r.name

/-- **The facts are settled**: only assigned variables have representatives, and
whatever stands for something else is final. -/
structure Settled (V : Vocabulary) (assigned later : List String) (c : Congruence) : Prop where
  keys : ∀ v rep, c.representative? v = some rep → ¬ V.constant v.name ∧ v.name ∈ assigned
  stand : c.Stand (Operand.All (c.Final V assigned later))

namespace Settled

variable {V : Vocabulary} {assigned assigned' later later' : List String} {c c' : Congruence}

theorem short (h : c.Settled V assigned later) : c.Short :=
  fun _ _ hr => And.left (h.stand.of_representative? hr)

theorem of_stand (h : c.Settled V assigned later) (hrep : c'.representative? = c.representative?)
    (hstand : ∀ Q, c.Stand Q → c'.Stand Q) (ha : assigned ⊆ assigned') (hl : later' ⊆ later) :
    c'.Settled V assigned' later' where
  keys v rep hv := (h.keys v rep (hrep ▸ hv)).imp_right (ha ·)
  stand := (hstand _ h.stand).mono fun _ => .mono fun _ hr => ⟨hrep ▸ hr.1, hr.2.mono ha hl⟩

theorem mono (h : c.Settled V assigned later) (ha : assigned ⊆ assigned') (hl : later' ⊆ later) :
    c.Settled V assigned' later' := h.of_stand rfl (fun _ => id) ha hl

/-- A constant is final. -/
theorem final_of_constant (h : c.Settled V assigned later) {v : Var} (hv : V.constant v.name) :
    c.Final V assigned later v :=
  ⟨Option.eq_none_iff_forall_not_mem.2 fun rep hrep => (h.keys v rep hrep).1 hv, .inl hv⟩

/-- **The canonical operand of what nothing assigns any more is final.** -/
theorem final_canonicalOperand (h : c.Settled V assigned later) {a : Operand}
    (ha : a.All fun w => V.Past assigned later w.name) :
    (c.canonicalOperand a).All (c.Final V assigned later) := by
  cases a with
  | lit l => trivial
  | var w =>
    show ((c.canonical? w).getD (.var w)).All _
    rw [h.short.canonical?]
    cases hrep : c.representative? w with
    | none => exact ⟨hrep, ha⟩
    | some rep =>
      cases rep with
      | lit l => trivial
      | var r => exact h.stand.of_representative? hrep

/-- **A variable gets a representative** when it is assigned, so what stood for
something else before is none of it. -/
theorem setCanonical (h : c.Settled V assigned later) {out : Var}
    (hout : ¬ V.Past assigned later out.name) {rep : Operand}
    (hrep : rep.All (c.Final V assigned later)) :
    (c.setCanonical out rep).Settled V (out.name :: assigned) later := by
  have hfinal (r : Var) (hr : c.Final V assigned later r) :
      (c.setCanonical out rep).Final V (out.name :: assigned) later r := by
    refine ⟨?_, hr.2.mono (List.subset_cons_self _ _) (List.Subset.refl _)⟩
    rw [representative?_setCanonical_of_ne (fun hname => hout (hname.symm ▸ hr.2)), hr.1]
  refine ⟨fun v rep' hv => ?_,
    (h.stand.mono fun _ => .mono hfinal).setCanonical out (hrep.mono hfinal)⟩
  rcases representative?_setCanonical hv with ⟨hname, -⟩ | hv
  · exact ⟨fun hconst => hout (.inl (hname ▸ hconst)), hname ▸ List.mem_cons_self⟩
  · exact (h.keys v rep' hv).imp_right (List.mem_cons_of_mem _)

theorem record (h : c.Settled V assigned later) (aliases : AliasMap) (sig : Signature)
    {rep : Operand} (hrep : rep.All (c.Final V assigned later)) :
    (c.record aliases sig rep).2.Settled V assigned later := by
  have hsame := representative?_record (c := c) aliases sig rep
  refine ⟨fun v rep' hv => h.keys v rep' (hsame ▸ hv), ?_⟩
  exact (h.stand.record aliases sig hrep).mono fun _ => .mono fun r hr => ⟨hsame ▸ hr.1, hr.2⟩

/-- **A value is computed into a variable**, which stands for it from then on. -/
theorem record_output (h : c.Settled V assigned later) (aliases : AliasMap) (sig : Signature)
    {out : Var} (hout : ¬ V.Past assigned later out.name) :
    (c.record aliases sig (.var out)).2.Settled V (out.name :: assigned) later := by
  have hnone : c.representative? out = none := Option.eq_none_iff_forall_not_mem.2 fun rep hrep =>
    hout (.inr (.inl (h.keys out rep hrep).2))
  exact (h.mono (List.subset_cons_self _ _) (List.Subset.refl _)).record aliases sig
    ⟨hnone, .inr (.inl List.mem_cons_self)⟩

/-- **A block is left that is not deferred.** What was assigned in it and may be
used outside lives on. -/
theorem leave {child : Scope} (h : c.Settled V c.definedNames later)
    (hchild : Settled V (Congruence.mk child c.scopes).definedNames later ⟨child, c.scopes⟩)
    (htidy : V.Tidy (child :: c.scopes)) (hanew : Numbering.DeclaresAnew V ⟨child, c.scopes⟩)
    (hkind : child.kind ≠ .deferred) (hdefined : c.definedNames ⊆ c'.definedNames)
    (houtliving : child.outliving ⊆ c'.definedNames)
    (hrep : ∀ v rep, c'.representative? v = some rep → c.representative? v = some rep
      ∨ ∃ e ∈ child.canonical.entries, e.1.name = v.name ∧ c.isDeclared e.1 = true)
    (hstand : ∀ Q, c.Stand Q → (child.Stand fun a => c.isVisible a = true → Q a) → c'.Stand Q) :
    c'.Settled V c'.definedNames later := by
  have hlives (v : Var) (hv : V.text v) (hdeclared : c.isDeclared v = true)
      (hmem : v.name ∈ (Congruence.mk child c.scopes).definedNames) : v.name ∈ c'.definedNames := by
    rcases mem_definedNames.1 hmem with hmem | hmem
    · exact houtliving (hanew.outlives hkind hv hdeclared hmem)
    · exact hdefined hmem
  -- an entry of the block is what the facts at its end say
  have hentry (e : Var × Operand) (he : e ∈ child.canonical.entries) :
      (Congruence.mk child c.scopes).representative? e.1 = some e.2 :=
    representative?_of_get? (Table.get?_of_mem he)
  have hnone (v : Var) (hv : (Congruence.mk child c.scopes).representative? v = none) :
      c'.representative? v = none := by
    refine Option.eq_none_iff_forall_not_mem.2 fun rep hmem => ?_
    rcases hrep v rep hmem with hrep | ⟨e, he, hname, -⟩
    · have houter := (List.findSome?_eq_none_iff.1 hv)
      obtain ⟨s, hs, hget⟩ := List.exists_of_findSome?_eq_some hrep
      rw [houter s (List.mem_cons_of_mem _ hs)] at hget
      cases hget
    · rw [← representative?_congr hname, hentry e he] at hv
      cases hv
  refine ⟨fun v rep hv => ?_, hstand _ ?_ ?_⟩
  · rcases hrep v rep hv with hrep | ⟨e, he, hname, hdeclared⟩
    · exact (h.keys v rep hrep).imp_right (hdefined ·)
    · rw [← hname]
      exact (hchild.keys e.1 e.2 (hentry e he)).imp_right
        (hlives e.1 (htidy.1.canonical e he).1.2.1 hdeclared)
  · have houter : c.Stand (Operand.All (Final V _ later ⟨child, c.scopes⟩)) :=
      fun s hs => hchild.stand s (List.mem_cons_of_mem _ hs)
    refine (houter.and h.stand).mono fun a ha => (ha.1.and ha.2).mono fun r hr => ?_
    exact ⟨hnone r hr.1.1, hr.2.2.mono hdefined (List.Subset.refl _)⟩
  · have htop := (hchild.stand.and (stand_of_tidy htidy)) child List.mem_cons_self
    refine htop.mono fun a ha hvisible => ?_
    cases a with
    | lit l => trivial
    | var r =>
      obtain ⟨⟨hrep, hpast⟩, hnames, -⟩ := ha
      refine ⟨hnone r hrep, ?_⟩
      rcases hpast with hconst | hassigned | hlater
      · exact .inl hconst
      · rcases hnames with hshared | ⟨htext, -⟩
        · exact .inl (V.constant_of_shared r hshared)
        · exact .inr (.inl (hlives r htext hvisible hassigned))
      · exact .inr (.inr hlater)

end Settled

end Congruence

end ValueFlow
