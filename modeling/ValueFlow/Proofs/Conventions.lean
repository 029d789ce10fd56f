import ValueFlow.Proofs.Agreement
import ValueFlow.Proofs.TreeSimulation

/-!
# What functions keep to

Value numbering relies on conventions that it does not check: all occurrences of
a variable carry the same data, a block declares no name that is in use around
it, and the names of shared constants are used for nothing else
(`Function.Conventional`). From these and from the alias facts of a function
follows what the simulation needs to know about its text.
-/

namespace ValueFlow

/-! ## Names -/

mutual
/-- **The names that a block and its inner blocks declare are new where they are
declared**, the given names being in use around the block. -/
def Block.declaresAnew (names : List String) : Block → Bool
  | .mk vars body =>
    vars.all (fun v => !names.contains v.name) && body.declaresAnew (vars.map (·.name) ++ names)
/-- The names that the blocks of a body declare are new. -/
def Body.declaresAnew (names : List String) : Body → Bool
  | .done => true
  | .instr _ rest => rest.declaresAnew names
  | .cont c rest => c.declaresAnew names && rest.declaresAnew names
/-- The names that the blocks of a continuation declare are new. -/
def Continuation.declaresAnew (names : List String) : Continuation → Bool
  | .ifElse _ t e => t.declaresAnew names && e.declaresAnew names
  | .switch _ arms => arms.declaresAnew names
  | .deferred trigger b =>
    trigger.declared.all (fun v => !names.contains v.name)
      && b.declaresAnew (trigger.declared.map (·.name) ++ names)
  | .nested b => b.declaresAnew names
/-- The names that the arms of a switch declare are new. -/
def Arms.declaresAnew (names : List String) : Arms → Bool
  | .none => true
  | .default b => b.declaresAnew names
  | .case _ b rest => b.declaresAnew names && rest.declaresAnew names
end

mutual
/-- All continuations of a block and its inner blocks have a property. -/
def Block.allContinuations (p : Continuation → Bool) : Block → Bool
  | .mk _ body => body.allContinuations p
/-- All continuations of a body have a property. -/
def Body.allContinuations (p : Continuation → Bool) : Body → Bool
  | .done => true
  | .instr _ rest => rest.allContinuations p
  | .cont c rest => p c && c.allContinuations p && rest.allContinuations p
/-- All continuations inside a continuation have a property. -/
def Continuation.allContinuations (p : Continuation → Bool) : Continuation → Bool
  | .ifElse _ t e => t.allContinuations p && e.allContinuations p
  | .switch _ arms => arms.allContinuations p
  | .deferred _ b => b.allContinuations p
  | .nested b => b.allContinuations p
/-- All continuations inside the arms of a switch have a property. -/
def Arms.allContinuations (p : Continuation → Bool) : Arms → Bool
  | .none => true
  | .default b => b.allContinuations p
  | .case _ b rest => b.allContinuations p && rest.allContinuations p
end

namespace Function

/-- The variables that the function and its blocks declare or its instructions
define. -/
def definitions (f : Function) : List Var :=
  f.inputs ++ f.outputs ++ f.block.declarations ++ f.block.instructions.flatMap (·.outputs)

/-- **The name belongs to a shared constant**: the table has it, it is the name
for some literal, or a variable of the function with this name is marked as a
constant. -/
def IsConstant (f : Function) (globals : Constants) (n : String) : Prop :=
  (globals.get? n).isSome = true ∨ (∃ l, Constant.nameFor? l = some n)
    ∨ ∃ v ∈ f.occurrences, v.isGlobalConst = true ∧ v.name = n

/-- **The function keeps to the conventions.** -/
structure Conventional (f : Function) (globals : Constants) : Prop where
  /-- Occurrences of one variable are equal. -/
  consistent : ∀ v ∈ f.occurrences, ∀ w ∈ f.occurrences, v.name = w.name → v = w
  /-- Names are unique in overlapping scopes. -/
  declaresAnew : f.block.declaresAnew ((f.inputs ++ f.outputs).map (·.name)) = true
  /-- The table of constants is in order. -/
  constants : globals.WellFormed
  /-- Constants are neither declared nor assigned. -/
  untouched : ∀ v ∈ f.definitions, ¬ f.IsConstant globals v.name

/-- The conventions, for a program without constants, in a form that can be
decided. -/
theorem conventional_of_names {f : Function}
    (hc : ∀ v ∈ f.occurrences, ∀ w ∈ f.occurrences, v.name = w.name → v = w)
    (hd : f.block.declaresAnew ((f.inputs ++ f.outputs).map (·.name)) = true)
    (hn : ∀ v ∈ f.definitions, ¬ ['_', '_', 'c', ':'] <+: v.name.toList
      ∧ ∀ w ∈ f.occurrences, w.isGlobalConst = true → w.name ≠ v.name) : f.Conventional .empty := by
  refine ⟨hc, hd, (fun _ _ h => nomatch h), fun v hv hconst => ?_⟩
  rcases hconst with h | ⟨l, hl⟩ | ⟨w, hw, hg, hname⟩
  · cases h
  · exact (hn v hv).1 (Constant.prefix_of_nameFor? hl)
  · exact (hn v hv).2 w hw hg hname

/-- The variable has storage of its own. -/
def Owns (f : Function) (n : String) : Prop := ∀ v ∈ f.occurrences, v.name = n → v.alloc ≠ .part

/-- What the facts about a function speak about. -/
def vocabulary (f : Function) (globals : Constants) (aliases : AliasMap) : Vocabulary where
  text v := v ∈ f.occurrences
  shared v := f.IsConstant globals v.name
  constant := f.IsConstant globals
  stable v := aliases.isStable v = true
  fixed v := Numbering.isFixed aliases v = true
  shared_of_isGlobalConst v hv hg := .inr (.inr ⟨v, hv, hg, rfl⟩)
  constant_of_shared _ h := h

end Function

/-! ## Occurrences -/

mutual
theorem Block.declarations_subset : ∀ b : Block, b.declarations ⊆ b.occurrences
  | .mk _ body =>
    List.append_subset.2 ⟨List.subset_append_left _ _,
      List.subset_append_of_subset_right _ (Body.declarations_subset body)⟩
theorem Body.declarations_subset : ∀ b : Body, b.declarations ⊆ b.occurrences
  | .done => List.nil_subset _
  | .instr _ rest => List.subset_append_of_subset_right _ (Body.declarations_subset rest)
  | .cont c rest =>
    List.append_subset.2 ⟨List.subset_append_of_subset_left _ (Continuation.declarations_subset c),
      List.subset_append_of_subset_right _ (Body.declarations_subset rest)⟩
theorem Continuation.declarations_subset : ∀ c : Continuation, c.declarations ⊆ c.occurrences
  | .ifElse condition t e => by
    rw [Continuation.declarations, Continuation.occurrences, List.append_assoc]
    refine List.subset_append_of_subset_right _ (List.append_subset.2 ⟨?_, ?_⟩)
    · exact List.subset_append_of_subset_left _ (Block.declarations_subset t)
    · exact List.subset_append_of_subset_right _ (Block.declarations_subset e)
  | .switch value arms => List.subset_append_of_subset_right _ (Arms.declarations_subset arms)
  | .deferred trigger b => List.subset_append_of_subset_right _ (Block.declarations_subset b)
  | .nested b => Block.declarations_subset b
theorem Arms.declarations_subset : ∀ arms : Arms, arms.declarations ⊆ arms.occurrences
  | .none => List.nil_subset _
  | .default b => Block.declarations_subset b
  | .case _ b rest =>
    List.append_subset.2 ⟨List.subset_append_of_subset_left _ (Block.declarations_subset b),
      List.subset_append_of_subset_right _ (Arms.declarations_subset rest)⟩
end

/-! ## Alias facts -/

/-- **What alias facts come from**: all facts of each instruction are there, and
if no block is deferred there are no others. -/
structure AliasesFrom (is : List Instruction) (synchronous : Bool) (as : List Alias) : Prop where
  all : ∀ i ∈ is, ∃ own, i.aliases = .ok own ∧ own ⊆ as
  only : synchronous = true → ∀ a ∈ as, ∃ i ∈ is, ∃ own, i.aliases = .ok own ∧ a ∈ own

theorem AliasesFrom.append {is is' : List Instruction} {b b' : Bool} {as as' : List Alias}
    (h : AliasesFrom is b as) (h' : AliasesFrom is' b' as') :
    AliasesFrom (is ++ is') (b && b') (as ++ as') where
  all i hi := by
    rcases List.mem_append.1 hi with hi | hi
    · obtain ⟨own, ho, hsub⟩ := h.all i hi
      exact ⟨own, ho, List.subset_append_of_subset_left _ hsub⟩
    · obtain ⟨own, ho, hsub⟩ := h'.all i hi
      exact ⟨own, ho, List.subset_append_of_subset_right _ hsub⟩
  only hb a ha := by
    obtain ⟨hb, hb'⟩ := Bool.and_eq_true_iff.1 hb
    rcases List.mem_append.1 ha with ha | ha
    · obtain ⟨i, hi, hown⟩ := h.only hb a ha
      exact ⟨i, List.mem_append_left _ hi, hown⟩
    · obtain ⟨i, hi, hown⟩ := h'.only hb' a ha
      exact ⟨i, List.mem_append_right _ hi, hown⟩

theorem AliasesFrom.nil : AliasesFrom [] true [] :=
  ⟨List.forall_mem_nil _, fun _ => List.forall_mem_nil _⟩

theorem AliasesFrom.singleton {i : Instruction} {as : List Alias} (h : i.aliases = .ok as) :
    AliasesFrom [i] true as where
  all j hj := by
    obtain rfl := List.mem_singleton.1 hj
    exact ⟨as, h, List.Subset.refl _⟩
  only _ a ha := ⟨i, List.mem_singleton_self i, as, h, ha⟩

mutual
/-- **The alias facts of a block** are those of its instructions and of its
loops over arrays. -/
theorem Block.aliasesFrom : ∀ (b : Block) {as : List Alias}, b.aliases = .ok as →
    AliasesFrom b.instructions (b.allContinuations fun c => !c.isDeferred) as
  | .mk _ body, _, h => Body.aliasesFrom body h
theorem Body.aliasesFrom : ∀ (b : Body) {as : List Alias}, b.aliases = .ok as →
    AliasesFrom b.instructions (b.allContinuations fun c => !c.isDeferred) as
  | .done, as, h => by
    rw [Body.instructions, Body.allContinuations, ← Except.ok.inj h]
    exact .nil
  | .instr i rest, as, h => by
    obtain ⟨as₁, as₂, h₁, h₂, rfl⟩ := bind_append_eq_ok h
    exact (AliasesFrom.singleton h₁).append (Body.aliasesFrom rest h₂)
  | .cont c rest, as, h => by
    rw [Body.aliases] at h
    obtain ⟨as₁, as₂, h₁, h₂, rfl⟩ : ∃ as₁ as₂, c.innerAliases = .ok as₁ ∧ rest.aliases = .ok as₂
        ∧ as = (c.aliases ++ as₁) ++ as₂ := by
      cases h₁ : c.innerAliases with
      | error e =>
        rw [h₁] at h
        cases h
      | ok as₁ =>
        cases h₂ : rest.aliases with
        | error e =>
          rw [h₁, h₂] at h
          cases h
        | ok as₂ =>
          rw [h₁, h₂] at h
          exact ⟨as₁, as₂, rfl, rfl, (Except.ok.inj h).symm⟩
    have hc := Continuation.aliasesFrom c h₁
    refine AliasesFrom.append ⟨fun i hi => ?_, fun hb a ha => ?_⟩ (Body.aliasesFrom rest h₂)
    · obtain ⟨own, ho, hsub⟩ := hc.all i hi
      exact ⟨own, ho, List.subset_append_of_subset_right _ hsub⟩
    · obtain ⟨hsync, hb⟩ := Bool.and_eq_true_iff.1 hb
      have hnone : c.aliases = [] := by
        cases c with
        | deferred trigger b => cases hsync
        | _ => rfl
      rw [hnone] at ha
      exact hc.only hb a ha
theorem Continuation.aliasesFrom : ∀ (c : Continuation) {as : List Alias}, c.innerAliases = .ok as →
    AliasesFrom c.instructions (c.allContinuations fun c => !c.isDeferred) as
  | .ifElse condition t e, as, h => by
    obtain ⟨as₁, as₂, h₁, h₂, rfl⟩ := bind_append_eq_ok h
    exact (Block.aliasesFrom t h₁).append (Block.aliasesFrom e h₂)
  | .switch value arms, as, h => Arms.aliasesFrom arms h
  | .deferred trigger b, as, h => Block.aliasesFrom b h
  | .nested b, as, h => Block.aliasesFrom b h
theorem Arms.aliasesFrom : ∀ (arms : Arms) {as : List Alias}, arms.aliases = .ok as →
    AliasesFrom arms.instructions (arms.allContinuations fun c => !c.isDeferred) as
  | .none, as, h => by
    rw [Arms.instructions, Arms.allContinuations, ← Except.ok.inj h]
    exact .nil
  | .default b, as, h => Block.aliasesFrom b h
  | .case label b rest, as, h => by
    obtain ⟨as₁, as₂, h₁, h₂, rfl⟩ := bind_append_eq_ok h
    exact (Block.aliasesFrom b h₁).append (Arms.aliasesFrom rest h₂)
end

/-! ## Orderly functions -/

namespace Numbering

section Orderly

variable {V : Vocabulary} {ctx : Context} {own : String → Prop}

/-- What a part of a function has to satisfy to be orderly, apart from its
names: its instructions fit, it declares no constant, and it has only
conditionals or writes to no storage with a name of its own. -/
structure Proper (V : Vocabulary) (ctx : Context) (own : String → Prop) (is : List Instruction)
    (vars : List Var) (conditional : Bool) : Prop where
  fits : ∀ i ∈ is, Fits V ctx own i
  vars : ∀ v ∈ vars, ¬ V.constant v.name
  writes : conditional = true ∨ locations ctx.aliases is = []

theorem Proper.mono {is is' : List Instruction} {vars vars' : List Var} {b b' : Bool}
    (h : Proper V ctx own is vars b) (hi : is' ⊆ is) (hv : vars' ⊆ vars)
    (hb : b = true → b' = true) : Proper V ctx own is' vars' b' := by
  refine ⟨fun i hmem => h.fits i (hi hmem), fun v hmem => h.vars v (hv hmem), h.writes.imp hb ?_⟩
  intro hnil
  refine List.eq_nil_iff_forall_not_mem.2 fun l hl => ?_
  obtain ⟨i, hmem, hl⟩ := List.mem_flatMap.1 hl
  exact List.eq_nil_iff_forall_not_mem.1 hnil l (List.mem_flatMap.2 ⟨i, hi hmem, hl⟩)

theorem Proper.left {is is' : List Instruction} {vars vars' : List Var} {b b' : Bool}
    (h : Proper V ctx own (is ++ is') (vars ++ vars') (b && b')) : Proper V ctx own is vars b :=
  h.mono (List.subset_append_left _ _) (List.subset_append_left _ _) fun hb =>
    (Bool.and_eq_true_iff.1 hb).1

theorem Proper.right {is is' : List Instruction} {vars vars' : List Var} {b b' : Bool}
    (h : Proper V ctx own (is ++ is') (vars ++ vars') (b && b')) : Proper V ctx own is' vars' b' :=
  h.mono (List.subset_append_right _ _) (List.subset_append_right _ _) fun hb =>
    (Bool.and_eq_true_iff.1 hb).2

mutual
/-- **Proper blocks with new names are orderly.** -/
theorem orderly_block : ∀ (b : Block) (names : List String), b.declaresAnew names = true →
    Proper V ctx own b.instructions b.declarations (b.allContinuations (·.isConditional)) →
    b.Orderly V ctx own names
  | .mk vars body, names, hn, h => by
    rw [Block.declaresAnew, Bool.and_eq_true, List.all_eq_true] at hn
    refine ⟨fun v hv hknown => ?_, orderly_body body _ hn.2 (h.mono (List.Subset.refl _)
      (List.subset_append_right _ _) id)⟩
    rcases hknown with hc | hmem
    · exact h.vars v (List.mem_append_left _ hv) hc
    · simpa [hmem] using hn.1 v hv
theorem orderly_body : ∀ (b : Body) (names : List String), b.declaresAnew names = true →
    Proper V ctx own b.instructions b.declarations (b.allContinuations (·.isConditional)) →
    b.Orderly V ctx own names
  | .done, names, hn, h => trivial
  | .instr i rest, names, hn, h =>
    ⟨h.fits i List.mem_cons_self, orderly_body rest names hn
      (h.mono (List.subset_cons_self _ _) (List.Subset.refl _) id)⟩
  | .cont c rest, names, hn, h => by
    rw [Body.declaresAnew, Bool.and_eq_true] at hn
    exact ⟨orderly_continuation c names hn.1 h.left, orderly_body rest names hn.2 h.right⟩
theorem orderly_continuation : ∀ (c : Continuation) (names : List String),
    c.declaresAnew names = true →
    Proper V ctx own c.instructions c.declarations
      (c.isConditional && c.allContinuations (·.isConditional)) →
    c.Orderly V ctx own names
  | .ifElse condition t e, names, hn, h => by
    rw [Continuation.declaresAnew, Bool.and_eq_true] at hn
    rw [Continuation.instructions, Continuation.declarations, Continuation.allContinuations,
      Continuation.isConditional, Bool.true_and] at h
    exact ⟨orderly_block t names hn.1 h.left, orderly_block e names hn.2 h.right⟩
  | .switch value arms, names, hn, h => orderly_arms arms names hn h
  | .deferred trigger b, names, hn, h => trivial
  | .nested b, names, hn, h => by
    -- a nested block is no conditional, so nothing in it writes
    have hwrites := h.writes.resolve_left fun hb => by simp [Continuation.isConditional] at hb
    exact ⟨orderly_block b names hn ⟨h.fits, h.vars, .inr hwrites⟩, hwrites⟩
theorem orderly_arms : ∀ (arms : Arms) (names : List String), arms.declaresAnew names = true →
    Proper V ctx own arms.instructions arms.declarations (arms.allContinuations (·.isConditional)) →
    arms.Orderly V ctx own names
  | .none, names, hn, h => trivial
  | .default b, names, hn, h => orderly_block b names hn h
  | .case label b rest, names, hn, h => by
    rw [Arms.declaresAnew, Bool.and_eq_true] at hn
    exact ⟨orderly_block b names hn.1 h.left, orderly_arms rest names hn.2 h.right⟩
end

end Orderly

end Numbering

/-! ## Conventional functions -/

namespace Function.Conventional

variable {f : Function} {globals : Constants} {ctx : Numbering.Context}

theorem suits (h : f.Conventional globals) :
    Numbering.Suits (f.vocabulary globals ctx.aliases) ctx where
  consistent v w hv hw := h.consistent v hv w hw
  made l _ hmade := .inr (.inl ⟨l, (Constant.make?_eq_some hmade).1⟩)
  stable _ := Iff.rfl
  fixed _ := Iff.rfl

theorem owns_iff (h : f.Conventional globals) {v : Var} (hv : v ∈ f.occurrences) :
    f.Owns v.name ↔ v.alloc ≠ .part :=
  ⟨fun ho => ho v hv rfl, fun ha w hw hname => h.consistent w hw v hv hname ▸ ha⟩

theorem owned (h : f.Conventional globals) (hparts : ∀ n, f.IsConstant globals n → f.Owns n) :
    (f.vocabulary globals ctx.aliases).Owned f.Owns where
  constant := hparts
  stands v hv hfixed := by
    rcases Bool.or_eq_true_iff.1 hfixed with hg | hs
    · exact hparts v.name (.inr (.inr ⟨v, hv, hg, rfl⟩))
    · exact (h.owns_iff hv).2 (by simpa using (Bool.and_eq_true_iff.1 hs).1)
  keys v hv hs := (h.owns_iff hv).2 (by simpa using (Bool.and_eq_true_iff.1 hs).1)

theorem constants_globals (h : f.Conventional globals) (aliases : AliasMap) :
    Numbering.KnownPool (f.vocabulary globals aliases) ⟨globals, .empty⟩ := by
  intro name c hget
  have hget' : globals.get? name = some c := by
    rcases Option.or_eq_some_iff.1 hget with hc | ⟨-, hc⟩
    · exact hc
    · cases hc
  obtain ⟨hname, l, hl, -⟩ := h.constants name c hget'
  refine ⟨.inl ?_, ?_⟩
  · rw [hname, hget']
    rfl
  · rw [hl]
    trivial

theorem not_isConstant_output (h : f.Conventional globals) {i : Instruction}
    (hi : i ∈ f.block.instructions) {v : Var} (hv : v ∈ i.outputs) :
    ¬ f.IsConstant globals v.name :=
  h.untouched v (List.mem_append_right _ (List.mem_flatMap.2 ⟨i, hi, hv⟩))

end Function.Conventional

end ValueFlow
