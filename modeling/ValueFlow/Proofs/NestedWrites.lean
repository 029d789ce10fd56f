import ValueFlow.Proofs.FreshValues
import ValueFlow.Proofs.Reacceptance

/-!
# What a nested block overwrites

The walk merges the scope of a nested block right when it leaves it, so its
facts can be relied on as long as no entry is dropped that has hidden anything.
Blocks that declare no variables drop nothing, and blocks that write nothing
hide nothing; behind a block that does both, an overwritten value may be known
again.
-/

namespace ValueFlow

/-! ## Nested blocks -/

mutual
/-- The blocks that run in order inside of others. -/
def Block.nestedBlocks : Block → List Block
  | .mk _ body => body.nestedBlocks
/-- The blocks that run in order in a body. -/
def Body.nestedBlocks : Body → List Block
  | .done => []
  | .instr _ rest => rest.nestedBlocks
  | .cont c rest => c.nestedBlocks ++ rest.nestedBlocks
/-- The blocks that run in order in a continuation. -/
def Continuation.nestedBlocks : Continuation → List Block
  | .ifElse _ t e => t.nestedBlocks ++ e.nestedBlocks
  | .switch _ arms => arms.nestedBlocks
  | .deferred _ b => b.nestedBlocks
  | .nested b => b :: b.nestedBlocks
/-- The blocks that run in order in the arms of a switch. -/
def Arms.nestedBlocks : Arms → List Block
  | .none => []
  | .default b => b.nestedBlocks
  | .case _ b rest => b.nestedBlocks ++ rest.nestedBlocks
end

/-- **The block does not both declare variables and write storage.** -/
def Block.unmixed (b : Block) (aliases : AliasMap) : Bool :=
  b.vars.isEmpty || (b.writtenLocations aliases).isEmpty

namespace Numbering

variable {ctx : Context}

/-! ## The walk merges promptly -/

section Prompt

open Session

theorem mergeNested_not_mem_instruction (block : Nat) (i : Instruction) (s : State) :
    .mergeNested ∉ instructionActions ctx block i s := by
  unfold instructionActions
  simp only
  split
  · simp [not_mem_valuesActions (a := .mergeNested) rfl]
  · exact List.not_mem_nil

theorem mergeNested_not_mem_trigger (facts : Congruence) (trigger : Trigger) :
    .mergeNested ∉ triggerActions ctx facts trigger := by
  cases trigger <;> simp [triggerActions]

mutual
/-- **The walk merges the scope of a nested block right when it leaves it.** -/
theorem prompt_block : ∀ (b : Block) (s : State), prompt false (blockActions ctx b s) = true
  | .mk vars body, s => prompt_append (prompt_of_not_mem (by simp) false) (prompt_body _ body _)
theorem prompt_body (block : Nat) : ∀ (b : Body) (s : State),
    prompt false (bodyActions ctx block b s) = true
  | .done, s => by
    rfl
  | .instr i rest, s =>
    prompt_append (prompt_of_not_mem (mergeNested_not_mem_instruction block i s) false)
      (prompt_body block rest _)
  | .cont c rest, s => prompt_append (prompt_continuation c _) (prompt_body block rest _)
theorem prompt_continuation : ∀ (c : Continuation) (s : State),
    prompt false (continuationActions ctx c s) = true
  | .ifElse condition t e, s => by
    refine prompt_append (prompt_append ?_ ?_) rfl
    · exact prompt_append (prompt_block t _) rfl
    · exact prompt_append (prompt_block e _) rfl
  | .switch value arms, s => prompt_append (prompt_arms arms s) rfl
  | .deferred trigger b, s => by
    refine prompt_append (prompt_append ?_ (prompt_block b _)) rfl
    exact prompt_of_not_mem (mergeNested_not_mem_trigger _ trigger) false
  | .nested b, s => prompt_append (prompt_block b _) rfl
theorem prompt_arms : ∀ (arms : Arms) (s : State), prompt false (armsActions ctx arms s) = true
  | .none, s => by
    rfl
  | .default b, s => prompt_append (prompt_block b _) rfl
  | .case label b rest, s => by
    refine prompt_append ?_ (prompt_arms rest _)
    exact prompt_append (prompt_block b _) rfl
end

theorem mergeNested_not_mem_opening (f : Function) :
    .mergeNested ∉ f.inputs.flatMap inputActions ++ f.outputs.map .declare := by
  have hinput : ∀ v, .mergeNested ∉ inputActions v := by
    intro v
    unfold inputActions
    split <;> simp
  simp [hinput]

theorem prompt_function (globals : Constants) (f : Function) :
    prompt false (functionActions ctx globals f) = true := by
  unfold functionActions
  refine prompt_append (prompt_of_not_mem (mergeNested_not_mem_opening f) false) ?_
  split
  · exact prompt_block f.block _
  · rfl

end Prompt

/-! ## Blocks that drop nothing or hide nothing -/

section Covered

variable {V : Vocabulary}

/-- The actions drop no entry that has hidden anything, in any session with some
facts. -/
def CoveredFrom (aliases : AliasMap) (actions : List ScopeAction) (c : Congruence) : Prop :=
  ∀ s : Session, s.facts = c → Session.covered aliases actions s = true

theorem CoveredFrom.of_not_mem {aliases : AliasMap} {actions : List ScopeAction}
    (h : .mergeNested ∉ actions) (c : Congruence) : CoveredFrom aliases actions c :=
  fun s _ => Session.covered_of_not_mem h s

theorem CoveredFrom.append {aliases : AliasMap} {actions actions' : List ScopeAction}
    {c c' : Congruence} (h : CoveredFrom aliases actions c)
    (hexec : ∀ s : Session, s.facts = c → ∃ s', s.exec aliases actions = some s' ∧ s'.facts = c')
    (h' : CoveredFrom aliases actions' c') : CoveredFrom aliases (actions ++ actions') c := by
  intro s hs
  refine Session.covered_append.2 ⟨h s hs, fun s' hs' => h' s' ?_⟩
  obtain ⟨s₁, h₁, hfacts⟩ := hexec s hs
  exact Option.some.inj (h₁.symm.trans hs') ▸ hfacts

variable {b : Block} {s : State} {c : Congruence} {child : Scope}

/-- **A block that declares no variables drops nothing, and one that writes
nothing hides nothing.** -/
theorem covers_of_unmixed (hshared : ∀ v, V.shared v → v.isGlobalConst = true)
    (htidy : V.Tidy (child :: c.scopes))
    (hinvalidated : child.invalidated ⊆ b.writtenLocations ctx.aliases)
    (hdeclared : ∀ n, n ∈ child.declared ↔ ∃ v ∈ b.vars, v.name = n)
    (hb : b.unmixed ctx.aliases = true) (log : ScopeLog) :
    c.covers ctx.aliases child log = true := by
  refine List.all_eq_true.2 fun e he => ?_
  rcases Bool.or_eq_true_iff.1 hb with hvars | hwrites
  · have hnames : ∀ v, V.Names (scopeNames (child :: c.scopes)) v → c.isDeclared v = true := by
      rintro v (hv | ⟨-, hv⟩)
      · exact Congruence.isDeclared_iff.2 (.inl (hshared v hv))
      · refine Congruence.isDeclared_iff.2 (.inr ?_)
        have hv : v.name ∈ (⟨child, c.scopes⟩ : Congruence).names := hv
        rcases Congruence.mem_names.1 hv with hv | hv
        · obtain ⟨w, hw, -⟩ := (hdeclared _).1 hv
          rw [List.isEmpty_iff.1 hvars] at hw
          cases hw
        · exact hv
    obtain ⟨hkey, hvalue⟩ := htidy.1.values e he
    have hcan : c.canName e.1 = true := by
      refine List.all_eq_true.2 fun v hv => hnames v ?_
      exact Operand.all_var.1 (hkey _ (Signature.mem_vars.1 hv))
    have hvisible : e.2.all c.isVisible = true := by
      cases hrep : e.2 with
      | none => rfl
      | some rep =>
        cases rep with
        | var v => exact hnames v (hvalue _ hrep).1
        | lit l => rfl
    rw [hcan, hvisible, Bool.and_true, Bool.or_true, Bool.true_or]
  · have hnil : child.invalidated = [] := by
      refine List.eq_nil_of_subset_nil fun l hl => ?_
      have hmem := hinvalidated hl
      rwa [List.isEmpty_iff.1 hwrites] at hmem
    rw [hnil]
    rfl

/-- An arm is walked and left. -/
theorem CoveredFrom.arm
    (h : CoveredFrom ctx.aliases (blockActions ctx b (s.push .branch)) (s.push .branch).facts) :
    CoveredFrom ctx.aliases
      (.push .branch :: blockActions ctx b (s.push .branch) ++ [.pop]) s.facts := by
  intro t ht
  rw [List.cons_append, Session.covered]
  refine Session.covered_append.2 ⟨h _ (congrArg (·.push .branch) ht), fun t' _ => ?_⟩
  exact Session.covered_of_not_mem (by simp) t'

theorem wellFormed_leaveArm (hV : Serves V ctx) (hs : WellFormed V s)
    (ht : ∀ v ∈ b.occurrences, V.text v)
    (h : (leaveArm (visitBlock ctx b (s.push .branch))).fault = none) :
    let left := leaveArm (visitBlock ctx b (s.push .branch))
    WellFormed V left.state ∧ left.state.facts = s.facts := by
  have hU := upheld_wellFormed hV
  have hb := hU.visitBlock b _ (hs.push .branch) (b.meets_ofVars ht _ _) (leaveArm_fault h)
  obtain ⟨hw, hfacts, -⟩ := hU.leaveArm hs h hb.after
  exact ⟨hw, hfacts⟩

mutual
/-- **The walk drops no entry that has hidden anything** if no nested block both
declares variables and writes. -/
theorem covered_visitBlock (hV : Serves V ctx)
    (hshared : ∀ v, V.shared v → v.isGlobalConst = true) :
    ∀ (b : Block) (s : State), WellFormed V s → (∀ v ∈ b.occurrences, V.text v) →
    (∀ b' ∈ b.nestedBlocks, b'.unmixed ctx.aliases = true) → (visitBlock ctx b s).fault = none →
    CoveredFrom ctx.aliases (blockActions ctx b s) s.facts
  | .mk vars body, s, hs, ht, hb, h => by
    rw [visitBlock_eq] at h
    rw [Block.occurrences, List.forall_mem_append] at ht
    have hdeclare : Advances ctx.aliases (vars.map .declare) s.facts (enterBlock vars s).facts :=
      .map Advances.declare vars s.facts
    refine (CoveredFrom.of_not_mem (by simp) _).append hdeclare.leads ?_
    exact covered_visitBody hV hshared _ body _ (hs.enterBlock vars) ht.2 hb h
theorem covered_visitBody (hV : Serves V ctx) (hshared : ∀ v, V.shared v → v.isGlobalConst = true)
    (block : Nat) : ∀ (b : Body) (s : State), WellFormed V s → (∀ v ∈ b.occurrences, V.text v) →
    (∀ b' ∈ b.nestedBlocks, b'.unmixed ctx.aliases = true) →
    (visitBody ctx block b s).fault = none →
    CoveredFrom ctx.aliases (bodyActions ctx block b s) s.facts
  | .done, s, _, _, _, _ => .of_not_mem List.not_mem_nil _
  | .instr i rest, s, hs, ht, hb, h => by
    rw [visitBody] at h
    rw [Body.occurrences, List.forall_mem_append] at ht
    obtain ⟨h₁, heq⟩ := andThen_fault h
    rw [heq] at h
    obtain ⟨hw, -⟩ := wellFormed_visitInstruction hV hs (Instruction.all_iff.2 ht.1) h₁
    refine (CoveredFrom.of_not_mem (mergeNested_not_mem_instruction block i s) _).append
      (advances_visitInstruction h₁).leads ?_
    exact covered_visitBody hV hshared block rest _ hw ht.2 hb h
  | .cont c rest, s, hs, ht, hb, h => by
    rw [visitBody] at h
    rw [Body.occurrences, List.forall_mem_append] at ht
    rw [Body.nestedBlocks, List.forall_mem_append] at hb
    obtain ⟨h₁, heq⟩ := andThen_fault h
    rw [heq] at h
    have hw := ((upheld_wellFormed hV).visitContinuation
      c s hs (c.meets_ofVars ht.1 _ _) h₁).1.after
    refine (covered_visitContinuation hV hshared c s hs ht.1 hb.1 h₁).append
      (advances_visitContinuation c s h₁).leads ?_
    exact covered_visitBody hV hshared block rest _ hw ht.2 hb.2 h
theorem covered_visitContinuation (hV : Serves V ctx)
    (hshared : ∀ v, V.shared v → v.isGlobalConst = true) :
    ∀ (c : Continuation) (s : State), WellFormed V s → (∀ v ∈ c.occurrences, V.text v) →
    (∀ b' ∈ c.nestedBlocks, b'.unmixed ctx.aliases = true) →
    (visitContinuation ctx c s).fault = none →
    CoveredFrom ctx.aliases (continuationActions ctx c (governed c s)) s.facts
  | .ifElse condition t e, s, hs, ht, hb, h => by
    rw [Continuation.occurrences, List.forall_mem_append, List.forall_mem_append] at ht
    rw [Continuation.nestedBlocks, List.forall_mem_append] at hb
    obtain ⟨h₁, h₂, -⟩ := visitIfElse_eq h
    rw [continuationActions, ← (quiet_governed (.ifElse condition t e) s).facts]
    have hs₁ := hs.of_quiet (quiet_governed (.ifElse condition t e) s)
    generalize governed (.ifElse condition t e) s = s₁ at h₁ h₂ hs₁ ⊢
    obtain ⟨hs₂, hfacts₂⟩ := wellFormed_leaveArm hV hs₁ ht.1.2 h₁
    obtain ⟨hleaves, -⟩ := leaveArm_of_opens h₁ ((Opens.push s₁.facts .branch).append
      (advances_visitBlock t (s₁.push .branch) (leaveArm_fault h₁)))
    obtain ⟨hleaves', -⟩ := leaveArm_of_opens h₂ ((Opens.push _ .branch).append
      (advances_visitBlock e _ (leaveArm_fault h₂)))
    have hcovered := covered_visitBlock hV hshared t _ (hs₁.push .branch)
      ht.1.2 hb.1 (leaveArm_fault h₁)
    have hcovered' := covered_visitBlock hV hshared e _
      (hs₂.push .branch) ht.2 hb.2 (leaveArm_fault h₂)
    refine (hcovered.arm.append hleaves.leads (hfacts₂ ▸ hcovered'.arm)).append
      (hleaves.append (hfacts₂ ▸ hleaves')).leads ?_
    exact .of_not_mem (by simp) _
  | .switch value arms, s, hs, ht, hb, h => by
    rw [Continuation.occurrences, List.forall_mem_append] at ht
    obtain ⟨h₁, -⟩ := visitSwitch_eq h
    rw [continuationActions, ← (quiet_governed (.switch value arms) s).facts]
    have hs₁ := hs.of_quiet (quiet_governed (.switch value arms) s)
    refine (covered_visitArms hV hshared arms _ hs₁ ht.2 hb h₁).append
      (leaves_visitArms arms _ h₁).1.leads (.of_not_mem (by simp) _)
  | .deferred trigger b, s, hs, ht, hb, h => by
    rw [Continuation.occurrences, List.forall_mem_append] at ht
    obtain ⟨h₁, h₂, -⟩ := visitDeferred_eq h
    have hq := quiet_governed (.deferred trigger b) s
    rw [continuationActions, ← hq.facts]
    have hknown : ∀ v ∈ trigger.reads.filterMap Operand.var?,
        (governed (.deferred trigger b) s).knows v = true :=
      knows_of_visitContinuation h
    have hs₂ := wellFormed_enterDeferred (hs.of_quiet hq) ht.1 hknown h₁
    have hopens := opens_enterDeferred h₁
    have hcovered := covered_visitBlock hV hshared b _ hs₂ ht.2 hb (leave_fault h₂)
    refine ((CoveredFrom.of_not_mem (mergeNested_not_mem_trigger _ trigger) _).append hopens.leads
      hcovered).append (hopens.append (advances_visitBlock b _ (leave_fault h₂))).leads ?_
    exact .of_not_mem (by simp) _
  | .nested b, s, hs, ht, hb, h => by
    rw [Continuation.nestedBlocks, List.forall_mem_cons] at hb
    obtain ⟨h₁, -⟩ := visitNested_eq h
    rw [continuationActions, ← (quiet_governed (.nested b) s).facts]
    have hs₁ := hs.of_quiet (quiet_governed (.nested b) s)
    generalize governed (.nested b) s = s₁ at h₁ hs₁ ⊢
    have hfault := leave_fault h₁
    have htidy := ((upheld_wellFormed hV).visitBlock b _
      (hs₁.push .nested) (b.meets_ofVars ht _ _) hfault).after.tidy
    unfold Congruence.scopes at htidy
    rw [outer_visitBlock hfault] at htidy
    have hdeclared : ∀ n, n ∈ (visitBlock ctx b (s₁.push .nested)).state.facts.top.declared
        ↔ ∃ v ∈ b.vars, v.name = n := by
      intro n
      rw [(assigns_visitBlock b _ hfault).level.declared]
      obtain ⟨-, -, -, -, -, -, -, hmem⟩ := foldl_declare_spec b.vars (s₁.push .nested).facts
      exact (hmem n).trans (or_iff_right List.not_mem_nil)
    have hcovers := covers_of_unmixed hshared htidy (invalidated_visitBlock hfault) hdeclared hb.1
    have hleaves := ((Opens.push s₁.facts .nested).append (advances_visitBlock b _ hfault)).pop
    have hcovered := covered_visitBlock hV hshared b _ (hs₁.push .nested) ht hb.2 hfault
    intro t hfacts
    have hsplit : (.push .nested :: blockActions ctx b (s₁.push .nested) ++ [.pop, .mergeNested])
        = (.push .nested :: blockActions ctx b (s₁.push .nested))
          ++ [.pop] ++ [.mergeNested] := by simp
    rw [hsplit]
    refine Session.covered_append.2
      ⟨Session.covered_append.2 ⟨?_, fun t' _ => ?_⟩, fun t' ht' => ?_⟩
    · rw [Session.covered]
      exact hcovered _ (congrArg (·.push .nested) hfacts)
    · exact Session.covered_of_not_mem (by simp) t'
    · -- the scope of the block is the one that is held
      obtain ⟨t₁, h₁, hfacts₁, -, left, hleft, hheld⟩ := hleaves t hfacts
      obtain rfl := Option.some.inj (h₁.symm.trans ht')
      obtain ⟨entry, rfl, hentry⟩ := List.map_eq_singleton_iff.1 hleft
      rw [Session.covered, Session.admits, hheld]
      show (t₁.facts.covers ctx.aliases entry.1 entry.2 && _) = true
      rw [hfacts₁, hentry, hcovers entry.2, Bool.true_and]
      exact (Option.all_eq_true _ _).2 fun _ _ => rfl
theorem covered_visitArms (hV : Serves V ctx) (hshared : ∀ v, V.shared v → v.isGlobalConst = true) :
    ∀ (arms : Arms) (s : State), WellFormed V s → (∀ v ∈ arms.occurrences, V.text v) →
    (∀ b' ∈ arms.nestedBlocks, b'.unmixed ctx.aliases = true) →
    (visitArms ctx arms s).fault = none →
    CoveredFrom ctx.aliases (armsActions ctx arms s) s.facts
  | .none, s, _, _, _, _ => by
    rw [armsActions]
    exact .of_not_mem (by simp) _
  | .default b, s, hs, ht, hb, h => by
    obtain ⟨h₁, -⟩ := visitDefault_cases h
    exact (covered_visitBlock hV hshared b _ (hs.push .branch) ht hb (leaveArm_fault h₁)).arm
  | .case label b rest, s, hs, ht, hb, h => by
    rw [Arms.occurrences, List.forall_mem_append] at ht
    rw [Arms.nestedBlocks, List.forall_mem_append] at hb
    obtain ⟨h₁, h₂, -⟩ := visitCase_cases h
    obtain ⟨hs₂, hfacts₂⟩ := wellFormed_leaveArm hV hs ht.1 h₁
    obtain ⟨hleaves, -⟩ := leaveArm_of_opens h₁ ((Opens.push s.facts .branch).append
      (advances_visitBlock b (s.push .branch) (leaveArm_fault h₁)))
    have hcovered := covered_visitBlock hV hshared b _ (hs.push .branch)
      ht.1 hb.1 (leaveArm_fault h₁)
    have hrest := covered_visitArms hV hshared rest _ hs₂ ht.2 hb.2 h₂
    exact hcovered.arm.append hleaves.leads (hfacts₂ ▸ hrest)
end

end Covered

/-! ## Runs -/

section Runs

variable {settings : Settings} {foreign : Foreign} {globals created : Constants}
  {f : Function} {stats : Stats}

/-- What the facts about a function may speak about if the constants of the
program are marked. -/
def marked (f : Function) (aliases : AliasMap) : Vocabulary :=
  .over aliases (· ∈ f.occurrences) (·.isGlobalConst = true) fun _ _ => id

theorem suits_marked (h : ∀ v ∈ f.occurrences, ∀ w ∈ f.occurrences, v.name = w.name → v = w)
    (ctx : Context) : Suits (marked f ctx.aliases) ctx where
  consistent v w hv hw := h v hv w hw
  made _ _ hc := (Constant.make?_eq_some hc).2.2
  stable _ := Iff.rfl
  fixed _ := Iff.rfl

/-- The walk over a function drops no entry that has hidden anything if no
nested block both declares variables and writes. -/
theorem covered_function {ctx : Context} {facts : Congruence}
    (hconsistent : ∀ v ∈ f.occurrences, ∀ w ∈ f.occurrences, v.name = w.name → v = w)
    (hglobals : globals.Flagged)
    (hnested : ∀ b ∈ f.block.nestedBlocks, b.unmixed ctx.aliases = true)
    (hfacts : f.inputs.foldlM enterInput .new = .ok facts)
    (hfault : (visitBlock ctx f.block (opened globals f facts)).fault = none) :
    Session.new.covered ctx.aliases (functionActions ctx globals f) = true := by
  have hV := suits_marked hconsistent ctx
  have hopened : WellFormed (marked f ctx.aliases) (opened globals f facts) := by
    refine wellFormed_opened (fun v hv => ?_) (fun name c hc => hglobals name c ?_) hfacts
    · exact List.mem_append_left _ (List.mem_append_left _ hv)
    · rcases Option.or_eq_some_iff.1 hc with hc | ⟨-, hc⟩
      · exact hc
      · cases hc
  have houtputs : Advances ctx.aliases (f.outputs.map .declare)
      facts (opened globals f facts).facts :=
    .map Advances.declare _ _
  have hblock := covered_visitBlock hV (fun _ => id) f.block (opened globals f facts) hopened
    (fun v hv => List.mem_append_right _ hv) hnested hfault
  unfold functionActions
  rw [hfacts]
  exact (CoveredFrom.of_not_mem (mergeNested_not_mem_opening f) _).append
    ((advances_enterInputs hfacts).append houtputs).leads hblock .new rfl

/-- **Known values are fresh, unless a nested block hides an older value and
drops what hides it.**

* At every point of a run, a value that is known was recorded behind the last
  write of what it reads, in all arms of the conditionals that came in between,
  provided that no nested block that was left until then has dropped an entry
  for storage that it wrote, while the scopes around give another value for it.
* Where a nested block has dropped such an entry, the scopes give an overwritten
  value behind it.
* No such entry is dropped if no nested block both declares variables and writes
  storage. -/
theorem lookup_fresh (h : (run settings foreign globals f).result = .ok (stats, created))
    {ctx : Context} (hctx : contextOf settings foreign f = .ok ctx) :
    (∀ actions rest, functionActions ctx globals f = actions ++ rest →
      ∃ s, Session.new.exec ctx.aliases actions = some s
        ∧ (Session.new.covered ctx.aliases actions = true →
          ∀ sig rep, s.facts.lookup ctx.aliases ctx.writes sig = some rep →
            ScopeLog.fresh ctx.aliases sig rep (s.log :: s.outer) = true))
    ∧ (Session.new.covered ctx.aliases (functionActions ctx globals f) = false →
      ∃ actions rest s, functionActions ctx globals f = actions ++ rest
        ∧ Session.new.exec ctx.aliases actions = some s
        ∧ ∃ sig rep, Congruence.given? sig s.facts.scopes = some (some rep)
          ∧ ScopeLog.fresh ctx.aliases sig rep (s.log :: s.outer) = false)
    ∧ ((∀ v ∈ f.occurrences, ∀ w ∈ f.occurrences, v.name = w.name → v = w) → globals.Flagged →
      (∀ b ∈ f.block.nestedBlocks, b.unmixed ctx.aliases = true) →
      Session.new.covered ctx.aliases (functionActions ctx globals f) = true) := by
  obtain ⟨ctx', facts, hctx', hfacts, hfault, -, -⟩ := run_eq_ok h
  obtain rfl := Except.ok.inj (hctx'.symm.trans hctx)
  have hwalk : Advances ctx'.aliases (functionActions ctx' globals f) .new _ :=
    advances_visitFunction hfacts hfault
  refine ⟨fun actions rest heq => ?_, fun hdropped => ?_, fun hconsistent hglobals hnested => ?_⟩
  · obtain ⟨s', hs', -⟩ := hwalk.exec .new rfl
    rw [heq, Session.exec_append] at hs'
    obtain ⟨s, hs, -⟩ := Option.bind_eq_some_iff.1 hs'
    refine ⟨s, hs, fun hcovered sig rep hlookup => ?_⟩
    have hprompt := Session.prompt_of_append (heq ▸ prompt_function globals f)
    have hreliable := Session.Reliable.new.exec (by rintro ⟨⟩) hprompt hcovered hs
    obtain ⟨crossed, hfind⟩ := Congruence.find?_of_lookup hlookup
    exact hreliable.fresh_of_given? (Congruence.given?_of_find? hfind)
  · obtain ⟨before, a, behind, s, heq, hs, ha⟩ := Session.exists_not_admits hdropped
    obtain ⟨s', hstep, hstale⟩ := Session.stale_of_not_admits (Session.all_tells hs) ha
    refine ⟨before ++ [a], behind, s', by rw [heq, List.append_assoc]; rfl, ?_, hstale⟩
    rw [Session.exec_append, hs, Option.bind_some, Session.exec_cons, hstep]
    rfl
  · exact covered_function hconsistent hglobals hnested hfacts hfault

/-- An element of an array is read, a nested block gets a value from a foreign
function and stores it as this element, and the element is read again. The
variable for the value is declared in the block or outside. -/
def overwritesElement (outside inside : List Var) : Function where
  name := "f"
  inputs := [⟨"A", .array (.value .int), .stack, .localUser, .user⟩, .value "i" .int]
  outputs := [⟨"o", .future .int, .stack, .outArg, .user⟩]
  target := .control
  block :=
    let arr : Var := ⟨"A", .array (.value .int), .stack, .localUser, .user⟩
    let i : Operand := .var (.value "i" .int)
    .mk ([.value "v1" .int, .value "v2" .int] ++ outside)
      (.instr (.readElement .retrieve (.value "v1" .int) arr i)
      (.cont (.nested (.mk inside
        (.instr (.call .now "g" [.value "w" .int] [])
        (.instr (.writeElement arr i (.var (.value "w" .int))) .done))))
      (.instr (.readElement .retrieve (.value "v2" .int) arr i)
      (.instr (.storeScalar ⟨"o", .future .int, .stack, .outArg, .user⟩ (.var (.value "v2" .int)))
        .done))))

/-- The registry with one function, which has side effects. -/
def effectful : Foreign := Foreign.empty.register ⟨"g", false, true, false, none⟩

/-- A read of the element. -/
def elementRead : Signature :=
  .plain .elementRetrieve
    [.var ⟨"A", .array (.value .int), .stack, .localUser, .user⟩, .var (.value "i" .int)]

/-- The context of a run and the session at its end. -/
def finalSession (foreign : Foreign) (f : Function) : Option (Context × Session) :=
  (contextOf {} foreign f).toOption.bind fun ctx =>
    (Session.new.exec ctx.aliases (functionActions ctx .empty f)).map (ctx, ·)

theorem finalSession_eq_some {ctx : Context} {s : Session}
    (h : finalSession foreign f = some (ctx, s)) :
    contextOf {} foreign f = .ok ctx
      ∧ Session.new.exec ctx.aliases (functionActions ctx .empty f) = some s := by
  obtain ⟨ctx', hctx, h⟩ := Option.bind_eq_some_iff.1 h
  obtain ⟨s', hs, heq⟩ := Option.map_eq_some_iff.1 h
  obtain ⟨rfl, rfl⟩ := Prod.mk.inj heq
  refine ⟨?_, hs⟩
  cases hc : contextOf {} foreign f with
  | error e =>
    rw [hc] at hctx
    cases hctx
  | ok ctx =>
    rw [hc] at hctx
    exact congrArg _ (Option.some.inj hctx)

/-- With the variable declared outside, the block writes without declaring, and
the new value is the one that is known behind it. -/
theorem lookup_fresh_overwritesElement :
    ∃ ctx s, contextOf {} effectful (overwritesElement [.value "w" .int] []) = .ok ctx
      ∧ Session.new.exec ctx.aliases
        (functionActions ctx .empty (overwritesElement [.value "w" .int] [])) = some s
      ∧ s.facts.lookup ctx.aliases ctx.writes elementRead = some (.var (.value "w" .int))
      ∧ ScopeLog.fresh ctx.aliases elementRead (.var (.value "w" .int)) (s.log :: s.outer) = true
      ∧ ScopeLog.fresh ctx.aliases elementRead (.var (.value "v1" .int)) (s.log :: s.outer)
        = false := by
  have hend : ((finalSession effectful (overwritesElement [.value "w" .int] [])).any fun e =>
      decide (e.2.facts.lookup e.1.aliases e.1.writes elementRead = some (.var (.value "w" .int)))
        && !ScopeLog.fresh e.1.aliases elementRead (.var (.value "v1" .int)) (e.2.log :: e.2.outer)
        && (overwritesElement [.value "w" .int] []).block.nestedBlocks.all (·.unmixed e.1.aliases))
          = true := by
    decide +kernel
  obtain ⟨⟨ctx, s⟩, he, hok⟩ := (Option.any_eq_true _ _).1 hend
  obtain ⟨hctx, hs⟩ := finalSession_eq_some he
  simp only [Bool.and_eq_true, decide_eq_true_eq, Bool.not_eq_true'] at hok
  obtain ⟨⟨hlookup, hstale⟩, hnested⟩ := hok
  have hrun : (run {} effectful .empty (overwritesElement [.value "w" .int] [])).result
      = .ok (⟨1, 1, 0, 0, 0, 0⟩, .empty) := by decide +kernel
  obtain ⟨hfresh, -, hcovered⟩ := lookup_fresh hrun hctx
  obtain ⟨s', hs', hfresh⟩ := hfresh _ [] (List.append_nil _).symm
  obtain rfl := Option.some.inj (hs'.symm.trans hs)
  refine ⟨ctx, s', hctx, hs, hlookup, hfresh ?_ _ _ hlookup, hstale⟩
  exact hcovered (by decide +kernel) Constants.flagged_empty (List.all_eq_true.1 hnested)

/-- **An overwritten value is known again** where the block declares the
variable: the entry for the new value is dropped with it, the first value comes
to light, and it is what the output is given. -/
theorem stale_of_dropped :
    (∀ v ∈ (overwritesElement [] [.value "w" .int]).occurrences,
      ∀ w ∈ (overwritesElement [] [.value "w" .int]).occurrences, v.name = w.name → v = w)
    ∧ (overwritesElement [] [.value "w" .int]).block.declaresAnew ["A", "i", "o"] = true
    ∧ (∃ ctx s, contextOf {} effectful (overwritesElement [] [.value "w" .int]) = .ok ctx
      ∧ Session.new.exec ctx.aliases
        (functionActions ctx .empty (overwritesElement [] [.value "w" .int])) = some s
      ∧ s.facts.lookup ctx.aliases ctx.writes elementRead = some (.var (.value "v1" .int))
      ∧ ScopeLog.fresh ctx.aliases elementRead (.var (.value "v1" .int)) (s.log :: s.outer) = false)
    ∧ .storeScalar ⟨"o", .future .int, .stack, .outArg, .user⟩ (.var (.value "v1" .int))
      ∈ (run {} effectful .empty
        (overwritesElement [] [.value "w" .int])).function.block.instructions := by
  have hend : ((finalSession effectful (overwritesElement [] [.value "w" .int])).any fun e =>
      decide (e.2.facts.lookup e.1.aliases e.1.writes elementRead = some (.var (.value "v1" .int)))
        && !ScopeLog.fresh e.1.aliases elementRead (.var (.value "v1" .int)) (e.2.log :: e.2.outer))
          = true := by
    decide +kernel
  obtain ⟨⟨ctx, s⟩, he, hok⟩ := (Option.any_eq_true _ _).1 hend
  obtain ⟨hctx, hs⟩ := finalSession_eq_some he
  simp only [Bool.and_eq_true, decide_eq_true_eq, Bool.not_eq_true'] at hok
  exact ⟨by decide +kernel, by decide +kernel, ⟨ctx, s, hctx, hs, hok.1, hok.2⟩, by decide +kernel⟩

end Runs

end Numbering

end ValueFlow
