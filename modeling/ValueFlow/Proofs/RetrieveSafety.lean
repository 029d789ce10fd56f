import ValueFlow.Proofs.ClosedVariables
import ValueFlow.Proofs.RetrieveSafeTrees
import ValueFlow.Proofs.ShortChains

/-!
# Retrieves stay guarded

A function is *retrieve-safe* if whatever it reads at once is closed by then, as
a walk over its tree can tell (`Function.retrieveSafe`). Numbering drops
variables from waits when their representatives are closed, and it redirects the
retrieves inside to these representatives. The two go together only if a
variable has the same representative at the wait and inside, so the walk has to
be steady (`retrieveSafe_run`). If a chain of representatives is longer than the
stack of scopes, the retrieve inside finds another representative, and it stays
on a variable that is not waited for any more (`unguarded_of_longChain`).
-/

namespace ValueFlow

namespace Numbering

section Closing

variable {ctx : Context} {v : Var} {s : State}

/-- **Where a deferred block starts**, what its trigger closes is closed, and
what was closed before. -/
theorem isClosed_enterDeferred {t : Trigger} (hf : (enterDeferred ctx t s).fault = none) :
    (enterDeferred ctx t s).state.facts.isClosed v = true
      ↔ v.name ∈ (enterDeferred ctx t s).tree.closes ∨ s.facts.isClosed v = true := by
  cases t with
  | wait vars target mode =>
    obtain ⟨htree, hq⟩ := enterWait_spec ctx vars target mode s
    rw [hq.facts, htree, Congruence.isClosed_foldl_close]
    exact Iff.rfl
  | range index start stop step =>
    obtain ⟨facts, hdefine, htree, hq⟩ := enterRange_cases hf
    obtain ⟨-, rfl⟩ := Congruence.define_eq_ok.1 hdefine
    rw [hq.facts, htree, Congruence.isClosed_close, Trigger.closes, List.mem_singleton, eq_comm]
    exact Iff.rfl
  | foreach array member => exact (or_iff_right List.not_mem_nil).symm

end Closing

/-! ## Dropped waits -/

/-- **The variables that are not waited for any more** are represented by closed
ones. -/
structure Dropped (V : Vocabulary) (pairs : List (Var × Var)) (s : State) : Prop where
  fitting : Fitting V s
  represented : ∀ e ∈ pairs, s.facts.representative? e.1 = some (.var e.2)
  closed : ∀ e ∈ pairs, s.facts.isClosed e.2 = true

/-- **What is closed in a tree is closed in the walked tree**, or it is not
waited for any more. Nothing is said about values, which need no waiting. -/
def Accounted (V : Vocabulary) (pairs : List (Var × Var)) (names names' : List String) : Prop :=
  ∀ v, V.text v → v.ty.isValue = false → v.isClosedIn names = true →
    v.isClosedIn names' = true ∨ ∃ e ∈ pairs, e.1.name = v.name

/-- **A state is guarded**: what its facts say is closed is closed in the walked
tree, and the walked tree accounts for what is closed in the tree. -/
structure Guarded (V : Vocabulary) (pairs : List (Var × Var)) (names names' : List String)
    (s : State) : Prop
    extends Dropped V pairs s where
  known : ∀ v, s.facts.isClosed v = true → v.isClosedIn names' = true
  accounted : Accounted V pairs names names'

section Instruction

variable {V : Vocabulary} {ctx : Context} {block : Nat} {i : Instruction} {s : State}
  {pairs : List (Var × Var)} {names names' : List String} {v : Var}

/-- What is read at once is redirected to closed variables only. -/
theorem isClosed_of_retrieved {facts : Congruence} {rep : Operand}
    (h : replacement? facts .retrieved (.var v) = some rep) :
    ∃ r, rep = .var r ∧ facts.isClosed r = true := by
  obtain ⟨-, -, hrep⟩ := replacement?_eq_some h
  unfold replacement? at h
  cases hv : facts.canonical? v with
  | none => simp [hv, Operand.var?] at h
  | some rep' =>
    cases rep' with
    | lit l => simp [hv, Operand.var?] at h
    | var r =>
      simp only [Operand.var?, hv, Option.bind_eq_bind,
        Option.bind_some, Option.ite_none_left_eq_some,
        Option.ite_none_right_eq_some, Option.some.injEq, Bool.and_eq_true] at h
      exact ⟨r, h.2.2.symm, h.2.1.2⟩

/-- **A variable that is not waited for any more is redirected.** -/
theorem Dropped.replacement? (hs : Dropped V pairs s) (hshort : s.facts.isShort = true)
    (hv : V.text v) {e : Var × Var} (he : e ∈ pairs) (hname : e.1.name = v.name) :
    replacement? s.facts .retrieved (.var v) = some (.var e.2) := by
  have hrep : s.facts.representative? v = some (.var e.2) := by
    rw [← Congruence.representative?_congr hname]
    exact hs.represented e he
  have hty : e.2.ty = v.ty := of_decide_eq_true (hs.fitting v _ hv hrep)
  -- a variable with a representative is not a representative itself
  have hne : (Operand.var e.2).same (.var v) = false := by
    by_contra hsame
    have heq : e.2.name = v.name := by simpa [Operand.same, Operand.key] using hsame
    have hnone := Congruence.representative?_of_isShort hshort hrep
    rw [Congruence.representative?_congr heq, hrep] at hnone
    cases hnone
  simp [Numbering.replacement?, Operand.var?, (Congruence.short_of_isShort hshort).canonical?,
    hrep, hne, hty, hs.closed e he]

/-- A variable that is read at once, in place of one that is closed in the tree,
is closed in the walked tree. -/
theorem Guarded.isClosedIn_retrieved (hs : Guarded V pairs names names' s)
    (hshort : s.facts.isShort = true) (hv : V.text v) (hvalue : v.ty.isValue = false)
    (hclosed : v.isClosedIn names = true) :
    (Instruction.varOr v (replace s.facts .retrieved (.var v))).isClosedIn names' = true := by
  unfold replace
  cases hrep : replacement? s.facts .retrieved (.var v) with
  | some rep =>
    obtain ⟨r, rfl, hr⟩ := isClosed_of_retrieved hrep
    exact hs.known r hr
  | none =>
    rcases hs.accounted v hv hvalue hclosed with h | ⟨e, he, hname⟩
    · exact h
    · rw [hs.replacement? hshort hv he hname] at hrep
      cases hrep

theorem retrieves_mapOperands (f : Role → Operand → Operand) (i : Instruction) :
    (i.mapOperands f).retrieves = i.retrieves.map
      fun v => Instruction.varOr v (f .retrieved (.var v)) := by
  cases i <;> rfl

theorem retrieves_visitInstruction (hf : (visitInstruction ctx block i s).fault = none) :
    (visitInstruction ctx block i s).tree.retrieves
      ⊆ (i.mapOperands (replace s.facts)).retrieves := by
  rcases visitInstruction_tree hf with heq | ⟨dst, l, -, heq⟩
  · rw [heq]
    exact List.Subset.refl _
  · rw [heq]
    exact List.nil_subset _

theorem closes_mapOperands (f : Role → Operand → Operand) (hv : v ∈ i.closes) :
    v ∈ i.retrieves ∨ v ∈ (i.mapOperands f).closes := by
  cases i with
  | loadScalar dst src =>
    rcases List.mem_cons.1 hv with rfl | hv
    · exact .inl (List.mem_singleton_self v)
    · exact .inr (List.mem_cons_of_mem _ hv)
  | loadRef dst src =>
    rcases List.mem_cons.1 hv with rfl | hv
    · exact .inl (List.mem_singleton_self v)
    · exact .inr (List.mem_cons_of_mem _ hv)
  | _ => exact .inr hv

theorem closes_of_foldable? {foreign : Foreign} {dst : Var} {l : Literal}
    (h : foldable? foreign i = some dst) :
    i.closes = (Instruction.compute .now .copy dst [.lit l]).closes := by
  unfold foldable? at h
  split at h
  · split at h
    · cases h
      rfl
    · cases h
  · split at h
    · cases h
      rfl
    · cases h
  · cases h

/-- What an instruction closes was read by it at once, or it is closed in its
place. -/
theorem closes_visitInstruction (hf : (visitInstruction ctx block i s).fault = none)
    (hv : v ∈ i.closes) : v ∈ i.retrieves ∨ v ∈ (visitInstruction ctx block i s).tree.closes := by
  refine (closes_mapOperands (replace s.facts) hv).imp_right fun hv => ?_
  rcases visitInstruction_tree hf with heq | ⟨dst, l, hdst, heq⟩
  · rwa [heq]
  · rwa [heq, ← closes_of_foldable? hdst]

/-- A visit keeps what is said about dropped variables, as long as it assigns
none of them. -/
theorem Dropped.visitInstruction
    (hconsistent : ∀ v w, V.text v → V.text w → v.name = w.name → v = w) (hs : Dropped V pairs s)
    (hi : i.All V.text)
    (hunassigned : i.assigned.all (fun o => (s.facts.representative? o).isNone) = true)
    (hf : (visitInstruction ctx block i s).fault = none) :
    Dropped V pairs (visitInstruction ctx block i s).state where
  fitting := (upheld_fitting hconsistent).instruction hs.fitting hi hf
  represented e he := by
    have hrep := hs.represented e he
    rw [representative?_of_unassigned hf fun out hout hname => ?_]
    · exact hrep
    · have hnone := Option.isNone_iff_eq_none.1 (List.all_eq_true.1 hunassigned out hout)
      rw [Congruence.representative?_congr hname, hrep] at hnone
      cases hnone
  closed e he := (isClosed_visitInstruction hf).2 (.inr (hs.closed e he))

/-- **A visited instruction reads only closed variables at once**, and the state
stays guarded. -/
theorem Guarded.visitInstruction
    (hconsistent : ∀ v w, V.text v → V.text w → v.name = w.name → v = w)
    (hs : Guarded V pairs names names' s) (hi : i.All V.text)
    (hvalues : ∀ v ∈ i.retrieves, v.ty.isValue = false) (hshort : s.facts.isShort = true)
    (hunassigned : i.assigned.all (fun o => (s.facts.representative? o).isNone) = true)
    (hsafe : i.retrieves.all (·.isClosedIn names) = true)
    (hf : (visitInstruction ctx block i s).fault = none) :
    let left := Numbering.visitInstruction ctx block i s
    left.tree.retrieves.all (·.isClosedIn names') = true
      ∧ Guarded V pairs (i.closedBehind names) (left.tree.closedBehind names') left.state := by
  have htext : ∀ v ∈ i.retrieves, V.text v := fun v hv => hi.1 _ (i.reads_of_retrieves hv)
  rw [List.all_eq_true] at hsafe
  refine ⟨List.all_eq_true.2 fun w hw => ?_,
    hs.toDropped.visitInstruction hconsistent hi hunassigned hf, ?_, ?_⟩
  · have hw := retrieves_visitInstruction hf hw
    rw [retrieves_mapOperands] at hw
    obtain ⟨v, hv, rfl⟩ := List.mem_map.1 hw
    exact hs.isClosedIn_retrieved hshort (htext v hv) (hvalues v hv) (hsafe v hv)
  · intro v hv
    rw [isClosed_visitInstruction hf, List.mem_map] at hv
    exact Instruction.isClosedIn_closedBehind.2 (hv.imp_right (hs.known v))
  · intro v hv hvalue hclosed
    rw [Instruction.isClosedIn_closedBehind]
    rcases Instruction.isClosedIn_closedBehind.1 hclosed with ⟨w, hw, hname⟩ | hclosed
    · rcases closes_visitInstruction hf hw with hw | hw
      · obtain rfl := hconsistent w v (htext w hw) hv hname
        exact (hs.accounted w hv hvalue (hsafe w hw)).imp_left .inr
      · exact .inl (.inl ⟨w, hw, hname⟩)
    · exact (hs.accounted v hv hvalue hclosed).imp_left .inr

end Instruction

/-! ## Scopes -/

section Scopes

variable {V : Vocabulary} {ctx : Context} {s s' : State}
  {pairs : List (Var × Var)} {names names' : List String}
  {arms : List Scope} {c : Congruence}

theorem Dropped.of_facts (h : Dropped V pairs s)
    (hrep : s'.facts.representative? = s.facts.representative?)
    (hclosed : ∀ v, s.facts.isClosed v = true → s'.facts.isClosed v = true) :
    Dropped V pairs s' where
  fitting := h.fitting.of_facts hrep
  represented e he := hrep ▸ h.represented e he
  closed e he := hclosed _ (h.closed e he)

/-- States with the same representatives and closed variables are guarded alike. -/
theorem Guarded.of_facts (h : Guarded V pairs names names' s)
    (hrep : s'.facts.representative? = s.facts.representative?)
    (hclosed : s'.facts.isClosed = s.facts.isClosed) : Guarded V pairs names names' s' where
  toDropped := h.toDropped.of_facts hrep fun _ hv => hclosed ▸ hv
  known v hv := h.known v (hclosed ▸ hv)
  accounted := h.accounted

theorem Guarded.of_quiet (h : Guarded V pairs names names' s) (hq : Quiet s s') :
    Guarded V pairs names names' s' :=
  h.of_facts (congrArg _ hq.facts) (congrArg _ hq.facts)

theorem Guarded.push (h : Guarded V pairs names names' s) (kind : ScopeKind) :
    Guarded V pairs names names' (s.push kind) := h.of_facts rfl rfl

theorem Guarded.enterBlock (h : Guarded V pairs names names' s) (vars : List Var) :
    Guarded V pairs names names' (enterBlock vars s) := by
  obtain ⟨ho, -, -, hcan, -⟩ := foldl_declare_spec vars s.facts
  exact h.of_facts (Congruence.representative?_eq_of_top ho hcan)
    (Congruence.isClosed_foldl_declare vars s.facts)

/-- An entry of an inner scope is the one that is known. -/
theorem Dropped.of_entry {child : Scope} {outer : List Scope} (h : Dropped V pairs s)
    (hfacts : s.facts = ⟨child, outer⟩) {e : Var × Var} (he : e ∈ pairs) {entry : Var × Operand}
    (hentry : entry ∈ child.canonical.entries) (hname : entry.1.name = e.1.name) :
    entry.2 = .var e.2 := by
  have hrep := h.represented e he
  rw [hfacts, ← Congruence.representative?_congr hname,
    Congruence.representative?_of_get? (Table.get?_of_mem hentry)] at hrep
  exact Option.some.inj hrep

theorem Dropped.nested (hs : Dropped V pairs s) (hs' : Dropped V pairs s')
    (ho : s'.facts.outer = s.facts.scopes) :
    Dropped V pairs { s' with facts := s.facts.mergeNested s'.facts.top } where
  fitting := hs.fitting.nested hs'.fitting ho
  represented e he := by
    have hfacts : s'.facts = ⟨s'.facts.top, s.facts.scopes⟩ := by rw [← ho]
    refine Congruence.representative?_eq_of_insertAll s.facts _ _ (hs.represented e he) rfl rfl ?_
    exact fun entry hentry => hs'.of_entry hfacts he (List.mem_filter.1 hentry).1
  closed e he := Congruence.isClosed_mergeNested (hs.closed e he)

theorem Dropped.branches (hs : Dropped V pairs s)
    (harms : ∀ arm ∈ arms, ∃ s', Dropped V pairs s' ∧ s'.facts = ⟨arm, s.facts.scopes⟩) :
    Dropped V pairs (mergeArms ctx arms s) where
  fitting := hs.fitting.branches fun arm harm =>
    let ⟨s', hs', hfacts⟩ := harms arm harm
    ⟨s', hs'.fitting, hfacts⟩
  represented e he := by
    have hrep := hs.represented e he
    show (s.facts.mergeBranches ctx.aliases ctx.settings.branchMerge arms).2.representative? e.1 = _
    rw [← Congruence.representative?_absorbArms ctx.aliases arms] at hrep
    rcases Congruence.mergeBranches_cases ctx.aliases ctx.settings.branchMerge arms s.facts with
      heq | ⟨first, rest, rfl, heq⟩
    · rwa [heq]
    · rw [heq]
      refine Congruence.representative?_eq_of_insertAll _ _ _ hrep rfl rfl fun entry hentry => ?_
      obtain ⟨s', hs', hfacts⟩ := harms first List.mem_cons_self
      exact hs'.of_entry hfacts he (List.mem_filter.1 hentry).1
  closed e he := Congruence.isClosed_mergeBranches (hs.closed e he)

/-- **A nested block is left.** -/
theorem Guarded.nested {inner inner' : List String} (hs : Guarded V pairs names names' s)
    (hs' : Guarded V pairs inner inner' s') (ho : s'.facts.outer = s.facts.scopes) :
    Guarded V pairs inner inner' { s' with facts := s.facts.mergeNested s'.facts.top } where
  toDropped := hs.toDropped.nested hs'.toDropped ho
  known v hv := by
    refine hs'.known v ?_
    have hfacts : s'.facts = ⟨s'.facts.top, s.facts.scopes⟩ := by rw [← ho]
    rw [hfacts]
    exact Congruence.isClosed_of_mergeNested hv
  accounted := hs'.accounted

/-- **A deferred block is left**: nothing is known about what it did. -/
theorem Guarded.deferred (hs : Guarded V pairs names names' s) (s' : State) :
    Guarded V pairs names names' { s' with facts := s.facts.mergeDeferred s'.facts.top } :=
  hs.of_facts (Congruence.representative?_eq_of_top rfl rfl) (Congruence.isClosed_eq_of_top rfl rfl)

/-- **What the walk over the arms of a conditional leaves**: the scope of each
arm, in which the dropped variables are as they were, and what is closed in all
arms is closed behind them. -/
structure ArmsGuarded (V : Vocabulary) (pairs : List (Var × Var)) (names names' : List String)
    (c : Congruence) (arms : List Scope) : Prop where
  dropped : ∀ arm ∈ arms, ∃ s', Dropped V pairs s' ∧ s'.facts = ⟨arm, c.scopes⟩
  known : ∀ v, (∀ arm ∈ arms, (⟨arm, c.scopes⟩ : Congruence).isClosed v = true) →
    v.isClosedIn names' = true
  accounted : Accounted V pairs names names'

theorem Accounted.commonNames {others others' : List String} (h : Accounted V pairs names names')
    (h' : Accounted V pairs others others') :
    Accounted V pairs (commonNames names others) (commonNames names' others') := by
  intro v hv hvalue hclosed
  obtain ⟨h₁, h₂⟩ := Var.isClosedIn_commonNames.1 hclosed
  rcases h v hv hvalue h₁, h' v hv hvalue h₂ with ⟨h₁ | h₁, h₂ | h₂⟩
  · exact .inl (Var.isClosedIn_commonNames.2 ⟨h₁, h₂⟩)
  · exact .inr h₂
  · exact .inr h₁
  · exact .inr h₁

theorem ArmsGuarded.single {arm : Scope} (h : Guarded V pairs names names' s)
    (hfacts : s.facts = ⟨arm, c.scopes⟩) : ArmsGuarded V pairs names names' c [arm] where
  dropped _ harm := ⟨s, h.toDropped, List.mem_singleton.1 harm ▸ hfacts⟩
  known v hv := h.known v (hfacts ▸ hv arm (List.mem_singleton_self arm))
  accounted := h.accounted

theorem ArmsGuarded.cons {others others' : List String} {arm : Scope}
    (h : Guarded V pairs names names' s) (hfacts : s.facts = ⟨arm, c.scopes⟩)
    (hrest : ArmsGuarded V pairs others others' c arms) :
    ArmsGuarded V pairs (commonNames names others) (commonNames names' others')
      c (arm :: arms) where
  dropped := List.forall_mem_cons.2 ⟨⟨s, h.toDropped, hfacts⟩, hrest.dropped⟩
  known v hv := by
    obtain ⟨harm, harms⟩ := List.forall_mem_cons.1 hv
    exact Var.isClosedIn_commonNames.2 ⟨h.known v (hfacts ▸ harm), hrest.known v harms⟩
  accounted := h.accounted.commonNames hrest.accounted

/-- **All arms of a conditional are left.** -/
theorem Guarded.branches {inner inner' : List String} (hs : Guarded V pairs names names' s)
    (harms : ArmsGuarded V pairs inner inner' s.facts arms) :
    Guarded V pairs inner inner' (mergeArms ctx arms s) where
  toDropped := hs.toDropped.branches harms.dropped
  known v hv := harms.known v (Congruence.isClosed_of_mergeBranches hv)
  accounted := harms.accounted

/-! ## Waits -/

/-- The variables that a wait drops in favour of closed representatives. -/
def droppedBy (c : Congruence) (vars : List Var) : List (Var × Var) :=
  vars.filterMap fun v => (((c.representative? v).bind Operand.var?).filter c.isClosed).map (v, ·)

theorem mem_droppedBy {vars : List Var} {e : Var × Var} :
    e ∈ droppedBy c vars ↔ e.1 ∈ vars ∧ c.representative? e.1 = some (.var e.2)
      ∧ c.isClosed e.2 = true := by
  have hvar : ∀ rep : Operand, rep.var? = some e.2 ↔ rep = .var e.2 := fun rep => by
    cases rep <;> simp [Operand.var?]
  unfold droppedBy
  simp only [List.mem_filterMap, Option.map_eq_some_iff,
    Option.filter_eq_some_iff, Option.bind_eq_some_iff]
  constructor
  · rintro ⟨v, hv, r, ⟨⟨rep, hrep, hr⟩, hclosed⟩, rfl⟩
    rw [(hvar rep).1 hr] at hrep
    exact ⟨hv, hrep, hclosed⟩
  · rintro ⟨hv, hrep, hclosed⟩
    exact ⟨e.1, hv, e.2, ⟨⟨_, hrep, rfl⟩, hclosed⟩, rfl⟩

/-- A variable that a wait does not keep is closed, or it is dropped in favour
of a closed representative. -/
theorem Fitting.cases_of_isAvailable (hs : Fitting V s) (hshort : s.facts.isShort = true)
    {v : Var} {vars : List Var} (hmem : v ∈ vars) (hv : V.text v) (hvalue : v.ty.isValue = false)
    (h : isAvailable s.facts v = true) :
    s.facts.isClosed v = true ∨ ∃ e ∈ droppedBy s.facts vars, e.1.name = v.name := by
  unfold isAvailable at h
  rw [(Congruence.short_of_isShort hshort).canonical?] at h
  refine (Bool.or_eq_true_iff.1 h).imp_right fun h => ?_
  cases hrep : s.facts.representative? v with
  | none => simp [hrep] at h
  | some rep =>
    cases rep with
    | var r =>
      rw [hrep] at h
      exact ⟨(v, r), mem_droppedBy.2 ⟨hmem, hrep, h⟩, rfl⟩
    | lit l =>
      -- only a value has a literal in its place
      have hfits := hs v _ hv hrep
      cases l <;> simp [Operand.compatibleWith, hvalue] at hfits

/-- **A deferred block is entered**; more variables may be dropped then. -/
theorem Guarded.enterDeferred (hconsistent : ∀ v w, V.text v → V.text w → v.name = w.name → v = w)
    (hs : Guarded V pairs names names' s) (hshort : s.facts.isShort = true) {t : Trigger}
    (ht : ∀ v ∈ t.occurrences, V.text v) (hf : (enterDeferred ctx t s).fault = none) :
    let entered := Numbering.enterDeferred ctx t s
    ∃ more, Guarded V more (t.closes ++ names) (entered.tree.closes ++ names') entered.state := by
  have hrep := representative?_enterDeferred hf
  have hgrows : ∀ v, s.facts.isClosed v = true →
      (Numbering.enterDeferred ctx t s).state.facts.isClosed v = true :=
    fun v hv => (isClosed_enterDeferred hf).2 (.inr hv)
  have hknown : ∀ v, (Numbering.enterDeferred ctx t s).state.facts.isClosed v = true →
      v.isClosedIn ((Numbering.enterDeferred ctx t s).tree.closes ++ names') = true := fun v hv =>
    Var.isClosedIn_append.2 (((isClosed_enterDeferred hf).1 hv).imp_right (hs.known v))
  -- a trigger that is left as it is drops nothing
  have hsame : (Numbering.enterDeferred ctx t s).tree.closes = t.closes →
      Guarded V pairs (t.closes ++ names) ((Numbering.enterDeferred ctx t s).tree.closes ++ names')
        (Numbering.enterDeferred ctx t s).state := fun hcloses =>
    ⟨hs.toDropped.of_facts hrep hgrows, hknown, fun v hv hvalue hclosed => by
      rw [hcloses, Var.isClosedIn_append]
      rcases Var.isClosedIn_append.1 hclosed with hclosed | hclosed
      · exact .inl (.inl hclosed)
      · exact (hs.accounted v hv hvalue hclosed).imp_left .inr⟩
  cases t with
  | wait vars target mode =>
    have htree : (Numbering.enterDeferred ctx (.wait vars target mode) s).tree.closes
        = (keptWaits ctx s.facts vars).map (·.name) := by
      rw [(enterWait_spec ctx vars target mode s).1, Trigger.closes]
    have hdropped : Dropped V (pairs ++ droppedBy s.facts vars) s :=
      ⟨hs.fitting, List.forall_mem_append.2 ⟨hs.represented, fun e he => (mem_droppedBy.1 he).2.1⟩,
        List.forall_mem_append.2 ⟨hs.closed, fun e he => (mem_droppedBy.1 he).2.2⟩⟩
    refine ⟨pairs ++ droppedBy s.facts vars, hdropped.of_facts hrep hgrows,
      hknown, fun v hv hvalue hclosed => ?_⟩
    rw [htree, Var.isClosedIn_append]
    rcases Var.isClosedIn_append.1 hclosed with hclosed | hclosed
    · obtain ⟨w, hw, hname⟩ := List.mem_map.1 hclosed
      obtain rfl := hconsistent w v (ht w hw) hv hname
      by_cases hkept : w ∈ keptWaits ctx s.facts vars
      · exact .inl (.inl (List.mem_map_of_mem hkept))
      · have havailable : isAvailable s.facts w = true := by
          unfold keptWaits at hkept
          split at hkept
          · simpa [hw] using hkept
          · exact absurd hw hkept
        rcases hs.fitting.cases_of_isAvailable hshort hw hv hvalue havailable
          with hw | ⟨e, he, hname⟩
        · exact .inl (.inr (hs.known w hw))
        · exact .inr ⟨e, List.mem_append_right _ he, hname⟩
    · rcases hs.accounted v hv hvalue hclosed with h | ⟨e, he, hname⟩
      · exact .inl (.inr h)
      · exact .inr ⟨e, List.mem_append_left _ he, hname⟩
  | range index start stop step =>
    obtain ⟨-, -, htree, -⟩ := enterRange_cases hf
    exact ⟨pairs, hsame (by rw [htree, Trigger.closes, Trigger.closes])⟩
  | foreach array member => exact ⟨pairs, hsame rfl⟩

end Scopes

/-! ## The walk -/

section Walk

variable {V : Vocabulary} {ctx : Context}

theorem Guarded.leaveArm {pairs : List (Var × Var)} {names names' : List String} {b : Block}
    {s : State} (hs : Guarded V pairs names names' s)
    (hf : (leaveArm (visitBlock ctx b (s.push .branch))).fault = none) :
    let left := Numbering.leaveArm (visitBlock ctx b (s.push .branch))
    Guarded V pairs names names' left.state ∧ left.state.facts = s.facts
      ∧ left.tree.1 = (visitBlock ctx b (s.push .branch)).tree
      ∧ (visitBlock ctx b (s.push .branch)).state.facts = ⟨left.tree.2, s.facts.scopes⟩ := by
  have hfault := leaveArm_fault hf
  have ho := outer_visitBlock hfault
  rw [leaveArm_eq hfault ho]
  exact ⟨hs.of_facts rfl rfl, rfl, rfl, by rw [← ho]⟩

mutual
/-- **A walked block is retrieve-safe again.** -/
theorem guarded_visitBlock (hconsistent : ∀ v w, V.text v → V.text w → v.name = w.name → v = w) :
    ∀ (b : Block) (s : State) {pairs : List (Var × Var)} {names names' : List String},
    (visitBlock ctx b s).fault = none → (∀ v ∈ b.occurrences, V.text v) →
    (∀ i ∈ b.instructions, ∀ v ∈ i.retrieves, v.ty.isValue = false) → steadyBlock ctx b s = true →
    Guarded V pairs names names' s → b.retrieveSafe names = true →
    (visitBlock ctx b s).tree.retrieveSafe names' = true
      ∧ Guarded V pairs (b.closedBehind names) ((visitBlock ctx b s).tree.closedBehind names')
        (visitBlock ctx b s).state
  | .mk vars body, s, pairs, names, names', h, htext, hvalues, hsteady, hs, hsafe => by
    rw [visitBlock_eq] at h ⊢
    rw [Block.occurrences, List.forall_mem_append] at htext
    rw [Visit.map, Block.retrieveSafe, Block.closedBehind, Block.closedBehind]
    exact guarded_visitBody hconsistent s.nextBlock body
      _ h htext.2 hvalues hsteady (hs.enterBlock vars) hsafe
theorem guarded_visitBody (hconsistent : ∀ v w, V.text v → V.text w → v.name = w.name → v = w)
    (block : Nat) :
    ∀ (b : Body) (s : State) {pairs : List (Var × Var)} {names names' : List String},
    (visitBody ctx block b s).fault = none → (∀ v ∈ b.occurrences, V.text v) →
    (∀ i ∈ b.instructions, ∀ v ∈ i.retrieves, v.ty.isValue = false) →
    steadyBody ctx block b s = true →
    Guarded V pairs names names' s → b.retrieveSafe names = true →
    (visitBody ctx block b s).tree.retrieveSafe names' = true
      ∧ Guarded V pairs (b.closedBehind names) ((visitBody ctx block b s).tree.closedBehind names')
        (visitBody ctx block b s).state
  | .done, s, pairs, names, names', _, _, _, _, hs, _ => ⟨rfl, hs⟩
  | .instr i rest, s, pairs, names, names', h, htext, hvalues, hsteady, hs, hsafe => by
    rw [visitBody] at h ⊢
    obtain ⟨h₁, heq⟩ := andThen_fault h
    rw [heq] at h ⊢
    rw [Body.occurrences, List.forall_mem_append] at htext
    rw [Body.instructions, List.forall_mem_cons] at hvalues
    rw [steadyBody, Bool.and_eq_true, Bool.and_eq_true] at hsteady
    rw [Body.retrieveSafe, Bool.and_eq_true] at hsafe
    obtain ⟨hretrieves, hs₁⟩ :=
      hs.visitInstruction hconsistent (Instruction.all_iff.2 htext.1) hvalues.1
      hsteady.1.1 hsteady.1.2 hsafe.1 h₁
    obtain ⟨hrest, hs₂⟩ :=
      guarded_visitBody hconsistent block rest _ h htext.2 hvalues.2 hsteady.2 hs₁ hsafe.2
    rw [Visit.map, Body.retrieveSafe, Body.closedBehind, Body.closedBehind, Bool.and_eq_true]
    exact ⟨⟨hretrieves, hrest⟩, hs₂⟩
  | .cont c rest, s, pairs, names, names', h, htext, hvalues, hsteady, hs, hsafe => by
    rw [visitBody] at h ⊢
    obtain ⟨h₁, heq⟩ := andThen_fault h
    rw [heq] at h ⊢
    rw [Body.occurrences, List.forall_mem_append] at htext
    rw [Body.instructions, List.forall_mem_append] at hvalues
    rw [steadyBody, Bool.and_eq_true, Bool.and_eq_true] at hsteady
    rw [Body.retrieveSafe, Bool.and_eq_true] at hsafe
    obtain ⟨hc, hs₁⟩ := guarded_visitContinuation hconsistent
      c s h₁ htext.1 hvalues.1 hsteady.1.1 hsteady.1.2 hs hsafe.1
    obtain ⟨hrest, hs₂⟩ :=
      guarded_visitBody hconsistent block rest _ h htext.2 hvalues.2 hsteady.2 hs₁ hsafe.2
    rw [Visit.map, Body.retrieveSafe, Body.closedBehind, Body.closedBehind, Bool.and_eq_true]
    exact ⟨⟨hc, hrest⟩, hs₂⟩
theorem guarded_visitContinuation
    (hconsistent : ∀ v w, V.text v → V.text w → v.name = w.name → v = w) :
    ∀ (c : Continuation) (s : State) {pairs : List (Var × Var)} {names names' : List String},
    (visitContinuation ctx c s).fault = none → (∀ v ∈ c.occurrences, V.text v) →
    (∀ i ∈ c.instructions, ∀ v ∈ i.retrieves, v.ty.isValue = false) → s.facts.isShort = true →
    steadyContinuation ctx c (governed c s) = true → Guarded V pairs names names' s →
    c.retrieveSafe names = true →
    (visitContinuation ctx c s).tree.retrieveSafe names' = true
      ∧ Guarded V pairs (c.closedBehind names)
        ((visitContinuation ctx c s).tree.closedBehind names')
        (visitContinuation ctx c s).state
  | .ifElse condition t e, s, pairs, names, names', h, htext, hvalues, _, hsteady, hs, hsafe => by
    obtain ⟨h₁, h₂, heq⟩ := visitIfElse_eq h
    rw [Continuation.occurrences, List.forall_mem_append, List.forall_mem_append] at htext
    rw [Continuation.instructions, List.forall_mem_append] at hvalues
    rw [steadyContinuation, Bool.and_eq_true] at hsteady
    rw [Continuation.retrieveSafe, Bool.and_eq_true] at hsafe
    have hs₁ := hs.of_quiet (quiet_governed (.ifElse condition t e) s)
    obtain ⟨ht, hb₁⟩ :=
      guarded_visitBlock hconsistent t _ (leaveArm_fault h₁) htext.1.2 hvalues.1 hsteady.1
        (hs₁.push .branch) hsafe.1
    obtain ⟨hs₂, hfacts₂, htree₁, harm₁⟩ := hs₁.leaveArm h₁
    obtain ⟨he, hb₂⟩ :=
      guarded_visitBlock hconsistent e _ (leaveArm_fault h₂) htext.2 hvalues.2 hsteady.2
        (hs₂.push .branch) hsafe.2
    obtain ⟨hs₃, hfacts₃, htree₂, harm₂⟩ := hs₂.leaveArm h₂
    rw [← htree₁] at ht hb₁
    rw [← htree₂] at he hb₂
    rw [← hfacts₂, ← hfacts₃] at harm₁
    rw [← hfacts₃] at harm₂
    rw [heq, Continuation.retrieveSafe, Continuation.closedBehind,
      Continuation.closedBehind, Bool.and_eq_true]
    exact ⟨⟨ht, he⟩, hs₃.branches (.cons hb₁ harm₁ (.single hb₂ harm₂))⟩
  | .switch value arms, s, pairs, names, names', h, htext, hvalues, _, hsteady, hs, hsafe => by
    obtain ⟨h₁, heq⟩ := visitSwitch_eq h
    rw [Continuation.occurrences, List.forall_mem_append] at htext
    have hs₁ := hs.of_quiet (quiet_governed (.switch value arms) s)
    obtain ⟨hsafe', hs₂, hfacts, harms⟩ :=
      guarded_visitArms hconsistent arms _ h₁ htext.2 hvalues hsteady hs₁ hsafe
    rw [← hfacts] at harms
    rw [heq, Continuation.retrieveSafe, Continuation.closedBehind, Continuation.closedBehind]
    exact ⟨hsafe', hs₂.branches harms⟩
  | .deferred trigger b, s, pairs, names, names', h, htext, hvalues, hshort, hsteady, hs,
    hsafe => by
    obtain ⟨h₁, h₂, heq⟩ := visitDeferred_eq h
    rw [Continuation.occurrences, List.forall_mem_append] at htext
    have hs₁ := hs.of_quiet (quiet_governed (.deferred trigger b) s)
    obtain ⟨more, hentered⟩ := hs₁.enterDeferred hconsistent hshort htext.1 h₁
    obtain ⟨hb, -⟩ := guarded_visitBlock hconsistent b _
      (leave_fault h₂) htext.2 hvalues hsteady hentered hsafe
    have ho := outer_of_assigns (enterDeferred_assigned h₁).1
      (assigns_visitBlock b _ (leave_fault h₂))
    rw [heq, leave_eq (leave_fault h₂) ho, Visit.map, Continuation.retrieveSafe,
      Continuation.closedBehind,
      Continuation.closedBehind]
    exact ⟨hb, hs₁.deferred _⟩
  | .nested b, s, pairs, names, names', h, htext, hvalues, _, hsteady, hs, hsafe => by
    obtain ⟨h₁, heq⟩ := visitNested_eq h
    have hs₁ := hs.of_quiet (quiet_governed (.nested b) s)
    obtain ⟨hb, hs₂⟩ := guarded_visitBlock hconsistent b
      _ (leave_fault h₁) htext hvalues hsteady (hs₁.push .nested) hsafe
    have ho := outer_visitBlock (leave_fault h₁)
    rw [heq, leave_eq (leave_fault h₁) ho, Visit.map, Continuation.retrieveSafe,
      Continuation.closedBehind,
      Continuation.closedBehind]
    exact ⟨hb, hs₁.nested hs₂ ho⟩
theorem guarded_visitArms (hconsistent : ∀ v w, V.text v → V.text w → v.name = w.name → v = w) :
    ∀ (arms : Arms) (s : State) {pairs : List (Var × Var)} {names names' : List String},
    (visitArms ctx arms s).fault = none → (∀ v ∈ arms.occurrences, V.text v) →
    (∀ i ∈ arms.instructions, ∀ v ∈ i.retrieves, v.ty.isValue = false) →
    steadyArms ctx arms s = true →
    Guarded V pairs names names' s → arms.retrieveSafe names = true →
    (visitArms ctx arms s).tree.1.retrieveSafe names' = true
      ∧ Guarded V pairs names names' (visitArms ctx arms s).state
        ∧ (visitArms ctx arms s).state.facts = s.facts
      ∧ ArmsGuarded V pairs (arms.closedBehind names)
        ((visitArms ctx arms s).tree.1.closedBehind names') s.facts
        (visitArms ctx arms s).tree.2
  | .none, s, pairs, names, names', _, _, _, _, hs, _ =>
    ⟨rfl, hs, rfl, .single (hs.push .branch) rfl⟩
  | .default b, s, pairs, names, names', h, htext, hvalues, hsteady, hs, hsafe => by
    obtain ⟨h₁, heq⟩ := visitDefault_cases h
    obtain ⟨hb, hs₁⟩ := guarded_visitBlock hconsistent b
      _ (leaveArm_fault h₁) htext hvalues hsteady (hs.push .branch) hsafe
    obtain ⟨hs₂, hfacts, htree, harm⟩ := hs.leaveArm h₁
    rw [← htree] at hb hs₁
    rw [heq, Arms.retrieveSafe, Arms.closedBehind, Arms.closedBehind]
    exact ⟨hb, hs₂, hfacts, .single hs₁ harm⟩
  | .case label b rest, s, pairs, names, names', h, htext, hvalues, hsteady, hs, hsafe => by
    obtain ⟨h₁, h₂, heq⟩ := visitCase_cases h
    rw [Arms.occurrences, List.forall_mem_append] at htext
    rw [Arms.instructions, List.forall_mem_append] at hvalues
    rw [steadyArms, Bool.and_eq_true] at hsteady
    rw [Arms.retrieveSafe, Bool.and_eq_true] at hsafe
    obtain ⟨hb, hs₁⟩ :=
      guarded_visitBlock hconsistent b _ (leaveArm_fault h₁) htext.1 hvalues.1 hsteady.1
        (hs.push .branch) hsafe.1
    obtain ⟨hs₂, hfacts₂, htree, harm⟩ := hs.leaveArm h₁
    obtain ⟨hrest, hs₃, hfacts₃, harms⟩ :=
      guarded_visitArms hconsistent rest _ h₂ htext.2 hvalues.2 hsteady.2 hs₂ hsafe.2
    rw [← htree] at hb hs₁
    rw [hfacts₂] at harms
    rw [heq, Arms.retrieveSafe, Arms.closedBehind, Arms.closedBehind, Bool.and_eq_true]
    exact ⟨⟨hb, hrest⟩, hs₃, hfacts₃.trans hfacts₂, .cons hs₁ harm harms⟩
end

end Walk

/-! ## Runs -/

section Opening

variable {V : Vocabulary} {globals : Constants} {f : Function} {facts : Congruence}

theorem isClosed_foldlM_enterInput {inputs : List Var} {c : Congruence}
    (h : inputs.foldlM enterInput c = .ok facts) {v : Var} : facts.isClosed v = true
      ↔ v.name ∈ (inputs.filter (·.isLocalValue)).map (·.name) ∨ c.isClosed v = true := by
  induction inputs generalizing c with
  | nil =>
    obtain rfl := Except.ok.inj h
    simp
  | cons w inputs ih =>
    rw [List.foldlM_cons] at h
    cases hw : enterInput c w with
    | error e =>
      rw [hw] at h
      cases h
    | ok c₁ =>
      rw [hw] at h
      rw [ih h]
      unfold enterInput at hw
      cases hdefine : (c.declare w).define w with
      | error e =>
        rw [hdefine] at hw
        cases hw
      | ok c₂ =>
        rw [hdefine] at hw
        obtain rfl := Except.ok.inj hw
        obtain ⟨-, rfl⟩ := Congruence.define_eq_ok.1 hdefine
        rw [List.filter_cons]
        split
        · rw [Congruence.isClosed_close, List.map_cons,
            List.mem_cons, or_left_comm, or_assoc, eq_comm]
          exact Iff.rfl
        · exact Iff.rfl

/-- **The walk starts guarded**: nothing is represented yet, and the inputs that
are values are closed. -/
theorem guarded_opened (h : f.inputs.foldlM enterInput .new = .ok facts) :
    let names := (f.inputs.filter (·.isLocalValue)).map (·.name)
    Guarded V [] names names (opened globals f facts) := by
  refine ⟨⟨fun v rep _ hrep => ?_, List.forall_mem_nil _, List.forall_mem_nil _⟩, fun v hv => ?_,
    fun v _ _ hclosed => .inl hclosed⟩
  · rw [representative?_opened h] at hrep
    cases hrep
  · rw [show (opened globals f facts).facts.isClosed = facts.isClosed from
      Congruence.isClosed_foldl_declare f.outputs facts, isClosed_foldlM_enterInput h] at hv
    rw [Var.isClosedIn_iff]
    refine hv.symm.imp_left fun hv => ?_
    simpa [Congruence.isClosed, Congruence.new, Congruence.scopes,
      Scope.new, Table.contains, Table.get?, Table.empty]
      using hv

end Opening

/-- The function or the table of constants mentions the variable. -/
def Mentioned (f : Function) (globals : Constants) (v : Var) : Prop :=
  v ∈ f.occurrences ∨ ∃ name c, globals.get? name = some c ∧ (c.var = v ∨ c.value = .var v)

/-- **Constants are told by their names**: variables with the same name are
constants alike, those in the table included, and the names for literals belong
to constants. -/
structure TellsConstants (f : Function) (globals : Constants) : Prop where
  alike : MarkedAlike (Mentioned f globals)
  reserved : ∀ v, Mentioned f globals v → ∀ l, Constant.nameFor? l = some v.name →
    v.isGlobalConst = true

/-- What a numbered function may mention: also the constants of literals. -/
def Mentionable (f : Function) (globals : Constants) (v : Var) : Prop :=
  Mentioned f globals v ∨ ∃ l c, Constant.make? l .optimizer = some c ∧ c.var = v

/-- What the facts about a function may speak about. -/
def mentionable (f : Function) (globals : Constants) (aliases : AliasMap) : Vocabulary :=
  .over aliases (· ∈ f.occurrences) (Mentionable f globals) fun _ hv _ => .inl (.inl hv)

section Runs

variable {settings : Settings} {foreign : Foreign} {globals created : Constants}
  {f : Function} {stats : Stats}

theorem TellsConstants.markedAlike (h : TellsConstants f globals) :
    MarkedAlike (Mentionable f globals) := by
  rintro v w (hv | ⟨l, c, hc, rfl⟩) (hw | ⟨l', c', hc', rfl⟩) hname
  · exact h.alike v w hv hw hname
  · obtain ⟨hname', -, hflag⟩ := Constant.make?_eq_some hc'
    rw [h.reserved v hv l' (hname ▸ hname'), hflag]
  · obtain ⟨hname', -, hflag⟩ := Constant.make?_eq_some hc
    rw [h.reserved w hw l (hname ▸ hname'), hflag]
  · rw [(Constant.make?_eq_some hc).2.2, (Constant.make?_eq_some hc').2.2]

/-- What a walked function retrieves may be mentioned. -/
theorem mentionable_of_retrieves {ctx : Context} {facts : Congruence}
    (h : f.inputs.foldlM enterInput .new = .ok facts)
    (hf : (visitBlock ctx f.block (opened globals f facts)).fault = none) :
    ∀ i ∈ (visitBlock ctx f.block (opened globals f facts)).tree.instructions, ∀ v ∈ i.retrieves,
      Mentionable f globals v := by
  have hV : Serves (mentionable f globals ctx.aliases) ctx :=
    ⟨.over _, fun l c hc => .inr ⟨l, c, hc, rfl⟩⟩
  have hwell : WellFormed (mentionable f globals ctx.aliases) (opened globals f facts) := by
    refine wellFormed_opened (fun v hv => List.mem_append_left _ (List.mem_append_left _ hv))
      (fun name c hc => ?_) h
    have hget : globals.get? name = some c := (Option.or_none).symm.trans hc
    refine ⟨.inl (.inr ⟨name, c, hget, .inl rfl⟩), ?_⟩
    cases hvalue : c.value with
    | lit l => trivial
    | var w => exact .inl (.inr ⟨name, c, hget, .inr hvalue⟩)
  have htext : ∀ v ∈ f.block.occurrences, v ∈ f.occurrences :=
    fun v hv => List.mem_append_right _ hv
  have hran := ((upheld_wellFormed hV).visitBlock f.block
    _ hwell (f.block.meets_ofVars htext _ _) hf).ran
  intro j hj v hv
  obtain ⟨i, hi, rfl⟩ := exists_site hf hj
  obtain ⟨-, hnames, -⟩ :=
    wellFormed_visitInstruction hV (hran i hi).before (all_of_site hf htext hi) (hran i hi).fault
  rcases hnames _ (Instruction.reads_of_retrieves _ hv) with hv | hv
  · exact hv
  · exact .inl (.inl hv.1)

/-- **A numbered function is retrieve-safe again**, if all occurrences of a
variable carry the same data, constants are told by their names, no value is
retrieved, and the walk is steady. -/
theorem retrieveSafe_run
    (hconsistent : ∀ v ∈ f.occurrences, ∀ w ∈ f.occurrences, v.name = w.name → v = w)
    (hconstants : TellsConstants f globals)
    (hvalues : ∀ i ∈ f.block.instructions, ∀ v ∈ i.retrieves, v.ty.isValue = false)
    (h : (run settings foreign globals f).result = .ok (stats, created))
    (hsteady : steady settings foreign globals f = true) (hsafe : f.retrieveSafe = true) :
    (run settings foreign globals f).function.retrieveSafe = true := by
  obtain ⟨ctx, facts, hctx, hfacts, hfault, -, hfunction⟩ := run_eq_ok h
  unfold steady at hsteady
  rw [hctx, hfacts] at hsteady
  rw [hfunction]
  refine retrieveSafe_removeRedundant hconstants.markedAlike
    ctx (mentionable_of_retrieves hfacts hfault) _ ?_
  have hguarded : Guarded (mentionable f globals ctx.aliases) [] _ _ (opened globals f facts) :=
    guarded_opened hfacts
  exact (guarded_visitBlock (fun v w hv hw => hconsistent v hv w hw) f.block _ hfault
    (fun v hv => List.mem_append_right _ hv) hvalues hsteady hguarded hsafe).1

/-- Constants are told by their names, for a program without constants, in a
form that can be decided. -/
theorem tellsConstants_of_names
    (hc : ∀ v ∈ f.occurrences, ∀ w ∈ f.occurrences, v.name = w.name →
      v.isGlobalConst = w.isGlobalConst)
    (hn : ∀ v ∈ f.occurrences, ¬ ['_', '_', 'c', ':'] <+: v.name.toList) :
    TellsConstants f .empty := by
  have hmentioned : ∀ v, Mentioned f .empty v → v ∈ f.occurrences := by
    rintro v (hv | ⟨name, c, hc, -⟩)
    · exact hv
    · cases hc
  refine ⟨fun v w hv hw => hc v (hmentioned v hv) w (hmentioned w hw), fun v hv l hl => ?_⟩
  exact absurd (Constant.prefix_of_nameFor? hl) (hn v (hmentioned v hv))

/-- A function that waits for its input, then for a copy of it, and retrieves
the copy. -/
def waitsForCopy : Function where
  name := "f"
  inputs := [⟨"q", .future .int, .stack, .inArg, .user⟩]
  outputs := [⟨"o", .future .int, .stack, .outArg, .user⟩]
  target := .control
  block :=
    let q : Var := ⟨"q", .future .int, .stack, .inArg, .user⟩
    let o : Var := ⟨"o", .future .int, .stack, .outArg, .user⟩
    let a := Var.future "a" .int
    let v := Var.value "v" .int
    .mk []
      (.cont (.deferred (.wait [q] .control .dispatch) (.mk [a]
        (.instr (.compute .later .copy a [.var q])
        (.cont (.deferred (.wait [a] .control .dispatch) (.mk [v]
          (.instr (.loadScalar v a) (.instr (.storeScalar o (.var v)) .done)))) .done)))) .done)

/-- The wait for the copy is dropped, the copy is deleted, and the input is
retrieved instead, which is waited for. -/
theorem retrieveSafe_run_waitsForCopy :
    (run {} .empty .empty waitsForCopy).result = .ok (⟨1, 1, 1, 0, 0, 0⟩, .empty)
      ∧ waitsForCopy.retrieveSafe = true
        ∧ (run {} .empty .empty waitsForCopy).function.retrieveSafe = true
      ∧ .loadScalar (.value "v" .int) ⟨"q", .future .int, .stack, .inArg, .user⟩
        ∈ (run {} .empty .empty waitsForCopy).function.block.instructions := by
  have hrun : (run {} .empty .empty waitsForCopy).result = .ok (⟨1, 1, 1, 0, 0, 0⟩, .empty) := by
    decide +kernel
  have hsafe : waitsForCopy.retrieveSafe = true := by decide +kernel
  refine ⟨hrun, hsafe, ?_, by decide +kernel⟩
  exact retrieveSafe_run (by decide +kernel)
    (tellsConstants_of_names (by decide +kernel) (by decide +kernel))
    (by decide +kernel) hrun (by decide +kernel) hsafe

/-- A function that copies futures before they are assigned, and then waits for
the last one and for the first one. -/
def copiesAhead : Function where
  name := "f"
  inputs := [⟨"q", .future .int, .stack, .inArg, .user⟩]
  outputs := [⟨"o", .future .int, .stack, .outArg, .user⟩]
  target := .control
  block :=
    let q : Var := ⟨"q", .future .int, .stack, .inArg, .user⟩
    let o : Var := ⟨"o", .future .int, .stack, .outArg, .user⟩
    let w := Var.future "w" .int
    let c₁ := Var.future "c1" .int
    let c₂ := Var.future "c2" .int
    let x := Var.future "x" .int
    let v := Var.value "v" .int
    .mk [w, c₁, c₂, x]
      (.instr (.compute .later .copy w [.var c₁])
      (.instr (.compute .later .copy c₁ [.var c₂])
      (.instr (.compute .later .copy c₂ [.var x])
      (.instr (.compute .later .copy x [.var q])
      (.cont (.deferred (.wait [x] .control .dispatch) (.mk []
        (.cont (.deferred (.wait [w] .control .dispatch) (.mk [v]
          (.instr (.loadScalar v w) (.instr (.storeScalar o (.var v)) .done)))) .done))) .done)))))

/-- **A retrieve is left unguarded** where chains of representatives are long.
At the inner wait the chain from `w` leads to `x`, which is closed; one scope
further inside it leads on to `q`, which is not, so `w` is retrieved, and
nothing waits for it. -/
theorem unguarded_of_longChain :
    (∀ v ∈ copiesAhead.occurrences, ∀ w ∈ copiesAhead.occurrences, v.name = w.name → v = w)
      ∧ copiesAhead.block.declaresAnew ((copiesAhead.inputs ++ copiesAhead.outputs).map (·.name))
        = true
      ∧ (∀ i ∈ copiesAhead.block.instructions, ∀ v ∈ i.retrieves, v.ty.isValue = false)
      ∧ (run {} .empty .empty copiesAhead).result = .ok (⟨0, 0, 1, 0, 0, 0⟩, .empty)
      ∧ steady {} .empty .empty copiesAhead = false ∧ copiesAhead.retrieveSafe = true
      ∧ (run {} .empty .empty copiesAhead).function.retrieveSafe = false := by
  decide +kernel

end Runs

end Numbering

end ValueFlow
