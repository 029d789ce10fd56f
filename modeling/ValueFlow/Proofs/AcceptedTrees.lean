import ValueFlow.ConstantBranches
import ValueFlow.Proofs.Invariants

/-!
# Accepted trees stay accepted

A function is accepted if its parts are: every variable may be used where it is
mentioned, no variable is assigned twice, foreign functions are registered and
field paths lead somewhere (`accepted`). Put this way, acceptance survives what
is done to trees: edits that keep to what may be used
(`Block.Edited.meets_accepted`), dropping declarations that nothing needs
(`accepted_dropDeclarations`) and replacing conditionals by the arm that is
taken (`accepted_foldBranches`).

In each case the names that are assigned behind a part can only become fewer,
and an assignment that comes later is accepted all the more. `Point.Eases` is
this comparison of points.
-/

namespace ValueFlow

/-! ## Acceptance, part by part -/

/-- **Every variable that a tree mentions may be used there**: it is declared
around its place, or it is marked as a constant. -/
def inScope : Requirement where
  declares _ _ := True
  instruction _ p i := ∀ v ∈ i.readVars ++ i.outputs, v.isUsable p.names = true
  operand p a := a.All fun v => v.isUsable p.names = true
  trigger p t := ∀ v ∈ t.reads.filterMap Operand.var?, v.isUsable p.names = true

/-- **The parts of a tree are accepted.** -/
def accepted (foreign : Foreign) : Requirement where
  declares _ _ := True
  instruction n p i := inScope.instruction n p i ∧ p.assignedTwice? i.assigned = none
    ∧ i.unknown? foreign = none ∧ ∃ as, i.aliases = .ok as
  operand := inScope.operand
  trigger p t := inScope.trigger p t ∧ p.assignedTwice? t.assigned = none

theorem inScope_follows (foreign : Foreign) : inScope.Follows (accepted foreign) :=
  ⟨id, fun h => h.1, id, fun h => h.1⟩

theorem Point.undeclared?_eq_none {p : Point} {function : String} {vars : List Var} :
    p.undeclared? function vars = none ↔ ∀ v ∈ vars, v.isUsable p.names = true := by
  simp [undeclared?]

/-- Two lists of facts were found one after the other. -/
theorem bind_append_eq_ok {x y : Except Fault (List Alias)} {as : List Alias}
    (h : (do return (← x) ++ (← y)) = Except.ok as) :
    ∃ as₁ as₂, x = .ok as₁ ∧ y = .ok as₂ ∧ as = as₁ ++ as₂ := by
  cases x with
  | error e => cases h
  | ok as₁ =>
    cases y with
    | error e => cases h
    | ok as₂ => exact ⟨as₁, as₂, rfl, rfl, (Except.ok.inj h).symm⟩

/-- Two lists of facts can be put together if both are there. -/
theorem exists_append_eq_ok {x y : Except Fault (List Alias)} :
    (∃ as, (do return (← x) ++ (← y)) = Except.ok as) ↔ (∃ as, x = .ok as) ∧ ∃ as, y = .ok as := by
  constructor
  · rintro ⟨as, h⟩
    obtain ⟨as₁, as₂, h₁, h₂, -⟩ := bind_append_eq_ok h
    exact ⟨⟨as₁, h₁⟩, as₂, h₂⟩
  · rintro ⟨⟨as₁, rfl⟩, as₂, rfl⟩
    exact ⟨as₁ ++ as₂, rfl⟩

theorem Operand.forall_mem_vars {P : Var → Prop} {a : Operand} :
    (∀ v ∈ [a].filterMap Operand.var?, P v) ↔ a.All P := by
  cases a with
  | var v => simp [Operand.var?]
  | lit l => simp [Operand.var?]

section Parts

variable {function : String} {foreign : Foreign}

theorem Instruction.fault?_eq_none {i : Instruction} {n : Nat} {p : Point} :
    (i.fault? function foreign p = none ∧ ∃ as, i.aliases = .ok as)
      ↔ (accepted foreign).instruction n p i := by
  unfold Instruction.fault?
  rw [Option.or_eq_none_iff, Option.or_eq_none_iff, Point.undeclared?_eq_none, and_assoc, and_assoc]
  exact Iff.rfl

mutual
/-- **A block without a fault** is one whose parts are accepted. -/
theorem Block.fault?_eq_none : ∀ (b : Block) (n : Nat) (p : Point),
    (b.fault? function foreign p = none ∧ ∃ as, b.aliases = .ok as) ↔ b.Meets (accepted foreign) n p
  | .mk vars body, n, p => by
    rw [Block.fault?, Block.aliases, Block.Meets, Body.fault?_eq_none body n (n + 1)]
    exact (and_iff_right trivial).symm
theorem Body.fault?_eq_none : ∀ (b : Body) (block n : Nat) (p : Point),
    (b.fault? function foreign p = none ∧ ∃ as, b.aliases = .ok as)
      ↔ b.Meets (accepted foreign) block n p
  | .done, block, n, p => ⟨fun _ => trivial, fun _ => ⟨rfl, [], rfl⟩⟩
  | .instr i rest, block, n, p => by
    rw [Body.fault?, Body.aliases, Body.Meets, Option.or_eq_none_iff, exists_append_eq_ok,
      and_and_and_comm, Instruction.fault?_eq_none (n := block), Body.fault?_eq_none rest block n]
  | .cont c rest, block, n, p => by
    have haliases : (∃ as, (Body.cont c rest).aliases = .ok as)
        ↔ (∃ as, c.innerAliases = .ok as) ∧ ∃ as, rest.aliases = .ok as := by
      rw [Body.aliases]
      refine Iff.trans ?_ exists_append_eq_ok
      cases c.innerAliases with
      | error e => exact Iff.rfl
      | ok as => cases rest.aliases with
        | error e => exact Iff.rfl
        | ok as' => exact ⟨fun _ => ⟨_, rfl⟩, fun _ => ⟨_, rfl⟩⟩
    rw [Body.fault?, Body.Meets, haliases, Option.or_eq_none_iff, and_and_and_comm,
      Continuation.fault?_eq_none c n, Body.fault?_eq_none rest block (n + c.blockCount)]
theorem Continuation.fault?_eq_none : ∀ (c : Continuation) (n : Nat) (p : Point),
    (c.fault? function foreign p = none ∧ ∃ as, c.innerAliases = .ok as)
      ↔ c.Meets (accepted foreign) n p
  | .ifElse condition t e, n, p => by
    rw [Continuation.fault?, Continuation.innerAliases, Continuation.Meets, Option.or_eq_none_iff,
      Option.or_eq_none_iff, Point.undeclared?_eq_none, exists_append_eq_ok, and_assoc,
      and_and_and_comm, Block.fault?_eq_none t n, Block.fault?_eq_none e (n + t.blockCount)]
    exact and_congr_left' Operand.forall_mem_vars
  | .switch value arms, n, p => by
    rw [Continuation.fault?, Continuation.innerAliases, Continuation.Meets, Option.or_eq_none_iff,
      Point.undeclared?_eq_none, and_assoc, Arms.fault?_eq_none arms n]
    exact and_congr_left' Operand.forall_mem_vars
  | .deferred trigger b, n, p => by
    rw [Continuation.fault?, Continuation.innerAliases, Continuation.Meets, Option.or_eq_none_iff,
      Option.or_eq_none_iff, Point.undeclared?_eq_none,
      and_assoc, and_assoc, Block.fault?_eq_none b n,
      ← and_assoc]
    exact Iff.rfl
  | .nested b, n, p => by
    rw [Continuation.fault?, Continuation.innerAliases, Continuation.Meets, Option.or_eq_none_iff,
      Point.undeclared?_eq_none, and_assoc, Block.fault?_eq_none b n]
    exact and_iff_right (List.forall_mem_nil _)
theorem Arms.fault?_eq_none : ∀ (arms : Arms) (n : Nat) (p : Point),
    (arms.fault? function foreign p = none ∧ ∃ as, arms.aliases = .ok as)
      ↔ arms.Meets (accepted foreign) n p
  | .none, n, p => ⟨fun _ => trivial, fun _ => ⟨rfl, [], rfl⟩⟩
  | .default b, n, p => by
    rw [Arms.fault?, Arms.aliases, Arms.Meets, Block.fault?_eq_none b n]
  | .case label b rest, n, p => by
    rw [Arms.fault?, Arms.aliases, Arms.Meets, Option.or_eq_none_iff, exists_append_eq_ok,
      and_and_and_comm, Block.fault?_eq_none b n, Arms.fault?_eq_none rest (n + b.blockCount)]
end

/-- **A function without a fault** has distinct inputs, and its parts are
accepted. -/
theorem Function.fault?_eq_none {f : Function} :
    f.fault? foreign = none ↔ Point.assignedTwice? ⟨[], []⟩ f.inputs = none
      ∧ f.block.Meets (accepted foreign) 0 f.point := by
  have hblock : (f.block.fault? f.name foreign f.point = none ∧ ∃ as, f.block.aliases = .ok as)
      ↔ f.block.Meets (accepted foreign) 0 f.point := Block.fault?_eq_none f.block 0 f.point
  rw [← hblock, Function.fault?]
  cases f.block.aliases with
  | error e => simp
  | ok as => simp

end Parts

/-! ## Points at which no less is accepted -/

/-- **At the second point no less may be used**, as far as names with some
property go, and no more is assigned. -/
structure Point.Eases (M : String → Prop) (p q : Point) : Prop where
  names : ∀ n, M n → n ∈ p.names → n ∈ q.names
  assigned : q.assigned ⊆ p.assigned

namespace Point.Eases

variable {M M' : String → Prop} {p q : Point}

theorem refl (p : Point) : p.Eases M p := ⟨fun _ _ => id, List.Subset.refl _⟩

theorem mono (h : p.Eases M q) (hM : ∀ n, M' n → M n) : p.Eases M' q :=
  ⟨fun n hn => h.names n (hM n hn), h.assigned⟩

theorem assign (h : p.Eases M q) {new new' : List String} (hnew : new' ⊆ new) :
    (p.assign new).Eases M (q.assign new') where
  names := h.names
  assigned := List.append_subset.2 ⟨List.subset_append_of_subset_left _ hnew,
    List.subset_append_of_subset_right _ h.assigned⟩

theorem declare (h : p.Eases M q) {vars vars' : List Var}
    (hvars : ∀ v ∈ vars, M v.name → ∃ w ∈ vars', w.name = v.name) :
    (p.declare vars).Eases M (q.declare vars') where
  names n hM hn := by
    rcases List.mem_append.1 hn with hn | hn
    · obtain ⟨v, hv, rfl⟩ := List.mem_map.1 (List.mem_reverse.1 hn)
      obtain ⟨w, hw, hname⟩ := hvars v hv hM
      exact List.mem_append_left _ (List.mem_reverse.2 (List.mem_map.2 ⟨w, hw, hname⟩))
    · exact List.mem_append_right _ (h.names n hM hn)
  assigned := h.assigned

theorem declare_self (h : p.Eases M q) (vars : List Var) :
    (p.declare vars).Eases M (q.declare vars) :=
  h.declare fun v hv _ => ⟨v, hv, rfl⟩

theorem enter (h : p.Eases M q) {t t' : Trigger} (hd : t'.declared = t.declared)
    (ha : t'.assigned = t.assigned) : (p.enter t).Eases M (q.enter t') := by
  unfold Point.enter
  rw [hd, ha]
  exact (h.declare_self _).assign (List.Subset.refl _)

theorem isUsable (h : p.Eases M q) {v : Var} (hM : M v.name) (hv : v.isUsable p.names = true) :
    v.isUsable q.names = true := by
  unfold Var.isUsable at hv ⊢
  rw [Bool.or_eq_true, List.contains_iff_mem] at hv ⊢
  exact hv.imp_right (h.names v.name hM)

/-- An assignment is accepted if less was assigned before. -/
theorem assignedTwice? (h : p.Eases M q) {vars : List Var} (hp : p.assignedTwice? vars = none) :
    q.assignedTwice? vars = none := by
  induction vars generalizing p q with
  | nil => rfl
  | cons v vars ih =>
    rw [Point.assignedTwice?] at hp ⊢
    split at hp
    · cases hp
    · rename_i hv
      rw [if_neg fun hq => hv ?_]
      · exact ih (h.assign (List.Subset.refl [v.name])) hp
      · exact List.contains_iff_mem.2 (h.assigned (List.contains_iff_mem.1 hq))

theorem instruction (h : p.Eases M q) {foreign : Foreign} {n m : Nat} {i : Instruction}
    (hM : ∀ v ∈ i.readVars ++ i.outputs, M v.name) (hi : (accepted foreign).instruction n p i) :
    (accepted foreign).instruction m q i :=
  ⟨fun v hv => h.isUsable (hM v hv) (hi.1 v hv), h.assignedTwice? hi.2.1, hi.2.2⟩

theorem operand (h : p.Eases M q) {a : Operand} (hM : a.All fun v => M v.name)
    (ha : inScope.operand p a) : inScope.operand q a := by
  cases a with
  | var v => exact h.isUsable hM ha
  | lit l => trivial

theorem trigger (h : p.Eases M q) {foreign : Foreign} {t : Trigger}
    (hM : ∀ v ∈ t.reads.filterMap Operand.var?, M v.name) (ht : (accepted foreign).trigger p t) :
    (accepted foreign).trigger q t :=
  ⟨fun v hv => h.isUsable (hM v hv) (ht.1 v hv), h.assignedTwice? ht.2⟩

end Point.Eases

/-- The names assigned in a block become fewer with those assigned in its body. -/
theorem Block.assigns_subset {vars : List Var} {body body' : Body}
    (h : body'.assigns ⊆ body.assigns) (own : List String) :
    (Block.mk vars body').assigns own ⊆ (Block.mk vars body).assigns own := by
  intro n hn
  rw [Block.assigns, List.mem_filter] at hn ⊢
  exact ⟨h hn.1, hn.2⟩

theorem append_subset_append {as as' bs bs' : List String} (h : as ⊆ as') (h' : bs ⊆ bs') :
    as ++ bs ⊆ as' ++ bs' :=
  List.append_subset.2
    ⟨List.subset_append_of_subset_left _ h, List.subset_append_of_subset_right _ h'⟩

/-! ## Edits -/

/-- **The edit keeps to what is accepted**: it puts accepted parts in place of
accepted parts and changes neither what is declared nor what is assigned. -/
structure Edit.Admissible (foreign : Foreign) (E : Edit) : Prop where
  declares : ∀ {p : Point} {vars vars' : List Var}, E.declares p vars vars' → vars' = vars
  instruction : ∀ {n : Nat} {p : Point} {i j : Instruction}, E.instruction n p i (some j) →
    (accepted foreign).instruction n p i →
    (accepted foreign).instruction n p j ∧ j.assigned = i.assigned
  operand : ∀ {p : Point} {a a' : Operand}, E.operand p a a' →
    inScope.operand p a → inScope.operand p a'
  trigger : ∀ {p : Point} {t t' : Trigger}, E.trigger p t t' → (accepted foreign).trigger p t →
    (accepted foreign).trigger p t' ∧ t'.declared = t.declared ∧ t'.assigned = t.assigned

section Edited

variable {foreign : Foreign} {E : Edit}

/-- Every name counts. -/
abbrev anyName : String → Prop := fun _ => True

mutual
/-- **An accepted block is accepted after the edit**, and it assigns no more
names. -/
theorem Block.Edited.meets_accepted (hE : E.Admissible foreign) :
    ∀ {b b' : Block} {n : Nat} {p q : Point},
    b.Edited E n p b' → b.Meets (accepted foreign) n p → p.Eases anyName q →
    b'.Meets (accepted foreign) n q ∧ ∀ own, b'.assigns own ⊆ b.assigns own
  | .mk vars body, .mk vars' body', n, p, q, h, hb, hpq => by
    obtain rfl := hE.declares h.1
    obtain ⟨hmeets, hsub⟩ := Body.Edited.meets_accepted hE h.2 hb.2 (hpq.declare_self _)
    exact ⟨⟨trivial, hmeets⟩, fun own => Block.assigns_subset hsub own⟩
theorem Body.Edited.meets_accepted (hE : E.Admissible foreign) :
    ∀ {b b' : Body} {block n : Nat} {p q : Point},
    b.Edited E block n p b' → b.Meets (accepted foreign) block n p → p.Eases anyName q →
    b'.Meets (accepted foreign) block n q ∧ b'.assigns ⊆ b.assigns
  | .done, b', block, n, p, q, h, _, _ => by
    rw [h, Body.Meets]
    exact ⟨trivial, List.Subset.refl _⟩
  | .instr i rest, b', block, n, p, q, h, hb, hpq => by
    rcases h with ⟨j, rest', rfl, hj, h⟩ | ⟨-, h⟩
    · obtain ⟨hj, hassigned⟩ := hE.instruction hj hb.1
      have hassigns : j.assigns = i.assigns := by
        unfold Instruction.assigns
        rw [hassigned]
      obtain ⟨hmeets, hsub⟩ :=
        Body.Edited.meets_accepted hE h hb.2 (hpq.assign (List.Subset.refl _))
      rw [Body.Meets, Body.assigns, hassigns]
      exact ⟨⟨hpq.instruction (fun _ _ => trivial) hj, hmeets⟩,
        append_subset_append hsub (List.Subset.refl _)⟩
    · -- nothing is assigned where the instruction stood
      obtain ⟨hmeets, hsub⟩ := Body.Edited.meets_accepted hE h hb.2 (hpq.assign (List.nil_subset _))
      exact ⟨hmeets, List.subset_append_of_subset_left _ hsub⟩
  | .cont c rest, b', block, n, p, q, h, hb, hpq => by
    obtain ⟨c', rest', rfl, hc, h⟩ := h
    obtain ⟨hc', hsub⟩ := Continuation.Edited.meets_accepted hE hc hb.1 hpq
    obtain ⟨hmeets, hsub'⟩ := Body.Edited.meets_accepted hE h hb.2 (hpq.assign hsub)
    rw [Body.Meets, Body.assigns, Body.assigns, Continuation.Edited.blockCount hc]
    exact ⟨⟨hc', hmeets⟩, append_subset_append hsub' hsub⟩
theorem Continuation.Edited.meets_accepted (hE : E.Admissible foreign) :
    ∀ {c c' : Continuation} {n : Nat}
    {p q : Point}, c.Edited E n p c' → c.Meets (accepted foreign) n p → p.Eases anyName q →
    c'.Meets (accepted foreign) n q ∧ c'.assigns ⊆ c.assigns
  | .ifElse condition t e, c', n, p, q, h, hc, hpq => by
    obtain ⟨condition', t', e', rfl, ha, ht, he⟩ := h
    obtain ⟨ht', hsub⟩ := Block.Edited.meets_accepted hE ht hc.2.1 hpq
    obtain ⟨he', hsub'⟩ := Block.Edited.meets_accepted hE he hc.2.2 hpq
    rw [Continuation.Meets, Continuation.assigns, Continuation.assigns, Block.Edited.blockCount ht]
    refine ⟨⟨hpq.operand ?_ (hE.operand ha hc.1), ht', he'⟩,
      append_subset_append (hsub' _) (hsub _)⟩
    cases condition' <;> trivial
  | .switch value arms, c', n, p, q, h, hc, hpq => by
    obtain ⟨value', arms', rfl, ha, h⟩ := h
    obtain ⟨harms, hsub⟩ := Arms.Edited.meets_accepted hE h hc.2 hpq
    refine ⟨⟨hpq.operand ?_ (hE.operand ha hc.1), harms⟩, hsub⟩
    cases value' <;> trivial
  | .deferred trigger b, c', n, p, q, h, hc, hpq => by
    obtain ⟨trigger', b', rfl, ht, h⟩ := h
    obtain ⟨ht', hdeclared, hassigned⟩ := hE.trigger ht hc.1
    obtain ⟨hb, hsub⟩ := Block.Edited.meets_accepted hE h hc.2 (hpq.enter hdeclared hassigned)
    rw [Continuation.Meets, Continuation.assigns, Continuation.assigns, hdeclared]
    exact ⟨⟨hpq.trigger (fun _ _ => trivial) ht', hb⟩, hsub _⟩
  | .nested b, c', n, p, q, h, hc, hpq => by
    obtain ⟨b', rfl, h⟩ := h
    obtain ⟨hb, hsub⟩ := Block.Edited.meets_accepted hE h hc hpq
    exact ⟨hb, hsub _⟩
theorem Arms.Edited.meets_accepted (hE : E.Admissible foreign) :
    ∀ {arms arms' : Arms} {n : Nat} {p q : Point},
    arms.Edited E n p arms' → arms.Meets (accepted foreign) n p → p.Eases anyName q →
    arms'.Meets (accepted foreign) n q ∧ arms'.assigns ⊆ arms.assigns
  | .none, arms', n, p, q, h, _, _ => by
    rw [h, Arms.Meets]
    exact ⟨trivial, List.Subset.refl _⟩
  | .default b, arms', n, p, q, h, hb, hpq => by
    obtain ⟨b', rfl, h⟩ := h
    obtain ⟨hb, hsub⟩ := Block.Edited.meets_accepted hE h hb hpq
    exact ⟨hb, hsub _⟩
  | .case label b rest, arms', n, p, q, h, hb, hpq => by
    obtain ⟨b', rest', rfl, hedited, h⟩ := h
    obtain ⟨hb', hsub⟩ := Block.Edited.meets_accepted hE hedited hb.1 hpq
    obtain ⟨hrest, hsub'⟩ := Arms.Edited.meets_accepted hE h hb.2 hpq
    rw [Arms.Meets, Arms.assigns, Arms.assigns, Block.Edited.blockCount hedited]
    exact ⟨⟨hb', hrest⟩, append_subset_append hsub' (hsub _)⟩
end

end Edited

/-! ## Dropped declarations -/

/-- The names of the outputs of some instructions. -/
def outputNames (is : List Instruction) : List String := is.flatMap fun i => i.outputs.map (·.name)

theorem outputNames_append (is is' : List Instruction) :
    outputNames (is ++ is') = outputNames is ++ outputNames is' := List.flatMap_append

theorem Instruction.assigns_subset (i : Instruction) : i.assigns ⊆ i.outputs.map (·.name) := by
  intro n hn
  obtain ⟨v, hv, rfl⟩ := List.mem_map.1 (List.mem_reverse.1 hn)
  exact List.mem_map.2 ⟨v, i.results_subset (Instruction.mem_assigned.1 hv).1, rfl⟩

mutual
/-- What a block assigns are outputs of its instructions. -/
theorem Block.assigns_subset_outputNames : ∀ (b : Block) (own : List String),
    b.assigns own ⊆ outputNames b.instructions
  | .mk _ body, _ => fun _ hn => Body.assigns_subset_outputNames body (List.mem_filter.1 hn).1
theorem Body.assigns_subset_outputNames : ∀ b : Body, b.assigns ⊆ outputNames b.instructions
  | .done => List.nil_subset _
  | .instr i rest =>
    List.append_subset.2
      ⟨List.subset_append_of_subset_right _ (Body.assigns_subset_outputNames rest),
      List.subset_append_of_subset_left _ i.assigns_subset⟩
  | .cont c rest => by
    rw [Body.assigns, Body.instructions, outputNames_append]
    exact List.append_subset.2
      ⟨List.subset_append_of_subset_right _ (Body.assigns_subset_outputNames rest),
      List.subset_append_of_subset_left _ (Continuation.assigns_subset_outputNames c)⟩
theorem Continuation.assigns_subset_outputNames : ∀ c : Continuation,
    c.assigns ⊆ outputNames c.instructions
  | .ifElse condition t e => by
    rw [Continuation.assigns, Continuation.instructions, outputNames_append]
    exact List.append_subset.2
      ⟨List.subset_append_of_subset_right _ (Block.assigns_subset_outputNames e _),
      List.subset_append_of_subset_left _ (Block.assigns_subset_outputNames t _)⟩
  | .switch value arms => Arms.assigns_subset_outputNames arms
  | .deferred trigger b => Block.assigns_subset_outputNames b _
  | .nested b => Block.assigns_subset_outputNames b _
theorem Arms.assigns_subset_outputNames :
    ∀ arms : Arms, arms.assigns ⊆ outputNames arms.instructions
  | .none => List.nil_subset _
  | .default b => Block.assigns_subset_outputNames b _
  | .case label b rest => by
    rw [Arms.assigns, Arms.instructions, outputNames_append]
    exact List.append_subset.2
      ⟨List.subset_append_of_subset_right _ (Arms.assigns_subset_outputNames rest),
      List.subset_append_of_subset_left _ (Block.assigns_subset_outputNames b _)⟩
end

section Drop

open ValueFlow.Numbering (dropDeclarations dropInBody dropInContinuation dropInArms)

variable {foreign : Foreign} (deleted : List String)

/-- Every part may become any other. -/
def Edit.any : Edit :=
  ⟨fun _ _ _ => True, fun _ _ _ _ => True, fun _ _ _ => True, fun _ _ _ => True⟩

theorem Requirement.permits_any (R : Requirement) : R.Permits .any :=
  ⟨fun _ => trivial, fun _ => trivial, fun _ => trivial, fun _ => trivial⟩

theorem Block.blockCount_dropDeclarations (b : Block) :
    (dropDeclarations deleted b).blockCount = b.blockCount :=
  ((((b.meets_ofVars fun _ _ => trivial) 0 ⟨[], []⟩).edited
    (Requirement.permits_any _)).dropDeclarations _).blockCount

theorem Continuation.blockCount_dropInContinuation (c : Continuation) :
    (dropInContinuation deleted c).blockCount = c.blockCount :=
  ((((c.meets_ofVars fun _ _ => trivial) 0 ⟨[], []⟩).edited
    (Requirement.permits_any _)).dropInContinuation _).blockCount

mutual
/-- **An accepted block is accepted without the declarations that nothing
mentions**, and it assigns no more names. -/
theorem Block.meets_dropDeclarations : ∀ {b : Block} {n : Nat} {p q : Point},
    b.Meets (accepted foreign) n p → p.Eases (· ∈ b.mentions) q →
    (dropDeclarations deleted b).Meets (accepted foreign) n q
      ∧ ∀ own, (dropDeclarations deleted b).assigns own ⊆ b.assigns own
  | .mk vars body, n, p, q, hb, hpq => by
    have hkept : ∀ v ∈ vars, v.name ∈ (Block.mk vars body).mentions →
        v ∈ vars.filter fun v => !deleted.contains v.name
          || (Block.mk vars body).mentions.contains v.name :=
      fun v hv hm => List.mem_filter.2 ⟨hv, by simp [hm]⟩
    obtain ⟨hmeets, hsub⟩ := Body.meets_dropInBody hb.2
      (hpq.declare fun v hv hm => ⟨v, hkept v hv hm, rfl⟩)
      (fun n hn => List.mem_append_left _ hn) fun n hn => List.mem_append_right _ hn
    rw [dropDeclarations, Block.Meets]
    refine ⟨⟨trivial, hmeets⟩, fun own name hn => ?_⟩
    rw [Block.assigns, List.mem_filter] at hn ⊢
    refine ⟨hsub hn.1, ?_⟩
    -- a name that is assigned is mentioned, so its declaration was kept
    have hmentioned : name ∈ (Block.mk vars body).mentions :=
      List.mem_append_right _ (Body.assigns_subset_outputNames body (hsub hn.1))
    simp only [Bool.not_eq_true', ← Bool.not_eq_true, List.contains_iff_mem, List.mem_append,
      List.mem_reverse, List.mem_map, not_or] at hn ⊢
    refine ⟨?_, hn.2.2⟩
    rintro ⟨v, hv, rfl⟩
    exact hn.2.1 ⟨v, hkept v hv hmentioned, rfl⟩
theorem Body.meets_dropInBody : ∀ {b : Body} {block n : Nat} {p q : Point} {M : String → Prop},
    b.Meets (accepted foreign) block n p → p.Eases M q → (∀ n ∈ b.readNames, M n) →
    (∀ n ∈ outputNames b.instructions, M n) →
    (dropInBody deleted b).Meets (accepted foreign) block n q
      ∧ (dropInBody deleted b).assigns ⊆ b.assigns
  | .done, block, n, p, q, M, _, _, _, _ => ⟨trivial, List.Subset.refl _⟩
  | .instr i rest, block, n, p, q, M, hb, hpq, hread, hout => by
    rw [Body.readNames, List.forall_mem_append] at hread
    rw [Body.instructions, outputNames, List.flatMap_cons, List.forall_mem_append] at hout
    obtain ⟨hmeets, hsub⟩ :=
      Body.meets_dropInBody hb.2 (hpq.assign (List.Subset.refl _)) hread.2 hout.2
    refine ⟨⟨hpq.instruction (fun v hv => ?_) hb.1, hmeets⟩,
      append_subset_append hsub (List.Subset.refl _)⟩
    rcases List.mem_append.1 hv with hv | hv
    · exact hread.1 _ (List.mem_map.2 ⟨v, hv, rfl⟩)
    · exact hout.1 _ (List.mem_map.2 ⟨v, hv, rfl⟩)
  | .cont c rest, block, n, p, q, M, hb, hpq, hread, hout => by
    rw [Body.readNames, List.forall_mem_append, List.forall_mem_append] at hread
    rw [Body.instructions, outputNames_append, List.forall_mem_append] at hout
    obtain ⟨hc, hsub⟩ := Continuation.meets_dropInContinuation hb.1 hpq
      (fun v hv => hread.1.1 _ (List.mem_map.2 ⟨v, hv, rfl⟩)) hread.1.2 hout.1
    obtain ⟨hmeets, hsub'⟩ := Body.meets_dropInBody hb.2 (hpq.assign hsub) hread.2 hout.2
    rw [dropInBody, Body.Meets, Body.assigns, Body.assigns,
      Continuation.blockCount_dropInContinuation]
    exact ⟨⟨hc, hmeets⟩, append_subset_append hsub' hsub⟩
theorem Continuation.meets_dropInContinuation : ∀ {c : Continuation} {n : Nat} {p q : Point}
    {M : String → Prop}, c.Meets (accepted foreign) n p →
    p.Eases M q → (∀ v ∈ c.readVars, M v.name) →
    (∀ n ∈ c.readNames, M n) → (∀ n ∈ outputNames c.instructions, M n) →
    (dropInContinuation deleted c).Meets (accepted foreign) n q
      ∧ (dropInContinuation deleted c).assigns ⊆ c.assigns
  | .ifElse condition t e, n, p, q, M, hc, hpq, hgovern, hread, hout => by
    rw [Continuation.readNames, List.forall_mem_append] at hread
    rw [Continuation.instructions, outputNames_append, List.forall_mem_append] at hout
    obtain ⟨ht, hsub⟩ := Block.meets_dropDeclarations hc.2.1
      (hpq.mono (List.forall_mem_append.2 ⟨hread.1, hout.1⟩))
    obtain ⟨he, hsub'⟩ := Block.meets_dropDeclarations hc.2.2
      (hpq.mono (List.forall_mem_append.2 ⟨hread.2, hout.2⟩))
    rw [dropInContinuation, Continuation.Meets, Continuation.assigns, Continuation.assigns,
      Block.blockCount_dropDeclarations]
    exact ⟨⟨hpq.operand (Operand.forall_mem_vars.1 hgovern) hc.1, ht, he⟩,
      append_subset_append (hsub' _) (hsub _)⟩
  | .switch value arms, n, p, q, M, hc, hpq, hgovern, hread, hout => by
    obtain ⟨harms, hsub⟩ := Arms.meets_dropInArms hc.2 hpq hread hout
    exact ⟨⟨hpq.operand (Operand.forall_mem_vars.1 hgovern) hc.1, harms⟩, hsub⟩
  | .deferred trigger b, n, p, q, M, hc, hpq, hgovern, hread, hout => by
    obtain ⟨hb, hsub⟩ := Block.meets_dropDeclarations hc.2
      ((hpq.enter rfl rfl).mono (List.forall_mem_append.2 ⟨hread, hout⟩))
    exact ⟨⟨hpq.trigger hgovern hc.1, hb⟩, hsub _⟩
  | .nested b, n, p, q, M, hc, hpq, _, hread, hout => by
    obtain ⟨hb, hsub⟩ := Block.meets_dropDeclarations hc
      (hpq.mono (List.forall_mem_append.2 ⟨hread, hout⟩))
    exact ⟨hb, hsub _⟩
theorem Arms.meets_dropInArms : ∀ {arms : Arms} {n : Nat} {p q : Point} {M : String → Prop},
    arms.Meets (accepted foreign) n p → p.Eases M q → (∀ n ∈ arms.readNames, M n) →
    (∀ n ∈ outputNames arms.instructions, M n) →
    (dropInArms deleted arms).Meets (accepted foreign) n q
      ∧ (dropInArms deleted arms).assigns ⊆ arms.assigns
  | .none, n, p, q, M, _, _, _, _ => ⟨trivial, List.Subset.refl _⟩
  | .default b, n, p, q, M, hb, hpq, hread, hout => by
    obtain ⟨hb, hsub⟩ := Block.meets_dropDeclarations hb
      (hpq.mono (List.forall_mem_append.2 ⟨hread, hout⟩))
    exact ⟨hb, hsub _⟩
  | .case label b rest, n, p, q, M, hb, hpq, hread, hout => by
    rw [Arms.readNames, List.forall_mem_append] at hread
    rw [Arms.instructions, outputNames_append, List.forall_mem_append] at hout
    obtain ⟨hb', hsub⟩ := Block.meets_dropDeclarations hb.1
      (hpq.mono (List.forall_mem_append.2 ⟨hread.1, hout.1⟩))
    obtain ⟨hrest, hsub'⟩ := Arms.meets_dropInArms hb.2 hpq hread.2 hout.2
    rw [dropInArms, Arms.Meets, Arms.assigns, Arms.assigns, Block.blockCount_dropDeclarations]
    exact ⟨⟨hb', hrest⟩, append_subset_append hsub' (hsub _)⟩
end

end Drop

/-! ## Arms that are taken -/

/-- **The requirement is weaker where more is declared and less is assigned**,
and it is the same in all blocks. -/
structure Requirement.Eased (R : Requirement) : Prop where
  nothing : ∀ {p : Point}, R.declares p []
  declares : ∀ {p q : Point} {vars : List Var}, p.Eases anyName q →
    R.declares p vars → R.declares q vars
  instruction : ∀ {n m : Nat} {p q : Point} {i : Instruction}, p.Eases anyName q →
    R.instruction n p i → R.instruction m q i
  operand : ∀ {p q : Point} {a : Operand}, p.Eases anyName q → R.operand p a → R.operand q a
  trigger : ∀ {p q : Point} {t : Trigger}, p.Eases anyName q → R.trigger p t → R.trigger q t

theorem eased_accepted (foreign : Foreign) : (accepted foreign).Eased where
  nothing := trivial
  declares _ _ := trivial
  instruction h := h.instruction fun _ _ => trivial
  operand {_ _ a} h := h.operand (by cases a <;> trivial)
  trigger h := h.trigger fun _ _ => trivial

theorem eased_ofVars (P : Var → Prop) : (Requirement.ofVars P).Eased :=
  ⟨List.forall_mem_nil _, fun _ => id, fun _ => id, fun _ => id, fun _ => id⟩

section FoldBranches

variable {R : Requirement}

mutual
/-- **What is required of a block is met once its conditionals on literals are
replaced**, and it assigns no more names. -/
theorem Block.meets_foldBranches (hR : R.Eased) : ∀ {b : Block} {n m : Nat} {p q : Point},
    b.Meets R n p → p.Eases anyName q →
    b.foldBranches.Meets R m q ∧ ∀ own, b.foldBranches.assigns own ⊆ b.assigns own
  | .mk vars body, n, m, p, q, hb, hpq => by
    obtain ⟨hmeets, hsub⟩ :=
      Body.meets_foldBranches hR (m := m) (k := m + 1) hb.2 (hpq.declare_self vars)
    exact ⟨⟨hR.declares hpq hb.1, hmeets⟩, fun own => Block.assigns_subset hsub own⟩
theorem Body.meets_foldBranches (hR : R.Eased) : ∀ {b : Body} {block n m k : Nat} {p q : Point},
    b.Meets R block n p → p.Eases anyName q →
    b.foldBranches.Meets R m k q ∧ b.foldBranches.assigns ⊆ b.assigns
  | .done, block, n, m, k, p, q, _, _ => ⟨trivial, List.Subset.refl _⟩
  | .instr i rest, block, n, m, k, p, q, hb, hpq => by
    obtain ⟨hmeets, hsub⟩ := Body.meets_foldBranches hR (m := m) (k := k) hb.2
      (hpq.assign (List.Subset.refl _))
    exact ⟨⟨hR.instruction hpq hb.1, hmeets⟩,
      append_subset_append hsub (List.Subset.refl _)⟩
  | .cont c rest, block, n, m, k, p, q, hb, hpq => by
    obtain ⟨hc, hsub⟩ := Continuation.meets_foldBranches hR (m := k) hb.1 hpq
    obtain ⟨hmeets, hsub'⟩ := Body.meets_foldBranches hR (m := m) hb.2 (hpq.assign hsub)
    exact ⟨⟨hc, hmeets⟩, append_subset_append hsub' hsub⟩
theorem Continuation.meets_foldBranches (hR : R.Eased) :
    ∀ {c : Continuation} {n m : Nat} {p q : Point},
    c.Meets R n p → p.Eases anyName q →
    c.foldBranches.Meets R m q ∧ c.foldBranches.assigns ⊆ c.assigns
  | .ifElse condition t e, n, m, p, q, hc, hpq => by
    obtain ⟨ht, hsub⟩ := Block.meets_foldBranches hR (m := m) hc.2.1 hpq
    unfold Continuation.foldBranches
    split
    · rename_i b
      cases b with
      | true => exact ⟨ht, List.subset_append_of_subset_right _ (hsub _)⟩
      | false =>
        obtain ⟨he, hsub'⟩ := Block.meets_foldBranches hR (m := m) hc.2.2 hpq
        exact ⟨he, List.subset_append_of_subset_left _ (hsub' _)⟩
    · obtain ⟨he, hsub'⟩ :=
        Block.meets_foldBranches hR (m := m + t.foldBranches.blockCount) hc.2.2 hpq
      exact ⟨⟨hR.operand hpq hc.1, ht, he⟩, append_subset_append (hsub' _) (hsub _)⟩
  | .switch value arms, n, m, p, q, hc, hpq => by
    unfold Continuation.foldBranches
    split
    · rename_i label
      obtain ⟨hb, hsub⟩ := Arms.meets_foldTaken hR label (m := m) hc.2 hpq
      exact ⟨hb, hsub⟩
    · obtain ⟨harms, hsub⟩ := Arms.meets_foldBranches hR (m := m) hc.2 hpq
      exact ⟨⟨hR.operand hpq hc.1, harms⟩, hsub⟩
  | .deferred trigger b, n, m, p, q, hc, hpq => by
    obtain ⟨hb, hsub⟩ := Block.meets_foldBranches hR (m := m) hc.2 (hpq.enter rfl rfl)
    exact ⟨⟨hR.trigger hpq hc.1, hb⟩, hsub _⟩
  | .nested b, n, m, p, q, hc, hpq => by
    obtain ⟨hb, hsub⟩ := Block.meets_foldBranches hR (m := m) hc hpq
    exact ⟨hb, hsub _⟩
theorem Arms.meets_foldBranches (hR : R.Eased) : ∀ {arms : Arms} {n m : Nat} {p q : Point},
    arms.Meets R n p → p.Eases anyName q →
    arms.foldBranches.Meets R m q ∧ arms.foldBranches.assigns ⊆ arms.assigns
  | .none, n, m, p, q, _, _ => ⟨trivial, List.Subset.refl _⟩
  | .default b, n, m, p, q, hb, hpq => by
    obtain ⟨hb, hsub⟩ := Block.meets_foldBranches hR (m := m) hb hpq
    exact ⟨hb, hsub _⟩
  | .case label b rest, n, m, p, q, hb, hpq => by
    obtain ⟨hb', hsub⟩ := Block.meets_foldBranches hR (m := m) hb.1 hpq
    obtain ⟨hrest, hsub'⟩ :=
      Arms.meets_foldBranches hR (m := m + b.foldBranches.blockCount) hb.2 hpq
    exact ⟨⟨hb', hrest⟩, append_subset_append hsub' (hsub _)⟩
/-- What is required of all arms is met by the arm that is taken. -/
theorem Arms.meets_foldTaken (hR : R.Eased) (label : Int64) :
    ∀ {arms : Arms} {n m : Nat} {p q : Point},
    arms.Meets R n p → p.Eases anyName q →
    (arms.foldTaken label).Meets R m q ∧ (arms.foldTaken label).assigns [] ⊆ arms.assigns
  | .none, n, m, p, q, _, _ => by
    rw [Arms.foldTaken, Block.empty, Block.Meets, Body.Meets, Block.assigns, Body.assigns]
    exact ⟨⟨hR.nothing, trivial⟩, List.nil_subset _⟩
  | .default b, n, m, p, q, hb, hpq => by
    obtain ⟨hb, hsub⟩ := Block.meets_foldBranches hR (m := m) hb hpq
    exact ⟨hb, hsub _⟩
  | .case label' b rest, n, m, p, q, hb, hpq => by
    rw [Arms.foldTaken, Arms.assigns]
    split
    · obtain ⟨hb', hsub⟩ := Block.meets_foldBranches hR (m := m) hb.1 hpq
      exact ⟨hb', List.subset_append_of_subset_right _ (hsub _)⟩
    · obtain ⟨hrest, hsub⟩ := Arms.meets_foldTaken hR label (m := m) hb.2 hpq
      exact ⟨hrest, List.subset_append_of_subset_left _ hsub⟩
end

end FoldBranches

end ValueFlow
