import ValueFlow.Proofs.Sweeps

/-!
# Retrieve-safe trees

A function is *retrieve-safe* if whatever it reads at once is closed by then, as
a walk over its tree can tell (`Function.retrieveSafe`). Instructions close
futures that they assign or retrieve and values that they compute. A wait closes
its variables, but for its own block only. Of a conditional, what all arms close
is closed behind it.

A rewriting of instructions keeps a tree retrieve-safe if an instruction that it
drops or replaces closes nothing that is read later, apart from what it
retrieves itself (`Block.retrieveSafe_filterMap`). So the cleanup behind the
walk keeps it (`retrieveSafe_removeRedundant`).
-/

namespace ValueFlow

variable {v : Var}

/-! ## What is closed -/

/-- What the instruction reads at once. -/
def Instruction.retrieves : Instruction → List Var
  | loadScalar _ src => [src]
  | loadRef _ src => [src]
  | _ => []

theorem Instruction.reads_of_retrieves (i : Instruction) (hv : v ∈ i.retrieves) :
    (.retrieved, .var v) ∈ i.reads := by
  cases i with
  | loadScalar dst src => exact List.mem_singleton.1 hv ▸ List.mem_singleton_self _
  | loadRef dst src => exact List.mem_singleton.1 hv ▸ List.mem_singleton_self _
  | _ => exact absurd hv List.not_mem_nil

/-- The variable is a constant, or its name is one of those that are closed. -/
def Var.isClosedIn (closed : List String) (v : Var) : Bool :=
  v.isGlobalConst || closed.contains v.name

/-- The names that are closed where the deferred block starts. -/
def Trigger.closes : Trigger → List String
  | wait vars _ _ => vars.map (·.name)
  | range index _ _ _ => [index.name]
  | foreach _ _ => []

/-- The names behind an instruction. -/
def Instruction.closedBehind (closed : List String) (i : Instruction) : List String :=
  i.closes.map (·.name) ++ closed

/-- The names that are in both lists. -/
def commonNames (names names' : List String) : List String :=
  names.filter fun n => names'.contains n

mutual
/-- **The names that are closed behind a block**, given those that are closed
before it. -/
def Block.closedBehind (closed : List String) : Block → List String
  | .mk _ body => body.closedBehind closed
/-- The names that are closed behind a body. -/
def Body.closedBehind (closed : List String) : Body → List String
  | .done => closed
  | .instr i rest => rest.closedBehind (i.closedBehind closed)
  | .cont c rest => rest.closedBehind (c.closedBehind closed)
/-- The names that are closed behind a continuation: what every arm closes and
what a nested block does. -/
def Continuation.closedBehind (closed : List String) : Continuation → List String
  | .ifElse _ t e => commonNames (t.closedBehind closed) (e.closedBehind closed)
  | .switch _ arms => arms.closedBehind closed
  | .deferred _ _ => closed
  | .nested b => b.closedBehind closed
/-- The names that every arm of a switch closes; without a default there is an
empty arm more. -/
def Arms.closedBehind (closed : List String) : Arms → List String
  | .none => closed
  | .default b => b.closedBehind closed
  | .case _ b rest => commonNames (b.closedBehind closed) (rest.closedBehind closed)
end

mutual
/-- **Whatever a block reads at once is closed by then**, given the names that
are closed before it. -/
def Block.retrieveSafe (closed : List String) : Block → Bool
  | .mk _ body => body.retrieveSafe closed
/-- Whatever a body reads at once is closed by then. -/
def Body.retrieveSafe (closed : List String) : Body → Bool
  | .done => true
  | .instr i rest =>
    i.retrieves.all (·.isClosedIn closed) && rest.retrieveSafe (i.closedBehind closed)
  | .cont c rest => c.retrieveSafe closed && rest.retrieveSafe (c.closedBehind closed)
/-- Whatever the blocks of a continuation read at once is closed by then. -/
def Continuation.retrieveSafe (closed : List String) : Continuation → Bool
  | .ifElse _ t e => t.retrieveSafe closed && e.retrieveSafe closed
  | .switch _ arms => arms.retrieveSafe closed
  | .deferred trigger b => b.retrieveSafe (trigger.closes ++ closed)
  | .nested b => b.retrieveSafe closed
/-- Whatever the arms of a switch read at once is closed by then. -/
def Arms.retrieveSafe (closed : List String) : Arms → Bool
  | .none => true
  | .default b => b.retrieveSafe closed
  | .case _ b rest => b.retrieveSafe closed && rest.retrieveSafe closed
end

/-- **Whatever the function reads at once is closed by then.** In the beginning,
constants are closed and inputs that are values. -/
def Function.retrieveSafe (f : Function) : Bool :=
  f.block.retrieveSafe ((f.inputs.filter (·.isLocalValue)).map (·.name))

theorem Var.isClosedIn_iff {closed : List String} :
    v.isClosedIn closed = true ↔ v.isGlobalConst = true ∨ v.name ∈ closed := by
  unfold isClosedIn
  rw [Bool.or_eq_true, List.contains_iff_mem]

theorem Var.isClosedIn_append {names closed : List String} :
    v.isClosedIn (names ++ closed) = true ↔ v.name ∈ names ∨ v.isClosedIn closed = true := by
  rw [isClosedIn_iff, isClosedIn_iff, List.mem_append]
  exact or_left_comm

theorem Var.isClosedIn_commonNames {names names' : List String} :
    v.isClosedIn (commonNames names names') = true ↔ v.isClosedIn names = true
      ∧ v.isClosedIn names' = true := by
  unfold commonNames
  rw [isClosedIn_iff, isClosedIn_iff, isClosedIn_iff, List.mem_filter,
    List.contains_iff_mem, or_and_left]

/-! ## Rewriting instructions -/

/-- **The rewriting is safe for names with a property**: what an instruction
with such a name closes it retrieves itself, or it is closed in its place; and
no retrieve is added. -/
def Rewrite.Safe (P : String → Prop) (g : Rewrite) : Prop :=
  ∀ n i, (∀ v ∈ i.closes, P v.name → v ∈ i.retrieves ∨ ∃ j, g n i = some j ∧ v ∈ j.closes)
    ∧ ∀ j, g n i = some j → j.retrieves ⊆ i.retrieves

/-- **What is closed stays closed**, for the variables of a text as far as their
names have a property. -/
def Covers (text : Var → Prop) (P : String → Prop) (closed closed' : List String) : Prop :=
  ∀ v, text v → P v.name → v.isClosedIn closed = true → v.isClosedIn closed' = true

/-- Variables with the same name are constants alike. -/
def MarkedAlike (text : Var → Prop) : Prop :=
  ∀ v w, text v → text w → v.name = w.name → v.isGlobalConst = w.isGlobalConst

section Rewrite

variable {text : Var → Prop} {P : String → Prop} {g : Rewrite} {closed closed' : List String}

theorem Covers.commonNames {others others' : List String} (h : Covers text P closed closed')
    (h' : Covers text P others others') :
    Covers text P (commonNames closed others) (commonNames closed' others') := by
  intro v hv hP hclosed
  obtain ⟨h₁, h₂⟩ := Var.isClosedIn_commonNames.1 hclosed
  exact Var.isClosedIn_commonNames.2 ⟨h v hv hP h₁, h' v hv hP h₂⟩

theorem Covers.append (h : Covers text P closed closed') (names : List String) :
    Covers text P (names ++ closed) (names ++ closed') := fun v hv hP hclosed =>
  Var.isClosedIn_append.2 ((Var.isClosedIn_append.1 hclosed).imp_right (h v hv hP))

theorem Instruction.isClosedIn_closedBehind {i : Instruction} {v : Var} :
    v.isClosedIn (i.closedBehind closed) = true
    ↔ (∃ w ∈ i.closes, w.name = v.name) ∨ v.isClosedIn closed = true := by
  unfold Instruction.closedBehind
  rw [Var.isClosedIn_append, List.mem_map]

/-- What is closed behind an instruction that may be rewritten was closed before
it, or it is closed in its place. -/
theorem Covers.closedBehind (hg : g.Safe P) (htext : MarkedAlike text)
    (h : Covers text P closed closed') {n : Nat} {i : Instruction}
    (hi : ∀ v ∈ i.retrieves, text v) (hsafe : ∀ v ∈ i.retrieves, v.isClosedIn closed = true)
    {v : Var} (hv : text v) (hP : P v.name)
    (hclosed : v.isClosedIn (i.closedBehind closed) = true) :
    v.isClosedIn closed' = true ∨ ∃ j, g n i = some j ∧ ∃ w ∈ j.closes, w.name = v.name := by
  rcases Instruction.isClosedIn_closedBehind.1 hclosed with ⟨w, hw, hname⟩ | hclosed
  · rcases (hg n i).1 w hw (hname ▸ hP) with hw | ⟨j, hj, hw⟩
    · have hclosed := h w (hi w hw) (hname ▸ hP) (hsafe w hw)
      unfold Var.isClosedIn at hclosed
      rw [htext w v (hi w hw) hv hname, hname] at hclosed
      exact .inl hclosed
    · exact .inr ⟨j, hj, w, hw, hname⟩
  · exact .inl (h v hv hP hclosed)

mutual
/-- **A safe rewriting keeps a block retrieve-safe**, and it keeps what is
closed behind it. -/
theorem Block.retrieveSafe_filterMap (hg : g.Safe P) (htext : MarkedAlike text) :
    ∀ (b : Block) (n : Nat) {closed closed' : List String}, Covers text P closed closed' →
    (∀ i ∈ b.instructions, ∀ v ∈ i.retrieves, text v) → (∀ x ∈ (b.filterMap g n).readNames, P x) →
    b.retrieveSafe closed = true →
    (b.filterMap g n).retrieveSafe closed' = true
      ∧ Covers text P (b.closedBehind closed) ((b.filterMap g n).closedBehind closed')
  | .mk _ body, n, _, _, hcovers, hb, hread, hsafe =>
    Body.retrieveSafe_filterMap hg htext n body (n + 1) hcovers hb hread hsafe
theorem Body.retrieveSafe_filterMap (hg : g.Safe P) (htext : MarkedAlike text) (block : Nat) :
    ∀ (b : Body) (n : Nat) {closed closed' : List String}, Covers text P closed closed' →
    (∀ i ∈ b.instructions, ∀ v ∈ i.retrieves, text v) →
    (∀ x ∈ (b.filterMap g block n).readNames, P x) →
    b.retrieveSafe closed = true →
    (b.filterMap g block n).retrieveSafe closed' = true
      ∧ Covers text P (b.closedBehind closed) ((b.filterMap g block n).closedBehind closed')
  | .done, n, closed, closed', hcovers, _, _, _ => ⟨rfl, hcovers⟩
  | .instr i rest, n, closed, closed', hcovers, hb, hread, hsafe => by
    rw [Body.instructions, List.forall_mem_cons] at hb
    rw [Body.retrieveSafe, Bool.and_eq_true, List.all_eq_true] at hsafe
    have hbehind := fun v hv hP => hcovers.closedBehind
      hg htext (n := block) hb.1 hsafe.1 (v := v) hv hP
    rw [Body.filterMap] at hread ⊢
    cases hi : g block i with
    | none =>
      rw [hi] at hread
      refine Body.retrieveSafe_filterMap hg htext block
        rest n (fun v hv hP hclosed => ?_) hb.2 hread hsafe.2
      rcases hbehind v hv hP hclosed with h | ⟨j, hj, -⟩
      · exact h
      · cases hi.symm.trans hj
    | some j =>
      simp only [hi, Body.readNames, List.forall_mem_append] at hread
      have hcovers₁ : Covers text P (i.closedBehind closed) (j.closedBehind closed') :=
          fun v hv hP hclosed => by
        rcases hbehind v hv hP hclosed with h | ⟨j', hj', hw⟩
        · exact Instruction.isClosedIn_closedBehind.2 (.inr h)
        · obtain rfl := Option.some.inj (hi.symm.trans hj')
          exact Instruction.isClosedIn_closedBehind.2 (.inl hw)
      obtain ⟨hrest, hcovers₂⟩ :=
        Body.retrieveSafe_filterMap hg htext block rest n hcovers₁ hb.2 hread.2 hsafe.2
      rw [Body.retrieveSafe, Body.closedBehind, Bool.and_eq_true, List.all_eq_true]
      refine ⟨⟨fun v hv => ?_, hrest⟩, hcovers₂⟩
      have hv' := (hg block i).2 j hi hv
      have hvar : v ∈ j.readVars := List.mem_filterMap.2 ⟨_, j.reads_of_retrieves hv, rfl⟩
      exact hcovers v (hb.1 v hv') (hread.1 _ (List.mem_map_of_mem hvar)) (hsafe.1 v hv')
  | .cont c rest, n, closed, closed', hcovers, hb, hread, hsafe => by
    rw [Body.instructions, List.forall_mem_append] at hb
    rw [Body.retrieveSafe, Bool.and_eq_true] at hsafe
    rw [Body.filterMap, Body.readNames, List.forall_mem_append, List.forall_mem_append] at hread
    obtain ⟨hc, hcovers₁⟩ :=
      Continuation.retrieveSafe_filterMap hg htext c n hcovers hb.1 hread.1.2 hsafe.1
    obtain ⟨hrest, hcovers₂⟩ :=
      Body.retrieveSafe_filterMap hg htext block rest _ hcovers₁ hb.2 hread.2 hsafe.2
    rw [Body.filterMap, Body.retrieveSafe, Body.closedBehind, Body.closedBehind, Bool.and_eq_true]
    exact ⟨⟨hc, hrest⟩, hcovers₂⟩
theorem Continuation.retrieveSafe_filterMap (hg : g.Safe P) (htext : MarkedAlike text) :
    ∀ (c : Continuation) (n : Nat) {closed closed' : List String}, Covers text P closed closed' →
    (∀ i ∈ c.instructions, ∀ v ∈ i.retrieves, text v) → (∀ x ∈ (c.filterMap g n).readNames, P x) →
    c.retrieveSafe closed = true →
    (c.filterMap g n).retrieveSafe closed' = true
      ∧ Covers text P (c.closedBehind closed) ((c.filterMap g n).closedBehind closed')
  | .ifElse condition t e, n, closed, closed', hcovers, hb, hread, hsafe => by
    rw [Continuation.instructions, List.forall_mem_append] at hb
    rw [Continuation.retrieveSafe, Bool.and_eq_true] at hsafe
    rw [Continuation.filterMap, Continuation.readNames, List.forall_mem_append] at hread
    obtain ⟨ht, hcovers₁⟩ := Block.retrieveSafe_filterMap hg htext t n hcovers hb.1 hread.1 hsafe.1
    obtain ⟨he, hcovers₂⟩ := Block.retrieveSafe_filterMap hg htext e _ hcovers hb.2 hread.2 hsafe.2
    rw [Continuation.filterMap, Continuation.retrieveSafe,
      Continuation.closedBehind, Continuation.closedBehind,
      Bool.and_eq_true]
    exact ⟨⟨ht, he⟩, hcovers₁.commonNames hcovers₂⟩
  | .switch value arms, n, closed, closed', hcovers, hb, hread, hsafe =>
    Arms.retrieveSafe_filterMap hg htext arms n hcovers hb hread hsafe
  | .deferred trigger b, n, closed, closed', hcovers, hb, hread, hsafe =>
    ⟨(Block.retrieveSafe_filterMap hg htext b n (hcovers.append trigger.closes) hb hread hsafe).1,
      hcovers⟩
  | .nested b, n, closed, closed', hcovers, hb, hread, hsafe =>
    Block.retrieveSafe_filterMap hg htext b n hcovers hb hread hsafe
theorem Arms.retrieveSafe_filterMap (hg : g.Safe P) (htext : MarkedAlike text) :
    ∀ (arms : Arms) (n : Nat) {closed closed' : List String}, Covers text P closed closed' →
    (∀ i ∈ arms.instructions, ∀ v ∈ i.retrieves, text v) →
    (∀ x ∈ (arms.filterMap g n).readNames, P x) →
    arms.retrieveSafe closed = true →
    (arms.filterMap g n).retrieveSafe closed' = true
      ∧ Covers text P (arms.closedBehind closed) ((arms.filterMap g n).closedBehind closed')
  | .none, n, closed, closed', hcovers, _, _, _ => ⟨rfl, hcovers⟩
  | .default b, n, closed, closed', hcovers, hb, hread, hsafe =>
    Block.retrieveSafe_filterMap hg htext b n hcovers hb hread hsafe
  | .case label b rest, n, closed, closed', hcovers, hb, hread, hsafe => by
    rw [Arms.instructions, List.forall_mem_append] at hb
    rw [Arms.retrieveSafe, Bool.and_eq_true] at hsafe
    rw [Arms.filterMap, Arms.readNames, List.forall_mem_append] at hread
    obtain ⟨hb', hcovers₁⟩ := Block.retrieveSafe_filterMap hg htext b n hcovers hb.1 hread.1 hsafe.1
    obtain ⟨hrest, hcovers₂⟩ :=
      Arms.retrieveSafe_filterMap hg htext rest _ hcovers hb.2 hread.2 hsafe.2
    rw [Arms.filterMap, Arms.retrieveSafe, Arms.closedBehind, Arms.closedBehind, Bool.and_eq_true]
    exact ⟨⟨hb', hrest⟩, hcovers₁.commonNames hcovers₂⟩
end

end Rewrite

/-! ## The cleanup -/

namespace Numbering

section Drop

variable (deleted : List String)

mutual
/-- Declarations do not matter. -/
theorem retrieveSafe_dropDeclarations : ∀ (b : Block) (closed : List String),
    (dropDeclarations deleted b).retrieveSafe closed = b.retrieveSafe closed
      ∧ (dropDeclarations deleted b).closedBehind closed = b.closedBehind closed
  | .mk _ body, closed => retrieveSafe_dropInBody body closed
theorem retrieveSafe_dropInBody : ∀ (b : Body) (closed : List String),
    (dropInBody deleted b).retrieveSafe closed = b.retrieveSafe closed
      ∧ (dropInBody deleted b).closedBehind closed = b.closedBehind closed
  | .done, closed => ⟨rfl, rfl⟩
  | .instr i rest, closed => by
    obtain ⟨h₁, h₂⟩ := retrieveSafe_dropInBody rest (i.closedBehind closed)
    rw [dropInBody, Body.retrieveSafe, Body.closedBehind,
      Body.retrieveSafe, Body.closedBehind, h₁, h₂]
    exact ⟨rfl, rfl⟩
  | .cont c rest, closed => by
    obtain ⟨h₁, h₂⟩ := retrieveSafe_dropInContinuation c closed
    obtain ⟨h₃, h₄⟩ := retrieveSafe_dropInBody rest (c.closedBehind closed)
    rw [dropInBody, Body.retrieveSafe, Body.closedBehind,
      Body.retrieveSafe, Body.closedBehind, h₁, h₂, h₃, h₄]
    exact ⟨rfl, rfl⟩
theorem retrieveSafe_dropInContinuation : ∀ (c : Continuation) (closed : List String),
    (dropInContinuation deleted c).retrieveSafe closed = c.retrieveSafe closed
      ∧ (dropInContinuation deleted c).closedBehind closed = c.closedBehind closed
  | .ifElse condition t e, closed => by
    obtain ⟨h₁, h₂⟩ := retrieveSafe_dropDeclarations t closed
    obtain ⟨h₃, h₄⟩ := retrieveSafe_dropDeclarations e closed
    rw [dropInContinuation, Continuation.retrieveSafe, Continuation.closedBehind,
      Continuation.retrieveSafe,
      Continuation.closedBehind, h₁, h₂, h₃, h₄]
    exact ⟨rfl, rfl⟩
  | .switch value arms, closed => retrieveSafe_dropInArms arms closed
  | .deferred trigger b, closed => ⟨(retrieveSafe_dropDeclarations b _).1, rfl⟩
  | .nested b, closed => retrieveSafe_dropDeclarations b closed
theorem retrieveSafe_dropInArms : ∀ (arms : Arms) (closed : List String),
    (dropInArms deleted arms).retrieveSafe closed = arms.retrieveSafe closed
      ∧ (dropInArms deleted arms).closedBehind closed = arms.closedBehind closed
  | .none, closed => ⟨rfl, rfl⟩
  | .default b, closed => retrieveSafe_dropDeclarations b closed
  | .case label b rest, closed => by
    obtain ⟨h₁, h₂⟩ := retrieveSafe_dropDeclarations b closed
    obtain ⟨h₃, h₄⟩ := retrieveSafe_dropInArms rest closed
    rw [dropInArms, Arms.retrieveSafe, Arms.closedBehind,
      Arms.retrieveSafe, Arms.closedBehind, h₁, h₂, h₃, h₄]
    exact ⟨rfl, rfl⟩
end

end Drop

theorem closes_subset {i : Instruction} {v : Var} (hv : v ∈ i.closes) :
    v ∈ i.retrieves ∨ v ∈ i.outputs := by
  rcases List.mem_append.1 hv with hv | hv
  · cases i with
    | storeScalar dst src => exact .inr hv
    | storeRef dst src => exact .inr hv
    | loadScalar dst src => exact .inl hv
    | loadRef dst src => exact .inl hv
    | _ => exact absurd hv List.not_mem_nil
  · exact .inr (List.mem_filter.1 hv).1

/-- Deleting dead instructions is safe for the names that are read. -/
theorem Cleanup.DropsDead.safe {c : Cleanup} {reads : List String} {g : Rewrite}
    (h : c.DropsDead reads g) : g.Safe (· ∈ reads) := by
  intro n i
  rcases h n i with hi | ⟨hi, hdead⟩
  · refine ⟨fun v hv _ => .inr ⟨i, hi, hv⟩, fun j hj => ?_⟩
    obtain rfl := Option.some.inj (hi.symm.trans hj)
    exact List.Subset.refl _
  · refine ⟨fun v hv hread => ?_, fun j hj => nomatch hi.symm.trans hj⟩
    refine .inl ((closes_subset hv).resolve_right fun hout => ?_)
    exact (Cleanup.isDead_eq_true hdead).2 v hout hread

/-- A store closes what it assigns. -/
theorem Cleanup.safe_stored (c : Cleanup) :
    Rewrite.Safe (fun _ => True) fun n i => some (c.stored n i) := by
  intro n i
  rcases c.stored_cases n i with hi | ⟨dst, a, hout, -, hi⟩
  · simp only [hi]
    refine ⟨fun v hv _ => .inr ⟨i, rfl, hv⟩, fun j hj => ?_⟩
    obtain rfl := Option.some.inj hj
    exact List.Subset.refl _
  · simp only [hi]
    refine ⟨fun v hv _ => (closes_subset hv).imp_right fun hv => ⟨_, rfl, ?_⟩, fun j hj => ?_⟩
    · rw [hout] at hv
      exact List.mem_append_left _ hv
    · obtain rfl := Option.some.inj hj
      exact List.nil_subset _

/-- **A function that is cleaned up stays retrieve-safe**, if what it retrieves
is marked alike. -/
theorem retrieveSafe_removeRedundant {text : Var → Prop} (htext : MarkedAlike text)
    (ctx : Context) {f : Function} (hf : ∀ i ∈ f.block.instructions, ∀ v ∈ i.retrieves, text v)
    (s : State) (hsafe : f.retrieveSafe = true) :
    (removeRedundant ctx f s).1.retrieveSafe = true := by
  obtain ⟨g, deleted, hdrops, heq⟩ := removeRedundant_phases ctx f s
  have hkept : ∀ i ∈ (f.block.filterMap g 0).instructions, ∀ v ∈ i.retrieves, text v := by
    intro i hi
    obtain ⟨k, j, hj, hsome⟩ := Block.instructions_filterMap 0 f.block i hi
    exact fun v hv => hf j hj v ((hdrops.safe k j).2 i hsome hv)
  obtain ⟨hswept, -⟩ :=
    Block.retrieveSafe_filterMap hdrops.safe htext f.block 0 (fun _ _ _ h => h) hf
      (fun x hx => List.mem_append_right _ hx) hsafe
  obtain ⟨hstored, -⟩ :=
    Block.retrieveSafe_filterMap (Cleanup.safe_stored ⟨ctx.foreign, s.marks⟩) htext
      (f.block.filterMap g 0) 0 (fun _ _ _ h => h) hkept (fun _ _ => trivial) hswept
  dsimp only at heq
  rw [heq, Function.retrieveSafe, (retrieveSafe_dropDeclarations deleted _ _).1,
    Cleanup.storeBlock_fst]
  exact hstored

end Numbering

end ValueFlow
