import ValueFlow.Proofs.AcceptedTrees
import Mathlib.Data.List.Pairwise

/-!
# Instructions by the number of their block

An output is told by its name and the number of the block in which it is
assigned, since names alone are told apart only in overlapping scopes. In an
accepted tree this is enough: of the instructions in the block with some number,
only one assigns a given name (`Block.pairwise_numbered`). What the instructions
of a block write is noted in the scope of the block (`invalidated_visitBlock`).
-/

namespace ValueFlow

/-! ## Numbers -/

section Numbers

variable {m : Nat} {i : Instruction}

mutual
/-- A block uses as many numbers as it has blocks. -/
theorem Block.numbered_range : ∀ {b : Block} {n : Nat}, (m, i) ∈ b.numbered n →
    n ≤ m ∧ m < n + b.blockCount
  | .mk vars body, n, h => by
    rw [Block.blockCount]
    rcases Body.numbered_range h with rfl | h
    · omega
    · omega
theorem Body.numbered_range : ∀ {b : Body} {block n : Nat}, (m, i) ∈ b.numbered block n →
    m = block ∨ n ≤ m ∧ m < n + b.blockCount
  | .done, block, n, h => by
    cases h
  | .instr j rest, block, n, h => by
    rw [Body.numbered, List.mem_cons] at h
    rw [Body.blockCount]
    rcases h with h | h
    · exact .inl (Prod.mk.inj h).1
    · exact Body.numbered_range h
  | .cont c rest, block, n, h => by
    rw [Body.numbered, List.mem_append] at h
    rw [Body.blockCount]
    rcases h with h | h
    · have := Continuation.numbered_range h
      omega
    · have := Body.numbered_range h
      omega
theorem Continuation.numbered_range : ∀ {c : Continuation} {n : Nat}, (m, i) ∈ c.numbered n →
    n ≤ m ∧ m < n + c.blockCount
  | .ifElse condition t e, n, h => by
    rw [Continuation.numbered, List.mem_append] at h
    rw [Continuation.blockCount]
    rcases h with h | h
    · have := Block.numbered_range h
      omega
    · have := Block.numbered_range h
      omega
  | .switch value arms, n, h => Arms.numbered_range h
  | .deferred trigger b, n, h => Block.numbered_range h
  | .nested b, n, h => Block.numbered_range h
theorem Arms.numbered_range : ∀ {arms : Arms} {n : Nat}, (m, i) ∈ arms.numbered n →
    n ≤ m ∧ m < n + arms.blockCount
  | .none, n, h => by
    cases h
  | .default b, n, h => Block.numbered_range h
  | .case label b rest, n, h => by
    rw [Arms.numbered, List.mem_append] at h
    rw [Arms.blockCount]
    rcases h with h | h
    · have := Block.numbered_range h
      omega
    · have := Arms.numbered_range h
      omega
end

end Numbers

/-! ## Requirements on instructions -/

/-- Instructions have a property, in view of the numbers of their blocks. -/
def Requirement.ofInstructions (P : Nat → Instruction → Prop) : Requirement where
  declares _ _ := True
  instruction n _ i := P n i
  operand _ _ := True
  trigger _ _ := True

section OfInstructions

variable {P : Nat → Instruction → Prop}

mutual
theorem Block.meets_ofInstructions : ∀ {b : Block} {n : Nat} {p : Point},
    b.Meets (.ofInstructions P) n p ↔ ∀ e ∈ b.numbered n, P e.1 e.2
  | .mk _ _, _, _ => (and_iff_right trivial).trans Body.meets_ofInstructions
theorem Body.meets_ofInstructions : ∀ {b : Body} {block n : Nat} {p : Point},
    b.Meets (.ofInstructions P) block n p ↔ ∀ e ∈ b.numbered block n, P e.1 e.2
  | .done, _, _, _ => iff_of_true trivial (List.forall_mem_nil _)
  | .instr i rest, block, n, p => by
    rw [Body.numbered, List.forall_mem_cons, Body.Meets, Body.meets_ofInstructions]
    rfl
  | .cont c rest, block, n, p => by
    rw [Body.numbered, List.forall_mem_append, Body.Meets, Continuation.meets_ofInstructions,
      Body.meets_ofInstructions]
theorem Continuation.meets_ofInstructions : ∀ {c : Continuation} {n : Nat} {p : Point},
    c.Meets (.ofInstructions P) n p ↔ ∀ e ∈ c.numbered n, P e.1 e.2
  | .ifElse condition t e, n, p => by
    rw [Continuation.numbered, List.forall_mem_append, Continuation.Meets,
      Block.meets_ofInstructions,
      Block.meets_ofInstructions]
    exact and_iff_right trivial
  | .switch _ _, _, _ => (and_iff_right trivial).trans Arms.meets_ofInstructions
  | .deferred _ _, _, _ => (and_iff_right trivial).trans Block.meets_ofInstructions
  | .nested _, _, _ => Block.meets_ofInstructions
theorem Arms.meets_ofInstructions : ∀ {arms : Arms} {n : Nat} {p : Point},
    arms.Meets (.ofInstructions P) n p ↔ ∀ e ∈ arms.numbered n, P e.1 e.2
  | .none, _, _ => iff_of_true trivial (List.forall_mem_nil _)
  | .default _, _, _ => Block.meets_ofInstructions
  | .case label b rest, n, p => by
    rw [Arms.numbered, List.forall_mem_append, Arms.Meets,
      Block.meets_ofInstructions, Arms.meets_ofInstructions]
end

/-- Replacing conditionals on literals adds no instruction. -/
theorem Block.instructions_foldBranches (b : Block) :
    b.foldBranches.instructions ⊆ b.instructions := by
  have hR : (Requirement.ofInstructions fun _ i => i ∈ b.instructions).Eased :=
    ⟨trivial, fun _ => id, fun _ => id, fun _ => id, fun _ => id⟩
  have hb : b.Meets (.ofInstructions fun _ i => i ∈ b.instructions) 0 ⟨[], []⟩ :=
    Block.meets_ofInstructions.2 fun e he => b.map_snd_numbered 0 ▸ List.mem_map_of_mem he
  have hfolded := Block.meets_ofInstructions.1 (Block.meets_foldBranches (m := 0) hR hb (.refl _)).1
  intro i hi
  rw [← Block.map_snd_numbered 0] at hi
  obtain ⟨e, he, rfl⟩ := List.mem_map.1 hi
  exact hfolded e he

end OfInstructions

/-! ## Assignments -/

theorem Point.not_mem_of_assignedTwice? {p : Point} {vars : List Var}
    (h : p.assignedTwice? vars = none) : ∀ v ∈ vars, v.name ∉ p.assigned := by
  induction vars generalizing p with
  | nil => exact List.forall_mem_nil _
  | cons v vars ih =>
    rw [assignedTwice?] at h
    split at h
    · cases h
    · rename_i hv
      refine List.forall_mem_cons.2
        ⟨fun hmem => hv (List.contains_iff_mem.2 hmem), fun w hw hmem => ?_⟩
      exact ih h w hw (List.mem_append_right _ hmem)

section Assignments

variable {foreign : Foreign} {name : String}

theorem Instruction.not_mem_assigns {i : Instruction} {n : Nat} {p : Point}
    (hname : name ∈ p.assigned) (h : (accepted foreign).instruction n p i) : name ∉ i.assigns := by
  intro hmem
  obtain ⟨v, hv, rfl⟩ := List.mem_map.1 (List.mem_reverse.1 hmem)
  exact Point.not_mem_of_assignedTwice? h.2.1 v hv hname

mutual
/-- **Where a name was assigned before**, no instruction assigns it. -/
theorem Block.not_mem_assigns : ∀ {b : Block} {n : Nat} {p : Point}, name ∈ p.assigned →
    b.Meets (accepted foreign) n p → ∀ e ∈ b.numbered n, name ∉ e.2.assigns
  | .mk vars _, _, p, hname, h => Body.not_mem_assigns (p := p.declare vars) hname h.2
theorem Body.not_mem_assigns : ∀ {b : Body} {block n : Nat} {p : Point}, name ∈ p.assigned →
    b.Meets (accepted foreign) block n p → ∀ e ∈ b.numbered block n, name ∉ e.2.assigns
  | .done, block, n, p, _, _ => List.forall_mem_nil _
  | .instr i rest, block, n, p, hname, h => by
    rw [Body.numbered, List.forall_mem_cons]
    exact ⟨i.not_mem_assigns hname h.1, Body.not_mem_assigns (List.mem_append_right _ hname) h.2⟩
  | .cont c rest, block, n, p, hname, h => by
    rw [Body.numbered, List.forall_mem_append]
    exact ⟨Continuation.not_mem_assigns hname h.1,
      Body.not_mem_assigns (List.mem_append_right _ hname) h.2⟩
theorem Continuation.not_mem_assigns :
    ∀ {c : Continuation} {n : Nat} {p : Point}, name ∈ p.assigned →
    c.Meets (accepted foreign) n p → ∀ e ∈ c.numbered n, name ∉ e.2.assigns
  | .ifElse condition t e, n, p, hname, h => by
    rw [Continuation.numbered, List.forall_mem_append]
    exact ⟨Block.not_mem_assigns hname h.2.1, Block.not_mem_assigns hname h.2.2⟩
  | .switch value arms, n, p, hname, h => Arms.not_mem_assigns hname h.2
  | .deferred trigger b, n, p, hname, h =>
    Block.not_mem_assigns (p := p.enter trigger) (List.mem_append_right _ hname) h.2
  | .nested b, n, p, hname, h => Block.not_mem_assigns hname h
theorem Arms.not_mem_assigns : ∀ {arms : Arms} {n : Nat} {p : Point}, name ∈ p.assigned →
    arms.Meets (accepted foreign) n p → ∀ e ∈ arms.numbered n, name ∉ e.2.assigns
  | .none, n, p, _, _ => List.forall_mem_nil _
  | .default b, n, p, hname, h => Block.not_mem_assigns hname h
  | .case label b rest, n, p, hname, h => by
    rw [Arms.numbered, List.forall_mem_append]
    exact ⟨Block.not_mem_assigns hname h.1, Arms.not_mem_assigns hname h.2⟩
end

/-- Of two instructions in the same block, the one assigns no name that the
other assigns. -/
def AssignApart (e e' : Nat × Instruction) : Prop :=
  e.1 = e'.1 → ∀ name ∈ e.2.assigns, name ∉ e'.2.assigns

instance : Std.Symm AssignApart := ⟨fun _ _ h heq name hname hname' => h heq.symm name hname' hname⟩

mutual
/-- **In an accepted tree, a name is assigned once in the block with a given
number.** -/
theorem Block.pairwise_numbered :
    ∀ {b : Block} {n : Nat} {p : Point}, b.Meets (accepted foreign) n p →
    (b.numbered n).Pairwise AssignApart
  | .mk _ _, n, _, h => Body.pairwise_numbered (Nat.lt_succ_self n) h.2
theorem Body.pairwise_numbered : ∀ {b : Body} {block n : Nat} {p : Point}, block < n →
    b.Meets (accepted foreign) block n p → (b.numbered block n).Pairwise AssignApart
  | .done, block, n, p, _, _ => .nil
  | .instr i rest, block, n, p, hlt, h => by
    refine List.pairwise_cons.2 ⟨fun e he _ name hname => ?_, Body.pairwise_numbered hlt h.2⟩
    -- behind the instruction, its names are assigned
    exact Body.not_mem_assigns (List.mem_append_left _ hname) h.2 e he
  | .cont c rest, block, n, p, hlt, h => by
    refine List.pairwise_append.2
      ⟨Continuation.pairwise_numbered h.1, Body.pairwise_numbered (Nat.lt_add_right _ hlt) h.2, ?_⟩
    -- the numbers inside the continuation are not used behind it
    rintro ⟨m, i⟩ hi ⟨-, j⟩ hj rfl
    have := Continuation.numbered_range hi
    have := Body.numbered_range hj
    omega
theorem Continuation.pairwise_numbered : ∀ {c : Continuation} {n : Nat} {p : Point},
    c.Meets (accepted foreign) n p → (c.numbered n).Pairwise AssignApart
  | .ifElse condition t e, n, p, h => by
    refine List.pairwise_append.2 ⟨Block.pairwise_numbered h.2.1, Block.pairwise_numbered h.2.2, ?_⟩
    rintro ⟨m, i⟩ hi ⟨-, j⟩ hj rfl
    have := Block.numbered_range hi
    have := Block.numbered_range hj
    omega
  | .switch value arms, n, p, h => Arms.pairwise_numbered h.2
  | .deferred trigger b, n, p, h => Block.pairwise_numbered h.2
  | .nested b, n, p, h => Block.pairwise_numbered h
theorem Arms.pairwise_numbered :
    ∀ {arms : Arms} {n : Nat} {p : Point}, arms.Meets (accepted foreign) n p →
    (arms.numbered n).Pairwise AssignApart
  | .none, n, p, _ => .nil
  | .default b, n, p, h => Block.pairwise_numbered h
  | .case label b rest, n, p, h => by
    refine List.pairwise_append.2 ⟨Block.pairwise_numbered h.1, Arms.pairwise_numbered h.2, ?_⟩
    rintro ⟨m, i⟩ hi ⟨-, j⟩ hj rfl
    have := Block.numbered_range hi
    have := Arms.numbered_range hj
    omega
end

theorem Block.eq_of_mem_numbered {b : Block} {n m : Nat} {p : Point} {i j : Instruction}
    (h : b.Meets (accepted foreign) n p) (hi : (m, i) ∈ b.numbered n) (hj : (m, j) ∈ b.numbered n)
    (hni : name ∈ i.assigns) (hnj : name ∈ j.assigns) : i = j := by
  by_contra hne
  exact (Block.pairwise_numbered h).forall hi hj (fun heq => hne (Prod.mk.inj heq).2)
    rfl name hni hnj

end Assignments

/-! ## What the cleanup leaves -/

namespace Numbering

section Drop

variable (deleted : List String)

mutual
/-- **Dropping declarations leaves the instructions** in the blocks with their
numbers, and what is read. -/
theorem numbered_dropDeclarations (n : Nat) : ∀ b : Block,
    (dropDeclarations deleted b).numbered n = b.numbered n
      ∧ (dropDeclarations deleted b).readNames = b.readNames
  | .mk vars body => by
    obtain ⟨hnumbered, hreads⟩ := numbered_dropInBody n (n + 1) body
    simp only [dropDeclarations, Block.numbered, Block.readNames, hnumbered, hreads, and_self]
theorem numbered_dropInBody (block n : Nat) : ∀ b : Body,
    (dropInBody deleted b).numbered block n = b.numbered block n
      ∧ (dropInBody deleted b).readNames = b.readNames
  | .done => ⟨rfl, rfl⟩
  | .instr i rest => by
    obtain ⟨hnumbered, hreads⟩ := numbered_dropInBody block n rest
    simp only [dropInBody, Body.numbered, Body.readNames, hnumbered, hreads, and_self]
  | .cont c rest => by
    obtain ⟨hfirst, hreads₁, hvars⟩ := numbered_dropInContinuation n c
    obtain ⟨hrest, hreads₂⟩ := numbered_dropInBody block (n + c.blockCount) rest
    simp only [dropInBody, Body.numbered, Body.readNames,
      Continuation.blockCount_dropInContinuation, hfirst, hreads₁,
      hvars, hrest, hreads₂, and_self]
theorem numbered_dropInContinuation (n : Nat) : ∀ c : Continuation,
    (dropInContinuation deleted c).numbered n = c.numbered n
      ∧ (dropInContinuation deleted c).readNames = c.readNames
        ∧ (dropInContinuation deleted c).readVars = c.readVars
  | .ifElse condition t e => by
    obtain ⟨ht, hreads₁⟩ := numbered_dropDeclarations n t
    obtain ⟨he, hreads₂⟩ := numbered_dropDeclarations (n + t.blockCount) e
    simp only [dropInContinuation, Continuation.numbered,
      Continuation.readNames, Block.blockCount_dropDeclarations, ht,
      hreads₁, he, hreads₂, true_and]
    rfl
  | .switch value arms => by
    obtain ⟨harms, hreads⟩ := numbered_dropInArms n arms
    simp only [dropInContinuation, Continuation.numbered,
      Continuation.readNames, harms, hreads, true_and]
    rfl
  | .deferred trigger b => by
    obtain ⟨hb, hreads⟩ := numbered_dropDeclarations n b
    simp only [dropInContinuation, Continuation.numbered,
      Continuation.readNames, hb, hreads, true_and]
    rfl
  | .nested b => by
    obtain ⟨hb, hreads⟩ := numbered_dropDeclarations n b
    simp only [dropInContinuation, Continuation.numbered,
      Continuation.readNames, hb, hreads, true_and]
    rfl
theorem numbered_dropInArms (n : Nat) : ∀ arms : Arms,
    (dropInArms deleted arms).numbered n = arms.numbered n
      ∧ (dropInArms deleted arms).readNames = arms.readNames
  | .none => ⟨rfl, rfl⟩
  | .default b => by
    obtain ⟨hb, hreads⟩ := numbered_dropDeclarations n b
    simp only [dropInArms, Arms.numbered, Arms.readNames, hb, hreads, and_self]
  | .case label b rest => by
    obtain ⟨hb, hreads₁⟩ := numbered_dropDeclarations n b
    obtain ⟨hrest, hreads₂⟩ := numbered_dropInArms (n + b.blockCount) rest
    simp only [dropInArms, Arms.numbered, Arms.readNames,
      Block.blockCount_dropDeclarations, hb, hreads₁, hrest, hreads₂,
      and_self]
end

end Drop

/-- **What the cleanup leaves of the instructions**: some of them, and stores of
values that are noted with marks. -/
theorem mem_instructions_removeRedundant {ctx : Context} {f : Function} {s : State}
    {j : Instruction} (hj : j ∈ (removeRedundant ctx f s).1.block.instructions) :
    j ∈ f.block.instructions
      ∨ ∃ block dst a, s.marks.literal? block dst = some a ∧ j = .storeScalar dst a := by
  obtain ⟨g, reads, deleted, -, hg, hfst⟩ := removeRedundant_fst ctx f s
  rw [hfst, ← Block.map_snd_numbered 0, (numbered_dropDeclarations deleted 0 _).1,
    Block.map_snd_numbered] at hj
  obtain ⟨k, i, hi, hij⟩ := Block.instructions_filterMap 0 _ j hj
  rcases hg k i with hstored | ⟨hnone, -⟩
  · obtain rfl := Option.some.inj (hij.symm.trans hstored)
    rcases Cleanup.stored_cases ⟨ctx.foreign, s.marks⟩ k i with heq | ⟨dst, a, -, ha, heq⟩
    · rw [heq]
      exact .inl hi
    · exact .inr ⟨k, dst, a, ha, heq⟩
  · cases hnone.symm.trans hij

/-! ## Writes -/

variable {ctx : Context}

/-- The innermost scope takes note of what the instructions write. -/
theorem upheld_invalidated (ctx : Context) (ls : List Location) :
    Upheld ctx (.ofInstructions fun _ i => writtenBy ctx.aliases i.writes ⊆ ls)
      fun s => s.facts.top.invalidated ⊆ ls where
  quiet hs hq := hq.facts ▸ hs
  declare {s vars} hs _ := by
    obtain ⟨-, -, -, -, -, hinvalidated, -⟩ := foldl_declare_spec vars s.facts
    exact hinvalidated ▸ hs
  instruction hs hi hf := by
    rw [(facts_visitInstruction hf).2.2]
    exact List.append_subset.2 ⟨hs, hi⟩
  push _ _ := List.nil_subset _
  defer _ _ _ hf := by
    obtain ⟨closed, hfacts⟩ := facts_enterDeferred hf
    rw [hfacts]
    exact List.nil_subset _
  nested hs hs' _ _ := List.append_subset.2 ⟨hs, hs'⟩
  deferred hs _ _ := hs
  arm hs _ _ := hs
  branches {s arms} hs harms := by
    obtain ⟨-, hinvalidated, -⟩ :=
      Congruence.mergeBranches_spec ctx.aliases ctx.settings.branchMerge arms s.facts
    show (s.facts.mergeBranches ctx.aliases ctx.settings.branchMerge arms).2.top.invalidated ⊆ ls
    rw [hinvalidated]
    refine List.append_subset.2 ⟨hs, fun l hl => ?_⟩
    obtain ⟨arm, harm, hl⟩ := List.mem_flatMap.1 hl
    obtain ⟨-, s', hs', hfacts⟩ := harms arm harm
    rw [hfacts] at hs'
    exact hs' hl

/-- **The scope of a walked block takes note of what the block writes.** -/
theorem invalidated_visitBlock {b : Block} {s : State} {kind : ScopeKind}
    (hf : (visitBlock ctx b (s.push kind)).fault = none) :
    (visitBlock ctx b (s.push kind)).state.facts.top.invalidated
      ⊆ locations ctx.aliases b.instructions := by
  refine ((upheld_invalidated ctx _).visitBlock b _ (List.nil_subset _)
    (Block.meets_ofInstructions.2 fun e he l hl => ?_) hf).after
  refine List.mem_flatMap.2 ⟨e.2, ?_, hl⟩
  rw [← Block.map_snd_numbered s.nextBlock]
  exact List.mem_map_of_mem he

end Numbering

end ValueFlow
