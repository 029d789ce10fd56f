import ValueFlow.Numbering.Cleanup

/-!
# Rewriting the instructions of a tree

Sweeping a tree and turning redundant instructions into stores have the same
shape: each instruction is replaced or dropped according to the number of its
block. `Block.filterMap` is that shape: a block with number `n` uses
`blockCount` numbers from `n` on. A sweep is one such rewriting, whose count of
the blocks advances by just that, so is the cleanup that stores literals, and
rewritings compose; hence all sweeps together are a single one
(`sweepAll_spec`).
-/

namespace ValueFlow

mutual
/-- The number of blocks in a block, itself included. -/
def Block.blockCount : Block → Nat
  | .mk _ body => body.blockCount + 1
/-- The number of blocks in a body. -/
def Body.blockCount : Body → Nat
  | .done => 0
  | .instr _ rest => rest.blockCount
  | .cont c rest => c.blockCount + rest.blockCount
/-- The number of blocks in a continuation. -/
def Continuation.blockCount : Continuation → Nat
  | .ifElse _ t e => t.blockCount + e.blockCount
  | .switch _ arms => arms.blockCount
  | .deferred _ b => b.blockCount
  | .nested b => b.blockCount
/-- The number of blocks in the arms of a switch. -/
def Arms.blockCount : Arms → Nat
  | .none => 0
  | .default b => b.blockCount
  | .case _ b rest => b.blockCount + rest.blockCount
end

/-- What becomes of an instruction in a block with a given number. -/
abbrev Rewrite : Type := Nat → Instruction → Option Instruction

mutual
/-- Rewrites the instructions of a block with number `n`. -/
def Block.filterMap (g : Rewrite) (n : Nat) : Block → Block
  | .mk vars body => .mk vars (body.filterMap g n (n + 1))
/-- Rewrites the instructions of a body in the block with number `block`, inner
blocks being numbered from `n` on. -/
def Body.filterMap (g : Rewrite) (block n : Nat) : Body → Body
  | .done => .done
  | .instr i rest =>
    match g block i with
    | some j => .instr j (rest.filterMap g block n)
    | none => rest.filterMap g block n
  | .cont c rest => .cont (c.filterMap g n) (rest.filterMap g block (n + c.blockCount))
/-- Rewrites the instructions of a continuation. -/
def Continuation.filterMap (g : Rewrite) (n : Nat) : Continuation → Continuation
  | .ifElse condition t e =>
    .ifElse condition (t.filterMap g n) (e.filterMap g (n + t.blockCount))
  | .switch value arms => .switch value (arms.filterMap g n)
  | .deferred trigger b => .deferred trigger (b.filterMap g n)
  | .nested b => .nested (b.filterMap g n)
/-- Rewrites the instructions of the arms of a switch. -/
def Arms.filterMap (g : Rewrite) (n : Nat) : Arms → Arms
  | .none => .none
  | .default b => .default (b.filterMap g n)
  | .case label b rest => .case label (b.filterMap g n) (rest.filterMap g (n + b.blockCount))
end

mutual
/-- **The instructions of a block with the numbers of their blocks**, the block
itself having number `n`. -/
def Block.numbered (n : Nat) : Block → List (Nat × Instruction)
  | .mk _ body => body.numbered n (n + 1)
/-- The instructions of a body in the block with number `block`, inner blocks
being numbered from `n` on. -/
def Body.numbered (block n : Nat) : Body → List (Nat × Instruction)
  | .done => []
  | .instr i rest => (block, i) :: rest.numbered block n
  | .cont c rest => c.numbered n ++ rest.numbered block (n + c.blockCount)
/-- The instructions of the blocks of a continuation. -/
def Continuation.numbered (n : Nat) : Continuation → List (Nat × Instruction)
  | .ifElse _ t e => t.numbered n ++ e.numbered (n + t.blockCount)
  | .switch _ arms => arms.numbered n
  | .deferred _ b => b.numbered n
  | .nested b => b.numbered n
/-- The instructions of the arms of a switch. -/
def Arms.numbered (n : Nat) : Arms → List (Nat × Instruction)
  | .none => []
  | .default b => b.numbered n
  | .case _ b rest => b.numbered n ++ rest.numbered (n + b.blockCount)
end

section FilterMap

variable (g h : Rewrite)

mutual
/-- Rewriting instructions leaves the blocks as they are. -/
theorem Block.blockCount_filterMap (n : Nat) : ∀ b : Block,
    (b.filterMap g n).blockCount = b.blockCount
  | .mk vars body => by
    rw [Block.filterMap, Block.blockCount, Block.blockCount, Body.blockCount_filterMap]
theorem Body.blockCount_filterMap (block n : Nat) : ∀ b : Body,
    (b.filterMap g block n).blockCount = b.blockCount
  | .done => by rw [Body.filterMap]
  | .instr i rest => by
    rw [Body.filterMap]
    cases g block i with
    | none => simp only [Body.blockCount, Body.blockCount_filterMap block n rest]
    | some j => simp only [Body.blockCount, Body.blockCount_filterMap block n rest]
  | .cont c rest => by
    rw [Body.filterMap, Body.blockCount, Body.blockCount, Continuation.blockCount_filterMap,
      Body.blockCount_filterMap]
theorem Continuation.blockCount_filterMap (n : Nat) : ∀ c : Continuation,
    (c.filterMap g n).blockCount = c.blockCount
  | .ifElse condition t e => by
    simp only [Continuation.filterMap, Continuation.blockCount, Block.blockCount_filterMap]
  | .switch value arms => by
    simp only [Continuation.filterMap, Continuation.blockCount, Arms.blockCount_filterMap]
  | .deferred trigger b => by
    simp only [Continuation.filterMap, Continuation.blockCount, Block.blockCount_filterMap]
  | .nested b => by
    simp only [Continuation.filterMap, Continuation.blockCount, Block.blockCount_filterMap]
theorem Arms.blockCount_filterMap (n : Nat) : ∀ arms : Arms,
    (arms.filterMap g n).blockCount = arms.blockCount
  | .none => by rw [Arms.filterMap]
  | .default b => by simp only [Arms.filterMap, Arms.blockCount, Block.blockCount_filterMap]
  | .case label b rest => by
    simp only [Arms.filterMap, Arms.blockCount, Block.blockCount_filterMap,
      Arms.blockCount_filterMap]
end

mutual
/-- **Rewritings compose.** -/
theorem Block.filterMap_filterMap (n : Nat) : ∀ b : Block,
    (b.filterMap g n).filterMap h n = b.filterMap (fun k i => (g k i).bind (h k)) n
  | .mk vars body => by
    rw [Block.filterMap, Block.filterMap, Block.filterMap, Body.filterMap_filterMap]
theorem Body.filterMap_filterMap (block n : Nat) : ∀ b : Body,
    (b.filterMap g block n).filterMap h block n
      = b.filterMap (fun k i => (g k i).bind (h k)) block n
  | .done => by simp only [Body.filterMap]
  | .instr i rest => by
    simp only [Body.filterMap]
    cases g block i with
    | none => exact Body.filterMap_filterMap block n rest
    | some j =>
      simp only [Body.filterMap, Option.bind_some]
      rw [Body.filterMap_filterMap block n rest]
  | .cont c rest => by
    simp only [Body.filterMap, Continuation.filterMap_filterMap, Body.filterMap_filterMap,
      Continuation.blockCount_filterMap]
theorem Continuation.filterMap_filterMap (n : Nat) : ∀ c : Continuation,
    (c.filterMap g n).filterMap h n = c.filterMap (fun k i => (g k i).bind (h k)) n
  | .ifElse condition t e => by
    simp only [Continuation.filterMap, Block.filterMap_filterMap, Block.blockCount_filterMap]
  | .switch value arms => by simp only [Continuation.filterMap, Arms.filterMap_filterMap]
  | .deferred trigger b => by simp only [Continuation.filterMap, Block.filterMap_filterMap]
  | .nested b => by simp only [Continuation.filterMap, Block.filterMap_filterMap]
theorem Arms.filterMap_filterMap (n : Nat) : ∀ arms : Arms,
    (arms.filterMap g n).filterMap h n = arms.filterMap (fun k i => (g k i).bind (h k)) n
  | .none => by simp only [Arms.filterMap]
  | .default b => by simp only [Arms.filterMap, Block.filterMap_filterMap]
  | .case label b rest => by
    simp only [Arms.filterMap, Block.filterMap_filterMap, Arms.filterMap_filterMap,
      Block.blockCount_filterMap]
end

mutual
/-- **A rewriting that keeps the instructions of a tree changes nothing.** -/
theorem Block.filterMap_eq_self (n : Nat) :
    ∀ b : Block, (∀ e ∈ b.numbered n, g e.1 e.2 = some e.2) →
    b.filterMap g n = b
  | .mk vars body, h => by rw [Block.filterMap, Body.filterMap_eq_self n (n + 1) body h]
theorem Body.filterMap_eq_self (block n : Nat) :
    ∀ b : Body, (∀ e ∈ b.numbered block n, g e.1 e.2 = some e.2) →
    b.filterMap g block n = b
  | .done, _ => by rw [Body.filterMap]
  | .instr i rest, h => by
    obtain ⟨hi, hrest⟩ := List.forall_mem_cons.1 h
    simp only [Body.filterMap, hi, Body.filterMap_eq_self block n rest hrest]
  | .cont c rest, h => by
    obtain ⟨hc, hrest⟩ := List.forall_mem_append.1 h
    rw [Body.filterMap, Continuation.filterMap_eq_self n c hc,
      Body.filterMap_eq_self block _ rest hrest]
theorem Continuation.filterMap_eq_self (n : Nat) : ∀ c : Continuation,
    (∀ e ∈ c.numbered n, g e.1 e.2 = some e.2) → c.filterMap g n = c
  | .ifElse condition t e, h => by
    obtain ⟨ht, he⟩ := List.forall_mem_append.1 h
    rw [Continuation.filterMap, Block.filterMap_eq_self n t ht, Block.filterMap_eq_self _ e he]
  | .switch value arms, h => by rw [Continuation.filterMap, Arms.filterMap_eq_self n arms h]
  | .deferred trigger b, h => by rw [Continuation.filterMap, Block.filterMap_eq_self n b h]
  | .nested b, h => by rw [Continuation.filterMap, Block.filterMap_eq_self n b h]
theorem Arms.filterMap_eq_self (n : Nat) :
    ∀ arms : Arms, (∀ e ∈ arms.numbered n, g e.1 e.2 = some e.2) →
    arms.filterMap g n = arms
  | .none, _ => by rw [Arms.filterMap]
  | .default b, h => by rw [Arms.filterMap, Block.filterMap_eq_self n b h]
  | .case label b rest, h => by
    obtain ⟨hb, hrest⟩ := List.forall_mem_append.1 h
    rw [Arms.filterMap, Block.filterMap_eq_self n b hb, Arms.filterMap_eq_self _ rest hrest]
end

theorem Block.filterMap_some (n : Nat) (b : Block) : b.filterMap (fun _ i => some i) n = b :=
  b.filterMap_eq_self _ n fun _ _ => rfl

mutual
/-- Without the numbers, these are the instructions. -/
theorem Block.map_snd_numbered (n : Nat) : ∀ b : Block, (b.numbered n).map (·.2) = b.instructions
  | .mk vars body => by rw [Block.numbered, Block.instructions, Body.map_snd_numbered]
theorem Body.map_snd_numbered (block n : Nat) :
    ∀ b : Body, (b.numbered block n).map (·.2) = b.instructions
  | .done => rfl
  | .instr i rest => by rw [Body.numbered, Body.instructions, List.map_cons, Body.map_snd_numbered]
  | .cont c rest => by
    rw [Body.numbered, Body.instructions, List.map_append,
      Continuation.map_snd_numbered, Body.map_snd_numbered]
theorem Continuation.map_snd_numbered (n : Nat) :
    ∀ c : Continuation, (c.numbered n).map (·.2) = c.instructions
  | .ifElse condition t e => by
    rw [Continuation.numbered, Continuation.instructions,
      List.map_append, Block.map_snd_numbered, Block.map_snd_numbered]
  | .switch value arms => by
    rw [Continuation.numbered, Continuation.instructions, Arms.map_snd_numbered]
  | .deferred trigger b => by
    rw [Continuation.numbered, Continuation.instructions, Block.map_snd_numbered]
  | .nested b => by rw [Continuation.numbered, Continuation.instructions, Block.map_snd_numbered]
theorem Arms.map_snd_numbered (n : Nat) :
    ∀ arms : Arms, (arms.numbered n).map (·.2) = arms.instructions
  | .none => rfl
  | .default b => by rw [Arms.numbered, Arms.instructions, Block.map_snd_numbered]
  | .case label b rest => by
    rw [Arms.numbered, Arms.instructions, List.map_append,
      Block.map_snd_numbered, Arms.map_snd_numbered]
end

/-- An instruction with its number, rewritten. -/
def Rewrite.onNumbered (e : Nat × Instruction) : Option (Nat × Instruction) :=
  (g e.1 e.2).map (e.1, ·)

mutual
/-- **A rewriting acts on each instruction** in view of the number of its block. -/
theorem Block.numbered_filterMap (n : Nat) : ∀ b : Block,
    (b.filterMap g n).numbered n = (b.numbered n).filterMap g.onNumbered
  | .mk vars body => by
    rw [Block.filterMap, Block.numbered, Block.numbered, Body.numbered_filterMap]
theorem Body.numbered_filterMap (block n : Nat) : ∀ b : Body,
    (b.filterMap g block n).numbered block n = (b.numbered block n).filterMap g.onNumbered
  | .done => by rw [Body.filterMap, Body.numbered, List.filterMap_nil]
  | .instr i rest => by
    rw [Body.filterMap, Body.numbered, List.filterMap_cons, Rewrite.onNumbered]
    cases g block i with
    | none => exact Body.numbered_filterMap block n rest
    | some j => exact congrArg ((block, j) :: ·) (Body.numbered_filterMap block n rest)
  | .cont c rest => by
    rw [Body.filterMap, Body.numbered, Body.numbered, List.filterMap_append,
      Continuation.numbered_filterMap,
      Continuation.blockCount_filterMap, Body.numbered_filterMap]
theorem Continuation.numbered_filterMap (n : Nat) : ∀ c : Continuation,
    (c.filterMap g n).numbered n = (c.numbered n).filterMap g.onNumbered
  | .ifElse condition t e => by
    rw [Continuation.filterMap, Continuation.numbered, Continuation.numbered, List.filterMap_append,
      Block.numbered_filterMap, Block.blockCount_filterMap, Block.numbered_filterMap]
  | .switch value arms => by
    rw [Continuation.filterMap, Continuation.numbered, Continuation.numbered,
      Arms.numbered_filterMap]
  | .deferred trigger b => by
    rw [Continuation.filterMap, Continuation.numbered, Continuation.numbered,
      Block.numbered_filterMap]
  | .nested b => by
    rw [Continuation.filterMap, Continuation.numbered, Continuation.numbered,
      Block.numbered_filterMap]
theorem Arms.numbered_filterMap (n : Nat) : ∀ arms : Arms,
    (arms.filterMap g n).numbered n = (arms.numbered n).filterMap g.onNumbered
  | .none => by rw [Arms.filterMap, Arms.numbered, List.filterMap_nil]
  | .default b => by rw [Arms.filterMap, Arms.numbered, Arms.numbered, Block.numbered_filterMap]
  | .case label b rest => by
    rw [Arms.filterMap, Arms.numbered, Arms.numbered, List.filterMap_append,
      Block.numbered_filterMap,
      Block.blockCount_filterMap, Arms.numbered_filterMap]
end

variable {g}

/-- **The rewriting adds only reads of some names** to the instructions. -/
def Rewrite.AddsReads (g : Rewrite) (extra : List String) : Prop :=
  ∀ k i j, g k i = some j → ∀ v ∈ j.readVars, v ∈ i.readVars ∨ v.name ∈ extra

section Reads

variable {extra : List String}

mutual
/-- A rewriting that adds only reads of some names adds no others to a tree. -/
theorem Block.mem_readNames_filterMap (hg : g.AddsReads extra) (n : Nat) : ∀ b : Block,
    ∀ x ∈ (b.filterMap g n).readNames, x ∈ b.readNames ∨ x ∈ extra
  | .mk _ body => Body.mem_readNames_filterMap hg n (n + 1) body
theorem Body.mem_readNames_filterMap (hg : g.AddsReads extra) (block n : Nat) : ∀ b : Body,
    ∀ x ∈ (b.filterMap g block n).readNames, x ∈ b.readNames ∨ x ∈ extra
  | .done => List.forall_mem_nil _
  | .instr i rest => by
    have hrest : ∀ x ∈ (rest.filterMap g block n).readNames,
        x ∈ (Body.instr i rest).readNames ∨ x ∈ extra :=
      fun x hx => (Body.mem_readNames_filterMap hg block n rest x hx).imp_left
        (List.mem_append_right _)
    rw [Body.filterMap]
    cases hi : g block i with
    | none => exact hrest
    | some j =>
      refine List.forall_mem_append.2 ⟨fun x hx => ?_, hrest⟩
      obtain ⟨v, hv, rfl⟩ := List.mem_map.1 hx
      exact (hg block i j hi v hv).imp_left
        fun h => List.mem_append_left _ (List.mem_map.2 ⟨v, h, rfl⟩)
  | .cont c rest => by
    have hreads : (c.filterMap g n).readVars = c.readVars := by cases c <;> rfl
    rw [Body.filterMap, Body.readNames, Body.readNames,
      hreads, List.forall_mem_append, List.forall_mem_append]
    refine ⟨⟨fun x hx => ?_, fun x hx => ?_⟩, fun x hx => ?_⟩
    · exact .inl (List.mem_append_left _ (List.mem_append_left _ hx))
    · exact (Continuation.mem_readNames_filterMap hg n c x hx).imp_left fun h =>
        List.mem_append_left _ (List.mem_append_right _ h)
    · exact (Body.mem_readNames_filterMap hg block _ rest x hx).imp_left (List.mem_append_right _)
theorem Continuation.mem_readNames_filterMap (hg : g.AddsReads extra) (n : Nat) :
    ∀ c : Continuation,
    ∀ x ∈ (c.filterMap g n).readNames, x ∈ c.readNames ∨ x ∈ extra
  | .ifElse _ t e =>
    List.forall_mem_append.2
      ⟨fun x hx => (Block.mem_readNames_filterMap hg n t x hx).imp_left (List.mem_append_left _),
        fun x hx => (Block.mem_readNames_filterMap hg _ e x hx).imp_left (List.mem_append_right _)⟩
  | .switch _ arms => Arms.mem_readNames_filterMap hg n arms
  | .deferred _ b => Block.mem_readNames_filterMap hg n b
  | .nested b => Block.mem_readNames_filterMap hg n b
theorem Arms.mem_readNames_filterMap (hg : g.AddsReads extra) (n : Nat) : ∀ arms : Arms,
    ∀ x ∈ (arms.filterMap g n).readNames, x ∈ arms.readNames ∨ x ∈ extra
  | .none => List.forall_mem_nil _
  | .default b => Block.mem_readNames_filterMap hg n b
  | .case _ b rest =>
    List.forall_mem_append.2
      ⟨fun x hx => (Block.mem_readNames_filterMap hg n b x hx).imp_left (List.mem_append_left _),
        fun x hx => (Arms.mem_readNames_filterMap hg _ rest x hx).imp_left
          (List.mem_append_right _)⟩
end

end Reads

/-- A rewriting that adds no reads adds none to a tree. -/
theorem Block.readNames_filterMap
    (hg : ∀ k i j, g k i = some j → ∀ v ∈ j.readVars, v ∈ i.readVars) (n : Nat) (b : Block) :
    (b.filterMap g n).readNames ⊆ b.readNames := by
  intro x hx
  have hadds : g.AddsReads [] := fun k i j hj v hv => .inl (hg k i j hj v hv)
  exact (Block.mem_readNames_filterMap hadds n b x hx).resolve_right List.not_mem_nil

/-- The instructions of a rewritten tree are what became of instructions. -/
theorem Block.instructions_filterMap (n : Nat) (b : Block) : ∀ j ∈ (b.filterMap g n).instructions,
    ∃ k, ∃ i ∈ b.instructions, g k i = some j := by
  intro j hj
  rw [← Block.map_snd_numbered n, Block.numbered_filterMap, List.map_filterMap] at hj
  obtain ⟨e, he, hsome⟩ := List.mem_filterMap.1 hj
  obtain ⟨e', he', rfl⟩ := Option.map_eq_some_iff.1 hsome
  obtain ⟨j, hi, rfl⟩ := Option.map_eq_some_iff.1 he'
  rw [← b.map_snd_numbered n]
  exact ⟨e.1, e.2, List.mem_map_of_mem he, hi⟩

end FilterMap

theorem Numbering.mem_of_get? {m : Numbering.Marks} {block : Nat} {v : Var} {lit : Option Operand}
    (h : m.get? block v = some lit) : ((block, v.name), lit) ∈ m.entries := by
  obtain ⟨e, he, rfl⟩ := Option.map_eq_some_iff.1 h
  have hkey := List.find?_some he
  have hmem := List.mem_of_find?_eq_some he
  obtain ⟨k, lit⟩ := e
  obtain rfl : k = (block, v.name) := by simpa using hkey
  exact hmem

namespace Numbering.Cleanup

variable {c : Cleanup} {block n : Nat} {i : Instruction} {reads reads' : List String}

/-! ## Stores -/

/-- The instruction, or the store that takes its place. -/
def stored (c : Cleanup) (block : Nat) (i : Instruction) : Instruction :=
  (c.storeFor? block i).getD i

theorem isRedundant_eq_true (h : c.isRedundant block i = true) :
    i.isRemovable c.foreign = .ok true ∧ ∀ v ∈ i.outputs, c.marks.contains block v = true := by
  unfold isRedundant at h
  obtain ⟨h, hrem⟩ := Bool.and_eq_true_iff.1 h
  obtain ⟨-, hall⟩ := Bool.and_eq_true_iff.1 h
  refine ⟨?_, List.all_eq_true.1 hall⟩
  split at hrem
  · rename_i removable heq
    rw [heq, hrem]
  · cases hrem

theorem outputs_ne_nil_of_isRedundant (h : c.isRedundant block i = true) :
    i.outputs ≠ [] := by
  intro hnil
  unfold isRedundant at h
  rw [hnil] at h
  cases h

theorem not_isRedundant_of_unmarked (h : c.marks.entries = []) :
    ¬ c.isRedundant block i = true := by
  intro hred
  obtain ⟨o, ho⟩ := List.exists_mem_of_ne_nil _ (outputs_ne_nil_of_isRedundant hred)
  have hmarked := (isRedundant_eq_true hred).2 o ho
  unfold Marks.contains Marks.get? at hmarked
  rw [h] at hmarked
  cases hmarked

theorem storeFor?_eq_some {store : Instruction} (h : c.storeFor? block i = some store) :
    ∃ dst a, i.outputs = [dst] ∧ i.isRemovable c.foreign = .ok true
      ∧ c.marks.literal? block dst = some a ∧ store = .storeScalar dst a := by
  unfold storeFor? at h
  split at h
  · rename_i hred
    split at h
    · rename_i dst hout
      split at h
      · obtain ⟨a, ha, rfl⟩ := Option.map_eq_some_iff.1 h
        exact ⟨dst, a, hout, (isRedundant_eq_true hred).1, ha, rfl⟩
      · cases h
    · cases h
  · cases h

theorem isRedundant_of_storeFor? {store : Instruction} (h : c.storeFor? block i = some store) :
    c.isRedundant block i = true := by
  unfold storeFor? at h
  split at h
  · assumption
  · cases h

/-- An instruction is kept, or one that assigns a single variable becomes a
store to it. -/
theorem stored_cases (c : Cleanup) (block : Nat) (i : Instruction) :
    c.stored block i = i ∨ ∃ dst a, i.outputs = [dst] ∧ c.marks.literal? block dst = some a
      ∧ c.stored block i = .storeScalar dst a := by
  unfold stored
  cases hstore : c.storeFor? block i with
  | none => exact .inl rfl
  | some store =>
    obtain ⟨dst, a, hout, -, ha, rfl⟩ := storeFor?_eq_some hstore
    exact .inr ⟨dst, a, hout, ha, rfl⟩

theorem outputs_stored (c : Cleanup) (block : Nat) (i : Instruction) :
    (c.stored block i).outputs = i.outputs := by
  rcases c.stored_cases block i with h | ⟨dst, a, hout, -, h⟩
  · rw [h]
  · rw [h, hout]
    rfl

/-- How many instructions are to become stores. -/
def storeCount (c : Cleanup) (is : List (Nat × Instruction)) : Nat :=
  is.countP fun e => (c.storeFor? e.1 e.2).isSome

mutual
/-- **Storing literals is a rewriting**, the stores are counted, and the number
of the next block advances by the number of blocks. -/
theorem storeBlock_eq (c : Cleanup) (n : Nat) : ∀ b : Block, c.storeBlock n b
    = (b.filterMap (fun k i => some (c.stored k i)) n, c.storeCount (b.numbered n),
      n + b.blockCount)
  | .mk vars body => by
    rw [storeBlock, Block.filterMap, storeBody_eq c n (n + 1) body,
      Block.numbered, Block.blockCount, Nat.add_right_comm]
    rfl
theorem storeBody_eq (c : Cleanup) (block n : Nat) : ∀ b : Body, c.storeBody block n b
    = (b.filterMap (fun k i => some (c.stored k i)) block n,
      c.storeCount (b.numbered block n), n + b.blockCount)
  | .done => by
    rw [storeBody, Body.filterMap, Body.numbered, storeCount,
      List.countP_nil, Body.blockCount, Nat.add_zero]
  | .instr i rest => by
    rw [storeBody, Body.filterMap, storeBody_eq c block n rest,
      Body.numbered, storeCount, storeCount,
      List.countP_cons, stored, Body.blockCount]
    cases c.storeFor? block i <;> rfl
  | .cont k rest => by
    rw [storeBody, Body.filterMap, storeContinuation_eq c n k,
      Body.numbered, Body.blockCount, ← Nat.add_assoc]
    simp only [storeBody_eq c block _ rest, storeCount, List.countP_append]
theorem storeContinuation_eq (c : Cleanup) (n : Nat) : ∀ k : Continuation, c.storeContinuation n k
    = (k.filterMap (fun k i => some (c.stored k i)) n, c.storeCount (k.numbered n),
      n + k.blockCount)
  | .ifElse condition t e => by
    rw [storeContinuation, Continuation.filterMap, storeBlock_eq c n t,
      Continuation.numbered, Continuation.blockCount,
      ← Nat.add_assoc]
    simp only [storeBlock_eq c _ e, storeCount, List.countP_append]
  | .switch value arms => by
    rw [storeContinuation, Continuation.filterMap, storeArms_eq c n arms,
      Continuation.numbered, Continuation.blockCount]
  | .deferred trigger b => by
    rw [storeContinuation, Continuation.filterMap, storeBlock_eq c n b,
      Continuation.numbered, Continuation.blockCount]
  | .nested b => by
    rw [storeContinuation, Continuation.filterMap, storeBlock_eq c n b,
      Continuation.numbered, Continuation.blockCount]
theorem storeArms_eq (c : Cleanup) (n : Nat) : ∀ arms : Arms, c.storeArms n arms
    = (arms.filterMap (fun k i => some (c.stored k i)) n,
      c.storeCount (arms.numbered n), n + arms.blockCount)
  | .none => by
    rw [storeArms, Arms.filterMap, Arms.numbered, storeCount,
      List.countP_nil, Arms.blockCount, Nat.add_zero]
  | .default b => by
    rw [storeArms, Arms.filterMap, storeBlock_eq c n b, Arms.numbered, Arms.blockCount]
  | .case label b rest => by
    rw [storeArms, Arms.filterMap, storeBlock_eq c n b,
      Arms.numbered, Arms.blockCount, ← Nat.add_assoc]
    simp only [storeArms_eq c _ rest, storeCount, List.countP_append]
end

theorem storeBlock_fst (c : Cleanup) (n : Nat) (b : Block) :
    (c.storeBlock n b).1 = b.filterMap (fun k i => some (c.stored k i)) n := by
  rw [storeBlock_eq]

theorem storeBody_fst (c : Cleanup) (block n : Nat) (b : Body) :
    (c.storeBody block n b).1 = b.filterMap (fun k i => some (c.stored k i)) block n := by
  rw [storeBody_eq]

theorem storeBlock_next (c : Cleanup) (n : Nat) (b : Block) :
    (c.storeBlock n b).2.2 = n + b.blockCount := by
  rw [storeBlock_eq]

theorem storeContinuation_next (c : Cleanup) (n : Nat) (k : Continuation) :
    (c.storeContinuation n k).2.2 = n + k.blockCount := by
  rw [storeContinuation_eq]

/-- **No store is counted exactly if none is due.** -/
theorem storeBlock_eq_zero_iff (c : Cleanup) (n : Nat) (b : Block) :
    (c.storeBlock n b).2.1 = 0 ↔ ∀ e ∈ b.numbered n, c.storeFor? e.1 e.2 = none := by
  rw [storeBlock_eq]
  simp only [storeCount, List.countP_eq_zero, Option.not_isSome_iff_eq_none]

/-- **If no store is counted, the block stays as it was.** -/
theorem storeBlock_of_zero (c : Cleanup) (n : Nat) (b : Block) (h : (c.storeBlock n b).2.1 = 0) :
    (c.storeBlock n b).1 = b := by
  rw [storeBlock_fst]
  refine b.filterMap_eq_self _ n fun e he => ?_
  rw [stored, (c.storeBlock_eq_zero_iff n b).1 h e he]
  rfl

/-- Where nothing is marked, nothing is stored. -/
theorem storeBlock_of_unmarked (h : c.marks.entries = []) (n : Nat) (b : Block) :
    (c.storeBlock n b).1 = b := by
  refine c.storeBlock_of_zero n b ((c.storeBlock_eq_zero_iff n b).2 fun e _ => ?_)
  rw [storeFor?, if_neg (not_isRedundant_of_unmarked h)]

theorem storeBody_instr (c : Cleanup) (block n : Nat) (i : Instruction) (rest : Body) :
    (c.storeBody block n (.instr i rest)).1
      = .instr (c.stored block i) (c.storeBody block n rest).1 := by
  rw [storeBody_fst, storeBody_fst, Body.filterMap]

/-! ## Sweeps -/

theorem isDead_eq_true (h : c.isDead reads block i = true) :
    c.isRedundant block i = true ∧ ∀ o ∈ i.outputs, o.name ∉ reads := by
  obtain ⟨hred, hall⟩ := Bool.and_eq_true_iff.1 h
  exact ⟨hred, fun o ho => by simpa using List.all_eq_true.1 hall o ho⟩

/-- What is dead stays dead when less is read. -/
theorem isDead_of_subset (h : c.isDead reads block i = true) (hsub : reads' ⊆ reads) :
    c.isDead reads' block i = true := by
  obtain ⟨hred, hall⟩ := isDead_eq_true h
  refine Bool.and_eq_true_iff.2 ⟨hred, List.all_eq_true.2 fun o ho => ?_⟩
  simpa using fun hmem => hall o ho (hsub hmem)

/-- What a sweep does to an instruction. -/
def swept (c : Cleanup) (reads : List String) : Rewrite := fun block i =>
  if c.isDead reads block i then none else some i

/-- The dead ones among instructions with the numbers of their blocks. -/
def dead (c : Cleanup) (reads : List String) (is : List (Nat × Instruction)) : List Instruction :=
  (is.filter fun e => c.isDead reads e.1 e.2).map (·.2)

theorem mem_dead {is : List (Nat × Instruction)} :
    i ∈ c.dead reads is ↔ ∃ k, (k, i) ∈ is ∧ c.isDead reads k i = true := by
  simp only [dead, List.mem_map, List.mem_filter, Prod.exists, exists_eq_right]

theorem dead_append (c : Cleanup) (reads : List String) (is is' : List (Nat × Instruction)) :
    c.dead reads (is ++ is') = c.dead reads is ++ c.dead reads is' := by
  rw [dead, List.filter_append, List.map_append]
  rfl

section

variable (c reads)

mutual
/-- **A sweep is a rewriting, and what it deletes is what is dead.** The number
of the next block advances by the number of blocks. -/
theorem sweepBlock_spec (n : Nat) : ∀ b : Block,
    (c.sweepBlock reads n b).1 = b.filterMap (c.swept reads) n
      ∧ (c.sweepBlock reads n b).2.1.Perm (c.dead reads (b.numbered n))
      ∧ (c.sweepBlock reads n b).2.2 = n + b.blockCount
  | .mk vars body => by
    obtain ⟨hbody, hdead, hnext⟩ := sweepBody_spec n (n + 1) body
    rw [sweepBlock, Block.filterMap, ← hbody, Block.blockCount]
    exact ⟨rfl, hdead, hnext.trans (Nat.add_right_comm _ _ _)⟩
theorem sweepBody_spec (block n : Nat) : ∀ b : Body,
    (c.sweepBody reads block n b).1 = b.filterMap (c.swept reads) block n
      ∧ ((c.sweepBody reads block n b).2.1 ++ (c.sweepBody reads block n b).2.2.1).Perm
        (c.dead reads (b.numbered block n))
      ∧ (c.sweepBody reads block n b).2.2.2 = n + b.blockCount
  | .done => ⟨rfl, .nil, rfl⟩
  | .instr i rest => by
    obtain ⟨hrest, hdead, hnext⟩ := sweepBody_spec block n rest
    rw [sweepBody, Body.filterMap, ← hrest, Body.numbered, dead, List.filter_cons, Body.blockCount]
    unfold swept
    cases hi : c.isDead reads block i with
    | false =>
      simp only [Bool.false_eq_true, if_false]
      exact ⟨trivial, hdead, hnext⟩
    | true =>
      simp only [if_true]
      exact ⟨trivial, List.perm_middle.trans (hdead.cons i), hnext⟩
  | .cont k rest => by
    obtain ⟨hk, hdead₁, hnext₁⟩ := sweepContinuation_spec n k
    obtain ⟨hrest, hdead₂, hnext₂⟩ := sweepBody_spec block (n + k.blockCount) rest
    rw [sweepBody, Body.filterMap, ← hk, ← hrest, Body.numbered,
      dead_append, Body.blockCount, ← Nat.add_assoc]
    simp only [hnext₁]
    refine ⟨trivial, ?_, hnext₂⟩
    rw [List.append_assoc]
    exact hdead₁.append hdead₂
theorem sweepContinuation_spec (n : Nat) : ∀ k : Continuation,
    (c.sweepContinuation reads n k).1 = k.filterMap (c.swept reads) n
      ∧ (c.sweepContinuation reads n k).2.1.Perm (c.dead reads (k.numbered n))
      ∧ (c.sweepContinuation reads n k).2.2 = n + k.blockCount
  | .ifElse condition t e => by
    obtain ⟨ht, hdead₁, hnext₁⟩ := sweepBlock_spec n t
    obtain ⟨he, hdead₂, hnext₂⟩ := sweepBlock_spec (n + t.blockCount) e
    rw [sweepContinuation, Continuation.filterMap, ← ht, ← he, Continuation.numbered, dead_append,
      Continuation.blockCount, ← Nat.add_assoc]
    simp only [hnext₁]
    exact ⟨trivial, hdead₁.append hdead₂, hnext₂⟩
  | .switch value arms => by
    obtain ⟨harms, hspec⟩ := sweepArms_spec n arms
    rw [sweepContinuation, Continuation.filterMap, ← harms]
    exact ⟨rfl, hspec⟩
  | .deferred trigger b => by
    obtain ⟨hb, hspec⟩ := sweepBlock_spec n b
    rw [sweepContinuation, Continuation.filterMap, ← hb]
    exact ⟨rfl, hspec⟩
  | .nested b => by
    obtain ⟨hb, hspec⟩ := sweepBlock_spec n b
    rw [sweepContinuation, Continuation.filterMap, ← hb]
    exact ⟨rfl, hspec⟩
theorem sweepArms_spec (n : Nat) : ∀ arms : Arms,
    (c.sweepArms reads n arms).1 = arms.filterMap (c.swept reads) n
      ∧ (c.sweepArms reads n arms).2.1.Perm (c.dead reads (arms.numbered n))
      ∧ (c.sweepArms reads n arms).2.2 = n + arms.blockCount
  | .none => ⟨rfl, .nil, rfl⟩
  | .default b => by
    obtain ⟨hb, hspec⟩ := sweepBlock_spec n b
    rw [sweepArms, Arms.filterMap, ← hb]
    exact ⟨rfl, hspec⟩
  | .case label b rest => by
    obtain ⟨hb, hdead₁, hnext₁⟩ := sweepBlock_spec n b
    obtain ⟨hrest, hdead₂, hnext₂⟩ := sweepArms_spec (n + b.blockCount) rest
    rw [sweepArms, Arms.filterMap, ← hb, ← hrest, Arms.numbered,
      dead_append, Arms.blockCount, ← Nat.add_assoc]
    simp only [hnext₁]
    exact ⟨trivial, hdead₁.append hdead₂, hnext₂⟩
end

end

/-- **A sweep deletes exactly what is dead.** -/
theorem mem_sweepBlock {b : Block} :
    i ∈ (c.sweepBlock reads n b).2.1 ↔ ∃ k, (k, i) ∈ b.numbered n ∧ c.isDead reads k i = true :=
  (c.sweepBlock_spec reads n b).2.1.mem_iff.trans mem_dead

/-- **A sweep leaves what is not dead.** -/
theorem numbered_sweepBlock (reads : List String) (n : Nat) (b : Block) :
    (c.sweepBlock reads n b).1.numbered n = (b.numbered n).filter
      fun e => !c.isDead reads e.1 e.2 := by
  have hrewrite : (c.swept reads).onNumbered = Option.guard fun e => !c.isDead reads e.1 e.2 := by
    funext e
    show (if c.isDead reads e.1 e.2 = true then none else some e.2).map (e.1, ·)
      = if (!c.isDead reads e.1 e.2) = true then some e else none
    cases c.isDead reads e.1 e.2 <;> rfl
  rw [(c.sweepBlock_spec reads n b).1, Block.numbered_filterMap, hrewrite, List.filterMap_eq_filter]

/-- **What a sweep takes out of a block it lists.** -/
theorem length_sweepBlock (c : Cleanup) (reads : List String) (n : Nat) (b : Block) :
    (c.sweepBlock reads n b).1.instructions.length + (c.sweepBlock reads n b).2.1.length
      = b.instructions.length := by
  rw [← Block.map_snd_numbered n, ← b.map_snd_numbered n,
    (c.sweepBlock_spec reads n b).2.1.length_eq, dead,
    List.length_map, List.length_map, List.length_map, numbered_sweepBlock,
    ← List.countP_eq_length_filter,
    ← List.countP_eq_length_filter, Nat.add_comm, List.length_eq_countP_add_countP
    fun e => c.isDead reads e.1 e.2]
  simp only [Bool.not_eq_true, Bool.decide_eq_false]

/-- **A sweep deletes nothing exactly if nothing is dead.** -/
theorem sweepBlock_eq_nil_iff {b : Block} :
    (c.sweepBlock reads n b).2.1 = [] ↔ ∀ e ∈ b.numbered n, c.isDead reads e.1 e.2 = false := by
  simp only [List.eq_nil_iff_forall_not_mem, mem_sweepBlock,
    not_exists, not_and, Prod.forall, Bool.not_eq_true]
  exact forall_comm

/-- **A sweep that deletes nothing leaves the block as it was.** -/
theorem sweepBlock_of_nil {b : Block} (h : (c.sweepBlock reads n b).2.1 = []) :
    (c.sweepBlock reads n b).1 = b := by
  rw [(c.sweepBlock_spec reads n b).1]
  refine b.filterMap_eq_self _ n fun e he => ?_
  rw [swept, sweepBlock_eq_nil_iff.1 h e he]
  rfl

/-- **A rewriting that drops dead instructions only.** -/
def DropsDead (c : Cleanup) (reads : List String) (g : Rewrite) : Prop :=
  ∀ k i, g k i = some i ∨ g k i = none ∧ c.isDead reads k i = true

theorem dropsDead_swept (c : Cleanup) (reads : List String) :
    c.DropsDead reads (c.swept reads) := by
  intro k i
  unfold swept
  cases hi : c.isDead reads k i with
  | false => exact .inl rfl
  | true => exact .inr ⟨rfl, rfl⟩

namespace DropsDead

variable {g h : Rewrite}

theorem of_subset (hg : c.DropsDead reads g) (hsub : reads' ⊆ reads) : c.DropsDead reads' g :=
  fun k i => (hg k i).imp_right fun hd => ⟨hd.1, isDead_of_subset hd.2 hsub⟩

theorem comp (hg : c.DropsDead reads g) (hh : c.DropsDead reads h) :
    c.DropsDead reads fun k i => (g k i).bind (h k) := by
  intro k i
  show (g k i).bind (h k) = some i ∨ (g k i).bind (h k) = none ∧ _
  rcases hg k i with hi | ⟨hi, hdead⟩
  · rw [hi]
    exact hh k i
  · rw [hi]
    exact .inr ⟨rfl, hdead⟩

theorem readNames (hg : c.DropsDead reads g) (n : Nat) (b : Block) :
    (b.filterMap g n).readNames ⊆ b.readNames := by
  refine Block.readNames_filterMap (fun k i j hj v hv => ?_) n b
  rcases hg k i with hi | ⟨hi, -⟩
  · rw [hi] at hj
    exact Option.some.inj hj ▸ hv
  · rw [hi] at hj
    cases hj

end DropsDead

/-- **All sweeps together are one rewriting**, and what they delete is dead in
view of what is left. -/
theorem sweepAll_spec (c : Cleanup) (outputs : List String) (fuel : Nat) (b : Block) :
    ∃ g, (c.sweepAll outputs fuel b).1 = b.filterMap g 0
      ∧ c.DropsDead (outputs ++ (b.filterMap g 0).readNames) g
      ∧ ∀ i ∈ (c.sweepAll outputs fuel b).2,
        ∃ k, c.isDead (outputs ++ (b.filterMap g 0).readNames) k i = true := by
  induction fuel generalizing b with
  | zero =>
    refine ⟨fun _ i => some i, (b.filterMap_some 0).symm, fun k i => .inl rfl, ?_⟩
    exact fun i hi => nomatch hi
  | succ fuel ih =>
    have hb := (c.sweepBlock_spec (outputs ++ b.readNames) 0 b).1
    have hdrops := c.dropsDead_swept (outputs ++ b.readNames)
    have hless := hdrops.readNames 0 b
    have happend : ∀ names : List String, names ⊆ b.readNames →
        outputs ++ names ⊆ outputs ++ b.readNames := fun names hsub =>
      List.append_subset.2 ⟨List.subset_append_left _ _, List.subset_append_of_subset_right _ hsub⟩
    rw [sweepAll]
    simp only
    split
    · exact ⟨c.swept (outputs ++ b.readNames), hb, hdrops.of_subset (happend _ hless),
        fun i hi => nomatch hi⟩
    · obtain ⟨g, hg, hgdrops, hgdead⟩ := ih (c.sweepBlock (outputs ++ b.readNames) 0 b).1
      rw [hb] at hg hgdrops hgdead
      have hsub := happend _ (List.Subset.trans (hgdrops.readNames 0 _) hless)
      refine ⟨fun k i => (c.swept (outputs ++ b.readNames) k i).bind (g k), ?_, ?_, fun i hi => ?_⟩
      · rw [← Block.filterMap_filterMap, ← hg, hb]
      · rw [← Block.filterMap_filterMap]
        exact (hdrops.of_subset hsub).comp hgdrops
      · rw [← Block.filterMap_filterMap]
        rcases List.mem_append.1 hi with hi | hi
        · obtain ⟨k, -, hk⟩ := mem_sweepBlock.1 hi
          exact ⟨k, isDead_of_subset hk hsub⟩
        · rw [hb] at hi
          exact hgdead i hi

end Numbering.Cleanup

/-! ## The cleanup as a whole -/

namespace Numbering

section Drop

mutual
/-- Without names to drop, every declaration stays. -/
theorem dropDeclarations_nil : ∀ b : Block, dropDeclarations [] b = b
  | .mk vars body => by
    rw [dropDeclarations, dropInBody_nil body]
    exact congrArg (Block.mk · body) (List.filter_eq_self.2 fun _ _ => rfl)
theorem dropInBody_nil : ∀ b : Body, dropInBody [] b = b
  | .done => by rw [dropInBody]
  | .instr i rest => by rw [dropInBody, dropInBody_nil rest]
  | .cont c rest => by rw [dropInBody, dropInContinuation_nil c, dropInBody_nil rest]
theorem dropInContinuation_nil : ∀ c : Continuation, dropInContinuation [] c = c
  | .ifElse condition t e => by
    rw [dropInContinuation, dropDeclarations_nil t, dropDeclarations_nil e]
  | .switch value arms => by rw [dropInContinuation, dropInArms_nil arms]
  | .deferred trigger b => by rw [dropInContinuation, dropDeclarations_nil b]
  | .nested b => by rw [dropInContinuation, dropDeclarations_nil b]
theorem dropInArms_nil : ∀ arms : Arms, dropInArms [] arms = arms
  | .none => by rw [dropInArms]
  | .default b => by rw [dropInArms, dropDeclarations_nil b]
  | .case label b rest => by rw [dropInArms, dropDeclarations_nil b, dropInArms_nil rest]
end

end Drop

/-- **The cleanup, phase by phase**: instructions are deleted that are dead in
view of what is left, others become stores, and declarations are dropped. -/
theorem removeRedundant_phases (ctx : Context) (f : Function) (s : State) :
    ∃ (g : Rewrite) (deleted : List String),
      Cleanup.DropsDead ⟨ctx.foreign, s.marks⟩
        (f.outputs.map (·.name) ++ (f.block.filterMap g 0).readNames) g
      ∧ let stored := (Cleanup.storeBlock ⟨ctx.foreign, s.marks⟩ 0 (f.block.filterMap g 0)).1
        (removeRedundant ctx f s).1 = { f with block := dropDeclarations deleted stored } := by
  let c : Cleanup := ⟨ctx.foreign, s.marks⟩
  unfold removeRedundant
  split
  · rename_i hmarks
    refine ⟨fun _ i => some i, [], fun _ _ => .inl rfl, ?_⟩
    dsimp only
    rw [dropDeclarations_nil, Block.filterMap_some,
      Cleanup.storeBlock_of_unmarked (List.isEmpty_iff.1 hmarks)]
  · let swept := c.sweepAll (f.outputs.map (·.name)) (f.block.instructions.length + 1) f.block
    obtain ⟨g, hg, hdrops, -⟩ :=
      c.sweepAll_spec (f.outputs.map (·.name)) (f.block.instructions.length + 1) f.block
    refine ⟨g, swept.2.flatMap fun i => i.outputs.map (·.name), hdrops, ?_⟩
    simp only
    rw [hg]

/-- **The cleanup rewrites instructions, then drops declarations.** An
instruction is kept or becomes a store, or it is dead and deleted; what the
caller reads is not dead. -/
theorem removeRedundant_fst (ctx : Context) (f : Function) (s : State) :
    ∃ (g : Rewrite) (reads deleted : List String), f.outputs.map (·.name) ⊆ reads
      ∧ (∀ n i, g n i = some (Cleanup.stored ⟨ctx.foreign, s.marks⟩ n i)
        ∨ g n i = none ∧ Cleanup.isDead ⟨ctx.foreign, s.marks⟩ reads n i = true)
      ∧ (removeRedundant ctx f s).1
        = { f with block := dropDeclarations deleted (f.block.filterMap g 0) } := by
  obtain ⟨g, deleted, hdrops, heq⟩ := removeRedundant_phases ctx f s
  refine ⟨fun n i => (g n i).bind fun i => some (Cleanup.stored ⟨ctx.foreign, s.marks⟩ n i),
    f.outputs.map (·.name) ++ (f.block.filterMap g 0).readNames,
    deleted, List.subset_append_left _ _,
    fun n i => ?_, ?_⟩
  · rcases hdrops n i with hi | ⟨hi, hdead⟩
    · exact .inl (by simp only [hi]; rfl)
    · exact .inr ⟨by simp only [hi]; rfl, hdead⟩
  · dsimp only at heq
    rw [heq, Cleanup.storeBlock_fst, Block.filterMap_filterMap]

end Numbering

end ValueFlow
