import ValueFlow.Proofs.NumberedInstructions

/-!
# Numbered visits

The walk numbers blocks in the order in which it enters them. This is their
order in the tree, so a later pass that counts through the walked tree finds
every block and every instruction under the number it was visited with
(`visits_visitBlock`). Of the instructions in the block with some number only
one assigns a given name. So a mark on an output is made when the instruction is
visited, neither before nor after (`exact_visitBlock`).
-/

namespace ValueFlow

/-! ## Blocks by number -/

/-- **How a recursion over a tree counts blocks**: the number that it hands on
behind a block and behind a continuation, given the number with which it starts
there. -/
structure Counting where
  block : Nat → Block → Nat
  continuation : Nat → Continuation → Nat

/-- Numbers by places in the tree: behind each part the number has grown by the
number of its blocks. -/
def Counting.byPlace : Counting := ⟨fun n b => n + b.blockCount, fun n c => n + c.blockCount⟩

theorem Counting.byPlace_block (n : Nat) (b : Block) : byPlace.block n b = n + b.blockCount := rfl

theorem Counting.byPlace_continuation (n : Nat) (c : Continuation) :
    byPlace.continuation n c = n + c.blockCount := rfl

mutual
/-- **The blocks of a block with the numbers that they are given**, the block
itself having number `n`. -/
def Block.counted (k : Counting) (n : Nat) : Block → List (Nat × Block)
  | .mk vars body => (n, .mk vars body) :: body.counted k (n + 1)
/-- The blocks of a body, numbered from `n` on. -/
def Body.counted (k : Counting) (n : Nat) : Body → List (Nat × Block)
  | .done => []
  | .instr _ rest => rest.counted k n
  | .cont c rest => c.counted k n ++ rest.counted k (k.continuation n c)
/-- The blocks of a continuation. -/
def Continuation.counted (k : Counting) (n : Nat) : Continuation → List (Nat × Block)
  | .ifElse _ t e => t.counted k n ++ e.counted k (k.block n t)
  | .switch _ arms => arms.counted k n
  | .deferred _ b => b.counted k n
  | .nested b => b.counted k n
/-- The blocks of the arms of a switch. -/
def Arms.counted (k : Counting) (n : Nat) : Arms → List (Nat × Block)
  | .none => []
  | .default b => b.counted k n
  | .case _ b rest => b.counted k n ++ rest.counted k (k.block n b)
end

namespace Numbering

variable {V : Vocabulary}

section Entries

variable (ctx : Context)

mutual
/-- **The blocks that the walk over a block enters**, each with the state in
which it is entered. -/
def blockEntries : Block → State → List (Block × State)
  | .mk vars body, s => (.mk vars body, s) :: bodyEntries s.nextBlock body (enterBlock vars s)
/-- The blocks that the walk over a body enters. -/
def bodyEntries (block : Nat) : Body → State → List (Block × State)
  | .done, _ => []
  | .instr i rest, s => bodyEntries block rest (visitInstruction ctx block i s).state
  | .cont c rest, s =>
    continuationEntries c (governed c s) ++ bodyEntries block rest (visitContinuation ctx c s).state
/-- The blocks that are entered inside a continuation. -/
def continuationEntries : Continuation → State → List (Block × State)
  | .ifElse _ t e, s =>
    blockEntries t (s.push .branch)
      ++ blockEntries e ((leaveArm (visitBlock ctx t (s.push .branch))).state.push .branch)
  | .switch _ arms, s => armsEntries arms s
  | .deferred trigger b, s => blockEntries b (enterDeferred ctx trigger s).state
  | .nested b, s => blockEntries b (s.push .nested)
/-- The blocks that are entered inside the arms of a switch. -/
def armsEntries : Arms → State → List (Block × State)
  | .none, _ => []
  | .default b, s => blockEntries b (s.push .branch)
  | .case _ b rest, s =>
    blockEntries b (s.push .branch)
      ++ armsEntries rest (leaveArm (visitBlock ctx b (s.push .branch))).state
end

end Entries

/-! ## What a walk visits -/

/-- What the visit makes of the instruction. -/
def Site.walked (ctx : Context) (i : Site) : Instruction :=
  (visitInstruction ctx i.block i.instruction i.before).tree

/-- **Between visits nothing is noted**: each site starts with what was noted
behind the one before. -/
def Traces (ctx : Context) : Pool × Marks → List Site → Pool × Marks → Prop
  | start, [], final => final = start
  | start, i :: sites, final => i.before.notes = start ∧ Traces ctx (i.after ctx).notes sites final

/-- **What the walk over a part of a tree visits**: blocks are entered and
instructions are visited with the numbers that they have in the part, `bs` and
`is`, and in what it becomes, `bs'` and `is'`. -/
structure Visits (ctx : Context) (start final : Pool × Marks) (bs bs' : List (Nat × Block))
    (is is' : List (Nat × Instruction)) (entries : List (Block × State)) (sites : List Site) :
    Prop where
  entered : entries.map (fun e => (e.2.nextBlock, e.1)) = bs
  left : entries.map (fun e => (e.2.nextBlock, (visitBlock ctx e.1 e.2).tree)) = bs'
  visited : sites.map (fun i => (i.block, i.instruction)) = is
  walked : sites.map (fun i => (i.block, i.walked ctx)) = is'
  traces : Traces ctx start sites final

variable {ctx : Context}

theorem Traces.append {p q r : Pool × Marks} {sites sites' : List Site} (h : Traces ctx p sites q)
    (h' : Traces ctx q sites' r) : Traces ctx p (sites ++ sites') r := by
  induction sites generalizing p with
  | nil => exact (h : q = p) ▸ h'
  | cons i sites ih => exact ⟨h.1, ih h.2⟩

theorem Visits.append {p q r : Pool × Marks} {bs bs' cs cs' : List (Nat × Block)}
    {is is' js js' : List (Nat × Instruction)} {entries entries' : List (Block × State)}
    {sites sites' : List Site} (h : Visits ctx p q bs bs' is is' entries sites)
    (h' : Visits ctx q r cs cs' js js' entries' sites') :
    Visits ctx p r (bs ++ cs) (bs' ++ cs') (is ++ js) (is' ++ js')
      (entries ++ entries') (sites ++ sites') where
  entered := by rw [List.map_append, h.entered, h'.entered]
  left := by rw [List.map_append, h.left, h'.left]
  visited := by rw [List.map_append, h.visited, h'.visited]
  walked := by rw [List.map_append, h.walked, h'.walked]
  traces := h.traces.append h'.traces

section Leaving

variable {start : Pool × Marks} {bs : List (Nat × Block)}
  {is : List (Nat × Instruction)} {v : Visit Block} {n : Nat}
  {entries : List (Block × State)} {sites : List Site}

theorem Visits.leave
    (h : Visits ctx start v.state.notes bs (v.tree.counted .byPlace n)
      is (v.tree.numbered n) entries sites)
    (merge : Congruence → Scope → Congruence) :
    Visits ctx start (leave merge v).state.notes bs ((leave merge v).tree.counted .byPlace n) is
      ((leave merge v).tree.numbered n) entries sites := by
  obtain ⟨htree, -, -, hnotes⟩ := leave_frame merge v
  rwa [htree, hnotes]

theorem Visits.leaveArm
    (h : Visits ctx start v.state.notes bs (v.tree.counted .byPlace n)
      is (v.tree.numbered n) entries sites) :
    Visits ctx start (leaveArm v).state.notes bs ((leaveArm v).tree.1.counted .byPlace n) is
      ((leaveArm v).tree.1.numbered n) entries sites := by
  obtain ⟨htree, -, -, hnotes⟩ := leaveArm_frame v
  rwa [htree, hnotes]

end Leaving

mutual
/-- **The walk over a block numbers blocks by their places in the tree.** -/
theorem visits_visitBlock : ∀ (b : Block) (s : State), (visitBlock ctx b s).fault = none →
    Visits ctx s.notes (visitBlock ctx b s).state.notes (b.counted .byPlace s.nextBlock)
      ((visitBlock ctx b s).tree.counted .byPlace s.nextBlock) (b.numbered s.nextBlock)
      ((visitBlock ctx b s).tree.numbered s.nextBlock) (blockEntries ctx b s) (blockSites ctx b s)
  | .mk vars body, s, h => by
    have heq := visitBlock_eq ctx vars body s
    rw [heq] at h ⊢
    obtain ⟨hentered, hleft, hvisited, hwalked, htraces⟩ :=
      visits_visitBody s.nextBlock body (enterBlock vars s) h
    refine ⟨congrArg (_ :: ·) hentered, ?_, hvisited, hwalked, htraces⟩
    rw [blockEntries, List.map_cons, hleft, heq]
    rfl
theorem visits_visitBody (block : Nat) :
    ∀ (b : Body) (s : State), (visitBody ctx block b s).fault = none →
    Visits ctx s.notes (visitBody ctx block b s).state.notes (b.counted .byPlace s.nextBlock)
      ((visitBody ctx block b s).tree.counted .byPlace s.nextBlock) (b.numbered block s.nextBlock)
      ((visitBody ctx block b s).tree.numbered block s.nextBlock)
        (bodyEntries ctx block b s) (bodySites ctx block b s)
  | .done, s, _ => ⟨rfl, rfl, rfl, rfl, rfl⟩
  | .instr i rest, s, h => by
    rw [visitBody] at h ⊢
    obtain ⟨h₁, heq⟩ := andThen_fault h
    rw [heq] at h ⊢
    have hrest := visits_visitBody block rest _ h
    rw [nextBlock_visitInstruction h₁] at hrest
    exact ⟨hrest.entered, hrest.left, congrArg (_ :: ·) hrest.visited,
      congrArg (_ :: ·) hrest.walked, rfl,
      hrest.traces⟩
  | .cont c rest, s, h => by
    rw [visitBody] at h ⊢
    obtain ⟨h₁, heq⟩ := andThen_fault h
    rw [heq] at h ⊢
    obtain ⟨hnext, hcount⟩ := numbers_visitContinuation c s h₁
    have hrest := visits_visitBody block rest _ h
    rw [hnext] at hrest
    simp only [Visit.map, Body.counted, Counting.byPlace, Body.numbered, hcount]
    exact (visits_visitContinuation c s h₁).append hrest
theorem visits_visitContinuation :
    ∀ (c : Continuation) (s : State), (visitContinuation ctx c s).fault = none →
    Visits ctx s.notes (visitContinuation ctx c s).state.notes (c.counted .byPlace s.nextBlock)
      ((visitContinuation ctx c s).tree.counted .byPlace s.nextBlock) (c.numbered s.nextBlock)
      ((visitContinuation ctx c s).tree.numbered s.nextBlock)
        (continuationEntries ctx c (governed c s))
      (continuationSites ctx c (governed c s))
  | .ifElse a t e, s, h => by
    obtain ⟨h₁, h₂, heq⟩ := visitIfElse_eq h
    obtain ⟨hnext, hcount⟩ := numbers_leaveArm h₁
    rw [(quiet_governed (.ifElse a t e) s).nextBlock] at hnext
    simp only [heq, Continuation.counted, Counting.byPlace, Continuation.numbered, hcount, ← hnext]
    exact (visits_visitBlock t _ (leaveArm_fault h₁)).leaveArm.append
      (visits_visitBlock e _ (leaveArm_fault h₂)).leaveArm
  | .switch a arms, s, h => by
    obtain ⟨h₁, heq⟩ := visitSwitch_eq h
    rw [heq]
    exact visits_visitArms arms _ h₁
  | .deferred trigger b, s, h => by
    obtain ⟨-, h₂, heq⟩ := visitDeferred_eq h
    have hb := visits_visitBlock b _ (leave_fault h₂)
    obtain ⟨hnext, hnotes⟩ := enterDeferred_frame trigger (governed (.deferred trigger b) s)
    rw [hnext, hnotes] at hb
    rw [heq]
    exact hb.leave .mergeDeferred
  | .nested b, s, h => by
    obtain ⟨h₁, heq⟩ := visitNested_eq h
    rw [heq]
    exact (visits_visitBlock b _ (leave_fault h₁)).leave .mergeNested
theorem visits_visitArms : ∀ (arms : Arms) (s : State), (visitArms ctx arms s).fault = none →
    Visits ctx s.notes (visitArms ctx arms s).state.notes (arms.counted .byPlace s.nextBlock)
      ((visitArms ctx arms s).tree.1.counted .byPlace s.nextBlock) (arms.numbered s.nextBlock)
      ((visitArms ctx arms s).tree.1.numbered s.nextBlock)
        (armsEntries ctx arms s) (armsSites ctx arms s)
  | .none, s, _ => ⟨rfl, rfl, rfl, rfl, rfl⟩
  | .default b, s, h => by
    obtain ⟨h₁, heq⟩ := visitDefault_cases h
    rw [heq]
    exact (visits_visitBlock b _ (leaveArm_fault h₁)).leaveArm
  | .case label b rest, s, h => by
    obtain ⟨h₁, h₂, heq⟩ := visitCase_cases h
    obtain ⟨hnext, hcount⟩ := numbers_leaveArm h₁
    have hrest := visits_visitArms rest _ h₂
    rw [hnext] at hrest
    simp only [heq, Arms.counted, Counting.byPlace, Arms.numbered, hcount]
    exact (visits_visitBlock b _ (leaveArm_fault h₁)).leaveArm.append hrest
end

section Sites

variable {b : Block} {s : State} {i : Site}

theorem numbered_of_site (hf : (visitBlock ctx b s).fault = none) (hi : i ∈ blockSites ctx b s) :
    (i.block, i.instruction) ∈ b.numbered s.nextBlock :=
  (visits_visitBlock b s hf).visited
    ▸ List.mem_map_of_mem (f := fun i => (i.block, i.instruction)) hi

theorem mem_instructions_of_site (hf : (visitBlock ctx b s).fault = none)
    (hi : i ∈ blockSites ctx b s) : i.instruction ∈ b.instructions :=
  b.map_snd_numbered s.nextBlock ▸ List.mem_map_of_mem (numbered_of_site hf hi)

/-- The variables of a visited instruction occur in the block. -/
theorem all_of_site {P : Var → Prop} (hf : (visitBlock ctx b s).fault = none)
    (hb : ∀ v ∈ b.occurrences, P v) (hi : i ∈ blockSites ctx b s) : i.instruction.All P :=
  Instruction.all_iff.2
    fun v hv => hb v (b.occurrences_of_instructions _ (mem_instructions_of_site hf hi) hv)

theorem fault_of_site (hf : (visitBlock ctx b s).fault = none) (hi : i ∈ blockSites ctx b s) :
    (visitInstruction ctx i.block i.instruction i.before).fault = none := by
  exact (((upheld_true ctx _).visitBlock b s trivial (b.meets_ofVars (fun _ _ => trivial) _ _)
    hf).ran i hi).fault

/-- **What is left of a walked block was visited.** -/
theorem exists_site (hf : (visitBlock ctx b s).fault = none) {j : Instruction}
    (hj : j ∈ (visitBlock ctx b s).tree.instructions) :
    ∃ i ∈ blockSites ctx b s, i.walked ctx = j := by
  rw [← Block.map_snd_numbered s.nextBlock, ← (visits_visitBlock b s hf).walked, List.map_map] at hj
  exact List.mem_map.1 hj

end Sites

/-! ## Marks -/

/-- **The marks on what an instruction assigns are made by its visit**, neither
before nor after; `start` and `final` are what is noted before and behind the
walk. -/
structure Site.Exact (ctx : Context) (start final : Pool × Marks) (i : Site) : Prop where
  grown : start.1.Grows i.before.pool
  grows : (i.after ctx).pool.Grows final.1
  unmarked : ∀ e ∈ i.before.marks.entries, e.1.1 = i.block → e.1.2 ∉ i.instruction.assigns
  marked : ∀ e ∈ final.2.entries, e.1.1 = i.block → e.1.2 ∈ i.instruction.assigns →
    e ∈ (i.after ctx).marks.entries

/-- An output that is marked in the end is stable, so its instruction assigns it
and made the mark. -/
theorem Site.Exact.made (hV : Suits V ctx) {start final : Pool × Marks} {i : Site}
    (h : i.Exact ctx start final)
    (hstable : ∀ e ∈ final.2.entries, ∃ v, V.text v ∧ v.name = e.1.2
      ∧ ctx.aliases.isStable v = true)
    (hi : i.instruction.All V.text) (hbinds : i.instruction.bindsAlias = false) {o : Var}
    (ho : o ∈ i.instruction.outputs) {lit : Option Operand}
    (hmark : ((i.block, o.name), lit) ∈ final.2.entries) :
    ((i.block, o.name), lit) ∈ (i.after ctx).marks.entries
      ∧ ∀ lit, ((i.block, o.name), lit) ∉ i.before.marks.entries := by
  obtain ⟨v, hv, hname, hstable⟩ := hstable _ hmark
  obtain rfl : v = o := hV.consistent v o hv (hi.2 o ho) hname
  have hassigns : v.name ∈ i.instruction.assigns := by
    refine List.mem_reverse.2 (List.mem_map.2 ⟨v, Instruction.mem_assigned.2 ⟨?_, ?_⟩, rfl⟩)
    · rw [Instruction.results, hbinds]
      exact ho
    · simpa using (Bool.and_eq_true_iff.1 hstable).1
  exact ⟨h.marked _ hmark rfl hassigns, fun lit hold => h.unmarked _ hold rfl hassigns⟩

/-- A visit adds constants, and marks on what its instruction assigns. -/
structure Site.Adds (ctx : Context) (i : Site) : Prop where
  pool : i.before.pool.Grows (i.after ctx).pool
  marks : ∀ e ∈ (i.after ctx).marks.entries,
    e ∈ i.before.marks.entries ∨ e.1.1 = i.block ∧ e.1.2 ∈ i.instruction.assigns

theorem Site.adds (hV : Suits V ctx) {i : Site} (hi : i.Ran ctx (WellFormed V))
    (htext : i.instruction.All V.text) : i.Adds ctx := by
  refine ⟨(marks_visitInstruction hi.fault).1, fun e he => ?_⟩
  rcases stable_visitInstruction hV hi.before htext hi.fault e he
    with he | ⟨hblock, v, hv, -, hname, -⟩
  · exact .inl he
  · exact .inr ⟨hblock, List.mem_reverse.2 (List.mem_map.2 ⟨v, hv, hname⟩)⟩

/-- What is noted in the end was noted by one of the visits. -/
theorem Traces.exact {sites : List Site} {start final : Pool × Marks}
    (h : Traces ctx start sites final) (hadds : ∀ i ∈ sites, i.Adds ctx)
    (hapart : (sites.map fun i => (i.block, i.instruction)).Pairwise AssignApart)
    (hstart : ∀ e ∈ start.2.entries, ∀ i ∈ sites, e.1.1 = i.block → e.1.2 ∉ i.instruction.assigns) :
    start.1.Grows final.1
      ∧ (∀ e ∈ final.2.entries, e ∈ start.2.entries ∨ ∃ i ∈ sites,
        e.1.1 = i.block ∧ e.1.2 ∈ i.instruction.assigns)
      ∧ ∀ i ∈ sites, i.Exact ctx start final := by
  induction sites generalizing start with
  | nil =>
    obtain rfl : final = start := h
    exact ⟨.refl _, fun e he => .inl he, List.forall_mem_nil _⟩
  | cons i sites ih =>
    obtain ⟨rfl, htraces⟩ := h
    obtain ⟨hi, hadds⟩ := List.forall_mem_cons.1 hadds
    rw [List.map_cons, List.pairwise_cons, List.forall_mem_map] at hapart
    obtain ⟨hgrows, horigin, hexact⟩ := ih htraces hadds hapart.2 fun e he j hj hblock => by
      rcases hi.marks e he with hold | ⟨hown, hassigns⟩
      · exact hstart e hold j (List.mem_cons_of_mem _ hj) hblock
      · exact hapart.1 j hj (hown.symm.trans hblock) _ hassigns
    refine ⟨hi.pool.trans hgrows, fun e he => ?_,
      List.forall_mem_cons.2 ⟨⟨.refl _, hgrows, ?_, ?_⟩, fun j hj => ?_⟩⟩
    · rcases horigin e he with he | ⟨j, hj, hkey⟩
      · exact (hi.marks e he).imp_right fun hown => ⟨i, List.mem_cons_self, hown⟩
      · exact .inr ⟨j, List.mem_cons_of_mem _ hj, hkey⟩
    · exact fun e he => hstart e he i List.mem_cons_self
    · intro e he hblock hassigns
      refine (horigin e he).resolve_right ?_
      rintro ⟨j, hj, hblock', hassigns'⟩
      exact hapart.1 j hj (hblock.symm.trans hblock') _ hassigns hassigns'
    · obtain ⟨hgrown, hgrows, hunmarked, hmarked⟩ := hexact j hj
      exact ⟨hi.pool.trans hgrown, hgrows, hunmarked, hmarked⟩

/-- **In the walk over an accepted block, a mark is made when an instruction is
visited that assigns the variable**, and what an instruction assigns is marked
at no other time. -/
theorem exact_visitBlock (hV : Suits V ctx) {b : Block} {s : State} (hs : WellFormed V s)
    (hmarks : s.marks.entries = []) (htext : ∀ v ∈ b.occurrences, V.text v) {foreign : Foreign}
    {p : Point} (hb : b.Meets (accepted foreign) s.nextBlock p)
    (hf : (visitBlock ctx b s).fault = none) :
    (∀ e ∈ (visitBlock ctx b s).state.marks.entries, ∃ i ∈ blockSites ctx b s,
        e.1.1 = i.block ∧ e.1.2 ∈ i.instruction.assigns)
      ∧ ∀ i ∈ blockSites ctx b s, i.Exact ctx s.notes (visitBlock ctx b s).state.notes := by
  have hvisits := visits_visitBlock b s hf
  have hran := ((upheld_wellFormed hV.toServes).visitBlock b s hs (b.meets_ofVars htext _ _) hf).ran
  have hnil : ∀ e, e ∉ s.marks.entries := by
    rw [hmarks]
    exact fun _ => List.not_mem_nil
  obtain ⟨-, horigin, hexact⟩ := hvisits.traces.exact
    (fun i hi => Site.adds hV (hran i hi) (all_of_site hf htext hi))
    (hvisits.visited ▸ Block.pairwise_numbered hb)
    fun e he => absurd he (hnil e)
  exact ⟨fun e he => (horigin e he).resolve_left (hnil e), hexact⟩

end Numbering

end ValueFlow
