import ValueFlow.Proofs.AliasLocations
import ValueFlow.Proofs.Reacceptance
import ValueFlow.Proofs.SettledCleanups
import ValueFlow.Proofs.SettledWalks

/-!
# A numbered function has the context of the function

Numbering looks at all alias facts and at all writes of a function before it
starts. A numbered function has the same ones (`contextOf_numbered`): containers
are not replaced, so a rewritten instruction binds and writes what it bound and
wrote before, and what is deleted assigns stable variables only. These take part
in no alias fact, and their defining assignments do not count as writes.

The other thing to know before a second walk is that the walked function
mentions only what may be mentioned (`occurrences_visitBlock`).
-/

namespace ValueFlow

/-! ## What edits keep -/

/-- **An edit keeps alias facts and writes**: rewritten parts have the same
ones, and deleted instructions have none. -/
structure Edit.KeepsEffects (E : Edit) (aliases : AliasMap) : Prop where
  rewritten : ∀ {n p i j}, E.instruction n p i (some j) →
    j.aliases = i.aliases ∧ j.writes = i.writes
  deleted : ∀ {n p i}, E.instruction n p i none → i.aliases = .ok []
    ∧ Numbering.writtenBy aliases i.writes = []
  trigger : ∀ {p t t'}, E.trigger p t t' → t'.aliases = t.aliases

open ValueFlow.Numbering (locations)

section Effects

variable {E : Edit} {aliases : AliasMap}

theorem locations_append (is is' : List Instruction) :
    locations aliases (is ++ is') = locations aliases is ++ locations aliases is' :=
      List.flatMap_append

mutual
/-- **A block has its alias facts and writes behind an edit that keeps them.** -/
theorem Block.Edited.effects (hE : E.KeepsEffects aliases) : ∀ {b b' : Block} {n : Nat} {p : Point},
    b.Edited E n p b' →
    b'.aliases = b.aliases ∧ locations aliases b'.instructions = locations aliases b.instructions
  | .mk vars body, .mk vars' body', n, p, h => Body.Edited.effects hE h.2
theorem Body.Edited.effects (hE : E.KeepsEffects aliases) :
    ∀ {b b' : Body} {block n : Nat} {p : Point},
    b.Edited E block n p b' →
    b'.aliases = b.aliases ∧ locations aliases b'.instructions = locations aliases b.instructions
  | .done, b', block, n, p, h => by
    rw [h]
    exact ⟨rfl, rfl⟩
  | .instr i rest, b', block, n, p, h => by
    rcases h with ⟨j, rest', rfl, hj, h⟩ | ⟨hi, h⟩
    · obtain ⟨haliases, hwrites⟩ := hE.rewritten hj
      obtain ⟨haliases', hlocations⟩ := Body.Edited.effects hE h
      rw [Body.aliases, Body.aliases, haliases, haliases', Body.instructions, Body.instructions]
      refine ⟨rfl, ?_⟩
      rw [locations, List.flatMap_cons, hwrites]
      exact congrArg _ hlocations
    · obtain ⟨haliases, hwrites⟩ := hE.deleted hi
      obtain ⟨haliases', hlocations⟩ := Body.Edited.effects hE h
      rw [Body.aliases, haliases, Body.instructions, locations,
        locations, List.flatMap_cons, hwrites, List.nil_append]
      refine ⟨haliases'.trans ?_, hlocations⟩
      cases rest.aliases <;> rfl
  | .cont c rest, b', block, n, p, h => by
    obtain ⟨c', rest', rfl, hc, h⟩ := h
    obtain ⟨haliases, hinner, hlocations⟩ := Continuation.Edited.effects hE hc
    obtain ⟨haliases', hlocations'⟩ := Body.Edited.effects hE h
    rw [Body.aliases, Body.aliases, haliases, hinner, haliases',
      Body.instructions, Body.instructions, locations_append,
      locations_append, hlocations, hlocations']
    exact ⟨rfl, rfl⟩
theorem Continuation.Edited.effects (hE : E.KeepsEffects aliases) :
    ∀ {c c' : Continuation} {n : Nat} {p : Point},
    c.Edited E n p c' → c'.aliases = c.aliases ∧ c'.innerAliases = c.innerAliases
      ∧ locations aliases c'.instructions = locations aliases c.instructions
  | .ifElse condition t e, c', n, p, h => by
    obtain ⟨condition', t', e', rfl, -, ht, he⟩ := h
    obtain ⟨haliases, hlocations⟩ := Block.Edited.effects hE ht
    obtain ⟨haliases', hlocations'⟩ := Block.Edited.effects hE he
    rw [Continuation.innerAliases, Continuation.innerAliases,
      haliases, haliases', Continuation.instructions,
      Continuation.instructions, locations_append, locations_append, hlocations, hlocations']
    exact ⟨rfl, rfl, rfl⟩
  | .switch value arms, c', n, p, h => by
    obtain ⟨value', arms', rfl, -, h⟩ := h
    exact ⟨rfl, Arms.Edited.effects hE h⟩
  | .deferred trigger b, c', n, p, h => by
    obtain ⟨trigger', b', rfl, ht, h⟩ := h
    exact ⟨hE.trigger ht, Block.Edited.effects hE h⟩
  | .nested b, c', n, p, h => by
    obtain ⟨b', rfl, h⟩ := h
    exact ⟨rfl, Block.Edited.effects hE h⟩
theorem Arms.Edited.effects (hE : E.KeepsEffects aliases) :
    ∀ {arms arms' : Arms} {n : Nat} {p : Point},
    arms.Edited E n p arms' →
    arms'.aliases = arms.aliases
      ∧ locations aliases arms'.instructions = locations aliases arms.instructions
  | .none, arms', n, p, h => by
    rw [h]
    exact ⟨rfl, rfl⟩
  | .default b, arms', n, p, h => by
    obtain ⟨b', rfl, h⟩ := h
    exact Block.Edited.effects hE h
  | .case label b rest, arms', n, p, h => by
    obtain ⟨b', rest', rfl, hb, h⟩ := h
    obtain ⟨haliases, hlocations⟩ := Block.Edited.effects hE hb
    obtain ⟨haliases', hlocations'⟩ := Arms.Edited.effects hE h
    rw [Arms.aliases, Arms.aliases, haliases, haliases',
      Arms.instructions, Arms.instructions, locations_append,
      locations_append, hlocations, hlocations']
    exact ⟨rfl, rfl⟩
end

end Effects

/-! ## Numbered functions -/

/-- An alias fact is about an output of its instruction. -/
theorem Instruction.child_mem_outputs {i : Instruction} {as : List Alias} (h : i.aliases = .ok as) :
    ∀ a ∈ as, a.child ∈ i.outputs := by
  intro a ha
  cases i with
  | readField access dst record path =>
    dsimp only [aliases, Alias.ofStruct?] at h
    cases href : Alias.fieldIsRef record path with
    | error e =>
      rw [href] at h
      cases h
    | ok isRef =>
      rw [href] at h
      obtain rfl := Except.ok.inj h
      rw [Option.mem_toList] at ha
      obtain rfl := Option.some.inj (Option.ite_none_right_eq_some.1 ha).2
      exact List.mem_singleton_self dst
  | readElement access dst arr ix =>
    obtain rfl := Except.ok.inj h
    cases access with
    | bind =>
      obtain rfl := List.mem_singleton.1 ha
      exact List.mem_singleton_self dst
    | _ => cases ha
  | _ =>
    obtain rfl := Except.ok.inj h
    cases ha

namespace Numbering

section Numbered

variable {V : Vocabulary} {ctx : Context} {b : Block} {marks : Marks} {g : Rewrite}

theorem aliases_of_foldable? {foreign : Foreign} {i : Instruction} {dst : Var}
    (h : foldable? foreign i = some dst) : i.aliases = .ok [] := by
  unfold foldable? at h
  split at h
  · rfl
  · rfl
  · cases h

/-- **Walking and deleting keeps alias facts and writes**; `marks` are the marks
in the end, by which is deleted. -/
theorem keepsEffects_walkEdit (hV : Suits V ctx) (hb : b.aliases = .ok ctx.aliases.facts)
    (hstable : ∀ e ∈ marks.entries, ∃ v, V.text v ∧ v.name = e.1.2 ∧ ctx.aliases.isStable v = true)
    (hg : ∀ k i, g k i = some i ∨ g k i = none
      ∧ Cleanup.isRedundant ⟨ctx.foreign, marks⟩ k i = true) :
    ((walkEdit ctx (ordered V (b.numbered 0)) fun s => InOrder V ctx (b.numbered 0) s
      ∧ s.facts.Apart).andThen g).dropping
      |>.KeepsEffects ctx.aliases where
  rewritten := by
    rintro n p i j ⟨r, ⟨-, s, -, -, hf, rfl⟩, hj⟩
    obtain rfl : j = (visitInstruction ctx n i s).tree := by
      change some j = g n (visitInstruction ctx n i s).tree at hj
      rcases hg n (visitInstruction ctx n i s).tree with hkept | ⟨hnone, -⟩
      · exact Option.some.inj (hj.trans hkept)
      · cases hj.trans hnone
    rcases visitInstruction_tree hf with htree | ⟨dst, l, hdst, htree⟩
    · rw [htree, aliases_mapOperands, Instruction.writes_mapOperands]
      exact ⟨rfl, rfl⟩
    · rw [htree, ← aliases_mapOperands (replace s.facts) i, aliases_of_foldable? hdst,
        ← Instruction.writes_mapOperands (f := replace s.facts) (i := i),
        Instruction.writes_of_foldable? hdst]
      exact ⟨rfl, rfl⟩
  deleted := by
    rintro n p i ⟨r, ⟨⟨hi, -, hmem⟩, s, hs, -, hf, rfl⟩, hnone⟩
    change none = g n (visitInstruction ctx n i s).tree at hnone
    have hred := ((hg n (visitInstruction ctx n i s).tree).resolve_left
      fun hkept => nomatch hnone.trans hkept).2
    obtain ⟨honly, -, hout⟩ := hs.1.of_redundant hV hstable hi hf hred
    refine ⟨?_, writtenBy_of_stable honly fun o ho => (hout o ho).1⟩
    have hinstr : i ∈ b.instructions := by
      rw [← b.map_snd_numbered 0]
      exact List.mem_map.2 ⟨(n, i), hmem, rfl⟩
    obtain ⟨own, hown, hsub⟩ := (b.aliasesFrom hb).all i hinstr
    rw [hown]
    -- a fact about an output would make it unstable
    refine congrArg Except.ok (List.eq_nil_iff_forall_not_mem.2 fun a ha => ?_)
    have hchild := (hout a.child (Instruction.child_mem_outputs hown a ha)).1
    rw [AliasMap.isStable_child (hsub ha)] at hchild
    cases hchild
  trigger := by
    rintro p t t' ⟨-, s, -, -, -, hf, rfl⟩
    cases t with
    | wait vars target mode =>
      rw [(enterWait_spec ctx vars target mode s).1]
      rfl
    | range index start stop step =>
      obtain ⟨facts, -, htree, -⟩ := enterRange_cases hf
      rw [htree]
      rfl
    | foreach array member => rfl

/-- **A function has the context of the function that it was made from** by
walking and deleting. -/
theorem contextOf_numbered {settings : Settings} {foreign : Foreign} {f f' : Function} {n : Nat}
    {p : Point} (hctx : contextOf settings foreign f = .ok ctx) (hname : f'.name = f.name)
    {E : Edit} (hE : E.KeepsEffects ctx.aliases) (h : f.block.Edited E n p f'.block) :
    contextOf settings foreign f' = .ok ctx := by
  obtain ⟨haliases, hlocations⟩ := h.effects hE
  obtain ⟨hfacts, -⟩ := contextOf_eq_ok hctx
  rw [← hctx, contextOf, contextOf, haliases, hfacts, hname]
  show Except.ok _ = Except.ok _
  rw [show f'.block.writtenLocations ctx.aliases
    = f.block.writtenLocations ctx.aliases from hlocations]

/-- **A walked block mentions only what may be mentioned.** -/
theorem occurrences_visitBlock (hV : Serves V ctx) {s : State} (hs : WellFormed V s)
    (ht : ∀ v ∈ b.occurrences, V.text v) (hf : (visitBlock ctx b s).fault = none) :
    ∀ v ∈ (visitBlock ctx b s).tree.occurrences, V.shared v ∨ V.text v := by
  have hnames : ∀ {names v}, V.Names names v → V.shared v ∨ V.text v :=
    fun hv => hv.imp_right And.left
  have htext : ∀ {s : State} {a : Operand}, a.All V.text → (a.All fun v => s.knows v = true) →
      a.All (V.Names s.facts.names) := by
    intro s a ha hknown
    cases a with
    | var v => exact names_of_knows hknown ha
    | lit l => trivial
  refine ((upheld_wellFormed hV).visitBlock b s hs (b.meets_ofVars ht _ _) hf).2.forall_occurrences
    ⟨?_, ?_, ?_, ?_⟩
  · rintro p vars vars' ⟨hvars, rfl⟩ v hv
    exact .inr (hvars v hv)
  · rintro n p i j ⟨hi, s, hs, -, hf, hj⟩
    obtain rfl := Option.some.inj hj
    obtain ⟨-, htree⟩ := wellFormed_visitInstruction hV hs hi hf
    exact ⟨fun r hr => (htree.1 r hr).mono fun _ => hnames, fun o ho => hnames (htree.2 o ho)⟩
  · rintro p a a' ⟨ha, s, hs, -, hknown, rfl⟩
    exact (names_replace hs.tidy (htext ha hknown)).mono fun _ => hnames
  · rintro p t t' ⟨htrigger, s, hs, -, hknown, hf, rfl⟩
    refine forall_occurrences_enterDeferred hf (fun v hv => .inr (htrigger v hv)) fun a ha => ?_
    have hall : a.All (V.Names s.facts.names) := Operand.all_iff.2 fun v hv =>
      names_of_knows (hknown v (List.mem_filterMap.2 ⟨a, ha, Option.mem_toList.1 hv⟩))
        (htrigger v (Trigger.mem_occurrences.2 (.inr ⟨a, ha, hv⟩)))
    exact (names_replace hs.tidy hall).mono fun _ => hnames

end Numbered

end Numbering

end ValueFlow
