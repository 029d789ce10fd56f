import ValueFlow.Proofs.FunctionSimulation

/-!
# The locations of aliases

An alias fact speaks of a part of its parent's storage (`AliasMap.part`). The
alias map of a function is asked for one location of each variable, and of
several facts about one child it follows the first. **The location of a child is
the part that the first fact about it speaks of** (`location_child`), provided
that the facts do not lead in a circle.

So a fact is honoured exactly as far as the first fact about the same child
speaks of the same storage. It is always so if no name is bound twice. Two loops
over different arrays that give their members one name are another matter: the
second loop runs over one array and its member is located in the other one
(`member_lost_of_bound_twice`).
-/

namespace ValueFlow

namespace AliasMap

/-- The part of storage that a fact speaks of. -/
def part (m : AliasMap) (a : Alias) : Location := (m.location a.parent).extend a.path

/-- Some fact leads from the one name, its child, to the other, its parent. -/
def Leads (facts : List Alias) (name name' : String) : Prop :=
  ∃ a ∈ facts, a.child.name = name ∧ a.parent.name = name'

/-- **No way along the facts comes back to its start.** -/
def Acyclic (facts : List Alias) : Prop := ∀ name, ¬ Relation.TransGen (Leads facts) name name

variable {m : AliasMap} {facts : List Alias}

/-- Facts whose parents are no children do not lead in a circle. -/
theorem acyclic_of_roots (h : ∀ a ∈ facts, ∀ b ∈ facts, a.parent.name ≠ b.child.name) :
    Acyclic facts := by
  intro name hcircle
  obtain ⟨_, ⟨b, hb, hchild, -⟩, -⟩ := Relation.TransGen.head'_iff.1 hcircle
  obtain ⟨_, -, ⟨a, ha, -, hparent⟩⟩ := Relation.TransGen.tail'_iff.1 hcircle
  exact h a ha b hb (hparent.trans hchild.symm)

theorem Acyclic.ends (h : Acyclic m.facts) (name : String) : m.Ends name := fun n _ hcircle =>
  h n (hcircle.lift id fun _ _ ⟨a, ha, hparent⟩ =>
    ⟨a, List.mem_of_find?_eq_some ha, child_eq_of_entry ha, hparent⟩)

/-- **The location of a child is the part that the first fact about it speaks
of.** -/
theorem location_child (hacyclic : Acyclic m.facts) {v : Var} {a : Alias}
    (hfirst : m.facts.find? (·.child.name = v.name) = some a) : m.location v = m.part a := by
  have hname : a.child.name = v.name := child_eq_of_entry hfirst
  have hchild := (hacyclic.ends a.child.name).location_child (hname ▸ hfirst)
  rwa [location, hname] at hchild

/-! ## Honoured facts -/

theorem isStable_child {a : Alias} (ha : a ∈ m.facts) : m.isStable a.child = false := by
  have hmentions : m.mentions a.child = true := List.any_eq_true.2 ⟨a, ha, by simp⟩
  simp [isStable, hmentions]

theorem isStable_parent {a : Alias} (ha : a ∈ m.facts) : m.isStable a.parent = false := by
  have hmentions : m.mentions a.parent = true := List.any_eq_true.2 ⟨a, ha, by simp⟩
  simp [isStable, hmentions]

/-- Every write to a variable that is not stable counts. -/
theorem written?_of_isStable_eq_false {v : Var} (h : m.isStable v = false) (steps : List Step) :
    m.written? v steps = some ((m.location v).extend steps) := by
  rw [written?, h, Bool.and_false]
  rfl

end AliasMap

namespace AliasMap

/-- **The fact is honoured**: whatever is written, through whatever name, at a
place of the part that the fact speaks of is written at that place of the child,
and nothing else is. -/
def Honours (m : AliasMap) (a : Alias) : Prop :=
  ∀ v steps l rest, m.written? v steps = some l →
    l.overlaps ((m.location a.child).extend rest) = l.overlaps ((m.part a).extend rest)

theorem honours_of_location_eq {m : AliasMap} {a : Alias} (h : m.location a.child = m.part a) :
    m.Honours a := by
  intro v steps l rest _
  rw [h]

end AliasMap

theorem Location.overlaps_self (l : Location) : l.overlaps l = true := by
  obtain ⟨path, hpath⟩ := exists_forall₂_matches l.path
  simp [overlaps, agrees_of_touched List.prefix_rfl hpath List.prefix_rfl hpath]

namespace Numbering

/-- **A fact is honoured as far as the first fact about its child speaks of the
same storage.** Neither its child nor its parent is stable, so every write to
them counts. The child is located at the part that the first fact about it
speaks of, and the fact is honoured if this is the part that it speaks of
itself. If the two parts do not overlap, not even a write through the parent to
the very part is taken for a write to the child. -/
theorem aliases_located {f : Function} {facts : List Alias} (hfacts : f.block.aliases = .ok facts)
    (hacyclic : AliasMap.Acyclic facts) (settings : Settings) (foreign : Foreign) :
    ∃ ctx, contextOf settings foreign f = .ok ctx ∧ ctx.aliases.facts = facts ∧ ∀ a ∈ facts,
      ctx.aliases.isStable a.child = false ∧ ctx.aliases.isStable a.parent = false
      ∧ ∃ first, facts.find? (·.child.name = a.child.name) = some first
        ∧ ctx.aliases.location a.child = ctx.aliases.part first
        ∧ (ctx.aliases.part first = ctx.aliases.part a → ctx.aliases.Honours a)
        ∧ ((ctx.aliases.part first).overlaps (ctx.aliases.part a) = false →
          ∃ l, ctx.aliases.written? a.parent a.path = some l
            ∧ l.overlaps (ctx.aliases.part a) = true
            ∧ l.overlaps (ctx.aliases.location a.child) = false) := by
  refine ⟨⟨f.name, settings, foreign, ⟨facts⟩, f.block.writtenLocations ⟨facts⟩⟩,
    ?_, rfl, fun a ha => ?_⟩
  · rw [contextOf, hfacts]
    rfl
  have hparent : AliasMap.isStable ⟨facts⟩ a.parent = false := AliasMap.isStable_parent ha
  refine ⟨AliasMap.isStable_child ha, hparent, ?_⟩
  cases hfirst : facts.find? (·.child.name = a.child.name) with
  | none => exact absurd (List.find?_eq_none.1 hfirst a ha) (by simp)
  | some first =>
    have hlocation : AliasMap.location ⟨facts⟩ a.child = AliasMap.part ⟨facts⟩ first :=
      AliasMap.location_child hacyclic hfirst
    refine ⟨first, rfl, hlocation, fun hsame => ?_, fun hapart => ?_⟩
    · exact AliasMap.honours_of_location_eq (hlocation.trans hsame)
    · refine ⟨_, AliasMap.written?_of_isStable_eq_false hparent a.path,
        Location.overlaps_self _, ?_⟩
      show Location.overlaps (AliasMap.part ⟨facts⟩ a) (AliasMap.location ⟨facts⟩ a.child) = false
      rw [hlocation, Location.overlaps_comm, hapart]

/-- Two loops, each over an array of futures. In the second one the member is
read, an element of the array is stored, and the member is read again and given
out. -/
def loopsTwice (first second : Var) : Function where
  name := "f"
  inputs := [⟨"A", .array (.future .int), .stack, .localUser, .user⟩,
    ⟨"B", .array (.future .int), .stack, .localUser, .user⟩]
  outputs := [⟨"o", .future .int, .stack, .outArg, .user⟩]
  target := .control
  block :=
    .mk []
      (.cont (.deferred (.foreach ⟨"A", .array (.future .int), .stack, .localUser, .user⟩ first)
        .empty)
      (.cont (.deferred (.foreach ⟨"B", .array (.future .int), .stack, .localUser, .user⟩ second)
        (.mk [.value "v1" .int, .value "v2" .int]
          (.instr (.loadScalar (.value "v1" .int) second)
          (.instr (.writeElement ⟨"B", .array (.future .int), .stack, .localUser, .user⟩
            (.lit (.int 0)) (.lit (.int 1)))
          (.instr (.loadScalar (.value "v2" .int) second)
          (.instr (.storeScalar ⟨"o", .future .int, .stack, .outArg, .user⟩
            (.var (.value "v2" .int))) .done))))))
      .done))

/-- The member of a loop over futures. -/
def member (name : String) : Var := ⟨name, .future .int, .part, .localCompiler, .part⟩

/-- Loops whose members have names of their own: both facts are honoured, so the
store to the array ends what is known about its member, which is read twice. -/
theorem aliases_located_loopsTwice :
    ∃ ctx, contextOf {} .empty (loopsTwice (member "m") (member "n")) = .ok ctx
      ∧ AliasMap.Acyclic ctx.aliases.facts ∧ ctx.aliases.facts.length = 2
      ∧ (∀ a ∈ ctx.aliases.facts, ctx.aliases.Honours a)
      ∧ .storeScalar ⟨"o", .future .int, .stack, .outArg, .user⟩ (.var (.value "v2" .int))
        ∈ (run {} .empty .empty
          (loopsTwice (member "m") (member "n"))).function.block.instructions := by
  obtain ⟨facts, hfacts, hlength, hroots, hunique⟩ : ∃ facts,
      (loopsTwice (member "m") (member "n")).block.aliases = .ok facts ∧ facts.length = 2
      ∧ (∀ a ∈ facts, ∀ b ∈ facts, a.parent.name ≠ b.child.name)
      ∧ ∀ a ∈ facts, ∀ b ∈ facts, a.child.name = b.child.name → a = b :=
    ⟨_, rfl, by decide, by decide, by decide⟩
  have hacyclic := AliasMap.acyclic_of_roots hroots
  obtain ⟨ctx, hctx, rfl, hlocated⟩ := aliases_located hfacts hacyclic {} .empty
  refine ⟨ctx, hctx, hacyclic, hlength, fun a ha => ?_, by decide +kernel⟩
  obtain ⟨-, -, first, hfirst, -, hhonours, -⟩ := hlocated a ha
  have hname : first.child.name = a.child.name := by simpa using List.find?_some hfirst
  exact hhonours (by rw [hunique first (List.mem_of_find?_eq_some hfirst) a ha hname])

/-- **A name that is bound twice is located where it was bound first.** If both
loops call their member alike, the member of the second array is located in the
first one, where the store to the second array is not seen. The value that was
read before the store is then given out. -/
theorem member_lost_of_bound_twice :
    (∀ v ∈ (loopsTwice (member "m") (member "m")).occurrences,
      ∀ w ∈ (loopsTwice (member "m") (member "m")).occurrences, v.name = w.name → v = w)
    ∧ (loopsTwice (member "m") (member "m")).block.declaresAnew ["A", "B", "o"] = true
    ∧ (∃ ctx, contextOf {} .empty (loopsTwice (member "m") (member "m")) = .ok ctx
      ∧ AliasMap.Acyclic ctx.aliases.facts
      ∧ ∃ a ∈ ctx.aliases.facts,
        (ctx.aliases.location a.child).overlaps ((ctx.aliases.location a.parent).extend a.path)
          = false)
    ∧ .storeScalar ⟨"o", .future .int, .stack, .outArg, .user⟩ (.var (.value "v1" .int))
      ∈ (run {} .empty .empty
        (loopsTwice (member "m") (member "m"))).function.block.instructions := by
  refine ⟨by decide +kernel, by decide +kernel, ⟨_, rfl, AliasMap.acyclic_of_roots ?_, ?_⟩,
    by decide +kernel⟩
  · decide +kernel
  · decide +kernel

end Numbering

end ValueFlow
