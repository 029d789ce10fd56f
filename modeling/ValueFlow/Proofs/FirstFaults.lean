import ValueFlow.Proofs.Acceptance

/-!
# The first fault of a function

A run of value numbering fails exactly when a plain check of the text fails, and
with the same fault (`Numbering.result_run_iff`). The check makes two passes and
knows nothing of values, facts or settings.

* The first pass looks at the field paths alone, in the order of the text:
  `Block.badPath?`.
* The second pass follows the declared and the assigned names: `Block.fault?`,
  with the inputs in front.

Neither pass speaks of scopes that do not match or of names declared twice, and
the check reads neither the settings nor the table of constants.
-/

namespace ValueFlow

/-! ## Field paths -/

/-- The fault of a field path that the type of its record does not have. Only a
read follows its path; a path that is written to is taken as it is. -/
def Instruction.badPath? : Instruction → Option Fault
  | .readField _ _ record path =>
    match record.ty.fieldAt path with
    | .ok _ => none
    | .error reason => some (.badFieldPath record.name path reason)
  | _ => none

/-- The first field path in a block that leads nowhere. -/
def Block.badPath? (b : Block) : Option Fault := b.instructions.findSome? (·.badPath?)

/-- **The first fault of a function, read off its text**: a field path that
leads nowhere, an input given twice, or the first fault of the names in its
block. -/
def Function.firstFault? (foreign : Foreign) (f : Function) : Option Fault :=
  f.block.badPath?.or <|
    (Point.assignedTwice? ⟨[], []⟩ f.inputs).or (f.block.fault? f.name foreign f.point)

section Paths

/-- The fault with which a computation stops. -/
def faultOf? {α : Type} : Except Fault α → Option Fault
  | .ok _ => none
  | .error e => some e

/-- Of two lists put one behind the other, the first to fail decides. -/
theorem faultOf?_append {α : Type} (x y : Except Fault (List α)) :
    faultOf? (do return (← x) ++ (← y)) = (faultOf? x).or (faultOf? y) := by
  cases x with
  | error e => rfl
  | ok xs => cases y <;> rfl

theorem Instruction.faultOf?_aliases (i : Instruction) : faultOf? i.aliases = i.badPath? := by
  cases i with
  | readField access dst record path =>
    show faultOf? (do return (← Alias.ofStruct? record path access dst).toList)
      = match record.ty.fieldAt path with
        | .ok _ => none
        | .error reason => some (.badFieldPath record.name path reason)
    unfold Alias.ofStruct? Alias.fieldIsRef
    cases record.ty.fieldAt path <;> rfl
  | _ => rfl

-- The facts are gathered in the order in which `instructions` lists the
-- instructions, so a failure in either part of a tree is the first one of the list.
mutual
theorem Block.faultOf?_aliases (b : Block) :
    faultOf? b.aliases = b.instructions.findSome? (·.badPath?) := by
  match b with
  | .mk vars body => exact body.faultOf?_aliases
theorem Body.faultOf?_aliases (body : Body) :
    faultOf? body.aliases = body.instructions.findSome? (·.badPath?) := by
  match body with
  | .done => rfl
  | .instr i rest =>
    rw [Body.aliases, faultOf?_append, i.faultOf?_aliases, rest.faultOf?_aliases, Body.instructions,
      List.findSome?_cons]
    cases i.badPath? <;> rfl
  | .cont c rest =>
    rw [Body.instructions, List.findSome?_append, ← c.faultOf?_innerAliases,
      ← rest.faultOf?_aliases,
      Body.aliases]
    cases c.innerAliases with
    | error e => rfl
    | ok inner => cases rest.aliases <;> rfl
theorem Continuation.faultOf?_innerAliases (c : Continuation) :
    faultOf? c.innerAliases = c.instructions.findSome? (·.badPath?) := by
  match c with
  | .ifElse _ t e =>
    rw [Continuation.innerAliases, faultOf?_append, t.faultOf?_aliases, e.faultOf?_aliases,
      Continuation.instructions, List.findSome?_append]
  | .switch _ arms => exact arms.faultOf?_aliases
  | .deferred _ b => exact b.faultOf?_aliases
  | .nested b => exact b.faultOf?_aliases
theorem Arms.faultOf?_aliases (arms : Arms) :
    faultOf? arms.aliases = arms.instructions.findSome? (·.badPath?) := by
  match arms with
  | .none => rfl
  | .default b => exact b.faultOf?_aliases
  | .case _ b rest =>
    rw [Arms.aliases, faultOf?_append, b.faultOf?_aliases, rest.faultOf?_aliases, Arms.instructions,
      List.findSome?_append]
end

/-- The two ways to read the first fault off a function agree. -/
theorem Function.fault?_eq_firstFault? (foreign : Foreign) (f : Function) :
    f.fault? foreign = f.firstFault? foreign := by
  unfold Function.fault? Function.firstFault? Block.badPath?
  rw [← f.block.faultOf?_aliases]
  cases f.block.aliases <;> rfl

end Paths

/-! ## Faults that are never found -/

/-- The fault is about scopes: an exit without an entry, or a name declared
twice in one block. -/
def Fault.isOfScopes : Fault → Bool
  | declaredTwice _ | unbalancedScopes => true
  | _ => false

section Scopes

variable {function : String} {foreign : Foreign} {e : Fault} {i : Instruction}

theorem Instruction.isOfScopes_badPath? (h : i.badPath? = some e) : e.isOfScopes = false := by
  cases i with
  | readField access dst record path =>
    unfold badPath? at h
    cases hty : record.ty.fieldAt path with
    | ok ty => simp [hty] at h
    | error reason =>
      simp only [hty, Option.some.injEq] at h
      exact h ▸ rfl
  | _ => cases h

theorem Point.isOfScopes_undeclared? {p : Point} {vars : List Var}
    (h : p.undeclared? function vars = some e) : e.isOfScopes = false := by
  obtain ⟨v, -, rfl⟩ := Option.map_eq_some_iff.mp h
  rfl

theorem Point.isOfScopes_assignedTwice? {p : Point} {vars : List Var}
    (h : p.assignedTwice? vars = some e) : e.isOfScopes = false := by
  induction vars generalizing p with
  | nil => cases h
  | cons v vars ih =>
    unfold assignedTwice? at h
    split at h
    · exact Option.some.inj h ▸ rfl
    · exact ih h

theorem Instruction.isOfScopes_unknown? (h : i.unknown? foreign = some e) :
    e.isOfScopes = false := by
  cases i with
  | call timing callee outputs inputs =>
    unfold unknown? Foreign.lookup at h
    cases hf : foreign.functions.get? callee with
    | some f => simp [hf] at h
    | none =>
      simp only [hf, Option.some.injEq] at h
      exact h ▸ rfl
  | _ => cases h

theorem Instruction.isOfScopes_fault? {p : Point} (h : i.fault? function foreign p = some e) :
    e.isOfScopes = false := by
  rcases Option.or_eq_some_iff.mp h with h | ⟨-, h⟩
  · exact Point.isOfScopes_undeclared? h
  · rcases Option.or_eq_some_iff.mp h with h | ⟨-, h⟩
    · exact Point.isOfScopes_assignedTwice? h
    · exact Instruction.isOfScopes_unknown? h

mutual
theorem Block.isOfScopes_fault? {p : Point} {b : Block} (h : b.fault? function foreign p = some e) :
    e.isOfScopes = false := by
  match b with
  | .mk vars body => exact Body.isOfScopes_fault? h
theorem Body.isOfScopes_fault? {p : Point} {body : Body}
    (h : body.fault? function foreign p = some e) : e.isOfScopes = false := by
  match body with
  | .done => cases h
  | .instr i rest =>
    rcases Option.or_eq_some_iff.mp h with h | ⟨-, h⟩
    · exact Instruction.isOfScopes_fault? h
    · exact Body.isOfScopes_fault? h
  | .cont c rest =>
    rcases Option.or_eq_some_iff.mp h with h | ⟨-, h⟩
    · exact Continuation.isOfScopes_fault? h
    · exact Body.isOfScopes_fault? h
theorem Continuation.isOfScopes_fault? {p : Point} {c : Continuation}
    (h : c.fault? function foreign p = some e) : e.isOfScopes = false := by
  unfold Continuation.fault? at h
  rcases Option.or_eq_some_iff.mp h with h | ⟨-, h⟩
  · exact Point.isOfScopes_undeclared? h
  · match c with
    | .ifElse _ t e =>
      rcases Option.or_eq_some_iff.mp h with h | ⟨-, h⟩
      · exact Block.isOfScopes_fault? h
      · exact Block.isOfScopes_fault? h
    | .switch _ arms => exact Arms.isOfScopes_fault? h
    | .deferred trigger b =>
      rcases Option.or_eq_some_iff.mp h with h | ⟨-, h⟩
      · exact Point.isOfScopes_assignedTwice? h
      · exact Block.isOfScopes_fault? h
    | .nested b => exact Block.isOfScopes_fault? h
theorem Arms.isOfScopes_fault? {p : Point} {arms : Arms}
    (h : arms.fault? function foreign p = some e) : e.isOfScopes = false := by
  match arms with
  | .none => cases h
  | .default b => exact Block.isOfScopes_fault? h
  | .case _ b rest =>
    rcases Option.or_eq_some_iff.mp h with h | ⟨-, h⟩
    · exact Block.isOfScopes_fault? h
    · exact Arms.isOfScopes_fault? h
end

theorem Function.isOfScopes_firstFault? {f : Function} (h : f.firstFault? foreign = some e) :
    e.isOfScopes = false := by
  rcases Option.or_eq_some_iff.mp h with h | ⟨-, h⟩
  · obtain ⟨i, -, hi⟩ := List.exists_of_findSome?_eq_some h
    exact Instruction.isOfScopes_badPath? hi
  · rcases Option.or_eq_some_iff.mp h with h | ⟨-, h⟩
    · exact Point.isOfScopes_assignedTwice? h
    · exact Block.isOfScopes_fault? h

end Scopes

/-! ## Exact acceptance -/

namespace Numbering

/-- **Numbering fails exactly where the check of the text fails, and with its
fault.** The check reads neither the settings nor the table of constants, so
these have no say in it, and its faults are never about unbalanced scopes or
double declarations. -/
theorem result_run_iff (settings : Settings) (foreign : Foreign) (globals : Constants)
    (f : Function) :
    (∀ e, (run settings foreign globals f).result = .error e ↔ f.firstFault? foreign = some e)
      ∧ ((∃ r, (run settings foreign globals f).result = .ok r) ↔ f.firstFault? foreign = none)
      ∧ ∀ e, (run settings foreign globals f).result = .error e →
          e ≠ .unbalancedScopes ∧ ∀ v, e ≠ .declaredTwice v := by
  have hfails : ∀ e, (run settings foreign globals f).result = .error e
      ↔ f.firstFault? foreign = some e := by
    intro e
    have hrun := result_run settings foreign globals f
    rw [f.fault?_eq_firstFault? foreign] at hrun
    cases hf : f.firstFault? foreign with
    | none =>
      rw [hf] at hrun
      obtain ⟨stats, created, hr⟩ := hrun
      simp [hr]
    | some e' =>
      rw [hf] at hrun
      simp only at hrun
      simp [hrun]
  refine ⟨hfails, ?_, ?_⟩
  · rw [← f.fault?_eq_firstFault? foreign]
    exact run_ok_iff
  · intro e he
    have hscopes : e.isOfScopes = false := Function.isOfScopes_firstFault? ((hfails e).mp he)
    constructor
    · rintro rfl
      cases hscopes
    · rintro v rfl
      cases hscopes

end Numbering

end ValueFlow
