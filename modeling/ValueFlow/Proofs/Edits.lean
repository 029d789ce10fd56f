import ValueFlow.Proofs.Acceptance

/-!
# Requirements on trees and edits of trees

Two notions that many statements about a tree share. A `Requirement` says of
each part of a tree, given the point where it stands, what has to hold there;
`Block.Meets` asks for it everywhere in a block. An `Edit` says what may become
of each part; `Block.Edited` relates a block to one with the same continuations,
of which instructions may be missing. `Block.Edited.filterMap` carries an edit
on through a rewriting of the instructions, and `Block.Edited.dropDeclarations`
through dropping declarations.

Points and block numbers are those of the tree before the edit.
-/

namespace ValueFlow

/-! ## Requirements -/

/-- **What is required of the parts of a tree**, each at its point, and of an
instruction also in view of the number of its block. -/
structure Requirement where
  /-- The variables that a block declares. -/
  declares : Point → List Var → Prop
  instruction : Nat → Point → Instruction → Prop
  /-- The operand that governs a conditional. -/
  operand : Point → Operand → Prop
  trigger : Point → Trigger → Prop

section Meets

variable (R : Requirement)

mutual
/-- **The parts of a block with number `n` are as required**, the block starting
at a given point. -/
def Block.Meets (n : Nat) (p : Point) : Block → Prop
  | .mk vars body => R.declares p vars ∧ body.Meets n (n + 1) (p.declare vars)
/-- The parts of a body in the block with number `block` are as required, inner
blocks being numbered from `n` on. -/
def Body.Meets (block n : Nat) (p : Point) : Body → Prop
  | .done => True
  | .instr i rest => R.instruction block p i ∧ rest.Meets block n (p.assign i.assigns)
  | .cont c rest => c.Meets n p ∧ rest.Meets block (n + c.blockCount) (p.assign c.assigns)
/-- The parts of a continuation are as required. -/
def Continuation.Meets (n : Nat) (p : Point) : Continuation → Prop
  | .ifElse condition t e => R.operand p condition ∧ t.Meets n p ∧ e.Meets (n + t.blockCount) p
  | .switch value arms => R.operand p value ∧ arms.Meets n p
  | .deferred trigger b => R.trigger p trigger ∧ b.Meets n (p.enter trigger)
  | .nested b => b.Meets n p
/-- The parts of the arms of a switch are as required. -/
def Arms.Meets (n : Nat) (p : Point) : Arms → Prop
  | .none => True
  | .default b => b.Meets n p
  | .case _ b rest => b.Meets n p ∧ rest.Meets (n + b.blockCount) p
end

end Meets

/-- What is required follows from other requirements. -/
structure Requirement.Follows (R' R : Requirement) : Prop where
  declares : ∀ {p : Point} {vars : List Var}, R.declares p vars → R'.declares p vars
  instruction : ∀ {n : Nat} {p : Point} {i : Instruction},
    R.instruction n p i → R'.instruction n p i
  operand : ∀ {p : Point} {a : Operand}, R.operand p a → R'.operand p a
  trigger : ∀ {p : Point} {t : Trigger}, R.trigger p t → R'.trigger p t

section Mono

variable {R R' : Requirement}

mutual
theorem Block.Meets.mono (hR : R'.Follows R) : ∀ {b : Block} {n : Nat} {p : Point}, b.Meets R n p →
    b.Meets R' n p
  | .mk _ _, _, _, h => ⟨hR.declares h.1, Body.Meets.mono hR h.2⟩
theorem Body.Meets.mono (hR : R'.Follows R) : ∀ {b : Body} {block n : Nat} {p : Point},
    b.Meets R block n p → b.Meets R' block n p
  | .done, _, _, _, _ => trivial
  | .instr _ _, _, _, _, h => ⟨hR.instruction h.1, Body.Meets.mono hR h.2⟩
  | .cont _ _, _, _, _, h => ⟨Continuation.Meets.mono hR h.1, Body.Meets.mono hR h.2⟩
theorem Continuation.Meets.mono (hR : R'.Follows R) : ∀ {c : Continuation} {n : Nat} {p : Point},
    c.Meets R n p → c.Meets R' n p
  | .ifElse _ _ _, _, _, h => ⟨hR.operand h.1, Block.Meets.mono hR h.2.1, Block.Meets.mono hR h.2.2⟩
  | .switch _ _, _, _, h => ⟨hR.operand h.1, Arms.Meets.mono hR h.2⟩
  | .deferred _ _, _, _, h => ⟨hR.trigger h.1, Block.Meets.mono hR h.2⟩
  | .nested _, _, _, h => Block.Meets.mono hR h
theorem Arms.Meets.mono (hR : R'.Follows R) : ∀ {arms : Arms} {n : Nat} {p : Point},
    arms.Meets R n p → arms.Meets R' n p
  | .none, _, _, _ => trivial
  | .default _, _, _, h => Block.Meets.mono hR h
  | .case _ _ _, _, _, h => ⟨Block.Meets.mono hR h.1, Arms.Meets.mono hR h.2⟩
end

end Mono

/-- Both requirements. -/
def Requirement.and (R R' : Requirement) : Requirement where
  declares p vars := R.declares p vars ∧ R'.declares p vars
  instruction n p i := R.instruction n p i ∧ R'.instruction n p i
  operand p a := R.operand p a ∧ R'.operand p a
  trigger p t := R.trigger p t ∧ R'.trigger p t

section And

variable {R R' : Requirement}

mutual
theorem Block.Meets.and : ∀ {b : Block} {n : Nat} {p : Point}, b.Meets R n p → b.Meets R' n p →
    b.Meets (R.and R') n p
  | .mk _ _, _, _, h, h' => ⟨⟨h.1, h'.1⟩, Body.Meets.and h.2 h'.2⟩
theorem Body.Meets.and : ∀ {b : Body} {block n : Nat} {p : Point}, b.Meets R block n p →
    b.Meets R' block n p → b.Meets (R.and R') block n p
  | .done, _, _, _, _, _ => trivial
  | .instr _ _, _, _, _, h, h' => ⟨⟨h.1, h'.1⟩, Body.Meets.and h.2 h'.2⟩
  | .cont _ _, _, _, _, h, h' => ⟨Continuation.Meets.and h.1 h'.1, Body.Meets.and h.2 h'.2⟩
theorem Continuation.Meets.and : ∀ {c : Continuation} {n : Nat} {p : Point}, c.Meets R n p →
    c.Meets R' n p → c.Meets (R.and R') n p
  | .ifElse _ _ _, _, _, h, h' =>
    ⟨⟨h.1, h'.1⟩, Block.Meets.and h.2.1 h'.2.1, Block.Meets.and h.2.2 h'.2.2⟩
  | .switch _ _, _, _, h, h' => ⟨⟨h.1, h'.1⟩, Arms.Meets.and h.2 h'.2⟩
  | .deferred _ _, _, _, h, h' => ⟨⟨h.1, h'.1⟩, Block.Meets.and h.2 h'.2⟩
  | .nested _, _, _, h, h' => Block.Meets.and h h'
theorem Arms.Meets.and : ∀ {arms : Arms} {n : Nat} {p : Point}, arms.Meets R n p →
    arms.Meets R' n p → arms.Meets (R.and R') n p
  | .none, _, _, _, _ => trivial
  | .default _, _, _, h, h' => Block.Meets.and h h'
  | .case _ _ _, _, _, h, h' => ⟨Block.Meets.and h.1 h'.1, Arms.Meets.and h.2 h'.2⟩
end

end And

/-! ## Edits -/

/-- **What may become of the parts of a tree**, each at its point; an
instruction may also be deleted. -/
structure Edit where
  declares : Point → List Var → List Var → Prop
  instruction : Nat → Point → Instruction → Option Instruction → Prop
  operand : Point → Operand → Operand → Prop
  trigger : Point → Trigger → Trigger → Prop

section Edited

variable (E : Edit)

mutual
/-- **A block was edited into another one.** -/
def Block.Edited (n : Nat) (p : Point) : Block → Block → Prop
  | .mk vars body, .mk vars' body' =>
    E.declares p vars vars' ∧ body.Edited n (n + 1) (p.declare vars) body'
termination_by structural b => b
/-- A body was edited into another one: instructions may be missing, the rest is
still there and in order. -/
def Body.Edited (block n : Nat) (p : Point) : Body → Body → Prop
  | .done, b => b = .done
  | .instr i rest, b =>
    (∃ j rest', b = .instr j rest' ∧ E.instruction block p i (some j)
        ∧ rest.Edited block n (p.assign i.assigns) rest')
      ∨ E.instruction block p i none ∧ rest.Edited block n (p.assign i.assigns) b
  | .cont c rest, b => ∃ c' rest', b = .cont c' rest' ∧ c.Edited n p c'
    ∧ rest.Edited block (n + c.blockCount) (p.assign c.assigns) rest'
termination_by structural b => b
/-- A continuation was edited into another one of the same kind. -/
def Continuation.Edited (n : Nat) (p : Point) : Continuation → Continuation → Prop
  | .ifElse condition t e, c => ∃ condition' t' e', c = .ifElse condition' t' e'
    ∧ E.operand p condition condition' ∧ t.Edited n p t' ∧ e.Edited (n + t.blockCount) p e'
  | .switch value arms, c => ∃ value' arms', c = .switch value' arms'
    ∧ E.operand p value value' ∧ arms.Edited n p arms'
  | .deferred trigger b, c => ∃ trigger' b', c = .deferred trigger' b'
    ∧ E.trigger p trigger trigger' ∧ b.Edited n (p.enter trigger) b'
  | .nested b, c => ∃ b', c = .nested b' ∧ b.Edited n p b'
termination_by structural c => c
/-- The arms of a switch were edited into arms with the same labels. -/
def Arms.Edited (n : Nat) (p : Point) : Arms → Arms → Prop
  | .none, arms => arms = .none
  | .default b, arms => ∃ b', arms = .default b' ∧ b.Edited n p b'
  | .case label b rest, arms => ∃ b' rest', arms = .case label b' rest' ∧ b.Edited n p b'
    ∧ rest.Edited (n + b.blockCount) p rest'
termination_by structural arms => arms
end

end Edited

section Parts

variable {E : Edit}

mutual
/-- An edit leaves the number of blocks. -/
theorem Block.Edited.blockCount : ∀ {b b' : Block} {n : Nat} {p : Point}, b.Edited E n p b' →
    b'.blockCount = b.blockCount
  | .mk vars body, .mk vars' body', n, p, h => by
    rw [Block.blockCount, Block.blockCount, Body.Edited.blockCount h.2]
theorem Body.Edited.blockCount : ∀ {b b' : Body} {block n : Nat} {p : Point},
    b.Edited E block n p b' → b'.blockCount = b.blockCount
  | .done, b', block, n, p, h => by
    rw [h]
  | .instr i rest, b', block, n, p, h => by
    rw [Body.blockCount]
    rcases h with ⟨j, rest', rfl, -, h⟩ | ⟨-, h⟩
    · rw [Body.blockCount, Body.Edited.blockCount h]
    · exact Body.Edited.blockCount h
  | .cont c rest, b', block, n, p, h => by
    obtain ⟨c', rest', rfl, hc, h⟩ := h
    rw [Body.blockCount, Body.blockCount, Continuation.Edited.blockCount hc,
      Body.Edited.blockCount h]
theorem Continuation.Edited.blockCount : ∀ {c c' : Continuation} {n : Nat} {p : Point},
    c.Edited E n p c' → c'.blockCount = c.blockCount
  | .ifElse condition t e, c', n, p, h => by
    obtain ⟨condition', t', e', rfl, -, ht, he⟩ := h
    rw [Continuation.blockCount, Continuation.blockCount, Block.Edited.blockCount ht,
      Block.Edited.blockCount he]
  | .switch value arms, c', n, p, h => by
    obtain ⟨value', arms', rfl, -, h⟩ := h
    rw [Continuation.blockCount, Continuation.blockCount, Arms.Edited.blockCount h]
  | .deferred trigger b, c', n, p, h => by
    obtain ⟨trigger', b', rfl, -, h⟩ := h
    rw [Continuation.blockCount, Continuation.blockCount, Block.Edited.blockCount h]
  | .nested b, c', n, p, h => by
    obtain ⟨b', rfl, h⟩ := h
    rw [Continuation.blockCount, Continuation.blockCount, Block.Edited.blockCount h]
theorem Arms.Edited.blockCount :
    ∀ {arms arms' : Arms} {n : Nat} {p : Point}, arms.Edited E n p arms' →
    arms'.blockCount = arms.blockCount
  | .none, arms', n, p, h => by
    rw [h]
  | .default b, arms', n, p, h => by
    obtain ⟨b', rfl, h⟩ := h
    rw [Arms.blockCount, Arms.blockCount, Block.Edited.blockCount h]
  | .case label b rest, arms', n, p, h => by
    obtain ⟨b', rest', rfl, hb, h⟩ := h
    rw [Arms.blockCount, Arms.blockCount, Block.Edited.blockCount hb, Arms.Edited.blockCount h]
end

end Parts

/-- What may become of the parts is also what another edit allows. -/
structure Edit.Refines (E E' : Edit) : Prop where
  declares : ∀ {p : Point} {vars vars' : List Var}, E.declares p vars vars' →
    E'.declares p vars vars'
  instruction : ∀ {n : Nat} {p : Point} {i : Instruction} {r : Option Instruction},
    E.instruction n p i r → E'.instruction n p i r
  operand : ∀ {p : Point} {a a' : Operand}, E.operand p a a' → E'.operand p a a'
  trigger : ∀ {p : Point} {t t' : Trigger}, E.trigger p t t' → E'.trigger p t t'

section Refines

variable {E E' : Edit}

mutual
theorem Block.Edited.mono (hE : E.Refines E') : ∀ {b b' : Block} {n : Nat} {p : Point},
    b.Edited E n p b' → b.Edited E' n p b'
  | .mk vars body, .mk vars' body', n, p, h => ⟨hE.declares h.1, Body.Edited.mono hE h.2⟩
theorem Body.Edited.mono (hE : E.Refines E') : ∀ {b b' : Body} {block n : Nat} {p : Point},
    b.Edited E block n p b' → b.Edited E' block n p b'
  | .done, b', block, n, p, h => h
  | .instr i rest, b', block, n, p, h => by
    rcases h with ⟨j, rest', rfl, hj, h⟩ | ⟨hi, h⟩
    · exact .inl ⟨j, rest', rfl, hE.instruction hj, Body.Edited.mono hE h⟩
    · exact .inr ⟨hE.instruction hi, Body.Edited.mono hE h⟩
  | .cont c rest, b', block, n, p, h => by
    obtain ⟨c', rest', rfl, hc, h⟩ := h
    exact ⟨c', rest', rfl, Continuation.Edited.mono hE hc, Body.Edited.mono hE h⟩
theorem Continuation.Edited.mono (hE : E.Refines E') :
    ∀ {c c' : Continuation} {n : Nat} {p : Point},
    c.Edited E n p c' → c.Edited E' n p c'
  | .ifElse condition t e, c', n, p, h => by
    obtain ⟨condition', t', e', rfl, ha, ht, he⟩ := h
    exact ⟨condition', t', e', rfl, hE.operand ha, Block.Edited.mono hE ht, Block.Edited.mono hE he⟩
  | .switch value arms, c', n, p, h => by
    obtain ⟨value', arms', rfl, ha, h⟩ := h
    exact ⟨value', arms', rfl, hE.operand ha, Arms.Edited.mono hE h⟩
  | .deferred trigger b, c', n, p, h => by
    obtain ⟨trigger', b', rfl, ht, h⟩ := h
    exact ⟨trigger', b', rfl, hE.trigger ht, Block.Edited.mono hE h⟩
  | .nested b, c', n, p, h => by
    obtain ⟨b', rfl, h⟩ := h
    exact ⟨b', rfl, Block.Edited.mono hE h⟩
theorem Arms.Edited.mono (hE : E.Refines E') : ∀ {arms arms' : Arms} {n : Nat} {p : Point},
    arms.Edited E n p arms' → arms.Edited E' n p arms'
  | .none, arms', n, p, h => h
  | .default b, arms', n, p, h => by
    obtain ⟨b', rfl, h⟩ := h
    exact ⟨b', rfl, Block.Edited.mono hE h⟩
  | .case label b rest, arms', n, p, h => by
    obtain ⟨b', rest', rfl, hb, h⟩ := h
    exact ⟨b', rest', rfl, Block.Edited.mono hE hb, Arms.Edited.mono hE h⟩
end

end Refines

/-- What is required of the parts of a tree lets them stay as they are. -/
structure Requirement.Permits (R : Requirement) (E : Edit) : Prop where
  declares : ∀ {p : Point} {vars : List Var}, R.declares p vars → E.declares p vars vars
  instruction : ∀ {n : Nat} {p : Point} {i : Instruction},
    R.instruction n p i → E.instruction n p i (some i)
  operand : ∀ {p : Point} {a : Operand}, R.operand p a → E.operand p a a
  trigger : ∀ {p : Point} {t : Trigger}, R.trigger p t → E.trigger p t t

section Permits

variable {R : Requirement} {E : Edit}

mutual
/-- **A block that is as required may stay as it is.** -/
theorem Block.Meets.edited (hR : R.Permits E) :
    ∀ {b : Block} {n : Nat} {p : Point}, b.Meets R n p → b.Edited E n p b
  | .mk _ _, _, _, h => ⟨hR.declares h.1, Body.Meets.edited hR h.2⟩
theorem Body.Meets.edited (hR : R.Permits E) : ∀ {b : Body} {block n : Nat} {p : Point},
    b.Meets R block n p → b.Edited E block n p b
  | .done, _, _, _, _ => rfl
  | .instr i rest, _, _, _, h => .inl ⟨i, rest, rfl, hR.instruction h.1, Body.Meets.edited hR h.2⟩
  | .cont c rest, _, _, _, h =>
    ⟨c, rest, rfl, Continuation.Meets.edited hR h.1, Body.Meets.edited hR h.2⟩
theorem Continuation.Meets.edited (hR : R.Permits E) : ∀ {c : Continuation} {n : Nat} {p : Point},
    c.Meets R n p → c.Edited E n p c
  | .ifElse _ t e, _, _, h =>
    ⟨_, t, e, rfl, hR.operand h.1, Block.Meets.edited hR h.2.1, Block.Meets.edited hR h.2.2⟩
  | .switch _ arms, _, _, h => ⟨_, arms, rfl, hR.operand h.1, Arms.Meets.edited hR h.2⟩
  | .deferred _ b, _, _, h => ⟨_, b, rfl, hR.trigger h.1, Block.Meets.edited hR h.2⟩
  | .nested b, _, _, h => ⟨b, rfl, Block.Meets.edited hR h⟩
theorem Arms.Meets.edited (hR : R.Permits E) : ∀ {arms : Arms} {n : Nat} {p : Point},
    arms.Meets R n p → arms.Edited E n p arms
  | .none, _, _, _ => rfl
  | .default b, _, _, h => ⟨b, rfl, Block.Meets.edited hR h⟩
  | .case _ b rest, _, _, h => ⟨b, rest, rfl, Block.Meets.edited hR h.1, Arms.Meets.edited hR h.2⟩
end

end Permits

/-! ## Editing further -/

/-- The edit, followed by a rewriting of the instructions. -/
def Edit.andThen (E : Edit) (g : Rewrite) : Edit :=
  { E with instruction := fun n p i r => ∃ r₀, E.instruction n p i r₀ ∧ r = r₀.bind (g n) }

section FilterMap

variable {E : Edit} (g : Rewrite)

mutual
/-- **Rewriting the instructions of an edited block** edits it further. -/
theorem Block.Edited.filterMap : ∀ {b b' : Block} {n : Nat} {p : Point}, b.Edited E n p b' →
    b.Edited (E.andThen g) n p (b'.filterMap g n)
  | .mk vars body, .mk vars' body', n, p, h => ⟨h.1, Body.Edited.filterMap h.2⟩
theorem Body.Edited.filterMap : ∀ {b b' : Body} {block n : Nat} {p : Point},
    b.Edited E block n p b' → b.Edited (E.andThen g) block n p (b'.filterMap g block n)
  | .done, b', block, n, p, h => by
    rw [h, Body.filterMap, Body.Edited]
  | .instr i rest, b', block, n, p, h => by
    rcases h with ⟨j, rest', rfl, hj, h⟩ | ⟨hi, h⟩
    · have hrest := Body.Edited.filterMap h
      rw [Body.filterMap]
      cases hg : g block j with
      | none => exact .inr ⟨⟨some j, hj, hg.symm⟩, hrest⟩
      | some k => exact .inl ⟨k, _, rfl, ⟨some j, hj, hg.symm⟩, hrest⟩
    · exact .inr ⟨⟨none, hi, rfl⟩, Body.Edited.filterMap h⟩
  | .cont c rest, b', block, n, p, h => by
    obtain ⟨c', rest', rfl, hc, h⟩ := h
    rw [Body.filterMap, Continuation.Edited.blockCount hc]
    exact ⟨_, _, rfl, Continuation.Edited.filterMap hc, Body.Edited.filterMap h⟩
theorem Continuation.Edited.filterMap : ∀ {c c' : Continuation} {n : Nat} {p : Point},
    c.Edited E n p c' → c.Edited (E.andThen g) n p (c'.filterMap g n)
  | .ifElse condition t e, c', n, p, h => by
    obtain ⟨condition', t', e', rfl, ha, ht, he⟩ := h
    rw [Continuation.filterMap, Block.Edited.blockCount ht]
    exact ⟨_, _, _, rfl, ha, Block.Edited.filterMap ht, Block.Edited.filterMap he⟩
  | .switch value arms, c', n, p, h => by
    obtain ⟨value', arms', rfl, ha, h⟩ := h
    exact ⟨_, _, rfl, ha, Arms.Edited.filterMap h⟩
  | .deferred trigger b, c', n, p, h => by
    obtain ⟨trigger', b', rfl, ht, h⟩ := h
    exact ⟨_, _, rfl, ht, Block.Edited.filterMap h⟩
  | .nested b, c', n, p, h => by
    obtain ⟨b', rfl, h⟩ := h
    exact ⟨_, rfl, Block.Edited.filterMap h⟩
theorem Arms.Edited.filterMap :
    ∀ {arms arms' : Arms} {n : Nat} {p : Point}, arms.Edited E n p arms' →
    arms.Edited (E.andThen g) n p (arms'.filterMap g n)
  | .none, arms', n, p, h => by
    rw [h, Arms.filterMap, Arms.Edited]
  | .default b, arms', n, p, h => by
    obtain ⟨b', rfl, h⟩ := h
    exact ⟨_, rfl, Block.Edited.filterMap h⟩
  | .case label b rest, arms', n, p, h => by
    obtain ⟨b', rest', rfl, hb, h⟩ := h
    rw [Arms.filterMap, Block.Edited.blockCount hb]
    exact ⟨_, _, rfl, Block.Edited.filterMap hb, Arms.Edited.filterMap h⟩
end

end FilterMap

/-- The edit, after which declarations may be dropped. -/
def Edit.dropping (E : Edit) : Edit :=
  { E with declares := fun p vars vars' => ∃ vars₀, E.declares p vars vars₀ ∧ vars'.Sublist vars₀ }

section DropDeclarations

variable {E : Edit} (deleted : List String)

mutual
/-- **Dropping declarations in an edited block** edits it further. -/
theorem Block.Edited.dropDeclarations : ∀ {b b' : Block} {n : Nat} {p : Point}, b.Edited E n p b' →
    b.Edited E.dropping n p (Numbering.dropDeclarations deleted b')
  | .mk vars body, .mk vars' body', n, p, h =>
    ⟨⟨vars', h.1, List.filter_sublist⟩, Body.Edited.dropInBody h.2⟩
theorem Body.Edited.dropInBody : ∀ {b b' : Body} {block n : Nat} {p : Point},
    b.Edited E block n p b' → b.Edited E.dropping block n p (Numbering.dropInBody deleted b')
  | .done, b', block, n, p, h => by
    rw [h, Numbering.dropInBody, Body.Edited]
  | .instr i rest, b', block, n, p, h => by
    rcases h with ⟨j, rest', rfl, hj, h⟩ | ⟨hi, h⟩
    · rw [Numbering.dropInBody]
      exact .inl ⟨j, _, rfl, hj, Body.Edited.dropInBody h⟩
    · exact .inr ⟨hi, Body.Edited.dropInBody h⟩
  | .cont c rest, b', block, n, p, h => by
    obtain ⟨c', rest', rfl, hc, h⟩ := h
    exact ⟨_, _, rfl, Continuation.Edited.dropInContinuation hc, Body.Edited.dropInBody h⟩
theorem Continuation.Edited.dropInContinuation : ∀ {c c' : Continuation} {n : Nat} {p : Point},
    c.Edited E n p c' → c.Edited E.dropping n p (Numbering.dropInContinuation deleted c')
  | .ifElse condition t e, c', n, p, h => by
    obtain ⟨condition', t', e', rfl, ha, ht, he⟩ := h
    exact ⟨_, _, _, rfl, ha, Block.Edited.dropDeclarations ht, Block.Edited.dropDeclarations he⟩
  | .switch value arms, c', n, p, h => by
    obtain ⟨value', arms', rfl, ha, h⟩ := h
    exact ⟨_, _, rfl, ha, Arms.Edited.dropInArms h⟩
  | .deferred trigger b, c', n, p, h => by
    obtain ⟨trigger', b', rfl, ht, h⟩ := h
    exact ⟨_, _, rfl, ht, Block.Edited.dropDeclarations h⟩
  | .nested b, c', n, p, h => by
    obtain ⟨b', rfl, h⟩ := h
    exact ⟨_, rfl, Block.Edited.dropDeclarations h⟩
theorem Arms.Edited.dropInArms :
    ∀ {arms arms' : Arms} {n : Nat} {p : Point}, arms.Edited E n p arms' →
    arms.Edited E.dropping n p (Numbering.dropInArms deleted arms')
  | .none, arms', n, p, h => by
    rw [h, Numbering.dropInArms, Arms.Edited]
  | .default b, arms', n, p, h => by
    obtain ⟨b', rfl, h⟩ := h
    exact ⟨_, rfl, Block.Edited.dropDeclarations h⟩
  | .case label b rest, arms', n, p, h => by
    obtain ⟨b', rest', rfl, hb, h⟩ := h
    exact ⟨_, _, rfl, Block.Edited.dropDeclarations hb, Arms.Edited.dropInArms h⟩
end

end DropDeclarations

end ValueFlow
