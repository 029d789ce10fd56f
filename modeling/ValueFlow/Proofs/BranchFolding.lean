import ValueFlow.Proofs.Counters

/-!
# Conditionals on literals

Replacing the conditionals on literals in a function is right for every way to
give meaning to functions in which such a conditional does what one expects.
`BlockSemantics` says what this takes: the meaning of a block is put together
from the meanings of its statements, whatever these are, and three laws hold
about conditionals on literals and about an empty block. **All meanings in this
sense stay the same** (`BlockSemantics.ofBlock_foldBranches`); executing a block
on a machine is one of them (`Machine.semantics`).

What is left and what is counted is said by way of the sites of a function, the
places of its continuations with all the continuations around them
(`Block.sites`). No site of the folded function has a conditional on a literal
(`Block.decides_of_mem_sites_foldBranches`), and **the count is the number of
sites whose conditional is on a literal and which lie in no arm that is
dropped** (`Block.count_sites`). That a second run finds nothing to do is a
consequence of both.
-/

namespace ValueFlow

variable {kept : Nat → Bool}

universe u

/-! ## Meanings of blocks -/

/-- **A compositional semantics of blocks**, in which a conditional on a literal
means the arm that it takes. -/
structure BlockSemantics where
  /-- The meanings of blocks. -/
  Block : Type u
  /-- The meanings of bodies. -/
  Body : Type u
  /-- The meanings of continuations. -/
  Continuation : Type u
  block : List Var → Body → Block
  done : Body
  instr : Instruction → Body → Body
  cont : Continuation → Body → Body
  ifElse : Operand → Block → Block → Continuation
  /-- The meaning of a switch, given by the labels with the meanings of their
  blocks and the default or none. -/
  switch : Operand → List (Int64 × Block) → Option Block → Continuation
  deferred : Trigger → Block → Continuation
  nested : Block → Continuation
  /-- The meaning of a statement that does nothing. -/
  nothing : Continuation
  ifElse_lit : ∀ b t e, ifElse (.lit (.bool b)) t e = nested (if b then t else e)
  /-- The first case with the label is taken, else the default, else nothing. -/
  switch_lit : ∀ n cases default,
    switch (.lit (.int n)) cases default
      = (((cases.find? (·.1 = n)).map (·.2)).or default).elim nothing nested
  nested_empty : nested (block [] done) = nothing

namespace BlockSemantics

variable (S : BlockSemantics.{u})

mutual
/-- The meaning of a block. -/
def ofBlock : ValueFlow.Block → S.Block
  | .mk vars body => S.block vars (ofBody body)
/-- The meaning of a body. -/
def ofBody : ValueFlow.Body → S.Body
  | .done => S.done
  | .instr i rest => S.instr i (ofBody rest)
  | .cont c rest => S.cont (ofContinuation c) (ofBody rest)
/-- The meaning of a continuation. -/
def ofContinuation : ValueFlow.Continuation → S.Continuation
  | .ifElse condition t e => S.ifElse condition (ofBlock t) (ofBlock e)
  | .switch value arms => S.switch value (ofCases arms) (ofDefault arms)
  | .deferred trigger b => S.deferred trigger (ofBlock b)
  | .nested b => S.nested (ofBlock b)
/-- The labels of a switch with the meanings of their blocks. -/
def ofCases : Arms → List (Int64 × S.Block)
  | .case label b rest => (label, ofBlock b) :: ofCases rest
  | _ => []
/-- The meaning of the default of a switch. -/
def ofDefault : Arms → Option S.Block
  | .none => none
  | .default b => some (ofBlock b)
  | .case _ _ rest => ofDefault rest
end

/-- The meaning of the arm that an integer chooses, nothing if there is none. -/
def ofTaken (n : Int64) (arms : Arms) : S.Continuation :=
  ((((S.ofCases arms).find? (·.1 = n)).map (·.2)).or (S.ofDefault arms)).elim S.nothing S.nested

theorem ofTaken_none (n : Int64) : S.ofTaken n .none = S.nothing := by
  rw [ofTaken, ofCases, ofDefault]
  · rfl
  · exact fun _ _ _ h => nomatch h

theorem ofTaken_default (n : Int64) (b : ValueFlow.Block) :
    S.ofTaken n (.default b) = S.nested (S.ofBlock b) := by
  rw [ofTaken, ofCases, ofDefault]
  · rfl
  · exact fun _ _ _ h => nomatch h

theorem ofTaken_case (n label : Int64) (b : ValueFlow.Block) (rest : Arms) :
    S.ofTaken n (.case label b rest) = if label = n then S.nested (S.ofBlock b)
      else S.ofTaken n rest := by
  rw [ofTaken, ofTaken, ofCases, ofDefault]
  by_cases hlabel : label = n
  · rw [if_pos hlabel, List.find?_cons_of_pos (by simpa using hlabel)]
    rfl
  · rw [if_neg hlabel, List.find?_cons_of_neg (by simpa using hlabel)]

mutual
/-- **Replacing the conditionals on literals keeps the meaning of a block.** -/
theorem ofBlock_foldBranches : ∀ b : ValueFlow.Block, S.ofBlock b.foldBranches = S.ofBlock b
  | .mk vars body => by
    rw [Block.foldBranches, ofBlock, ofBlock, ofBody_foldBranches body]
theorem ofBody_foldBranches : ∀ b : ValueFlow.Body, S.ofBody b.foldBranches = S.ofBody b
  | .done => by rw [Body.foldBranches]
  | .instr i rest => by
    rw [Body.foldBranches, ofBody, ofBody, ofBody_foldBranches rest]
  | .cont c rest => by
    rw [Body.foldBranches, ofBody, ofBody, ofContinuation_foldBranches c, ofBody_foldBranches rest]
theorem ofContinuation_foldBranches : ∀ c : ValueFlow.Continuation,
    S.ofContinuation c.foldBranches = S.ofContinuation c
  | .ifElse condition t e => by
    unfold Continuation.foldBranches
    split
    · rename_i b
      rw [ofContinuation, ofContinuation, S.ifElse_lit]
      cases b with
      | true => exact congrArg S.nested (ofBlock_foldBranches t)
      | false => exact congrArg S.nested (ofBlock_foldBranches e)
    · rw [ofContinuation, ofContinuation, ofBlock_foldBranches t, ofBlock_foldBranches e]
  | .switch value arms => by
    unfold Continuation.foldBranches
    split
    · rename_i n
      rw [ofContinuation, ofContinuation, S.switch_lit]
      exact nested_foldTaken n arms
    · rw [ofContinuation, ofContinuation, ofCases_foldBranches arms, ofDefault_foldBranches arms]
  | .deferred trigger b => by
    rw [Continuation.foldBranches, ofContinuation, ofContinuation, ofBlock_foldBranches b]
  | .nested b => by
    rw [Continuation.foldBranches, ofContinuation, ofContinuation, ofBlock_foldBranches b]
theorem ofCases_foldBranches : ∀ arms : Arms, S.ofCases arms.foldBranches = S.ofCases arms
  | .none => by rw [Arms.foldBranches]
  | .default b => by rw [Arms.foldBranches, ofCases, ofCases] <;> exact fun _ _ _ h => nomatch h
  | .case label b rest => by
    rw [Arms.foldBranches, ofCases, ofCases, ofBlock_foldBranches b, ofCases_foldBranches rest]
theorem ofDefault_foldBranches : ∀ arms : Arms, S.ofDefault arms.foldBranches = S.ofDefault arms
  | .none => by rw [Arms.foldBranches]
  | .default b => by rw [Arms.foldBranches, ofDefault, ofDefault, ofBlock_foldBranches b]
  | .case label b rest => by
    rw [Arms.foldBranches, ofDefault, ofDefault, ofDefault_foldBranches rest]
/-- A switch on a literal becomes the arm that it takes. -/
theorem nested_foldTaken (n : Int64) :
    ∀ arms : Arms, S.nested (S.ofBlock (arms.foldTaken n)) = S.ofTaken n arms
  | .none => by
    rw [Arms.foldTaken, Block.empty, ofBlock, ofBody, ofTaken_none]
    exact S.nested_empty
  | .default b => by
    rw [Arms.foldTaken, ofBlock_foldBranches b, ofTaken_default]
  | .case label b rest => by
    rw [Arms.foldTaken, ofTaken_case]
    split
    · rw [ofBlock_foldBranches b]
    · rw [nested_foldTaken n rest]
end

end BlockSemantics

/-- Executing blocks on a machine. -/
def Machine.semantics {W : Type} (m : Machine W) : BlockSemantics where
  Block := Store W → Option (Store W)
  Body := Store W → Option (Store W)
  Continuation := Store W → Option (Store W)
  block vars body st := body (vars.foldl Store.declare st)
  done := some
  instr i rest st := (i.exec m st).bind rest
  cont c rest st := (c st).bind rest
  ifElse condition t e st :=
    match st.read condition with
    | some (.bool b) => if b then t st else e st
    | _ => none
  switch value cases default st :=
    match st.read value with
    | some (.int n) => (((cases.find? (·.1 = n)).map (·.2)).or default).elim some id st
    | _ => none
  deferred _ _ _ := none
  nested := id
  nothing := some
  ifElse_lit b t e := by cases b <;> rfl
  switch_lit _ _ _ := rfl
  nested_empty := rfl

section Exec

variable {W : Type} (m : Machine W)

mutual
/-- **Execution is a semantics of blocks.** -/
theorem ofBlock_semantics : ∀ b : Block, m.semantics.ofBlock b = b.exec m
  | .mk vars body => by
    funext st
    rw [BlockSemantics.ofBlock, Block.exec, ofBody_semantics body]
    rfl
theorem ofBody_semantics : ∀ b : Body, m.semantics.ofBody b = b.exec m
  | .done => by
    funext st
    rfl
  | .instr i rest => by
    funext st
    rw [BlockSemantics.ofBody, Body.exec, ofBody_semantics rest]
    rfl
  | .cont c rest => by
    funext st
    rw [BlockSemantics.ofBody, Body.exec, ofBody_semantics rest, ofContinuation_semantics c]
    rfl
theorem ofContinuation_semantics : ∀ c : Continuation, m.semantics.ofContinuation c = c.exec m
  | .ifElse condition t e => by
    funext st
    rw [BlockSemantics.ofContinuation, Continuation.exec, ofBlock_semantics t, ofBlock_semantics e]
    show (match st.read condition with
      | some (.bool b) => if b then t.exec m st else e.exec m st
      | _ => none) = _
    split <;> split <;> simp_all
  | .switch value arms => by
    funext st
    rw [BlockSemantics.ofContinuation, Continuation.exec]
    have htaken := fun n => ofTaken_semantics n arms
    simp only [← htaken]
    rfl
  | .deferred trigger b => by
    funext st
    rfl
  | .nested b => by
    funext st
    rw [BlockSemantics.ofContinuation, Continuation.exec, ofBlock_semantics b]
    rfl
theorem ofTaken_semantics (n : Int64) : ∀ arms : Arms, m.semantics.ofTaken n arms = arms.exec m n
  | .none => by
    funext st
    rw [BlockSemantics.ofTaken_none, Arms.exec]
    rfl
  | .default b => by
    funext st
    rw [BlockSemantics.ofTaken_default, Arms.exec, ofBlock_semantics b]
    rfl
  | .case label b rest => by
    funext st
    rw [BlockSemantics.ofTaken_case, Arms.exec]
    by_cases hlabel : label = n
    · rw [if_pos hlabel, if_pos hlabel, ofBlock_semantics b]
      rfl
    · rw [if_neg hlabel, if_neg hlabel, ofTaken_semantics n rest]
end

/-- A function does the same after the conditionals on literals were replaced. -/
theorem Function.eval_foldBranches (constants : Constants) (f : Function) (st : Store W) :
    f.foldBranches.eval m constants st = f.eval m constants st := by
  show f.block.foldBranches.exec m _ = f.block.exec m _
  rw [← ofBlock_semantics m, ← ofBlock_semantics m, m.semantics.ofBlock_foldBranches]

end Exec

/-! ## Sites -/

/-- The number of the block that an integer chooses among the blocks of the arms. -/
def Arms.choice? (n : Int64) : Arms → Option Nat
  | .none => .none
  | .default _ => some 0
  | .case label _ rest => if label = n then some 0 else (rest.choice? n).map (· + 1)

namespace Continuation

/-- It is a conditional on a literal: an `if` on a truth value or a `switch` on
an integer. -/
def decides : Continuation → Bool
  | ifElse (.lit (.bool _)) _ _ => true
  | switch (.lit (.int _)) _ => true
  | _ => false

/-- It is a conditional on a literal that does not take the block with the given
number. -/
def discards (k : Nat) : Continuation → Bool
  | ifElse (.lit (.bool b)) _ _ => k ≠ if b then 0 else 1
  | switch (.lit (.int n)) arms => arms.choice? n ≠ some k
  | _ => false

/-- An `if` is on a truth value, or it is left alone. -/
theorem ifElse_cases (condition : Operand) : (∃ b, condition = .lit (.bool b)) ∨ ∀ t e,
    (ifElse condition t e).decides = false ∧ (∀ k, (ifElse condition t e).discards k = false)
      ∧ (ifElse condition t e).foldBranches = .ifElse condition t.foldBranches e.foldBranches
      ∧ (ifElse condition t e).branchesFolded = t.branchesFolded + e.branchesFolded := by
  cases condition with
  | var v => exact .inr fun t e => ⟨rfl, fun _ => rfl, rfl, rfl⟩
  | lit l =>
    cases l with
    | bool b => exact .inl ⟨b, rfl⟩
    | _ => exact .inr fun t e => ⟨rfl, fun _ => rfl, rfl, rfl⟩

/-- A `switch` is on an integer, or it is left alone. -/
theorem switch_cases (value : Operand) : (∃ n, value = .lit (.int n)) ∨ ∀ arms,
    (switch value arms).decides = false ∧ (∀ k, (switch value arms).discards k = false)
      ∧ (switch value arms).foldBranches = .switch value arms.foldBranches
      ∧ (switch value arms).branchesFolded = arms.branchesFolded := by
  cases value with
  | var v => exact .inr fun arms => ⟨rfl, fun _ => rfl, rfl, rfl⟩
  | lit l =>
    cases l with
    | int n => exact .inl ⟨n, rfl⟩
    | _ => exact .inr fun arms => ⟨rfl, fun _ => rfl, rfl, rfl⟩

end Continuation

/-- **A place of a continuation in a tree.** -/
structure Site where
  continuation : Continuation
  /-- The continuations around it, from the inside out, each with the number of
  the block in which the place is. -/
  around : List (Continuation × Nat)

/-- The place is in no block that is dropped. -/
def alive (around : List (Continuation × Nat)) : Bool := around.all fun c => !c.1.discards c.2

/-- The place has a conditional on a literal and is in no block that is dropped. -/
def Site.folds (s : Site) : Bool := s.continuation.decides && alive s.around

mutual
/-- **All places of continuations in a block**, also those in blocks that are
dropped. -/
def Block.sites (around : List (Continuation × Nat)) : Block → List Site
  | .mk _ body => body.sites around
/-- The places of continuations in a body. -/
def Body.sites (around : List (Continuation × Nat)) : Body → List Site
  | .done => []
  | .instr _ rest => rest.sites around
  | .cont c rest => ⟨c, around⟩ :: (c.sites around ++ rest.sites around)
/-- The places inside a continuation. -/
def Continuation.sites (around : List (Continuation × Nat)) : Continuation → List Site
  | .ifElse condition t e =>
    t.sites ((.ifElse condition t e, 0) :: around) ++ e.sites ((.ifElse condition t e, 1) :: around)
  | .switch value arms => arms.sites (.switch value arms) 0 around
  | .deferred trigger b => b.sites ((.deferred trigger b, 0) :: around)
  | .nested b => b.sites ((.nested b, 0) :: around)
/-- The places in arms of a switch, the first of which has the given number. -/
def Arms.sites (whole : Continuation) (k : Nat) (around : List (Continuation × Nat)) :
    Arms → List Site
  | .none => []
  | .default b => b.sites ((whole, k) :: around)
  | .case _ b rest => b.sites ((whole, k) :: around) ++ rest.sites whole (k + 1) around
end

/-! ### No conditional on a literal is left -/

mutual
/-- **No conditional on a literal is left in a folded block**, at any depth. -/
theorem Block.decides_of_mem_sites_foldBranches :
    ∀ (b : Block) (around : List (Continuation × Nat)),
    ∀ s ∈ b.foldBranches.sites around, s.continuation.decides = false
  | .mk _ body, around => Body.decides_of_mem_sites_foldBranches body around
theorem Body.decides_of_mem_sites_foldBranches : ∀ (b : Body) (around : List (Continuation × Nat)),
    ∀ s ∈ b.foldBranches.sites around, s.continuation.decides = false
  | .done, around => List.forall_mem_nil _
  | .instr i rest, around => Body.decides_of_mem_sites_foldBranches rest around
  | .cont c rest, around => by
    obtain ⟨hc, hinside⟩ := Continuation.decides_foldBranches c around
    exact List.forall_mem_cons.2
      ⟨hc, List.forall_mem_append.2 ⟨hinside, Body.decides_of_mem_sites_foldBranches rest around⟩⟩
theorem Continuation.decides_foldBranches :
    ∀ (c : Continuation) (around : List (Continuation × Nat)),
    c.foldBranches.decides = false ∧ ∀ s ∈ c.foldBranches.sites around,
      s.continuation.decides = false
  | .ifElse condition t e, around => by
    rcases Continuation.ifElse_cases condition with ⟨b, rfl⟩ | hplain
    · cases b with
      | true => exact ⟨rfl, Block.decides_of_mem_sites_foldBranches t _⟩
      | false => exact ⟨rfl, Block.decides_of_mem_sites_foldBranches e _⟩
    · rw [(hplain t e).2.2.1, Continuation.sites]
      exact ⟨(hplain _ _).1, List.forall_mem_append.2
        ⟨Block.decides_of_mem_sites_foldBranches t _, Block.decides_of_mem_sites_foldBranches e _⟩⟩
  | .switch value arms, around => by
    rcases Continuation.switch_cases value with ⟨n, rfl⟩ | hplain
    · exact ⟨rfl, Arms.decides_of_mem_sites_foldTaken n arms _⟩
    · rw [(hplain arms).2.2.1, Continuation.sites]
      exact ⟨(hplain _).1, Arms.decides_of_mem_sites_foldBranches arms _ _ around⟩
  | .deferred trigger b, around => ⟨rfl, Block.decides_of_mem_sites_foldBranches b _⟩
  | .nested b, around => ⟨rfl, Block.decides_of_mem_sites_foldBranches b _⟩
theorem Arms.decides_of_mem_sites_foldBranches : ∀ (arms : Arms) (whole : Continuation) (k : Nat)
    (around : List (Continuation × Nat)),
    ∀ s ∈ arms.foldBranches.sites whole k around, s.continuation.decides = false
  | .none, _, _, _ => List.forall_mem_nil _
  | .default b, _, _, _ => Block.decides_of_mem_sites_foldBranches b _
  | .case _ b rest, whole, k, around =>
    List.forall_mem_append.2 ⟨Block.decides_of_mem_sites_foldBranches b _,
      Arms.decides_of_mem_sites_foldBranches rest whole (k + 1) around⟩
theorem Arms.decides_of_mem_sites_foldTaken (n : Int64) :
    ∀ (arms : Arms) (around : List (Continuation × Nat)),
    ∀ s ∈ (arms.foldTaken n).sites around, s.continuation.decides = false
  | .none, around => by
    rw [Arms.foldTaken, Block.empty, Block.sites, Body.sites]
    exact List.forall_mem_nil _
  | .default b, around => Block.decides_of_mem_sites_foldBranches b around
  | .case label b rest, around => by
    rw [Arms.foldTaken]
    split
    · exact Block.decides_of_mem_sites_foldBranches b around
    · exact Arms.decides_of_mem_sites_foldTaken n rest around
end

/-! ### What is counted -/

/-- How many conditionals are replaced in those arms of a switch that are kept,
the first arm having the given number. -/
def Arms.foldedAmong (kept : Nat → Bool) (k : Nat) : Arms → Nat
  | .none => 0
  | .default b => if kept k then b.branchesFolded else 0
  | .case _ b rest => (if kept k then b.branchesFolded else 0) + rest.foldedAmong kept (k + 1)

theorem Arms.foldedAmong_of_all (arms : Arms) (k : Nat) (h : ∀ i, k ≤ i → kept i = true) :
    arms.foldedAmong kept k = arms.branchesFolded := by
  match arms with
  | .none => rw [foldedAmong, branchesFolded]
  | .default b => rw [foldedAmong, branchesFolded, h k (Nat.le_refl k), if_pos rfl]
  | .case label b rest =>
    rw [foldedAmong, branchesFolded, h k (Nat.le_refl k), if_pos rfl,
      rest.foldedAmong_of_all (k + 1) fun i hi => h i (Nat.le_of_succ_le hi)]

theorem Arms.foldedAmong_of_none (arms : Arms) (k : Nat) (h : ∀ i, k ≤ i → kept i = false) :
    arms.foldedAmong kept k = 0 := by
  match arms with
  | .none => rw [foldedAmong]
  | .default b => rw [foldedAmong, h k (Nat.le_refl k), if_neg Bool.false_ne_true]
  | .case label b rest =>
    rw [foldedAmong, h k (Nat.le_refl k), if_neg Bool.false_ne_true,
      rest.foldedAmong_of_none (k + 1) fun i hi => h i (Nat.le_of_succ_le hi)]

/-- If only the arm that an integer chooses is kept, what is replaced is what is
replaced there. -/
theorem Arms.foldedAmong_choice? (n : Int64) (arms : Arms) (k : Nat)
    (h : ∀ i, kept (k + i) = decide (arms.choice? n = some i)) :
    arms.foldedAmong kept k = arms.foldedInTaken n := by
  have hfirst : kept k = decide (arms.choice? n = some 0) := h 0
  match arms with
  | .none => rw [foldedAmong, foldedInTaken]
  | .default b =>
    rw [foldedAmong, foldedInTaken, hfirst]
    rfl
  | .case label b rest =>
    rw [choice?] at h hfirst
    rw [foldedAmong, foldedInTaken, hfirst]
    by_cases hlabel : label = n
    · simp only [if_pos hlabel] at h ⊢
      -- all further arms are dropped
      have hrest : ∀ i, k + 1 ≤ i → kept i = false := fun i hi => by
        obtain ⟨j, rfl⟩ := Nat.exists_eq_add_of_le hi
        rw [Nat.add_assoc, h, decide_eq_false_iff_not, Option.some_inj]
        omega
      rw [rest.foldedAmong_of_none (k + 1) hrest]
      rfl
    · simp only [if_neg hlabel] at h ⊢
      rw [rest.foldedAmong_choice? n (k + 1) fun i => ?_]
      · simp
      · rw [Nat.add_assoc, h]
        simp [Nat.add_comm 1 i]

theorem alive_cons (c : Continuation) (k : Nat) (around : List (Continuation × Nat)) :
    alive ((c, k) :: around) = (!c.discards k && alive around) := rfl

mutual
/-- **The places that count** are the conditionals that are replaced, if the
block is not dropped itself. -/
theorem Block.count_sites : ∀ (b : Block) (around : List (Continuation × Nat)),
    (b.sites around).countP Site.folds = if alive around then b.branchesFolded else 0
  | .mk _ body, around => Body.count_sites body around
theorem Body.count_sites : ∀ (b : Body) (around : List (Continuation × Nat)),
    (b.sites around).countP Site.folds = if alive around then b.branchesFolded else 0
  | .done, around => (ite_self 0).symm
  | .instr i rest, around => Body.count_sites rest around
  | .cont c rest, around => by
    rw [Body.sites, Body.branchesFolded, List.countP_cons,
      List.countP_append, Body.count_sites rest around]
    have hc := Continuation.count_sites c around
    cases halive : alive around with
    | false =>
      rw [halive] at hc
      simp only [Bool.false_eq_true, if_false] at hc ⊢
      omega
    | true =>
      rw [halive] at hc
      simp only [if_true] at hc ⊢
      omega
theorem Continuation.count_sites : ∀ (c : Continuation) (around : List (Continuation × Nat)),
    (c.sites around).countP Site.folds + (if Site.folds ⟨c, around⟩ then 1 else 0)
      = if alive around then c.branchesFolded else 0
  | .ifElse condition t e, around => by
    rw [Continuation.sites, List.countP_append, Block.count_sites t,
      Block.count_sites e, alive_cons, alive_cons]
    unfold Site.folds
    rcases Continuation.ifElse_cases condition with ⟨b, rfl⟩ | hplain
    · cases alive around with
      | false => cases b <;> rfl
      | true =>
        cases b with
        | true => rfl
        | false => exact congrArg (· + 1) (Nat.zero_add _)
    · obtain ⟨hdecides, hdiscards, -, hcount⟩ := hplain t e
      dsimp only
      rw [hdecides, hdiscards, hdiscards, hcount]
      cases alive around <;> rfl
  | .switch value arms, around => by
    rw [Continuation.sites, Arms.count_sites arms]
    unfold Site.folds
    rcases Continuation.switch_cases value with ⟨n, rfl⟩ | hplain
    · have htaken : arms.foldedAmong
        (fun i => !(Continuation.switch (.lit (.int n)) arms).discards i) 0
          = arms.foldedInTaken n :=
        arms.foldedAmong_choice? n 0 fun i => by simp [Continuation.discards]
      rw [htaken]
      cases alive around <;> rfl
    · obtain ⟨hdecides, hdiscards, -, hcount⟩ := hplain arms
      dsimp only
      rw [hdecides, hcount, arms.foldedAmong_of_all 0 fun i _ => by rw [hdiscards, Bool.not_false]]
      rfl
  | .deferred trigger b, around => by
    rw [Continuation.sites, Continuation.branchesFolded, Block.count_sites b]
    rfl
  | .nested b, around => by
    rw [Continuation.sites, Continuation.branchesFolded, Block.count_sites b]
    rfl
theorem Arms.count_sites :
    ∀ (arms : Arms) (whole : Continuation) (k : Nat) (around : List (Continuation × Nat)),
    (arms.sites whole k around).countP Site.folds
      = if alive around then arms.foldedAmong (fun i => !whole.discards i) k else 0
  | .none, whole, k, around => by
    rw [Arms.sites, Arms.foldedAmong]
    exact (ite_self 0).symm
  | .default b, whole, k, around => by
    rw [Arms.sites, Arms.foldedAmong, Block.count_sites b, alive_cons]
    cases alive around <;> cases whole.discards k <;> rfl
  | .case label b rest, whole, k, around => by
    rw [Arms.sites, Arms.foldedAmong, List.countP_append,
      Block.count_sites b, Arms.count_sites rest whole (k + 1) around,
      alive_cons]
    cases alive around <;> cases whole.discards k <;> rfl
end

/-- A folded block has nothing to fold. -/
theorem Block.branchesFolded_foldBranches (b : Block) : b.foldBranches.branchesFolded = 0 := by
  have hcount := b.foldBranches.count_sites []
  rw [List.countP_eq_zero.2 fun s hs => by
    simp [Site.folds, b.decides_of_mem_sites_foldBranches [] s hs]] at hcount
  exact hcount.symm

theorem Function.foldBranches_foldBranches (f : Function) :
    f.foldBranches.foldBranches = f.foldBranches :=
  congrArg (fun b => { f with block := b })
    (f.block.foldBranches.foldBranches_of_zero f.block.branchesFolded_foldBranches)

/-- **Replacing the conditionals on literals keeps what a function means, and
one run is enough.** -/
theorem Pass.constantBranches_run (settings : Settings) (foreign : Foreign) (globals : Constants)
    (f : Function) :
    let run := Pass.constantBranches.runOnFunction settings foreign globals f
    run.result = .ok { branchesFolded := (f.block.sites []).countP Site.folds }
      ∧ { run.subject with block := f.block } = f
      ∧ (∀ S : BlockSemantics.{u}, S.ofBlock run.subject.block = S.ofBlock f.block)
      ∧ (∀ s ∈ run.subject.block.sites [], s.continuation.decides = false)
      ∧ Pass.constantBranches.runOnFunction settings foreign globals run.subject
        = ⟨.constantBranches, run.subject, [], .ok {}⟩ := by
  refine ⟨?_, rfl, fun S => S.ofBlock_foldBranches f.block,
    f.block.decides_of_mem_sites_foldBranches [], ?_⟩
  · rw [f.block.count_sites []]
    rfl
  · show (⟨.constantBranches, f.foldBranches.foldBranches, [],
      .ok { branchesFolded := f.block.foldBranches.branchesFolded }⟩ : Pass.Run Function) = _
    rw [f.block.branchesFolded_foldBranches, f.foldBranches_foldBranches]
    rfl

end ValueFlow
