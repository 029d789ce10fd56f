import ValueFlow.Proofs.Scopes

/-!
# A write ends what it overwrites, and nothing else

What is known about some storage may be known in any of the open scopes. A write
changes the innermost one only: it enters there that the values are known no
longer, and so hides what the scopes outside say. Two things are to be said
about this (`Congruence.invalidate_exact`): every value that reads the written
storage is hidden, in whatever scope it was entered, and every other answer of
the scopes stays as it was.

Both hold as well in scopes that are opened afterwards. `Congruence.inside` puts
scopes on top of a stack, whatever these scopes say themselves. What they say
comes first, so a value that was entered in one of them again is found there,
and everything else is as without them.
-/

namespace ValueFlow.Congruence

variable {c : Congruence} {aliases : AliasMap} {writes : List Location}
  {l : Location} {sig : Signature}

/-- **The facts inside more scopes**, which are given from the inside out. -/
def inside (c : Congruence) : List Scope → Congruence
  | [] => c
  | scope :: rest => ⟨scope, rest ++ c.scopes⟩

@[simp] theorem scopes_inside (c : Congruence) (inner : List Scope) :
    (c.inside inner).scopes = inner ++ c.scopes := by
  cases inner <;> rfl

theorem depth_eq_length (c : Congruence) : c.depth = c.scopes.length := rfl

/-- Scopes that are entered one after the other are scopes without facts on top. -/
theorem scopes_foldl_push (kinds : List ScopeKind) (c : Congruence) :
    (kinds.foldl push c).scopes = kinds.reverse.map Scope.new ++ c.scopes := by
  induction kinds generalizing c with
  | nil => rfl
  | cons kind kinds ih =>
    show (kinds.foldl push (c.push kind)).scopes = _
    rw [ih, List.reverse_cons, List.map_append, List.append_assoc]
    rfl

/-- Facts are told by their scopes. -/
theorem eq_of_scopes {c c' : Congruence} (h : c.scopes = c'.scopes) : c = c' := by
  cases c
  cases c'
  exact congr (congrArg Congruence.mk (List.cons.inj h).1) (List.cons.inj h).2

theorem foldl_push (kinds : List ScopeKind) (c : Congruence) :
    kinds.foldl push c = c.inside (kinds.reverse.map Scope.new) :=
  eq_of_scopes ((scopes_foldl_push kinds c).trans (scopes_inside c _).symm)

/-! ## What is found through more scopes -/

/-- What is found does not depend on whether a deferred block was crossed before. -/
theorem find?_crossing (sig : Signature) (crossed : Bool) (scopes : List Scope) :
    find? sig crossed scopes = (find? sig false scopes).map
      fun found => (found.1, crossed || found.2) := by
  induction scopes generalizing crossed with
  | nil => rfl
  | cons scope rest ih =>
    rw [find?, find?]
    cases scope.values.get? sig with
    | some entry => exact congrArg (fun b => some (entry, b)) (Bool.or_false crossed).symm
    | none =>
      show find? sig (crossed || scope.kind = .deferred) rest
        = (find? sig (false || scope.kind = .deferred) rest).map _
      rw [ih, ih (false || _), Option.map_map]
      congr 1
      funext found
      show (found.1, (crossed || decide (scope.kind = .deferred)) || found.2)
        = (found.1, crossed || ((false || decide (scope.kind = .deferred)) || found.2))
      rw [Bool.false_or, Bool.or_assoc]

/-- **Inner scopes are asked first.** -/
theorem find?_append (sig : Signature) (crossed : Bool) (inner outer : List Scope) :
    find? sig crossed (inner ++ outer) = (find? sig crossed inner).or
      (find? sig (crossed || inner.any (·.kind = .deferred)) outer) := by
  induction inner generalizing crossed with
  | nil =>
    rw [List.nil_append, List.any_nil, Bool.or_false]
    rfl
  | cons scope inner ih =>
    rw [List.cons_append, find?, find?, List.any_cons, ← Bool.or_assoc]
    cases scope.values.get? sig with
    | some entry => rfl
    | none => exact ih _

theorem find?_eq_none_iff {crossed : Bool} {scopes : List Scope} :
    find? sig crossed scopes = none
      ↔ scopes.all (fun scope => !scope.values.contains sig) = true := by
  induction scopes generalizing crossed with
  | nil => exact iff_of_true rfl rfl
  | cons scope rest ih =>
    rw [find?, List.all_cons, Bool.and_eq_true, Table.contains]
    cases scope.values.get? sig with
    | some entry => exact iff_of_false (Option.some_ne_none _) fun h => Bool.false_ne_true h.1
    | none => exact ih.trans (and_iff_right rfl).symm

/-- The look-up in terms of what is found: poisoned storage and storage that is
written across a deferred block are sorted out. -/
theorem lookup_eq (c : Congruence) (aliases : AliasMap) (writes : List Location) (sig : Signature) :
    c.lookup aliases writes sig = if c.readsPoisoned aliases sig then none
      else (find? sig false c.scopes).bind fun found =>
        if found.2 && (sig.location? aliases).any fun l => writes.any (·.overlaps l) then none
          else found.1 := by
  unfold lookup
  split
  · rfl
  · cases find? sig false c.scopes <;> rfl

/-! ## What a write leaves in the innermost scope -/

/-- A signature that reads what was written is found without a value, if at all. -/
theorem find?_invalidate_of_reads (h : reads aliases l sig = true) {entry : Option Operand}
    {crossed crossed' : Bool}
    (hfind : find? sig crossed (c.invalidate aliases l).2.scopes = some (entry, crossed')) :
    entry = none := by
  cases entry with
  | none => rfl
  | some rep =>
    rw [find?_crossing] at hfind
    obtain ⟨⟨found, crossed₀⟩, hfind, heq⟩ := Option.map_eq_some_iff.1 hfind
    obtain rfl : found = some rep := (Prod.mk.inj heq).1
    rw [(find?_invalidate hfind).2] at h
    cases h

/-- **What the write does not end is found as before.** -/
theorem find?_invalidate_of_not_reads (h : reads aliases l sig = false) (crossed : Bool) :
    find? sig crossed (c.invalidate aliases l).2.scopes = find? sig crossed c.scopes := by
  have hkeys : ∀ e ∈ (c.affected aliases l).map (·, (none : Option Operand)),
      Keyed.key e.1 ≠ Keyed.key sig := by
    intro e he hkey
    obtain ⟨sig', hsig', rfl⟩ := List.mem_map.1 he
    obtain ⟨-, -, e', -, -, hreads, rfl⟩ := mem_affected.1 hsig'
    rw [reads_congr hkey, h] at hreads
    cases hreads
  have hget : (c.invalidate aliases l).2.top.values.get? sig = c.top.values.get? sig :=
    Table.get?_insertAll_of_not_mem c.top.values hkeys
  have hfind : find? sig false (c.invalidate aliases l).2.scopes = find? sig false c.scopes :=
    find?_eq_of_top rfl rfl hget
  rw [find?_crossing, find?_crossing sig crossed c.scopes, hfind]

/-! ## What a write leaves alone -/

/-- Poison depends on the poisoned locations of the scopes only. -/
theorem readsPoisoned_inside_invalidate (inner : List Scope) (sig : Signature) :
    ((c.invalidate aliases l).2.inside inner).readsPoisoned aliases sig
      = (c.inside inner).readsPoisoned aliases sig := by
  unfold readsPoisoned
  congr 1
  funext m
  unfold isPoisoned
  rw [scopes_inside, scopes_inside, List.any_append, List.any_append]
  rfl

theorem representative?_inside_invalidate (inner : List Scope) (v : Var) :
    ((c.invalidate aliases l).2.inside inner).representative? v
      = (c.inside inner).representative? v := by
  unfold representative?
  rw [scopes_inside, scopes_inside, List.findSome?_append, List.findSome?_append]
  rfl

/-- Chains of representatives lead to the same end in stacks with the same
representatives. -/
theorem follow_eq_of_representative? {c' : Congruence}
    (h : ∀ v, c'.representative? v = c.representative? v) (n : Nat) (rep : Operand) :
    c'.follow n rep = c.follow n rep := by
  induction n generalizing rep with
  | zero => rfl
  | succ n ih =>
    have hnext : rep.var?.bind c'.representative? = rep.var?.bind c.representative? :=
      congrArg rep.var?.bind (funext h)
    rw [follow, follow, hnext]
    cases rep.var?.bind c.representative? with
    | none => rfl
    | some next => exact congrArg (fun end' => if next.same rep then rep else end') (ih next)

theorem canonical?_inside_invalidate (inner : List Scope) (v : Var) :
    ((c.invalidate aliases l).2.inside inner).canonical? v = (c.inside inner).canonical? v := by
  have hdepth : ((c.invalidate aliases l).2.inside inner).depth = (c.inside inner).depth := by
    rw [depth_eq_length, depth_eq_length, scopes_inside,
      scopes_inside, List.length_append, List.length_append]
    rfl
  unfold canonical?
  rw [representative?_inside_invalidate, hdepth]
  congr 1
  funext rep
  exact follow_eq_of_representative? (representative?_inside_invalidate inner) _ rep

/-- **The look-up inside more scopes.** A value that reads the written storage
is not known, unless one of these scopes speaks about it; every other look-up
has the answer that it would have without the write. -/
theorem lookup_inside_invalidate (inner : List Scope) (sig : Signature) :
    ((c.invalidate aliases l).2.inside inner).lookup aliases writes sig
      = if reads aliases l sig && inner.all (fun scope => !scope.values.contains sig) then none
        else (c.inside inner).lookup aliases writes sig := by
  rw [lookup_eq, lookup_eq, readsPoisoned_inside_invalidate,
    scopes_inside, scopes_inside, find?_append, find?_append]
  cases hreads : reads aliases l sig with
  | false =>
    rw [find?_invalidate_of_not_reads hreads]
    rfl
  | true =>
    cases hinner : find? sig false inner with
    | some found =>
      -- one of the inner scopes speaks about the signature
      have hall : inner.all (fun scope => !scope.values.contains sig) = false := by
        rw [Bool.eq_false_iff]
        exact fun hall => nomatch hinner.symm.trans (find?_eq_none_iff.2 hall)
      rw [hall]
      rfl
    | none =>
      rw [find?_eq_none_iff.1 hinner, Option.none_or]
      show (if _ then none else _) = none
      split
      · rfl
      · cases hfind : find? sig (false || inner.any (·.kind = .deferred))
            (c.invalidate aliases l).2.scopes with
        | none => rfl
        | some found =>
          have hnone : found.1 = none := find?_invalidate_of_reads hreads hfind
          show (if _ then none else found.1) = none
          rw [hnone, ite_self]

/-- **A write ends exactly what it overwrites**, in any stack of scopes.

* The look-up of a signature that reads overlapping storage gives nothing behind
  the write, and every other look-up what it gave before, there and in whatever
  scopes are entered from then on.
* More generally, let any scopes be open inside, with whatever facts were
  entered in them. Then a signature that reads overlapping storage is known only
  if one of them speaks about it; all other look-ups, the canonical
  representatives, and what is closed and declared are as if nothing had been
  written. -/
theorem invalidate_exact (c : Congruence) (aliases : AliasMap) (writes : List Location)
    (l : Location) :
    let after := (c.invalidate aliases l).2
    (∀ (kinds : List ScopeKind) (sig : Signature),
      (kinds.foldl push after).lookup aliases writes sig
      = if reads aliases l sig then none else (kinds.foldl push c).lookup aliases writes sig)
    ∧ ∀ inner : List Scope,
      (∀ sig, (after.inside inner).lookup aliases writes sig
        = if reads aliases l sig && inner.all (fun scope => !scope.values.contains sig) then none
          else (c.inside inner).lookup aliases writes sig)
      ∧ (∀ v, (after.inside inner).canonical? v = (c.inside inner).canonical? v)
      ∧ (∀ v, (after.inside inner).isClosed v = (c.inside inner).isClosed v)
      ∧ ∀ v, (after.inside inner).isDeclared v = (c.inside inner).isDeclared v := by
  intro after
  refine ⟨fun kinds sig => ?_,
    fun inner => ⟨lookup_inside_invalidate inner, canonical?_inside_invalidate inner,
    fun v => ?_, fun v => ?_⟩⟩
  · have hall : (kinds.reverse.map Scope.new).all (fun scope => !scope.values.contains sig)
        = true := by
      refine List.all_eq_true.2 fun scope hscope => ?_
      obtain ⟨kind, -, rfl⟩ := List.mem_map.1 hscope
      rfl
    rw [foldl_push, foldl_push, lookup_inside_invalidate, hall, Bool.and_true]
  · unfold isClosed
    rw [scopes_inside, scopes_inside, List.any_append, List.any_append]
    rfl
  · unfold isDeclared
    rw [scopes_inside, scopes_inside, List.any_append, List.any_append]
    rfl

end ValueFlow.Congruence
