import ValueFlow.Proofs.Invalidation
import ValueFlow.Proofs.Representatives

/-!
# Entries that hide nothing

A walk enters the value of a signature only if none is known. So an entry of the
innermost scope, unless this is the scope of a deferred block, hides nothing
that the scopes outside have to offer (`Congruence.offered?`), or the scope has
written what the signature reads and it is right to hide it. This is what
`Congruence.Guarded` says, and every step of a walk keeps it
(`Numbering.upheld_guarded`).

No more is needed to know what the innermost scope can do to the values outside:
it hides those that read what it wrote, and no others.
-/

namespace ValueFlow

namespace Congruence

variable {c c' : Congruence} {aliases : AliasMap} {writes : List Location} {sig : Signature}

/-- **What scopes offer as the value of a signature**, where no poison is in the
way. -/
def offered? (aliases : AliasMap) (writes : List Location) (sig : Signature) (scopes : List Scope) :
    Option Operand :=
  (find? sig false scopes).bind fun found =>
    if found.2 && (sig.location? aliases).any
      fun l => writes.any (·.overlaps l) then none else found.1

/-- A value is known if it is offered and its storage is reliable. -/
theorem lookup_eq_offered? (c : Congruence) :
    c.lookup aliases writes sig
      = if c.readsPoisoned aliases sig then none else offered? aliases writes sig c.scopes :=
  lookup_eq c aliases writes sig

theorem offered?_congr {sig' : Signature} (h : sig.key = sig'.key) (scopes : List Scope) :
    offered? aliases writes sig scopes = offered? aliases writes sig' scopes := by
  unfold offered?
  rw [find?_congr h, Signature.location?_congr h]

/-- The innermost scope is asked first. -/
theorem offered?_of_get? {scope : Scope} {outer : List Scope} {entry : Option Operand}
    (h : scope.values.get? sig = some entry) :
    offered? aliases writes sig (scope :: outer) = entry := by
  unfold offered?
  rw [find?, h]
  rfl

/-- A scope that says nothing about the signature passes on what is offered
outside, unless its block is deferred. -/
theorem offered?_of_get?_eq_none {scope : Scope} {outer : List Scope}
    (hkind : scope.kind ≠ .deferred) (h : scope.values.get? sig = none) :
    offered? aliases writes sig (scope :: outer) = offered? aliases writes sig outer := by
  unfold offered?
  rw [find?, h, decide_eq_false hkind]
  rfl

/-- What is offered is found. -/
theorem offered?_eq_some_iff {scopes : List Scope} {rep : Operand} :
    offered? aliases writes sig scopes = some rep ↔ ∃ crossed,
      find? sig false scopes = some (some rep, crossed)
      ∧ (crossed && (sig.location? aliases).any fun l => writes.any (·.overlaps l)) = false := by
  unfold offered?
  rw [Option.bind_eq_some_iff]
  constructor
  · rintro ⟨⟨entry, crossed⟩, hfind, hentry⟩
    split at hentry
    · cases hentry
    · rename_i hcross
      obtain rfl : entry = some rep := hentry
      exact ⟨crossed, hfind, Bool.not_eq_true _ ▸ hcross⟩
  · rintro ⟨crossed, hfind, hcross⟩
    refine ⟨_, hfind, ?_⟩
    rw [hcross]
    rfl

/-- **The entries of the innermost scope are guarded**: an entry hides nothing
that is offered outside, or the scope wrote what the signature reads. A deferred
block is no exception that matters, since its entries end with it. -/
def Guarded (aliases : AliasMap) (writes : List Location) (c : Congruence) : Prop :=
  c.top.kind ≠ .deferred → ∀ sig, (c.top.values.get? sig).isSome = true →
    offered? aliases writes sig c.outer = none ∨ ∃ l ∈ c.top.invalidated, reads aliases l sig = true

/-- **New entries are guarded** if they hide nothing, or what they hide was
overwritten. -/
theorem Guarded.insertAll (h : c.Guarded aliases writes)
    {entries : List (Signature × Option Operand)}
    (ho : c'.outer = c.outer) (hk : c'.top.kind = c.top.kind)
    (hi : c.top.invalidated ⊆ c'.top.invalidated)
    (hv : c'.top.values = c.top.values.insertAll entries)
    (hentries : ∀ e ∈ entries, offered? aliases writes e.1 c.scopes = none
      ∨ ∃ l ∈ c'.top.invalidated, reads aliases l e.1 = true) : c'.Guarded aliases writes := by
  intro hkind sig hsome
  rw [hk] at hkind
  rw [ho]
  have hold : (c.top.values.get? sig).isSome = true → offered? aliases writes sig c.outer = none
      ∨ ∃ l ∈ c'.top.invalidated, reads aliases l sig = true := fun hsome =>
    (h hkind sig hsome).imp_right fun ⟨l, hl, hreads⟩ => ⟨l, hi hl, hreads⟩
  obtain ⟨entry, hget⟩ := Option.isSome_iff_exists.1 hsome
  rw [hv] at hget
  rcases Table.get?_insertAll_eq_some hget with ⟨e, he, hkey, -⟩ | ⟨-, hget⟩
  · rcases hentries e he with hnone | ⟨l, hl, hreads⟩
    · cases hget : c.top.values.get? sig with
      | some entry => exact hold (hget ▸ rfl)
      | none =>
        left
        rw [← offered?_of_get?_eq_none hkind hget, ← offered?_congr hkey]
        exact hnone
    · exact .inr ⟨l, hl, (reads_congr hkey aliases l).symm.trans hreads⟩
  · exact hold (hget ▸ rfl)

theorem Guarded.of_values (h : c.Guarded aliases writes) (ho : c'.outer = c.outer)
    (hk : c'.top.kind = c.top.kind) (hi : c'.top.invalidated = c.top.invalidated)
    (hv : c'.top.values = c.top.values) : c'.Guarded aliases writes :=
  h.insertAll ho hk (fun _ hl => hi ▸ hl) (hv.trans (Table.insertAll_nil _).symm)
    (List.forall_mem_nil _)

theorem Guarded.closeAll (h : c.Guarded aliases writes) (vars : List Var) :
    (vars.foldl close c).Guarded aliases writes := by
  obtain ⟨hlevel, -, hinvalidated, -, hvalues, -⟩ := foldl_close_spec vars c
  exact h.of_values hlevel.outer hlevel.kind hinvalidated hvalues

theorem guarded_push (kind : ScopeKind) (c : Congruence) : (c.push kind).Guarded aliases writes :=
  fun _ _ h => nomatch h

theorem Guarded.invalidate (h : c.Guarded aliases writes) (l : Location) :
    (c.invalidate aliases l).2.Guarded aliases writes := by
  refine h.insertAll rfl rfl (List.subset_append_left _ _) rfl fun e he => .inr ⟨l, ?_, ?_⟩
  · exact List.mem_append_right _ (List.mem_singleton_self l)
  · obtain ⟨sig, hsig, rfl⟩ := List.mem_map.1 he
    obtain ⟨-, -, e, -, -, hreads, rfl⟩ := mem_affected.1 hsig
    exact hreads

theorem Guarded.invalidateAll (h : c.Guarded aliases writes) (ls : List Location) :
    (ls.foldl (fun c l => (c.invalidate aliases l).2) c).Guarded aliases writes := by
  induction ls generalizing c with
  | nil => exact h
  | cons l ls ih => exact ih (h.invalidate l)

/-- **A value that is entered because none is known** hides nothing. -/
theorem Guarded.record (h : c.Guarded aliases writes) (hnone : c.lookup aliases writes sig = none)
    (rep : Operand) : (c.record aliases sig rep).2.Guarded aliases writes := by
  rw [lookup_eq_offered?] at hnone
  unfold Congruence.record
  split
  · exact h
  · rename_i hpoison
    rw [if_neg hpoison] at hnone
    exact h.insertAll rfl rfl (List.Subset.refl _) rfl
      (List.forall_mem_singleton.2 (.inl hnone) : ∀ e ∈ [(sig, some rep)], _)

theorem Guarded.mergeNested {child : Scope} (h : c.Guarded aliases writes)
    (hchild : Guarded aliases writes ⟨child, c.scopes⟩) (hkind : child.kind = .nested) :
    (c.mergeNested child).Guarded aliases writes := by
  refine h.insertAll rfl rfl (List.subset_append_left _ _) rfl fun e he => ?_
  have hget : child.values.get? e.1 = some e.2 := Table.get?_of_mem (List.mem_filter.1 he).1
  refine (hchild (hkind ▸ nofun) e.1 (hget ▸ rfl)).imp_right fun ⟨l, hl, hreads⟩ => ?_
  exact ⟨l, List.mem_append_right _ hl, hreads⟩

theorem Guarded.absorbArms (h : c.Guarded aliases writes) (arms : List Scope) :
    (arms.foldl (absorbArm aliases) c).Guarded aliases writes := by
  induction arms generalizing c with
  | nil => exact h
  | cons arm arms ih => exact ih ((h.invalidateAll arm.invalidated).of_values rfl rfl rfl rfl)

/-- What is offered behind the writes of arms was offered before. -/
theorem offered?_absorbArms {arms : List Scope} (h : offered? aliases writes sig c.scopes = none) :
    offered? aliases writes sig (arms.foldl (absorbArm aliases) c).scopes = none := by
  rw [Option.eq_none_iff_forall_not_mem] at h ⊢
  intro rep hrep
  obtain ⟨crossed, hfind, hcross⟩ := offered?_eq_some_iff.1 hrep
  exact h rep (offered?_eq_some_iff.2 ⟨crossed, (find?_absorbArms hfind).1, hcross⟩)

theorem Guarded.mergeBranches {arms : List Scope} (h : c.Guarded aliases writes)
    (harms : ∀ arm ∈ arms, arm.kind = .branch ∧ Guarded aliases writes ⟨arm, c.scopes⟩)
    (keep : Bool) : (c.mergeBranches aliases keep arms).2.Guarded aliases writes := by
  have habsorbed := h.absorbArms arms
  rcases mergeBranches_cases aliases keep arms c with heq | ⟨first, rest, rfl, heq⟩
  · rwa [heq]
  · rw [heq]
    refine habsorbed.insertAll rfl rfl (List.Subset.refl _) rfl fun e he => ?_
    obtain ⟨common, hcommon, rfl⟩ := List.mem_map.1 he
    obtain ⟨hkind, hfirst⟩ := harms first List.mem_cons_self
    obtain ⟨rep, hget, -⟩ := get?_of_mem_commonValues hcommon first List.mem_cons_self
    refine (hfirst (hkind ▸ nofun) common.1 (hget ▸ rfl)).imp offered?_absorbArms
      fun ⟨l, hl, hreads⟩ => ?_
    obtain ⟨-, -, -, -, -, hinvalidated, -⟩ := absorbArms_spec aliases (first :: rest) c
    refine ⟨l, ?_, hreads⟩
    show l ∈ ((first :: rest).foldl (absorbArm aliases) c).top.invalidated
    rw [hinvalidated]
    exact List.mem_append_right _ (List.mem_flatMap.2 ⟨first, List.mem_cons_self, hl⟩)

end Congruence

namespace Numbering

variable {ctx : Context} {block : Nat} {s : State}

/-- **What one value does to the facts**: nothing, or a representative is set,
or a value is entered for a signature that none is known for. -/
theorem facts_bind_cases (ctx : Context) (block : Nat) (removable : Bool) (s : State)
    (value : Signature × Binding) :
    let facts := (bind ctx block removable s value).facts
    facts = s.facts ∨ (∃ out rep, facts = s.facts.setCanonical out rep)
      ∨ ∃ sig rep, s.facts.lookup ctx.aliases ctx.writes sig = none
        ∧ facts = (s.facts.record ctx.aliases sig rep).2 := by
  obtain ⟨sig, binding⟩ := value
  unfold bind
  cases binding with
  | output out =>
    rcases bindOutput_cases ctx block removable (s.facts.canonicalize sig) out s with
      heq | ⟨rep, -, -, hfacts, -⟩ | ⟨-, hfinds, heq⟩
    · simp only [heq, facts_resolve, true_or]
    · exact .inr (.inl ⟨out, rep, hfacts⟩)
    · simp only [heq]
      refine .inr (.inr ⟨_, _, Option.eq_none_iff_forall_not_mem.2 fun rep hrep => ?_, rfl⟩)
      cases hresolve : (resolve ctx (s.facts.canonicalize sig) s).1 with
      | some rep => exact hfinds rep (.inl hresolve)
      | none => exact hfinds rep (.inr ⟨hresolve, hrep⟩)
  | known src =>
    rcases bindKnown_cases ctx (s.facts.canonicalize sig) src s with heq | ⟨-, hnone, heq⟩
    · simp only [heq, true_or]
    · simp only [heq]
      exact .inr (.inr ⟨_, _, hnone, rfl⟩)

theorem guarded_bind (removable : Bool) (value : Signature × Binding)
    (h : s.facts.Guarded ctx.aliases ctx.writes) :
    (bind ctx block removable s value).facts.Guarded ctx.aliases ctx.writes := by
  rcases facts_bind_cases ctx block removable s value
    with heq | ⟨out, rep, heq⟩ | ⟨sig, rep, hnone, heq⟩
  · rwa [heq]
  · rw [heq]
    exact h.of_values rfl rfl rfl rfl
  · rw [heq]
    exact h.record hnone rep

theorem guarded_visitInstruction {i : Instruction} (h : s.facts.Guarded ctx.aliases ctx.writes)
    (hf : (visitInstruction ctx block i s).fault = none) :
    (visitInstruction ctx block i s).state.facts.Guarded ctx.aliases ctx.writes := by
  obtain ⟨facts, removable, values, -, hdefine, -, -, hfacts⟩ := visitInstruction_facts hf
  obtain ⟨hcarried, -⟩ := carriedOut_phases ctx i facts s
  obtain ⟨rfl, -, -⟩ := Congruence.foldlM_define_eq_ok hdefine
  have hbound : ∀ (values : List (Signature × Binding)) {s : State},
      s.facts.Guarded ctx.aliases ctx.writes →
      (values.foldl (bind ctx block removable) s).facts.Guarded ctx.aliases ctx.writes :=
        fun values => by
    induction values with
    | nil => exact id
    | cons value values ih => exact fun hs => ih (guarded_bind removable value hs)
  have hdefined : Congruence.Guarded ctx.aliases ctx.writes
      { s.facts with top.defined := (i.assigned.map (·.name)).reverse ++ s.facts.top.defined } :=
    h.of_values rfl rfl rfl rfl
  rw [hfacts]
  refine Congruence.Guarded.closeAll (hbound values ?_) _
  rw [hcarried]
  exact hdefined.invalidateAll _

/-- **All along a walk, entries are guarded.** -/
theorem upheld_guarded (R : Requirement) :
    Upheld ctx R (fun s => s.facts.Guarded ctx.aliases ctx.writes) where
  quiet hs hq := hq.facts ▸ hs
  declare {s vars} hs _ := by
    obtain ⟨ho, hk, -, -, hv, hi, -⟩ := foldl_declare_spec vars s.facts
    exact hs.of_values ho hk hi hv
  instruction hs _ hf := guarded_visitInstruction hs hf
  push kind _ := Congruence.guarded_push kind _
  defer {s t} _ _ _ hf := fun hkind => absurd (kind_enterDeferred hf) hkind
  nested hs hs' ho hk := hs.mergeNested (ho ▸ hs') hk
  deferred hs _ _ := hs.of_values rfl rfl rfl rfl
  arm hs _ _ := hs
  branches {s arms} hs harms := by
    refine hs.mergeBranches (fun arm harm => ?_) _
    obtain ⟨hk, s', hs', hfacts⟩ := harms arm harm
    exact ⟨hk, hfacts ▸ hs'⟩

end Numbering

end ValueFlow
