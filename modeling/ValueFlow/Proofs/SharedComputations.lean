import ValueFlow.Proofs.AliasLocations
import ValueFlow.Proofs.FreshValues
import ValueFlow.Proofs.GuardedEntries

/-!
# Computations are shared across writes

An instruction whose signature was computed before takes over the earlier
output. A write ends what is known about the signatures that read storage, and
these only: any other signature, once its value is known, keeps it to the end of
the block, whatever is written in between (`upheld_recalls`). So two
instructions with the same signature compute the same value only as long as no
write touches a variable of the signature.

For a stable variable this can be told from the writes alone: a write touches it
if it goes to a part of the very variable, and no other write does
(`AliasMap.touches_iff_of_isStable`). A variable that is not stable is no
representative, so it enters a signature only as an operand that the instruction
itself names. Such operands, and containers whose parts are stored into, are
what a shared computation may have read before the write
(`shared_across_write`).
-/

namespace ValueFlow

/-! ## Writes that touch a variable -/

namespace AliasMap

/-- **A write touches a variable** if what is written may share storage with it. -/
def touches (m : AliasMap) (target : Var × List Step) (v : Var) : Bool :=
  (m.written? target.1 target.2).any (·.overlaps (m.location v))

variable {m : AliasMap} {v : Var}

/-- Following facts ends where it starts or at a parent. -/
theorem root_follow (n : Nat) (facts : List Alias) (name : String) (path : List Step) :
    (follow n facts name path).root = name ∨ ∃ a ∈ facts,
      a.parent.name = (follow n facts name path).root := by
  induction n generalizing facts name path with
  | zero => exact .inl rfl
  | succ n ih =>
    cases hfind : facts.find? (·.child.name = name) with
    | none =>
      rw [follow_of_find?_eq_none hfind]
      exact .inl rfl
    | some a =>
      simp only [follow, hfind]
      rcases ih (facts.filter (·.child.name ≠ name)) a.parent.name (a.path ++ path)
        with hroot | ⟨b, hb, hroot⟩
      · exact .inr ⟨a, List.mem_of_find?_eq_some hfind, hroot.symm⟩
      · exact .inr ⟨b, (List.mem_filter.1 hb).1, hroot⟩

/-- A variable that takes part in no fact denotes itself. -/
theorem location_of_mentions_eq_false (h : m.mentions v = false) : m.location v = ⟨v.name, []⟩ := by
  refine follow_of_find?_eq_none (List.find?_eq_none.2 fun a ha hchild => ?_) _ _
  have hnone := List.any_eq_false.1 h a ha
  rw [Bool.or_eq_true, not_or] at hnone
  exact hnone.2 hchild

/-- **Storage of a variable that takes part in no fact is its own.** -/
theorem overlaps_of_mentions_eq_false (h : m.mentions v = false) (w : Var) (steps : List Step) :
    ((m.location w).extend steps).overlaps (m.location v) = true ↔ w.name = v.name := by
  rw [location_of_mentions_eq_false h, Location.overlaps,
    List.zip_nil_right, List.all_nil, Bool.and_true,
    decide_eq_true_eq]
  constructor
  · intro hroot
    rcases root_follow m.facts.length m.facts w.name [] with hself | ⟨a, ha, hparent⟩
    · exact hself.symm.trans hroot
    · -- the root would be a parent, and the variable takes part in no fact
      have hnone := List.any_eq_false.1 h a ha
      rw [Bool.or_eq_true, not_or] at hnone
      exact absurd (decide_eq_true (hparent.trans hroot)) hnone.1
  · intro hname
    have hw : m.mentions w = false := by
      rw [← h]
      unfold mentions
      rw [hname]
    rw [location_of_mentions_eq_false hw]
    exact hname

/-- A write counts unless it is the assignment of a stable variable. -/
theorem written?_eq_some {w : Var} {steps : List Step} {l : Location} :
    m.written? w steps = some l ↔ (m.location w).extend steps = l
      ∧ (steps ≠ [] ∨ m.isStable w = false) := by
  unfold written?
  cases steps with
  | nil => cases m.isStable w <;> simp
  | cons step steps => simp

/-- **A stable variable is touched by writes to its own parts only.** A write to
the variable as a whole is its defining assignment, unless it is made under data
by which it is not stable. -/
theorem touches_iff_of_isStable (h : m.isStable v = true) (target : Var × List Step) :
    m.touches target v = true ↔ target.1.name = v.name
      ∧ (target.2 ≠ [] ∨ m.isStable target.1 = false) := by
  obtain ⟨-, hmentions⟩ := Bool.and_eq_true_iff.1 h
  rw [Bool.not_eq_true'] at hmentions
  rw [touches, Option.any_eq_true, ← overlaps_of_mentions_eq_false hmentions target.1 target.2]
  constructor
  · rintro ⟨l, hl, hoverlaps⟩
    obtain ⟨rfl, hcounts⟩ := written?_eq_some.1 hl
    exact ⟨hoverlaps, hcounts⟩
  · rintro ⟨hoverlaps, hcounts⟩
    exact ⟨_, written?_eq_some.2 ⟨rfl, hcounts⟩, hoverlaps⟩

end AliasMap

/-! ## Values that writes do not end -/

namespace Instruction

/-- The instruction computes values from its operands, by a builtin operation or
a foreign function. -/
def computes : Instruction → Bool
  | compute .. | call .. => true
  | _ => false

/-- **What is computed from operands is not read out of storage**, not even
where an operand names storage. -/
theorem isRetrieve_of_computes {i : Instruction} (hi : i.computes = true) {foreign : Foreign}
    {values : List (Signature × Binding)} (h : i.signatures foreign = .ok values) :
    ∀ value ∈ values, value.1.isRetrieve = false := by
  have hmake : ∀ {op : Opcode} (inputs : List Operand) (commutative : Bool), op.readPath? = none →
      (Signature.make op inputs commutative).isRetrieve = false := fun inputs commutative hop => by
    rw [Signature.isRetrieve, Signature.make, Signature.op_normalize, hop]
    rfl
  intro value hvalue
  cases i with
  | compute timing op dst inputs =>
    cases h
    obtain rfl := List.mem_singleton.1 hvalue
    exact hmake inputs _ rfl
  | call timing function outs inputs =>
    obtain ⟨op, commutative, hop, out, -, rfl⟩ := signatures_call h value hvalue
    exact hmake inputs commutative hop
  | _ => cases hi

theorem computes_mapOperands (i : Instruction) (f : Role → Operand → Operand) :
    (i.mapOperands f).computes = i.computes := by
  cases i <;> rfl

end Instruction

theorem Signature.location?_of_isRetrieve_eq_false {sig : Signature} (h : sig.isRetrieve = false)
    (aliases : AliasMap) : sig.location? aliases = none := by
  have hpath : sig.op.readPath? = none := Option.not_isSome_iff_eq_none.1 (Bool.not_eq_true _ ▸ h)
  unfold location?
  rw [hpath]
  cases sig.inputs.head? with
  | none => rfl
  | some a => cases a <;> rfl

namespace Congruence

variable {aliases : AliasMap} {writes : List Location} {c c' : Congruence}
  {sig sig' : Signature} {rep : Operand}
  {x : Var}

/-- What the scopes give is found, whether or not a deferred block lies in
between. -/
theorem find?_of_given? {scopes : List Scope} {entry : Option Operand}
    (h : given? sig scopes = some entry) (crossed : Bool) :
    ∃ crossed', find? sig crossed scopes = some (entry, crossed') := by
  induction scopes generalizing crossed with
  | nil => cases h
  | cons scope outer ih =>
    rw [given?_cons] at h
    rw [find?]
    cases hget : scope.values.get? sig with
    | none =>
      rw [hget] at h
      exact ih h _
    | some found =>
      rw [hget] at h
      obtain rfl : found = entry := Option.some.inj h
      exact ⟨crossed, rfl⟩

/-- What was not read out of storage is always reliable. -/
theorem readsPoisoned_of_isRetrieve_eq_false (hsig : sig.isRetrieve = false) :
    c.readsPoisoned aliases sig = false := by
  unfold readsPoisoned
  rw [Signature.location?_of_isRetrieve_eq_false hsig]
  rfl

/-- What the scopes give is known, if it was not read out of storage. -/
theorem lookup_of_given? (hsig : sig.isRetrieve = false)
    (h : given? sig c.scopes = some (some rep)) : c.lookup aliases writes sig = some rep := by
  obtain ⟨crossed, hfind⟩ := find?_of_given? h false
  rw [lookup_eq, readsPoisoned_of_isRetrieve_eq_false hsig,
    Signature.location?_of_isRetrieve_eq_false hsig, hfind]
  simp

/-- A value that was not read out of storage is entered. -/
theorem given?_record_self (hsig : sig.isRetrieve = false) (rep : Operand) :
    given? sig (c.record aliases sig rep).2.scopes = some (some rep) := by
  unfold record
  rw [readsPoisoned_of_isRetrieve_eq_false hsig, if_neg Bool.false_ne_true]
  show given? sig ({ c.top with values := c.top.values.insert sig (some rep) } :: c.outer) = _
  rw [given?_cons, Table.get?_insert, if_pos rfl]
  rfl

/-- **A value is recalled**: it was computed into a variable, which is assigned
for good. -/
structure Recalls (c : Congruence) (sig : Signature) (x : Var) : Prop where
  given : given? sig c.scopes = some (some (.var x))
  defined : x.name ∈ c.definedNames

/-- **New entries keep a value** if those for its signature have the same value. -/
theorem given?_insertAll (h : given? sig c.scopes = some (some rep)) (ho : c'.outer = c.outer)
    {entries : List (Signature × Option Operand)}
    (hv : c'.top.values = c.top.values.insertAll entries)
    (hentries : ∀ e ∈ entries, e.1.key = sig.key → e.2 = some rep) :
    given? sig c'.scopes = some (some rep) := by
  show given? sig (c'.top :: c'.outer) = _
  rw [given?_cons, ho, hv]
  by_cases hmem : ∃ e ∈ entries, Keyed.key e.1 = Keyed.key sig
  · obtain ⟨e, he, hkey, hget⟩ := Table.get?_insertAll_of_mem c.top.values hmem
    rw [hget, hentries e he hkey]
    rfl
  · rw [Table.get?_insertAll_of_not_mem c.top.values fun e he hkey => hmem ⟨e, he, hkey⟩,
      ← given?_cons]
    exact h

theorem given?_of_values (h : given? sig c.scopes = some (some rep)) (ho : c'.outer = c.outer)
    (hv : c'.top.values = c.top.values) : given? sig c'.scopes = some (some rep) :=
  given?_insertAll h ho (hv.trans (Table.insertAll_nil _).symm) (List.forall_mem_nil _)

/-- An entry of the innermost scope is what the scopes give. -/
theorem eq_of_mem_entries {scope : Scope} {outer : List Scope}
    (h : given? sig (scope :: outer) = some (some rep)) {e : Signature × Option Operand}
    (he : e ∈ scope.values.entries) (hkey : e.1.key = sig.key) : e.2 = some rep := by
  rw [given?_cons, ← Table.get?_congr (t := scope.values) hkey, Table.get?_of_mem he] at h
  exact Option.some.inj h

/-- **A write leaves what was not read out of storage.** -/
theorem given?_invalidate (hsig : sig.isRetrieve = false)
    (h : given? sig c.scopes = some (some rep)) (l : Location) :
    given? sig (c.invalidate aliases l).2.scopes = some (some rep) := by
  refine given?_insertAll h rfl rfl fun e he hkey => ?_
  -- only what reads storage is ended
  obtain ⟨sig', hsig', rfl⟩ := List.mem_map.1 he
  obtain ⟨-, -, e, -, -, hreads, rfl⟩ := mem_affected.1 hsig'
  rw [reads_congr hkey, reads, hsig] at hreads
  cases hreads

theorem given?_invalidateAll (hsig : sig.isRetrieve = false)
    (h : given? sig c.scopes = some (some rep)) (ls : List Location) :
    given? sig (ls.foldl (fun c l => (c.invalidate aliases l).2) c).scopes = some (some rep) := by
  induction ls generalizing c with
  | nil => exact h
  | cons l ls ih => exact ih (given?_invalidate hsig h l)

/-- A value is entered only if none is known, so it does not replace another one. -/
theorem given?_record (hsig : sig.isRetrieve = false) (h : given? sig c.scopes = some (some rep))
    (hnone : c.lookup aliases writes sig' = none) (rep' : Operand) :
    given? sig (c.record aliases sig' rep').2.scopes = some (some rep) := by
  unfold record
  split
  · exact h
  · -- an entry for the same signature would have been found
    refine given?_insertAll h rfl rfl
      (List.forall_mem_singleton.2 fun hkey => ?_ : ∀ e ∈ [(sig', some rep')], _)
    rw [given?_congr hkey.symm] at h
    cases hnone.symm.trans (lookup_of_given? ((Signature.isRetrieve_congr hkey).trans hsig) h)

theorem given?_absorbArms (hsig : sig.isRetrieve = false)
    (h : given? sig c.scopes = some (some rep)) (arms : List Scope) :
    given? sig (arms.foldl (absorbArm aliases) c).scopes = some (some rep) := by
  induction arms generalizing c with
  | nil => exact h
  | cons arm arms ih =>
    exact ih (given?_of_values (given?_invalidateAll hsig h arm.invalidated) rfl rfl)

theorem given?_mergeNested {child : Scope} (h : given? sig c.scopes = some (some rep))
    (hchild : given? sig (child :: c.scopes) = some (some rep)) :
    given? sig (c.mergeNested child).scopes = some (some rep) :=
  given?_insertAll h rfl rfl fun _ he => eq_of_mem_entries hchild (List.mem_filter.1 he).1

theorem given?_mergeBranches {arms : List Scope} (hsig : sig.isRetrieve = false)
    (h : given? sig c.scopes = some (some rep))
    (harms : ∀ arm ∈ arms, given? sig (arm :: c.scopes) = some (some rep)) (keep : Bool) :
    given? sig (c.mergeBranches aliases keep arms).2.scopes = some (some rep) := by
  have habsorbed : given? sig (arms.foldl (absorbArm aliases) c).scopes = some (some rep) :=
    given?_absorbArms hsig h arms
  rcases mergeBranches_cases aliases keep arms c with heq | ⟨first, rest, rfl, heq⟩
  · rw [heq]
    exact habsorbed
  · rw [heq]
    -- what the arms have in common is taken from the first one, which recalls the value
    refine given?_insertAll habsorbed rfl rfl fun e he hkey => ?_
    obtain ⟨common, hcommon, rfl⟩ := List.mem_map.1 he
    obtain ⟨entry, hentry, hvalue⟩ := List.mem_filterMap.1 (List.mem_filter.1 hcommon).1
    obtain ⟨rep', hrep', rfl⟩ := Option.map_eq_some_iff.1 hvalue
    exact hrep'.symm.trans (eq_of_mem_entries (harms first List.mem_cons_self) hentry hkey)

namespace Recalls

theorem of_level (h : c.Recalls sig x) (ho : c'.outer = c.outer)
    (hd : c.top.defined ⊆ c'.top.defined) (hgiven : given? sig c'.scopes = some (some (.var x))) :
    c'.Recalls sig x := by
  refine ⟨hgiven, mem_definedNames.2 ?_⟩
  rw [ho]
  exact (mem_definedNames.1 h.defined).imp_left fun hmem => hd hmem

theorem of_values (h : c.Recalls sig x) (ho : c'.outer = c.outer)
    (hd : c'.top.defined = c.top.defined) (hv : c'.top.values = c.top.values) : c'.Recalls sig x :=
  h.of_level ho (fun _ hn => hd ▸ hn) (given?_of_values h.given ho hv)

theorem push (h : c.Recalls sig x) (kind : ScopeKind) : (c.push kind).Recalls sig x :=
  ⟨h.given, h.defined⟩

end Recalls

end Congruence

namespace Numbering

variable {ctx : Context} {block : Nat} {removable : Bool} {s : State} {sig : Signature} {x : Var}

/-- Taking note of values assigns nothing. -/
theorem definedNames_bind (value : Signature × Binding) :
    (bind ctx block removable s value).facts.definedNames = s.facts.definedNames := by
  have hnotes : Notes ctx block value.2.outs s (bind ctx block removable s value) :=
    notes_bind (List.Subset.refl _) s
  unfold Congruence.definedNames Congruence.scopes
  rw [List.flatMap_cons, List.flatMap_cons, hnotes.level.outer, hnotes.defined]

/-- **What is recalled is recalled behind every other value** that is taken note
of. -/
theorem recalls_bind (hsig : sig.isRetrieve = false) (h : s.facts.Recalls sig x)
    (value : Signature × Binding) : (bind ctx block removable s value).facts.Recalls sig x := by
  refine ⟨?_, (definedNames_bind value).symm ▸ h.defined⟩
  rcases facts_bind_cases ctx block removable s value
    with heq | ⟨out, rep, heq⟩ | ⟨sig', rep, hnone, heq⟩
  · rw [heq]
    exact h.given
  · rw [heq]
    exact Congruence.given?_of_values h.given rfl rfl
  · rw [heq]
    exact Congruence.given?_record hsig h.given hnone rep

/-- The writes of an instruction end nothing that is recalled. -/
theorem recalls_carriedOut (hsig : sig.isRetrieve = false) (h : s.facts.Recalls sig x)
    {i : Instruction} {facts : Congruence}
    (hdefine : i.assigned.foldlM Congruence.define s.facts = .ok facts) :
    (carriedOut ctx i facts s).facts.Recalls sig x := by
  obtain ⟨hlevel, hdefined, -⟩ := carriedOut_spec ctx hdefine
  refine h.of_level hlevel.outer (fun n hn => ?_) ?_
  · rw [hdefined]
    exact List.mem_append_right _ hn
  · have hgiven : Congruence.given? sig facts.scopes = some (some (.var x)) := by
      rw [(Congruence.foldlM_define_eq_ok hdefine).1]
      exact Congruence.given?_of_values h.given rfl rfl
    rw [(carriedOut_phases ctx i facts s).1]
    exact Congruence.given?_invalidateAll hsig hgiven _

/-- Folding and closing enter no values. -/
theorem recalls_foldIf (i : Instruction) (h : s.facts.Recalls sig x) :
    let r := foldIf ctx block i s
    (r.1.closes.foldl Congruence.close r.2.facts).Recalls sig x := by
  intro r
  obtain ⟨hlevel, hdefined, -, -, hvalues, -⟩ := Congruence.foldl_close_spec r.1.closes s.facts
  rw [show r.2.facts = s.facts from (foldIf_cases ctx block i s).1]
  exact h.of_values hlevel.outer hdefined hvalues

theorem recalls_visitInstruction (hsig : sig.isRetrieve = false) {i : Instruction}
    (h : s.facts.Recalls sig x) (hf : (visitInstruction ctx block i s).fault = none) :
    (visitInstruction ctx block i s).state.facts.Recalls sig x := by
  obtain ⟨facts, removable, values, -, hdefine, -, -, heq⟩ := visitInstruction_cases hf
  rw [heq]
  refine recalls_foldIf _ ?_
  exact values.foldlRecOn (motive := fun s : State => s.facts.Recalls sig x)
    _ (recalls_carriedOut hsig h hdefine)
    fun _ hs value _ => recalls_bind hsig hs value

theorem recalls_enterDeferred {trigger : Trigger} (h : s.facts.Recalls sig x)
    (hf : (enterDeferred ctx trigger s).fault = none) :
    (enterDeferred ctx trigger s).state.facts.Recalls sig x := by
  have hpush := h.push .deferred
  obtain ⟨closed, hfacts⟩ := facts_enterDeferred hf
  rw [hfacts]
  exact hpush.of_level rfl (List.nil_subset _) (Congruence.given?_of_values hpush.given rfl rfl)

/-- **Once a value is recalled it is recalled to the end of the block**, in all
blocks inside, whatever is written. -/
theorem upheld_recalls (R : Requirement) (hsig : sig.isRetrieve = false) :
    Upheld ctx R fun s => s.facts.Recalls sig x where
  quiet hs hq := hq.facts ▸ hs
  declare {s vars} hs _ := by
    obtain ⟨ho, -, hd, -, hv, -⟩ := foldl_declare_spec vars s.facts
    exact hs.of_values ho hd hv
  instruction hs _ hf := recalls_visitInstruction hsig hs hf
  push kind hs := hs.push kind
  defer hs _ _ hf := recalls_enterDeferred hs hf
  nested hs hs' ho _ :=
    hs.of_level rfl (List.subset_append_right _ _)
      (Congruence.given?_mergeNested hs.given (ho ▸ hs'.given))
  deferred hs _ _ :=
    hs.of_level rfl (List.subset_append_right _ _) (Congruence.given?_of_values hs.given rfl rfl)
  arm hs _ _ := hs
  branches {s arms} hs harms := by
    obtain ⟨hlevel, -, hdefined⟩ :=
      Congruence.mergeBranches_spec ctx.aliases ctx.settings.branchMerge arms s.facts
    refine hs.of_level hlevel.outer (fun n hn => (hdefined n).2 (.inl hn)) ?_
    refine Congruence.given?_mergeBranches hsig hs.given (fun arm harm => ?_) _
    obtain ⟨-, s', hs', hfacts⟩ := harms arm harm
    have hgiven := hs'.given
    rwa [hfacts] at hgiven

/-! ## The instructions of a walk -/

section Sites

variable (ctx : Context)

/-- **The instructions in the walk over a function.** -/
def sites (globals : Constants) (f : Function) : List Site :=
  match f.inputs.foldlM enterInput .new with
  | .ok facts => blockSites ctx f.block (opened globals f facts)
  | .error _ => []

/-- **The instructions that follow another one in its block**, at any depth. -/
def Site.behind (i : Site) : List Site := bodySites ctx i.block i.rest (i.after ctx)

end Sites

/-- **A property that holds behind an instruction holds wherever something
follows it** in its block. -/
theorem forall_behind {I : State → Prop} (hI : Upheld ctx (.ofVars fun _ => True) I) {i : Site}
    (hrest : (visitBody ctx i.block i.rest (i.after ctx)).fault = none) (hs : I (i.after ctx)) :
    ∀ j ∈ i.behind ctx, j.Ran ctx I :=
  (hI.visitBody i.block i.rest _ hs (Body.meets_ofVars i.rest (fun _ _ => trivial) _ _ _) hrest).ran

/-! ## Computed values -/

/-- **A value that an instruction computes into an output**, by its signature in
canonical inputs, with the states before and after it is taken note of. -/
structure Computed where
  sig : Signature
  out : Var
  before : State
  after : State

/-- The value becomes known with this output: the output is stable, and no
operand with the value was known. -/
def Computed.isNew (ctx : Context) (c : Computed) : Bool :=
  ctx.aliases.isStable c.out
    && ((resolve ctx c.sig c.before).1.or
      (c.before.facts.lookup ctx.aliases ctx.writes c.sig)).isNone

/-- The value of the other one is computed again: by the same signature, which
alone does not tell the value, into an output that the other one may represent.
-/
def Computed.repeats (ctx : Context) (d c : Computed) : Bool :=
  d.sig.key = c.sig.key && (resolve ctx d.sig d.before).1.isNone
    && ctx.aliases.isStable d.out && d.out.ty = c.out.ty

/-- The values that are computed among those that are taken note of, one after
the other. -/
def computedAmong (ctx : Context) (block : Nat) (removable : Bool) :
    List (Signature × Binding) → State → List Computed
  | [], _ => []
  | value :: values, s =>
    let s' := bind ctx block removable s value
    value.2.outs.map (⟨s.facts.canonicalize value.1, ·, s, s'⟩)
      ++ computedAmong ctx block removable values s'

/-- **The values that an instruction of a walk computes.** -/
def Site.computed (ctx : Context) (i : Site) : List Computed :=
  let replaced := i.instruction.mapOperands (replace i.before.facts)
  match i.instruction.assigned.foldlM Congruence.define i.before.facts,
    replaced.isRemovable ctx.foreign,
    replaced.signatures ctx.foreign with
  | .ok facts, .ok removable, .ok values =>
    computedAmong ctx i.block removable values (carriedOut ctx i.instruction facts i.before)
  | _, _, _ => []

section Computed

variable {values : List (Signature × Binding)} {c : Computed} {J : State → Prop}

/-- A property that every value keeps holds before each of them. -/
theorem mem_computedAmong (hJ : ∀ s value, J s → J (bind ctx block removable s value)) (hs : J s)
    (hc : c ∈ computedAmong ctx block removable values s) :
    J c.before ∧ ∃ value ∈ values, value.2 = .output c.out
      ∧ c.sig = c.before.facts.canonicalize value.1
      ∧ c.after = bindOutput ctx block removable c.sig c.out c.before := by
  induction values generalizing s with
  | nil => cases hc
  | cons value values ih =>
    rcases List.mem_append.1 hc with hc | hc
    · obtain ⟨sig, binding⟩ := value
      cases binding with
      | output out =>
        obtain rfl := List.mem_singleton.1 hc
        exact ⟨hs, _, List.mem_cons_self, rfl, rfl, rfl⟩
      | known src => cases hc
    · obtain ⟨hbefore, value', hvalue', heq⟩ := ih (hJ s value hs) hc
      exact ⟨hbefore, value', List.mem_cons_of_mem _ hvalue', heq⟩

/-- A property that every value keeps holds behind all of them if it does behind
one. -/
theorem of_computedAmong (hJ : ∀ s value, J s → J (bind ctx block removable s value))
    (hc : c ∈ computedAmong ctx block removable values s) (hs : J c.after) :
    J (values.foldl (bind ctx block removable) s) := by
  induction values generalizing s with
  | nil => cases hc
  | cons value values ih =>
    rcases List.mem_append.1 hc with hc | hc
    · obtain ⟨out, -, rfl⟩ := List.mem_map.1 hc
      exact values.foldlRecOn _ hs fun s hs value _ => hJ s value hs
    · exact ih hc

variable {i : Site} {I : State → Prop}

/-- **The values of an instruction** that was visited without a fault, phase by
phase. -/
theorem Site.Ran.computed_eq (hi : i.Ran ctx I) :
    ∃ facts removable values,
      i.instruction.assigned.foldlM Congruence.define i.before.facts = .ok facts
      ∧ (i.instruction.mapOperands (replace i.before.facts)).signatures ctx.foreign = .ok values
      ∧ i.computed ctx
        = computedAmong ctx i.block removable values (carriedOut ctx i.instruction facts i.before)
      ∧ ∀ sig x, (values.foldl (bind ctx i.block removable)
          (carriedOut ctx i.instruction facts i.before)).facts.Recalls sig x →
            (i.after ctx).facts.Recalls sig x := by
  obtain ⟨facts, removable, values, -, hdefine, hremovable, hvalues, heq⟩ :=
    visitInstruction_cases hi.fault
  refine ⟨facts, removable, values, hdefine, hvalues, ?_, fun sig x h => ?_⟩
  · simp only [Site.computed, hdefine, hremovable, hvalues]
  · unfold Site.after
    rw [heq]
    exact recalls_foldIf _ h

/-- A computation is not read out of storage. -/
theorem Site.Ran.isRetrieve_of_computes (hi : i.Ran ctx I) (hc : c ∈ i.computed ctx)
    (hcomputes : i.instruction.computes = true) : c.sig.isRetrieve = false := by
  obtain ⟨facts, removable, values, -, hvalues, heq, -⟩ := hi.computed_eq
  rw [heq] at hc
  obtain ⟨-, value, hvalue, -, hsig, -⟩ :=
    mem_computedAmong (J := fun _ => True) (fun _ _ _ => trivial) trivial hc
  have hop : c.sig.op = value.1.op := by
    rw [hsig]
    exact Signature.op_normalize _
  rw [← Instruction.isRetrieve_of_computes ((Instruction.computes_mapOperands _ _).trans hcomputes)
    hvalues value hvalue,
    Signature.isRetrieve, hop, Signature.isRetrieve]

/-- The output of a new value is entered for its signature. -/
theorem facts_bindOutput_of_isNew (block : Nat) (removable : Bool) (hnew : c.isNew ctx = true) :
    (bindOutput ctx block removable c.sig c.out c.before).facts
      = (c.before.facts.record ctx.aliases c.sig (.var c.out)).2 := by
  obtain ⟨hstable, hnone⟩ := Bool.and_eq_true_iff.1 hnew
  unfold bindOutput
  simp only [facts_resolve, Option.isNone_iff_eq_none.1 hnone, hstable, if_true]

/-- An operand that is known takes the place of the output, if it may represent
it. -/
theorem facts_bindOutput_of_lookup {sig : Signature} {out : Var} {rep : Operand} (block : Nat)
    (removable : Bool) (hresolve : (resolve ctx sig s).1 = none)
    (hlookup : s.facts.lookup ctx.aliases ctx.writes sig = some rep)
    (hother : rep.same (.var out) = false) (haccepts : accepts ctx.aliases out rep = true) :
    (bindOutput ctx block removable sig out s).facts = s.facts.setCanonical out rep := by
  unfold bindOutput
  simp only [facts_resolve, hresolve, hlookup, Option.none_or,
    hother, haccepts, Bool.not_true, Bool.or_self,
    Bool.false_eq_true, if_false]
  split
  · cases rep <;> exact congrArg (Congruence.setCanonical · out _) (facts_resolve ctx sig s)
  · exact congrArg (Congruence.setCanonical · out rep) (facts_resolve ctx sig s)

/-- The outputs of computed values are assigned by the instruction, if they are
stable. -/
theorem mem_assigned_of_output {i : Instruction} (facts : Congruence)
    (hvalues : (i.mapOperands (replace facts)).signatures ctx.foreign = .ok values)
    {value : Signature × Binding} (hvalue : value ∈ values) {out : Var}
    (hout : value.2 = .output out) (hstable : ctx.aliases.isStable out = true) :
    out ∈ i.assigned := by
  have hresults := Instruction.outs_signatures hvalues value hvalue
  rw [hout, Instruction.results_mapOperands] at hresults
  refine Instruction.mem_assigned.2 ⟨hresults (List.mem_singleton_self out), ?_⟩
  exact of_decide_eq_true (Bool.and_eq_true_iff.1 hstable).1

/-- **A value that becomes known is recalled behind its instruction.** -/
theorem Site.Ran.recalls (hi : i.Ran ctx I) (hc : c ∈ i.computed ctx)
    (hsig : c.sig.isRetrieve = false) (hnew : c.isNew ctx = true) :
    (i.after ctx).facts.Recalls c.sig c.out := by
  obtain ⟨facts, removable, values, hdefine, hvalues, heq, hafter⟩ := hi.computed_eq
  rw [heq] at hc
  have hstable := (Bool.and_eq_true_iff.1 hnew).1
  -- what the instruction assigns stays assigned
  let J : State → Prop := fun s => ∀ v ∈ i.instruction.assigned, v.name ∈ s.facts.definedNames
  have hJ : ∀ s value, J s → J (bind ctx i.block removable s value) := fun s value hs v hv =>
    (definedNames_bind value).symm ▸ hs v hv
  have hcarried : J (carriedOut ctx i.instruction facts i.before) := fun v hv => by
    refine Congruence.mem_definedNames.2 (.inl ?_)
    rw [(carriedOut_spec ctx hdefine).2.1]
    exact List.mem_append_left _ (List.mem_reverse.2 (List.mem_map_of_mem hv))
  obtain ⟨hdefined, value, hvalue, hout, -, hcafter⟩ := mem_computedAmong hJ hcarried hc
  have hassigned := mem_assigned_of_output _ hvalues hvalue hout hstable
  refine hafter _ _ (of_computedAmong (J := fun s => s.facts.Recalls c.sig c.out)
    (fun s value hs => recalls_bind hsig hs value) hc ?_)
  show c.after.facts.Recalls c.sig c.out
  rw [hcafter, facts_bindOutput_of_isNew i.block removable hnew]
  refine ⟨Congruence.given?_record_self hsig _, ?_⟩
  obtain ⟨hlevel, hdefined', -⟩ := record_level c.before.facts ctx.aliases c.sig (.var c.out)
  rw [Congruence.mem_definedNames, hlevel.outer, hdefined', ← Congruence.mem_definedNames]
  exact hdefined _ hassigned

/-- **A value that is recalled is taken over** by every later computation with
the same signature. -/
theorem Site.Ran.forwarded {d : Computed} (hi : i.Ran ctx fun s => s.facts.Recalls c.sig c.out)
    (hsig : c.sig.isRetrieve = false) (hfirst : ctx.aliases.isStable c.out = true)
    (hd : d ∈ i.computed ctx) (hrepeats : d.repeats ctx c = true) :
    d.after.facts = d.before.facts.setCanonical d.out (.var c.out) := by
  simp only [Computed.repeats, Bool.and_eq_true, decide_eq_true_eq, Option.isNone_iff_eq_none]
    at hrepeats
  obtain ⟨⟨⟨hkey, hresolve⟩, hstable⟩, hty⟩ := hrepeats
  obtain ⟨facts, removable, values, hdefine, hvalues, heq, -⟩ := hi.computed_eq
  rw [heq] at hd
  obtain ⟨hrecalls, value, hvalue, hout, -, hafter⟩ := mem_computedAmong
    (J := fun s => s.facts.Recalls c.sig c.out) (fun s value hs => recalls_bind hsig hs value)
    (recalls_carriedOut hsig hi.before hdefine) hd
  -- the output is assigned here, so it is none of the variables that were assigned
  -- before
  have hassigned := mem_assigned_of_output _ hvalues hvalue hout hstable
  have hother : c.out.name ≠ d.out.name := fun hname =>
    (Congruence.foldlM_define_eq_ok hdefine).2.1 d.out hassigned (hname ▸ hi.before.defined)
  rw [hafter]
  refine facts_bindOutput_of_lookup i.block removable hresolve ?_ ?_ ?_
  · refine Congruence.lookup_of_given? ((Signature.isRetrieve_congr hkey).trans hsig) ?_
    rw [Congruence.given?_congr hkey]
    exact hrecalls.given
  · exact decide_eq_false fun hsame => hother (Sum.inl.inj hsame)
  · simp only [accepts, isFixed, hstable, hfirst, hty, decide_true, Bool.or_true, Bool.and_self]

end Computed

/-! ## The operands of a signature -/

/-- Facts may mention whatever there is; only what stands for something else is
fixed. -/
def anything (aliases : AliasMap) : Vocabulary :=
  .over aliases (fun _ => True) (fun _ => True) fun _ _ _ => trivial

theorem serves_anything (ctx : Context) : Serves (anything ctx.aliases) ctx :=
  ⟨.over _, fun _ _ _ => trivial⟩

theorem names_anything {aliases : AliasMap} {names : List String} (a : Operand) :
    a.All ((anything aliases).Names names) := by
  cases a with
  | var v => exact .inl trivial
  | lit l => trivial

/-- **A variable of a signature is an operand of the instruction, or it is
fixed**, since representatives are. -/
theorem Site.Ran.mem_readVars_or_isFixed {i : Site}
    (hi : i.Ran ctx (WellFormed (anything ctx.aliases))) {c : Computed} (hc : c ∈ i.computed ctx)
    {v : Var} (hv : v ∈ c.sig.vars) :
    v ∈ i.instruction.readVars ∨ isFixed ctx.aliases v = true := by
  obtain ⟨facts, removable, values, hdefine, hvalues, heq, -⟩ := hi.computed_eq
  rw [heq] at hc
  obtain ⟨hbefore, value, hvalue, hout, hsig, -⟩ :=
    mem_computedAmong (J := WellFormed (anything ctx.aliases))
      (fun s value hs => wellFormed_bind (serves_anything ctx) hs (fun a _ => names_anything a)
        (by cases value.2 with
          | output out => exact .inl trivial
          | known a => exact names_anything a) fun _ _ => trivial)
      (wellFormed_carriedOut hi.before hdefine) hc
  let P : Var → Prop := fun v => v ∈ i.instruction.readVars ∨ isFixed ctx.aliases v = true
  have hcanonical : ∀ {facts : Congruence} {w : Var} {rep : Operand},
      (anything ctx.aliases).Tidy facts.scopes →
      facts.canonical? w = some rep → rep.All P := fun htidy hrep =>
    (Congruence.stands_of_canonical? htidy hrep).mono fun _ h => .inr h.2
  have hreads : ∀ r ∈ i.instruction.reads, r.2.All P := by
    rintro ⟨role, a⟩ hr
    cases a with
    | var w => exact .inl (List.mem_filterMap.2 ⟨_, hr, rfl⟩)
    | lit l => trivial
  -- operands are replaced by representatives, and then once more in the signature
  have hreplaced : ∀ r ∈ (i.instruction.mapOperands (replace i.before.facts)).reads, r.2.All P := by
    refine Instruction.forall_reads_mapOperands (Q := Operand.All P) hreads fun role a ha => ?_
    rcases replace_cases i.before.facts role a with hkept | ⟨w, rep, -, hrep, hreplaced⟩
    · rwa [hkept]
    · rw [hreplaced]
      exact hcanonical hi.before.tidy hrep
  have hall : c.sig.All P := by
    rw [hsig]
    refine Signature.forall_mapInputs (Q := Operand.All P)
      (Instruction.forall_of_output (Q := Operand.All P) hreplaced hvalues hvalue hout)
      fun a ha => ?_
    unfold Congruence.canonicalOperand
    cases hrep : a.var?.bind c.before.facts.canonical? with
    | none => exact ha
    | some rep =>
      obtain ⟨w, -, hrep⟩ := Option.bind_eq_some_iff.1 hrep
      exact hcanonical hbefore.tidy hrep
  exact hall (.var v) (Signature.mem_vars.1 hv)

/-! ## Shared computations -/

section Runs

variable {settings : Settings} {foreign : Foreign} {globals created : Constants}
  {f : Function} {stats : Stats}

/-- **Computations are shared whatever is written in between.** Once an
instruction has computed a value that is not read out of storage, every later
instruction in its block that computes the same signature takes over the output;
no builtin operation and no foreign call reads its value out of storage. This is
right as long as no write touches a variable of the signature. If the variable
is stable, only writes to its own parts do. If it is not, the instruction itself
names it as an operand, or it is a shared constant. -/
theorem computations_shared (hctx : contextOf settings foreign f = .ok ctx)
    (h : (run settings foreign globals f).result = .ok (stats, created)) :
    ∀ i ∈ sites ctx globals f, ∀ c ∈ i.computed ctx,
      (∀ v ∈ c.sig.vars,
        (ctx.aliases.isStable v = true → ∀ target, ctx.aliases.touches target v = true
          ↔ target.1.name = v.name ∧ (target.2 ≠ [] ∨ ctx.aliases.isStable target.1 = false))
        ∧ (ctx.aliases.isStable v = false → v ∈ i.instruction.readVars ∨ v.isGlobalConst = true))
      ∧ (i.instruction.computes = true → c.sig.isRetrieve = false)
      ∧ (c.sig.isRetrieve = false → c.isNew ctx = true → ∀ j ∈ i.behind ctx, ∀ d ∈ j.computed ctx,
        d.repeats ctx c = true →
        d.after.facts = d.before.facts.setCanonical d.out (.var c.out)) := by
  obtain ⟨ctx', facts, hctx', hfacts, hfault, -, -⟩ := run_eq_ok h
  obtain rfl : ctx = ctx' := Except.ok.inj (hctx.symm.trans hctx')
  have hsites : sites ctx globals f = blockSites ctx f.block (opened globals f facts) := by
    unfold sites
    rw [hfacts]
  have hopened : WellFormed (anything ctx.aliases) (opened globals f facts) :=
    wellFormed_opened (fun _ _ => trivial)
      (fun _ c _ => ⟨trivial, by cases c.value <;> trivial⟩) hfacts
  rw [hsites]
  intro i hi c hc
  have hran := ((upheld_wellFormed (serves_anything ctx)).visitBlock f.block _ hopened
    (Block.meets_ofVars f.block (fun _ _ => trivial) _ _) hfault).ran i hi
  refine ⟨fun v hv => ⟨AliasMap.touches_iff_of_isStable, fun hunstable => ?_⟩,
    hran.isRetrieve_of_computes hc, ?_⟩
  · -- only what is fixed stands for something else, so what is neither stable
    -- nor constant was named
    refine (hran.mem_readVars_or_isFixed hc hv).imp_right fun hfixed => ?_
    exact (Bool.or_eq_true_iff.1 hfixed).resolve_right (hunstable ▸ Bool.false_ne_true)
  · -- the value is recalled behind its instruction, hence wherever it is computed again
    intro hsig hnew j hj d hd hrepeats
    have hrecalls := hran.recalls hc hsig hnew
    have hlater := forall_behind (upheld_recalls _ hsig) hran.rest hrecalls j hj
    exact hlater.forwarded hsig (Bool.and_eq_true_iff.1 hnew).1 hd hrepeats

/-- An array. -/
def elements : Var := ⟨"A", .array (.value .int), .stack, .localUser, .user⟩

/-- Another name for an element of it. -/
def element : Var := ⟨"m", .value .int, .part, .localUser, .part⟩

/-- A function that negates an element of an array under another name, before
and behind a store to the element. -/
def negatesElement : Function where
  name := "f"
  inputs := [elements, .value "w" .int]
  outputs := [⟨"o", .future .int, .stack, .outArg, .user⟩]
  target := .control
  block :=
    .mk [element, .value "x" .int, .value "y" .int]
      (.instr (.readElement .bind element elements (.lit (.int 0)))
      (.instr (.compute .now .neg (.value "x" .int) [.var element])
      (.instr (.writeElement elements (.lit (.int 0)) (.var (.value "w" .int)))
      (.instr (.compute .now .neg (.value "y" .int) [.var element])
      (.instr (.storeScalar ⟨"o", .future .int, .stack, .outArg, .user⟩ (.var (.value "y" .int)))
        .done)))))

/-- The context in which this function is walked. -/
def elementContext : Context :=
  ⟨"f", {}, .empty, ⟨[⟨elements, [.unknown], .bind, element⟩]⟩, [⟨"A", [.unknown]⟩]⟩

/-- The second negation takes over the output of the first. -/
theorem computations_shared_negatesElement :
    contextOf {} .empty negatesElement = .ok elementContext
      ∧ ∃ i ∈ sites elementContext .empty negatesElement, ∃ c ∈ i.computed elementContext,
        ∃ j ∈ i.behind elementContext, ∃ d ∈ j.computed elementContext,
          c.out.name = "x" ∧ d.out.name = "y"
            ∧ d.after.facts = d.before.facts.setCanonical d.out (.var c.out) := by
  have hctx : contextOf {} .empty negatesElement = .ok elementContext := rfl
  have hrun : (run {} .empty .empty negatesElement).result = .ok (⟨1, 1, 0, 0, 0, 0⟩, .empty) := by
    decide +kernel
  obtain ⟨i, hi, c, hc, j, hj, d, hd, hx, hy, hcomputes, hnew, hrepeats⟩ :
      ∃ i ∈ sites elementContext .empty negatesElement, ∃ c ∈ i.computed elementContext,
        ∃ j ∈ i.behind elementContext, ∃ d ∈ j.computed elementContext,
          c.out.name = "x" ∧ d.out.name = "y" ∧ i.instruction.computes = true
            ∧ c.isNew elementContext = true
            ∧ d.repeats elementContext c = true := by
    decide +kernel
  refine ⟨hctx, i, hi, c, hc, j, hj, d, hd, hx, hy, ?_⟩
  obtain ⟨-, hsig, hshared⟩ := computations_shared hctx hrun i hi c hc
  exact hshared (hsig hcomputes) hnew j hj d hd hrepeats

/-- **A computation that is shared across a write to its operand**: the element
is stored into between the two negations, and the value from before the store is
given out. -/
theorem shared_across_write :
    let o := run {} .empty .empty negatesElement
    contextOf {} .empty negatesElement = .ok elementContext
      ∧ elementContext.aliases.touches (elements, [.unknown]) element = true
      ∧ o.result = .ok (⟨1, 1, 0, 0, 0, 0⟩, .empty)
      ∧ o.function.block.instructions = [.readElement .bind element elements (.lit (.int 0)),
        .compute .now .neg (.value "x" .int) [.var element],
        .writeElement elements (.lit (.int 0)) (.var (.value "w" .int)),
        .storeScalar ⟨"o", .future .int, .stack, .outArg, .user⟩ (.var (.value "x" .int))] :=
  ⟨rfl, by decide +kernel, by decide +kernel, by decide +kernel⟩

end Runs

end Numbering

end ValueFlow
