import ValueFlow.Proofs.ClosedVariables
import ValueFlow.Proofs.FreshRepresentatives
import ValueFlow.Proofs.GuardedEntries
import ValueFlow.Proofs.InPlace

/-!
# What is known behind a conditional

The arms of a conditional are walked one after the other, each from the facts
before the conditional, and their scopes are merged when all are through. The
merge looks at the entries of the arms only, while what is known at the end of
an arm also depends on the scopes outside, which the arm may hide. That nothing
becomes known which was not known at the end of every arm (`Junction.Sound`) is
therefore no property of the merge alone. It holds since entries are guarded:
what an arm hides it has overwritten, and what an arm has overwritten the merge
takes away.

For representatives the matter is different, since an arm hides them without any
write. There it takes that a variable is assigned once, hence that it has no
representative around the scope in which it gets one (`Congruence.Apart`). A
variable that is declared in a block and yet marked as a shared constant counts
as visible everywhere, and what is known about it stays when the block is left;
declared again in an arm, it may have two representatives
(`representatives_differ_of_marked`).
-/

namespace ValueFlow

namespace Congruence

variable {c : Congruence} {aliases : AliasMap} {writes : List Location}
  {keep : Bool} {arms : List Scope} {arm : Scope}
  {sig : Signature} {rep : Operand} {v : Var}

/-! ## One conditional -/

theorem outer_mergeBranches (c : Congruence) (aliases : AliasMap) (keep : Bool)
    (arms : List Scope) : (c.mergeBranches aliases keep arms).2.outer = c.outer := by
  have habsorbed := (absorbArms_spec aliases arms c).1
  rcases mergeBranches_cases aliases keep arms c with heq | ⟨first, rest, -, heq⟩
  · rw [heq, habsorbed]
  · rw [heq]
    exact habsorbed

/-- What is unreliable before a conditional or at the end of an arm is
unreliable behind it. -/
theorem isPoisoned_mergeBranches {l : Location} (h : c.isPoisoned l = true
    ∨ ∃ arm ∈ arms, arm.poisoned.any (·.overlaps l) = true) :
    (c.mergeBranches aliases keep arms).2.isPoisoned l = true := by
  unfold isPoisoned scopes at h ⊢
  rw [List.any_cons, outer_mergeBranches, poisoned_mergeBranches, List.any_append, List.any_flatMap]
  rw [List.any_cons] at h
  simp only [Bool.or_eq_true] at h ⊢
  rcases h with (htop | houter) | harm
  · exact .inl (.inl htop)
  · exact .inr houter
  · exact .inl (.inr (List.any_eq_true.2 harm))

theorem readsPoisoned_mergeBranches
    (h : (c.mergeBranches aliases keep arms).2.readsPoisoned aliases sig = false) :
    c.readsPoisoned aliases sig = false
      ∧ ∀ arm ∈ arms, readsPoisoned ⟨arm, c.scopes⟩ aliases sig = false := by
  unfold readsPoisoned at h ⊢
  cases hl : sig.location? aliases with
  | none => exact ⟨rfl, fun _ _ => rfl⟩
  | some l =>
    rw [hl, Option.any_some, Bool.eq_false_iff] at h
    refine ⟨Bool.eq_false_iff.2 fun hc => h (isPoisoned_mergeBranches (.inl hc)),
      fun arm harm => ?_⟩
    refine Bool.eq_false_iff.2 fun hend => h (isPoisoned_mergeBranches ?_)
    have hend : (arm :: c.scopes).any (fun s => s.poisoned.any (·.overlaps l)) = true := hend
    rw [List.any_cons, Bool.or_eq_true] at hend
    exact hend.symm.imp_right fun hpoisoned => ⟨arm, harm, hpoisoned⟩

/-- A value that is known behind a conditional is reliable, and it is offered. -/
theorem lookup_eq_some_iff : c.lookup aliases writes sig = some rep
    ↔ c.readsPoisoned aliases sig = false ∧ offered? aliases writes sig c.scopes = some rep := by
  rw [lookup_eq_offered?]
  cases c.readsPoisoned aliases sig with
  | true => exact iff_of_false (fun h => nomatch h) fun h => nomatch h.1
  | false => exact (and_iff_right rfl).symm

/-- **A value that is known behind a conditional is known at the end of every
arm.** -/
theorem lookup_of_mergeBranches
    (harms : ∀ arm ∈ arms, arm.kind = .branch ∧ Guarded aliases writes ⟨arm, c.scopes⟩)
    (h : (c.mergeBranches aliases keep arms).2.lookup aliases writes sig = some rep) :
    ∀ arm ∈ arms, ∃ rep', lookup ⟨arm, c.scopes⟩ aliases writes sig = some rep'
      ∧ rep'.same rep = true := by
  intro arm harm
  obtain ⟨hpoison, hoffered⟩ := lookup_eq_some_iff.1 h
  obtain ⟨crossed, hfind, hcross⟩ := offered?_eq_some_iff.1 hoffered
  have hreliable := (readsPoisoned_mergeBranches hpoison).2 arm harm
  rcases find?_mergeBranches hfind with hall | ⟨hfind, hspared⟩
  · -- all arms have entered the value
    obtain ⟨rep', hget, hkey⟩ := hall arm harm
    exact ⟨rep', lookup_eq_some_iff.2 ⟨hreliable, offered?_of_get? hget⟩,
      by simpa [Operand.same] using hkey⟩
  · -- it was known before, and no arm has written what it reads
    obtain ⟨hkind, hguarded⟩ := harms arm harm
    have hbefore : offered? aliases writes sig c.scopes = some rep :=
      offered?_eq_some_iff.2 ⟨crossed, hfind, hcross⟩
    have hdeferred : arm.kind ≠ .deferred := by simp [hkind]
    refine ⟨rep, lookup_eq_some_iff.2 ⟨hreliable, ?_⟩, by simp [Operand.same]⟩
    cases hget : arm.values.get? sig with
    | none => exact (offered?_of_get?_eq_none hdeferred hget).trans hbefore
    | some entry =>
      rcases hguarded hdeferred sig (hget ▸ rfl) with hnone | ⟨l, hl, hreads⟩
      · exact absurd (hnone.symm.trans hbefore) (Option.some_ne_none rep).symm
      · exact absurd (hreads.symm.trans (hspared arm harm l hl)) Bool.false_ne_true.symm

/-- **A representative that is known behind a conditional is known at the end of
every arm.** -/
theorem representative?_of_mergeBranches_of_apart (harms : ∀ arm ∈ arms, Apart ⟨arm, c.scopes⟩)
    (h : (c.mergeBranches aliases keep arms).2.representative? v = some rep) :
    ∀ arm ∈ arms, ∃ rep', representative? ⟨arm, c.scopes⟩ v = some rep' ∧ rep'.same rep = true := by
  intro arm harm
  have hbefore : c.representative? v = some rep →
      ∃ rep', representative? ⟨arm, c.scopes⟩ v = some rep' ∧ rep'.same rep = true := fun hrep => by
    refine ⟨rep, ?_, by simp [Operand.same]⟩
    show (arm :: c.scopes).findSome? (·.canonical.get? v) = some rep
    rw [List.findSome?_cons]
    cases hget : arm.canonical.get? v with
    | none => exact hrep
    | some other =>
      exact absurd ((harms arm harm v other hget).symm.trans hrep) (Option.some_ne_none rep).symm
  rcases mergeBranches_cases aliases keep arms c with heq | ⟨first, rest, rfl, heq⟩
  · rw [heq, representative?_absorbArms] at h
    exact hbefore h
  · rw [heq] at h
    rcases representative?_insertAll ((first :: rest).foldl (absorbArm aliases) c)
        _ _ h rfl rfl with
      ⟨e, he, hname, hrep⟩ | h
    · obtain ⟨rep', hget, hkey⟩ := get?_of_mem_commonCanonical he arm harm
      rw [Table.get?_congr hname] at hget
      exact ⟨rep', representative?_of_get? hget, by simpa [Operand.same, ← hrep] using hkey⟩
    · rw [representative?_absorbArms] at h
      exact hbefore h

/-! ### What is kept may be used -/

theorem isDeclared_absorbArms (arms : List Scope) (c : Congruence) (v : Var) :
    (arms.foldl (absorbArm aliases) c).isDeclared v = c.isDeclared v := by
  obtain ⟨ho, -, hd, -⟩ := absorbArms_spec aliases arms c
  rw [isDeclared_eq, isDeclared_eq, names_eq_of_outer ho hd]

theorem canName_absorbArms (arms : List Scope) (c : Congruence) (sig : Signature) :
    (arms.foldl (absorbArm aliases) c).canName sig = c.canName sig :=
  congrArg (List.all sig.vars) (funext (isDeclared_absorbArms arms c))

theorem isVisible_absorbArms (arms : List Scope) (c : Congruence) (a : Operand) :
    (arms.foldl (absorbArm aliases) c).isVisible a = c.isVisible a := by
  cases a with
  | var v => exact isDeclared_absorbArms arms c v
  | lit l => rfl

/-- A value that is new behind a conditional can be named there. -/
theorem canName_of_mergeBranches
    (h : (c.mergeBranches aliases keep arms).2.lookup aliases writes sig = some rep) :
    c.lookup aliases writes sig = some rep
      ∨ (∃ sig', sig'.key = sig.key ∧ c.canName sig' = true) ∧ c.isVisible rep = true := by
  obtain ⟨hpoison, hoffered⟩ := lookup_eq_some_iff.1 h
  obtain ⟨crossed, hfind, hcross⟩ := offered?_eq_some_iff.1 hoffered
  have hreliable := (readsPoisoned_mergeBranches hpoison).1
  have hbefore : find? sig false (arms.foldl (absorbArm aliases) c).scopes
      = some (some rep, crossed) →
      c.lookup aliases writes sig = some rep := fun hfind =>
    lookup_eq_some_iff.2
      ⟨hreliable, offered?_eq_some_iff.2 ⟨crossed, (find?_absorbArms hfind).1, hcross⟩⟩
  rcases mergeBranches_cases aliases keep arms c with heq | ⟨first, rest, rfl, heq⟩
  · rw [heq] at hfind
    exact .inl (hbefore hfind)
  · rw [heq] at hfind
    rcases find?_insertAll (c := (first :: rest).foldl (absorbArm aliases) c) _ hfind rfl rfl rfl
      with ⟨e, he, hkey, hrep⟩ | ⟨-, hfind⟩
    · obtain ⟨common, hcommon, rfl⟩ := List.mem_map.1 he
      obtain rfl : common.2 = rep := Option.some.inj hrep
      obtain ⟨-, hok⟩ := List.mem_filter.1 hcommon
      simp only [Bool.and_eq_true, canName_absorbArms, isVisible_absorbArms] at hok
      exact .inr ⟨⟨common.1, hkey, hok.1.1.2⟩, hok.1.2⟩
    · exact .inl (hbefore hfind)

/-- A variable that is closed behind a conditional was so before, or it may be
used there. -/
theorem isDeclared_of_mergeBranches (h : (c.mergeBranches aliases keep arms).2.isClosed v = true) :
    c.isClosed v = true ∨ ∃ v' : Var, v'.name = v.name ∧ c.isDeclared v' = true := by
  obtain ⟨ho, -, -, -, hclosed, -⟩ := absorbArms_spec aliases arms c
  have habsorbed := isClosed_eq_of_top ho hclosed
  rcases mergeBranches_cases aliases keep arms c with heq | ⟨first, rest, rfl, heq⟩
  · rw [heq, habsorbed] at h
    exact .inl h
  · rw [heq, isClosed_keepCommon, habsorbed] at h
    rcases h with ⟨e, he, hname⟩ | h
    · obtain ⟨-, hok⟩ := List.mem_filter.1 he
      rw [Bool.and_eq_true, isDeclared_absorbArms] at hok
      exact .inr ⟨e.1, hname, hok.2⟩
    · exact .inl h

/-! ### What all arms agree on is kept -/

/-- **A value that all arms have entered is known behind the conditional**, if
facts are kept at all, the value can be named there and its storage is reliable.
-/
theorem lookup_mergeBranches_of_common {first : Scope} {rest : List Scope}
    {e : Signature × Option Operand} (he : e ∈ first.values.entries) (hrep : e.2 = some rep)
    (hrest : ∀ arm ∈ rest, ∃ rep', arm.values.get? e.1 = some (some rep') ∧ rep'.same rep = true)
    (hname : c.canName e.1 = true) (hvisible : c.isVisible rep = true)
    (hpoison : (c.mergeBranches aliases true (first :: rest)).2.readsPoisoned aliases e.1 = false) :
    (c.mergeBranches aliases true (first :: rest)).2.lookup aliases writes e.1 = some rep := by
  let absorbed := (first :: rest).foldl (absorbArm aliases) c
  have heq : (c.mergeBranches aliases true (first :: rest)).2
    = keepCommon aliases first rest absorbed := rfl
  have hreliable : absorbed.readsPoisoned aliases e.1 = false := hpoison
  have hcommon : (e.1, rep) ∈ absorbed.commonValues aliases first rest := by
    refine List.mem_filter.2 ⟨List.mem_filterMap.2 ⟨e, he, by rw [hrep]; rfl⟩, ?_⟩
    rw [canName_absorbArms, isVisible_absorbArms, hname,
      hvisible, hreliable, Bool.and_true, Bool.and_true,
      Bool.not_false, Bool.and_true]
    refine List.all_eq_true.2 fun arm harm => ?_
    obtain ⟨rep', hget, hsame⟩ := hrest arm harm
    show sameOperand (arm.values.get? e.1).join rep = true
    rw [hget]
    exact hsame
  have hkept : (e.1, some rep) ∈ (absorbed.commonValues aliases first rest).map
      fun e => (e.1, some e.2) :=
    List.mem_map.2 ⟨(e.1, rep), hcommon, rfl⟩
  obtain ⟨e', he', hkey, hget⟩ := Table.get?_insertAll_of_mem absorbed.top.values ⟨_, hkept, rfl⟩
  obtain ⟨common, hmem, rfl⟩ := List.mem_map.1 he'
  obtain ⟨entry, hentry, hvalue⟩ := List.mem_filterMap.1 (List.mem_filter.1 hmem).1
  obtain ⟨rep', hrep', rfl⟩ := Option.map_eq_some_iff.1 hvalue
  -- the first arm has one entry for the signature
  have hone : e.2 = entry.2 := by
    have hkey' : first.values.get? entry.1 = first.values.get? e.1 := Table.get?_congr hkey
    rw [Table.get?_of_mem hentry, Table.get?_of_mem he] at hkey'
    exact (Option.some.inj hkey').symm
  obtain rfl : rep = rep' := Option.some.inj (hrep.symm.trans (hone.trans hrep'))
  exact lookup_eq_some_iff.2 ⟨hpoison, offered?_of_get? hget⟩

end Congruence

/-! ## All conditionals of a walk -/

namespace Junction

/-- **The facts behind a conditional are facts of every arm**, and what is new
may be used behind it. Conversely, a value that all arms have entered is known
behind it, if facts are kept at all. -/
structure Sound (ctx : Numbering.Context) (j : Junction) : Prop where
  values : ∀ sig rep, j.behind.lookup ctx.aliases ctx.writes sig = some rep →
    ∀ c ∈ j.ends, ∃ rep', c.lookup ctx.aliases ctx.writes sig = some rep' ∧ rep'.same rep = true
  closed : ∀ v, j.behind.isClosed v = true → ∀ c ∈ j.ends, c.isClosed v = true
  newValues : ∀ sig rep, j.behind.lookup ctx.aliases ctx.writes sig = some rep →
    j.before.lookup ctx.aliases ctx.writes sig = some rep
      ∨ (∃ sig' : Signature, sig'.key = sig.key ∧ j.before.canName sig' = true)
        ∧ j.before.isVisible rep = true
  newRepresentatives : ∀ v rep, j.behind.representative? v = some rep →
    j.before.representative? v = some rep
    ∨ (∃ v' : Var, v'.name = v.name ∧ j.before.isDeclared v' = true) ∧ j.before.isVisible rep = true
  newClosed : ∀ v, j.behind.isClosed v = true → j.before.isClosed v = true
    ∨ ∃ v' : Var, v'.name = v.name ∧ j.before.isDeclared v' = true
  kept : ctx.settings.branchMerge = true → ∀ first rest, j.ends = first :: rest →
    ∀ e ∈ first.top.values.entries, ∀ rep, e.2 = some rep →
    (∀ c ∈ rest, ∃ rep', c.top.values.get? e.1 = some (some rep') ∧ rep'.same rep = true) →
    j.before.canName e.1 = true → j.before.isVisible rep = true →
    j.behind.readsPoisoned ctx.aliases e.1 = false →
    j.behind.lookup ctx.aliases ctx.writes e.1 = some rep

/-- **The representatives behind a conditional are those of every arm.** -/
def SameRepresentatives (j : Junction) : Prop :=
  ∀ v rep, j.behind.representative? v = some rep →
    ∀ c ∈ j.ends, ∃ rep', c.representative? v = some rep' ∧ rep'.same rep = true

end Junction

namespace Numbering

section Junctions

variable (ctx : Context)

/-- **The conditionals in the walk over a function.** -/
def junctions (globals : Constants) (f : Function) : List Junction :=
  match f.inputs.foldlM enterInput .new with
  | .ok facts => blockJunctions ctx f.block (opened globals f facts)
  | .error _ => []

end Junctions

section Upheld

variable {ctx : Context} {R : Requirement} {I : State → Prop} {P : Junction → Prop}

/-- A property of all merges of arms that were walked. -/
def OfMerges (ctx : Context) (I : State → Prop) (P : Junction → Prop) : Prop :=
  ∀ {s : State} {arms : List Scope}, I s →
    (∀ arm ∈ arms, arm.kind = .branch ∧ ∃ s', I s' ∧ s'.facts = ⟨arm, s.facts.scopes⟩) →
    P ⟨s.facts, arms.map (⟨·, s.facts.scopes⟩), (mergeArms ctx arms s).facts⟩

/-- **What holds of every merge holds of every conditional of a walk.** -/
theorem forall_blockJunctions (hI : Upheld ctx R I) (hP : OfMerges ctx I P) (b : Block)
    (s : State) (hs : I s) (hb : b.Meets R s.nextBlock s.facts.point)
    (h : (visitBlock ctx b s).fault = none) : ∀ j ∈ blockJunctions ctx b s, P j := by
  intro j hj
  obtain ⟨s', arms, hs', harms, rfl⟩ := (hI.visitBlock b s hs hb h).merged j hj
  exact hP hs' harms

/-- **Every merge of guarded arms is sound.** -/
theorem ofMerges_sound :
    OfMerges ctx (fun s => s.facts.Guarded ctx.aliases ctx.writes) (Junction.Sound ctx) := by
  intro s arms hs harms
  have hguarded : ∀ arm ∈ arms, arm.kind = .branch
      ∧ Congruence.Guarded ctx.aliases ctx.writes ⟨arm, s.facts.scopes⟩ :=
    fun arm harm => by
      obtain ⟨hk, s', hs', hfacts⟩ := harms arm harm
      exact ⟨hk, hfacts ▸ hs'⟩
  constructor
  case values =>
    intro sig rep h
    exact List.forall_mem_map.2 (Congruence.lookup_of_mergeBranches hguarded h)
  case closed =>
    intro v h
    exact List.forall_mem_map.2 (Congruence.isClosed_of_mergeBranches h)
  case newValues =>
    intro sig rep h
    exact Congruence.canName_of_mergeBranches h
  case newRepresentatives =>
    intro v rep h
    refine (representative?_of_mergeBranches h).imp_right ?_
    rintro ⟨-, -, -, e, -, hname, rfl, hdeclared, hvisible⟩
    exact ⟨⟨e.1, hname, hdeclared⟩, hvisible⟩
  case newClosed =>
    intro v h
    exact Congruence.isDeclared_of_mergeBranches h
  case kept =>
    intro hkeep first rest hends e he rep hrep hrest hname hvisible hpoison
    obtain ⟨arm, arms, rfl, rfl, rfl⟩ := List.map_eq_cons_iff.1 hends
    have hfacts : (mergeArms ctx (arm :: arms) s).facts
        = (s.facts.mergeBranches ctx.aliases true (arm :: arms)).2 := by
      rw [← hkeep]
      rfl
    rw [hfacts] at hpoison ⊢
    exact Congruence.lookup_mergeBranches_of_common he hrep
      (fun a ha => hrest _ (List.mem_map_of_mem ha)) hname
      hvisible hpoison

/-- **Where inner representatives are new, every merge keeps the representatives
of all arms.** -/
theorem ofMerges_sameRepresentatives {J : State → Prop} :
    OfMerges ctx (fun s => J s ∧ s.facts.Apart) Junction.SameRepresentatives := by
  intro s arms hs harms v rep h
  have hapart : ∀ arm ∈ arms, Congruence.Apart ⟨arm, s.facts.scopes⟩ := fun arm harm => by
    obtain ⟨-, s', hs', hfacts⟩ := harms arm harm
    exact hfacts ▸ hs'.2
  exact List.forall_mem_map.2 (Congruence.representative?_of_mergeBranches_of_apart hapart h)

end Upheld

section Runs

variable {settings : Settings} {foreign : Foreign} {globals created : Constants}
  {f : Function} {stats : Stats}
  {ctx : Context}

theorem apart_opened {facts : Congruence} (h : f.inputs.foldlM enterInput .new = .ok facts) :
    (opened globals f facts).facts.Apart := fun v rep _ => by
  rw [outer_opened h]
  rfl

/-- **Merging never invents a fact.** Whatever is known behind a conditional of
a walk was known at the end of every arm, and what all arms agree on is known
behind it. For representatives, all occurrences of a variable carry the same
data, names are unique in overlapping scopes, and no block declares a variable
that is marked as a constant. -/
theorem junctions_sound (hctx : contextOf settings foreign f = .ok ctx)
    (h : (run settings foreign globals f).result = .ok (stats, created)) :
    ∀ j ∈ junctions ctx globals f, j.Sound ctx
      ∧ ((∀ v ∈ f.occurrences, ∀ w ∈ f.occurrences, v.name = w.name → v = w) →
        f.block.declaresAnew ((f.inputs ++ f.outputs).map (·.name)) = true →
        (∀ v ∈ f.block.declarations, v.isGlobalConst = false) → j.SameRepresentatives) := by
  obtain ⟨ctx', facts, hctx', hfacts, hfault, -, -⟩ := run_eq_ok h
  obtain rfl : ctx = ctx' := Except.ok.inj (hctx.symm.trans hctx')
  have hjunctions : junctions ctx globals f
      = blockJunctions ctx f.block (opened globals f facts) := by
    unfold junctions
    rw [hfacts]
  rw [hjunctions]
  refine fun j hj => ⟨?_, fun hconsistent hanew hunmarked => ?_⟩
  · have hguarded : (opened globals f facts).facts.Guarded ctx.aliases ctx.writes :=
        fun _ sig _ => by
      rw [outer_opened hfacts]
      exact .inl rfl
    exact forall_blockJunctions (upheld_guarded _) ofMerges_sound f.block _ hguarded
      (Block.meets_ofVars f.block (fun _ _ => trivial) _ _) hfault j hj
  · exact forall_blockJunctions (upheld_apart (suits_spoken hconsistent ctx))
      ofMerges_sameRepresentatives f.block _
      ⟨inOrder_opened _ (wellFormed_spoken hfacts _) hfacts, apart_opened hfacts⟩
      (meets_ordered (fun v hv => List.mem_append_right _ hv) hanew hunmarked hfacts) hfault j hj

/-- A function that computes one sum in both arms of a conditional, and again
behind it. -/
def addsInBothArms : Function where
  name := "f"
  inputs := [.value "c" .bool, .value "x" .int]
  outputs := [⟨"o", .future .int, .stack, .outArg, .user⟩]
  target := .control
  block :=
    let o : Var := ⟨"o", .future .int, .stack, .outArg, .user⟩
    let sum (dst : Var) : Instruction :=
      .compute .now .add dst [.var (.value "x" .int), .lit (.int 1)]
    .mk [.value "y" .int, .value "z" .int]
      (.cont (.ifElse (.var (.value "c" .bool))
        (.mk [] (.instr (sum (.value "y" .int)) .done))
        (.mk [] (.instr (sum (.value "y" .int)) .done)))
      (.instr (sum (.value "z" .int))
      (.instr (.storeScalar o (.var (.value "z" .int))) .done)))

/-- The sum is known at the end of both arms and behind the conditional, so it
is not computed again. -/
theorem junctions_sound_addsInBothArms :
    let sum : Signature := .make (.builtin .now .add) [.var (.value "x" .int), .lit (.int 1)] true
    ∃ ctx, contextOf {} .empty addsInBothArms = .ok ctx
      ∧ (∀ j ∈ junctions ctx .empty addsInBothArms, j.Sound ctx ∧ j.SameRepresentatives)
      ∧ (junctions ctx .empty addsInBothArms).map
          (fun j => (j.behind :: j.ends).map (·.lookup ctx.aliases ctx.writes sum))
        = [List.replicate 3 (some (.var (.value "y" .int)))]
      ∧ (run {} .empty .empty addsInBothArms).function.block.instructions.getLast?
        = some (.storeScalar ⟨"o", .future .int, .stack, .outArg, .user⟩
          (.var (.value "y" .int))) := by
  refine ⟨_, rfl, fun j hj => ?_, by decide +kernel, by decide +kernel⟩
  obtain ⟨⟨stats, created⟩, hrun⟩ : ∃ r, (run {} .empty .empty addsInBothArms).result = .ok r :=
    ⟨_, rfl⟩
  obtain ⟨hsound, hsame⟩ := junctions_sound rfl hrun j hj
  exact ⟨hsound, hsame (by decide +kernel) (by decide +kernel) (by decide +kernel)⟩

/-- A function that copies a literal in a block, another one in an arm behind it
to the same name, and then uses the name. -/
def copiesInArm (k : Var) : Function where
  name := "f"
  inputs := [.value "c" .bool]
  outputs := [⟨"o", .future .int, .stack, .outArg, .user⟩]
  target := .control
  block :=
    let o : Var := ⟨"o", .future .int, .stack, .outArg, .user⟩
    let copying (n : Int64) : Block :=
      .mk [k] (.instr (.compute .now .copy k [.lit (.int n)]) .done)
    .mk []
      (.cont (.nested (copying 5))
      (.cont (.ifElse (.var (.value "c" .bool)) (copying 6) (.mk [] .done))
      (.instr (.storeScalar o (.var k)) .done)))

/-- **An arm and the facts behind it disagree** where the name is marked as a
constant. -/
theorem representatives_differ_of_marked :
    let k : Var := ⟨"k", .value .int, .task, .globalConst, .user⟩
    let f := copiesInArm k
    (∀ v ∈ f.occurrences, ∀ w ∈ f.occurrences, v.name = w.name → v = w)
      ∧ f.block.declaresAnew ((f.inputs ++ f.outputs).map (·.name)) = true
      ∧ (∃ ctx, contextOf {} .empty f = .ok ctx
        ∧ (junctions ctx .empty f).map
          (fun j => (j.behind.representative? k, j.ends.map (·.representative? k)))
          = [(some (.lit (.int 5)), [some (.lit (.int 6)), some (.lit (.int 5))])])
      ∧ (run {} .empty .empty f).function.block.instructions
        = [.storeScalar ⟨"o", .future .int, .stack, .outArg, .user⟩ (.lit (.int 5))] :=
  ⟨by decide +kernel, by decide +kernel, ⟨_, rfl, by decide +kernel⟩, by decide +kernel⟩

end Runs

end Numbering

end ValueFlow
