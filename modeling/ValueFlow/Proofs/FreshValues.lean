import Mathlib.Data.List.Pairwise
import ValueFlow.Proofs.ScopeActions

/-!
# Known values and the writes of blocks that ran in order

A write ends what is known of the storage that it writes, in the innermost scope
only: there the entries of the scopes around are hidden. When the scope is left,
what it hides has to stay hidden. The arms of a conditional are safe in this
respect, since their writes are done over again behind it. A block that ran in
order hands on its entries, tombstones included, but only those that can be
named outside. If it wrote some storage and then noted a value of it in a
variable of its own, the entry is dropped, and an older value may come to light.

So every value that the scopes give is *fresh*, that is, recorded behind the
last write of what it reads, as long as no entry is dropped that has hidden
anything (`Reliable.exec`, `Reliable.fresh_of_given?`). Where such an entry is
dropped, a value is given that is not fresh (`stale_of_not_admits`).
-/

namespace ValueFlow

/-- Entries with identified keys are equal. -/
theorem Table.eq_of_mem_of_key {α β κ : Type} [Keyed α κ] (t : Table α β) {e e' : α × β}
    (he : e ∈ t.entries) (he' : e' ∈ t.entries) (hk : Keyed.key e.1 = Keyed.key e'.1) : e = e' := by
  have : Std.Symm fun a b : α × β => Keyed.key a.1 ≠ Keyed.key b.1 := ⟨fun _ _ => Ne.symm⟩
  by_contra hne
  exact t.unique.forall he he' hne hk

theorem Table.isSome_get?_insertAll {α β κ : Type} [Keyed α κ] [DecidableEq κ] {t : Table α β}
    {a : α} (h : (t.get? a).isSome = true) (entries : List (α × β)) :
    ((t.insertAll entries).get? a).isSome = true := by
  by_cases hm : ∃ e ∈ entries, Keyed.key e.1 = Keyed.key a
  · obtain ⟨e, -, -, hget⟩ := get?_insertAll_of_mem t hm
    exact Option.isSome_iff_exists.2 ⟨e.2, hget⟩
  · rwa [get?_insertAll_of_not_mem t fun e he hk => hm ⟨e, he, hk⟩]

/-! ## Fresh values -/

namespace ScopeLog

variable {aliases : AliasMap} {sig sig' : Signature} {rep rep' : Operand} {log : ScopeLog}
  {ls : List Location}

/-- **The value was recorded in one of the open scopes and not overwritten
since**; the logs are those of the scopes from the inside out. -/
def fresh (aliases : AliasMap) (sig : Signature) (rep : Operand) : List ScopeLog → Bool
  | [] => false
  | log :: outer =>
    log.knows sig rep || spares aliases log.written sig && fresh aliases sig rep outer

theorem knows_iff : log.knows sig rep = true
    ↔ ∃ e ∈ log.known, e.1.key = sig.key ∧ e.2.key = rep.key := by
  simp [knows, Signature.same, Operand.same]

theorem spares_iff : spares aliases ls sig = true
    ↔ ∀ l ∈ ls, Congruence.reads aliases l sig = false := by
  simp [spares]

/-- What does not read the locations written is known behind the write. -/
theorem knows_write (h : log.knows sig rep = true)
    (hls : ∀ l ∈ ls, Congruence.reads aliases l sig = false) :
    (log.write aliases ls).knows sig rep = true := by
  obtain ⟨e, he, hsig, hrep⟩ := knows_iff.1 h
  refine knows_iff.2 ⟨e, List.mem_filter.2 ⟨he, spares_iff.2 fun l hl => ?_⟩, hsig, hrep⟩
  rw [Congruence.reads_congr hsig]
  exact hls l hl

theorem knows_afterNested {child : ScopeLog}
    (h : child.knows sig rep = true ∨ (log.write aliases child.written).knows sig rep = true) :
    (child.afterNested aliases log).knows sig rep = true := by
  rcases h with h | h
  · obtain ⟨e, he, hkeys⟩ := knows_iff.1 h
    exact knows_iff.2 ⟨e, List.mem_append_left _ he, hkeys⟩
  · obtain ⟨e, he, hkeys⟩ := knows_iff.1 h
    exact knows_iff.2 ⟨e, List.mem_append_right _ he, hkeys⟩

/-- What every arm knows is common to all of them. -/
theorem knows_afterBranches_of_arms {arms : List ScopeLog} (harms : arms ≠ [])
    (h : ∀ arm ∈ arms, ∃ rep', rep'.key = rep.key ∧ arm.knows sig rep' = true) :
    (log.afterBranches aliases arms).knows sig rep = true := by
  obtain ⟨first, rest, rfl⟩ := List.exists_cons_of_ne_nil harms
  obtain ⟨rep₁, hrep₁, h₁⟩ := h first List.mem_cons_self
  obtain ⟨e, he, hsig, hrep⟩ := knows_iff.1 h₁
  have hcommon : e ∈ common (first :: rest) := by
    refine List.mem_filter.2 ⟨he, List.all_eq_true.2 fun arm harm => ?_⟩
    obtain ⟨rep₂, hrep₂, h₂⟩ := h arm (List.mem_cons_of_mem _ harm)
    obtain ⟨e', he', hsig', hrep'⟩ := knows_iff.1 h₂
    refine knows_iff.2 ⟨e', he', hsig'.trans hsig.symm, ?_⟩
    rw [hrep', hrep₂, hrep, hrep₁]
  exact knows_iff.2 ⟨e, List.mem_append_left _ hcommon, hsig, hrep.trans hrep₁⟩

theorem knows_afterBranches {arms : List ScopeLog}
    (h : (log.write aliases (arms.flatMap (·.written))).knows sig rep = true) :
    (log.afterBranches aliases arms).knows sig rep = true := by
  obtain ⟨e, he, hkeys⟩ := knows_iff.1 h
  exact knows_iff.2 ⟨e, List.mem_append_right _ he, hkeys⟩

end ScopeLog

/-! ## What the scopes say about a signature -/

namespace Congruence

variable {aliases : AliasMap} {c : Congruence} {sig : Signature} {rep : Operand} {l : Location}
  {child : Scope} {arms : List Scope}

/-- What the innermost scope with an entry for the signature gives as its value;
none hides the others. -/
def given? (sig : Signature) (scopes : List Scope) : Option (Option Operand) :=
  scopes.findSome? (·.values.get? sig)

theorem given?_cons (scope : Scope) (outer : List Scope) :
    given? sig (scope :: outer) = (scope.values.get? sig).or (given? sig outer) := by
  unfold given?
  rw [List.findSome?_cons]
  cases scope.values.get? sig <;> rfl

theorem given?_of_find? {scopes : List Scope} {crossed : Bool} {found : Option Operand × Bool}
    (h : find? sig crossed scopes = some found) : given? sig scopes = some found.1 := by
  induction scopes generalizing crossed with
  | nil => cases h
  | cons scope outer ih =>
    rw [find?] at h
    rw [given?_cons]
    cases hget : scope.values.get? sig with
    | none =>
      rw [hget] at h
      exact ih h
    | some entry =>
      rw [hget] at h
      obtain rfl := Option.some.inj h
      rfl

theorem given?_congr {sig' : Signature} (h : sig.key = sig'.key) (scopes : List Scope) :
    given? sig scopes = given? sig' scopes := by
  unfold given?
  congr 1
  funext scope
  exact Table.get?_congr h

/-- **A write ends every value of the innermost scope that reads what is
written.** -/
theorem get?_invalidate
    (h : (c.invalidate aliases l).2.top.values.get? sig = some (some rep)) :
    c.top.values.get? sig = some (some rep) ∧ reads aliases l sig = false := by
  rcases Table.get?_insertAll_eq_some h with ⟨e, he, -, heq⟩ | ⟨-, hget⟩
  · obtain ⟨s, -, rfl⟩ := List.mem_map.1 he
    cases heq
  · exact ⟨hget, (find?_invalidate (find?_of_get? h)).2⟩

/-- A write hides every value outside that reads what is written. -/
theorem isSome_get?_invalidate (hgiven : given? sig c.outer = some (some rep))
    (hreads : reads aliases l sig = true) :
    ((c.invalidate aliases l).2.top.values.get? sig).isSome = true := by
  obtain ⟨scope, hscope, hget⟩ := List.exists_of_findSome?_eq_some hgiven
  obtain ⟨e, he, hk, hrep⟩ := Table.get?_eq_some_iff.1 hget
  have haffected : e.1 ∈ c.affected aliases l := by
    refine mem_affected.2 ⟨scope, List.mem_cons_of_mem _ hscope, e, he, ?_, ?_, rfl⟩
    · rw [hrep]
      rfl
    · exact (reads_congr hk aliases l).trans hreads
  obtain ⟨e', -, -, hget'⟩ := Table.get?_insertAll_of_mem c.top.values
    ⟨(e.1, none), List.mem_map_of_mem (f := fun s => (s, none)) haffected, hk⟩
  exact Option.isSome_iff_exists.2 ⟨e'.2, hget'⟩

theorem isSome_get?_invalidateAll {ls : List Location}
    (hgiven : given? sig c.outer = some (some rep))
    (h : (c.top.values.get? sig).isSome = true ∨ ∃ l ∈ ls, reads aliases l sig = true) :
    ((ls.foldl (fun c l => (c.invalidate aliases l).2) c).top.values.get? sig).isSome = true := by
  induction ls generalizing c with
  | nil =>
    rcases h with h | ⟨l, hl, -⟩
    · exact h
    · cases hl
  | cons l ls ih =>
    refine ih (c := (c.invalidate aliases l).2) hgiven ?_
    rcases h with h | ⟨m, hm, hreads⟩
    · exact .inl (Table.isSome_get?_insertAll h _)
    · rcases List.mem_cons.1 hm with rfl | hm
      · exact .inl (isSome_get?_invalidate hgiven hreads)
      · exact .inr ⟨m, hm, hreads⟩

/-- The arms of a conditional hide every value that reads what one of them wrote. -/
theorem isSome_get?_absorbArms (hgiven : given? sig c.outer = some (some rep))
    (h : (c.top.values.get? sig).isSome = true ∨ ∃ arm ∈ arms, ∃ l ∈ arm.invalidated,
      reads aliases l sig = true) :
    ((arms.foldl (absorbArm aliases) c).top.values.get? sig).isSome = true := by
  induction arms generalizing c with
  | nil =>
    rcases h with h | ⟨arm, harm, -⟩
    · exact h
    · cases harm
  | cons arm arms ih =>
    have houter : (absorbArm aliases c arm).outer = c.outer :=
      (sameLevel_invalidateAll aliases arm.invalidated c).1
    refine ih (houter ▸ hgiven) ?_
    have hinvalidated : (c.top.values.get? sig).isSome = true
        ∨ (∃ l ∈ arm.invalidated, reads aliases l sig = true) →
        ((absorbArm aliases c arm).top.values.get? sig).isSome = true :=
      isSome_get?_invalidateAll hgiven
    rcases h with h | ⟨arm', harm', hreads⟩
    · exact .inl (hinvalidated (.inl h))
    · rcases List.mem_cons.1 harm' with rfl | harm'
      · exact .inl (hinvalidated (.inr hreads))
      · exact .inr ⟨arm', harm', hreads⟩

theorem get?_invalidateAll {ls : List Location}
    (h : (ls.foldl (fun c l => (c.invalidate aliases l).2) c).top.values.get? sig
      = some (some rep)) :
    c.top.values.get? sig = some (some rep) ∧ ∀ l ∈ ls, reads aliases l sig = false := by
  induction ls generalizing c with
  | nil => exact ⟨h, List.forall_mem_nil _⟩
  | cons l ls ih =>
    obtain ⟨h, hls⟩ := ih h
    obtain ⟨h, hl⟩ := get?_invalidate h
    exact ⟨h, List.forall_mem_cons.2 ⟨hl, hls⟩⟩

theorem get?_absorbArms
    (h : (arms.foldl (absorbArm aliases) c).top.values.get? sig = some (some rep)) :
    c.top.values.get? sig = some (some rep)
      ∧ ∀ arm ∈ arms, ∀ l ∈ arm.invalidated, reads aliases l sig = false := by
  induction arms generalizing c with
  | nil => exact ⟨h, List.forall_mem_nil _⟩
  | cons arm arms ih =>
    obtain ⟨h, harms⟩ := ih h
    obtain ⟨h, harm⟩ := get?_invalidateAll (h : (arm.invalidated.foldl (fun c l =>
      (c.invalidate aliases l).2) c).top.values.get? sig = _)
    exact ⟨h, List.forall_mem_cons.2 ⟨harm, harms⟩⟩

/-- **What the innermost scope says behind a conditional** every arm says, or it
was said before and does not read what an arm wrote. -/
theorem get?_mergeBranches {keep : Bool}
    (h : (c.mergeBranches aliases keep arms).2.top.values.get? sig = some (some rep)) :
    arms ≠ [] ∧ (∀ arm ∈ arms, ∃ rep', rep'.key = rep.key ∧ arm.values.get? sig = some (some rep'))
      ∨ c.top.values.get? sig = some (some rep)
        ∧ ∀ arm ∈ arms, ∀ l ∈ arm.invalidated, reads aliases l sig = false := by
  rcases mergeBranches_cases aliases keep arms c with heq | ⟨first, rest, rfl, heq⟩
  · rw [heq] at h
    exact .inr (get?_absorbArms h)
  · rw [heq] at h
    rcases Table.get?_insertAll_eq_some h with ⟨e, he, hk, heq⟩ | ⟨-, hget⟩
    · obtain ⟨common, hcommon, rfl⟩ := List.mem_map.1 he
      obtain rfl := Option.some.inj heq
      refine .inl ⟨List.cons_ne_nil _ _, fun arm harm => ?_⟩
      obtain ⟨rep', hget, hrep⟩ := get?_of_mem_commonValues hcommon arm harm
      exact ⟨rep', hrep, (Table.get?_congr hk).symm.trans hget⟩
    · exact .inr (get?_absorbArms hget)

/-- The entries that a block which ran in order hands on. -/
def handedOn (c : Congruence) (child : Scope) : List (Signature × Option Operand) :=
  child.values.entries.filter fun e => c.canName e.1 && e.2.all c.isVisible

/-- **No entry that is dropped has hidden anything**: an entry of the block that
reads what the block wrote is handed on, or the scopes around give no value of
the signature other than one that the block has recorded itself. -/
def covers (c : Congruence) (aliases : AliasMap) (child : Scope) (log : ScopeLog) : Bool :=
  child.values.entries.all fun e =>
    !child.invalidated.any (reads aliases · e.1) || c.canName e.1 && e.2.all c.isVisible
      || (given? e.1 c.scopes).join.all (log.knows e.1)

/-- What was hidden by a block stays hidden behind it. -/
theorem handedOn_or_knows {log : ScopeLog} (hcovers : c.covers aliases child log = true)
    (hl : l ∈ child.invalidated) (hreads : reads aliases l sig = true)
    (hchild : (child.values.get? sig).isSome = true)
    (hgiven : given? sig c.scopes = some (some rep)) :
    (∃ e ∈ c.handedOn child, e.1.key = sig.key) ∨ log.knows sig rep = true := by
  obtain ⟨entry, hget⟩ := Option.isSome_iff_exists.1 hchild
  obtain ⟨e, he, hk, -⟩ := Table.get?_eq_some_iff.1 hget
  have hany : child.invalidated.any (reads aliases · e.1) = true :=
    List.any_eq_true.2 ⟨l, hl, (reads_congr hk aliases l).trans hreads⟩
  have hok := List.all_eq_true.1 hcovers e he
  rw [given?_congr hk, hgiven, hany, Bool.not_true, Bool.false_or, Bool.or_eq_true] at hok
  refine hok.imp (fun hkept => ⟨e, List.mem_filter.2 ⟨he, hkept⟩, hk⟩) fun hknows => ?_
  obtain ⟨e', he', hsig, hrep⟩ := ScopeLog.knows_iff.1 hknows
  exact ScopeLog.knows_iff.2 ⟨e', he', hsig.trans hk, hrep⟩

/-- **An entry that is dropped lets an older value come to light.** -/
theorem given?_of_not_covers {log : ScopeLog} (h : c.covers aliases child log = false) :
    ∃ sig rep l, l ∈ child.invalidated ∧ reads aliases l sig = true ∧ log.knows sig rep = false
      ∧ given? sig (c.mergeNested child).scopes = some (some rep) := by
  obtain ⟨e, he, hok⟩ := List.all_eq_false.1 h
  simp only [Bool.or_eq_true, not_or, Bool.not_eq_true, Bool.not_eq_false'] at hok
  obtain ⟨⟨hany, hdropped⟩, hknows⟩ := hok
  obtain ⟨l, hl, hreads⟩ := List.any_eq_true.1 hany
  obtain ⟨rep, hjoin, hrep⟩ := (Option.all_eq_false _ _).1 hknows
  refine ⟨e.1, rep, l, hl, hreads, hrep, ?_⟩
  -- no other entry of the block is about the signature
  have hother : ∀ e' ∈ c.handedOn child, Keyed.key e'.1 ≠ Keyed.key e.1 := by
    intro e' he' hk
    obtain ⟨hmem, hkept⟩ := List.mem_filter.1 he'
    rw [child.values.eq_of_mem_of_key hmem he hk] at hkept
    exact Bool.eq_false_iff.1 hdropped hkept
  have hget : (c.mergeNested child).top.values.get? e.1 = c.top.values.get? e.1 :=
    Table.get?_insertAll_of_not_mem _ hother
  rw [Congruence.scopes, given?_cons, hget]
  exact (given?_cons _ _).symm.trans (Option.join_eq_some_iff.1 hjoin)

end Congruence

/-! ## Shields -/

/-- **A scope hides what it wrote**: whatever value the scopes around give for
storage that was written in order in the scope, the scope has an entry for it,
or this very value was recorded again behind the write. -/
def Shields (aliases : AliasMap) (scope : Scope) (log : ScopeLog) (outer : List Scope) : Prop :=
  ∀ l ∈ scope.invalidated, ∀ sig, Congruence.reads aliases l sig = true →
    ∀ rep, Congruence.given? sig outer = some (some rep) →
      (scope.values.get? sig).isSome = true ∨ log.knows sig rep = true

/-- Every scope hides what it wrote. -/
def Shielded (aliases : AliasMap) : List Scope → List ScopeLog → Prop
  | scope :: outer, log :: logs => Shields aliases scope log outer ∧ Shielded aliases outer logs
  | _, _ => True

namespace Shields

open Congruence

variable {aliases : AliasMap} {c : Congruence} {child : Scope}
  {log childLog : ScopeLog} {outer : List Scope}

theorem new (kind : ScopeKind) (log : ScopeLog) (outer : List Scope) :
    Shields aliases (.new kind) log outer :=
  fun _ hl => nomatch hl

/-- More entries hide more. -/
theorem insertAll {scope : Scope} (h : Shields aliases scope log outer)
    (entries : List (Signature × Option Operand)) {scope' : Scope} {log' : ScopeLog}
    (hv : scope'.values = scope.values.insertAll entries)
    (hi : scope'.invalidated = scope.invalidated) (hlog : log.known ⊆ log'.known) :
    Shields aliases scope' log' outer := by
  intro l hl sig hreads rep hgiven
  rw [hi] at hl
  rw [hv]
  refine (h l hl sig hreads rep hgiven).imp (Table.isSome_get?_insertAll · entries) fun hknows => ?_
  obtain ⟨e, he, hkeys⟩ := ScopeLog.knows_iff.1 hknows
  exact ScopeLog.knows_iff.2 ⟨e, hlog he, hkeys⟩

theorem invalidate (h : Shields aliases c.top log c.outer) (l : Location) :
    Shields aliases (c.invalidate aliases l).2.top (log.write aliases [l]) c.outer := by
  intro m hm sig hreads rep hgiven
  by_cases hl : reads aliases l sig = true
  · exact .inl (isSome_get?_invalidate hgiven hl)
  · rcases List.mem_append.1 hm with hm | hm
    · refine (h m hm sig hreads rep hgiven).imp (Table.isSome_get?_insertAll · _) fun hknows => ?_
      exact ScopeLog.knows_write hknows (List.forall_mem_singleton.2 (Bool.eq_false_iff.2 hl))
    · exact absurd (List.mem_singleton.1 hm ▸ hreads) hl

/-- **Behind a conditional** everything that an arm wrote is hidden. -/
theorem mergeBranches (h : Shields aliases c.top log c.outer) (keep : Bool) {arms : List Scope}
    {logs : List ScopeLog}
    (hwritten : ∀ l ∈ logs.flatMap (·.written), ∃ arm ∈ arms, l ∈ arm.invalidated) :
    Shields aliases (c.mergeBranches aliases keep arms).2.top
      (log.afterBranches aliases logs) c.outer := by
  have hmono : ∀ sig, ((arms.foldl (absorbArm aliases) c).top.values.get? sig).isSome = true →
      ((c.mergeBranches aliases keep arms).2.top.values.get? sig).isSome = true := by
    intro sig hsome
    rcases mergeBranches_cases aliases keep arms c with heq | ⟨first, rest, rfl, heq⟩
    · rwa [heq]
    · rw [heq]
      exact Table.isSome_get?_insertAll hsome _
  intro l hl sig hreads rep hgiven
  by_cases harms : ∃ arm ∈ arms, ∃ m ∈ arm.invalidated, reads aliases m sig = true
  · exact .inl (hmono sig (isSome_get?_absorbArms hgiven (.inr harms)))
  · rw [(mergeBranches_spec aliases keep arms c).2.1] at hl
    rcases List.mem_append.1 hl with hl | hl
    · refine (h l hl sig hreads rep hgiven).imp
        (fun hsome => hmono sig (isSome_get?_absorbArms hgiven (.inl hsome))) fun hknows => ?_
      refine ScopeLog.knows_afterBranches (ScopeLog.knows_write hknows fun m hm => ?_)
      obtain ⟨arm, harm, hm⟩ := hwritten m hm
      exact Bool.eq_false_iff.2 fun hreads' => harms ⟨arm, harm, m, hm, hreads'⟩
    · obtain ⟨arm, harm, hl⟩ := List.mem_flatMap.1 hl
      exact absurd ⟨arm, harm, l, hl, hreads⟩ harms

/-- **Behind a block that ran in order** everything that it wrote is hidden, if
no entry that is dropped has hidden anything. -/
theorem mergeNested (h : Shields aliases c.top log c.outer)
    (hchild : Shields aliases child childLog c.scopes)
    (hnotes : ∀ l ∈ childLog.written, l ∈ child.invalidated)
    (hcovers : c.covers aliases child childLog = true) :
    Shields aliases (c.mergeNested child).top (childLog.afterNested aliases log) c.outer := by
  intro l hl sig hreads rep hgiven
  by_cases htop : (c.top.values.get? sig).isSome = true
  · exact .inl (Table.isSome_get?_insertAll htop _)
  · have hscopes : given? sig c.scopes = some (some rep) := by
      rw [Congruence.scopes, given?_cons, Option.not_isSome_iff_eq_none.1 htop]
      exact hgiven
    have hhidden : ∀ m ∈ child.invalidated, reads aliases m sig = true →
        ((c.mergeNested child).top.values.get? sig).isSome = true
          ∨ (childLog.afterNested aliases log).knows sig rep = true := by
      intro m hm hreads
      have hok := (hchild m hm sig hreads rep hscopes).elim
        (handedOn_or_knows hcovers hm hreads · hscopes) Or.inr
      refine hok.imp (fun hmem => ?_) fun hknows => ScopeLog.knows_afterNested (.inl hknows)
      obtain ⟨e, -, -, hget⟩ := Table.get?_insertAll_of_mem c.top.values hmem
      exact Option.isSome_iff_exists.2 ⟨e.2, hget⟩
    by_cases hchildReads : ∃ m ∈ child.invalidated, reads aliases m sig = true
    · obtain ⟨m, hm, hreads⟩ := hchildReads
      exact hhidden m hm hreads
    · rcases List.mem_append.1 hl with hl | hl
      · refine .inr (ScopeLog.knows_afterNested (.inr (ScopeLog.knows_write
          ((h l hl sig hreads rep hgiven).resolve_left htop) fun m hm => ?_)))
        exact Bool.eq_false_iff.2 fun hreads' => hchildReads ⟨m, hnotes m hm, hreads'⟩
      · exact hhidden l hl hreads

end Shields

/-! ## Sessions -/

namespace Session

open Congruence

variable {aliases : AliasMap} {s s' : Session} {a : ScopeAction}
  {actions actions' : List ScopeAction}

/-- The values that the scope gives were recorded in it and not overwritten
since. -/
def Records (scope : Scope) (log : ScopeLog) : Prop :=
  ∀ sig rep, scope.values.get? sig = some (some rep) → log.knows sig rep = true

/-- **What is known can be relied on.** -/
structure Reliable (aliases : AliasMap) (s : Session) : Prop where
  notes : s.All Notes
  records : s.All Records
  shielded : Shielded aliases s.facts.scopes (s.log :: s.outer)

/-- **Every value that the scopes give is fresh.** -/
theorem Reliable.fresh_of_given? (hs : s.Reliable aliases) {sig : Signature} {rep : Operand}
    (hgiven : given? sig s.facts.scopes = some (some rep)) :
    ScopeLog.fresh aliases sig rep (s.log :: s.outer) = true := by
  obtain ⟨⟨hnotes, -⟩, ⟨hrecords, -⟩, hshielded⟩ := hs
  generalize s.facts.scopes = scopes, s.log :: s.outer = logs at hgiven hnotes hrecords hshielded ⊢
  induction hrecords with
  | nil => cases hgiven
  | @cons scope log scopes logs hrecord _ ih =>
    obtain ⟨hnote, hnotes⟩ := List.forall₂_cons.1 hnotes
    rw [given?_cons] at hgiven
    rw [ScopeLog.fresh, Bool.or_eq_true, Bool.and_eq_true]
    cases hget : scope.values.get? sig with
    | some entry =>
      rw [hget] at hgiven
      exact .inl (hrecord sig rep (hget.trans hgiven))
    | none =>
      -- the value is given further outside, and the scope would hide it if it had
      -- been overwritten
      rw [hget] at hgiven
      by_cases hspares : ScopeLog.spares aliases log.written sig = true
      · exact .inr ⟨hspares, ih hgiven hnotes hshielded.2⟩
      · rw [ScopeLog.spares_iff, not_forall₂] at hspares
        obtain ⟨l, hl, hreads⟩ := hspares
        have hhidden := hshielded.1 l (hnote.written l hl)
          sig (Bool.not_eq_false _ ▸ hreads) rep hgiven
        rw [hget] at hhidden
        exact .inl (hhidden.resolve_left Bool.false_ne_true)

/-- The first scope held hides what was written in it, and drops nothing by
which it does so. -/
def Mergeable (aliases : AliasMap) (s : Session) : Prop :=
  ∀ h ∈ s.held.head?, Shields aliases h.1 h.2 s.facts.scopes ∧ s.facts.covers aliases h.1 h.2 = true

section Changes

variable {scope : Scope} {log : ScopeLog}

/-- What an action on the innermost scope leaves there was recorded. -/
theorem Changes.records (h : s.Changes aliases a scope log) (hs : s.Reliable aliases)
    (hnested : a = .mergeNested → s.Mergeable aliases) : Records scope log := by
  have htop := hs.records.top
  cases h with
  | kept hvalues =>
    intro sig rep hget
    exact htop sig rep (hvalues ▸ hget)
  | recorded sig rep =>
    intro sig' rep' hget
    rw [Table.get?_insert] at hget
    split at hget
    · rename_i hk
      obtain rfl := Option.some.inj (Option.some.inj hget)
      exact ScopeLog.knows_iff.2 ⟨(sig, rep), List.mem_cons_self, hk, rfl⟩
    · obtain ⟨e, he, hkeys⟩ := ScopeLog.knows_iff.1 (htop sig' rep' hget)
      exact ScopeLog.knows_iff.2 ⟨e, List.mem_cons_of_mem _ he, hkeys⟩
  | invalidated =>
    intro sig rep hget
    obtain ⟨hget, hl⟩ := get?_invalidate hget
    exact ScopeLog.knows_write (htop sig rep hget) (List.forall_mem_singleton.2 hl)
  | @nested child log haction hfirst =>
    have hheld := List.mem_of_mem_head? hfirst
    obtain ⟨hshields, hcovers⟩ := hnested haction (child, log) hfirst
    intro sig rep hget
    refine ScopeLog.knows_afterNested ?_
    rcases Table.get?_insertAll_eq_some hget with ⟨e, he, hk, heq⟩ | ⟨hdropped, hget⟩
    · have hchild := Table.get?_eq_some_iff.2 ⟨e, (List.mem_filter.1 he).1, hk, heq⟩
      exact .inl (hs.records.held _ hheld sig rep hchild)
    · -- had the block overwritten the value, it would have handed on an entry for it
      by_cases hspares : ∀ l ∈ log.written, reads aliases l sig = false
      · exact .inr (ScopeLog.knows_write (htop sig rep hget) hspares)
      · obtain ⟨l, hl, hreads⟩ := not_forall₂.1 hspares
        have hl' := (hs.notes.held _ hheld).written l hl
        have hreads' : reads aliases l sig = true := Bool.not_eq_false _ ▸ hreads
        have hgiven : given? sig s.facts.scopes = some (some rep) := by
          rw [Congruence.scopes, given?_cons, hget]
          rfl
        have hhidden := (hshields l hl' sig hreads' rep hgiven).elim
          (handedOn_or_knows hcovers hl' hreads' · hgiven) Or.inr
        rcases hhidden with ⟨e, he, hk⟩ | hknows
        · exact absurd hk (hdropped e he)
        · exact .inl hknows
  | deferred => exact htop
  | branches keep harms =>
    intro sig rep hget
    rcases get?_mergeBranches hget with ⟨hne, hall⟩ | ⟨hget, hspared⟩
    · refine ScopeLog.knows_afterBranches_of_arms (fun h => hne ?_) fun log hlog => ?_
      · rw [List.map_eq_nil_iff.1 h]
        rfl
      · obtain ⟨arm, harm, rfl⟩ := List.mem_map.1 hlog
        obtain ⟨rep', hrep, hget⟩ := hall arm.1 (List.mem_map_of_mem harm)
        exact ⟨rep', hrep, hs.records.held arm (harms harm) sig rep' hget⟩
    · refine ScopeLog.knows_afterBranches (ScopeLog.knows_write (htop sig rep hget) fun l hl => ?_)
      rw [List.flatMap_map] at hl
      obtain ⟨arm, harm, hl⟩ := List.mem_flatMap.1 hl
      exact hspared arm.1 (List.mem_map_of_mem harm) l
        ((hs.notes.held arm (harms harm)).written l hl)

/-- What an action on the innermost scope leaves there hides what was written. -/
theorem Changes.shields (h : s.Changes aliases a scope log) (hs : s.Reliable aliases)
    (hnested : a = .mergeNested → s.Mergeable aliases) :
    Shields aliases scope log s.facts.outer := by
  obtain ⟨htop, -⟩ := hs.shielded
  cases h with
  | kept hvalues hinv => exact htop.insertAll [] hvalues hinv (List.Subset.refl _)
  | recorded sig rep => exact htop.insertAll [(sig, some rep)] rfl rfl (List.subset_cons_self _ _)
  | @invalidated l => exact htop.invalidate l
  | nested haction hfirst =>
    obtain ⟨hshields, hcovers⟩ := hnested haction _ hfirst
    exact htop.mergeNested hshields (hs.notes.held _ (List.mem_of_mem_head? hfirst)).written hcovers
  | deferred => exact htop.insertAll [] rfl rfl (List.Subset.refl _)
  | branches keep harms =>
    refine htop.mergeBranches keep fun l hl => ?_
    rw [List.flatMap_map] at hl
    obtain ⟨arm, harm, hl⟩ := List.mem_flatMap.1 hl
    exact ⟨arm.1, List.mem_map_of_mem harm, (hs.notes.held arm (harms harm)).written l hl⟩

end Changes

theorem pop_of_step (h : s.step aliases .pop = some s') :
    s.facts.outer = s'.facts.scopes ∧ s.outer = s'.log :: s'.outer
      ∧ s'.held = (s.facts.top, s.log) :: s.held := by
  rw [step] at h
  split at h
  · rename_i child facts log outer hpop hlogs
    obtain rfl := Option.some.inj h
    unfold Congruence.pop at hpop
    split at hpop
    · cases hpop
    · rename_i parent rest hscopes
      obtain ⟨rfl, rfl⟩ := Prod.mk.inj (Except.ok.inj hpop)
      exact ⟨hscopes, hlogs, rfl⟩
  · cases h

/-- **What is known can be relied on behind every action**, if a block that ran
in order hides what it wrote and drops nothing by which it does so. -/
theorem Reliable.step (hs : s.Reliable aliases) (hnested : a = .mergeNested → s.Mergeable aliases)
    (h : s.step aliases a = some s') : s'.Reliable aliases := by
  refine ⟨hs.notes.step .new (fun ha => (changes_of_isLocal ha h).notes hs.notes) h,
    hs.records.step (fun _ _ _ hget => nomatch hget)
    (fun ha => (changes_of_isLocal ha h).records hs hnested) h, ?_⟩
  cases hlocal : a.isLocal with
  | true =>
    obtain ⟨ho, hl, -⟩ := outer_of_isLocal hlocal h
    unfold Congruence.scopes
    rw [ho, hl]
    exact ⟨(changes_of_isLocal hlocal h).shields hs hnested, hs.shielded.2⟩
  | false =>
    cases a with
    | push kind =>
      obtain rfl := Option.some.inj h
      exact ⟨.new kind _ _, hs.shielded⟩
    | pop =>
      obtain ⟨hscopes, hlogs, -⟩ := pop_of_step h
      rw [← hscopes, ← hlogs]
      exact hs.shielded.2
    | make kind =>
      obtain rfl := Option.some.inj h
      exact hs.shielded
    | select k =>
      obtain ⟨first, -, rfl⟩ := Option.map_eq_some_iff.1 h
      exact hs.shielded
    | declare | define | close | setCanonical | record | invalidate | mergeNested | mergeDeferred
      | mergeBranches => cases hlocal

theorem Reliable.new : Session.new.Reliable aliases :=
  ⟨.new .new, .new (fun _ _ _ hget => nomatch hget), .new .root _ _, trivial⟩

/-- The action drops no entry that has hidden anything. -/
def admits (aliases : AliasMap) (s : Session) : ScopeAction → Bool
  | .mergeNested => s.held.head?.all fun h => s.facts.covers aliases h.1 h.2
  | _ => true

/-- **None of the actions drops an entry that has hidden anything.** -/
def covered (aliases : AliasMap) : List ScopeAction → Session → Bool
  | [], _ => true
  | a :: actions, s => s.admits aliases a && (s.step aliases a).all (covered aliases actions)

/-- **A scope whose block ran in order is merged right when it is left.** The
flag tells whether a scope was left just now. -/
def prompt : Bool → List ScopeAction → Bool
  | _, [] => true
  | left, .mergeNested :: actions => left && prompt false actions
  | _, .pop :: actions => prompt true actions
  | _, _ :: actions => prompt false actions

/-- **What is known can be relied on behind every sequence of actions** that
merges promptly and drops no entry that has hidden anything. -/
theorem Reliable.exec (hs : s.Reliable aliases) {left : Bool}
    (hleft : left = true → ∀ h ∈ s.held.head?, Shields aliases h.1 h.2 s.facts.scopes)
    (hprompt : prompt left actions = true) (hcovered : covered aliases actions s = true)
    (h : s.exec aliases actions = some s') : s'.Reliable aliases := by
  induction actions generalizing s left with
  | nil => exact Option.some.inj h ▸ hs
  | cons a actions ih =>
    rw [exec_cons] at h
    obtain ⟨s₁, h₁, h₂⟩ := Option.bind_eq_some_iff.1 h
    rw [covered, h₁, Option.all_some, Bool.and_eq_true] at hcovered
    obtain ⟨hadmits, hcovered⟩ := hcovered
    have hno : false = true → ∀ h ∈ s₁.held.head?, Shields aliases h.1 h.2 s₁.facts.scopes := nofun
    cases a with
    | mergeNested =>
      rw [prompt, Bool.and_eq_true] at hprompt
      refine ih (hs.step (fun _ first hfirst => ?_) h₁) hno hprompt.2 hcovered h₂
      exact ⟨hleft hprompt.1 first hfirst, (Option.all_eq_true _ _).1 hadmits first hfirst⟩
    | pop =>
      refine ih (hs.step (by rintro ⟨⟩) h₁) (fun _ first hfirst => ?_) hprompt hcovered h₂
      obtain ⟨hscopes, -, hheld⟩ := pop_of_step h₁
      rw [hheld] at hfirst
      obtain rfl := Option.some.inj hfirst
      rw [← hscopes]
      exact hs.shielded.1
    | push | make | select | declare | define | close | setCanonical | record | invalidate
      | mergeDeferred | mergeBranches =>
      exact ih (hs.step (by rintro ⟨⟩) h₁) hno hprompt hcovered h₂

section Sequences

variable {left : Bool}

theorem prompt_of_not_mem (h : .mergeNested ∉ actions) (left : Bool) :
    prompt left actions = true := by
  induction actions generalizing left with
  | nil => rfl
  | cons a actions ih =>
    rw [List.mem_cons, not_or] at h
    cases a with
    | mergeNested => exact absurd rfl h.1
    | _ => exact ih h.2 _

theorem covered_of_not_mem (h : .mergeNested ∉ actions) (s : Session) :
    covered aliases actions s = true := by
  induction actions generalizing s with
  | nil => rfl
  | cons a actions ih =>
    rw [List.mem_cons, not_or] at h
    have hadmits : s.admits aliases a = true := by
      cases a with
      | mergeNested => exact absurd rfl h.1
      | _ => rfl
    rw [covered, hadmits, Bool.true_and]
    exact (Option.all_eq_true _ _).2 fun s' _ => ih h.2 s'

theorem prompt_of_prompt_false (h : prompt false actions = true) : prompt left actions = true := by
  cases actions with
  | nil => rfl
  | cons a actions => cases a <;> first | exact h | cases h

theorem prompt_append (h : prompt left actions = true) (h' : prompt false actions' = true) :
    prompt left (actions ++ actions') = true := by
  induction actions generalizing left with
  | nil => exact prompt_of_prompt_false h'
  | cons a actions ih =>
    cases a with
    | mergeNested =>
      rw [prompt, Bool.and_eq_true] at h
      rw [List.cons_append, prompt, Bool.and_eq_true]
      exact ⟨h.1, ih h.2⟩
    | _ => exact ih h

theorem prompt_of_append (h : prompt left (actions ++ actions') = true) :
    prompt left actions = true := by
  induction actions generalizing left with
  | nil => rfl
  | cons a actions ih =>
    cases a with
    | mergeNested =>
      rw [List.cons_append, prompt, Bool.and_eq_true] at h
      rw [prompt, Bool.and_eq_true]
      exact ⟨h.1, ih h.2⟩
    | _ => exact ih h

theorem covered_append : covered aliases (actions ++ actions') s = true
    ↔ covered aliases actions s = true
      ∧ ∀ s', s.exec aliases actions = some s' → covered aliases actions' s' = true := by
  induction actions generalizing s with
  | nil => simp [covered]
  | cons a actions ih =>
    rw [List.cons_append, covered, covered, exec_cons]
    cases s.step aliases a with
    | none => simp
    | some s₁ => simp [ih, and_assoc]

end Sequences

/-! ### What is dropped -/

/-- The log tells of everything that the scope has noted as written. -/
def Tells (scope : Scope) (log : ScopeLog) : Prop := ∀ l ∈ scope.invalidated, l ∈ log.written

theorem Changes.tells {scope : Scope} {log : ScopeLog} (h : s.Changes aliases a scope log)
    (hs : s.All Tells) : Tells scope log := by
  have htop := hs.top
  cases h with
  | kept _ hinv => exact fun l hl => htop l (hinv ▸ hl)
  | recorded | deferred => exact htop
  | invalidated => exact mem_append_of_mem htop fun _ hl => hl
  | nested _ hfirst => exact mem_append_of_mem htop (hs.held _ (List.mem_of_mem_head? hfirst))
  | @branches keep arms harms =>
    show ∀ l ∈ (s.facts.mergeBranches aliases keep _).2.top.invalidated, _
    rw [(Congruence.mergeBranches_spec aliases keep (arms.map (·.1)) s.facts).2.1, List.flatMap_map]
    refine mem_append_of_mem htop fun l hl => ?_
    obtain ⟨arm, harm, hl⟩ := List.mem_flatMap.1 hl
    rw [List.flatMap_map]
    exact List.mem_flatMap.2 ⟨arm, harm, hs.held arm (harms harm) l hl⟩

/-- The logs of a session tell of all writes. -/
theorem all_tells (h : Session.new.exec aliases actions = some s) : s.All Tells :=
  exec_induction (fun _ _ _ _ hs hstep =>
    hs.step (fun _ => List.forall_mem_nil _)
      (fun ha => (changes_of_isLocal ha hstep).tells hs) hstep)
    (.new fun _ => List.forall_mem_nil _) h

/-- **Where an entry is dropped that has hidden something, an overwritten value
comes to light.** -/
theorem stale_of_not_admits (hs : s.All Tells) (ha : s.admits aliases a = false) :
    ∃ s', s.step aliases a = some s' ∧ ∃ sig rep, given? sig s'.facts.scopes = some (some rep)
      ∧ ScopeLog.fresh aliases sig rep (s'.log :: s'.outer) = false := by
  cases a with
  | mergeNested =>
    obtain ⟨⟨child, log⟩, hhead, hcovers⟩ := (Option.all_eq_false _ _).1 ha
    obtain ⟨held, hh⟩ := List.head?_eq_some_iff.1 hhead
    obtain ⟨sig, rep, l, hl, hreads, hknows, hgiven⟩ := given?_of_not_covers hcovers
    refine ⟨_, by rw [step, hh], sig, rep, hgiven, ?_⟩
    -- the block overwrote the value and did not record it again
    have hwritten : l ∈ log.written := hs.held (child, log) (hh ▸ List.mem_cons_self) l hl
    refine Bool.eq_false_iff.2 fun hfresh => ?_
    rw [ScopeLog.fresh, Bool.or_eq_true, Bool.and_eq_true] at hfresh
    rcases hfresh with hfresh | ⟨hspares, -⟩
    · obtain ⟨e, he, hsig, hrep⟩ := ScopeLog.knows_iff.1 hfresh
      rcases List.mem_append.1 he with he | he
      · exact Bool.eq_false_iff.1 hknows (ScopeLog.knows_iff.2 ⟨e, he, hsig, hrep⟩)
      · have hspares := ScopeLog.spares_iff.1 (List.mem_filter.1 he).2 l hwritten
        rw [reads_congr hsig, hreads] at hspares
        cases hspares
    · have hspares := ScopeLog.spares_iff.1 hspares l (List.mem_append_right _ hwritten)
      rw [hreads] at hspares
      cases hspares
  | _ => cases ha

/-- The first action that drops such an entry. -/
theorem exists_not_admits (h : covered aliases actions s = false) :
    ∃ before a behind s', actions = before ++ a :: behind ∧ s.exec aliases before = some s'
      ∧ s'.admits aliases a = false := by
  induction actions generalizing s with
  | nil => cases h
  | cons a actions ih =>
    rw [covered, Bool.and_eq_false_iff] at h
    rcases h with h | h
    · exact ⟨[], a, actions, s, rfl, rfl, h⟩
    · obtain ⟨s₁, h₁, h⟩ := (Option.all_eq_false _ _).1 h
      obtain ⟨before, b, behind, s', rfl, hexec, hb⟩ := ih h
      refine ⟨a :: before, b, behind, s', rfl, ?_, hb⟩
      rw [exec_cons, h₁]
      exact hexec

end Session

end ValueFlow
