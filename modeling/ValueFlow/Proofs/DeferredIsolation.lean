import ValueFlow.Proofs.WalkActions

/-!
# Deferred blocks are isolated

A deferred block runs at some later time, next to the rest of the function. So
nothing that it writes can be relied on behind it, and nothing that the rest
writes can be relied on inside of it. The first half needs the scopes of
deferred blocks to be remembered through all ways of leaving a scope, the second
one needs all writes of the function to be known before the walk starts.
-/

namespace ValueFlow.Numbering

/-- **Deferred blocks are isolated.**

* Whatever is done to the scopes: once the scope of a deferred block was merged,
  in which or in whose inner blocks a location was invalidated, no value that
  reads this location is known or can be recorded, as long as the scope that it
  was merged into is open, and likewise in the scope that this one is merged
  into.
* Inside of a deferred block, a value that reads storage written anywhere in the
  function is known only if a scope inside of the block holds it.
* The walk over a function is a sequence of scope actions, and every location
  that it invalidates is among those collected before it starts. -/
theorem deferred_isolated :
    (∀ (aliases : AliasMap) (actions : List ScopeAction) (s : Session),
      Session.new.exec aliases actions = some s → ∀ log ∈ s.log :: s.outer, ∀ l ∈ log.detached,
      ∀ sig, Congruence.reads aliases l sig = true →
        (∀ writes, s.facts.lookup aliases writes sig = none)
          ∧ ∀ rep, (s.facts.record aliases sig rep).1 = false)
    ∧ (∀ (aliases : AliasMap) (writes : List Location) (c : Congruence) (below outside : List Scope)
      (gate : Scope), c.scopes = below ++ gate :: outside → gate.kind = .deferred →
      ∀ sig, (∃ w ∈ writes, Congruence.reads aliases w sig = true) →
      ∀ rep, c.lookup aliases writes sig = some rep →
        ∃ holder ∈ below ++ [gate], holder.values.get? sig = some (some rep))
    ∧ ∀ (settings : Settings) (foreign : Foreign) (globals : Constants)
      (f : Function) (ctx : Context),
      contextOf settings foreign f = .ok ctx → (visitFunction ctx f (.new globals)).fault = none →
        ∃ s, Session.new.exec ctx.aliases (functionActions ctx globals f) = some s
          ∧ s.facts = (visitFunction ctx f (.new globals)).state.facts
          ∧ ∀ l ∈ s.history, l ∈ ctx.writes := by
  refine ⟨fun aliases actions s h log hlog l hl sig hreads => ?_,
    fun aliases writes c below outside gate hc hgate sig ⟨w, hw, hreads⟩ rep h => ?_,
    fun settings foreign globals f ctx hctx hfault => ?_⟩
  · have hpoisoned := Session.readsPoisoned_of_detached h hlog hl hreads
    exact ⟨fun _ => Congruence.lookup_of_readsPoisoned hpoisoned,
      Congruence.record_of_readsPoisoned hpoisoned⟩
  · exact Congruence.exists_holder_of_lookup hc hgate hw hreads h
  · unfold visitFunction at hfault ⊢
    cases hin : f.inputs.foldlM enterInput (State.new globals).facts with
    | error e =>
      rw [hin] at hfault
      cases hfault
    | ok facts =>
      rw [hin] at hfault
      have hwalk : Advances ctx.aliases (functionActions ctx globals f) .new _ :=
        advances_visitFunction hin hfault
      obtain ⟨s, hs, hfacts, -, -⟩ := hwalk.exec .new rfl
      obtain ⟨-, -, -, hwrites⟩ := contextOf_eq_ok hctx
      refine ⟨s, hs, hfacts, fun l hl => ?_⟩
      rw [hwrites]
      exact ((Session.Confined.new _).exec (fun m hm => mem_locations_of_invalidate hm) hs).history
        l hl

/-- A read of the first element of an array. -/
def firstElement : Signature := .plain .elementRetrieve [.var (.value "a" .int), .lit (.int 0)]

/-- The element is known, a deferred block writes the array in a block of its
own, and the block around the deferred one is left. -/
def writesDeferred : List ScopeAction :=
  [.push .nested, .record firstElement (.var (.value "v" .int)), .push .deferred, .push .nested,
    .invalidate ⟨"a", [.unknown]⟩, .pop, .mergeNested, .pop, .mergeDeferred, .pop, .mergeNested,
    .push .branch]

/-- The element is not known any more, although no write of the array was seen
in order. -/
theorem lookup_writesDeferred : ∃ s, Session.new.exec .empty writesDeferred = some s
    ∧ s.facts.lookup .empty [] firstElement = none
    ∧ (s.facts.record .empty firstElement (.lit (.int 1))).1 = false := by
  have hreach : ((Session.new.exec .empty writesDeferred).any fun s =>
      s.outer.any fun log => decide (⟨"a", [.unknown]⟩ ∈ log.detached)) = true := by decide +kernel
  cases hs : Session.new.exec .empty writesDeferred with
  | none =>
    rw [hs] at hreach
    cases hreach
  | some s =>
    rw [hs, Option.any_some, List.any_eq_true] at hreach
    obtain ⟨log, hlog, hl⟩ := hreach
    have h := deferred_isolated.1 .empty writesDeferred s hs log (List.mem_cons_of_mem _ hlog)
      ⟨"a", [.unknown]⟩ (of_decide_eq_true hl) firstElement (by decide)
    exact ⟨s, rfl, h.1 [], h.2 _⟩

end ValueFlow.Numbering
