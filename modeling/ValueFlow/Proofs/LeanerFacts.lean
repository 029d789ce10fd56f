import ValueFlow.Proofs.ClosedVariables
import ValueFlow.Proofs.ShortChains

/-!
# Facts that leave something out

A walk over a function in which some instructions are missing knows less.
`Congruence.Leaner` says how much less: what is known about the variables that
the missing instructions assign, the *hidden* ones, is left out, and so are
entries for some signatures that are not *live*, since their values are known
without an entry. Declarations may be missing as well, and fewer variables may
be closed. Everything else is the same.

Each change of the facts keeps them leaner. Where a scope is left, this needs a
little more (`Congruence.Leaving`): the names that are declared inside must be
new, and the variables that got representatives inside must not have had some
before. The last section says when a walk *settles* everything, so that a later
walk misses none of what was left out.
-/

namespace ValueFlow

/-! ## Tables that agree on some keys -/

namespace Table

variable {α β κ : Type} [Keyed α κ] [DecidableEq κ] {P : κ → Bool}
  {t t' : Table α β} {a : α} {b : β}
  {entries entries' : List (α × β)}

/-- The entries whose keys have a property. -/
def only (P : κ → Bool) (entries : List (α × β)) : List (α × β) :=
  entries.filter fun e => P (Keyed.key e.1)

/-- **Two tables agree on the keys with a property**: they have the same entries
for them, in the same order. -/
def Agrees (P : κ → Bool) (t t' : Table α β) : Prop := only P t'.entries = only P t.entries

omit [DecidableEq κ] in
theorem mem_only {e : α × β} : e ∈ only P entries ↔ e ∈ entries ∧ P (Keyed.key e.1) = true :=
  List.mem_filter

theorem only_insertEntry (P : κ → Bool) (a : α) (b : β) (entries : List (α × β)) :
    only P (insertEntry a b entries)
      = if P (Keyed.key a) then insertEntry a b (only P entries) else only P entries := by
  induction entries with
  | nil => by_cases h : P (Keyed.key a) = true <;> simp [insertEntry, only, h]
  | cons e rest ih =>
    unfold only at ih ⊢
    rw [insertEntry]
    by_cases hk : (Keyed.key e.1 : κ) = Keyed.key a
    · rw [if_pos hk, List.filter_cons, List.filter_cons]
      by_cases h : P (Keyed.key a) = true
      · simp [hk, h, insertEntry]
      · simp [hk, h]
    · rw [if_neg hk, List.filter_cons, List.filter_cons, ih]
      by_cases he : P (Keyed.key e.1) = true
      · by_cases h : P (Keyed.key a) = true <;> simp [he, h, insertEntry, hk]
      · simp [he]

/-- An entry for a key with the property is made in both tables. -/
theorem Agrees.insert (h : t.Agrees P t') (a : α) (b : β) :
    (t.insert a b).Agrees P (t'.insert a b) := by
  show only P (insertEntry a b t'.entries) = only P (insertEntry a b t.entries)
  rw [only_insertEntry, only_insertEntry, h]

/-- An entry for a key without the property is made in one table only. -/
theorem Agrees.insert_left (h : t.Agrees P t') (ha : P (Keyed.key a) = false) :
    (t.insert a b).Agrees P t' := by
  refine Eq.trans h ?_
  show only P t.entries = only P (insertEntry a b t.entries)
  rw [only_insertEntry, ha]
  rfl

theorem Agrees.insert_right (h : t.Agrees P t') (ha : P (Keyed.key a) = false) :
    t.Agrees P (t'.insert a b) := by
  refine Eq.trans ?_ h
  show only P (insertEntry a b t'.entries) = only P t'.entries
  rw [only_insertEntry, ha]
  rfl

theorem Agrees.insertAll (h : t.Agrees P t') (hentries : only P entries' = only P entries) :
    (t.insertAll entries).Agrees P (t'.insertAll entries') := by
  have hall : ∀ (t : Table α β) (entries : List (α × β)), only P (t.insertAll entries).entries
      = (only P entries).foldl (fun es e => insertEntry e.1 e.2 es) (only P t.entries) := by
    intro t entries
    induction entries generalizing t with
    | nil => rfl
    | cons e rest ih =>
      rw [insertAll_cons, ih]
      show (only P rest).foldl _ (only P (insertEntry e.1 e.2 t.entries)) = _
      rw [only_insertEntry]
      unfold only
      rw [List.filter_cons]
      split <;> rfl
  show only P (t'.insertAll entries').entries = only P (t.insertAll entries).entries
  rw [hall, hall, h, hentries]

/-- Entries for keys without the property are made in one table only. -/
theorem Agrees.insertAll_left (h : t.Agrees P t')
    (hentries : ∀ e ∈ entries, P (Keyed.key e.1) = false) : (t.insertAll entries).Agrees P t' := by
  have hnil : only P ([] : List (α × β)) = only P entries := by
    refine (List.filter_eq_nil_iff.2 fun e he => ?_).symm
    rw [hentries e he]
    exact Bool.false_ne_true
  exact h.insertAll hnil

/-- **Look-ups agree.** -/
theorem Agrees.get? (h : t.Agrees P t') (ha : P (Keyed.key a) = true) : t'.get? a = t.get? a := by
  have hfind : ∀ t : Table α β, t.get? a
      = ((only P t.entries).find? fun e => Keyed.key e.1 = Keyed.key a).map (·.2) := by
    intro t
    unfold Table.get? only
    rw [List.find?_filter]
    congr 2
    funext e
    by_cases hk : (Keyed.key e.1 : κ) = Keyed.key a
    · simp [hk, ha]
    · simp [hk]
  rw [hfind, hfind, h]

/-- A new key is appended. -/
theorem entries_insert (h : t.get? a = none) : (t.insert a b).entries = t.entries ++ [(a, b)] := by
  have hnew : ∀ e ∈ t.entries, (Keyed.key e.1 : κ) ≠ Keyed.key a := fun e he hk => by
    rw [get?_eq_some_iff.2 ⟨e, he, hk, rfl⟩] at h
    cases h
  show insertEntry a b t.entries = t.entries ++ [(a, b)]
  generalize t.entries = es at hnew
  induction es with
  | nil => rfl
  | cons e es ih =>
    obtain ⟨he, hes⟩ := List.forall_mem_cons.1 hnew
    rw [insertEntry, if_neg he, ih hes, List.cons_append]

/-- An entry stays behind entries for other keys. -/
theorem mem_insertAll {e : α × β} (he : e ∈ t.entries)
    (hne : ∀ e' ∈ entries, (Keyed.key e.1 : κ) ≠ Keyed.key e'.1) :
    e ∈ (t.insertAll entries).entries := by
  have hentry : ∀ (a : α) (b : β) (es : List (α × β)), (Keyed.key e.1 : κ) ≠ Keyed.key a → e ∈ es →
      e ∈ insertEntry a b es := by
    intro a b es hk hmem
    induction es with
    | nil => cases hmem
    | cons entry es ih =>
      rw [insertEntry]
      rcases List.mem_cons.1 hmem with rfl | hmem
      · rw [if_neg hk]
        exact List.mem_cons_self
      · split
        · exact List.mem_cons_of_mem _ hmem
        · exact List.mem_cons_of_mem _ (ih hmem)
  induction entries generalizing t with
  | nil => exact he
  | cons e' rest ih =>
    obtain ⟨hk, hne⟩ := List.forall_mem_cons.1 hne
    exact ih (hentry e'.1 e'.2 t.entries hk he) hne

/-- New keys are appended. -/
theorem entries_insertAll (hnew : ∀ e ∈ entries, t.get? e.1 = none)
    (hkeys : entries.Pairwise fun a b => (Keyed.key a.1 : κ) ≠ Keyed.key b.1) :
    (t.insertAll entries).entries = t.entries ++ entries := by
  induction entries generalizing t with
  | nil => exact (List.append_nil _).symm
  | cons e rest ih =>
    obtain ⟨hne, hkeys⟩ := List.pairwise_cons.1 hkeys
    obtain ⟨he, hnew⟩ := List.forall_mem_cons.1 hnew
    rw [insertAll_cons, ih (fun e' he' => ?_) hkeys, entries_insert he,
      List.append_assoc, List.singleton_append]
    rw [get?_insert, if_neg (hne e' he'), hnew e' he']

end Table

/-! ## Leaner scopes -/

/-- **The second scope knows less**: it leaves out what is known about hidden
variables, and entries for signatures that are not live. -/
structure Scope.Leaner (live : Opcode × List (String ⊕ Literal) × Bool → Bool)
    (hidden : String → Bool) (a b : Scope) : Prop where
  kind : b.kind = a.kind
  declared : b.declared ⊆ a.declared
  canonical : a.canonical.Agrees (fun n => !hidden n) b.canonical
  subset : b.canonical.entries ⊆ a.canonical.entries
  values : a.values.Agrees live b.values
  closed : ∀ v, b.closed.contains v = true → a.closed.contains v = true
  invalidated : b.invalidated = a.invalidated
  poisoned : b.poisoned = a.poisoned

/-- **The second facts know less**, scope by scope. -/
structure Congruence.Leaner (live : Opcode × List (String ⊕ Literal) × Bool → Bool)
    (hidden : String → Bool) (a b : Congruence) : Prop where
  top : a.top.Leaner live hidden b.top
  outer : List.Forall₂ (Scope.Leaner live hidden) a.outer b.outer

theorem Scope.Leaner.new (live : Opcode × List (String ⊕ Literal) × Bool → Bool)
    (hidden : String → Bool) (kind : ScopeKind) : (Scope.new kind).Leaner live hidden (.new kind) :=
  ⟨rfl, List.Subset.refl _, rfl, List.Subset.refl _, rfl, fun _ => id, rfl, rfl⟩

namespace Congruence

theorem foldl_close_eq (vars : List Var) (c : Congruence) :
    vars.foldl close c = { c with top.closed := c.top.closed.insertAll (vars.map (·, ())) } := by
  induction vars generalizing c with
  | nil => rfl
  | cons v vars ih => exact ih (c.close v)

namespace Leaner

variable {live : Opcode × List (String ⊕ Literal) × Bool → Bool}
  {hidden : String → Bool} {a b : Congruence} {v : Var}
  {sig : Signature}

theorem scopes (h : a.Leaner live hidden b) :
    List.Forall₂ (Scope.Leaner live hidden) a.scopes b.scopes :=
  .cons h.top h.outer

/-! ### What is known -/

theorem scopeNames_subset {xs ys : List Scope} (h : List.Forall₂ (Scope.Leaner live hidden) xs ys) :
    scopeNames ys ⊆ scopeNames xs := by
  induction h with
  | nil => exact List.Subset.refl _
  | cons htop _ ih =>
    unfold scopeNames at ih ⊢
    rw [List.flatMap_cons, List.flatMap_cons]
    exact List.append_subset.2
      ⟨List.subset_append_of_subset_left _ htop.declared, List.subset_append_of_subset_right _ ih⟩

theorem names_subset (h : a.Leaner live hidden b) : b.names ⊆ a.names := scopeNames_subset h.scopes

theorem isDeclared (h : a.Leaner live hidden b) (hv : b.isDeclared v = true) :
    a.isDeclared v = true := by
  rw [isDeclared_iff] at hv ⊢
  exact hv.imp_right (h.names_subset ·)

theorem isClosed (h : a.Leaner live hidden b) (hv : b.isClosed v = true) : a.isClosed v = true := by
  unfold Congruence.isClosed at hv ⊢
  rw [Bool.or_eq_true] at hv ⊢
  refine hv.imp_right fun hany => ?_
  have hscopes := h.scopes
  generalize a.scopes = xs at hscopes ⊢
  generalize b.scopes = ys at hscopes hany
  induction hscopes with
  | nil => exact hany
  | cons htop _ ih =>
    rw [List.any_cons, Bool.or_eq_true] at hany ⊢
    exact hany.imp (htop.closed v) ih

/-- **A variable that is not hidden has the same representative.** -/
theorem representative? (h : a.Leaner live hidden b) (hv : hidden v.name = false) :
    b.representative? v = a.representative? v := by
  unfold Congruence.representative?
  have hscopes := h.scopes
  generalize a.scopes = xs at hscopes ⊢
  generalize b.scopes = ys at hscopes ⊢
  induction hscopes with
  | nil => rfl
  | cons htop _ ih =>
    have hkey : (fun n => !hidden n) (Keyed.key v) = true := Bool.not_eq_true' _ ▸ hv
    rw [List.findSome?_cons, List.findSome?_cons, ih, htop.canonical.get? hkey]

/-- No variable has a representative that had none. -/
theorem representative?_eq_none (h : a.Leaner live hidden b) (hv : a.representative? v = none) :
    b.representative? v = none := by
  unfold Congruence.representative? at hv ⊢
  have hscopes := h.scopes
  generalize a.scopes = xs at hscopes hv
  generalize b.scopes = ys at hscopes ⊢
  induction hscopes with
  | nil => rfl
  | @cons x y _ _ htop _ ih =>
    rw [List.findSome?_cons] at hv ⊢
    have hnone : y.canonical.get? v = none := by
      rw [Option.eq_none_iff_forall_not_mem]
      intro rep hrep
      obtain ⟨e, he, hk, -⟩ := Table.get?_eq_some_iff.1 hrep
      have hget : x.canonical.get? v = some e.2 :=
        Table.get?_eq_some_iff.2 ⟨e, htop.subset he, hk, rfl⟩
      rw [hget] at hv
      cases hv
    rw [hnone]
    refine ih ?_
    cases hx : x.canonical.get? v with
    | none => rwa [hx] at hv
    | some rep =>
      rw [hx] at hv
      cases hv

/-- **A variable that is not hidden has the same canonical representative**, if
chains are short. -/
theorem canonical? (h : a.Leaner live hidden b) (hshort : a.Short) (hv : hidden v.name = false) :
    b.canonical? v = a.canonical? v := by
  have hlit : ∀ (c : Congruence) (l : Literal), ∀ n, c.follow n (.lit l) = .lit l := by
    intro c l n
    cases n <;> rfl
  unfold Congruence.canonical?
  rw [h.representative? hv]
  cases hrep : a.representative? v with
  | none => rfl
  | some rep =>
    cases rep with
    | lit l => rw [Option.map_some, Option.map_some, hlit, hlit]
    | var r =>
      have hr := hshort v r hrep
      rw [Option.map_some, Option.map_some, follow_of_none hr,
        follow_of_none (h.representative?_eq_none hr)]

theorem canonicalOperand (h : a.Leaner live hidden b) (hshort : a.Short) {x : Operand}
    (hx : x.All fun v => hidden v.name = false) : b.canonicalOperand x = a.canonicalOperand x := by
  cases x with
  | lit l => rfl
  | var v =>
    unfold Congruence.canonicalOperand
    rw [show (Operand.var v).var? = some v from rfl, Option.bind_some,
      Option.bind_some, h.canonical? hshort hx]

theorem canonicalize (h : a.Leaner live hidden b) (hshort : a.Short)
    (hsig : sig.All fun v => hidden v.name = false) : b.canonicalize sig = a.canonicalize sig := by
  unfold Congruence.canonicalize Signature.mapInputs
  have hmap : ∀ kept, (sig.inputs.drop kept).map b.canonicalOperand
      = (sig.inputs.drop kept).map a.canonicalOperand :=
    fun kept => List.map_congr_left
      fun x hx => h.canonicalOperand hshort (hsig x (List.mem_of_mem_drop hx))
  simp only [hmap]

theorem readsPoisoned (h : a.Leaner live hidden b) (aliases : AliasMap) (sig : Signature) :
    b.readsPoisoned aliases sig = a.readsPoisoned aliases sig := by
  unfold Congruence.readsPoisoned
  congr 1
  funext l
  unfold isPoisoned
  have hscopes := h.scopes
  generalize a.scopes = xs at hscopes ⊢
  generalize b.scopes = ys at hscopes ⊢
  induction hscopes with
  | nil => rfl
  | cons htop _ ih => rw [List.any_cons, List.any_cons, ih, htop.poisoned]

/-- **The value of a live signature is looked up with the same answer.** -/
theorem lookup (h : a.Leaner live hidden b) (aliases : AliasMap) (writes : List Location)
    (hsig : live sig.key = true) : b.lookup aliases writes sig = a.lookup aliases writes sig := by
  have hfind : ∀ (crossed : Bool) (xs ys : List Scope),
      List.Forall₂ (Scope.Leaner live hidden) xs ys →
      find? sig crossed ys = find? sig crossed xs := by
    intro crossed xs ys hscopes
    induction hscopes generalizing crossed with
    | nil => rfl
    | cons htop _ ih => rw [find?, find?, htop.values.get? hsig, htop.kind, ih]
  unfold Congruence.lookup
  rw [h.readsPoisoned, hfind false _ _ h.scopes]

/-! ### Changes in the innermost scope -/

theorem declare (h : a.Leaner live hidden b) {vars vars' : List Var}
    (hvars : vars'.map (·.name) ⊆ vars.map (·.name)) :
    (vars.foldl Congruence.declare a).Leaner live hidden (vars'.foldl Congruence.declare b) := by
  have hspec : ∀ (vars : List Var) (c : Congruence), vars.foldl Congruence.declare c
      = { c with top.declared := (vars.map (·.name)).reverse ++ c.top.declared } := by
    intro vars
    induction vars with
    | nil => exact fun c => rfl
    | cons v vars ih =>
      intro c
      rw [List.foldl_cons, ih, List.map_cons, List.reverse_cons, List.append_assoc]
      rfl
  rw [hspec, hspec]
  refine ⟨{ h.top with declared := ?_ }, h.outer⟩
  refine List.append_subset.2 ⟨fun n hn => List.mem_append_left _ ?_, ?_⟩
  · exact List.mem_reverse.2 (hvars (List.mem_reverse.1 hn))
  · exact List.subset_append_of_subset_right _ h.top.declared

theorem define (h : a.Leaner live hidden b) (as bs : List String) :
    ({ a with top.defined := as } : Congruence).Leaner live hidden { b with top.defined := bs } :=
  ⟨⟨h.top.kind, h.top.declared, h.top.canonical, h.top.subset,
    h.top.values, h.top.closed, h.top.invalidated,
    h.top.poisoned⟩, h.outer⟩

theorem push (h : a.Leaner live hidden b) (kind : ScopeKind) :
    (a.push kind).Leaner live hidden (b.push kind) :=
  ⟨.new live hidden kind, h.scopes⟩

/-- What is closed in the second facts is closed in the first ones. -/
theorem close (h : a.Leaner live hidden b) {vars vars' : List Var} (hvars : vars' ⊆ vars) :
    (vars.foldl Congruence.close a).Leaner live hidden (vars'.foldl Congruence.close b) := by
  rw [foldl_close_eq, foldl_close_eq]
  refine ⟨{ h.top with closed := fun v hv => ?_ }, h.outer⟩
  rw [contains_insertAll] at hv ⊢
  rcases hv with ⟨e, he, hname⟩ | hv
  · obtain ⟨w, hw, rfl⟩ := List.mem_map.1 he
    exact .inl ⟨_, List.mem_map.2 ⟨w, hvars hw, rfl⟩, hname⟩
  · exact .inr (h.top.closed v hv)

/-- A representative is entered for a variable that has none. -/
theorem setCanonical (h : a.Leaner live hidden b) {rep : Operand}
    (hv : a.top.canonical.get? v = none) :
    (a.setCanonical v rep).Leaner live hidden (b.setCanonical v rep) := by
  have hb : b.top.canonical.get? v = none := by
    rw [Option.eq_none_iff_forall_not_mem]
    intro rep hrep
    obtain ⟨e, he, hk, -⟩ := Table.get?_eq_some_iff.1 hrep
    rw [Table.get?_eq_some_iff.2 ⟨e, h.top.subset he, hk, rfl⟩] at hv
    cases hv
  refine ⟨{ h.top with canonical := h.top.canonical.insert v rep, subset := ?_ }, h.outer⟩
  show (b.top.canonical.insert v rep).entries ⊆ (a.top.canonical.insert v rep).entries
  rw [Table.entries_insert hb, Table.entries_insert hv]
  exact List.append_subset.2
    ⟨List.subset_append_of_subset_left _ h.top.subset, List.subset_append_right _ _⟩

theorem record (h : a.Leaner live hidden b) (aliases : AliasMap) (sig : Signature) (rep : Operand) :
    (a.record aliases sig rep).2.Leaner live hidden (b.record aliases sig rep).2 := by
  unfold Congruence.record
  rw [h.readsPoisoned]
  split
  · exact h
  · exact ⟨{ h.top with values := h.top.values.insert sig (some rep) }, h.outer⟩

/-- An entry for a signature that is not live is left out. -/
theorem record_left (h : a.Leaner live hidden b) (aliases : AliasMap) (hsig : live sig.key = false)
    (rep : Operand) : (a.record aliases sig rep).2.Leaner live hidden b := by
  unfold Congruence.record
  split
  · exact h
  · exact ⟨{ h.top with values := h.top.values.insert_left hsig }, h.outer⟩

theorem record_right (h : a.Leaner live hidden b) (aliases : AliasMap) (hsig : live sig.key = false)
    (rep : Operand) : a.Leaner live hidden (b.record aliases sig rep).2 := by
  unfold Congruence.record
  split
  · exact h
  · exact ⟨{ h.top with values := h.top.values.insert_right hsig }, h.outer⟩

/-- **A write ends the same values**, if all signatures that read storage are
live. -/
theorem invalidate (h : a.Leaner live hidden b)
    (hlive : ∀ sig : Signature, sig.isRetrieve = true → live sig.key = true) (aliases : AliasMap)
    (l : Location) : (a.invalidate aliases l).2.Leaner live hidden (b.invalidate aliases l).2 := by
  have hscope : ∀ entries : List (Signature × Option Operand),
      entries.filter (fun e => e.2.isSome && reads aliases l e.1)
        = (Table.only live entries).filter fun e => e.2.isSome && reads aliases l e.1 := by
    intro entries
    unfold Table.only
    rw [List.filter_filter]
    refine List.filter_congr fun e _ => ?_
    cases hreads : e.2.isSome && reads aliases l e.1 with
    | false => rfl
    | true =>
      have hretrieve := (Bool.and_eq_true_iff.1 (Bool.and_eq_true_iff.1 hreads).2).1
      rw [show live (Keyed.key e.1) = true from hlive e.1 hretrieve]
      rfl
  have haffected : b.affected aliases l = a.affected aliases l := by
    unfold affected
    have hscopes := List.rel_reverse h.scopes
    generalize a.scopes.reverse = xs at hscopes ⊢
    generalize b.scopes.reverse = ys at hscopes ⊢
    induction hscopes with
    | nil => rfl
    | @cons x y _ _ htop _ ih =>
      rw [List.flatMap_cons, List.flatMap_cons, ih, hscope y.values.entries,
        hscope x.values.entries, htop.values]
  unfold Congruence.invalidate
  simp only [haffected]
  refine ⟨{ h.top with values := h.top.values.insertAll rfl, invalidated := ?_ }, h.outer⟩
  show b.top.invalidated ++ [l] = a.top.invalidated ++ [l]
  rw [h.top.invalidated]

theorem invalidateAll (h : a.Leaner live hidden b)
    (hlive : ∀ sig : Signature, sig.isRetrieve = true → live sig.key = true) (aliases : AliasMap)
    (ls : List Location) :
    (ls.foldl (fun c l => (c.invalidate aliases l).2) a).Leaner live hidden
      (ls.foldl (fun c l => (c.invalidate aliases l).2) b) := by
  induction ls generalizing a b with
  | nil => exact h
  | cons l ls ih => exact ih (h.invalidate hlive aliases l)

/-! ### What is hidden -/

/-- Less may be hidden, if the variables that are not hidden any more have no
representatives. -/
theorem reveal (h : a.Leaner live hidden b) {hidden' : String → Bool}
    (hless : ∀ n, hidden' n = true → hidden n = true)
    (hnone : ∀ v : Var, hidden v.name = true → hidden' v.name = false →
      a.representative? v = none) :
    a.Leaner live hidden' b := by
  have hscope : ∀ x ∈ a.scopes, ∀ e ∈ x.canonical.entries,
      hidden e.1.name = true → hidden' e.1.name = true := by
    intro x hx e he hv
    by_contra hv'
    have hget := hnone e.1 hv (Bool.eq_false_iff.2 hv')
    have hsome := List.findSome?_eq_none_iff.1 hget x hx
    rw [Table.get?_of_mem he] at hsome
    cases hsome
  have hentries : ∀ entries : List (Var × Operand),
      (∀ e ∈ entries, hidden e.1.name = true → hidden' e.1.name = true) →
      Table.only (fun n => !hidden' n) entries = Table.only (fun n => !hidden n) entries := by
    refine fun entries hall => List.filter_congr
      fun e he => congrArg Bool.not (Bool.eq_iff_iff.2 ⟨hless _, hall e he⟩)
  have hleaner : ∀ x y, x ∈ a.scopes → x.Leaner live hidden y → x.Leaner live hidden' y := by
    intro x y hx hxy
    refine { hxy with canonical := ?_ }
    show Table.only (fun n => !hidden' n) y.canonical.entries
      = Table.only (fun n => !hidden' n) x.canonical.entries
    rw [hentries _ (hscope x hx), hentries _ fun e he => hscope x hx e (hxy.subset he)]
    exact hxy.canonical
  refine ⟨hleaner _ _ List.mem_cons_self h.top, ?_⟩
  refine (List.forall₂_iff_get.2 ⟨h.outer.length_eq, fun i hi hi' => ?_⟩)
  exact hleaner _ _ (List.mem_cons_of_mem _ (List.get_mem _ _)) (h.outer.get hi hi')

/-- More may be hidden. -/
theorem widen (h : a.Leaner live hidden b) {hidden' : String → Bool}
    (hmore : ∀ n, hidden n = true → hidden' n = true) : a.Leaner live hidden' b := by
  have hentries : ∀ entries : List (Var × Operand), Table.only (fun n => !hidden' n) entries
      = Table.only (fun n => !hidden' n) (Table.only (fun n => !hidden n) entries) := by
    intro entries
    unfold Table.only
    rw [List.filter_filter]
    refine List.filter_congr fun e _ => ?_
    show (!hidden' e.1.name) = ((!hidden' e.1.name) && !hidden e.1.name)
    cases hv : hidden e.1.name with
    | false => exact (Bool.and_true _).symm
    | true =>
      rw [hmore _ hv]
      rfl
  have hleaner : ∀ x y : Scope, x.Leaner live hidden y → x.Leaner live hidden' y := by
    intro x y hxy
    refine { hxy with canonical := ?_ }
    show Table.only (fun n => !hidden' n) y.canonical.entries
      = Table.only (fun n => !hidden' n) x.canonical.entries
    rw [hentries y.canonical.entries, hentries x.canonical.entries, hxy.canonical]
  exact ⟨hleaner _ _ h.top, h.outer.imp hleaner⟩

end Leaner

/-! ### Leaving a scope -/

/-- **A scope inside the first facts is left, and a leaner one inside the second
facts**, which mentions only what may be used there. Names that are declared in
the scope are new, so are the variables that have representatives in it, and an
occurrence of a closed variable is marked as a constant like every other one. -/
structure Leaving (V : Vocabulary) (live : Opcode × List (String ⊕ Literal) × Bool → Bool)
    (hidden : String → Bool) (a b : Congruence) (child child' : Scope) : Prop where
  leaner : child.Leaner live hidden child'
  mentions : V.Mentions (scopeNames (child' :: b.scopes)) child'
  shared : ∀ v, V.shared v → v.isGlobalConst = true
  anew : ∀ n ∈ child.declared, n ∉ a.names
  apart : ∀ e ∈ child.canonical.entries, a.top.canonical.get? e.1 = none
  alike : ∀ e ∈ child.closed.entries, ∀ e' ∈ child'.closed.entries, e.1.name = e'.1.name →
    e.1.isGlobalConst = e'.1.isGlobalConst

section Leaving

variable {V : Vocabulary} {live : Opcode × List (String ⊕ Literal) × Bool → Bool}
  {hidden : String → Bool}
  {a b : Congruence} {child child' : Scope}

/-- **What a scope mentions may be used around both or around none.** -/
theorem Leaving.isDeclared (h : a.Leaner live hidden b)
    (hl : Leaving V live hidden a b child child') {v : Var}
    (hv : V.Names (scopeNames (child' :: b.scopes)) v) : b.isDeclared v = a.isDeclared v := by
  refine Bool.eq_iff_iff.2 ⟨h.isDeclared, fun ha => ?_⟩
  rw [isDeclared_iff] at ha ⊢
  rcases hv with hg | ⟨-, hn⟩
  · exact .inl (hl.shared v hg)
  · refine ha.imp_right fun ha => ?_
    rcases List.mem_append.1 hn with hn | hn
    · exact absurd ha (hl.anew _ (hl.leaner.declared hn))
    · exact hn

theorem Leaving.isVisible (h : a.Leaner live hidden b)
    (hl : Leaving V live hidden a b child child') {x : Operand}
    (hx : x.All (V.Stands (scopeNames (child' :: b.scopes)))) : b.isVisible x = a.isVisible x := by
  cases x with
  | var v => exact hl.isDeclared h hx.1
  | lit l => rfl

theorem Leaving.canName (h : a.Leaner live hidden b) (hl : Leaving V live hidden a b child child')
    {sig : Signature} (hsig : sig.All (V.Names (scopeNames (child' :: b.scopes)))) :
    b.canName sig = a.canName sig := by
  unfold Congruence.canName
  refine Bool.eq_iff_iff.2 ?_
  rw [List.all_eq_true, List.all_eq_true]
  refine forall₂_congr fun v hv => ?_
  rw [hl.isDeclared h (hsig _ (Signature.mem_vars.1 hv))]

/-- Entries that are kept for variables without representatives are kept in both. -/
theorem Leaner.insertAll_subset (h : a.Leaner live hidden b)
    {entries entries' : List (Var × Operand)} (hsub : entries' ⊆ entries)
    (hnew : ∀ e ∈ entries, a.top.canonical.get? e.1 = none)
    (hkeys : entries.Pairwise fun e e' => (Keyed.key e.1 : String) ≠ Keyed.key e'.1)
    (hkeys' : entries'.Pairwise fun e e' => (Keyed.key e.1 : String) ≠ Keyed.key e'.1) :
    (b.top.canonical.insertAll entries').entries ⊆ (a.top.canonical.insertAll entries).entries := by
  have hnew' : ∀ e ∈ entries', b.top.canonical.get? e.1 = none := by
    intro e he
    rw [Option.eq_none_iff_forall_not_mem]
    intro rep hrep
    obtain ⟨e', he', hk, -⟩ := Table.get?_eq_some_iff.1 hrep
    have hnone := hnew e (hsub he)
    rw [Table.get?_eq_some_iff.2 ⟨e', h.top.subset he', hk, rfl⟩] at hnone
    cases hnone
  rw [Table.entries_insertAll hnew hkeys, Table.entries_insertAll hnew' hkeys']
  exact List.append_subset.2 ⟨List.subset_append_of_subset_left _ h.top.subset,
    List.subset_append_of_subset_right _ hsub⟩

/-- Closed variables that are kept around the second facts are kept around the
first ones. -/
theorem Leaving.closed (h : a.Leaner live hidden b) (hl : Leaving V live hidden a b child child')
    {e : Var × Unit} (he : e ∈ child'.closed.entries) (hdeclared : b.isDeclared e.1 = true) :
    ∃ e' ∈ child.closed.entries, e'.1.name = e.1.name ∧ a.isDeclared e'.1 = true := by
  obtain ⟨u, hu⟩ := Option.isSome_iff_exists.1 (hl.leaner.closed e.1 (contains_of_mem he rfl))
  obtain ⟨e', he', hname, -⟩ := Table.get?_eq_some_iff.1 hu
  refine ⟨e', he', hname, ?_⟩
  have ha := h.isDeclared hdeclared
  rw [isDeclared_iff] at ha ⊢
  rw [hl.alike e' he' e he hname, show e'.1.name = e.1.name from hname]
  exact ha

theorem only_filter {α β κ : Type} [Keyed α κ] (P : κ → Bool) (q : α × β → Bool)
    (entries : List (α × β)) :
    Table.only P (entries.filter q) = (Table.only P entries).filter q := by
  unfold Table.only
  rw [List.filter_filter, List.filter_filter]
  exact List.filter_congr fun e _ => Bool.and_comm _ _

/-- **A nested block is left.** -/
theorem Leaner.mergeNested (h : a.Leaner live hidden b)
    (hl : Leaving V live hidden a b child child') :
    (a.mergeNested child).Leaner live hidden (b.mergeNested child') := by
  have hcanonical : ∀ e ∈ child'.canonical.entries,
      (b.isDeclared e.1 && b.isVisible e.2) = (a.isDeclared e.1 && a.isVisible e.2) := by
    intro e he
    obtain ⟨hkey, hrep⟩ := hl.mentions.canonical e he
    rw [hl.isDeclared h hkey.1, hl.isVisible h hrep]
  have hvalues : ∀ e ∈ child'.values.entries,
      (b.canName e.1 && e.2.all b.isVisible) = (a.canName e.1 && e.2.all a.isVisible) := by
    intro e he
    obtain ⟨hsig, hrep⟩ := hl.mentions.values e he
    rw [hl.canName h hsig]
    cases hvalue : e.2 with
    | none => rfl
    | some rep => rw [Option.all_some, Option.all_some, hl.isVisible h (hrep rep hvalue)]
  refine ⟨⟨h.top.kind, h.top.declared, h.top.canonical.insertAll ?_, h.insertAll_subset ?_ ?_ ?_ ?_,
    h.top.values.insertAll ?_, fun v hv => ?_, ?_, ?_⟩, h.outer⟩
  · rw [only_filter, only_filter, ← hl.leaner.canonical]
    exact List.filter_congr fun e he => hcanonical e (Table.mem_only.1 he).1
  · intro e he
    obtain ⟨he, hok⟩ := List.mem_filter.1 he
    rw [hcanonical e he] at hok
    exact List.mem_filter.2 ⟨hl.leaner.subset he, hok⟩
  · exact fun e he => hl.apart e (List.mem_filter.1 he).1
  · exact child.canonical.unique.filter _
  · exact child'.canonical.unique.filter _
  · rw [only_filter, only_filter, ← hl.leaner.values]
    exact List.filter_congr fun e he => hvalues e (Table.mem_only.1 he).1
  · rcases contains_insertAll.1 hv with ⟨e, he, hname⟩ | hv
    · obtain ⟨he, hdeclared⟩ := List.mem_filter.1 he
      obtain ⟨e', he', hname', hdeclared'⟩ := hl.closed h he hdeclared
      exact contains_insertAll.2
        (.inl ⟨e', List.mem_filter.2 ⟨he', hdeclared'⟩, hname'.trans hname⟩)
    · exact contains_insertAll.2 (.inr (h.top.closed v hv))
  · show b.top.invalidated ++ child'.invalidated = a.top.invalidated ++ child.invalidated
    rw [h.top.invalidated, hl.leaner.invalidated]
  · show b.top.poisoned ++ child'.poisoned = a.top.poisoned ++ child.poisoned
    rw [h.top.poisoned, hl.leaner.poisoned]

/-- **A deferred block is left.** -/
theorem Leaner.mergeDeferred (h : a.Leaner live hidden b) (hc : child.Leaner live hidden child') :
    (a.mergeDeferred child).Leaner live hidden (b.mergeDeferred child') := by
  refine ⟨⟨h.top.kind, h.top.declared, h.top.canonical,
    h.top.subset, h.top.values, h.top.closed, h.top.invalidated, ?_⟩,
    h.outer⟩
  show b.top.poisoned ++ child'.invalidated ++ child'.poisoned
    = a.top.poisoned ++ child.invalidated ++ child.poisoned
  rw [h.top.poisoned, hc.invalidated, hc.poisoned]

theorem Leaner.absorbArms (h : a.Leaner live hidden b)
    (hlive : ∀ sig : Signature, sig.isRetrieve = true → live sig.key = true) (m : AliasMap)
    {arms arms' : List Scope} (harms : List.Forall₂ (Scope.Leaner live hidden) arms arms') :
    (arms.foldl (absorbArm m) a).Leaner live hidden (arms'.foldl (absorbArm m) b) := by
  induction harms generalizing a b with
  | nil => exact h
  | @cons arm arm' _ _ harm _ ih =>
    refine ih ?_
    have hall := h.invalidateAll hlive m arm.invalidated
    unfold absorbArm
    rw [harm.invalidated]
    refine ⟨⟨hall.top.kind, hall.top.declared, hall.top.canonical,
      hall.top.subset, hall.top.values, hall.top.closed,
      hall.top.invalidated, ?_⟩, hall.outer⟩
    exact congrArg₂ (· ++ ·) hall.top.poisoned harm.poisoned

/-- The arms agree on a representative of a variable that is not hidden in both,
and on one of a hidden variable in the first ones if they do in the second ones.
-/
theorem Leaner.all_canonical {arms arms' : List Scope}
    (h : List.Forall₂ (Scope.Leaner live hidden) arms arms') (v : Var) (rep : Operand) :
    (hidden v.name = false → arms'.all (fun arm => sameOperand (arm.canonical.get? v) rep)
        = arms.all fun arm => sameOperand (arm.canonical.get? v) rep)
      ∧ (arms'.all (fun arm => sameOperand (arm.canonical.get? v) rep) = true →
        arms.all (fun arm => sameOperand (arm.canonical.get? v) rep) = true) := by
  induction h with
  | nil => exact ⟨fun _ => rfl, id⟩
  | @cons arm arm' _ _ harm _ ih =>
    simp only [List.all_cons, Bool.and_eq_true]
    refine ⟨fun hv => ?_, fun hall => ⟨?_, ih.2 hall.2⟩⟩
    · rw [ih.1 hv, harm.canonical.get? (show (!hidden v.name) = true by rw [hv]; rfl)]
    · obtain ⟨x, hx, hsame⟩ := (Option.any_eq_true _ _).1 hall.1
      obtain ⟨e, he, hk, rfl⟩ := Table.get?_eq_some_iff.1 hx
      exact (Option.any_eq_true _ _).2
        ⟨e.2, Table.get?_eq_some_iff.2 ⟨e, harm.subset he, hk, rfl⟩, hsame⟩

theorem Leaner.all_values {arms arms' : List Scope}
    (h : List.Forall₂ (Scope.Leaner live hidden) arms arms') {sig : Signature}
    (hsig : live sig.key = true) (rep : Operand) :
    arms'.all (fun arm => sameOperand (arm.values.get? sig).join rep)
      = arms.all fun arm => sameOperand (arm.values.get? sig).join rep := by
  induction h with
  | nil => rfl
  | @cons arm arm' _ _ harm _ ih => rw [List.all_cons, List.all_cons, ih, harm.values.get? hsig]

theorem Leaner.all_closed {arms arms' : List Scope}
    (h : List.Forall₂ (Scope.Leaner live hidden) arms arms') {v w : Var} (hname : w.name = v.name)
    (hall : arms'.all (·.closed.contains v) = true) : arms.all (·.closed.contains w) = true := by
  induction h with
  | nil => rfl
  | @cons arm arm' _ _ harm _ ih =>
    rw [List.all_cons, Bool.and_eq_true] at hall ⊢
    refine ⟨?_, ih hall.2⟩
    unfold Table.contains
    rw [Table.get?_congr hname]
    exact harm.closed v hall.1

/-- The live ones among the values that arms agree on come from live entries of
the first arm. -/
theorem only_common (entries : List (Signature × Option Operand))
    (ok : Signature × Operand → Bool) :
    Table.only live ((((entries.filterMap fun e => e.2.map (e.1, ·)).filter ok).map
      fun e => (e.1, some e.2)))
      = (((Table.only live entries).filterMap fun e => e.2.map (e.1, ·)).filter ok).map
        fun e => (e.1, some e.2) := by
  induction entries with
  | nil => rfl
  | cons e entries ih =>
    unfold Table.only at ih ⊢
    obtain ⟨sig, value⟩ := e
    rw [List.filter_cons]
    cases value with
    | none =>
      rw [List.filterMap_cons_none rfl, ih]
      split
      · rw [List.filterMap_cons_none rfl]
      · rfl
    | some rep =>
      have hcons : ∀ rest : List (Signature × Option Operand), ((sig, some rep) :: rest).filterMap
          (fun e => e.2.map (e.1, ·)) = (sig, rep) :: rest.filterMap fun e => e.2.map (e.1, ·) :=
          fun _ => rfl
      rw [hcons, List.filter_cons]
      by_cases hlive : live (Keyed.key sig) = true
      · rw [if_pos hlive, hcons, List.filter_cons]
        split
        · rw [List.map_cons, List.map_cons, List.filter_cons, if_pos hlive, ih]
        · exact ih
      · rw [if_neg hlive]
        split
        · rw [List.map_cons, List.filter_cons, if_neg hlive, ih]
        · exact ih

/-- **What all arms agree on is kept.** -/
theorem Leaner.keepCommon (h : a.Leaner live hidden b) {first first' : Scope}
    {rest rest' : List Scope} (hl : Leaving V live hidden a b first first')
    (hrest : List.Forall₂ (Scope.Leaner live hidden) rest rest') (m : AliasMap) :
    (keepCommon m first rest a).Leaner live hidden (Congruence.keepCommon m first' rest' b) := by
  have hcanonical : ∀ e ∈ first'.canonical.entries, hidden e.1.name = false →
      (rest'.all (fun arm => sameOperand (arm.canonical.get? e.1) e.2)
        && b.isDeclared e.1 && b.isVisible e.2)
        = (rest.all (fun arm => sameOperand (arm.canonical.get? e.1) e.2)
          && a.isDeclared e.1 && a.isVisible e.2) := by
    intro e he hv
    obtain ⟨hkey, hrep⟩ := hl.mentions.canonical e he
    rw [hl.isDeclared h hkey.1, hl.isVisible h hrep, (Leaner.all_canonical hrest e.1 e.2).1 hv]
  refine ⟨⟨h.top.kind, h.top.declared, h.top.canonical.insertAll ?_, h.insertAll_subset ?_ ?_ ?_ ?_,
    h.top.values.insertAll ?_, fun v hv => ?_, h.top.invalidated, h.top.poisoned⟩, h.outer⟩
  · unfold commonCanonical
    rw [only_filter, only_filter, ← hl.leaner.canonical]
    refine List.filter_congr fun e he => hcanonical e (Table.mem_only.1 he).1 ?_
    have hv : (!hidden e.1.name) = true := (Table.mem_only.1 he).2
    simpa using hv
  · intro e he
    obtain ⟨he, hok⟩ := List.mem_filter.1 he
    obtain ⟨hkey, hrep⟩ := hl.mentions.canonical e he
    rw [hl.isDeclared h hkey.1, hl.isVisible h hrep] at hok
    simp only [Bool.and_eq_true] at hok
    refine List.mem_filter.2 ⟨hl.leaner.subset he, ?_⟩
    simp only [Bool.and_eq_true]
    exact ⟨⟨(Leaner.all_canonical hrest e.1 e.2).2 hok.1.1, hok.1.2⟩, hok.2⟩
  · exact fun e he => hl.apart e (List.mem_filter.1 he).1
  · exact first.canonical.unique.filter _
  · exact first'.canonical.unique.filter _
  · unfold commonValues
    rw [only_common, only_common, ← hl.leaner.values]
    refine congrArg _ (List.filter_congr fun e he => ?_)
    obtain ⟨entry, hentry, heq⟩ := List.mem_filterMap.1 he
    obtain ⟨rep, hrep, rfl⟩ := Option.map_eq_some_iff.1 heq
    obtain ⟨hentry, hsig⟩ := Table.mem_only.1 hentry
    obtain ⟨hnames, hstands⟩ := hl.mentions.values entry hentry
    rw [Leaner.all_values hrest hsig, hl.canName h hnames,
      hl.isVisible h (hstands rep hrep), h.readsPoisoned]
  · rcases contains_insertAll.1 hv with ⟨e, he, hname⟩ | hv
    · obtain ⟨he, hok⟩ := List.mem_filter.1 he
      rw [Bool.and_eq_true] at hok
      obtain ⟨e', he', hname', hdeclared'⟩ := hl.closed h he hok.2
      refine contains_insertAll.2 (.inl ⟨e', List.mem_filter.2 ⟨he', ?_⟩, hname'.trans hname⟩)
      rw [Leaner.all_closed hrest hname' hok.1, hdeclared']
      rfl
    · exact contains_insertAll.2 (.inr (h.top.closed v hv))

/-- **The arms of a conditional are left.** -/
theorem Leaner.mergeBranches (h : a.Leaner live hidden b)
    (hlive : ∀ sig : Signature, sig.isRetrieve = true → live sig.key = true) (m : AliasMap)
    (keep : Bool) {arms arms' : List Scope}
    (harms : List.Forall₂ (Leaving V live hidden a b) arms arms') :
    (a.mergeBranches m keep arms).2.Leaner live hidden (b.mergeBranches m keep arms').2 := by
  have hleaner : List.Forall₂ (Scope.Leaner live hidden) arms arms' :=
    harms.imp fun _ _ hl => hl.leaner
  have habsorbed := h.absorbArms hlive m hleaner
  cases harms with
  | nil =>
    cases keep <;> exact h
  | @cons first first' rest rest' hfirst hrest =>
    cases keep with
    | false => exact habsorbed
    | true =>
      -- absorbing the arms leaves declarations and representatives as they were
      obtain ⟨ho, -, hd, hc, -⟩ := absorbArms_spec m (first :: rest) a
      obtain ⟨ho', -, hd', -⟩ := absorbArms_spec m (first' :: rest') b
      suffices hl : Leaving V live hidden ((first :: rest).foldl (absorbArm m) a)
          ((first' :: rest').foldl (absorbArm m) b) first first' from
        habsorbed.keepCommon hl (hrest.imp fun _ _ hl => hl.leaner) m
      refine ⟨hfirst.leaner, ?_, hfirst.shared, fun n hn => ?_, fun e he => ?_, hfirst.alike⟩
      · have hnames : scopeNames (first' :: ((first' :: rest').foldl (absorbArm m) b).scopes)
            = scopeNames (first' :: b.scopes) := by
          unfold scopeNames Congruence.scopes
          simp only [List.flatMap_cons, ho', hd']
        rw [hnames]
        exact hfirst.mentions
      · rw [names_eq_of_outer ho hd]
        exact hfirst.anew n hn
      · rw [hc]
        exact hfirst.apart e he

end Leaving

end Congruence

/-! ## Walks that settle everything -/

deriving instance DecidableEq for Signature

namespace Numbering

/-- The value is known without an entry: it is the constant of a literal. -/
def isMoot (settings : Settings) : Opcode × List (String ⊕ Literal) × Bool → Bool
  | (.assign, [.inr l], _) => settings.sharedConstants && l ≠ .null
  | _ => false

/-- An entry for a signature with this key makes a difference. -/
def isLive (settings : Settings) (key : Opcode × List (String ⊕ Literal) × Bool) : Bool :=
  !isMoot settings key

/-- **The visit of an instruction tells nothing but representatives**, or some
output got none. -/
def tellsRepresentatives (settings : Settings) (i : Instruction) (before after : Congruence) :
    Bool :=
  !(i.onlyComputes && i.outputs.all fun o => (after.representative? o).isSome)
    || Table.only (isLive settings) after.top.values.entries
      = Table.only (isLive settings) before.top.values.entries

section Settles

variable (ctx : Context)

mutual
/-- **The walk over a block settles everything**: chains are short at every
point, and what may be deleted tells nothing but representatives. -/
def settlesBlock : Block → State → Bool
  | .mk vars body, s => settlesBody s.nextBlock body (enterBlock vars s)
/-- The walk over a body settles everything. -/
def settlesBody (block : Nat) : Body → State → Bool
  | .done, s => s.facts.isShort
  | .instr i rest, s =>
    s.facts.isShort && tellsRepresentatives ctx.settings
      i s.facts (visitInstruction ctx block i s).state.facts
      && settlesBody block rest (visitInstruction ctx block i s).state
  | .cont c rest, s =>
    s.facts.isShort && settlesContinuation c (governed c s)
      && settlesBody block rest (visitContinuation ctx c s).state
/-- The walks over the blocks of a continuation settle everything. -/
def settlesContinuation : Continuation → State → Bool
  | .ifElse _ t e, s =>
    settlesBlock t (s.push .branch)
      && settlesBlock e ((leaveArm (visitBlock ctx t (s.push .branch))).state.push .branch)
  | .switch _ arms, s => settlesArms arms s
  | .deferred trigger b, s => settlesBlock b (enterDeferred ctx trigger s).state
  | .nested b, s => settlesBlock b (s.push .nested)
/-- The walks over the arms of a switch settle everything. -/
def settlesArms : Arms → State → Bool
  | .none, _ => true
  | .default b, s => settlesBlock b (s.push .branch)
  | .case _ b rest, s =>
    settlesBlock b (s.push .branch)
      && settlesArms rest (leaveArm (visitBlock ctx b (s.push .branch))).state
end

end Settles

end Numbering

end ValueFlow
