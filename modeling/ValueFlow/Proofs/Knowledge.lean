import ValueFlow.Proofs.Meaning

/-!
# Facts that hold

The facts known at a point of a function *hold* in the storage there (`Holds`):
every representative holds what its variable holds, and every known signature
agrees with its operand. Signatures with an input that is a part of another
variable in the place of a value are left out, since such an input can change.

This module shows that everything value numbering does with facts keeps this up:
putting signatures into canonical form, entering what was found, executing what
was noted as written, and leaving scopes.
-/

namespace ValueFlow

variable {W : Type}

/-! ## Facts that hold -/

/-- **The facts hold in the storage.** -/
structure Holds (mach : Machine W) (own : String → Prop) (c : Congruence) (st : Store W) :
    Prop where
  canonical : ∀ v rep, c.representative? v = some rep →
    ∃ l, st.value v.name = some l ∧ st.read rep = some l
  values : ∀ s rep crossed, Congruence.find? s false c.scopes = some (some rep, crossed) →
    s.Plain own → s.Agrees mach st rep

namespace Holds

variable {mach : Machine W} {own : String → Prop} {c : Congruence} {st : Store W}

theorem read_follow (h : Holds mach own c st) (n : Nat) {a : Operand} {l : Literal}
    (ha : st.read a = some l) : st.read (c.follow n a) = some l := by
  induction n generalizing a with
  | zero => exact ha
  | succ n ih =>
    rw [Congruence.follow]
    split
    · rename_i next hnext
      split
      · exact ha
      · refine ih ?_
        obtain ⟨v, hv, hrep⟩ := Option.bind_eq_some_iff.1 hnext
        obtain ⟨l', hl', hread⟩ := h.canonical v next hrep
        cases a with
        | lit => cases hv
        | var w =>
          obtain rfl := Option.some.inj hv
          rw [hread, ← hl']
          exact ha
    · exact ha

/-- A canonical representative holds what the variable holds. -/
theorem read_canonical? (h : Holds mach own c st) {v : Var} {rep : Operand}
    (hrep : c.canonical? v = some rep) : ∃ l, st.value v.name = some l ∧ st.read rep = some l := by
  obtain ⟨rep₀, hrep₀, rfl⟩ := Option.map_eq_some_iff.1 hrep
  obtain ⟨l, hl, hread⟩ := h.canonical v rep₀ hrep₀
  exact ⟨l, hl, h.read_follow _ hread⟩

theorem alike_canonicalOperand (h : Holds mach own c st) (a : Operand) :
    st.Alike a.key (c.canonicalOperand a).key := by
  unfold Congruence.canonicalOperand
  cases hrep : a.var?.bind c.canonical? with
  | none => exact .inl rfl
  | some rep =>
    obtain ⟨v, hv, hrep⟩ := Option.bind_eq_some_iff.1 hrep
    obtain ⟨l, hl, hread⟩ := h.read_canonical? hrep
    cases a with
    | lit => cases hv
    | var w =>
      obtain rfl := Option.some.inj hv
      exact .inr ⟨l, hl, hread⟩

/-- Replacing an operand does not change what is read. -/
theorem read_replace (h : Holds mach own c st) (role : Role) (a : Operand) :
    st.read (Numbering.replace c role a) = st.read a := by
  rcases Numbering.replace_cases c role a with heq | ⟨v, rep, rfl, hrep, heq⟩
  · rw [heq]
  · obtain ⟨l, hl, hread⟩ := h.read_canonical? hrep
    rw [heq, hread]
    exact hl.symm


/-! ## Canonical signatures -/

section Canonicalize

variable {V : Vocabulary} {foreign : Foreign} {s : Signature}

/-- The inputs in canonical form hold what the inputs hold; a container stays. -/
theorem forall₂_mapInputs {R : String ⊕ Literal → String ⊕ Literal → Prop} (hrefl : ∀ k, R k k)
    {f : Operand → Operand} (hf : ∀ a ∈ s.inputs, R a.key (f a).key) (k : Nat) :
    List.Forall₂ R s.keys ((s.inputs.take k ++ (s.inputs.drop k).map f).map Operand.key) := by
  unfold Signature.keys
  rw [List.map_append]
  nth_rewrite 1 [← List.take_append_drop k s.inputs]
  rw [List.map_append]
  refine List.rel_append (List.forall₂_same.2 fun k _ => hrefl k) ?_
  rw [List.map_map, List.forall₂_map_left_iff, List.forall₂_map_right_iff]
  exact List.forall₂_same.2 fun a ha => hf a (List.mem_of_mem_drop ha)

/-- The signature with its inputs transformed, before they are put in order. -/
def mapped (s : Signature) (f : Operand → Operand) : Signature :=
  let kept := if s.op.readsContainer then 1 else 0
  { s with inputs := s.inputs.take kept ++ (s.inputs.drop kept).map f }

theorem head?_mapped (f : Operand → Operand) (hop : s.op.readsContainer = true) :
    (mapped s f).keys.head? = s.keys.head? := by
  unfold mapped Signature.keys
  rw [if_pos hop]
  cases s.inputs <;> rfl

theorem lawful_mapped (hs : s.Lawful foreign) (f : Operand → Operand) :
    (mapped s f).Lawful foreign := ⟨hs.commutes, hs.deterministic⟩

theorem alike_mapped (h : Holds mach own c st) (s : Signature) :
    List.Forall₂ st.Alike s.keys (mapped s c.canonicalOperand).keys :=
  forall₂_mapInputs (fun _ => .inl rfl) (fun a _ => h.alike_canonicalOperand a) _

/-- **A signature in canonical form denotes the same.** -/
theorem denotes_canonicalize (hm : mach.Obeys foreign) (h : Holds mach own c st)
    (hs : s.Lawful foreign) {l : Literal} :
    (c.canonicalize s).Denotes mach st l ↔ s.Denotes mach st l := by
  refine (Signature.denotes_normalize hm (lawful_mapped hs _)).trans ⟨fun hl => ?_, fun hl => ?_⟩
  · exact Opcode.Denotes.alike hl ((h.alike_mapped s).flip.imp fun _ _ => Store.Alike.symm)
      fun hop => (head?_mapped _ hop).symm
  · exact Opcode.Denotes.alike hl (h.alike_mapped s) fun hop => head?_mapped _ hop

theorem settled_canonicalize (h : Holds mach own c st) (hs : s.Lawful foreign)
    (hsettled : s.Settled st) : (c.canonicalize s).Settled st := by
  have hmapped : (mapped s c.canonicalOperand).Settled st :=
    Opcode.Settled.alike hsettled (h.alike_mapped s) fun hop => head?_mapped _ hop
  exact hmapped.normalize (lawful_mapped hs _)

end Canonicalize

end Holds

/-! ## Names with storage of their own -/

/-- **What stands for a value has storage of its own.** -/
structure Vocabulary.Owned (V : Vocabulary) (own : String → Prop) : Prop where
  constant : ∀ n, V.constant n → own n
  stands : ∀ v, V.text v → V.fixed v → own v.name
  keys : ∀ v, V.text v → V.stable v → own v.name

/-- The variable with this name may be used: it is a constant or declared in an
open scope. -/
def Vocabulary.Known (V : Vocabulary) (names : List String) (n : String) : Prop :=
  V.constant n ∨ n ∈ names

section Names

variable {V : Vocabulary} {own : String → Prop} {names : List String}

theorem Vocabulary.Names.known {v : Var} (h : V.Names names v) : V.Known names v.name :=
  h.imp (V.constant_of_shared v) And.right

theorem Vocabulary.Stands.isOwn {v : Var} (h : V.Stands names v) (hV : V.Owned own) : own v.name :=
  h.1.elim (fun hs => hV.constant _ (V.constant_of_shared v hs)) fun ht => hV.stands v ht.1 h.2

theorem Operand.All.known {a : Operand} (h : a.All (V.Names names)) {n : String}
    (hn : a.key = .inl n) : V.Known names n := by
  cases a with
  | lit => cases hn
  | var v =>
    obtain rfl := Sum.inl.inj hn
    exact Vocabulary.Names.known h

theorem Operand.All.stands {a : Operand} (h : a.All (V.Stands names)) (hV : V.Owned own)
    {n : String} (hn : a.key = .inl n) : V.Known names n ∧ own n := by
  cases a with
  | lit => cases hn
  | var v =>
    obtain rfl := Sum.inl.inj hn
    exact ⟨h.1.known, Vocabulary.Stands.isOwn h hV⟩

theorem Signature.All.known {s : Signature} (h : s.All (V.Names names)) {n : String}
    (hn : .inl n ∈ s.keys) : V.Known names n := by
  obtain ⟨a, ha, hkey⟩ := List.mem_map.1 hn
  exact (h a ha).known hkey

end Names

namespace Congruence

variable {V : Vocabulary} {own : String → Prop} {c : Congruence} {v : Var} {rep : Operand}

theorem mem_of_get? {scope : Scope} {names : List String} (hs : V.Mentions names scope)
    (h : scope.canonical.get? v = some rep) :
    ∃ w, w.name = v.name ∧ V.Keys names w := by
  obtain ⟨e, he, hkey, -⟩ := Table.get?_eq_some_iff.1 h
  exact ⟨e.1, hkey, (hs.canonical e he).1⟩

theorem keys_of_representative? (ht : V.Tidy c.scopes)
    (h : c.representative? v = some rep) : ∃ w, w.name = v.name ∧ V.Keys c.names w := by
  obtain ⟨scope, hscope, hget⟩ := List.exists_of_findSome?_eq_some h
  exact mem_of_get? (mentions_of_tidy ht hscope) hget

theorem own_canonicalOperand (hV : V.Owned own) (ht : V.Tidy c.scopes) (a : Operand) :
    c.canonicalOperand a = a
      ∨ (∀ n, a.key = .inl n → own n) ∧ ∀ n, (c.canonicalOperand a).key = .inl n → own n := by
  unfold canonicalOperand
  cases hrep : a.var?.bind c.canonical? with
  | none => exact .inl rfl
  | some rep =>
    obtain ⟨v, hv, hrep⟩ := Option.bind_eq_some_iff.1 hrep
    refine .inr ⟨fun n hn => ?_, fun n hn => ((stands_of_canonical? ht hrep).stands hV hn).2⟩
    cases a with
    | lit => cases hv
    | var w =>
      obtain rfl := Option.some.inj hv
      obtain rfl := Sum.inl.inj hn
      obtain ⟨rep₀, hrep₀, -⟩ := Option.map_eq_some_iff.1 hrep
      obtain ⟨w', hname, hkeys⟩ := keys_of_representative? ht hrep₀
      exact hname ▸ hV.keys w' hkeys.2.1 hkeys.2.2

theorem own_of_forall₂ {keys keys' : List (String ⊕ Literal)}
    (h : List.Forall₂ (fun k k' => k' = k ∨ ∀ n, k' = .inl n → own n) keys keys')
    (hown : ∀ n, .inl n ∈ keys → own n) : ∀ n, .inl n ∈ keys' → own n := by
  induction h with
  | nil => exact hown
  | @cons k k' keys keys' hk _ ih =>
    intro n hn
    rcases List.mem_cons.1 hn with hn | hn
    · rcases hk with rfl | hk
      · exact hown n (hn ▸ List.mem_cons_self)
      · exact hk n hn.symm
    · exact ih (fun n hn => hown n (List.mem_cons_of_mem _ hn)) n hn

theorem plain_of_forall₂ {op : Opcode} {keys keys' : List (String ⊕ Literal)}
    (h : List.Forall₂ (fun k k' => k' = k ∨ ∀ n, k' = .inl n → own n) keys keys')
    (hown : ∀ n, .inl n ∈ op.valueKeys keys → own n) :
    ∀ n, .inl n ∈ op.valueKeys keys' → own n := by
  unfold Opcode.valueKeys at hown ⊢
  by_cases hread : op.readPath?.isSome = true
  · rw [if_pos hread] at hown ⊢
    exact own_of_forall₂ (List.forall₂_drop 1 h) hown
  · rw [if_neg hread] at hown ⊢
    exact own_of_forall₂ h hown

/-- The values among the inputs keep having storage of their own, and gain none. -/
theorem plain_canonicalize (hV : V.Owned own) (ht : V.Tidy c.scopes) {foreign : Foreign}
    {s : Signature} (hs : s.Lawful foreign) : (c.canonicalize s).Plain own ↔ s.Plain own := by
  refine (Signature.plain_normalize (Holds.lawful_mapped hs _)).trans ⟨fun h => ?_, fun h => ?_⟩
  · refine plain_of_forall₂ ?_ h
    refine List.Forall₂.flip (Holds.forall₂_mapInputs (fun _ => .inl rfl) (fun a _ => ?_) _)
    exact (own_canonicalOperand hV ht a).imp (fun heq => (congrArg Operand.key heq).symm) And.left
  · refine plain_of_forall₂ ?_ h
    refine Holds.forall₂_mapInputs (fun _ => .inl rfl) (fun a _ => ?_) _
    exact (own_canonicalOperand hV ht a).imp (congrArg Operand.key) And.right

theorem representative?_eq_of_top {c' : Congruence} (ho : c'.outer = c.outer)
    (hc : c'.top.canonical = c.top.canonical) : c'.representative? = c.representative? := by
  funext v
  unfold representative? scopes
  rw [List.findSome?_cons, List.findSome?_cons, ho, hc]

theorem representative?_invalidateAll (m : AliasMap) (ls : List Location) (c : Congruence) :
    (ls.foldl (fun c l => (c.invalidate m l).2) c).representative? = c.representative? := by
  induction ls generalizing c with
  | nil => rfl
  | cons l ls ih => exact (ih _).trans (representative?_eq_of_top rfl rfl)

theorem representative?_record (m : AliasMap) (s : Signature) (rep : Operand) :
    (c.record m s rep).2.representative? = c.representative? := by
  unfold record
  split
  · rfl
  · exact representative?_eq_of_top rfl rfl

theorem representative?_of_get? (h : c.top.canonical.get? v = some rep) :
    c.representative? v = some rep := by
  unfold representative? scopes
  rw [List.findSome?_cons, h]

/-- What entries of the innermost scope can do to representatives. -/
theorem representative?_insertAll (c c' : Congruence) (entries : List (Var × Operand))
    (h : c'.representative? v = some rep) (ho : c'.outer = c.outer)
    (hc : c'.top.canonical = c.top.canonical.insertAll entries) :
    (∃ e ∈ entries, e.1.name = v.name ∧ e.2 = rep) ∨ c.representative? v = some rep := by
  unfold representative? scopes at h ⊢
  rw [List.findSome?_cons, ho, hc] at h
  rw [List.findSome?_cons]
  cases hget : (c.top.canonical.insertAll entries).get? v with
  | none =>
    rw [hget] at h
    by_cases hmem : ∃ e ∈ entries, (Keyed.key e.1 : String) = Keyed.key v
    · obtain ⟨e, -, -, hsome⟩ := Table.get?_insertAll_of_mem c.top.canonical hmem
      rw [hsome] at hget
      cases hget
    · rw [Table.get?_insertAll_of_not_mem _ fun e he hkey => hmem ⟨e, he, hkey⟩] at hget
      rw [hget]
      exact .inr h
  | some rep' =>
    rw [hget] at h
    obtain rfl := Option.some.inj h
    rcases Table.get?_insertAll_eq_some hget with ⟨e, he, hkey, rfl⟩ | ⟨-, hget⟩
    · exact .inl ⟨e, he, hkey, rfl⟩
    · rw [hget]
      exact .inr rfl

theorem representative?_setCanonical {v w : Var} {rep rep' : Operand}
    (h : (c.setCanonical v rep).representative? w = some rep') :
    v.name = w.name ∧ rep' = rep ∨ c.representative? w = some rep' := by
  rcases representative?_insertAll c _ [(v, rep)] h rfl rfl with
    ⟨e, he, hname, rfl⟩ | h
  · obtain rfl := List.mem_singleton.1 he
    exact .inl ⟨hname, rfl⟩
  · exact .inr h

theorem representative?_mergeNested {child : Scope}
    (h : (c.mergeNested child).representative? v = some rep) :
    child.canonical.get? v = some rep ∨ c.representative? v = some rep := by
  refine (representative?_insertAll c _ _ h rfl rfl).imp_left fun ⟨e, he, hname, hrep⟩ => ?_
  exact Table.get?_eq_some_iff.2 ⟨e, (List.mem_filter.1 he).1, hname, hrep⟩

theorem representative?_absorbArms (m : AliasMap) (arms : List Scope) (c : Congruence) :
    (arms.foldl (absorbArm m) c).representative? = c.representative? := by
  induction arms generalizing c with
  | nil => rfl
  | cons arm arms ih =>
    refine (ih _).trans (Eq.trans ?_ (representative?_invalidateAll m arm.invalidated c))
    exact representative?_eq_of_top rfl rfl

theorem representative?_mergeBranches {m : AliasMap} {keep : Bool} {arms : List Scope}
    (h : (c.mergeBranches m keep arms).2.representative? v = some rep) :
    (∀ arm ∈ arms, ∃ rep', arm.canonical.get? v = some rep' ∧ rep'.key = rep.key)
      ∨ c.representative? v = some rep := by
  rcases mergeBranches_cases m keep arms c with heq | ⟨first, rest, rfl, heq⟩
  · rw [heq, representative?_absorbArms] at h
    exact .inr h
  · rw [heq] at h
    rcases representative?_insertAll ((first :: rest).foldl (absorbArm m) c) _ _ h rfl rfl with
      ⟨e, he, hname, rfl⟩ | h
    · refine .inl fun arm harm => ?_
      obtain ⟨rep', hget, hkey⟩ := get?_of_mem_commonCanonical he arm harm
      have hcongr : arm.canonical.get? e.1 = arm.canonical.get? v := Table.get?_congr hname
      exact ⟨rep', hcongr.symm.trans hget, hkey⟩
    · rw [representative?_absorbArms] at h
      exact .inr h

theorem known_of_find? (ht : V.Tidy c.scopes) {s : Signature} {crossed crossed' : Bool}
    {entry : Option Operand} (h : find? s crossed c.scopes = some (entry, crossed')) {n : String}
    (hn : .inl n ∈ s.keys) : V.Known c.names n := by
  obtain ⟨scope, hscope, hget⟩ := exists_of_find? h
  obtain ⟨e, he, hkey, -⟩ := Table.get?_eq_some_iff.1 hget
  have hall := ((mentions_of_tidy ht hscope).values e he).1
  rw [← (Signature.key_eq_iff.1 hkey).2.1] at hn
  exact hall.known hn

end Congruence

/-! ## Facts along frames -/

namespace Holds

variable {mach : Machine W} {m : AliasMap} {own : String → Prop} {V : Vocabulary} {c : Congruence}
  {written : List Location} {st st' : Store W} {rep : Operand}

/-- Facts depend on two tables of each scope only. -/
theorem of_top {c' : Congruence} (h : Holds mach own c st) (ho : c'.outer = c.outer)
    (hk : c'.top.kind = c.top.kind) (hc : c'.top.canonical = c.top.canonical)
    (hv : c'.top.values = c.top.values) : Holds mach own c' st where
  canonical v rep hrep := by
    rw [Congruence.representative?_eq_of_top ho hc] at hrep
    exact h.canonical v rep hrep
  values s rep crossed hfind hplain := by
    rw [Congruence.find?_eq_of_top ho hk (by rw [hv])] at hfind
    exact h.values s rep crossed hfind hplain

theorem canonical_frame (h : Holds mach own c st) (hV : V.Owned own) (ht : V.Tidy c.scopes)
    (hp : Placed m own st) (hf : Frame m (V.Known c.names) written st st') (v : Var) (rep : Operand)
    (hrep : c.representative? v = some rep) :
    ∃ l, st'.value v.name = some l ∧ st'.read rep = some l := by
  obtain ⟨l, hl, hread⟩ := h.canonical v rep hrep
  refine ⟨l, hf.get hp (k := Sum.inl v.name) (fun n hn => ?_) hl, hf.get hp (fun n hn => ?_) hread⟩
  · obtain rfl := Sum.inl.inj hn
    obtain ⟨w, hw, hkeys⟩ := Congruence.keys_of_representative? ht hrep
    exact hw ▸ ⟨hkeys.1.known, hV.keys w hkeys.2.1 hkeys.2.2⟩
  · exact (Congruence.stands_of_representative? ht hrep).stands hV hn

theorem values_frame (h : Holds mach own c st) (hV : V.Owned own) (ht : V.Tidy c.scopes)
    (hp : Placed m own st) (hf : Frame m (V.Known c.names) written st st') {s : Signature}
    {crossed : Bool}
    (hfind : Congruence.find? s false c.scopes = some (some rep, crossed)) (hplain : s.Plain own)
    (hreads : ∀ l ∈ written, Congruence.reads m l s = false) : s.Agrees mach st' rep :=
  (h.values s rep crossed hfind hplain).frame hp hf
    (fun _ hn => Congruence.known_of_find? ht hfind hn) hplain
    (fun _ hn => (Congruence.stands_of_find? ht hfind).stands hV hn) hreads

/-- **What was executed and noted as written keeps the facts true.** -/
theorem invalidateAll (h : Holds mach own c st) (hV : V.Owned own) (ht : V.Tidy c.scopes)
    (hp : Placed m own st) (hf : Frame m (V.Known c.names) written st st') :
    Holds mach own (written.foldl (fun c l => (c.invalidate m l).2) c) st' where
  canonical v rep hrep := by
    refine h.canonical_frame hV ht hp hf v rep ?_
    rwa [Congruence.representative?_invalidateAll] at hrep
  values s rep crossed hfind hplain := by
    obtain ⟨hfind, hreads⟩ := Congruence.find?_invalidateAll hfind
    exact h.values_frame hV ht hp hf hfind hplain hreads

theorem setCanonical (h : Holds mach own c st) {v : Var} {l : Literal}
    (hv : st.value v.name = some l) (hrep : st.read rep = some l) :
    Holds mach own (c.setCanonical v rep) st where
  canonical w rep' hrep' := by
    rcases Congruence.representative?_setCanonical hrep' with ⟨hname, rfl⟩ | hrep'
    · exact ⟨l, hname ▸ hv, hrep⟩
    · exact h.canonical w rep' hrep'
  values s rep' crossed hfind hplain := h.values s rep' crossed hfind hplain

theorem record (h : Holds mach own c st) (m : AliasMap) {s : Signature}
    (hs : s.Plain own → s.Agrees mach st rep) : Holds mach own (c.record m s rep).2 st where
  canonical v rep' hrep' := by
    refine h.canonical v rep' ?_
    rwa [Congruence.representative?_record] at hrep'
  values s' rep' crossed hfind hplain := by
    rcases Congruence.find?_record hfind with ⟨hkey, rfl⟩ | hfind
    · exact (hs (hplain.congr hkey.symm)).congr hkey rfl
    · exact h.values s' rep' crossed hfind hplain

/-! ## Entering and leaving scopes -/

theorem push (h : Holds mach own c st) {kind : ScopeKind} (hk : kind ≠ .deferred) :
    Holds mach own (c.push kind) st where
  canonical v rep hrep := h.canonical v rep hrep
  values s rep crossed hfind hplain := by
    refine h.values s rep crossed ?_ hplain
    have hfalse : (false || decide (kind = .deferred)) = false := by simp [hk]
    have hfind : Congruence.find? s (false || decide (kind = .deferred)) c.scopes
        = some (some rep, crossed) := hfind
    rwa [hfalse] at hfind

/-- **A nested block has run**, without writing to storage that is read. -/
theorem mergeNested {child : Scope} (h : Holds mach own c st) (hV : V.Owned own)
    (ht : V.Tidy c.scopes) (hp : Placed m own st) (hf : Frame m (V.Known c.names) [] st st')
    (hchild : Holds mach own ⟨child, c.scopes⟩ st') : Holds mach own (c.mergeNested child) st' where
  canonical v rep hrep := by
    rcases Congruence.representative?_mergeNested hrep with hrep | hrep
    · exact hchild.canonical v rep (Congruence.representative?_of_get? hrep)
    · exact h.canonical_frame hV ht hp hf v rep hrep
  values s rep crossed hfind hplain := by
    rcases Congruence.find?_mergeNested hfind with hget | hfind
    · exact hchild.values s rep false (Congruence.find?_of_get? hget) hplain
    · exact h.values_frame hV ht hp hf hfind hplain fun l hl => absurd hl List.not_mem_nil

/-- **One of the arms of a conditional has run.** -/
theorem mergeBranches {arms : List Scope} {arm : Scope} (h : Holds mach own c st) (hV : V.Owned own)
    (ht : V.Tidy c.scopes) (hp : Placed m own st)
    (hf : Frame m (V.Known c.names) arm.invalidated st st') (harm : arm ∈ arms)
    (hrun : Holds mach own ⟨arm, c.scopes⟩ st') (keep : Bool) :
    Holds mach own (c.mergeBranches m keep arms).2 st' where
  canonical v rep hrep := by
    rcases Congruence.representative?_mergeBranches hrep with hall | hrep
    · obtain ⟨rep', hget, hkey⟩ := hall arm harm
      obtain ⟨l, hl, hread⟩ := hrun.canonical v rep' (Congruence.representative?_of_get? hget)
      unfold Store.read at hread ⊢
      exact ⟨l, hl, hkey ▸ hread⟩
    · exact h.canonical_frame hV ht hp hf v rep hrep
  values s rep crossed hfind hplain := by
    rcases Congruence.find?_mergeBranches hfind with hall | ⟨hfind, hreads⟩
    · obtain ⟨rep', hget, hkey⟩ := hall arm harm
      exact (hrun.values s rep' false (Congruence.find?_of_get? hget) hplain).congr rfl hkey
    · exact h.values_frame hV ht hp hf hfind hplain (hreads arm harm)

end Holds

end ValueFlow
