import Mathlib.Data.List.Perm.Basic
import ValueFlow.Proofs.Effects

/-!
# What facts mean

A fact is about the storage at the point where it is known. A representative of
a variable holds what the variable holds. **The operand known for a signature
holds what the signature denotes** (`Agrees`), where a signature denotes the
value that its operation has on what its inputs hold now.

A signature may come to denote nothing, when the storage that it reads has gone
out of use; the fact then says nothing. What has to be excluded is that it
denotes something else later. So a known signature is *settled*: its inputs have
their values and denote their cells. Facts hold on along every frame whose
written locations the signature does not read (`Signature.Agrees.frame`).
-/

namespace ValueFlow

variable {W : Type}

/-! ## What a signature denotes -/

namespace Opcode

/-- The inputs that are read as values, as opposed to the storage that is read. -/
def valueKeys (op : Opcode) (keys : List (String ⊕ Literal)) : List (String ⊕ Literal) :=
  if op.readPath?.isSome then keys.drop 1 else keys

/-- The cell that is read out of storage. -/
def cell? (st : Store W) : Opcode → List (String ⊕ Literal) → Option Cell
  | .retrieve, [.inl n] => st.places n
  | .fieldRetrieve path, [.inl n] => st.field? n path
  | .elementRetrieve, [.inl n, k] => st.element? n k
  | _, _ => none

/-- **What an operation denotes** on inputs that are given by what they are
identified by. What a foreign function gives may depend on the world, so any
state of the world counts. -/
inductive Denotes (mach : Machine W) (st : Store W) :
    Opcode → List (String ⊕ Literal) → Literal → Prop
  | assign {k : String ⊕ Literal} {l : Literal} (h : st.get k = some l) :
    Denotes mach st .assign [k] l
  | literal (l : Literal) : Denotes mach st .retrieve [.inr l] l
  | cell {op : Opcode} {keys : List (String ⊕ Literal)} {c : Cell} {l : Literal}
    (hc : op.cell? st keys = some c) (h : st.contents c = some l) : Denotes mach st op keys l
  | builtin {timing : Timing} {op : Builtin} {keys : List (String ⊕ Literal)} {xs : List Literal}
    {l : Literal} (hxs : st.getAll keys = some xs) (h : mach.builtin op xs = some l) :
    Denotes mach st (.builtin timing op) keys l
  | foreign {function : String} {timing : Timing} {output : Nat} {keys : List (String ⊕ Literal)}
    {xs ys : List Literal} {w w' : W} {l : Literal} (hxs : st.getAll keys = some xs)
    (hys : mach.call function xs w = some (ys, w')) (h : ys[output]? = some l) :
    Denotes mach st (.foreign function timing output) keys l

/-- **The inputs have their values and the storage that is read is there.** -/
structure Settled (st : Store W) (op : Opcode) (keys : List (String ⊕ Literal)) : Prop where
  values : ∀ k ∈ op.valueKeys keys, (st.get k).isSome = true
  cell : op.readPath?.isSome = true →
    (∃ c, op.cell? st keys = some c ∧ (c.path = [] → (st.contents c).isSome = true))
      ∨ ∃ l, op = .retrieve ∧ keys = [.inr l]

theorem mem_keys_of_mem_valueKeys {op : Opcode} {keys : List (String ⊕ Literal)}
    {k : String ⊕ Literal} (h : k ∈ op.valueKeys keys) : k ∈ keys := by
  unfold valueKeys at h
  split at h
  · exact List.mem_of_mem_drop h
  · exact h

/-- Only operations that read storage have a cell. -/
theorem readPath?_of_cell? {st : Store W} {op : Opcode} {keys : List (String ⊕ Literal)} {c : Cell}
    (hc : op.cell? st keys = some c) : op.readPath?.isSome = true := by
  unfold cell? at hc
  split at hc
  · rfl
  · rfl
  · rfl
  · cases hc

end Opcode

namespace Signature

/-- What the inputs are identified by. -/
def keys (s : Signature) : List (String ⊕ Literal) := s.inputs.map Operand.key

/-- What the signature denotes. -/
def Denotes (mach : Machine W) (st : Store W) (s : Signature) (l : Literal) : Prop :=
  s.op.Denotes mach st s.keys l

/-- The signature is settled. -/
def Settled (st : Store W) (s : Signature) : Prop := s.op.Settled st s.keys

/-- The inputs that are read as values are variables with storage of their own. -/
def Plain (own : String → Prop) (s : Signature) : Prop :=
  ∀ n, .inl n ∈ s.op.valueKeys s.keys → own n

/-- **The operand holds what the signature denotes**, if it denotes anything. -/
structure Agrees (mach : Machine W) (st : Store W) (s : Signature) (rep : Operand) : Prop where
  settled : s.Settled st
  value : ∃ l, st.read rep = some l ∧ ∀ l', s.Denotes mach st l' → l' = l

theorem key_eq_iff {s s' : Signature} :
    s.key = s'.key ↔ s.op = s'.op ∧ s.keys = s'.keys ∧ s.commutative = s'.commutative := by
  unfold key keys
  simp only [Prod.mk.injEq]

theorem Agrees.congr {mach : Machine W} {st : Store W} {s s' : Signature} {rep rep' : Operand}
    (h : s.Agrees mach st rep) (hs : s.key = s'.key) (hrep : rep.key = rep'.key) :
    s'.Agrees mach st rep' := by
  obtain ⟨hop, hkeys, -⟩ := key_eq_iff.1 hs
  obtain ⟨hsettled, l, hl, hvalue⟩ := h
  unfold Settled at hsettled
  unfold Denotes at hvalue
  rw [hop, hkeys] at hsettled hvalue
  refine ⟨hsettled, l, ?_, hvalue⟩
  unfold Store.read at hl ⊢
  rw [← hrep, hl]

theorem Plain.congr {own : String → Prop} {s s' : Signature} (h : s.Plain own)
    (hs : s.key = s'.key) : s'.Plain own := by
  obtain ⟨hop, hkeys, -⟩ := key_eq_iff.1 hs
  unfold Plain at h ⊢
  rw [← hop, ← hkeys]
  exact h

end Signature

/-! ## Facts along frames -/

section Frames

variable {m : AliasMap} {own names : String → Prop} {written : List Location}
  {st st' : Store W} {op : Opcode} {keys : List (String ⊕ Literal)}

theorem Placed.value_own (hp : Placed m own st) {n : String} (hn : own n) :
    st.value n = st.contents (.own n) := by
  unfold Store.value
  rw [hp.self n hn]
  rfl

/-- A variable with storage of its own keeps its value. -/
theorem Frame.get (hf : Frame m names written st st') (hp : Placed m own st)
    {k : String ⊕ Literal} (hn : ∀ n, k = .inl n → names n ∧ own n) {l : Literal}
    (hl : st.get k = some l) : st'.get k = some l := by
  cases k with
  | inr l' => exact hl
  | inl n =>
    obtain ⟨hname, hown⟩ := hn n rfl
    have hl' : st.contents (.own n) = some l := (hp.value_own hown).symm.trans hl
    show st'.value n = some l
    unfold Store.value
    rw [hf.places n hname _ (hp.self n hown)]
    exact hf.kept n hname l hl'

theorem Frame.getAll (hf : Frame m names written st st') (hp : Placed m own st)
    (hn : ∀ n, .inl n ∈ keys → names n ∧ own n)
    {xs : List Literal} (hxs : st.getAll keys = some xs) : st'.getAll keys = some xs := by
  refine Store.getAll_eq_some.2 ?_
  have h := Store.getAll_eq_some.1 hxs
  clear hxs
  induction h with
  | nil => exact .nil
  | @cons k l keys xs hl _ ih =>
    refine .cons ?_ (ih fun n hmem => hn n (List.mem_cons_of_mem _ hmem))
    exact hf.get hp (fun n hk => hn n (hk ▸ List.mem_cons_self)) hl

theorem Store.exists_getAll (h : ∀ k ∈ keys, (st.get k).isSome = true) :
    ∃ xs, st.getAll keys = some xs := by
  induction keys with
  | nil => exact ⟨[], rfl⟩
  | cons k keys ih =>
    obtain ⟨hk, hkeys⟩ := List.forall_mem_cons.1 h
    obtain ⟨l, hl⟩ := Option.isSome_iff_exists.1 hk
    obtain ⟨xs, hxs⟩ := ih hkeys
    exact ⟨l :: xs, Store.getAll_eq_some.2 (.cons hl (Store.getAll_eq_some.1 hxs))⟩

/-- The location that a signature reads covers the cell that it reads. -/
theorem covers_of_cell? (hp : Placed m own st) {s : Signature} {c : Cell}
    (hc : s.op.cell? st s.keys = some c) :
    ∃ loc, s.location? m = some loc ∧ s.isRetrieve = true ∧ m.Covers loc c := by
  obtain ⟨op, inputs, commutative⟩ := s
  unfold Signature.keys at hc
  simp only at hc
  unfold Opcode.cell? at hc
  split at hc
  · rename_i n hkeys
    obtain ⟨v, rfl, rfl⟩ : ∃ v : Var, inputs = [.var v] ∧ v.name = n := by
      match inputs, hkeys with
      | [.var v], hkeys => exact ⟨v, rfl, Sum.inl.inj (List.cons.inj hkeys).1⟩
    have hnil : (m.location v).extend [] = m.locate v.name := by
      unfold Location.extend
      rw [List.append_nil]
      rfl
    exact ⟨_, rfl, rfl, hnil ▸ hp.covered _ c hc⟩
  · rename_i path n hkeys
    obtain ⟨v, rfl, rfl⟩ : ∃ v : Var, inputs = [.var v] ∧ v.name = n := by
      match inputs, hkeys with
      | [.var v], hkeys => exact ⟨v, rfl, Sum.inl.inj (List.cons.inj hkeys).1⟩
    obtain ⟨-, c₀, hc₀, rfl⟩ := Store.field?_eq_some.1 hc
    exact ⟨_, rfl, rfl, (hp.covered _ c₀ hc₀).extend (AliasMap.forall₂_fieldSteps path)⟩
  · rename_i n k hkeys
    obtain ⟨v, ix, rfl, rfl⟩ : ∃ (v : Var) (ix : Operand), inputs = [.var v, ix] ∧ v.name = n := by
      match inputs, hkeys with
      | [.var v, ix], hkeys =>
        exact ⟨v, ix, rfl, Sum.inl.inj (List.cons.inj hkeys).1⟩
    obtain ⟨c₀, l, hc₀, -, rfl⟩ := Store.element?_eq_some.1 hc
    exact ⟨_, rfl, rfl, (hp.covered _ c₀ hc₀).extend (.cons trivial .nil)⟩
  · cases hc

/-- The cell that is read stays the same. -/
theorem Frame.cell? (hf : Frame m names written st st') (hp : Placed m own st)
    (hn : ∀ n, .inl n ∈ keys → names n) (hown : ∀ n, .inl n ∈ op.valueKeys keys → own n) {c : Cell}
    (hc : op.cell? st keys = some c) : op.cell? st' keys = some c := by
  unfold Opcode.cell? at hc ⊢
  split at hc
  · rename_i n
    exact hf.places n (hn n List.mem_cons_self) c hc
  · rename_i path n
    obtain ⟨hpath, c₀, hc₀, rfl⟩ := Store.field?_eq_some.1 hc
    exact Store.field?_eq_some.2 ⟨hpath, c₀, hf.places n (hn n List.mem_cons_self) c₀ hc₀, rfl⟩
  · rename_i n k
    obtain ⟨c₀, l, hc₀, hl, rfl⟩ := Store.element?_eq_some.1 hc
    refine Store.element?_eq_some.2 ⟨c₀, l, hf.places n (hn n List.mem_cons_self) c₀ hc₀, ?_, rfl⟩
    refine hf.get hp (fun n' hk => ?_) hl
    subst hk
    exact ⟨hn n' (by simp), hown n' (by simp [Opcode.valueKeys, Opcode.readPath?])⟩
  · cases hc

/-- A cell that is read and is not inside a container is the own cell of an
input. -/
theorem own_of_cell? (hp : Placed m own st) {c : Cell} (hc : op.cell? st keys = some c)
    (hpath : c.path = []) : ∃ n, .inl n ∈ keys ∧ c = .own n := by
  unfold Opcode.cell? at hc
  split at hc
  · rename_i n
    by_cases hown : own n
    · exact ⟨n, List.mem_cons_self, Option.some.inj (hc.symm.trans (hp.self n hown))⟩
    · exact absurd hpath (hp.inner n c hown hc)
  · obtain ⟨hne, c₀, -, rfl⟩ := Store.field?_eq_some.1 hc
    simp [fieldSelectors_ne_nil hne] at hpath
  · obtain ⟨c₀, l, -, -, rfl⟩ := Store.element?_eq_some.1 hc
    simp at hpath
  · cases hc

theorem Opcode.Settled.frame (hs : op.Settled st keys) (hp : Placed m own st)
    (hf : Frame m names written st st') (hn : ∀ n, .inl n ∈ keys → names n)
    (hown : ∀ n, .inl n ∈ op.valueKeys keys → own n) : op.Settled st' keys where
  values k hk := by
    obtain ⟨l, hl⟩ := Option.isSome_iff_exists.1 (hs.values k hk)
    refine Option.isSome_iff_exists.2 ⟨l, hf.get hp (fun n hkn => ?_) hl⟩
    exact ⟨hn n (hkn ▸ Opcode.mem_keys_of_mem_valueKeys hk), hown n (hkn ▸ hk)⟩
  cell hop := by
    refine (hs.cell hop).imp_left fun ⟨c, hc, hsome⟩ => ⟨c, hf.cell? hp hn hown hc, fun hpath => ?_⟩
    obtain ⟨n', hn', rfl⟩ := own_of_cell? hp hc hpath
    obtain ⟨l, hl⟩ := Option.isSome_iff_exists.1 (hsome hpath)
    exact Option.isSome_iff_exists.2 ⟨l, hf.kept n' (hn n' hn') l hl⟩

/-- **A settled signature denotes nothing else later**, unless storage that it
reads was written. -/
theorem Opcode.Denotes.of_frame {mach : Machine W} {l : Literal} (h : op.Denotes mach st' keys l)
    (hs : op.Settled st keys) (hp : Placed m own st) (hf : Frame m names written st st')
    (hn : ∀ n, .inl n ∈ keys → names n) (hown : ∀ n, .inl n ∈ op.valueKeys keys → own n)
    (hreads : ∀ c, op.cell? st keys = some c → ∀ loc ∈ written, ¬ m.Covers loc c) :
    op.Denotes mach st keys l := by
  have hname : ∀ k ∈ op.valueKeys keys, ∀ n, k = .inl n → names n ∧ own n := fun k hk n hkn =>
    ⟨hn n (hkn ▸ mem_keys_of_mem_valueKeys hk), hown n (hkn ▸ hk)⟩
  cases h with
  | @assign k _ h =>
    obtain ⟨x, hx⟩ := Option.isSome_iff_exists.1 (hs.values k List.mem_cons_self)
    have hx' := hf.get hp (hname k List.mem_cons_self) hx
    exact .assign (hx.trans (hx'.symm.trans h))
  | literal => exact .literal l
  | @cell _ _ c' _ hc' h =>
    rcases hs.cell (readPath?_of_cell? hc') with ⟨c, hc, hsome⟩ | ⟨_, rfl, rfl⟩
    case inr => cases hc'
    obtain rfl : c = c' := Option.some.inj ((hf.cell? hp hn hown hc).symm.trans hc')
    refine .cell hc ?_
    by_cases hpath : c.path = []
    · obtain ⟨n', hn', rfl⟩ := own_of_cell? hp hc hpath
      obtain ⟨x, hx⟩ := Option.isSome_iff_exists.1 (hsome hpath)
      exact hx.trans ((hf.kept n' (hn n' hn') x hx).symm.trans h)
    · rcases hf.inner c hpath l h with h | ⟨loc, hloc, hcov⟩
      · exact h
      · exact absurd hcov (hreads c hc loc hloc)
  | @builtin timing op _ xs _ hxs h =>
    obtain ⟨xs', hxs'⟩ := Store.exists_getAll hs.values
    have := hf.getAll hp (fun n hmem => hname _ hmem n rfl) hxs'
    obtain rfl := Option.some.inj (this.symm.trans hxs)
    exact .builtin hxs' h
  | @foreign function timing output _ xs ys w w' _ hxs hys h =>
    obtain ⟨xs', hxs'⟩ := Store.exists_getAll hs.values
    have := hf.getAll hp (fun n hmem => hname _ hmem n rfl) hxs'
    obtain rfl := Option.some.inj (this.symm.trans hxs)
    exact .foreign hxs' hys h

/-- **What is known about a signature stays known**, unless storage that it
reads was written. -/
theorem Signature.Agrees.frame {mach : Machine W} {s : Signature} {rep : Operand}
    (h : s.Agrees mach st rep) (hp : Placed m own st) (hf : Frame m names written st st')
    (hn : ∀ n, .inl n ∈ s.keys → names n) (hplain : s.Plain own)
    (hrep : ∀ n, rep.key = .inl n → names n ∧ own n)
    (hreads : ∀ loc ∈ written, Congruence.reads m loc s = false) : s.Agrees mach st' rep := by
  obtain ⟨hs, l, hl, hvalue⟩ := h
  refine ⟨hs.frame hp hf hn hplain, l, hf.get hp hrep hl, fun l' hl' => hvalue l' ?_⟩
  refine hl'.of_frame hs hp hf hn hplain fun c hc loc hloc hcov => ?_
  obtain ⟨loc', hloc', hret, hcov'⟩ := covers_of_cell? hp hc
  have hnot := hreads loc hloc
  unfold Congruence.reads at hnot
  rw [hret, hloc', Option.any_some, AliasMap.overlaps_of_covers hcov' hcov] at hnot
  cases hnot

end Frames

/-! ## Lawful signatures -/

/-- **The signature is one that value numbering relies on**: the order of its
inputs is forgotten only where it does not matter, and a foreign function stands
in it only if it is deterministic. -/
structure Signature.Lawful (foreign : Foreign) (s : Signature) : Prop where
  commutes : s.commutative = true →
    (∃ timing op, s.op = .builtin timing op ∧ op.isCommutative = true)
      ∨ ∃ function timing output f, s.op = .foreign function timing output
        ∧ foreign.lookup function = .ok f ∧ f.commutative = true
  deterministic : ∀ function timing output, s.op = .foreign function timing output →
    ∃ f, foreign.lookup function = .ok f ∧ f.deterministic = true

section Lawful

variable {foreign : Foreign} {mach : Machine W} {st : Store W} {op : Opcode}
  {keys keys' : List (String ⊕ Literal)} {l l' : Literal} {s : Signature}

theorem Opcode.not_cell? {c : Cell} (hop : op.readPath? = none) : op.cell? st keys ≠ some c := by
  intro hc
  have := readPath?_of_cell? hc
  rw [hop] at this
  cases this

/-- A lawful signature denotes at most one literal. -/
theorem Opcode.Denotes.unique (hm : mach.Obeys foreign)
    (hdet : ∀ function timing output, op = .foreign function timing output →
      ∃ f, foreign.lookup function = .ok f ∧ f.deterministic = true)
    (h : op.Denotes mach st keys l) (h' : op.Denotes mach st keys l') : l = l' := by
  cases h with
  | assign h =>
    cases h' with
    | assign h' => exact Option.some.inj (h.symm.trans h')
    | cell hc _ => exact absurd hc (not_cell? rfl)
  | literal =>
    cases h' with
    | literal => rfl
    | cell hc _ => cases hc
  | cell hc h =>
    cases h' with
    | assign => exact absurd hc (not_cell? rfl)
    | literal => cases hc
    | cell hc' h' =>
      obtain rfl := Option.some.inj (hc.symm.trans hc')
      exact Option.some.inj (h.symm.trans h')
    | builtin => exact absurd hc (not_cell? rfl)
    | foreign => exact absurd hc (not_cell? rfl)
  | builtin hxs h =>
    cases h' with
    | builtin hxs' h' =>
      obtain rfl := Option.some.inj (hxs.symm.trans hxs')
      exact Option.some.inj (h.symm.trans h')
    | cell hc _ => exact absurd hc (not_cell? rfl)
  | foreign hxs hys h =>
    cases h' with
    | foreign hxs' hys' h' =>
      obtain rfl := Option.some.inj (hxs.symm.trans hxs')
      obtain ⟨f, hf, hfdet⟩ := hdet _ _ _ rfl
      have heq := hm.deterministic _ f hf hfdet _ _ _ _ _ hys hys'
      simp only at heq
      rw [heq] at h
      exact Option.some.inj (h.symm.trans h')
    | cell hc _ => exact absurd hc (not_cell? rfl)

theorem Opcode.denotes_retrieve {k : String ⊕ Literal} (h : st.get k = some l) :
    Denotes mach st .retrieve [k] l := by
  cases k with
  | inl n =>
    obtain ⟨c, hc, hl⟩ := Option.bind_eq_some_iff.1 h
    exact .cell hc hl
  | inr l' =>
    obtain rfl := Option.some.inj h
    exact .literal l'

/-! ## Inputs with the same values -/

/-- The two inputs are the same or hold the same. -/
def Store.Alike (st : Store W) (k k' : String ⊕ Literal) : Prop :=
  k = k' ∨ ∃ l, st.get k = some l ∧ st.get k' = some l

theorem Store.Alike.symm {k k' : String ⊕ Literal} (h : st.Alike k k') : st.Alike k' k :=
  h.imp Eq.symm fun ⟨l, hl, hl'⟩ => ⟨l, hl', hl⟩

theorem Store.Alike.get {k k' : String ⊕ Literal} (h : st.Alike k k') : st.get k' = st.get k := by
  rcases h with rfl | ⟨l, hl, hl'⟩
  · rfl
  · rw [hl, hl']

theorem Store.getAll_alike (h : List.Forall₂ st.Alike keys keys') :
    st.getAll keys' = st.getAll keys := by
  unfold Store.getAll
  induction h with
  | nil => rfl
  | cons hk _ ih => rw [List.mapM_cons, List.mapM_cons, ih, hk.get]

/-- What is denoted depends on the values of the inputs only; a container has to
stay. -/
theorem Opcode.Denotes.alike (h : op.Denotes mach st keys l) (hk : List.Forall₂ st.Alike keys keys')
    (hhead : op.readsContainer = true → keys'.head? = keys.head?) : op.Denotes mach st keys' l := by
  cases h with
  | assign h =>
    cases hk with
    | cons hk hnil =>
      cases hnil
      exact .assign (hk.get.trans h)
  | literal =>
    cases hk with
    | cons hk hnil =>
      cases hnil
      exact denotes_retrieve hk.get
  | builtin hxs h => exact .builtin ((Store.getAll_alike hk).trans hxs) h
  | foreign hxs hys h => exact .foreign ((Store.getAll_alike hk).trans hxs) hys h
  | @cell _ _ c _ hc h =>
    unfold Opcode.cell? at hc
    split at hc
    · rename_i n
      cases hk with
      | cons hk hnil =>
        cases hnil
        refine denotes_retrieve (hk.get.trans ?_)
        exact Option.bind_eq_some_iff.2 ⟨c, hc, h⟩
    · rename_i path n
      cases hk with
      | cons hk hnil =>
        cases hnil
        obtain rfl := Option.some.inj (hhead rfl)
        exact Denotes.cell hc h
    · rename_i n k
      cases hk with
      | cons hk hrest =>
        cases hrest with
        | cons hk' hnil =>
          cases hnil
          obtain rfl := Option.some.inj (hhead rfl)
          refine Denotes.cell ?_ h
          obtain ⟨c₀, x, hc₀, hx, rfl⟩ := Store.element?_eq_some.1 hc
          exact Store.element?_eq_some.2 ⟨c₀, x, hc₀, hk'.get.trans hx, rfl⟩
    · cases hc

theorem Opcode.settled_retrieve {k : String ⊕ Literal} (h : st.get k = some l) :
    Settled st .retrieve [k] := by
  refine ⟨fun _ hk => absurd hk List.not_mem_nil, fun _ => ?_⟩
  cases k with
  | inl n =>
    obtain ⟨c, hc, hl⟩ := Option.bind_eq_some_iff.1 h
    exact .inl ⟨c, hc, fun _ => Option.isSome_iff_exists.2 ⟨l, hl⟩⟩
  | inr l' => exact .inr ⟨l', rfl, rfl⟩

theorem Store.isSome_alike (h : List.Forall₂ st.Alike keys keys')
    (hs : ∀ k ∈ keys, (st.get k).isSome = true) : ∀ k ∈ keys', (st.get k).isSome = true := by
  induction h with
  | nil => exact fun k hk => absurd hk List.not_mem_nil
  | @cons k k' keys keys' hk _ ih =>
    obtain ⟨hfirst, hrest⟩ := List.forall_mem_cons.1 hs
    exact List.forall_mem_cons.2 ⟨hk.get ▸ hfirst, ih hrest⟩

/-- A signature stays settled if its inputs are replaced by others with the same
values. -/
theorem Opcode.Settled.alike (h : op.Settled st keys) (hk : List.Forall₂ st.Alike keys keys')
    (hhead : op.readsContainer = true → keys'.head? = keys.head?) : op.Settled st keys' where
  values := by
    have hv := h.values
    unfold valueKeys at hv ⊢
    split
    · rename_i hop
      rw [if_pos hop] at hv
      exact Store.isSome_alike (List.forall₂_drop 1 hk) hv
    · rename_i hop
      rw [if_neg hop] at hv
      exact Store.isSome_alike hk hv
  cell hop := by
    rcases h.cell hop with ⟨c, hc, hsome⟩ | ⟨l, rfl, rfl⟩
    · unfold Opcode.cell? at hc
      split at hc
      · rename_i n
        cases hk with
        | @cons _ k' _ _ hk hnil =>
          cases hnil
          rcases hk with rfl | ⟨l, -, hl⟩
          · exact .inl ⟨c, hc, hsome⟩
          · exact (settled_retrieve hl).cell rfl
      · rename_i path n
        cases hk with
        | cons hk hnil =>
          cases hnil
          obtain rfl := Option.some.inj (hhead rfl)
          exact .inl ⟨c, hc, hsome⟩
      · rename_i n k
        cases hk with
        | cons hk hrest =>
          cases hrest with
          | cons hk' hnil =>
            cases hnil
            obtain rfl := Option.some.inj (hhead rfl)
            obtain ⟨c₀, x, hc₀, hx, rfl⟩ := Store.element?_eq_some.1 hc
            exact .inl ⟨_, Store.element?_eq_some.2 ⟨c₀, x, hc₀, hk'.get.trans hx, rfl⟩, hsome⟩
      · cases hc
    · cases hk with
      | cons hk hnil =>
        cases hnil
        exact (settled_retrieve hk.get).cell rfl

/-! ## Inputs in another order -/

theorem Store.getAll_perm (h : keys.Perm keys') {xs : List Literal}
    (hxs : st.getAll keys = some xs) : ∃ xs', st.getAll keys' = some xs' ∧ xs.Perm xs' := by
  obtain ⟨xs', hxs', hperm⟩ := List.perm_comp_forall₂ h.symm (Store.getAll_eq_some.1 hxs)
  exact ⟨xs', Store.getAll_eq_some.2 hxs', hperm.symm⟩

theorem Signature.Denotes.perm (hm : mach.Obeys foreign) (hs : s.Lawful foreign)
    (hc : s.commutative = true) {keys : List (String ⊕ Literal)} (hperm : s.keys.Perm keys)
    (h : s.Denotes mach st l) : s.op.Denotes mach st keys l := by
  unfold Denotes at h
  rcases hs.commutes hc
    with ⟨timing, op, hop, hcomm⟩ | ⟨function, timing, output, f, hop, hf, hcomm⟩
  · rw [hop] at h ⊢
    cases h with
    | builtin hxs h =>
      obtain ⟨xs', hxs', hperm⟩ := Store.getAll_perm hperm hxs
      exact .builtin hxs' (hm.permutes _ _ _ hcomm hperm ▸ h)
    | cell hc _ => exact absurd hc (Opcode.not_cell? rfl)
  · rw [hop] at h ⊢
    cases h with
    | foreign hxs hys h =>
      obtain ⟨xs', hxs', hperm⟩ := Store.getAll_perm hperm hxs
      exact .foreign hxs' (hm.commutative _ f hf hcomm _ _ _ hperm ▸ hys) h
    | cell hc _ => exact absurd hc (Opcode.not_cell? rfl)

theorem Signature.Lawful.readPath? (hs : s.Lawful foreign)
    (hc : s.commutative = true) : s.op.readPath? = none := by
  rcases hs.commutes hc with ⟨timing, op, hop, -⟩ | ⟨function, timing, output, f, hop, -⟩
  · rw [hop]
    rfl
  · rw [hop]
    rfl

theorem Signature.keys_normalize_perm (s : Signature) : s.normalize.keys.Perm s.keys :=
  s.inputs_normalize_perm.map _

theorem Signature.keys_normalize (hc : s.commutative = false) :
    s.normalize.keys = s.keys := by
  unfold Signature.keys
  rw [Signature.inputs_normalize_of_not_commutative hc]

theorem Signature.Lawful.normalize (hs : s.Lawful foreign) :
    s.normalize.Lawful foreign where
  commutes hc := by
    rw [op_normalize]
    exact hs.commutes ((commutative_normalize s).symm.trans hc)
  deterministic function timing output h := by
    rw [op_normalize] at h
    exact hs.deterministic function timing output h

/-- Bringing the inputs into normal order changes nothing. -/
theorem Signature.denotes_normalize (hm : mach.Obeys foreign)
    (hs : s.Lawful foreign) : s.normalize.Denotes mach st l ↔ s.Denotes mach st l := by
  cases hc : s.commutative with
  | false =>
    unfold Denotes
    rw [op_normalize, keys_normalize hc]
  | true =>
    constructor
    · intro h
      have := h.perm hm hs.normalize ((commutative_normalize s).trans hc) s.keys_normalize_perm
      rwa [op_normalize] at this
    · intro h
      show s.normalize.op.Denotes mach st s.normalize.keys l
      rw [op_normalize]
      exact h.perm hm hs hc s.keys_normalize_perm.symm

theorem Signature.Settled.normalize (h : s.Settled st) (hs : s.Lawful foreign) :
    s.normalize.Settled st := by
  unfold Settled at h ⊢
  rw [op_normalize]
  cases hc : s.commutative with
  | false =>
    rw [keys_normalize hc]
    exact h
  | true =>
    have hop := hs.readPath? hc
    refine ⟨fun k hk => ?_, fun hop' => by rw [hop] at hop'; cases hop'⟩
    have hv := h.values
    unfold Opcode.valueKeys at hk hv
    rw [hop] at hk hv
    exact hv k (s.keys_normalize_perm.mem_iff.1 hk)

theorem Signature.plain_normalize {own : String → Prop} (hs : s.Lawful foreign) :
    s.normalize.Plain own ↔ s.Plain own := by
  unfold Plain
  rw [op_normalize]
  cases hc : s.commutative with
  | false => rw [keys_normalize hc]
  | true =>
    refine forall_congr' fun n => imp_congr ?_ Iff.rfl
    unfold Opcode.valueKeys
    rw [hs.readPath? hc]
    exact s.keys_normalize_perm.mem_iff

end Lawful

end ValueFlow
