import ValueFlow.Proofs.Execution
import ValueFlow.Proofs.Sweeps

/-!
# Two runs that agree

Two runs are compared while they go on: in one of them more constants are known,
or some instructions are left out and some declarations dropped. `Store.Agrees`
relates the two storages. The contents of *extra* variables may be there on the
second side only, and the contents of *dead* variables do not matter at all.
Dead variables have storage of their own, so nothing but their own instructions
reaches it, and as long as nothing reads a dead variable the runs stay together
(`Store.Agrees.execBlock`).

What is left out is told by two rewritings of one tree: the first keeps all its
instructions, and the second keeps the same ones or drops some that only assign
dead variables.
-/

namespace ValueFlow

variable {W : Type}

/-! ## Declarations -/

mutual
/-- The variables that a block and its inner blocks declare. -/
def Block.declarations : Block → List Var
  | .mk vars body => vars ++ body.declarations
/-- The variables that the blocks of a body declare. -/
def Body.declarations : Body → List Var
  | .done => []
  | .instr _ rest => rest.declarations
  | .cont c rest => c.declarations ++ rest.declarations
/-- The variables that the blocks of a continuation declare. -/
def Continuation.declarations : Continuation → List Var
  | .ifElse _ t e => t.declarations ++ e.declarations
  | .switch _ arms => arms.declarations
  | .deferred _ b => b.declarations
  | .nested b => b.declarations
/-- The variables that the arms of a switch declare. -/
def Arms.declarations : Arms → List Var
  | .none => []
  | .default b => b.declarations
  | .case _ b rest => b.declarations ++ rest.declarations
end

/-! ## Agreement -/

/-- **The two storages agree**, the contents of dead variables apart; the second
one may hold more in extra variables. -/
structure Store.Agrees (extra dead : String → Prop) (st st' : Store W) : Prop where
  places : st'.places = st.places
  world : st'.world = st.world
  contents : ∀ c, ¬ dead c.root → ¬ extra c.root → st'.contents c = st.contents c
  more : ∀ c l, ¬ dead c.root → st.contents c = some l → st'.contents c = some l
  self : ∀ n, dead n → st.places n = some (.own n)
  root : ∀ n c, st.places n = some c → dead c.root → dead n

namespace Store.Agrees

variable {extra dead : String → Prop} {st st' : Store W} {name : String} {c : Cell}
  {vars : List Var}

/-! ### Reading -/

theorem value (h : Agrees extra dead st st') (hn : ¬ dead name) {l : Literal}
    (hl : st.value name = some l) : st'.value name = some l := by
  obtain ⟨c, hc, hl⟩ := Option.bind_eq_some_iff.1 hl
  refine Option.bind_eq_some_iff.2 ⟨c, ?_, h.more c l (fun hd => hn (h.root name c hc hd)) hl⟩
  rw [h.places, hc]

theorem read (h : Agrees extra dead st st') {a : Operand}
    (ha : ∀ v, a.var? = some v → ¬ dead v.name) {l : Literal} (hl : st.read a = some l) :
    st'.read a = some l := by
  cases a with
  | var v => exact h.value (ha v rfl) hl
  | lit l => exact hl

theorem readAll (h : Agrees extra dead st st') {inputs : List Operand}
    (hi : ∀ a ∈ inputs, ∀ v, a.var? = some v → ¬ dead v.name) {xs : List Literal}
    (hxs : st.readAll inputs = some xs) : st'.readAll inputs = some xs := by
  refine getAll_eq_some.2 ?_
  replace hxs := getAll_eq_some.1 hxs
  rw [List.forall₂_map_left_iff] at hxs ⊢
  induction hxs with
  | nil => exact .nil
  | cons hl _ ih =>
    obtain ⟨ha, hi⟩ := List.forall_mem_cons.1 hi
    exact .cons (h.read ha hl) (ih hi)

theorem field? (h : Agrees extra dead st st') (record : String) (path : List String) :
    st'.field? record path = st.field? record path := by
  unfold Store.field?
  rw [h.places]

theorem element? (h : Agrees extra dead st st') {arr : String} {ix : Operand}
    (hix : ∀ v, ix.var? = some v → ¬ dead v.name) (hc : st.element? arr ix.key = some c) :
    st'.element? arr ix.key = some c := by
  obtain ⟨c₀, hc₀, hc⟩ := Option.bind_eq_some_iff.1 hc
  obtain ⟨l, hl, rfl⟩ := Option.map_eq_some_iff.1 hc
  refine Option.bind_eq_some_iff.2 ⟨c₀, h.places ▸ hc₀, ?_⟩
  rw [show st'.get ix.key = some l from h.read hix hl, Option.map_some]

/-- A part of a variable that is not dead. -/
theorem not_dead_field? (h : Agrees extra dead st st') {record : String} (hr : ¬ dead record)
    {path : List String} (hc : st.field? record path = some c) : ¬ dead c.root := by
  unfold Store.field? at hc
  split at hc
  · cases hc
  · obtain ⟨c₀, hc₀, rfl⟩ := Option.map_eq_some_iff.1 hc
    exact fun hd => hr (h.root record c₀ hc₀ hd)

theorem not_dead_element? (h : Agrees extra dead st st') {arr : String} (ha : ¬ dead arr)
    {ix : String ⊕ Literal} (hc : st.element? arr ix = some c) : ¬ dead c.root := by
  obtain ⟨c₀, hc₀, hc⟩ := Option.bind_eq_some_iff.1 hc
  obtain ⟨l, -, rfl⟩ := Option.map_eq_some_iff.1 hc
  exact fun hd => ha (h.root arr c₀ hc₀ hd)

/-! ### Writing -/

theorem put (h : Agrees extra dead st st') (c : Cell) (l : Literal) :
    Agrees extra dead (st.put c l) (st'.put c l) where
  places := h.places
  world := h.world
  contents c' hd he := by
    rw [contents_put, contents_put, h.contents c' hd he]
  more c' l' hd := by
    rw [contents_put, contents_put]
    split
    · exact id
    · exact h.more c' l' hd
  self := h.self
  root := h.root

/-- A dead variable may be written on the first side only. -/
theorem put_dead (h : Agrees extra dead st st') (hc : dead c.root) (l : Literal) :
    Agrees extra dead (st.put c l) st' := by
  have hcontents : ∀ c', ¬ dead c'.root → (st.put c l).contents c' = st.contents c' :=
    fun c' hd => if_neg fun heq : c' = c => hd (heq ▸ hc)
  refine ⟨h.places, h.world, fun c' hd he => ?_, fun c' l' hd => ?_, h.self, h.root⟩
  · rw [hcontents c' hd]
    exact h.contents c' hd he
  · rw [hcontents c' hd]
    exact h.more c' l' hd

theorem assign (h : Agrees extra dead st st') {l : Literal} {st₁ : Store W}
    (h₁ : st.assign name l = some st₁) :
    ∃ st₁', st'.assign name l = some st₁' ∧ Agrees extra dead st₁ st₁' := by
  obtain ⟨c, hc, rfl⟩ := assign_eq_some.1 h₁
  exact ⟨_, assign_eq_some.2 ⟨c, h.places ▸ hc, rfl⟩, h.put c l⟩

theorem assignAll {values : List Literal} {st st' : Store W}
    (h : Agrees extra dead st st') {st₁ : Store W} (h₁ : st.assignAll vars values = some st₁) :
    ∃ st₁', st'.assignAll vars values = some st₁' ∧ Agrees extra dead st₁ st₁' := by
  induction vars generalizing values st st' with
  | nil =>
    cases values with
    | nil => exact ⟨st', rfl, Option.some.inj h₁ ▸ h⟩
    | cons l values => simp [Store.assignAll] at h₁
  | cons v vars ih =>
    cases values with
    | nil => simp [Store.assignAll] at h₁
    | cons l values =>
      obtain ⟨c, hc, h₁⟩ := assignAll_cons_eq_some.1 h₁
      obtain ⟨st₁', h₁', hst⟩ := ih (h.put c l) h₁
      exact ⟨st₁', assignAll_cons_eq_some.2 ⟨c, h.places ▸ hc, h₁'⟩, hst⟩

theorem assignAll_dead (hvars : ∀ v ∈ vars, dead v.name) {values : List Literal}
    {st : Store W} (h : Agrees extra dead st st') {st₁ : Store W}
    (h₁ : st.assignAll vars values = some st₁) : Agrees extra dead st₁ st' := by
  induction vars generalizing values st with
  | nil =>
    cases values with
    | nil => exact Option.some.inj h₁ ▸ h
    | cons l values => simp [Store.assignAll] at h₁
  | cons v vars ih =>
    obtain ⟨hv, hvars⟩ := List.forall_mem_cons.1 hvars
    cases values with
    | nil => simp [Store.assignAll] at h₁
    | cons l values =>
      obtain ⟨c, hc, h₁⟩ := assignAll_cons_eq_some.1 h₁
      obtain rfl := Option.some.inj ((h.self v.name hv).symm.trans hc)
      exact ih hvars (h.put_dead hv l) h₁

theorem bind (h : Agrees extra dead st st') (hroot : ¬ dead c.root)
    {st₁ : Store W} (h₁ : st.bind name c = some st₁) :
    ∃ st₁', st'.bind name c = some st₁' ∧ Agrees extra dead st₁ st₁' := by
  obtain ⟨hn, rfl⟩ := bind_eq_some.1 h₁
  refine ⟨_, bind_eq_some.2 ⟨h.places ▸ hn, rfl⟩, ?_, h.world, h.contents, h.more, fun n hd => ?_,
    fun n c' hc' hd => ?_⟩
  · rw [h.places]
  · have hself := h.self n hd
    show (if n = name then some c else st.places n) = _
    rw [if_neg, hself]
    rintro rfl
    rw [hn] at hself
    cases hself
  · simp only at hc'
    split at hc'
    · exact absurd hd (Option.some.inj hc' ▸ hroot)
    · exact h.root n c' hc' hd

theorem take (h : Agrees extra dead st st') (access : Access) {part : Cell}
    (hroot : ¬ dead part.root) {st₁ : Store W} (h₁ : st.take access name part = some st₁) :
    ∃ st₁', st'.take access name part = some st₁' ∧ Agrees extra dead st₁ st₁' := by
  cases access with
  | bind => exact h.bind hroot h₁
  | retrieve =>
    obtain ⟨l, hl, h₁⟩ := Option.bind_eq_some_iff.1 h₁
    obtain ⟨st₁', h₁', hst⟩ := h.assign h₁
    exact ⟨st₁', Option.bind_eq_some_iff.2 ⟨l, h.more part l hroot hl, h₁'⟩, hst⟩
  | copy => cases h₁

/-! ### Declaring -/

theorem declare (h : Agrees extra dead st st') {v : Var} (hv : dead v.name → v.alloc ≠ .part) :
    Agrees extra dead (st.declare v) (st'.declare v) where
  places := by simp only [Store.declare, h.places]
  world := h.world
  contents c hd he := by simp only [Store.declare, h.contents c hd he]
  more c l hd := by
    simp only [Store.declare]
    split
    · exact id
    · exact h.more c l hd
  self n hd := by
    simp only [Store.declare]
    split
    · rename_i heq
      subst heq
      rw [if_neg (hv hd)]
    · exact h.self n hd
  root n c hc hd := by
    simp only [Store.declare] at hc
    split at hc
    · rename_i heq
      subst heq
      split at hc
      · cases hc
      · obtain rfl := Option.some.inj hc
        exact hd
    · exact h.root n c hc hd

/-- A dead variable need not be declared on the second side: it has its storage
already. -/
theorem declare_dead (h : Agrees extra dead st st') {v : Var} (hd : dead v.name)
    (hv : v.alloc ≠ .part) : Agrees extra dead (st.declare v) st' := by
  have hplaces : (st.declare v).places = st.places := by
    funext n
    simp only [Store.declare, if_neg hv]
    split
    · rename_i heq
      rw [heq, h.self v.name hd]
    · rfl
  have hcontents : ∀ c, ¬ dead c.root → (st.declare v).contents c = st.contents c := fun c hc =>
    if_neg fun heq : c.root = v.name => hc (heq ▸ hd)
  refine ⟨hplaces ▸ h.places, h.world, fun c hc he => ?_, fun c l hc => ?_, hplaces ▸ h.self,
    hplaces ▸ h.root⟩
  · rw [hcontents c hc]
    exact h.contents c hc he
  · rw [hcontents c hc]
    exact h.more c l hc

/-- Some declarations of dead variables are dropped. -/
theorem declareAll (hv : ∀ v ∈ vars, dead v.name → v.alloc ≠ .part)
    (keep : Var → Bool) (hkeep : ∀ v ∈ vars, keep v = false → dead v.name) {st st' : Store W}
    (h : Agrees extra dead st st') :
    Agrees extra dead (vars.foldl Store.declare st)
      ((vars.filter keep).foldl Store.declare st') := by
  induction vars generalizing st st' with
  | nil => exact h
  | cons v vars ih =>
    obtain ⟨hfirst, hv⟩ := List.forall_mem_cons.1 hv
    obtain ⟨hkfirst, hkeep⟩ := List.forall_mem_cons.1 hkeep
    cases hk : keep v with
    | true =>
      rw [List.filter_cons_of_pos hk]
      exact ih hv hkeep (h.declare hfirst)
    | false =>
      rw [List.filter_cons_of_neg (by simp [hk])]
      exact ih hv hkeep (h.declare_dead (hkfirst hk) (hfirst (hkfirst hk)))

/-! ### Instructions -/

/-- **An instruction that reads nothing dead does the same on both sides.** -/
theorem execInstruction (m : Machine W) (h : Agrees extra dead st st') {i : Instruction}
    (hi : ∀ v ∈ i.readVars, ¬ dead v.name) {st₁ : Store W} (h₁ : i.exec m st = some st₁) :
    ∃ st₁', i.exec m st' = some st₁' ∧ Agrees extra dead st₁ st₁' := by
  have hread : ∀ r ∈ i.reads, ∀ v, r.2.var? = some v → ¬ dead v.name := fun r hr v hv =>
    hi v (List.mem_filterMap.2 ⟨r, hr, hv⟩)
  cases i with
  | storeScalar dst src =>
    obtain ⟨l, hl, h₁⟩ := Option.bind_eq_some_iff.1 h₁
    obtain ⟨st₁', h₁', hst⟩ := h.assign h₁
    exact ⟨st₁', Option.bind_eq_some_iff.2 ⟨l, h.read (hread _ List.mem_cons_self) hl, h₁'⟩, hst⟩
  | loadScalar dst src =>
    obtain ⟨l, hl, h₁⟩ := Option.bind_eq_some_iff.1 h₁
    obtain ⟨st₁', h₁', hst⟩ := h.assign h₁
    have hsrc := hread _ List.mem_cons_self src rfl
    exact ⟨st₁', Option.bind_eq_some_iff.2 ⟨l, h.value hsrc hl, h₁'⟩, hst⟩
  | storeRef dst src => cases h₁
  | loadRef dst src => cases h₁
  | compute timing op dst inputs =>
    obtain ⟨l, hl, h₁⟩ := Option.bind_eq_some_iff.1 h₁
    obtain ⟨xs, hxs, hl⟩ := Option.bind_eq_some_iff.1 hl
    obtain ⟨st₁', h₁', hst⟩ := h.assign h₁
    have hinputs := h.readAll (fun a ha => hread _ (List.mem_map.2 ⟨a, ha, rfl⟩)) hxs
    refine ⟨st₁', Option.bind_eq_some_iff.2 ⟨l, ?_, h₁'⟩, hst⟩
    exact Option.bind_eq_some_iff.2 ⟨xs, hinputs, hl⟩
  | call timing function outputs inputs =>
    obtain ⟨xs, hxs, h₁⟩ := Option.bind_eq_some_iff.1 h₁
    obtain ⟨⟨ys, w⟩, hys, h₁⟩ := Option.bind_eq_some_iff.1 h₁
    have hinputs := h.readAll (fun a ha => hread _ (List.mem_map.2 ⟨a, ha, rfl⟩)) hxs
    have hw : Agrees extra dead ({ st with world := w } : Store W) { st' with world := w } :=
      ⟨h.places, rfl, h.contents, h.more, h.self, h.root⟩
    obtain ⟨st₁', h₁', hst⟩ := hw.assignAll h₁
    refine ⟨st₁', Option.bind_eq_some_iff.2 ⟨xs, hinputs, ?_⟩, hst⟩
    exact Option.bind_eq_some_iff.2 ⟨(ys, w), h.world ▸ hys, h₁'⟩
  | readField access dst record path =>
    obtain ⟨c, hc, h₁⟩ := Option.bind_eq_some_iff.1 h₁
    have hroot := h.not_dead_field? (hread _ List.mem_cons_self record rfl) hc
    obtain ⟨st₁', h₁', hst⟩ := h.take access hroot h₁
    exact ⟨st₁', Option.bind_eq_some_iff.2 ⟨c, (h.field? _ _).trans hc, h₁'⟩, hst⟩
  | writeField record path src =>
    obtain ⟨c, hc, h₁⟩ := Option.bind_eq_some_iff.1 h₁
    obtain ⟨l, hl, rfl⟩ := Option.map_eq_some_iff.1 h₁
    refine ⟨_, Option.bind_eq_some_iff.2 ⟨c, (h.field? _ _).trans hc, ?_⟩, h.put c l⟩
    rw [h.read (hread _ (.tail _ List.mem_cons_self)) hl, Option.map_some]
  | readElement access dst arr ix =>
    obtain ⟨c, hc, h₁⟩ := Option.bind_eq_some_iff.1 h₁
    have hroot := h.not_dead_element? (hread _ List.mem_cons_self arr rfl) hc
    obtain ⟨st₁', h₁', hst⟩ := h.take access hroot h₁
    have hix := hread _ (.tail _ List.mem_cons_self)
    exact ⟨st₁', Option.bind_eq_some_iff.2 ⟨c, h.element? hix hc, h₁'⟩, hst⟩
  | writeElement arr ix src =>
    obtain ⟨c, hc, h₁⟩ := Option.bind_eq_some_iff.1 h₁
    obtain ⟨l, hl, rfl⟩ := Option.map_eq_some_iff.1 h₁
    have hix := hread _ (.tail _ List.mem_cons_self)
    have hsrc := hread _ (.tail _ (.tail _ List.mem_cons_self))
    refine ⟨_, Option.bind_eq_some_iff.2 ⟨c, h.element? hix hc, ?_⟩, h.put c l⟩
    rw [h.read hsrc hl, Option.map_some]

end Store.Agrees

/-! ## Runs -/

/-- **The second rewriting drops instructions of the first one** that only
assign dead variables. -/
def Rewrite.Drops (m : Machine W) (dead : String → Prop) (g g' : Rewrite) : Prop :=
  ∀ k i, ∃ j, g k i = some j
    ∧ (g' k i = some j ∨ g' k i = none ∧ j.OnlyAssigns m ∧ ∀ o ∈ j.outputs, dead o.name)

section Runs

variable {extra dead : String → Prop} {m : Machine W} {g g' : Rewrite} {names : List String}

mutual
/-- **A block does the same without what is dropped.** -/
theorem Store.Agrees.execBlock (hg : g.Drops m dead g') (hnames : ∀ x ∈ names, dead x) :
    ∀ (b : Block) (n : Nat) {st st' st₁ : Store W}, Agrees extra dead st st' →
    (∀ v ∈ b.declarations, dead v.name → v.alloc ≠ .part) →
    (∀ x ∈ (b.filterMap g' n).readNames, ¬ dead x) → (b.filterMap g n).exec m st = some st₁ →
    ∃ st₁', (Numbering.dropDeclarations names (b.filterMap g' n)).exec m st' = some st₁'
      ∧ Agrees extra dead st₁ st₁'
  | .mk vars body, n, st, st', st₁, h, hv, hr, h₁ => by
    rw [Block.declarations, List.forall_mem_append] at hv
    refine execBody hg hnames body n (n + 1) (h.declareAll hv.1 _ fun v _ hk => ?_) hv.2 hr h₁
    obtain ⟨hk, -⟩ := Bool.or_eq_false_iff.1 hk
    exact hnames v.name (by simpa using hk)
theorem Store.Agrees.execBody (hg : g.Drops m dead g') (hnames : ∀ x ∈ names, dead x) :
    ∀ (b : Body) (block n : Nat) {st st' st₁ : Store W}, Agrees extra dead st st' →
    (∀ v ∈ b.declarations, dead v.name → v.alloc ≠ .part) →
    (∀ x ∈ (b.filterMap g' block n).readNames, ¬ dead x) →
    (b.filterMap g block n).exec m st = some st₁ →
    ∃ st₁', (Numbering.dropInBody names (b.filterMap g' block n)).exec m st' = some st₁'
      ∧ Agrees extra dead st₁ st₁'
  | .done, block, n, st, st', st₁, h, hv, hr, h₁ => ⟨st', rfl, Option.some.inj h₁ ▸ h⟩
  | .instr i rest, block, n, st, st', st₁, h, hv, hr, h₁ => by
    obtain ⟨j, hj, hj' | ⟨hj', honly, hdead⟩⟩ := hg block i
    · simp only [Body.filterMap, hj, Body.exec] at h₁
      simp only [Body.filterMap, hj', Body.readNames, List.forall_mem_append, List.forall_mem_map]
        at hr
      simp only [Body.filterMap, hj', Numbering.dropInBody, Body.exec]
      obtain ⟨st₂, h₂, h₁⟩ := Option.bind_eq_some_iff.1 h₁
      obtain ⟨st₂', h₂', hst⟩ := h.execInstruction m hr.1 h₂
      obtain ⟨st₁', h₁', hst⟩ := execBody hg hnames rest block n hst hv hr.2 h₁
      exact ⟨st₁', Option.bind_eq_some_iff.2 ⟨st₂', h₂', h₁'⟩, hst⟩
    · simp only [Body.filterMap, hj, Body.exec] at h₁
      simp only [Body.filterMap, hj'] at hr ⊢
      obtain ⟨st₂, h₂, h₁⟩ := Option.bind_eq_some_iff.1 h₁
      obtain ⟨ys, hys⟩ := honly st st₂ h₂
      exact execBody hg hnames rest block n (h.assignAll_dead hdead hys) hv hr h₁
  | .cont c rest, block, n, st, st', st₁, h, hv, hr, h₁ => by
    rw [Body.declarations, List.forall_mem_append] at hv
    rw [Body.filterMap, Body.readNames, List.forall_mem_append] at hr
    obtain ⟨st₂, h₂, h₁⟩ := Option.bind_eq_some_iff.1 h₁
    obtain ⟨st₂', h₂', hst⟩ := execContinuation hg hnames c n h hv.1 hr.1 h₂
    obtain ⟨st₁', h₁', hst⟩ := execBody hg hnames rest block _ hst hv.2 hr.2 h₁
    exact ⟨st₁', Option.bind_eq_some_iff.2 ⟨st₂', h₂', h₁'⟩, hst⟩
theorem Store.Agrees.execContinuation (hg : g.Drops m dead g') (hnames : ∀ x ∈ names, dead x) :
    ∀ (c : Continuation) (n : Nat) {st st' st₁ : Store W}, Agrees extra dead st st' →
    (∀ v ∈ c.declarations, dead v.name → v.alloc ≠ .part) →
    (∀ x ∈ (c.filterMap g' n).readVars.map (·.name) ++ (c.filterMap g' n).readNames, ¬ dead x) →
    (c.filterMap g n).exec m st = some st₁ →
    ∃ st₁', (Numbering.dropInContinuation names (c.filterMap g' n)).exec m st' = some st₁'
      ∧ Agrees extra dead st₁ st₁'
  | .ifElse condition t e, n, st, st', st₁, h, hv, hr, h₁ => by
    rw [Continuation.declarations, List.forall_mem_append] at hv
    rw [Continuation.filterMap, Continuation.exec] at h₁
    rw [Continuation.filterMap, Continuation.readNames, List.forall_mem_append,
      List.forall_mem_append] at hr
    rw [Continuation.filterMap, Numbering.dropInContinuation, Continuation.exec]
    have hcond : ∀ v, condition.var? = some v → ¬ dead v.name := fun v hvar =>
      hr.1 v.name (List.mem_map.2
        ⟨v, List.mem_filterMap.2 ⟨condition, List.mem_cons_self, hvar⟩, rfl⟩)
    split at h₁
    · rename_i hc
      rw [h.read hcond hc]
      exact execBlock hg hnames t n h hv.1 hr.2.1 h₁
    · rename_i hc
      rw [h.read hcond hc]
      exact execBlock hg hnames e _ h hv.2 hr.2.2 h₁
    · cases h₁
  | .switch value arms, n, st, st', st₁, h, hv, hr, h₁ => by
    rw [Continuation.filterMap, Continuation.exec] at h₁
    rw [Continuation.filterMap, Continuation.readNames, List.forall_mem_append] at hr
    rw [Continuation.filterMap, Numbering.dropInContinuation, Continuation.exec]
    have hvalue : ∀ v, value.var? = some v → ¬ dead v.name := fun v hvar =>
      hr.1 v.name (List.mem_map.2 ⟨v, List.mem_filterMap.2 ⟨value, List.mem_cons_self, hvar⟩, rfl⟩)
    split at h₁
    · rename_i hc
      rw [h.read hvalue hc]
      exact execArms hg hnames arms n _ h hv hr.2 h₁
    · cases h₁
  | .deferred trigger b, n, st, st', st₁, h, hv, hr, h₁ => by
    cases h₁
  | .nested b, n, st, st', st₁, h, hv, hr, h₁ => by
    rw [Continuation.filterMap, Continuation.readNames, List.forall_mem_append] at hr
    exact execBlock hg hnames b n h hv hr.2 h₁
theorem Store.Agrees.execArms (hg : g.Drops m dead g') (hnames : ∀ x ∈ names, dead x) :
    ∀ (arms : Arms) (n : Nat) (label : Int64) {st st' st₁ : Store W}, Agrees extra dead st st' →
    (∀ v ∈ arms.declarations, dead v.name → v.alloc ≠ .part) →
    (∀ x ∈ (arms.filterMap g' n).readNames, ¬ dead x) →
    (arms.filterMap g n).exec m label st = some st₁ →
    ∃ st₁', (Numbering.dropInArms names (arms.filterMap g' n)).exec m label st' = some st₁'
      ∧ Agrees extra dead st₁ st₁'
  | .none, n, label, st, st', st₁, h, hv, hr, h₁ => ⟨st', rfl, Option.some.inj h₁ ▸ h⟩
  | .default b, n, label, st, st', st₁, h, hv, hr, h₁ => execBlock hg hnames b n h hv hr h₁
  | .case l b rest, n, label, st, st', st₁, h, hv, hr, h₁ => by
    rw [Arms.declarations, List.forall_mem_append] at hv
    rw [Arms.filterMap, Arms.exec] at h₁
    rw [Arms.filterMap, Arms.readNames, List.forall_mem_append] at hr
    rw [Arms.filterMap, Numbering.dropInArms, Arms.exec]
    split at h₁
    · rename_i hl
      rw [if_pos hl]
      exact execBlock hg hnames b n h hv.1 hr.1 h₁
    · rename_i hl
      rw [if_neg hl]
      exact execArms hg hnames rest _ label h hv.2 hr.2 h₁
end

end Runs

/-! ## The same run -/

end ValueFlow
