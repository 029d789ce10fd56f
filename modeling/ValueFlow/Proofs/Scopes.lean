import ValueFlow.Congruence
import ValueFlow.Proofs.Lookups

/-!
# The names in scope

Whatever stands for something else was put there when it was found, so a
property of all that is found is a property of all that stands for something
else (`Congruence.Stand`), and changes of the facts keep it.

Facts are only as good as the names in them: a fact that is kept beyond the
scope of a variable in it would speak about whatever the name means next. `Tidy`
says that this never happens. **Every variable in the facts of a scope is
declared in that scope or in one around it**, or it is a constant, which is
known everywhere; and whatever stands for something else never changes. Entering
and leaving scopes, and every way of adding or ending facts, keep a stack of
scopes tidy.

The other results say what is found behind a change of the facts:
`find?_record`, `find?_invalidate` and `find?_absorbArms` give the value of a
signature in terms of what was known before.
-/

namespace ValueFlow

/-! ## The variables of operands and signatures -/

/-- The variable of the operand, if it is one, has a property. -/
def Operand.All (P : Var → Prop) : Operand → Prop
  | .var v => P v
  | .lit _ => True

@[simp] theorem Operand.all_var {P : Var → Prop} {v : Var} : (Operand.var v).All P ↔ P v := Iff.rfl

@[simp] theorem Operand.all_lit {P : Var → Prop} {l : Literal} : (Operand.lit l).All P := trivial

theorem Operand.All.mono {P Q : Var → Prop} (h : ∀ v, P v → Q v) {a : Operand} (ha : a.All P) :
    a.All Q := by
  cases a with
  | var v => exact h v ha
  | lit l => trivial

/-- The variables of a signature have a property. -/
def Signature.All (P : Var → Prop) (s : Signature) : Prop := ∀ a ∈ s.inputs, a.All P

theorem Signature.All.mono {P Q : Var → Prop} (h : ∀ v, P v → Q v) {s : Signature} (hs : s.All P) :
    s.All Q := fun a ha => (hs a ha).mono h

theorem Signature.mem_vars {s : Signature} {v : Var} : v ∈ s.vars ↔ .var v ∈ s.inputs := by
  unfold vars
  rw [List.mem_filterMap]
  constructor
  · rintro ⟨a, ha, hv⟩
    cases a with
    | var w => exact Option.some.inj hv ▸ ha
    | lit l => cases hv
  · exact fun h => ⟨.var v, h, rfl⟩

namespace Operand

theorem insertSorted_perm (a : Operand) (inputs : List Operand) :
    (insertSorted a inputs).Perm (a :: inputs) := by
  induction inputs with
  | nil => exact .refl _
  | cons b rest ih =>
    rw [insertSorted]
    split
    · exact .refl _
    · exact (ih.cons b).trans (.swap a b rest)

/-- Sorting rearranges. -/
theorem sort_perm (inputs : List Operand) : (sort inputs).Perm inputs := by
  induction inputs with
  | nil => exact .refl _
  | cons a rest ih => exact (insertSorted_perm a (sort rest)).trans (ih.cons a)

end Operand

namespace Signature

@[simp] theorem op_normalize (s : Signature) : s.normalize.op = s.op := by
  unfold normalize
  split <;> rfl

@[simp] theorem commutative_normalize (s : Signature) :
    s.normalize.commutative = s.commutative := by
  unfold normalize
  split <;> rfl

/-- Normalizing rearranges the inputs of a commutative operation. -/
theorem inputs_normalize_perm (s : Signature) : s.normalize.inputs.Perm s.inputs := by
  unfold normalize
  split
  · exact Operand.sort_perm s.inputs
  · exact .refl _

theorem inputs_normalize_of_not_commutative {s : Signature} (h : s.commutative = false) :
    s.normalize.inputs = s.inputs := by
  unfold normalize
  simp [h]

/-- Mapped inputs have a property that the mapping keeps. -/
theorem forall_mapInputs {Q : Operand → Prop} {s : Signature} (hs : ∀ a ∈ s.inputs, Q a)
    {f : Operand → Operand} (hf : ∀ a, Q a → Q (f a)) : ∀ a ∈ (s.mapInputs f).inputs, Q a := by
  unfold Signature.mapInputs
  intro a ha
  rw [(inputs_normalize_perm _).mem_iff] at ha
  rcases List.mem_append.1 ha with ha | ha
  · exact hs a (List.mem_of_mem_take ha)
  · obtain ⟨b, hb, rfl⟩ := List.mem_map.1 ha
    exact hf b (hs b (List.mem_of_mem_drop hb))

/-- What a signature reads depends on what it is identified by only. -/
theorem location?_congr {s s' : Signature} (h : s.key = s'.key) (aliases : AliasMap) :
    s.location? aliases = s'.location? aliases := by
  obtain ⟨op, inputs, commutative⟩ := s
  obtain ⟨op', inputs', commutative'⟩ := s'
  simp only [key, Prod.mk.injEq] at h
  obtain ⟨rfl, hinputs, -⟩ := h
  cases inputs with
  | nil =>
    cases inputs' with
    | nil => rfl
    | cons b rest => cases hinputs
  | cons a rest =>
    cases inputs' with
    | nil => cases hinputs
    | cons b rest' =>
      have hkey : a.key = b.key := (List.cons.inj hinputs).1
      cases a with
      | var v =>
        cases b with
        | var w =>
          have hname : v.name = w.name := by simpa [Operand.key] using hkey
          simp [location?, Operand.var?, AliasMap.location, hname]
        | lit l => cases hkey
      | lit l =>
        cases b with
        | var w => cases hkey
        | lit l' => rfl

theorem isRetrieve_congr {s s' : Signature} (h : s.key = s'.key) :
    s.isRetrieve = s'.isRetrieve := by
  unfold isRetrieve
  rw [show s.op = s'.op from (Prod.ext_iff.1 h).1]

end Signature

theorem Congruence.reads_congr {s s' : Signature} (h : s.key = s'.key) (aliases : AliasMap)
    (l : Location) : reads aliases l s = reads aliases l s' := by
  unfold reads
  rw [Signature.isRetrieve_congr h, Signature.location?_congr h]

/-! ## The declared names -/

/-- The names declared in some scopes. -/
def scopeNames (scopes : List Scope) : List String := scopes.flatMap (·.declared)

namespace Congruence

variable {c : Congruence}

/-- The names that are declared. -/
def names (c : Congruence) : List String := scopeNames c.scopes

/-- The names that are assigned. -/
def definedNames (c : Congruence) : List String := c.scopes.flatMap (·.defined)

theorem mem_names {n : String} :
    n ∈ c.names ↔ n ∈ c.top.declared ∨ n ∈ scopeNames c.outer := by
  simp [names, scopes, scopeNames]

theorem mem_definedNames {n : String} :
    n ∈ c.definedNames ↔ n ∈ c.top.defined ∨ n ∈ c.outer.flatMap (·.defined) := by
  simp [definedNames, scopes]

theorem isDeclared_iff {v : Var} :
    c.isDeclared v = true ↔ v.isGlobalConst = true ∨ v.name ∈ c.names := by
  simp [isDeclared, names, scopeNames, List.mem_flatMap]

theorem define_eq_ok {c c' : Congruence} {v : Var} :
    c.define v = .ok c'
      ↔ v.name ∉ c.definedNames ∧ c' = { c with top.defined := v.name :: c.top.defined } := by
  have hany : (c.scopes.any (·.defined.contains v.name) = true) ↔ v.name ∈ c.definedNames := by
    simp [definedNames, List.mem_flatMap]
  unfold define
  by_cases h : v.name ∈ c.definedNames
  · rw [if_pos (hany.2 h)]
    simp [h]
  · rw [if_neg fun h' => h (hany.1 h')]
    simp [h, eq_comm]

@[simp] theorem names_push (c : Congruence) (kind : ScopeKind) : (c.push kind).names = c.names :=
  rfl

@[simp] theorem definedNames_push (c : Congruence) (kind : ScopeKind) :
    (c.push kind).definedNames = c.definedNames := rfl

@[simp] theorem names_declare (c : Congruence) (v : Var) :
    (c.declare v).names = v.name :: c.names := rfl

@[simp] theorem definedNames_declare (c : Congruence) (v : Var) :
    (c.declare v).definedNames = c.definedNames := rfl

/-- The innermost scope is the only one that a change of facts inside it touches. -/
theorem names_eq_of_outer {c c' : Congruence} (ho : c'.outer = c.outer)
    (hd : c'.top.declared = c.top.declared) : c'.names = c.names := by
  unfold names scopes scopeNames
  rw [List.flatMap_cons, List.flatMap_cons, ho, hd]

end Congruence

/-! ## Tidy scopes -/

/-- **What facts may mention**: the variables of a text and shared constants. Of
these, the stable ones are assigned once and for all, and the fixed ones, which
are the stable ones and the constants, may stand for something else. -/
structure Vocabulary where
  text : Var → Prop
  /-- The variable is a shared constant. -/
  shared : Var → Prop
  /-- The name belongs to a shared constant. -/
  constant : String → Prop
  stable : Var → Prop
  fixed : Var → Prop
  /-- A variable of the text that is marked as a constant is one. -/
  shared_of_isGlobalConst : ∀ v, text v → v.isGlobalConst = true → shared v
  constant_of_shared : ∀ v, shared v → constant v.name

namespace Vocabulary

variable {v : Var} {names : List String} {c : Congruence}

variable (V : Vocabulary)

/-- The variable may be mentioned where the given names are declared. -/
def Names (names : List String) (v : Var) : Prop := V.shared v ∨ V.text v ∧ v.name ∈ names

/-- The variable may stand for something else where the given names are declared. -/
def Stands (names : List String) (v : Var) : Prop := V.Names names v ∧ V.fixed v

/-- The variable may have a representative where the given names are declared. -/
def Keys (names : List String) (v : Var) : Prop := V.Names names v ∧ V.text v ∧ V.stable v

variable {V}

theorem Names.mono {names names' : List String} (h : names ⊆ names')
    (hv : V.Names names v) : V.Names names' v := hv.imp_right fun h' => ⟨h'.1, h h'.2⟩

theorem Stands.mono {names names' : List String} (h : names ⊆ names')
    (hv : V.Stands names v) : V.Stands names' v := ⟨hv.1.mono h, hv.2⟩

theorem Keys.mono {names names' : List String} (h : names ⊆ names')
    (hv : V.Keys names v) : V.Keys names' v := ⟨hv.1.mono h, hv.2⟩

/-- What was mentioned in one place may be mentioned in another one where it may
be used. -/
theorem Names.of_isDeclared (hv : V.Names names v)
    (hc : c.isDeclared v = true) : V.Names c.names v := by
  rcases hv with hv | ⟨ht, -⟩
  · exact .inl hv
  · rcases Congruence.isDeclared_iff.1 hc with hg | hn
    · exact .inl (V.shared_of_isGlobalConst v ht hg)
    · exact .inr ⟨ht, hn⟩

theorem Stands.of_isDeclared (hv : V.Stands names v)
    (hc : c.isDeclared v = true) : V.Stands c.names v :=
  ⟨hv.1.of_isDeclared hc, hv.2⟩

theorem Keys.of_isDeclared (hv : V.Keys names v)
    (hc : c.isDeclared v = true) : V.Keys c.names v :=
  ⟨hv.1.of_isDeclared hc, hv.2⟩

theorem Stands.of_isVisible {a : Operand} (ha : a.All (V.Stands names))
    (hc : c.isVisible a = true) : a.All (V.Stands c.names) := by
  cases a with
  | var v => exact Stands.of_isDeclared ha hc
  | lit l => trivial

theorem Names.of_canName {s : Signature} (hs : s.All (V.Names names))
    (hc : c.canName s = true) : s.All (V.Names c.names) := by
  intro a ha
  cases a with
  | var v =>
    exact Names.of_isDeclared (hs _ ha) (List.all_eq_true.1 hc v (Signature.mem_vars.2 ha))
  | lit l => trivial

end Vocabulary

/-! ## What stands for something else -/

/-- Every operand that stands for something else in a scope has a property, be
it as the representative of a variable or as what holds a value. -/
structure Scope.Stand (Q : Operand → Prop) (s : Scope) : Prop where
  canonical : s.canonical.All (fun _ => True) Q
  values : s.values.All (fun _ => True) fun entry => ∀ a, entry = some a → Q a

theorem Scope.Stand.mono {Q Q' : Operand → Prop} {s : Scope} (h : s.Stand Q)
    (hQ : ∀ a, Q a → Q' a) : s.Stand Q' where
  canonical := h.canonical.mono (fun _ => id) hQ
  values := h.values.mono (fun _ => id) fun _ hb a ha => hQ a (hb a ha)

namespace Congruence

/-- **Every operand that stands for something else has a property.** -/
def Stand (Q : Operand → Prop) (c : Congruence) : Prop := ∀ s ∈ c.scopes, s.Stand Q

/-- What is found is an entry of one of the scopes. -/
theorem exists_of_find? {s : Signature} {crossed : Bool} {scopes : List Scope}
    {found : Option Operand × Bool} (h : find? s crossed scopes = some found) :
    ∃ scope ∈ scopes, scope.values.get? s = some found.1 := by
  induction scopes generalizing crossed with
  | nil => cases h
  | cons scope rest ih =>
    rw [find?] at h
    cases hget : scope.values.get? s with
    | none =>
      rw [hget] at h
      obtain ⟨scope', hmem, h'⟩ := ih h
      exact ⟨scope', List.mem_cons_of_mem _ hmem, h'⟩
    | some entry =>
      rw [hget] at h
      obtain rfl := Option.some.inj h
      exact ⟨scope, List.mem_cons_self, hget⟩

/-- What a look-up gives is what is found. -/
theorem find?_of_lookup {c : Congruence} {aliases : AliasMap} {writes : List Location}
    {s : Signature} {rep : Operand} (h : c.lookup aliases writes s = some rep) :
    ∃ crossed, find? s false c.scopes = some (some rep, crossed) := by
  unfold lookup at h
  split at h
  · cases h
  · split at h
    · cases h
    · rename_i entry crossed hfind
      split at h
      · cases h
      · exact ⟨crossed, h ▸ hfind⟩

namespace Stand

variable {Q Q' : Operand → Prop} {c c' : Congruence} {v : Var} {a rep : Operand}

theorem mono (h : c.Stand Q) (hQ : ∀ a, Q a → Q' a) : c.Stand Q' := fun s hs => (h s hs).mono hQ

theorem and (h : c.Stand Q) (h' : c.Stand Q') : c.Stand fun a => Q a ∧ Q' a := fun s hs => by
  obtain ⟨hcanonical, hvalues⟩ := h s hs
  obtain ⟨hcanonical', hvalues'⟩ := h' s hs
  exact ⟨fun e he => ⟨trivial, (hcanonical e he).2, (hcanonical' e he).2⟩,
    fun e he => ⟨trivial, fun a ha => ⟨(hvalues e he).2 a ha, (hvalues' e he).2 a ha⟩⟩⟩

/-! ### What is found -/

theorem of_representative? (h : c.Stand Q) (hrep : c.representative? v = some rep) : Q rep := by
  obtain ⟨s, hs, hget⟩ := List.exists_of_findSome?_eq_some hrep
  exact (h s hs).canonical.of_get? hget

theorem follow (h : c.Stand Q) (n : Nat) (ha : Q a) : Q (c.follow n a) := by
  induction n generalizing a with
  | zero => exact ha
  | succ n ih =>
    rw [Congruence.follow]
    split
    · rename_i next hnext
      obtain ⟨v, -, hnext⟩ := Option.bind_eq_some_iff.1 hnext
      split
      · exact ha
      · exact ih (h.of_representative? hnext)
    · exact ha

theorem of_canonical? (h : c.Stand Q) (hrep : c.canonical? v = some rep) : Q rep := by
  obtain ⟨a, ha, rfl⟩ := Option.map_eq_some_iff.1 hrep
  exact h.follow _ (h.of_representative? ha)

theorem canonicalOperand (h : c.Stand Q) (ha : Q a) : Q (c.canonicalOperand a) := by
  unfold Congruence.canonicalOperand
  cases hrep : a.var?.bind c.canonical? with
  | none => exact ha
  | some rep =>
    obtain ⟨v, -, hrep⟩ := Option.bind_eq_some_iff.1 hrep
    exact h.of_canonical? hrep

theorem of_find? (h : c.Stand Q) {s : Signature} {crossed crossed' : Bool}
    (hfind : find? s crossed c.scopes = some (some rep, crossed')) : Q rep := by
  obtain ⟨scope, hmem, hget⟩ := exists_of_find? hfind
  exact (h scope hmem).values.of_get? hget rep rfl

theorem of_lookup (h : c.Stand Q) {aliases : AliasMap} {writes : List Location} {sig : Signature}
    (hrep : c.lookup aliases writes sig = some rep) : Q rep := by
  obtain ⟨crossed, hfind⟩ := find?_of_lookup hrep
  exact h.of_find? hfind

/-! ### What changes keep -/

/-- A change of the innermost scope, of which the new facts are known. -/
theorem of_top (h : c.Stand Q) (ho : c'.outer = c.outer) (htop : c'.top.Stand Q) : c'.Stand Q := by
  intro s hs
  rcases List.mem_cons.1 hs with rfl | hs
  · exact htop
  · exact h s (List.mem_cons_of_mem _ (ho ▸ hs))

theorem of_level (h : c.Stand Q) (ho : c'.outer = c.outer) (hc : c'.top.canonical = c.top.canonical)
    (hv : c'.top.values = c.top.values) : c'.Stand Q := by
  obtain ⟨hcanonical, hvalues⟩ := h c.top List.mem_cons_self
  exact h.of_top ho ⟨hc ▸ hcanonical, hv ▸ hvalues⟩

theorem push (h : c.Stand Q) (kind : ScopeKind) : (c.push kind).Stand Q :=
  List.forall_mem_cons.2 ⟨⟨Table.all_empty, Table.all_empty⟩, h⟩

theorem setCanonical (h : c.Stand Q) (v : Var) (hrep : Q rep) : (c.setCanonical v rep).Stand Q := by
  obtain ⟨hcanonical, hvalues⟩ := h c.top List.mem_cons_self
  exact h.of_top rfl ⟨hcanonical.insert trivial hrep, hvalues⟩

theorem record (h : c.Stand Q) (aliases : AliasMap) (sig : Signature) (hrep : Q rep) :
    (c.record aliases sig rep).2.Stand Q := by
  unfold Congruence.record
  split
  · exact h
  · obtain ⟨hcanonical, hvalues⟩ := h c.top List.mem_cons_self
    exact h.of_top rfl ⟨hcanonical, hvalues.insert trivial fun a ha => Option.some.inj ha ▸ hrep⟩

theorem invalidateAll (h : c.Stand Q) (aliases : AliasMap) (ls : List Location) :
    (ls.foldl (fun c l => (c.invalidate aliases l).2) c).Stand Q := by
  induction ls generalizing c with
  | nil => exact h
  | cons l ls ih =>
    obtain ⟨hcanonical, hvalues⟩ := h c.top List.mem_cons_self
    refine ih (h.of_top rfl ⟨hcanonical, hvalues.insertAll fun e he => ⟨trivial, fun a ha => ?_⟩⟩)
    -- what a write enters has no value
    obtain ⟨sig, -, rfl⟩ := List.mem_map.1 he
    cases ha

theorem absorbArms (h : c.Stand Q) (aliases : AliasMap) (arms : List Scope) :
    (arms.foldl (absorbArm aliases) c).Stand Q := by
  induction arms generalizing c with
  | nil => exact h
  | cons arm arms ih => exact ih ((h.invalidateAll aliases arm.invalidated).of_level rfl rfl rfl)

/-- **Behind a nested block** stands what stood before it, and what stands at
its end and may be used outside. -/
theorem mergeNested (h : c.Stand Q) {child : Scope}
    (hchild : child.Stand fun a => c.isVisible a = true → Q a) : (c.mergeNested child).Stand Q := by
  obtain ⟨hcanonical, hvalues⟩ := h c.top List.mem_cons_self
  refine h.of_top rfl ⟨hcanonical.insertAll fun e he => ⟨trivial, ?_⟩,
    hvalues.insertAll fun e he => ⟨trivial, fun a ha => ?_⟩⟩
  · obtain ⟨hmem, hok⟩ := List.mem_filter.1 he
    exact (hchild.canonical e hmem).2 (Bool.and_eq_true_iff.1 hok).2
  · obtain ⟨hmem, hok⟩ := List.mem_filter.1 he
    have hvisible := (Bool.and_eq_true_iff.1 hok).2
    rw [ha] at hvisible
    exact (hchild.values e hmem).2 a ha hvisible

end Stand

end Congruence

/-! ## The facts of tidy scopes -/

/-- The operand, if there is one, has a variable with a property. -/
def OperandAll (P : Var → Prop) (entry : Option Operand) : Prop := ∀ a, entry = some a → a.All P

/-- The facts of a scope mention only what may be mentioned where the given
names are declared. -/
structure Vocabulary.Mentions (V : Vocabulary) (names : List String) (s : Scope) : Prop where
  canonical : s.canonical.All (V.Keys names) (Operand.All (V.Stands names))
  values : s.values.All (Signature.All (V.Names names)) (OperandAll (V.Stands names))
  closed : s.closed.All (V.Names names) fun _ => True

namespace Vocabulary.Mentions

variable {V : Vocabulary} {names names' : List String} {s : Scope}

theorem mono (h : V.Mentions names s) (hsub : names ⊆ names') : V.Mentions names' s where
  canonical := h.canonical.mono (fun _ => .mono hsub) fun _ => .mono fun _ => .mono hsub
  values := h.values.mono (fun _ => .mono fun _ => .mono hsub)
    fun _ hb a ha => (hb a ha).mono fun _ => .mono hsub
  closed := h.closed.mono (fun _ => .mono hsub) fun _ => id

theorem new (kind : ScopeKind) : V.Mentions names (.new kind) :=
  ⟨Table.all_empty, Table.all_empty, Table.all_empty⟩

end Vocabulary.Mentions

/-- **Every variable in the facts of a scope is declared there or in a scope
around it.** -/
def Vocabulary.Tidy (V : Vocabulary) : List Scope → Prop
  | [] => True
  | s :: rest => V.Mentions (scopeNames (s :: rest)) s ∧ V.Tidy rest

namespace Congruence

variable {V : Vocabulary} {c : Congruence} {v : Var} {rep : Operand} {s : Signature}
  {c' : Congruence} {aliases : AliasMap} {first : Scope} {rest : List Scope} {arms : List Scope}
  {crossed : Bool}

theorem tidy_iff : V.Tidy c.scopes ↔ V.Mentions c.names c.top ∧ V.Tidy c.outer := Iff.rfl

/-- The facts of every open scope mention only what is declared in the open
scopes. -/
theorem mentions_of_tidy {scopes : List Scope} (h : V.Tidy scopes) {s : Scope} (hs : s ∈ scopes) :
    V.Mentions (scopeNames scopes) s := by
  induction scopes with
  | nil => simp at hs
  | cons t rest ih =>
    rcases List.mem_cons.1 hs with rfl | hs
    · exact h.1
    · exact (ih h.2 hs).mono (List.subset_append_right _ _)

/-! ### What is found in tidy scopes -/

/-- Only what may stand for something else does so. -/
theorem stand_of_tidy (h : V.Tidy c.scopes) : c.Stand (Operand.All (V.Stands c.names)) :=
  fun _ hs =>
    ⟨(mentions_of_tidy h hs).canonical.mono (fun _ _ => trivial) fun _ => id,
      (mentions_of_tidy h hs).values.mono (fun _ _ => trivial) fun _ => id⟩

theorem stands_of_representative? (h : V.Tidy c.scopes)
    (hrep : c.representative? v = some rep) : rep.All (V.Stands c.names) :=
  (stand_of_tidy h).of_representative? hrep

theorem stands_of_canonical? (h : V.Tidy c.scopes)
    (hrep : c.canonical? v = some rep) : rep.All (V.Stands c.names) :=
  (stand_of_tidy h).of_canonical? hrep

theorem names_canonicalOperand (h : V.Tidy c.scopes) {a : Operand} (ha : a.All (V.Names c.names)) :
    (c.canonicalOperand a).All (V.Names c.names) :=
  ((stand_of_tidy h).mono fun _ => .mono fun _ hv => hv.1).canonicalOperand ha

theorem names_canonicalize (h : V.Tidy c.scopes) (hs : s.All (V.Names c.names)) :
    (c.canonicalize s).All (V.Names c.names) :=
  Signature.forall_mapInputs hs fun _ => names_canonicalOperand h

theorem stands_of_find? (h : V.Tidy c.scopes) {crossed crossed' : Bool}
    (hfind : find? s crossed c.scopes = some (some rep, crossed')) :
    rep.All (V.Stands c.names) := (stand_of_tidy h).of_find? hfind

/-! ### Changes keep scopes tidy -/

theorem tidy_push (h : V.Tidy c.scopes) (kind : ScopeKind) : V.Tidy (c.push kind).scopes :=
  ⟨.new _, h⟩

theorem tidy_declare (h : V.Tidy c.scopes) (v : Var) : V.Tidy (c.declare v).scopes := by
  have hsub : c.names ⊆ (c.declare v).names := List.subset_cons_self _ _
  obtain ⟨htop, houter⟩ := tidy_iff.1 h
  refine tidy_iff.2 ⟨?_, houter⟩
  have htop' := htop.mono hsub
  exact ⟨htop'.canonical, htop'.values, htop'.closed⟩

theorem tidy_define (h : V.Tidy c.scopes) (hc' : c.define v = .ok c') :
    V.Tidy c'.scopes := by
  obtain ⟨-, rfl⟩ := define_eq_ok.1 hc'
  obtain ⟨htop, houter⟩ := tidy_iff.1 h
  exact tidy_iff.2 ⟨⟨htop.canonical, htop.values, htop.closed⟩, houter⟩

theorem tidy_close (h : V.Tidy c.scopes) (hv : V.Names c.names v) :
    V.Tidy (c.close v).scopes := by
  obtain ⟨htop, houter⟩ := tidy_iff.1 h
  exact tidy_iff.2 ⟨⟨htop.canonical, htop.values, htop.closed.insert hv trivial⟩, houter⟩

theorem tidy_setCanonical (h : V.Tidy c.scopes)
    (hv : V.Keys c.names v) (hrep : rep.All (V.Stands c.names)) :
    V.Tidy (c.setCanonical v rep).scopes := by
  obtain ⟨htop, houter⟩ := tidy_iff.1 h
  exact tidy_iff.2 ⟨⟨htop.canonical.insert hv hrep, htop.values, htop.closed⟩, houter⟩

theorem tidy_record (h : V.Tidy c.scopes) (aliases : AliasMap)
    (hs : s.All (V.Names c.names)) (hrep : rep.All (V.Stands c.names)) :
    V.Tidy (c.record aliases s rep).2.scopes := by
  unfold record
  split
  · exact h
  · obtain ⟨htop, houter⟩ := tidy_iff.1 h
    have hentry : OperandAll (V.Stands c.names) (some rep) := fun a ha => Option.some.inj ha ▸ hrep
    exact tidy_iff.2 ⟨⟨htop.canonical, htop.values.insert hs hentry, htop.closed⟩, houter⟩

/-- A signature that a write affects is one of the signatures of the scopes. -/
theorem mem_affected {l : Location} :
    s ∈ c.affected aliases l ↔ ∃ scope ∈ c.scopes, ∃ e ∈ scope.values.entries,
      e.2.isSome = true ∧ reads aliases l e.1 = true ∧ e.1 = s := by
  simp only [affected, List.mem_flatMap, List.mem_reverse, List.mem_map, List.mem_filter,
    Bool.and_eq_true, and_assoc]

theorem tidy_invalidate (h : V.Tidy c.scopes) (aliases : AliasMap) (l : Location) :
    V.Tidy (c.invalidate aliases l).2.scopes := by
  obtain ⟨htop, houter⟩ := tidy_iff.1 h
  refine tidy_iff.2 ⟨⟨htop.canonical, htop.values.insertAll ?_, htop.closed⟩, houter⟩
  intro e he
  obtain ⟨s, hs, rfl⟩ := List.mem_map.1 he
  obtain ⟨scope, hmem, e', he', -, -, rfl⟩ := mem_affected.1 hs
  exact ⟨((mentions_of_tidy h hmem).values e' he').1, fun rep hrep => nomatch hrep⟩

/-- Leaving a scope leaves the scopes around it tidy. -/
theorem tidy_mergeNested {child : Scope} (h : V.Tidy (child :: c.scopes)) :
    V.Tidy (c.mergeNested child).scopes := by
  obtain ⟨hchild, h⟩ := h
  obtain ⟨htop, houter⟩ := tidy_iff.1 h
  refine tidy_iff.2 ⟨⟨htop.canonical.insertAll fun e he => ?_,
    htop.values.insertAll fun e he => ?_, htop.closed.insertAll fun e he => ?_⟩, houter⟩
  · obtain ⟨he, hok⟩ := List.mem_filter.1 he
    obtain ⟨hkey, hrep⟩ := Bool.and_eq_true_iff.1 hok
    exact ⟨(hchild.canonical e he).1.of_isDeclared hkey,
      Vocabulary.Stands.of_isVisible (hchild.canonical e he).2 hrep⟩
  · obtain ⟨he, hok⟩ := List.mem_filter.1 he
    obtain ⟨hkey, hrep⟩ := Bool.and_eq_true_iff.1 hok
    refine ⟨Vocabulary.Names.of_canName (hchild.values e he).1 hkey, fun rep hr => ?_⟩
    rw [hr] at hrep
    exact Vocabulary.Stands.of_isVisible ((hchild.values e he).2 rep hr) (by simpa using hrep)
  · obtain ⟨he, hok⟩ := List.mem_filter.1 he
    exact ⟨(hchild.closed e he).1.of_isDeclared hok, trivial⟩

theorem tidy_mergeDeferred (h : V.Tidy c.scopes) (child : Scope) :
    V.Tidy (c.mergeDeferred child).scopes := by
  obtain ⟨htop, houter⟩ := tidy_iff.1 h
  exact tidy_iff.2 ⟨⟨htop.canonical, htop.values, htop.closed⟩, houter⟩

/-! ### The arms of a conditional -/

/-- What an arm writes touches the innermost scope only, and there neither the
declarations nor the kind of scope. -/
theorem sameLevel_invalidateAll (aliases : AliasMap) (ls : List Location) (c : Congruence) :
    let c' := ls.foldl (fun c l => (c.invalidate aliases l).2) c
    c'.outer = c.outer ∧ c'.top.kind = c.top.kind ∧ c'.top.declared = c.top.declared
      ∧ c'.top.defined = c.top.defined ∧ c'.top.canonical = c.top.canonical
      ∧ c'.top.closed = c.top.closed ∧ c'.top.poisoned = c.top.poisoned
      ∧ c'.top.invalidated = c.top.invalidated ++ ls := by
  induction ls generalizing c with
  | nil => simp
  | cons l ls ih =>
    obtain ⟨h₁, h₂, h₃, h₄, h₅, h₆, h₇, h₈⟩ := ih (c.invalidate aliases l).2
    refine ⟨h₁, h₂, h₃, h₄, h₅, h₆, h₇, h₈.trans ?_⟩
    simp [invalidate]

theorem tidy_invalidateAll (aliases : AliasMap) (ls : List Location) (h : V.Tidy c.scopes) :
    V.Tidy (ls.foldl (fun c l => (c.invalidate aliases l).2) c).scopes := by
  induction ls generalizing c with
  | nil => exact h
  | cons l ls ih => exact ih (tidy_invalidate h aliases l)

theorem tidy_absorbArm (h : V.Tidy c.scopes) (aliases : AliasMap) (arm : Scope) :
    V.Tidy (absorbArm aliases c arm).scopes := by
  obtain ⟨htop, houter⟩ := tidy_iff.1 (tidy_invalidateAll aliases arm.invalidated h)
  exact tidy_iff.2 ⟨⟨htop.canonical, htop.values, htop.closed⟩, houter⟩

theorem tidy_absorbArms (h : V.Tidy c.scopes) (aliases : AliasMap) (arms : List Scope) :
    V.Tidy (arms.foldl (absorbArm aliases) c).scopes := by
  induction arms generalizing c with
  | nil => exact h
  | cons arm arms ih => exact ih (tidy_absorbArm h aliases arm)

/-- **What is left of the innermost scope when arms are absorbed.** -/
theorem absorbArms_spec (aliases : AliasMap) (arms : List Scope) (c : Congruence) :
    let c' := arms.foldl (absorbArm aliases) c
    c'.outer = c.outer ∧ c'.top.kind = c.top.kind ∧ c'.top.declared = c.top.declared
      ∧ c'.top.canonical = c.top.canonical ∧ c'.top.closed = c.top.closed
      ∧ c'.top.invalidated = c.top.invalidated ++ arms.flatMap (·.invalidated)
      ∧ (∀ n, n ∈ c'.top.defined ↔ n ∈ c.top.defined ∨ ∃ arm ∈ arms, n ∈ arm.outliving) := by
  induction arms generalizing c with
  | nil => simp
  | cons arm arms ih =>
    obtain ⟨h₁, h₂, h₃, h₄, h₅, h₆, h₇, h₈⟩ :=
      sameLevel_invalidateAll aliases arm.invalidated c
    obtain ⟨i₁, i₂, i₃, i₄, i₅, i₆, i₇⟩ := ih (absorbArm aliases c arm)
    refine ⟨i₁.trans h₁, i₂.trans h₂, i₃.trans h₃, i₄.trans h₅, i₅.trans h₆, ?_, fun n => ?_⟩
    · rw [List.foldl_cons, i₆, List.flatMap_cons, ← List.append_assoc]
      exact congrArg (· ++ _) h₈
    · rw [List.foldl_cons, i₇]
      show n ∈ arm.outliving ++ _ ∨ _ ↔ _
      rw [h₄]
      simp only [List.mem_append, List.mem_cons, exists_eq_or_imp]
      grind

/-- Keeps the facts that all arms agree on. -/
def keepCommon (aliases : AliasMap) (first : Scope) (rest : List Scope) (c : Congruence) :
    Congruence :=
  { c with
    top.canonical := c.top.canonical.insertAll (c.commonCanonical first rest)
    top.values := c.top.values.insertAll
      ((c.commonValues aliases first rest).map fun e => (e.1, some e.2))
    top.closed := c.top.closed.insertAll (c.commonClosed first rest) }

/-- **Behind a conditional** the arms are absorbed, and if facts are kept at
all, those that all arms agree on are. -/
theorem mergeBranches_cases (aliases : AliasMap) (keep : Bool) (arms : List Scope)
    (c : Congruence) :
    (c.mergeBranches aliases keep arms).2 = arms.foldl (absorbArm aliases) c
      ∨ ∃ first rest, arms = first :: rest ∧ (c.mergeBranches aliases keep arms).2
        = keepCommon aliases first rest (arms.foldl (absorbArm aliases) c) := by
  unfold mergeBranches
  split
  · rename_i first rest
    exact .inr ⟨first, rest, rfl, rfl⟩
  · exact .inl rfl

/-- A value that all arms agree on is known at the end of each. -/
theorem get?_of_mem_commonValues
    {e : Signature × Operand} (he : e ∈ c.commonValues aliases first rest) :
    ∀ arm ∈ first :: rest, ∃ rep, arm.values.get? e.1 = some (some rep) ∧ rep.key = e.2.key := by
  obtain ⟨he, hok⟩ := List.mem_filter.1 he
  obtain ⟨entry, hentry, heq⟩ := List.mem_filterMap.1 he
  obtain ⟨rep, hrep, rfl⟩ := Option.map_eq_some_iff.1 heq
  simp only [Bool.and_eq_true] at hok
  refine List.forall_mem_cons.2 ⟨⟨rep, ?_, rfl⟩, fun arm harm => ?_⟩
  · exact Table.get?_eq_some_iff.2 ⟨entry, hentry, rfl, hrep⟩
  · have hsame : sameOperand (arm.values.get? entry.1).join rep = true :=
      List.all_eq_true.1 hok.1.1.1 arm harm
    obtain ⟨a, ha, hkey⟩ := (Option.any_eq_true _ _).1 hsame
    exact ⟨a, Option.join_eq_some_iff.1 ha, by simpa [Operand.same] using hkey⟩

/-- A representative that all arms agree on is entered in each. -/
theorem get?_of_mem_commonCanonical {e : Var × Operand}
    (he : e ∈ c.commonCanonical first rest) :
    ∀ arm ∈ first :: rest, ∃ rep, arm.canonical.get? e.1 = some rep ∧ rep.key = e.2.key := by
  obtain ⟨he, hok⟩ := List.mem_filter.1 he
  simp only [Bool.and_eq_true] at hok
  refine List.forall_mem_cons.2 ⟨⟨e.2, Table.get?_of_mem he, rfl⟩, fun arm harm => ?_⟩
  have hsame : sameOperand (arm.canonical.get? e.1) e.2 = true :=
    List.all_eq_true.1 hok.1.1 arm harm
  obtain ⟨a, ha, hkey⟩ := (Option.any_eq_true _ _).1 hsame
  exact ⟨a, ha, by simpa [Operand.same] using hkey⟩

theorem tidy_keepCommon (h : V.Tidy c.scopes) (aliases : AliasMap)
    {names : List String} (hfirst : V.Mentions names first)
    (rest : List Scope) : V.Tidy (keepCommon aliases first rest c).scopes := by
  obtain ⟨htop, houter⟩ := tidy_iff.1 h
  refine tidy_iff.2 ⟨⟨htop.canonical.insertAll fun e he => ?_,
    htop.values.insertAll fun e he => ?_, htop.closed.insertAll fun e he => ?_⟩, houter⟩
  · obtain ⟨he, hok⟩ := List.mem_filter.1 he
    simp only [Bool.and_eq_true] at hok
    exact ⟨(hfirst.canonical e he).1.of_isDeclared hok.1.2,
      Vocabulary.Stands.of_isVisible (hfirst.canonical e he).2 hok.2⟩
  · obtain ⟨common, hcommon, rfl⟩ := List.mem_map.1 he
    obtain ⟨hcommon, hok⟩ := List.mem_filter.1 hcommon
    obtain ⟨entry, hentry, heq⟩ := List.mem_filterMap.1 hcommon
    obtain ⟨rep, hrep, rfl⟩ := Option.map_eq_some_iff.1 heq
    simp only [Bool.and_eq_true] at hok
    obtain ⟨hkey, hvalue⟩ := hfirst.values entry hentry
    refine ⟨Vocabulary.Names.of_canName hkey hok.1.1.2, fun a ha => ?_⟩
    obtain rfl := Option.some.inj ha
    exact Vocabulary.Stands.of_isVisible (hvalue rep hrep) hok.1.2
  · obtain ⟨he, hok⟩ := List.mem_filter.1 he
    simp only [Bool.and_eq_true] at hok
    exact ⟨(hfirst.closed e he).1.of_isDeclared hok.2, trivial⟩

/-- Behind a conditional, the scopes are tidy if they were so behind each arm. -/
theorem tidy_mergeBranches (h : V.Tidy c.scopes) (aliases : AliasMap) (keep : Bool)
    (harms : ∀ arm ∈ arms, V.Tidy (arm :: c.scopes)) :
    V.Tidy (c.mergeBranches aliases keep arms).2.scopes := by
  have habsorbed := tidy_absorbArms h aliases arms
  rcases mergeBranches_cases aliases keep arms c with heq | ⟨first, rest, rfl, heq⟩
  · rw [heq]
    exact habsorbed
  · rw [heq]
    exact tidy_keepCommon habsorbed aliases (harms first List.mem_cons_self).1 rest

/-- **Behind a conditional** stands what stood before it, and what stands at the
end of the first arm and may be used outside. -/
theorem Stand.mergeBranches {Q : Operand → Prop} (h : c.Stand Q)
    (harms : ∀ first ∈ arms.head?, first.Stand fun a => c.isVisible a = true → Q a)
    (aliases : AliasMap) (keep : Bool) : (c.mergeBranches aliases keep arms).2.Stand Q := by
  have habsorbed := h.absorbArms aliases arms
  rcases mergeBranches_cases aliases keep arms c with heq | ⟨first, rest, rfl, heq⟩
  · rw [heq]
    exact habsorbed
  · have hfirst := harms first rfl
    rw [heq]
    obtain ⟨hcanonical, hvalues⟩ := habsorbed _ List.mem_cons_self
    -- absorbing the arms does not change what is declared
    obtain ⟨ho, -, hdeclared, -⟩ := absorbArms_spec aliases (first :: rest) c
    have hvisible (a : Operand) :
        ((first :: rest).foldl (absorbArm aliases) c).isVisible a = c.isVisible a := by
      cases a with
      | var r =>
        show ((first :: rest).foldl (absorbArm aliases) c).isDeclared r = c.isDeclared r
        rw [Bool.eq_iff_iff, isDeclared_iff, isDeclared_iff, names_eq_of_outer ho hdeclared]
      | lit l => rfl
    refine habsorbed.of_top rfl ⟨hcanonical.insertAll fun e he => ⟨trivial, ?_⟩,
      hvalues.insertAll fun e he => ⟨trivial, fun a ha => ?_⟩⟩
    · obtain ⟨hmem, hok⟩ := List.mem_filter.1 he
      exact (hfirst.canonical e hmem).2 (hvisible e.2 ▸ (Bool.and_eq_true_iff.1 hok).2)
    · obtain ⟨common, hcommon, rfl⟩ := List.mem_map.1 he
      obtain ⟨hmem, hok⟩ := List.mem_filter.1 hcommon
      obtain ⟨entry, hentry, hvalue⟩ := List.mem_filterMap.1 hmem
      obtain ⟨rep, hrep, rfl⟩ := Option.map_eq_some_iff.1 hvalue
      simp only [Bool.and_eq_true] at hok
      obtain rfl := Option.some.inj ha
      exact (hfirst.values entry hentry).2 rep hrep (hvisible rep ▸ hok.1.2)

/-! ## What is found behind a change -/

/-- What is found depends on the values only that the scopes give for the
signature. -/
theorem find?_eq_of_top (ho : c'.outer = c.outer)
    (hk : c'.top.kind = c.top.kind) (hv : c'.top.values.get? s = c.top.values.get? s) :
    find? s false c'.scopes = find? s false c.scopes := by
  unfold scopes
  rw [find?, find?, ho, hk, hv]

theorem find?_congr {s s' : Signature} (h : s.key = s'.key) (crossed : Bool) (scopes : List Scope) :
    find? s crossed scopes = find? s' crossed scopes := by
  induction scopes generalizing crossed with
  | nil => rfl
  | cons scope rest ih =>
    have hget : scope.values.get? s = scope.values.get? s' := Table.get?_congr h
    rw [find?, find?, hget, ih]

/-- An entry of the innermost scope is what is found. -/
theorem find?_of_get? {entry : Option Operand}
    (h : c.top.values.get? s = some entry) : find? s false c.scopes = some (entry, false) := by
  unfold scopes
  rw [find?, h]

/-- **What is found behind new entries of the innermost scope** is one of them,
or it was found before and none of them speaks about it. -/
theorem find?_insertAll (entries : List (Signature × Option Operand))
    {found : Option Operand × Bool} (h : find? s false c'.scopes = some found)
    (ho : c'.outer = c.outer) (hk : c'.top.kind = c.top.kind)
    (hv : c'.top.values = c.top.values.insertAll entries) :
    (∃ e ∈ entries, e.1.key = s.key ∧ e.2 = found.1)
      ∨ (∀ e ∈ entries, e.1.key ≠ s.key) ∧ find? s false c.scopes = some found := by
  by_cases hm : ∃ e ∈ entries, Keyed.key e.1 = Keyed.key s
  · obtain ⟨e, he, hkey, hget⟩ := Table.get?_insertAll_of_mem c.top.values hm
    rw [find?_of_get? (hv ▸ hget)] at h
    exact .inl ⟨e, he, hkey, congrArg Prod.fst (Option.some.inj h)⟩
  · have hm' : ∀ e ∈ entries, Keyed.key e.1 ≠ Keyed.key s := fun e he hkey => hm ⟨e, he, hkey⟩
    rw [find?_eq_of_top ho hk (hv ▸ Table.get?_insertAll_of_not_mem _ hm')] at h
    exact .inr ⟨hm', h⟩

/-- **What is found behind an entry** is the entry or was found before. -/
theorem find?_record {s s' : Signature} {rep rep' : Operand}
    (h : find? s' false (c.record aliases s rep).2.scopes = some (some rep', crossed)) :
    s.key = s'.key ∧ rep' = rep ∨ find? s' false c.scopes = some (some rep', crossed) := by
  unfold record at h
  split at h
  · exact .inr h
  · rcases find?_insertAll (c := c) [(s, some rep)] h rfl rfl rfl with ⟨e, he, hkey, hrep⟩ | ⟨-, h⟩
    · obtain rfl := List.mem_singleton.1 he
      exact .inl ⟨hkey, (Option.some.inj hrep).symm⟩
    · exact .inr h

/-- **What is found behind a write** was found before and does not read what was
written. -/
theorem find?_invalidate {l : Location}
    (h : find? s false (c.invalidate aliases l).2.scopes = some (some rep, crossed)) :
    find? s false c.scopes = some (some rep, crossed) ∧ reads aliases l s = false := by
  rcases find?_insertAll (c := c) ((c.affected aliases l).map (·, none)) h rfl rfl rfl
    with ⟨e, he, -, hrep⟩ | ⟨hended, h⟩
  · -- the write has put an end to what was known about the signature
    obtain ⟨s', -, rfl⟩ := List.mem_map.1 he
    cases hrep
  · refine ⟨h, Bool.eq_false_iff.2 fun hreads => ?_⟩
    obtain ⟨scope, hscope, hentry⟩ := exists_of_find? h
    obtain ⟨e, he, hk, hrep⟩ := Table.get?_eq_some_iff.1 hentry
    have hsome : e.2.isSome = true := by rw [hrep]; rfl
    have hreads' : reads aliases l e.1 = true := (reads_congr hk aliases l).trans hreads
    exact hended (e.1, none) (List.mem_map.2 ⟨e.1, mem_affected.2
      ⟨scope, hscope, e, he, hsome, hreads', rfl⟩, rfl⟩) hk

theorem find?_invalidateAll {ls : List Location}
    (h : find? s false (ls.foldl (fun c l => (c.invalidate aliases l).2) c).scopes
      = some (some rep, crossed)) :
    find? s false c.scopes = some (some rep, crossed) ∧ ∀ l ∈ ls, reads aliases l s = false := by
  induction ls generalizing c with
  | nil => exact ⟨h, fun _ h => nomatch h⟩
  | cons l ls ih =>
    obtain ⟨h, hls⟩ := ih h
    obtain ⟨h, hl⟩ := find?_invalidate h
    exact ⟨h, List.forall_mem_cons.2 ⟨hl, hls⟩⟩

/-- **What is found behind the arms of a conditional** was found before and does
not read what any arm wrote. -/
theorem find?_absorbArms
    (h : find? s false (arms.foldl (absorbArm aliases) c).scopes = some (some rep, crossed)) :
    find? s false c.scopes = some (some rep, crossed)
      ∧ ∀ arm ∈ arms, ∀ l ∈ arm.invalidated, reads aliases l s = false := by
  induction arms generalizing c with
  | nil => exact ⟨h, fun _ h => nomatch h⟩
  | cons arm arms ih =>
    obtain ⟨h, harms⟩ := ih h
    obtain ⟨h, harm⟩ := find?_invalidateAll (h : find? s false
      (arm.invalidated.foldl (fun c l => (c.invalidate aliases l).2) c).scopes = _)
    exact ⟨h, List.forall_mem_cons.2 ⟨harm, harms⟩⟩

/-- What is found behind a nested block was found at its end or before it. -/
theorem find?_mergeNested {child : Scope}
    (h : find? s false (c.mergeNested child).scopes = some (some rep, crossed)) :
    child.values.get? s = some (some rep) ∨ find? s false c.scopes = some (some rep, crossed) := by
  rcases find?_insertAll (c := c) _ h rfl rfl rfl with ⟨e, he, hkey, hrep⟩ | ⟨-, h⟩
  · exact .inl (Table.get?_eq_some_iff.2 ⟨e, (List.mem_filter.1 he).1, hkey, hrep⟩)
  · exact .inr h

theorem find?_keepCommon
    (h : find? s false (keepCommon aliases first rest c).scopes = some (some rep, crossed)) :
    (∀ arm ∈ first :: rest, ∃ rep', arm.values.get? s = some (some rep') ∧ rep'.key = rep.key)
      ∨ find? s false c.scopes = some (some rep, crossed) := by
  rcases find?_insertAll (c := c) _ h rfl rfl rfl with ⟨e, he, hk, hrep⟩ | ⟨-, h⟩
  · obtain ⟨common, hcommon, rfl⟩ := List.mem_map.1 he
    obtain rfl := Option.some.inj hrep
    refine .inl fun arm harm => ?_
    obtain ⟨rep', hrep', hkey⟩ := get?_of_mem_commonValues hcommon arm harm
    exact ⟨rep', (Table.get?_congr hk).symm.trans hrep', hkey⟩
  · exact .inr h

/-- **What is found behind a conditional** was found at the end of every arm, or
before all of them and does not read what an arm wrote. -/
theorem find?_mergeBranches {keep : Bool}
    (h : find? s false (c.mergeBranches aliases keep arms).2.scopes = some (some rep, crossed)) :
    (∀ arm ∈ arms, ∃ rep', arm.values.get? s = some (some rep') ∧ rep'.key = rep.key)
      ∨ find? s false c.scopes = some (some rep, crossed)
        ∧ ∀ arm ∈ arms, ∀ l ∈ arm.invalidated, reads aliases l s = false := by
  rcases mergeBranches_cases aliases keep arms c with heq | ⟨first, rest, rfl, heq⟩
  · rw [heq] at h
    exact .inr (find?_absorbArms h)
  · rw [heq] at h
    exact (find?_keepCommon h).imp_right find?_absorbArms

end Congruence

end ValueFlow
