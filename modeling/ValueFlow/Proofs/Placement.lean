import ValueFlow.Proofs.AliasChains
import ValueFlow.Proofs.Execution

/-!
# Locations and cells

The analysis speaks about *locations*, the execution about *cells*. A location
covers a cell if it is reached from the location of the cell's root by steps
that match the cell's path. **Locations that cover one cell overlap**
(`overlaps_of_covers`), so what is written at a cell is never read through a
location that the analysis takes for another place.

What a variable denotes while the function runs is covered by the location that
the analysis gives it (`Placed`). For this the alias facts must name every child
once; that the facts about a bound variable do not run in a circle need not be
assumed, since a variable can only be bound to a part of one that denotes
something already.
-/

namespace ValueFlow

/-! ## Covering -/

/-- The step may lead where the selector leads. -/
def Step.Matches : Step → Selector → Prop
  | .field a, .field b => a = b
  | .field _, .element _ => False
  | .unknown, _ => True

theorem Step.agrees_of_matches {s s' : Step} {x : Selector} (h : s.Matches x) (h' : s'.Matches x) :
    s.agrees s' = true := by
  cases s with
  | unknown => cases s' <;> rfl
  | field a =>
    cases s' with
    | unknown => rfl
    | field b =>
      cases x with
      | field c =>
        obtain rfl : a = c := h
        obtain rfl : b = a := h'
        simp [agrees]
      | element l => cases h

theorem Step.exists_matches (s : Step) : ∃ x, s.Matches x := by
  cases s with
  | field name => exact ⟨.field name, rfl⟩
  | unknown => exact ⟨.field "", trivial⟩

theorem exists_forall₂_matches (p : List Step) : ∃ path, List.Forall₂ Step.Matches p path := by
  induction p with
  | nil => exact ⟨[], .nil⟩
  | cons s p ih =>
    obtain ⟨path, hpath⟩ := ih
    obtain ⟨x, hx⟩ := s.exists_matches
    exact ⟨x :: path, .cons hx hpath⟩

/-- Steps to places on the way to one cell agree as far as both go. -/
theorem agrees_of_touched {p q : List Step} {path front back : List Selector}
    (hfront : front <+: path) (hp : List.Forall₂ Step.Matches p front) (hback : back <+: path)
    (hq : List.Forall₂ Step.Matches q back) : ((p.zip q).all fun s => s.1.agrees s.2) = true := by
  induction hp generalizing q path back with
  | nil => rfl
  | cons hs _ ih =>
    cases hq with
    | nil => rfl
    | cons ht hq =>
      obtain ⟨rest, rfl⟩ := hfront
      obtain ⟨rfl, hback'⟩ := List.cons_prefix_cons.1 hback
      rw [List.zip_cons_cons, List.all_cons, Step.agrees_of_matches hs ht,
        ih (List.prefix_append _ _) hback' hq]
      rfl

namespace AliasMap

variable {l : Location}

/-- The location that a variable denotes, by name. -/
def locate (m : AliasMap) (name : String) : Location := follow m.facts.length m.facts name []

/-- **The location covers the cell.** -/
def Covers (m : AliasMap) (l : Location) (c : Cell) : Prop :=
  ∃ steps, l = (m.locate c.root).extend steps ∧ List.Forall₂ Step.Matches steps c.path

variable {m : AliasMap}

/-- **Two locations that cover one cell overlap.** -/
theorem overlaps_of_covers {l l' : Location} {c : Cell} (h : m.Covers l c) (h' : m.Covers l' c) :
    l.overlaps l' = true := by
  obtain ⟨steps, rfl, hsteps⟩ := h
  obtain ⟨steps', rfl, hsteps'⟩ := h'
  obtain ⟨base, hbase⟩ := exists_forall₂_matches (m.locate c.root).path
  unfold Location.overlaps Location.extend
  rw [agrees_of_touched List.prefix_rfl (List.rel_append hbase hsteps)
    List.prefix_rfl (List.rel_append hbase hsteps')]
  simp

/-- A part of a covered cell is covered by the same part of the location. -/
theorem Covers.extend {c : Cell} (h : m.Covers l c) {steps : List Step}
    {path : List Selector} (hpath : List.Forall₂ Step.Matches steps path) :
    m.Covers (l.extend steps) (c.extend path) := by
  obtain ⟨base, rfl, hbase⟩ := h
  refine ⟨base ++ steps, ?_, List.rel_append hbase hpath⟩
  simp [Location.extend]

theorem forall₂_fieldSteps (path : List String) :
    List.Forall₂ Step.Matches (fieldSteps path) (fieldSelectors path) := by
  induction path with
  | nil => exact .nil
  | cons name path ih => exact .cons rfl ih

/-! ## Following alias facts -/

/-- The facts lead from a variable to a location in the given number of steps. -/
inductive Reaches (facts : List Alias) : Nat → String → Location → Prop
  | root {name : String} (h : ∀ a ∈ facts, a.child.name ≠ name) : Reaches facts 0 name ⟨name, []⟩
  | step {a : Alias} {k : Nat} {l : Location} (ha : a ∈ facts)
      (h : Reaches facts k a.parent.name l) :
    Reaches facts (k + 1) a.child.name (l.extend a.path)

/-- Every child has one fact. -/
def OneParent (facts : List Alias) : Prop :=
  ∀ a ∈ facts, ∀ b ∈ facts, a.child.name = b.child.name → a = b

/-- Where every child has one fact, the facts that lead to a location are a
chain of entries. -/
theorem Reaches.exists_chain (hu : OneParent m.facts) {k : Nat} {name : String}
    (h : Reaches m.facts k name l) :
    ∃ chain root, m.Chain name chain root ∧ m.entry? root = none ∧ l = placeOf root chain := by
  induction h with
  | root hroot =>
    exact ⟨[], _, rfl, List.find?_eq_none.2 fun a ha => by simpa using hroot a ha, rfl⟩
  | @step a k l ha _ ih =>
    obtain ⟨chain, root, hchain, hroot, rfl⟩ := ih
    have hentry : m.entry? a.child.name = some a := by
      cases hfind : m.entry? a.child.name with
      | none => exact absurd (List.find?_eq_none.1 hfind a ha) (by simp)
      | some b => rw [hu b (List.mem_of_find?_eq_some hfind) a ha (child_eq_of_entry hfind)]
    exact ⟨a :: chain, root, ⟨hentry, hchain⟩, hroot, (placeOf_cons root a chain).symm⟩

/-- The facts about the variable come to an end. -/
def Grounded (m : AliasMap) (name : String) : Prop := ∃ k l, Reaches m.facts k name l

theorem locate_of_reaches (hu : OneParent m.facts) {k : Nat} {name : String}
    (h : Reaches m.facts k name l) : m.locate name = l := by
  obtain ⟨chain, root, hchain, hroot, rfl⟩ := h.exists_chain hu
  exact follow_of_chain hchain hroot

/-- **A child denotes a part of what its parent denotes.** -/
theorem locate_child (hu : OneParent m.facts) {a : Alias} (ha : a ∈ m.facts)
    (h : m.Grounded a.parent.name) :
    m.locate a.child.name = (m.locate a.parent.name).extend a.path := by
  obtain ⟨k, l, hreach⟩ := h
  rw [locate_of_reaches hu (.step ha hreach), locate_of_reaches hu hreach]

end AliasMap

/-! ## What variables denote -/

/-- **Every variable denotes a cell that its location covers.** Variables with
storage of their own denote their own cell, all others a cell inside another
variable, or nothing. -/
structure Placed {W : Type} (m : AliasMap) (own : String → Prop) (st : Store W) : Prop where
  self : ∀ n, own n → st.places n = some (.own n)
  inner : ∀ n c, ¬ own n → st.places n = some c → c.path ≠ []
  grounded : ∀ n c, st.places n = some c → m.Grounded n
  covered : ∀ n c, st.places n = some c → m.Covers (m.locate n) c

namespace Placed

variable {W : Type} {m : AliasMap} {own : String → Prop} {st : Store W}

theorem of_places {st' : Store W} (h : Placed m own st) (hp : st'.places = st.places) :
    Placed m own st' := by
  constructor
  · rw [hp]
    exact h.self
  · rw [hp]
    exact h.inner
  · rw [hp]
    exact h.grounded
  · rw [hp]
    exact h.covered

/-- A variable that no alias fact is about is its own root. -/
theorem covers_own {n : String} (hn : ∀ a ∈ m.facts, a.child.name ≠ n) :
    m.Grounded n ∧ m.Covers (m.locate n) (.own n) :=
  ⟨⟨0, _, .root hn⟩, [], by simp [Location.extend], .nil⟩

theorem declare (h : Placed m own st) {v : Var} (hv : own v.name ↔ v.alloc ≠ .part)
    (hroot : own v.name → ∀ a ∈ m.facts, a.child.name ≠ v.name) : Placed m own (st.declare v) := by
  have hplaces : ∀ n c, (st.declare v).places n = some c →
      (n = v.name ∧ own n ∧ c = .own n) ∨ st.places n = some c := by
    intro n c hc
    simp only [Store.declare] at hc
    split at hc
    · rename_i hn
      split at hc
      · cases hc
      · rename_i halloc
        subst hn
        exact .inl ⟨rfl, hv.2 halloc, (Option.some.inj hc).symm⟩
    · exact .inr hc
  refine ⟨fun n hn => ?_, fun n c hn hc => ?_, fun n c hc => ?_, fun n c hc => ?_⟩
  · simp only [Store.declare]
    split
    · rename_i heq
      subst heq
      rw [if_neg (hv.1 hn)]
    · exact h.self n hn
  · rcases hplaces n c hc with ⟨-, ho, -⟩ | hc
    · exact absurd ho hn
    · exact h.inner n c hn hc
  · rcases hplaces n c hc with ⟨rfl, ho, -⟩ | hc
    · exact (covers_own (hroot ho)).1
    · exact h.grounded n c hc
  · rcases hplaces n c hc with ⟨rfl, ho, rfl⟩ | hc
    · exact (covers_own (hroot ho)).2
    · exact h.covered n c hc

/-- Binding a child to the part of its parent that an alias fact speaks about. -/
theorem bind (hu : AliasMap.OneParent m.facts) (h : Placed m own st) {a : Alias} (ha : a ∈ m.facts)
    (hown : ¬ own a.child.name) {c : Cell} (hc : st.places a.parent.name = some c)
    {path : List Selector} (hpath : List.Forall₂ Step.Matches a.path path) (hne : path ≠ [])
    {st' : Store W} (hst : st.bind a.child.name (c.extend path) = some st') : Placed m own st' := by
  obtain ⟨-, rfl⟩ := Store.bind_eq_some.1 hst
  have hground := h.grounded _ c hc
  refine ⟨fun n hn => ?_, fun n c' hn hc' => ?_, fun n c' hc' => ?_, fun n c' hc' => ?_⟩
  · have hne : n ≠ a.child.name := fun heq => hown (heq ▸ hn)
    simp only [hne, if_false]
    exact h.self n hn
  · simp only at hc'
    split at hc'
    · obtain rfl := Option.some.inj hc'
      simp [hne]
    · exact h.inner n c' hn hc'
  · simp only at hc'
    split at hc'
    · rename_i heq
      obtain ⟨k, l, hreach⟩ := hground
      exact heq ▸ ⟨k + 1, _, .step ha hreach⟩
    · exact h.grounded n c' hc'
  · simp only at hc'
    split at hc'
    · rename_i heq
      obtain rfl := Option.some.inj hc'
      rw [heq, AliasMap.locate_child hu ha hground]
      exact (h.covered _ c hc).extend hpath
    · exact h.covered n c' hc'

end Placed

end ValueFlow
