import Mathlib.Logic.Relation
import ValueFlow.Alias

/-!
# Following aliases

A variable denotes a part of its parent's storage, the parent a part of its own
parent's, and so on. What counts is the first fact about each name, its *entry*,
and resolving a variable follows the entries as long as it comes to a new name
(`AliasMap.resolve_exact`): **no entry is followed twice**, and the way ends at
a name without an entry, or where it closes a circle.
-/

namespace ValueFlow

namespace AliasMap

/-! ## Chains of entries -/

/-- The fact about a name that counts: the first that was added. -/
def entry? (m : AliasMap) (name : String) : Option Alias := m.facts.find? (·.child.name = name)

/-- **The entries lead from one name to another**, one after the other. -/
def Chain (m : AliasMap) (name : String) : List Alias → String → Prop
  | [], root => root = name
  | a :: rest, root => m.entry? name = some a ∧ m.Chain a.parent.name rest root

/-- The place reached along the entries from a root: the paths of the last ones
come first. -/
def placeOf (root : String) (chain : List Alias) : Location :=
  ⟨root, chain.reverse.flatMap (·.path)⟩

/-- The entry of a name leads to another one. -/
def Next (m : AliasMap) (name name' : String) : Prop :=
  ∃ a, m.entry? name = some a ∧ a.parent.name = name'

/-- **The way from a name does not run into a circle.** -/
def Ends (m : AliasMap) (name : String) : Prop :=
  ∀ n, Relation.ReflTransGen m.Next name n → ¬ Relation.TransGen m.Next n n

variable {m : AliasMap} {name root root' : String} {chain chain' front : List Alias} {a : Alias}

theorem child_eq_of_entry (h : m.entry? name = some a) :
    a.child.name = name := by simpa using List.find?_some h

/-- A chain can be cut at each of its entries. -/
theorem Chain.split (h : m.Chain name (front ++ a :: chain) root) :
    Relation.ReflTransGen m.Next name a.child.name ∧ m.entry? a.child.name = some a
      ∧ m.Chain a.parent.name chain root := by
  induction front generalizing name with
  | nil =>
    obtain rfl := child_eq_of_entry h.1
    exact ⟨.refl, h.1, h.2⟩
  | cons b front ih =>
    obtain ⟨hway, hrest⟩ := ih h.2
    exact ⟨.head ⟨b, h.1, rfl⟩ hway, hrest⟩

theorem Chain.reaches (h : m.Chain name chain root) : Relation.ReflTransGen m.Next name root := by
  induction chain generalizing name with
  | nil => exact h ▸ .refl
  | cons a chain ih => exact .head ⟨a, h.1, rfl⟩ (ih h.2)

/-- From each name there is one chain to a name without an entry. -/
theorem Chain.unique (h : m.Chain name chain root) (hroot : m.entry? root = none)
    (h' : m.Chain name chain' root') (hroot' : m.entry? root' = none) :
    chain = chain' ∧ root = root' := by
  induction chain generalizing name chain' with
  | nil =>
    obtain rfl : root = name := h
    cases chain' with
    | nil => exact ⟨rfl, h'.symm⟩
    | cons a rest => cases hroot.symm.trans h'.1
  | cons a chain ih =>
    cases chain' with
    | nil =>
      obtain rfl : root' = name := h'
      cases hroot'.symm.trans h.1
    | cons b rest =>
      obtain rfl : a = b := Option.some.inj (h.1.symm.trans h'.1)
      obtain ⟨rfl, hroots⟩ := ih h.2 h'.2
      exact ⟨rfl, hroots⟩

theorem placeOf_cons (root : String) (a : Alias) (chain : List Alias) :
    placeOf root (a :: chain) = (placeOf root chain).extend a.path := by
  simp [placeOf, Location.extend]

/-! ## Following facts -/

theorem follow_of_find?_eq_none {facts : List Alias}
    (h : facts.find? (·.child.name = name) = none) (n : Nat) (path : List Step) :
    follow n facts name path = ⟨name, path⟩ := by
  cases n with
  | zero => rfl
  | succ n => rw [follow, h]

theorem length_filter_ne_lt {facts : List Alias} (h : facts.find? (·.child.name = name) = some a) :
    (facts.filter (·.child.name ≠ name)).length < facts.length := by
  have hname : a.child.name = name := by simpa using List.find?_some h
  exact List.length_filter_lt_length_iff_exists.2 ⟨a, List.mem_of_find?_eq_some h, by simp [hname]⟩

/-- The facts about names that were not seen. -/
def unseen (m : AliasMap) (seen : List String) : List Alias := m.facts.filter (·.child.name ∉ seen)

theorem find?_unseen {seen : List String} (h : name ∉ seen) :
    (m.unseen seen).find? (·.child.name = name) = m.entry? name := by
  rw [unseen, List.find?_filter, entry?]
  congr 1
  funext a
  by_cases ha : a.child.name = name
  · simp [ha, h]
  · simp [ha]

theorem filter_unseen (m : AliasMap) (seen : List String) (name : String) :
    (m.unseen seen).filter (·.child.name ≠ name) = m.unseen (name :: seen) := by
  rw [unseen, unseen, List.filter_filter]
  congr 1
  funext a
  simp

/-- **Following facts follows a chain of entries**, none of which is about a
name that was seen or followed before. -/
theorem follow_unseen (m : AliasMap) {n : Nat} {seen : List String}
    (hn : (m.unseen seen).length ≤ n) (name : String) (path : List Step) :
    ∃ chain root, m.Chain name chain root
      ∧ follow n (m.unseen seen) name path = (placeOf root chain).extend path
      ∧ (chain.map (·.child.name)).Nodup ∧ (∀ x ∈ chain.map (·.child.name), x ∉ seen)
      ∧ (m.entry? root = none ∨ root ∈ seen ++ chain.map (·.child.name)) := by
  induction n generalizing seen name path with
  | zero =>
    have hnil := List.length_eq_zero_iff.1 (Nat.le_zero.1 hn)
    refine ⟨[], name, rfl, rfl, .nil, List.forall_mem_nil _, ?_⟩
    by_cases hname : name ∈ seen
    · exact .inr (List.mem_append_left _ hname)
    · rw [← find?_unseen hname, hnil]
      exact .inl rfl
  | succ n ih =>
    cases hfind : (m.unseen seen).find? (·.child.name = name) with
    | none =>
      refine ⟨[], name, rfl, follow_of_find?_eq_none hfind _ path, .nil, List.forall_mem_nil _, ?_⟩
      by_cases hname : name ∈ seen
      · exact .inr (List.mem_append_left _ hname)
      · exact .inl ((find?_unseen hname).symm.trans hfind)
    | some a =>
      have hname : a.child.name = name := by simpa using List.find?_some hfind
      have hnew : name ∉ seen := by
        simpa [hname] using (List.mem_filter.1 (List.mem_of_find?_eq_some hfind)).2
      have hlt := length_filter_ne_lt hfind
      rw [filter_unseen] at hlt
      obtain ⟨chain, root, hchain, hfollow, hnodup, hunseen, hstop⟩ :=
        ih (by omega : (m.unseen (name :: seen)).length ≤ n) a.parent.name (a.path ++ path)
      refine ⟨a :: chain, root, ⟨(find?_unseen hnew).symm.trans hfind, hchain⟩, ?_, ?_, ?_, ?_⟩
      · rw [follow, hfind]
        refine (congrArg (follow n · _ _) (filter_unseen m seen name)).trans (hfollow.trans ?_)
        rw [placeOf_cons]
        simp [Location.extend]
      · rw [List.map_cons, List.nodup_cons, hname]
        exact ⟨fun hmem => hunseen _ hmem List.mem_cons_self, hnodup⟩
      · rw [List.map_cons, List.forall_mem_cons, hname]
        exact ⟨hnew, fun x hx hmem => hunseen x hx (List.mem_cons_of_mem _ hmem)⟩
      · rw [List.map_cons, hname]
        exact hstop.imp_right fun h => List.perm_middle.symm.subset h

/-- **A name is resolved along a chain of entries** with no name twice. The
chain goes on until there is no entry, or none that was not followed. -/
theorem exists_chain (m : AliasMap) (name : String) : ∃ chain root, m.Chain name chain root
    ∧ (chain.map (·.child.name)).Nodup ∧ follow m.facts.length m.facts name [] = placeOf root chain
    ∧ (m.entry? root = none ∨ root ∈ chain.map (·.child.name)) := by
  have hall : m.unseen [] = m.facts := by simp [unseen]
  obtain ⟨chain, root, hchain, hfollow, hnodup, -, hstop⟩ :=
    m.follow_unseen (Nat.le_of_eq (congrArg List.length hall)) name []
  rw [hall] at hfollow
  refine ⟨chain, root, hchain, hnodup, hfollow.trans ?_, hstop⟩
  simp [Location.extend]

/-- Where the way does not run into a circle, a chain stops only for want of an
entry. -/
theorem Ends.entry?_eq_none (h : m.Ends name) (hchain : m.Chain name chain root)
    (hstop : m.entry? root = none ∨ root ∈ chain.map (·.child.name)) : m.entry? root = none := by
  refine hstop.resolve_right fun hmem => ?_
  obtain ⟨a, ha, rfl⟩ := List.mem_map.1 hmem
  obtain ⟨front, rest, rfl⟩ := List.append_of_mem ha
  obtain ⟨hway, hentry, hrest⟩ := hchain.split
  exact h _ hway (.head' ⟨a, hentry, rfl⟩ hrest.reaches)

/-- A chain to a name without an entry does not run into a circle. -/
theorem Chain.ends (h : m.Chain name chain root) (hroot : m.entry? root = none) : m.Ends name := by
  induction chain generalizing name with
  | nil =>
    obtain rfl : root = name := h
    intro n hway hcircle
    have hstep : ∀ x, ¬ m.Next root x := fun x ⟨a, ha, _⟩ => by cases hroot.symm.trans ha
    obtain ⟨x, hx, -⟩ := Relation.TransGen.head'_iff.1 (hcircle.trans_right hway)
    exact hstep x hx
  | cons a chain ih =>
    have hstep : ∀ x, m.Next name x → x = a.parent.name := by
      rintro x ⟨b, hb, rfl⟩
      rw [Option.some.inj (hb.symm.trans h.1)]
    intro n hway hcircle
    rcases hway.cases_head with rfl | ⟨x, hx, hrest⟩
    · obtain ⟨x, hx, hback⟩ := Relation.TransGen.head'_iff.1 hcircle
      exact ih h.2 name (hstep x hx ▸ hback) hcircle
    · exact ih h.2 n (hstep x hx ▸ hrest) hcircle

/-- **Following the facts reaches the end of the chain**, if there is one. -/
theorem follow_of_chain (h : m.Chain name chain root) (hroot : m.entry? root = none) :
    follow m.facts.length m.facts name [] = placeOf root chain := by
  obtain ⟨chain', root', hchain', -, hfollow, hstop⟩ := m.exists_chain name
  obtain ⟨rfl, rfl⟩ := hchain'.unique ((h.ends hroot).entry?_eq_none hchain' hstop) h hroot
  exact hfollow

/-- **A child is located at the part of its parent that its entry speaks of.** -/
theorem Ends.location_child (h : m.Ends a.child.name) (hentry : m.entry? a.child.name = some a) :
    m.location a.child = (m.location a.parent).extend a.path := by
  obtain ⟨chain, root, hchain, -, hlocation, hstop⟩ := m.exists_chain a.parent.name
  have hparent : m.Ends a.parent.name := fun n hway => h n (.head ⟨a, hentry, rfl⟩ hway)
  have hlonger : m.Chain a.child.name (a :: chain) root := ⟨hentry, hchain⟩
  unfold location
  rw [follow_of_chain hlonger (hparent.entry?_eq_none hchain hstop), hlocation, placeOf_cons]

/-- **Aliases are resolved exactly.** Whichever facts were added, resolving a
variable follows a chain of entries, each at most once, and gives the root of
the chain with the paths of the entries from there on. The chain ends at a name
whose entry was followed, or at one without an entry. The latter is so exactly
if the way from the variable does not run into a circle, and then every child on
the chain is located at the part of its parent that its entry speaks of. -/
theorem resolve_exact (facts : List Alias) (v : Var) :
    let m := facts.foldl add empty
    ∃ chain root, m.Chain v.name chain root ∧ (chain.map (·.child.name)).Nodup
      ∧ m.location v = placeOf root chain
      ∧ (m.entry? root = none ∨ root ∈ chain.map (·.child.name))
        ∧ (m.entry? root = none ↔ m.Ends v.name)
      ∧ (m.Ends v.name → ∀ a ∈ chain,
        m.location a.child = (m.location a.parent).extend a.path) := by
  intro m
  obtain ⟨chain, root, hchain, hnodup, hlocation, hstop⟩ := m.exists_chain v.name
  refine ⟨chain, root, hchain, hnodup, hlocation, hstop,
    ⟨hchain.ends, fun h => h.entry?_eq_none hchain hstop⟩, ?_⟩
  intro hends a ha
  obtain ⟨front, rest, rfl⟩ := List.append_of_mem ha
  obtain ⟨hway, hentry, -⟩ := hchain.split
  exact Ends.location_child (fun n hn => hends n (hway.trans hn)) hentry

/-- A field of a field of a record, the second fact about which does not count. -/
theorem resolve_exact_innerField :
    let var : String → Var := fun name => .future name .int
    let inner : Alias := ⟨var "s", [.field "in"], .bind, var "f"⟩
    let innermost : Alias := ⟨var "f", [.field "x"], .bind, var "g"⟩
    let m := [innermost, inner, ⟨var "t", [], .bind, var "f"⟩].foldl add empty
    m.Ends "g" ∧ m.location (var "g") = ⟨"s", [.field "in", .field "x"]⟩
      ∧ m.location (var "g") = (m.location (var "f")).extend [.field "x"] := by
  intro var inner innermost m
  have hlong : m.Chain "g" [innermost, inner] "s" := ⟨rfl, rfl, rfl⟩
  obtain ⟨chain, root, hchain, -, hlocation, -, hroot, hparts⟩ := resolve_exact _ (var "g")
  have hends := hlong.ends rfl
  obtain ⟨rfl, rfl⟩ := hchain.unique (hroot.2 hends) hlong rfl
  exact ⟨hends, hlocation, hparts hends innermost List.mem_cons_self⟩

end AliasMap

end ValueFlow
