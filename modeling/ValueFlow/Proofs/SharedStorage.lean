import ValueFlow.Proofs.Placement
import ValueFlow.Proofs.ScopeActions

/-!
# Which storage is shared

Two locations overlap exactly if some access touches both of them
(`Location.overlaps_exact`). A location whose path is longer is touched by fewer
accesses, so going on from locations that are apart they stay apart.
-/

namespace ValueFlow

/-! ## Touching -/

/-- **An access touches the location**: on the way to the cell, or at its end,
it passes a place that the location may stand for. -/
def Location.Touches (l : Location) (c : Cell) : Prop :=
  l.root = c.root ∧ ∃ front, front <+: c.path ∧ List.Forall₂ Step.Matches l.path front

theorem Step.exists_matches_of_agrees {s t : Step} (h : s.agrees t = true) :
    ∃ x, s.Matches x ∧ t.Matches x := by
  cases s with
  | unknown => exact t.exists_matches.imp fun _ hx => ⟨trivial, hx⟩
  | field a =>
    cases t with
    | unknown => exact ⟨.field a, rfl, trivial⟩
    | field b => exact ⟨.field a, rfl, (of_decide_eq_true h).symm⟩

/-- Paths that agree as far as both go are on the way to one cell. -/
theorem exists_touched {p q : List Step} (h : ((p.zip q).all fun s => s.1.agrees s.2) = true) :
    ∃ path front back, front <+: path ∧ List.Forall₂ Step.Matches p front
      ∧ back <+: path ∧ List.Forall₂ Step.Matches q back := by
  induction p generalizing q with
  | nil =>
    obtain ⟨path, hpath⟩ := exists_forall₂_matches q
    exact ⟨path, [], path, List.nil_prefix, .nil, List.prefix_rfl, hpath⟩
  | cons s p ih =>
    cases q with
    | nil =>
      obtain ⟨path, hpath⟩ := exists_forall₂_matches (s :: p)
      exact ⟨path, path, [], List.prefix_rfl, hpath, List.nil_prefix, .nil⟩
    | cons t q =>
      rw [List.zip_cons_cons, List.all_cons, Bool.and_eq_true] at h
      obtain ⟨x, hs, ht⟩ := Step.exists_matches_of_agrees h.1
      obtain ⟨path, front, back, hfront, hp, hback, hq⟩ := ih h.2
      exact ⟨x :: path, x :: front, x :: back, List.cons_prefix_cons.2 ⟨rfl, hfront⟩, .cons hs hp,
        List.cons_prefix_cons.2 ⟨rfl, hback⟩, .cons ht hq⟩

namespace Location

variable {a b : Location} {c : Cell}

/-- **Locations overlap exactly if some access touches both.** -/
theorem overlaps_iff : a.overlaps b = true ↔ ∃ c, a.Touches c ∧ b.Touches c := by
  unfold overlaps
  rw [Bool.and_eq_true, decide_eq_true_eq]
  constructor
  · rintro ⟨hroot, hagree⟩
    obtain ⟨path, front, back, hfront, hp, hback, hq⟩ := exists_touched hagree
    exact ⟨⟨a.root, path⟩, ⟨rfl, front, hfront, hp⟩, hroot.symm, back, hback, hq⟩
  · rintro ⟨c, ⟨hroot, front, hfront, hp⟩, hroot', back, hback, hq⟩
    exact ⟨hroot.trans hroot'.symm, agrees_of_touched hfront hp hback hq⟩

/-- What touches a part of a location touches the location. -/
theorem Touches.of_extend {steps : List Step} (h : (a.extend steps).Touches c) : a.Touches c := by
  obtain ⟨hroot, front, hfront, hp⟩ := h
  exact ⟨hroot, _, (List.take_prefix _ _).trans hfront,
    (List.forall₂_take_append _ _ _ hp.flip).flip⟩

theorem overlaps_of_extend {s t : List Step} (h : (a.extend s).overlaps (b.extend t) = true) :
    a.overlaps b = true := by
  obtain ⟨c, ha, hb⟩ := overlaps_iff.1 h
  exact overlaps_iff.2 ⟨c, ha.of_extend, hb.of_extend⟩

/-- **Overlapping means that one access may touch both locations.** So it is
mutual, going on from either location can only end it, and locations that are
apart stay apart however one goes on from them. -/
theorem overlaps_exact (a b : Location) :
    (a.overlaps b = true ↔ ∃ c, a.Touches c ∧ b.Touches c) ∧ a.overlaps b = b.overlaps a
      ∧ (∀ steps, (a.extend steps).overlaps b = true → a.overlaps b = true)
      ∧ (∀ steps, a.overlaps (b.extend steps) = true → a.overlaps b = true)
      ∧ (a.overlaps b = false → ∀ s t, (a.extend s).overlaps (b.extend t) = false) := by
  have hnil : ∀ l : Location, l.extend [] = l := fun l => by simp [extend]
  refine ⟨overlaps_iff, overlaps_comm a b, fun steps h => ?_, fun steps h => ?_, fun h s t => ?_⟩
  · exact overlaps_of_extend (s := steps) (t := []) ((hnil b).symm ▸ h)
  · exact overlaps_of_extend (s := []) (t := steps) ((hnil a).symm ▸ h)
  · by_contra hne
    exact absurd (overlaps_of_extend (Bool.eq_true_of_not_eq_false hne)) (by simp [h])

/-- Two fields of a record are apart, and an element of the one is no element of
the other; an unknown part overlaps each of them. -/
theorem overlaps_exact_fields :
    let first : Location := ⟨"s", [.field "in"]⟩
    let second : Location := ⟨"s", [.field "out"]⟩
    let part : Location := ⟨"s", [.unknown]⟩
    first.overlaps second = false
      ∧ (first.extend [.unknown]).overlaps (second.extend [.unknown]) = false
      ∧ (part.extend [.unknown]).overlaps first = true ∧ part.overlaps first = true := by
  intro first second part
  have happart : first.overlaps second = false := by decide
  have hdeeper : (part.extend [.unknown]).overlaps first = true := by decide
  exact ⟨happart, (overlaps_exact first second).2.2.2.2 happart _ _, hdeeper,
    (overlaps_exact part first).2.2.1 _ hdeeper⟩

end Location

end ValueFlow
