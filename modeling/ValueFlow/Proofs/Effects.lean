import ValueFlow.Proofs.Placement
import ValueFlow.Proofs.Visits

/-!
# What an instruction changes

Executing an instruction does one of three things: it assigns its outputs, it
binds a name to a part of a container, or it fills a cell inside a container
(`Change`). All that later proofs need about an execution is what it leaves
alone, and that is the same for a whole block: `Frame` says which variables keep
their places and their values, and that every other cell whose contents are new
is covered by a location that was written.
-/

namespace ValueFlow

variable {W : Type} {i : Instruction} {own : String → Prop}

/-! ## Frames -/

/-- **What an execution leaves alone.** The variables with the given names keep
their places and what they hold in cells of their own; the contents of a cell
inside a container are old, or one of the given locations, those that were
written, covers the cell. -/
structure Frame (m : AliasMap) (names : String → Prop) (written : List Location)
    (st st' : Store W) : Prop where
  places : ∀ n, names n → ∀ c, st.places n = some c → st'.places n = some c
  kept : ∀ n, names n → ∀ l, st.contents (.own n) = some l → st'.contents (.own n) = some l
  inner : ∀ c, c.path ≠ [] → ∀ l, st'.contents c = some l →
    st.contents c = some l ∨ ∃ loc ∈ written, m.Covers loc c

namespace Frame

variable {m : AliasMap} {names names' : String → Prop} {written written' : List Location}
  {st st' st'' : Store W}

theorem refl (st : Store W) : Frame m names written st st :=
  ⟨fun _ _ _ h => h, fun _ _ _ h => h, fun _ _ _ h => .inl h⟩

theorem trans (h : Frame m names written st st') (h' : Frame m names written' st' st'') :
    Frame m names (written ++ written') st st'' where
  places n hn c hc := h'.places n hn c (h.places n hn c hc)
  kept n hn l hl := h'.kept n hn l (h.kept n hn l hl)
  inner c hc l hl := by
    rcases h'.inner c hc l hl with hl | ⟨loc, hloc, hcov⟩
    · rcases h.inner c hc l hl with hl | ⟨loc, hloc, hcov⟩
      · exact .inl hl
      · exact .inr ⟨loc, List.mem_append_left _ hloc, hcov⟩
    · exact .inr ⟨loc, List.mem_append_right _ hloc, hcov⟩

theorem mono (h : Frame m names written st st') (hn : ∀ n, names' n → names n)
    (hw : written ⊆ written') : Frame m names' written' st st' where
  places n hn' := h.places n (hn n hn')
  kept n hn' := h.kept n (hn n hn')
  inner c hc l hl := (h.inner c hc l hl).imp_right fun ⟨loc, hloc, hcov⟩ => ⟨loc, hw hloc, hcov⟩

/-- A new variable is none of those that are left alone. -/
theorem declare (st : Store W) {v : Var} (hv : ¬ names v.name) :
    Frame m names written st (st.declare v) where
  places n hn c hc := by
    have hne : n ≠ v.name := fun heq => hv (heq ▸ hn)
    simp only [Store.declare, hne, if_false]
    exact hc
  kept n hn l hl := by
    have hne : n ≠ v.name := fun heq => hv (heq ▸ hn)
    simp only [Store.declare, Cell.root_own, hne, if_false]
    exact hl
  inner c _ l hl := by
    simp only [Store.declare] at hl
    split at hl
    · cases hl
    · exact .inl hl

theorem declareAll {vars : List Var} (st : Store W) (hv : ∀ v ∈ vars, ¬ names v.name) :
    Frame m names written st (vars.foldl Store.declare st) := by
  induction vars generalizing st with
  | nil => exact refl st
  | cons v vars ih =>
    obtain ⟨hv, hvars⟩ := List.forall_mem_cons.1 hv
    have hfirst : Frame m names [] st (st.declare v) := declare st hv
    exact hfirst.trans (ih (st.declare v) hvars)

end Frame

/-! ## The three kinds of change -/

/-- **What executing an instruction can do.** -/
inductive Change (st : Store W) (i : Instruction) (st' : Store W) : Prop
  /-- It assigns its outputs, in some state of the world. -/
  | assigns {w : W} {ys : List Literal} (hb : i.bindsAlias = false)
    (hw : i.writes = i.outputs.map (·, []))
    (h : ({ st with world := w } : Store W).assignAll i.outputs ys = some st')
  /-- It binds its output to a part of a container, as its alias fact says. -/
  | binds {a : Alias} {c : Cell} {path : List Selector} (ho : i.outputs = [a.child])
    (hb : i.bindsAlias = true) (ha : ∀ as, i.aliases = .ok as → a ∈ as)
    (hc : st.places a.parent.name = some c) (hm : List.Forall₂ Step.Matches a.path path)
    (hne : path ≠ []) (h : st.bind a.child.name (c.extend path) = some st')
  /-- It fills a cell inside a container. -/
  | fills {container : Var} {steps : List Step} {c : Cell} {path : List Selector} {l : Literal}
    (ho : i.outputs = []) (hw : i.writes = [(container, steps)]) (hne : path ≠ [])
    (hc : st.places container.name = some c) (hm : List.Forall₂ Step.Matches steps path)
    (h : st' = st.put (c.extend path) l)

theorem Store.field?_eq_some {st : Store W} {record : String} {path : List String} {c : Cell} :
    st.field? record path = some c
      ↔ path ≠ [] ∧ ∃ c₀, st.places record = some c₀ ∧ c = c₀.extend (fieldSelectors path) := by
  unfold Store.field?
  split
  · rename_i h
    simp [h]
  · rename_i h
    rw [Option.map_eq_some_iff]
    simp [h, eq_comm]

theorem Store.element?_eq_some {st : Store W} {arr : String} {ix : String ⊕ Literal} {c : Cell} :
    st.element? arr ix = some c
      ↔ ∃ c₀ l, st.places arr = some c₀ ∧ st.get ix = some l ∧ c = c₀.extend [.element l] := by
  unfold Store.element?
  rw [Option.bind_eq_some_iff]
  constructor
  · rintro ⟨c₀, hc₀, h⟩
    obtain ⟨l, hl, rfl⟩ := Option.map_eq_some_iff.1 h
    exact ⟨c₀, l, hc₀, hl, rfl⟩
  · rintro ⟨c₀, l, hc₀, hl, rfl⟩
    exact ⟨c₀, hc₀, by rw [hl]; rfl⟩

theorem fieldSelectors_ne_nil {path : List String} (h : path ≠ []) : fieldSelectors path ≠ [] := by
  simpa [fieldSelectors] using h

/-- An assigned variable is the only output. -/
theorem change_of_assign {st st' : Store W} {dst : Var} {l : Literal}
    (ho : i.outputs = [dst]) (hb : i.bindsAlias = false) (hw : i.writes = i.outputs.map (·, []))
    (h : st.assign dst.name l = some st') : Change st i st' := by
  obtain ⟨c, hc, rfl⟩ := Store.assign_eq_some.1 h
  have hall : ({ st with world := st.world } : Store W).assignAll i.outputs [l]
      = some (st.put c l) := by
    rw [ho]
    exact Store.assignAll_cons_eq_some.2 ⟨c, hc, rfl⟩
  exact .assigns hb hw hall

theorem change_of_exec {mach : Machine W} {st st' : Store W}
    (h : i.exec mach st = some st') : Change st i st' := by
  cases i with
  | storeScalar dst src =>
    obtain ⟨l, -, h⟩ := Option.bind_eq_some_iff.1 h
    exact change_of_assign rfl rfl rfl h
  | loadScalar dst src =>
    obtain ⟨l, -, h⟩ := Option.bind_eq_some_iff.1 h
    exact change_of_assign rfl rfl rfl h
  | storeRef dst src => cases h
  | loadRef dst src => cases h
  | compute timing op dst inputs =>
    obtain ⟨l, -, h⟩ := Option.bind_eq_some_iff.1 h
    exact change_of_assign rfl rfl rfl h
  | call timing function outputs inputs =>
    obtain ⟨xs, -, h⟩ := Option.bind_eq_some_iff.1 h
    obtain ⟨⟨ys, w⟩, -, h⟩ := Option.bind_eq_some_iff.1 h
    exact .assigns rfl rfl h
  | readField access dst record path =>
    obtain ⟨c, hc, h⟩ := Option.bind_eq_some_iff.1 h
    obtain ⟨hpath, c₀, hc₀, rfl⟩ := Store.field?_eq_some.1 hc
    cases access with
    | bind =>
      refine .binds (a := ⟨record, fieldSteps path, .bind, dst⟩) rfl rfl ?_ hc₀
        (AliasMap.forall₂_fieldSteps path) (fieldSelectors_ne_nil hpath) h
      intro as has
      simp only [Instruction.aliases, Alias.ofStruct?, Bind.bind, Except.bind] at has
      cases hf : Alias.fieldIsRef record path with
      | error e =>
        rw [hf] at has
        cases has
      | ok isRef =>
        rw [hf] at has
        cases has
        simp
    | retrieve =>
      obtain ⟨l, -, h⟩ := Option.bind_eq_some_iff.1 h
      exact change_of_assign rfl rfl rfl h
    | copy => cases h
  | writeField record path src =>
    obtain ⟨c, hc, h⟩ := Option.bind_eq_some_iff.1 h
    obtain ⟨hpath, c₀, hc₀, rfl⟩ := Store.field?_eq_some.1 hc
    obtain ⟨l, -, rfl⟩ := Option.map_eq_some_iff.1 h
    exact .fills rfl rfl (fieldSelectors_ne_nil hpath) hc₀ (AliasMap.forall₂_fieldSteps path) rfl
  | readElement access dst arr ix =>
    obtain ⟨c, hc, h⟩ := Option.bind_eq_some_iff.1 h
    obtain ⟨c₀, l, hc₀, -, rfl⟩ := Store.element?_eq_some.1 hc
    have hm : List.Forall₂ Step.Matches [.unknown] [.element l] := .cons trivial .nil
    cases access with
    | bind =>
      refine .binds (a := ⟨arr, [.unknown], .bind, dst⟩) rfl rfl ?_ hc₀ hm (by simp) h
      intro as has
      obtain rfl := Except.ok.inj has
      simp [Alias.ofArray?]
    | retrieve =>
      obtain ⟨l, -, h⟩ := Option.bind_eq_some_iff.1 h
      exact change_of_assign rfl rfl rfl h
    | copy => cases h
  | writeElement arr ix src =>
    obtain ⟨c, hc, h⟩ := Option.bind_eq_some_iff.1 h
    obtain ⟨c₀, l, hc₀, -, rfl⟩ := Store.element?_eq_some.1 hc
    obtain ⟨l', -, rfl⟩ := Option.map_eq_some_iff.1 h
    exact .fills rfl rfl (by simp) hc₀ (.cons trivial .nil) rfl

/-! ## What a change leaves alone -/

section Assign

variable {m : AliasMap}

theorem written?_of_part (m : AliasMap) {v : Var} (hv : v.alloc = .part) :
    m.written? v [] = some (m.locate v.name) := by
  unfold AliasMap.written? AliasMap.isStable
  simp [hv, AliasMap.location, AliasMap.locate, Location.extend]

/-- Assigning a variable that holds nothing yet, or a part of another one. -/
theorem frame_put {st : Store W} (hp : Placed m own st) {v : Var}
    (hv : own v.name ↔ v.alloc ≠ .part) {c : Cell} (hc : st.places v.name = some c)
    (hnone : own v.name → st.contents (.own v.name) = none) (l : Literal) :
    Frame m (fun _ => True) (Numbering.writtenBy m [(v, [])]) st (st.put c l) := by
  by_cases hown : own v.name
  · obtain rfl : Cell.own v.name = c := Option.some.inj ((hp.self _ hown).symm.trans hc)
    refine ⟨fun _ _ _ h => h, fun n _ l' hl' => ?_, fun c' hc' l' hl' => ?_⟩
    · rw [Store.contents_put, if_neg, hl']
      intro heq
      rw [heq, hnone hown] at hl'
      cases hl'
    · rw [Store.contents_put, if_neg] at hl'
      · exact .inl hl'
      · rintro rfl
        exact hc' rfl
  · have hpart : v.alloc = .part := Decidable.not_not.1 fun h => hown (hv.2 h)
    have hne := hp.inner _ c hown hc
    refine ⟨fun _ _ _ h => h, fun n _ l' hl' => ?_, fun c' _ l' hl' => ?_⟩
    · rw [Store.contents_put, if_neg, hl']
      rintro rfl
      exact hne rfl
    · rw [Store.contents_put] at hl'
      split at hl'
      · rename_i heq
        refine .inr ⟨m.locate v.name, ?_, heq ▸ hp.covered _ c hc⟩
        simp [Numbering.writtenBy, written?_of_part m hpart]
      · exact .inl hl'

/-- **What assigning several variables does.** -/
structure Assigned (m : AliasMap) (own : String → Prop) (vars : List Var) (ys : List Literal)
    (st st' : Store W) : Prop where
  places : st'.places = st.places
  world : st'.world = st.world
  frame : Frame m (fun _ => True) (Numbering.writtenBy m (vars.map (·, []))) st st'
  /-- Only variables that were assigned hold something that they did not hold before. -/
  new : ∀ n, (st'.contents (.own n)).isSome = true →
    (st.contents (.own n)).isSome = true ∨ ∃ v ∈ vars, v.name = n ∧ own n
  values : List.Forall₂ (fun v l => own v.name → st'.value v.name = some l) vars ys

theorem assigned_of_assignAll {vars : List Var} {ys : List Literal} {st st' : Store W}
    (hp : Placed m own st) (hvars : ∀ v ∈ vars, own v.name ↔ v.alloc ≠ .part)
    (hnone : ∀ v ∈ vars, own v.name → st.contents (.own v.name) = none)
    (hapart : vars.Pairwise fun v w => own v.name → v.name ≠ w.name)
    (h : st.assignAll vars ys = some st') : Assigned m own vars ys st st' := by
  induction vars generalizing st ys with
  | nil =>
    cases ys with
    | nil =>
      obtain rfl := Option.some.inj h
      exact ⟨rfl, rfl, .refl st, fun n hn => .inl hn, .nil⟩
    | cons l ys => simp [Store.assignAll] at h
  | cons v vars ih =>
    cases ys with
    | nil => simp [Store.assignAll] at h
    | cons l ys =>
      obtain ⟨hv, hvars⟩ := List.forall_mem_cons.1 hvars
      obtain ⟨hnone, hnones⟩ := List.forall_mem_cons.1 hnone
      obtain ⟨hfirst, hapart⟩ := List.pairwise_cons.1 hapart
      obtain ⟨c, hc, h⟩ := Store.assignAll_cons_eq_some.1 h
      have hframe := frame_put hp hv hc hnone l
      -- what the first assignment fills is not a cell of one of the later variables
      have hcell : ∀ w ∈ vars, own w.name → Cell.own w.name ≠ c := by
        intro w hw hown heq
        by_cases hown' : own v.name
        · have hcv : Cell.own v.name = c := Option.some.inj ((hp.self _ hown').symm.trans hc)
          exact hfirst w hw hown' (Cell.mk.inj (hcv.trans heq.symm)).1
        · exact hp.inner _ c hown' hc (heq ▸ rfl)
      have hp' : Placed m own (st.put c l) := hp.of_places rfl
      have hnones' : ∀ w ∈ vars, own w.name → (st.put c l).contents (.own w.name) = none := by
        intro w hw hown
        rw [Store.contents_put, if_neg (hcell w hw hown)]
        exact hnones w hw hown
      have hrest := ih hp' hvars hnones' hapart h
      refine ⟨hrest.places, hrest.world, ?_, fun n hn => ?_, .cons (fun hown => ?_) hrest.values⟩
      · have := hframe.trans hrest.frame
        unfold Numbering.writtenBy at this ⊢
        rw [List.map_cons, List.filterMap_cons]
        rwa [← List.filterMap_append, List.singleton_append, List.filterMap_cons] at this
      · rcases hrest.new n hn with hn | ⟨w, hw, hname, hown⟩
        · rw [Store.contents_put] at hn
          split at hn
          · rename_i heq
            by_cases hown : own v.name
            · have hcv : Cell.own v.name = c := Option.some.inj ((hp.self _ hown).symm.trans hc)
              have hname : v.name = n := (Cell.mk.inj (hcv.trans heq.symm)).1
              exact .inr ⟨v, List.mem_cons_self, hname, hname ▸ hown⟩
            · exact absurd (heq ▸ rfl) (hp.inner _ c hown hc)
          · exact .inl hn
        · exact .inr ⟨w, List.mem_cons_of_mem _ hw, hname, hown⟩
      · have hcv : Cell.own v.name = c := Option.some.inj ((hp.self _ hown).symm.trans hc)
        unfold Store.value
        rw [hrest.places, Store.places_put, hp.self _ hown, Option.bind_some]
        refine hrest.frame.kept _ trivial l ?_
        rw [Store.contents_put, if_pos hcv]

end Assign

/-- The outputs that an instruction assigns are told apart by their names. -/
theorem pairwise_outputs (hb : i.bindsAlias = false)
    (hout : ∀ v ∈ i.outputs, own v.name ↔ v.alloc ≠ .part)
    (hnodup : (i.assigned.map (·.name)).Nodup) :
    i.outputs.Pairwise fun v w => own v.name → v.name ≠ w.name := by
  have hassigned : i.assigned = i.outputs.filter (·.alloc ≠ .part) := by
    unfold Instruction.assigned
    rw [hb]
    rfl
  rw [hassigned] at hnodup
  have hpair : i.outputs.Pairwise fun v w =>
      v.alloc ≠ .part → w.alloc ≠ .part → v.name ≠ w.name := by
    have := List.pairwise_filter.1 (List.pairwise_map.1 hnodup)
    refine this.imp fun h hv hw => h (by simpa using hv) (by simpa using hw)
  refine hpair.imp_of_mem fun hv hw h hown heq => ?_
  exact h ((hout _ hv).1 hown) ((hout _ hw).1 (heq ▸ hown)) heq

/-- **The instruction can be executed safely**: the variables that it assigns
are told apart and hold nothing yet. -/
structure Ready (m : AliasMap) (own : String → Prop) (i : Instruction) (st : Store W) : Prop where
  placed : Placed m own st
  outputs : ∀ v ∈ i.outputs, own v.name ↔ v.alloc ≠ .part
  unassigned : ∀ v ∈ i.assigned, st.contents (.own v.name) = none
  nodup : (i.assigned.map (·.name)).Nodup

section Ready

variable {m : AliasMap} {st st' : Store W}

theorem Ready.mem_assigned (hr : Ready m own i st) (hb : i.bindsAlias = false) {v : Var}
    (hv : v ∈ i.outputs) (hown : own v.name) : v ∈ i.assigned := by
  refine Instruction.mem_assigned.2 ⟨?_, (hr.outputs v hv).1 hown⟩
  unfold Instruction.results
  rw [hb]
  exact hv

/-- What can be executed safely does not depend on the operands that may be
replaced. -/
theorem Ready.mapOperands (hr : Ready m own i st) (f : Role → Operand → Operand) :
    Ready m own (i.mapOperands f) st := by
  refine ⟨hr.placed, ?_, ?_, ?_⟩
  · rw [Instruction.outputs_mapOperands]
    exact hr.outputs
  · rw [Instruction.assigned_mapOperands]
    exact hr.unassigned
  · rw [Instruction.assigned_mapOperands]
    exact hr.nodup

theorem Ready.assignAll (hr : Ready m own i st) (hb : i.bindsAlias = false) {w : W}
    {ys : List Literal} (h : ({ st with world := w } : Store W).assignAll i.outputs ys = some st') :
    Assigned m own i.outputs ys { st with world := w } st' := by
  have hplaced : Placed m own { st with world := w } := hr.placed.of_places rfl
  exact assigned_of_assignAll hplaced hr.outputs
    (fun v hv hown => hr.unassigned v (hr.mem_assigned hb hv hown))
    (pairwise_outputs hb hr.outputs hr.nodup) h

end Ready

/-- **What executing an instruction leaves alone.** -/
structure Executed (m : AliasMap) (own : String → Prop) (i : Instruction) (st st' : Store W) :
    Prop where
  placed : Placed m own st'
  frame : Frame m (fun _ => True) (Numbering.writtenBy m i.writes) st st'
  new : ∀ n, (st'.contents (.own n)).isSome = true →
    (st.contents (.own n)).isSome = true ∨ ∃ v ∈ i.assigned, v.name = n

theorem Executed.mapOperands {m : AliasMap}
    {st st' : Store W} (he : Executed m own i st st') (f : Role → Operand → Operand) :
    Executed m own (i.mapOperands f) st st' := by
  refine ⟨he.placed, ?_, ?_⟩
  · rw [Instruction.writes_mapOperands]
    exact he.frame
  · rw [Instruction.assigned_mapOperands]
    exact he.new

theorem Change.executed {m : AliasMap} {st st' : Store W}
    (h : Change st i st') (hr : Ready m own i st) (hu : AliasMap.OneParent m.facts)
    (hchild : ∀ a ∈ m.facts, ¬ own a.child.name)
    (hfacts : ∃ as, i.aliases = .ok as ∧ as ⊆ m.facts) : Executed m own i st st' := by
  have hp := hr.placed
  cases h with
  | @assigns w ys hb hw h =>
    have hall := hr.assignAll hb h
    refine ⟨hp.of_places hall.places, ?_, fun n hn => ?_⟩
    · rw [hw]
      exact ⟨hall.frame.places, hall.frame.kept, hall.frame.inner⟩
    · rcases hall.new n hn with hn | ⟨v, hv, hname, hown⟩
      · exact .inl hn
      · exact .inr ⟨v, hr.mem_assigned hb hv (hname ▸ hown), hname⟩
  | @binds a c path ho hb ha hc hm hne h =>
    obtain ⟨as, has, hsub⟩ := hfacts
    have hmem : a ∈ m.facts := hsub (ha as has)
    refine ⟨hp.bind hu hmem (hchild a hmem) hc hm hne h, ?_, ?_⟩
    · obtain ⟨hnone', rfl⟩ := Store.bind_eq_some.1 h
      refine ⟨fun n _ c' hc' => ?_, fun _ _ _ h => h, fun _ _ _ h => .inl h⟩
      simp only
      split
      · rename_i heq
        rw [heq, hnone'] at hc'
        cases hc'
      · exact hc'
    · obtain ⟨-, rfl⟩ := Store.bind_eq_some.1 h
      exact fun n hn => .inl hn
  | @fills container steps c path l ho hw hne hc hm h =>
    subst h
    have hpath : (c.extend path).path ≠ [] := by simp [hne]
    have hsteps : steps ≠ [] := by
      rintro rfl
      cases hm
      exact hne rfl
    refine ⟨hp.of_places rfl, ⟨fun _ _ _ h => h, fun n _ l' hl' => ?_, fun c' _ l' hl' => ?_⟩,
      fun n hn => ?_⟩
    · rw [Store.contents_put, if_neg, hl']
      intro heq
      rw [← heq] at hpath
      exact hpath rfl
    · rw [Store.contents_put] at hl'
      split at hl'
      · rename_i heq
        refine .inr ⟨(m.locate container.name).extend steps,
          ?_, heq ▸ (hp.covered _ c hc).extend hm⟩
        rw [hw]
        simp [Numbering.writtenBy, AliasMap.written?, hsteps, AliasMap.location, AliasMap.locate]
      · exact .inl hl'
    · rw [Store.contents_put, if_neg] at hn
      · exact .inl hn
      · intro heq
        rw [← heq] at hpath
        exact hpath rfl

end ValueFlow
