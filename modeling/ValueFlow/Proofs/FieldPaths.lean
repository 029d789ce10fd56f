import ValueFlow.Proofs.FirstFaults
import ValueFlow.Proofs.SettledCleanups

/-!
# Field paths of accepted functions

A path into a record is followed where a field is taken out of it, since the
facts about aliases need the type at its end. So a function with such a path
that leads nowhere is refused, wherever in its tree the path stands, and the
fault is that of the first one (`Numbering.readPaths_checked`).

A path that is stored through is only compared with other paths. It is never
followed: functions that differ in nothing but these paths (`Function.pathless`)
are accepted alike, and a store into a field that does not exist goes through
(`Numbering.storePath_unchecked`).

Following a path can be divided anywhere (`Ty.fieldAt_compose`), so a part of a
part is checked like the part at the whole path.
-/

namespace ValueFlow

/-! ## Following paths -/

/-- The first of the fields with this name has this type. -/
inductive Fields.First : Fields → String → Ty → Prop
  | here {name : String} {ty : Ty} {rest : Fields} : First (.cons name ty rest) name ty
  | later {name other : String} {ty ty' : Ty} {rest : Fields}
      (hne : other ≠ name) (h : First rest name ty) :
    First (.cons other ty' rest) name ty

theorem Fields.get?_eq_some_iff {name : String} {ty : Ty} : ∀ {fields : Fields},
    fields.get? name = some ty ↔ fields.First name ty
  | .nil => by
    constructor <;> rintro ⟨⟩
  | .cons other ty' rest => by
    rw [get?]
    by_cases hname : other = name
    · subst hname
      rw [if_pos rfl]
      refine ⟨fun h => Option.some.inj h ▸ .here, fun h => ?_⟩
      cases h with
      | here => rfl
      | later hne _ => exact absurd rfl hne
    · rw [if_neg hname, get?_eq_some_iff]
      refine ⟨.later hname, fun h => ?_⟩
      cases h with
      | here => exact absurd rfl hname
      | later _ h => exact h

namespace Ty

/-- **The type has this field**: it is a record or a reference to one. -/
inductive HasField : Ty → String → Ty → Prop
  | struct {owner name : String} {fields : Fields} {ty : Ty} (h : fields.First name ty) :
    HasField (.struct owner fields) name ty
  | ref {owner name : String} {fields : Fields} {ty : Ty} (h : fields.First name ty) :
    HasField (.ref (.struct owner fields)) name ty

/-- **The path leads from one type to another**, a field at a time. -/
inductive LeadsTo : Ty → List String → Ty → Prop
  | one {t u : Ty} {name : String} (h : t.HasField name u) : LeadsTo t [name] u
  | step {t s u : Ty} {name : String} {path : List String}
      (h : t.HasField name s) (hrest : LeadsTo s path u) :
    LeadsTo t (name :: path) u

variable {t u : Ty} {p q : List String} {name : String}

theorem field_eq_ok_iff : t.field name = .ok u ↔ t.HasField name u := by
  have hrecord : ∀ {t : Ty} {owner : String} {fields : Fields}, t.record = .ok (owner, fields) →
      (t.field name = .ok u ↔ fields.First name u) := by
    intro t owner fields h
    rw [← Fields.get?_eq_some_iff]
    simp only [field, h, bind, Except.bind]
    cases fields.get? name <;> simp
  constructor
  · intro h
    cases t with
    | struct owner fields => exact .struct ((hrecord rfl).1 h)
    | ref t =>
      cases t with
      | struct owner fields => exact .ref ((hrecord rfl).1 h)
      | _ => cases h
    | _ => cases h
  · rintro (h | h)
    · exact (hrecord rfl).2 h
    · exact (hrecord rfl).2 h

theorem fieldAt_of_ne_nil (h : p ≠ []) (t : Ty) : t.fieldAt p = p.foldlM field t := by
  cases p with
  | nil => exact absurd rfl h
  | cons name p => rfl

/-- **Following a path in two parts** is following it as a whole, faults
included. -/
theorem fieldAt_append (hp : p ≠ []) (hq : q ≠ []) (t : Ty) :
    t.fieldAt (p ++ q) = t.fieldAt p >>= (·.fieldAt q) := by
  rw [fieldAt_of_ne_nil (List.append_ne_nil_of_left_ne_nil hp q),
    fieldAt_of_ne_nil hp, List.foldlM_append]
  exact congrArg (_ >>= ·) (funext fun s => (fieldAt_of_ne_nil hq s).symm)

theorem fieldAt_append_eq_ok (hp : p ≠ []) (hq : q ≠ []) :
    t.fieldAt (p ++ q) = .ok u ↔ ∃ s, t.fieldAt p = .ok s ∧ s.fieldAt q = .ok u := by
  rw [fieldAt_append hp hq]
  cases t.fieldAt p <;> simp [bind, Except.bind]

theorem fieldAt_singleton (t : Ty) (name : String) : t.fieldAt [name] = t.field name := by
  rw [fieldAt_of_ne_nil (List.cons_ne_nil _ _), List.foldlM_cons]
  cases t.field name <;> rfl

/-- **A path is followed through records and references to them**, by the first
field with each name. -/
theorem fieldAt_eq_ok_iff (hp : p ≠ []) : t.fieldAt p = .ok u ↔ t.LeadsTo p u := by
  induction p generalizing t with
  | nil => exact absurd rfl hp
  | cons name p ih =>
    cases p with
    | nil =>
      rw [fieldAt_singleton, field_eq_ok_iff]
      refine ⟨.one, fun h => ?_⟩
      cases h with
      | one h => exact h
      | step _ hrest => cases hrest
    | cons name' p =>
      have hrest : name' :: p ≠ [] := List.cons_ne_nil _ _
      rw [← List.singleton_append, fieldAt_append_eq_ok (List.cons_ne_nil _ _) hrest]
      simp only [fieldAt_singleton, field_eq_ok_iff, ih hrest]
      refine ⟨fun ⟨s, h, hs⟩ => .step h hs, fun h => ?_⟩
      cases h with
      | step h hs => exact ⟨_, h, hs⟩

/-- **Field paths compose**, and a path leads through records and single
references to them, by the first field with each name. So a part of a part has
the type that the whole path leads to from the root, and stands at the whole
path there. -/
theorem fieldAt_compose (t u : Ty) (p q : List String) (hp : p ≠ []) (hq : q ≠ []) :
    (t.fieldAt (p ++ q) = .ok u ↔ ∃ s, t.fieldAt p = .ok s ∧ s.fieldAt q = .ok u)
    ∧ (t.fieldAt p = .ok u ↔ t.LeadsTo p u)
    ∧ ∀ (m : AliasMap) (record part : Var), record.ty = t → t.fieldAt p = .ok part.ty →
      part.ty.fieldAt q = record.ty.fieldAt (p ++ q)
        ∧ ((m.location record).extend (fieldSteps p)).extend (fieldSteps q)
          = (m.location record).extend (fieldSteps (p ++ q)) := by
  refine ⟨fieldAt_append_eq_ok hp hq, fieldAt_eq_ok_iff hp, fun m record part ht hpart => ⟨?_, ?_⟩⟩
  · rw [ht, fieldAt_append hp hq, hpart]
    rfl
  · simp [Location.extend, fieldSteps]

/-- A line that refers to its start, a point with two fields of one name. -/
theorem fieldAt_compose_line :
    let point : Ty := .struct "point" (.cons "x" (.future .int) (.cons "x" (.future .string) .nil))
    let line : Ty := .struct "line" (.cons "start" (.ref point) .nil)
    line.fieldAt ["start"] = .ok (.ref point) ∧ line.LeadsTo ["start"] (.ref point)
      ∧ line.fieldAt ["start", "x"] = .ok (.future .int) := by
  intro point line
  have hstart : line.fieldAt ["start"] = .ok (.ref point) := rfl
  refine ⟨hstart, (fieldAt_compose line _ ["start"] ["x"] (by simp) (by simp)).2.1.1 hstart, ?_⟩
  exact (fieldAt_compose line _ ["start"] ["x"] (by simp) (by simp)).1.2 ⟨_, hstart, rfl⟩

end Ty

/-! ## Paths in instructions -/

namespace Instruction

/-- The record that the instruction takes a field out of or stores into, with
the path of the field. -/
def field? : Instruction → Option (Var × List String)
  | readField _ _ record path => some (record, path)
  | writeField record path _ => some (record, path)
  | _ => none

/-- The instruction stores into a field. -/
def storesField : Instruction → Bool
  | writeField .. => true
  | _ => false

/-- **The field that the instruction names exists**: the type of the record has
one at the end of the path. -/
def NamesField (i : Instruction) : Prop :=
  ∀ record path, i.field? = some (record, path) → ∃ ty, record.ty.fieldAt path = .ok ty

/-- The instruction without the path that it stores through. -/
def pathless : Instruction → Instruction
  | writeField record _ src => writeField record [] src
  | i => i

variable {foreign : Foreign} {i : Instruction}

/-- A path is faulty if it is followed and leads nowhere. -/
theorem badPath?_eq_none : i.badPath? = none ↔ (i.storesField = false → i.NamesField) := by
  cases i with
  | readField access dst record path =>
    unfold badPath? NamesField
    cases h : record.ty.fieldAt path <;> simp [storesField, field?, h]
  | _ => simp [badPath?, storesField, NamesField, field?]

theorem badPath?_pathless (i : Instruction) : i.pathless.badPath? = i.badPath? := by cases i <;> rfl

theorem assigns_pathless (i : Instruction) : i.pathless.assigns = i.assigns := by cases i <;> rfl

theorem fault?_pathless (function : String) (p : Point) (i : Instruction) :
    i.pathless.fault? function foreign p = i.fault? function foreign p := by cases i <;> rfl

theorem field?_mapOperands (g : Role → Operand → Operand) (i : Instruction) :
    (i.mapOperands g).field? = i.field? ∧ (i.mapOperands g).storesField = i.storesField := by
  cases i <;> exact ⟨rfl, rfl⟩

end Instruction

/-! ## Paths that are stored through -/

/-- The rewriting that takes away the paths of stores. -/
abbrev takesPaths : Rewrite := fun _ i => some i.pathless

/-- The function without the paths that it stores through. -/
def Function.pathless (f : Function) : Function :=
  { f with block := f.block.filterMap takesPaths 0 }

section Pathless

mutual
theorem Block.assigns_pathless (own : List String) (n : Nat) : ∀ b : Block,
    (b.filterMap takesPaths n).assigns own = b.assigns own
  | .mk vars body => by rw [Block.filterMap, Block.assigns, Block.assigns, body.assigns_pathless]
theorem Body.assigns_pathless (block n : Nat) :
    ∀ b : Body, (b.filterMap takesPaths block n).assigns = b.assigns
  | .done => by rw [Body.filterMap]
  | .instr i rest => by
    rw [Body.filterMap, Body.assigns, Body.assigns, rest.assigns_pathless, i.assigns_pathless]
  | .cont c rest => by
    rw [Body.filterMap, Body.assigns, Body.assigns, c.assigns_pathless, rest.assigns_pathless]
theorem Continuation.assigns_pathless (n : Nat) :
    ∀ c : Continuation, (c.filterMap takesPaths n).assigns = c.assigns
  | .ifElse _ t e => by
    rw [Continuation.filterMap, Continuation.assigns, Continuation.assigns,
      t.assigns_pathless, e.assigns_pathless]
  | .switch _ arms => by
    rw [Continuation.filterMap, Continuation.assigns, Continuation.assigns, arms.assigns_pathless]
  | .deferred _ b => by
    rw [Continuation.filterMap, Continuation.assigns, Continuation.assigns, b.assigns_pathless]
  | .nested b => by
    rw [Continuation.filterMap, Continuation.assigns, Continuation.assigns, b.assigns_pathless]
theorem Arms.assigns_pathless (n : Nat) :
    ∀ arms : Arms, (arms.filterMap takesPaths n).assigns = arms.assigns
  | .none => by rw [Arms.filterMap]
  | .default b => by rw [Arms.filterMap, Arms.assigns, Arms.assigns, b.assigns_pathless]
  | .case _ b rest => by
    rw [Arms.filterMap, Arms.assigns, Arms.assigns, b.assigns_pathless, rest.assigns_pathless]
end

variable {function : String} {foreign : Foreign}

mutual
/-- The faults of names do not depend on the paths of stores. -/
theorem Block.fault?_pathless (n : Nat) (p : Point) : ∀ b : Block,
    (b.filterMap takesPaths n).fault? function foreign p = b.fault? function foreign p
  | .mk vars body => by rw [Block.filterMap, Block.fault?, Block.fault?, body.fault?_pathless]
theorem Body.fault?_pathless (block n : Nat) (p : Point) : ∀ b : Body,
    (b.filterMap takesPaths block n).fault? function foreign p = b.fault? function foreign p
  | .done => by rw [Body.filterMap]
  | .instr i rest => by
    rw [Body.filterMap, Body.fault?, Body.fault?, rest.fault?_pathless,
      i.assigns_pathless, i.fault?_pathless]
  | .cont c rest => by
    rw [Body.filterMap, Body.fault?, Body.fault?, c.fault?_pathless,
      c.assigns_pathless, rest.fault?_pathless]
theorem Continuation.fault?_pathless (n : Nat) (p : Point) : ∀ c : Continuation,
    (c.filterMap takesPaths n).fault? function foreign p = c.fault? function foreign p
  | .ifElse _ t e => by
    rw [Continuation.filterMap, Continuation.fault?, Continuation.fault?,
      t.fault?_pathless, e.fault?_pathless]
    rfl
  | .switch _ arms => by
    rw [Continuation.filterMap, Continuation.fault?, Continuation.fault?, arms.fault?_pathless]
    rfl
  | .deferred _ b => by
    rw [Continuation.filterMap, Continuation.fault?, Continuation.fault?, b.fault?_pathless]
    rfl
  | .nested b => by
    rw [Continuation.filterMap, Continuation.fault?, Continuation.fault?, b.fault?_pathless]
    rfl
theorem Arms.fault?_pathless (n : Nat) (p : Point) : ∀ arms : Arms,
    (arms.filterMap takesPaths n).fault? function foreign p = arms.fault? function foreign p
  | .none => by rw [Arms.filterMap]
  | .default b => by rw [Arms.filterMap, Arms.fault?, Arms.fault?, b.fault?_pathless]
  | .case _ b rest => by
    rw [Arms.filterMap, Arms.fault?, Arms.fault?, b.fault?_pathless, rest.fault?_pathless]
end

/-- The first path that is followed and leads nowhere is the same without the
paths of stores. -/
theorem Block.badPath?_pathless (n : Nat) (b : Block) :
    (b.filterMap takesPaths n).badPath? = b.badPath? := by
  have hmap : (b.filterMap takesPaths n).instructions
      = b.instructions.map Instruction.pathless := by
    rw [← Block.map_snd_numbered n, Block.numbered_filterMap,
      List.map_filterMap, ← b.map_snd_numbered n,
      List.map_map, ← List.filterMap_eq_map]
    rfl
  rw [Block.badPath?, Block.badPath?, hmap, List.findSome?_map]
  exact congrArg (b.instructions.findSome? ·) (funext Instruction.badPath?_pathless)

/-- **Paths that are stored through are never checked.** -/
theorem Function.fault?_pathless (f : Function) : f.pathless.fault? foreign = f.fault? foreign := by
  rw [Function.fault?_eq_firstFault?, Function.fault?_eq_firstFault?,
    Function.firstFault?, Function.firstFault?]
  show (f.block.filterMap takesPaths 0).badPath?.or ((Point.assignedTwice? ⟨[], []⟩ f.inputs).or
    ((f.block.filterMap takesPaths 0).fault? f.name foreign f.point)) = _
  rw [Block.badPath?_pathless, Block.fault?_pathless]

end Pathless

namespace Numbering

section Paths

variable {settings : Settings} {foreign : Foreign} {globals : Constants} {f : Function}

/-- **A function with a faulty path is refused** before anything is done to it. -/
theorem run_of_badPath? {e : Fault} (h : f.block.badPath? = some e) :
    run settings foreign globals f = ⟨f, [], .error e⟩ := by
  rw [Block.badPath?, ← f.block.faultOf?_aliases] at h
  have haliases : f.block.aliases = .error e := by
    cases ha : f.block.aliases with
    | error e' => rw [← Option.some.inj ((congrArg faultOf? ha).symm.trans h)]
    | ok as => cases (congrArg faultOf? ha).symm.trans h
  unfold run contextOf
  rw [haliases]
  rfl

/-- The paths that an accepted function follows lead to fields. -/
theorem namesField_of_run (h : ∃ r, (run settings foreign globals f).result = .ok r) :
    ∀ i ∈ f.block.instructions, i.storesField = false → i.NamesField := by
  intro i hi
  refine Instruction.badPath?_eq_none.1 (List.findSome?_eq_none_iff.1 ?_ i hi)
  have hfault := run_ok_iff.1 h
  rw [Function.fault?_eq_firstFault?] at hfault
  exact (Option.or_eq_none_iff.1 hfault).1

/-- **A run makes no field accesses**: those of the numbered function were there
before. -/
theorem field?_run (h : ∃ r, (run settings foreign globals f).result = .ok r) :
    ∀ j ∈ (run settings foreign globals f).function.block.instructions, j.field? ≠ none →
      ∃ i ∈ f.block.instructions, i.field? = j.field? ∧ i.storesField = j.storesField := by
  obtain ⟨⟨stats, created⟩, h⟩ := h
  obtain ⟨ctx, facts, -, -, hfault, -, hfunction⟩ := run_eq_ok h
  let s := opened globals f facts
  have hwalk : ∀ j ∈ (visitBlock ctx f.block s).tree.instructions, j.field? ≠ none →
      ∃ i ∈ f.block.instructions, i.field? = j.field? ∧ i.storesField = j.storesField := by
    intro j hj hfield
    obtain ⟨i, hi, rfl⟩ := exists_site hfault hj
    refine ⟨i.instruction, mem_instructions_of_site hfault hi, ?_⟩
    unfold Site.walked at hfield ⊢
    rcases visitInstruction_tree (fault_of_site hfault hi) with htree | ⟨dst, l, -, htree⟩
    · rw [htree]
      obtain ⟨hsame, hstores⟩ := i.instruction.field?_mapOperands (replace i.before.facts)
      exact ⟨hsame.symm, hstores.symm⟩
    · rw [htree] at hfield
      exact absurd rfl hfield
  intro j hj hfield
  rw [hfunction] at hj
  -- what the cleanup puts in is a store of a scalar
  rcases mem_instructions_removeRedundant hj with hj | ⟨-, dst, a, -, rfl⟩
  · exact hwalk j hj hfield
  · exact absurd rfl hfield

/-- A run stops with the first fault of the function. -/
theorem faultOf?_run : faultOf? (run settings foreign globals f).result = f.fault? foreign := by
  have h := result_run settings foreign globals f
  cases hf : f.fault? foreign with
  | some e =>
    rw [hf] at h
    rw [h, faultOf?]
  | none =>
    rw [hf] at h
    obtain ⟨stats, created, h⟩ := h
    rw [h, faultOf?]

/-- **A path that is followed is checked.** In an accepted function, and in what
the run makes of it, every field that is taken out of a record exists. The first
path that leads nowhere, in the order of the text and at any depth, stops the
run with its fault, and the function stays as it is. The paths of stores have no
part in this: functions that differ in nothing else are accepted alike, and
refused with the same fault. -/
theorem readPaths_checked (settings : Settings) (foreign : Foreign) (globals : Constants)
    (f : Function) :
    let outcome := run settings foreign globals f
    ((∃ r, outcome.result = .ok r) → ∀ i ∈ f.block.instructions
      ++ outcome.function.block.instructions,
      i.storesField = false → i.NamesField)
    ∧ (∀ before i after record path reason, f.block.instructions = before ++ i :: after →
      (∀ j ∈ before, j.storesField = false → j.NamesField) →
      i.storesField = false → i.field? = some (record, path) →
      record.ty.fieldAt path = .error reason →
      outcome = ⟨f, [], .error (.badFieldPath record.name path reason)⟩)
    ∧ ∀ g : Function, g.pathless = f.pathless →
      faultOf? (run settings foreign globals g).result = faultOf? outcome.result := by
  refine ⟨fun h i hi hread => ?_, ?_, fun g hg => ?_⟩
  · rcases List.mem_append.1 hi with hi | hi
    · exact namesField_of_run h i hi hread
    · intro record path hfield
      obtain ⟨j, hj, hsame, hstores⟩ := field?_run h i hi (by simp [hfield])
      exact namesField_of_run h j hj (hstores.trans hread) record path (hsame.trans hfield)
  · intro before i after record path reason hinstructions hbefore hread hfield hreason
    refine run_of_badPath? ?_
    have hnone : before.findSome? (·.badPath?) = none :=
      List.findSome?_eq_none_iff.2 fun j hj => Instruction.badPath?_eq_none.2 (hbefore j hj)
    have hbad : i.badPath? = some (.badFieldPath record.name path reason) := by
      cases i with
      | readField access dst record' path' =>
        obtain ⟨rfl, rfl⟩ := Prod.mk.inj (Option.some.inj hfield)
        rw [Instruction.badPath?, hreason]
      | writeField record' path' src => cases hread
      | _ => cases hfield
    rw [Block.badPath?, hinstructions, List.findSome?_append, hnone, List.findSome?_cons, hbad]
    rfl
  · rw [faultOf?_run, faultOf?_run, ← g.fault?_pathless, hg, f.fault?_pathless]

end Paths

/-- A function that, in an arm of a conditional, stores into a field of a record
and then takes one out. The record has the field `x` only. -/
def accessesFields (stored read : List String) : Function where
  name := "f"
  inputs := [⟨"p", .struct "pt" (.cons "x" (.value .int) .nil), .stack, .inArg, .user⟩]
  outputs := [⟨"o", .future .int, .stack, .outArg, .user⟩]
  target := .control
  block :=
    let p : Var := ⟨"p", .struct "pt" (.cons "x" (.value .int) .nil), .stack, .inArg, .user⟩
    let o : Var := ⟨"o", .future .int, .stack, .outArg, .user⟩
    let v := Var.value "v" .int
    .mk [] (.cont (.ifElse (.lit (.bool true)) .empty (.mk [v] <|
      .instr (.writeField p stored (.lit (.int 5))) <| .instr (.readField .retrieve v p read) <|
      .instr (.storeScalar o (.var v)) .done)) .done)

/-- The path that is followed is checked, whatever is stored before it. -/
theorem readPaths_checked_accessesFields :
    let outcome := fun stored read => run {} .empty .empty (accessesFields stored read)
    (∃ r, (outcome ["y"] ["x"]).result = .ok r)
      ∧ (∀ i ∈ (outcome ["y"] ["x"]).function.block.instructions,
        i.storesField = false → i.NamesField)
      ∧ outcome ["x"] ["y"]
        = ⟨accessesFields ["x"] ["y"], [], .error (.badFieldPath "p" ["y"] (.noField "pt" "y"))⟩
      ∧ faultOf? (outcome ["x"] ["x"]).result = faultOf? (outcome ["y"] ["x"]).result := by
  have haccepted : ∃ r, (run {} .empty .empty (accessesFields ["y"] ["x"])).result = .ok r :=
    run_ok_iff.2 (by decide +kernel)
  obtain ⟨hchecked, -, hstores⟩ := readPaths_checked {} .empty .empty (accessesFields ["y"] ["x"])
  obtain ⟨-, hfault, -⟩ := readPaths_checked {} .empty .empty (accessesFields ["x"] ["y"])
  refine ⟨haccepted, fun i hi => hchecked haccepted i (List.mem_append_right _ hi),
    ?_, hstores _ rfl⟩
  refine hfault [.writeField _ ["x"] (.lit (.int 5))]
    (.readField .retrieve (.value "v" .int) _ ["y"]) _ _ _ _ rfl ?_
    rfl rfl rfl
  intro j hj hread
  obtain rfl := List.mem_singleton.1 hj
  cases hread

/-- **A store into a field that does not exist goes through.** -/
theorem storePath_unchecked :
    (∃ r, (run {} .empty .empty (accessesFields ["y"] ["x"])).result = .ok r)
      ∧ ∃ i ∈ (accessesFields ["y"] ["x"]).block.instructions, ¬ i.NamesField := by
  refine ⟨run_ok_iff.2 (by decide +kernel), _, List.mem_cons_self, fun h => ?_⟩
  obtain ⟨ty, hty⟩ := h _ _ rfl
  cases hty

end Numbering

end ValueFlow
