import Mathlib.Data.List.Forall2
import ValueFlow.Builtin.Fold
import ValueFlow.Program

/-!
# Executing functions

What a function means, told apart from what is known about it: a reference
evaluator that runs the statements of a function one after the other.

**Storage is a map from cells to literals.** A cell is a root variable and a
concrete path into it; a scalar is the cell at the empty path of its own
variable, a container is the cells below its root. Every variable denotes a
cell. For a variable with storage of its own that is its own root; a part of
another variable denotes nothing until it is bound, and from then on the cell
that it was bound to.

The evaluator is partial. It is stuck (`none`) on reading what was not assigned,
on binding a name twice, and on what has no sequential meaning here: references,
copies of parts, and deferred blocks. What the operations and foreign functions
compute is given by a `Machine`, of which only the laws that a registry of
functions promises are assumed (`Machine.Obeys`).
-/

namespace ValueFlow

/-- A list of answers has an answer to each of the questions. -/
theorem mapM_eq_some {α β : Type} {f : α → Option β} {xs : List α} {ys : List β} :
    xs.mapM f = some ys ↔ List.Forall₂ (fun x y => f x = some y) xs ys := by
  induction xs generalizing ys with
  | nil => cases ys <;> simp
  | cons x xs ih =>
    rw [List.mapM_cons]
    constructor
    · intro h
      obtain ⟨y, hy, h⟩ := Option.bind_eq_some_iff.1 h
      obtain ⟨ys, hys, h⟩ := Option.bind_eq_some_iff.1 h
      obtain rfl := Option.some.inj h
      exact .cons hy (ih.1 hys)
    · rintro (_ | ⟨hy, hys⟩)
      simp [hy, ih.2 hys]

/-! ## Storage -/

/-- One step of a concrete path. -/
inductive Selector where
  | field (name : String)
  | element (index : Literal)
deriving DecidableEq

/-- The concrete steps of a field path. -/
def fieldSelectors (path : List String) : List Selector := path.map .field

/-- A place that holds a literal: a root variable, by name, and a concrete path
into it. -/
structure Cell where
  root : String
  path : List Selector
deriving DecidableEq

namespace Cell

/-- The cell of a variable with storage of its own. -/
def own (name : String) : Cell := ⟨name, []⟩

/-- The cell reached by going on from a cell. -/
def extend (c : Cell) (steps : List Selector) : Cell := { c with path := c.path ++ steps }

@[simp] theorem root_extend (c : Cell) (steps : List Selector) : (c.extend steps).root = c.root :=
  rfl

@[simp] theorem path_extend (c : Cell) (steps : List Selector) :
    (c.extend steps).path = c.path ++ steps := rfl

@[simp] theorem root_own (name : String) : (own name).root = name := rfl

end Cell

/-- **What a program has computed so far**: which cell each variable denotes,
what the cells hold, and the state of the outside world. -/
structure Store (World : Type) where
  places : String → Option Cell
  contents : Cell → Option Literal
  world : World

namespace Store

variable {W : Type}

/-- What a variable holds. -/
def value (st : Store W) (name : String) : Option Literal := (st.places name).bind st.contents

/-- What an operand holds, given by what the operand is identified by. -/
def get (st : Store W) : String ⊕ Literal → Option Literal
  | .inl name => st.value name
  | .inr l => some l

/-- What an operand holds. -/
def read (st : Store W) (a : Operand) : Option Literal := st.get a.key

@[simp] theorem read_var (st : Store W) (v : Var) : st.read (.var v) = st.value v.name := rfl

@[simp] theorem read_lit (st : Store W) (l : Literal) : st.read (.lit l) = some l := rfl

/-- What several operands hold, given by what they are identified by. -/
def getAll (st : Store W) (keys : List (String ⊕ Literal)) : Option (List Literal) :=
  keys.mapM st.get

/-- What several operands hold. -/
def readAll (st : Store W) (inputs : List Operand) : Option (List Literal) :=
  st.getAll (inputs.map Operand.key)

/-- Fills a cell. -/
def put (st : Store W) (c : Cell) (l : Literal) : Store W :=
  { st with contents := fun c' => if c' = c then some l else st.contents c' }

/-- Assigns a variable. -/
def assign (st : Store W) (name : String) (l : Literal) : Option (Store W) :=
  (st.places name).map (st.put · l)

/-- Assigns some variables, as many as there are values. -/
def assignAll (st : Store W) : List Var → List Literal → Option (Store W)
  | [], [] => some st
  | v :: vars, l :: values => (st.assign v.name l).bind (·.assignAll vars values)
  | _, _ => none

/-- Binds a variable that denotes nothing yet to a cell. -/
def bind (st : Store W) (name : String) (c : Cell) : Option (Store W) :=
  if (st.places name).isNone then
    some { st with places := fun n => if n = name then some c else st.places n }
  else none

/-- Starts the life of a variable: nothing is stored under it, and it denotes
its own cell or, if it is a part of another variable, nothing. -/
def declare (st : Store W) (v : Var) : Store W :=
  { st with
    places := fun n =>
      if n = v.name then (if v.alloc = .part then none else some (.own v.name)) else st.places n
    contents := fun c => if c.root = v.name then none else st.contents c }

/-- The cell of a field, at the end of a path that is not empty. -/
def field? (st : Store W) (record : String) (path : List String) : Option Cell :=
  if path = [] then none else (st.places record).map (·.extend (fieldSelectors path))

/-- The cell of an element, the index being given by what it is identified by. -/
def element? (st : Store W) (arr : String) (ix : String ⊕ Literal) : Option Cell :=
  (st.places arr).bind fun c => (st.get ix).map fun l => c.extend [.element l]

/-- Takes a part out of its container. A copy has no meaning here. -/
def take (st : Store W) (access : Access) (name : String) (part : Cell) : Option (Store W) :=
  match access with
  | .bind => st.bind name part
  | .retrieve => (st.contents part).bind (st.assign name)
  | .copy => none

/-- The storage with the constants of a table filled in where it holds nothing. -/
def withConstants (st : Store W) (t : Constants) : Store W :=
  { st with
    contents := fun c =>
      (st.contents c).or
        (if c.path = [] then (t.get? c.root).bind (·.value.lit?) else none) }

@[simp] theorem places_put (st : Store W) (c : Cell) (l : Literal) :
    (st.put c l).places = st.places := rfl

@[simp] theorem world_put (st : Store W) (c : Cell) (l : Literal) :
    (st.put c l).world = st.world := rfl

theorem contents_put (st : Store W) (c c' : Cell) (l : Literal) :
    (st.put c l).contents c' = if c' = c then some l else st.contents c' := rfl

theorem assign_eq_some {st st' : Store W} {name : String} {l : Literal} :
    st.assign name l = some st' ↔ ∃ c, st.places name = some c ∧ st' = st.put c l := by
  unfold assign
  rw [Option.map_eq_some_iff]
  exact exists_congr fun c => and_congr_right fun _ => eq_comm

theorem bind_eq_some {st st' : Store W} {name : String} {c : Cell} :
    st.bind name c = some st' ↔ st.places name = none
      ∧ st' = { st with places := fun n => if n = name then some c else st.places n } := by
  unfold Store.bind
  by_cases h : st.places name = none
  · simp [h, eq_comm]
  · simp [h]

theorem assignAll_cons_eq_some {st st' : Store W} {v : Var} {vars : List Var} {l : Literal}
    {values : List Literal} :
    st.assignAll (v :: vars) (l :: values) = some st'
      ↔ ∃ c, st.places v.name = some c ∧ (st.put c l).assignAll vars values = some st' := by
  rw [assignAll, Option.bind_eq_some_iff]
  constructor
  · rintro ⟨st₁, h₁, h⟩
    obtain ⟨c, hc, rfl⟩ := assign_eq_some.1 h₁
    exact ⟨c, hc, h⟩
  · rintro ⟨c, hc, h⟩
    exact ⟨_, assign_eq_some.2 ⟨c, hc, rfl⟩, h⟩

/-- The values of operands, one by one. -/
theorem getAll_eq_some {st : Store W} {keys : List (String ⊕ Literal)} {values : List Literal} :
    st.getAll keys = some values ↔ List.Forall₂ (fun k l => st.get k = some l) keys values :=
      mapM_eq_some

/-- Operands that hold the same values pairwise hold the same values. -/
theorem readAll_map {st : Store W} (f : Operand → Operand) {inputs : List Operand}
    (h : ∀ a ∈ inputs, st.read (f a) = st.read a) :
    st.readAll (inputs.map f) = st.readAll inputs := by
  unfold readAll getAll
  induction inputs with
  | nil => rfl
  | cons a inputs ih =>
    simp only [List.map_cons, List.mapM_cons]
    rw [ih fun b hb => h b (List.mem_cons_of_mem _ hb)]
    have ha : st.get (f a).key = st.get a.key := h a List.mem_cons_self
    rw [ha]

end Store

/-! ## Machines -/

/-- **What operations and foreign functions compute.** A foreign function also
sees and changes the state of the world; either may have no result. -/
structure Machine (World : Type) where
  builtin : Builtin → List Literal → Option Literal
  call : String → List Literal → World → Option (List Literal × World)

/-- **The machine does what is promised of it.** Operations agree with what is
computed at compile time, and foreign functions keep what the registry says of
them. -/
structure Machine.Obeys {W : Type} (m : Machine W) (foreign : Foreign) : Prop where
  /-- An operation that can be computed at compile time has that result. -/
  folds : ∀ op xs y, Builtin.fold op xs = some y → m.builtin op xs = some y
  /-- The operands of a commutative operation may come in any order. -/
  permutes : ∀ op xs ys, op.isCommutative = true → xs.Perm ys → m.builtin op xs = m.builtin op ys
  /-- The outputs of a deterministic function depend on its inputs only. -/
  deterministic : ∀ name f, foreign.lookup name = .ok f → f.deterministic = true →
    ∀ xs w w' r r', m.call name xs w = some r → m.call name xs w' = some r' → r.1 = r'.1
  /-- A function without side effects leaves the world alone. -/
  effectFree : ∀ name f, foreign.lookup name = .ok f → f.sideEffects = false →
    ∀ xs w r, m.call name xs w = some r → r.2 = w
  /-- The inputs of a commutative function may come in any order. -/
  commutative : ∀ name f, foreign.lookup name = .ok f → f.commutative = true →
    ∀ xs ys w, xs.Perm ys → m.call name xs w = m.call name ys w
  /-- A deterministic function that is said to do a builtin operation has its result. -/
  builtin : ∀ name f op, foreign.lookup name = .ok f → f.deterministic = true →
    f.builtin = some op → ∀ xs w y w', m.call name xs w = some ([y], w') → m.builtin op xs = some y

/-! ## Instructions -/

variable {W : Type}

/-- **Executes an instruction.** -/
def Instruction.exec (m : Machine W) (st : Store W) : Instruction → Option (Store W)
  | storeScalar dst src => (st.read src).bind (st.assign dst.name)
  | loadScalar dst src => (st.value src.name).bind (st.assign dst.name)
  | compute _ op dst inputs =>
    ((st.readAll inputs).bind (m.builtin op)).bind (st.assign dst.name)
  | call _ function outputs inputs => do
    let xs ← st.readAll inputs
    let (ys, w) ← m.call function xs st.world
    ({ st with world := w } : Store W).assignAll outputs ys
  | readField access dst record path =>
    (st.field? record.name path).bind (st.take access dst.name)
  | writeField record path src =>
    (st.field? record.name path).bind fun c => (st.read src).map (st.put c)
  | readElement access dst arr ix =>
    (st.element? arr.name ix.key).bind (st.take access dst.name)
  | writeElement arr ix src =>
    (st.element? arr.name ix.key).bind fun c => (st.read src).map (st.put c)
  | storeRef .. => none
  | loadRef .. => none

/-! ## Blocks -/

mutual
/-- **Executes a block**: its variables start anew, then its body is executed. -/
def Block.exec (m : Machine W) : Block → Store W → Option (Store W)
  | .mk vars body, st => body.exec m (vars.foldl Store.declare st)
/-- Executes a body, statement by statement. -/
def Body.exec (m : Machine W) : Body → Store W → Option (Store W)
  | .done, st => some st
  | .instr i rest, st => (i.exec m st).bind (rest.exec m)
  | .cont c rest, st => (c.exec m st).bind (rest.exec m)
/-- Executes a continuation. -/
def Continuation.exec (m : Machine W) : Continuation → Store W → Option (Store W)
  | .ifElse condition t e, st =>
    match st.read condition with
    | some (.bool true) => t.exec m st
    | some (.bool false) => e.exec m st
    | _ => none
  | .switch value arms, st =>
    match st.read value with
    | some (.int n) => arms.exec m n st
    | _ => none
  | .deferred .., _ => none
  | .nested b, st => b.exec m st
/-- Executes the arm with a given label, or the default; if there is neither,
nothing. -/
def Arms.exec (m : Machine W) (n : Int64) : Arms → Store W → Option (Store W)
  | .none, st => some st
  | .default b, st => b.exec m st
  | .case label b rest, st => if label = n then b.exec m st else rest.exec m n st
end

/-- **Evaluates a function** where the constants of a table are known. -/
def Function.eval (m : Machine W) (constants : Constants) (f : Function) (st : Store W) :
    Option (Store W) :=
  f.block.exec m (st.withConstants constants)

/-! ## Instructions that only assign -/

/-- The instruction does no more than assign its outputs. -/
def Instruction.OnlyAssigns (m : Machine W) (i : Instruction) : Prop :=
  ∀ st st', i.exec m st = some st' → ∃ ys, st.assignAll i.outputs ys = some st'

theorem Store.assignAll_of_assign {st st' : Store W} {v : Var} {l : Literal}
    (h : st.assign v.name l = some st') : st.assignAll [v] [l] = some st' := by
  obtain ⟨c, hc, rfl⟩ := Store.assign_eq_some.1 h
  exact Store.assignAll_cons_eq_some.2 ⟨c, hc, rfl⟩

theorem Store.assignAll_of_take {st st' : Store W} {v : Var} {part : Cell}
    (h : st.take .retrieve v.name part = some st') : ∃ ys, st.assignAll [v] ys = some st' := by
  obtain ⟨l, -, h⟩ := Option.bind_eq_some_iff.1 h
  exact ⟨[l], Store.assignAll_of_assign h⟩

/-- **An instruction that may be deleted does no more than assign its outputs.** -/
theorem Instruction.onlyAssigns_of_isRemovable {foreign : Foreign} {m : Machine W}
    (hm : m.Obeys foreign) {i : Instruction} (hr : i.isRemovable foreign = .ok true) :
    i.OnlyAssigns m := by
  intro st st' h
  cases i with
  | storeScalar _ src => cases hr
  | loadScalar _ src =>
    obtain ⟨l, -, h⟩ := Option.bind_eq_some_iff.1 h
    exact ⟨[l], Store.assignAll_of_assign h⟩
  | storeRef _ src => cases hr
  | loadRef _ src => cases h
  | compute timing op _ inputs =>
    obtain ⟨l, -, h⟩ := Option.bind_eq_some_iff.1 h
    exact ⟨[l], Store.assignAll_of_assign h⟩
  | call timing function outputs inputs =>
    obtain ⟨xs, -, h⟩ := Option.bind_eq_some_iff.1 h
    obtain ⟨⟨ys, w⟩, hys, h⟩ := Option.bind_eq_some_iff.1 h
    obtain ⟨f, hf, heffect⟩ : ∃ f, foreign.lookup function = .ok f ∧ f.sideEffects = false := by
      simp only [Instruction.isRemovable, Instruction.onlyComputes, if_true,
        Instruction.hasSideEffects, Bind.bind, Except.bind] at hr
      cases hf : foreign.lookup function with
      | error e =>
        rw [hf] at hr
        cases hr
      | ok f =>
        rw [hf] at hr
        exact ⟨f, rfl, by simpa using Except.ok.inj hr⟩
    obtain rfl : w = st.world := hm.effectFree function f hf heffect xs st.world (ys, w) hys
    exact ⟨ys, h⟩
  | readField access _ record path =>
    cases access with
    | bind => cases hr
    | copy => cases hr
    | retrieve =>
      obtain ⟨c, -, h⟩ := Option.bind_eq_some_iff.1 h
      exact Store.assignAll_of_take h
  | writeField record path src => cases hr
  | readElement access _ arr ix =>
    cases access with
    | bind => cases hr
    | copy => cases hr
    | retrieve =>
      obtain ⟨c, -, h⟩ := Option.bind_eq_some_iff.1 h
      exact Store.assignAll_of_take h
  | writeElement arr ix src => cases hr

end ValueFlow
