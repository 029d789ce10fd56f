import Mathlib.Data.List.Nodup
import ValueFlow.Proofs.NumberedInstructions

/-!
# Single assignment

The walk refuses a function in which a variable is assigned twice. It goes
through every block once, so what it sees is a function in which the body of a
loop runs once. This module compares that with executions, in which a body runs
any number of times and every activation of a block has variables of its own
(`Block.Runs`).

**In an accepted function no variable is assigned twice as long as no loop takes
more than one round** (`Once`, `Block.once_of_runs`). With more rounds it
depends on the loops: a variable that is declared outside of a loop and assigned
in its body is assigned in every round. So all executions of an accepted
function keep to single assignment if, and only if, no loop assigns such a
variable (`assigned_once_iff`).
-/

namespace ValueFlow

/-! ## Executions -/

/-- **A variable of an execution**: the number of the activation that declares
it, and its name. -/
abbrev Slot := Nat × String

/-- For each name, the activation that declares the variable which is meant by
it. -/
abbrev Bindings := String → Nat

namespace Bindings

/-- What names mean in activation `n`, which declares some variables. -/
def enter (env : Bindings) (n : Nat) (vars : List Var) : Bindings :=
  fun name => if name ∈ vars.map (·.name) then n else env name

/-- The variable that an occurrence means. -/
def slot (env : Bindings) (v : Var) : Slot := (env v.name, v.name)

end Bindings

/-- A number of rounds, one after the other. Each round goes from a number of
activations to another one and assigns some variables. -/
def Repeated (round : Nat → List Slot → Nat → Prop) : Nat → Nat → List Slot → Nat → Prop
  | 0, n, slots, m => slots = [] ∧ m = n
  | count + 1, n, slots, m =>
    ∃ first k rest, slots = first ++ rest ∧ round n first k ∧ Repeated round count k rest m

/-- The block of the trigger runs any number of times. -/
def Trigger.isLoop : Trigger → Bool
  | .wait .. => false
  | _ => true

section Runs

variable (rounds : Nat → Prop)

/-- How often the block of a trigger may run: that of a wait once, that of a
loop as often as is allowed. -/
def Trigger.takes (trigger : Trigger) (count : Nat) : Prop :=
  if trigger.isLoop then rounds count else count = 1

mutual
/-- **A run of a block.** Activations are numbered from `n` on, and `m` is the
number behind the last one; `slots` are the variables that are assigned, each as
often as it is. Any arm of a conditional may be the one that runs, all deferred
blocks run, and a loop takes any number of rounds that is allowed. When deferred
blocks run makes no difference to how often a variable is assigned, so they are
listed where they stand. -/
def Block.Runs (env : Bindings) (n : Nat) : Block → List Slot → Nat → Prop
  | .mk vars body, slots, m => body.Runs (env.enter n vars) (n + 1) slots m
/-- A run of a body. -/
def Body.Runs (env : Bindings) (n : Nat) : Body → List Slot → Nat → Prop
  | .done, slots, m => slots = [] ∧ m = n
  | .instr i rest, slots, m =>
    ∃ others, slots = i.assigned.map env.slot ++ others ∧ rest.Runs env n others m
  | .cont c rest, slots, m =>
    ∃ first k others, slots = first ++ others ∧ c.Runs env n first k ∧ rest.Runs env k others m
/-- A run of a continuation. Each round of a deferred block is an activation
that declares what the trigger declares. -/
def Continuation.Runs (env : Bindings) (n : Nat) : Continuation → List Slot → Nat → Prop
  | .ifElse _ t e, slots, m => t.Runs env n slots m ∨ e.Runs env n slots m
  | .switch _ arms, slots, m => arms.Runs env n slots m
  | .deferred trigger b, slots, m => ∃ count, trigger.takes rounds count ∧
    Repeated (fun n slots m => ∃ inner, slots
      = trigger.assigned.map (env.enter n trigger.declared).slot ++ inner
      ∧ b.Runs (env.enter n trigger.declared) (n + 1) inner m) count n slots m
  | .nested b, slots, m => b.Runs env n slots m
/-- A run of the arms of a switch: one of them runs, or none if there is no
default. -/
def Arms.Runs (env : Bindings) (n : Nat) : Arms → List Slot → Nat → Prop
  | .none, slots, m => slots = [] ∧ m = n
  | .default b, slots, m => b.Runs env n slots m
  | .case _ b rest, slots, m => b.Runs env n slots m ∨ rest.Runs env n slots m
end

/-- **A run of a function** that assigns some variables. Inputs are assigned
before its block runs. -/
def Function.Runs (f : Function) (slots : List Slot) : Prop :=
  ∃ inner m, slots = f.inputs.map (Bindings.slot fun _ => 0) ++ inner
    ∧ f.block.Runs rounds (fun _ => 0) 1 inner m

end Runs

mutual
/-- **No loop in the block assigns a variable that is declared outside of the
loop.** -/
def Block.loopsAssignOwn : Block → Bool
  | .mk _ body => body.loopsAssignOwn
/-- No loop in the body assigns a variable that is declared outside of the loop. -/
def Body.loopsAssignOwn : Body → Bool
  | .done => true
  | .instr _ rest => rest.loopsAssignOwn
  | .cont c rest => c.loopsAssignOwn && rest.loopsAssignOwn
/-- No loop in the continuation, itself included, assigns a variable that is
declared outside of the loop. -/
def Continuation.loopsAssignOwn : Continuation → Bool
  | .ifElse _ t e => t.loopsAssignOwn && e.loopsAssignOwn
  | .switch _ arms => arms.loopsAssignOwn
  | .deferred trigger b =>
    (!trigger.isLoop || (b.assigns (trigger.declared.map (·.name))).isEmpty) && b.loopsAssignOwn
  | .nested b => b.loopsAssignOwn
/-- No loop in the arms assigns a variable that is declared outside of the loop. -/
def Arms.loopsAssignOwn : Arms → Bool
  | .none => true
  | .default b => b.loopsAssignOwn
  | .case _ b rest => b.loopsAssignOwn && rest.loopsAssignOwn
end

theorem Block.mem_assigns {b : Block} {own : List String} {name : String} :
    name ∈ b.assigns own ↔ name ∈ b.assigns [] ∧ name ∉ own := by
  obtain ⟨vars, body⟩ := b
  simp [Block.assigns, and_assoc]

/-! ## Every variable once -/

theorem Bindings.enter_of_not_mem {env : Bindings} {n : Nat} {vars : List Var} {name : String}
    (h : name ∉ vars.map (·.name)) : env.enter n vars name = env name := if_neg h

theorem Bindings.enter_lt {env : Bindings} {n : Nat} (h : ∀ name, env name < n) (vars : List Var)
    (name : String) : env.enter n vars name < n + 1 := by
  have hname := h name
  unfold enter
  split <;> omega

/-- **A run that starts at a point assigns every variable once.** The variable
is declared by an activation of the run, which are those from `n` up to `m`, or
before; then its name is among those that are assigned and live on, and it was
not assigned at the point. -/
structure Once (env : Bindings) (p : Point) (assigns : List String) (n : Nat) (slots : List Slot)
    (m : Nat) : Prop where
  nodup : slots.Nodup
  le : n ≤ m
  declared : ∀ s ∈ slots, n ≤ s.1 ∧ s.1 < m ∨ s.1 = env s.2 ∧ s.2 ∈ assigns ∧ s.2 ∉ p.assigned

theorem Point.nodup_of_assignedTwice? {p : Point} {vars : List Var}
    (h : p.assignedTwice? vars = none) : (vars.map (·.name)).Nodup := by
  induction vars generalizing p with
  | nil => exact .nil
  | cons v vars ih =>
    rw [assignedTwice?] at h
    split at h
    · cases h
    · refine List.nodup_cons.2 ⟨fun hmem => ?_, ih h⟩
      obtain ⟨w, hw, hname⟩ := List.mem_map.1 hmem
      exact not_mem_of_assignedTwice? h w hw (hname ▸ List.mem_cons_self)

namespace Once

variable {env : Bindings} {p : Point} {A B : List String} {n m k : Nat} {xs ys slots : List Slot}

theorem nil (env : Bindings) (p : Point) (A : List String) (n : Nat) : Once env p A n [] n :=
  ⟨.nil, Nat.le_refl n, List.forall_mem_nil _⟩

theorem mono (h : Once env p A n slots m) (hA : A ⊆ B) : Once env p B n slots m :=
  ⟨h.nodup, h.le, fun s hs => (h.declared s hs).imp_right fun ⟨ha, hmem, hp⟩ => ⟨ha, hA hmem, hp⟩⟩

/-- Variables that may be assigned at a point are assigned. -/
theorem assigned {vars : List Var} (env : Bindings) (n : Nat) (h : p.assignedTwice? vars = none) :
    Once env p (vars.map (·.name)).reverse n (vars.map env.slot) n := by
  refine ⟨?_, Nat.le_refl n, List.forall_mem_map.2 fun v hv => .inr ⟨rfl, ?_, ?_⟩⟩
  · have hnames : (vars.map env.slot).map (·.2) = vars.map (·.name) := List.map_map
    exact List.Nodup.of_map (·.2) (hnames ▸ Point.nodup_of_assignedTwice? h)
  · exact List.mem_reverse.2 (List.mem_map_of_mem hv)
  · exact Point.not_mem_of_assignedTwice? h v hv

/-- **One run after the other.** What the first one assigned is not assigned at
the point where the second one starts. -/
theorem append (henv : ∀ x, env x < n) (h : Once env p A n xs k)
    (h' : Once env (p.assign A) B k ys m) : Once env p (B ++ A) n (xs ++ ys) m := by
  have hle := h.le
  have hle' := h'.le
  refine ⟨List.nodup_append.2 ⟨h.nodup, h'.nodup, ?_⟩, hle.trans hle',
    List.forall_mem_append.2 ⟨?_, ?_⟩⟩
  · -- activations have numbers of their own, and what both assign from outside
    -- would be assigned twice
    rintro s hs _ hs' rfl
    have hs₂ := henv s.2
    rcases h.declared s hs with hnew | ⟨heq, hA, -⟩
    · rcases h'.declared s hs' with hnew' | ⟨heq', -, -⟩ <;> omega
    · rcases h'.declared s hs' with hnew' | ⟨-, -, hp⟩
      · omega
      · exact hp (List.mem_append_left _ hA)
  · intro s hs
    refine (h.declared s hs).imp (fun hnew => by omega) fun ⟨heq, hA, hp⟩ => ⟨heq, ?_, hp⟩
    exact List.mem_append_right _ hA
  · intro s hs
    refine (h'.declared s hs).imp (fun hnew => by omega)
      fun ⟨heq, hB, hp⟩ => ⟨heq, ?_, fun hmem => hp ?_⟩
    · exact List.mem_append_left _ hB
    · exact List.mem_append_right _ hmem

/-- **An activation that declares variables** assigns every variable once if
what runs in it does. -/
theorem leave {vars : List Var} {q : Point} (h : Once (env.enter n vars) q A (n + 1) slots m)
    (hp : p.assigned = q.assigned) (hA : ∀ name ∈ A, name ∉ vars.map (·.name) → name ∈ B) :
    Once env p B n slots m := by
  have hle := h.le
  refine ⟨h.nodup, by omega, fun s hs => ?_⟩
  rcases h.declared s hs with hnew | ⟨heq, hmem, hq⟩
  · exact .inl (by omega)
  · by_cases hown : s.2 ∈ vars.map (·.name)
    · rw [Bindings.enter, if_pos hown] at heq
      exact .inl (by omega)
    · rw [Bindings.enter_of_not_mem hown] at heq
      exact .inr ⟨heq, hA _ hmem hown, hp ▸ hq⟩

/-- **A round of a deferred block** is an activation that declares what the
trigger does. What the trigger assigns does not live on. -/
theorem round {trigger : Trigger} {b : Block} (henv : ∀ x, env x < n)
    (htrigger : p.assignedTwice? trigger.assigned = none)
    (h : Once (env.enter n trigger.declared)
      ((p.declare trigger.declared).assign (trigger.assigned.map (·.name)))
      (b.assigns []) (n + 1) slots m) :
    Once env p (b.assigns (trigger.declared.map (·.name))) n
      (trigger.assigned.map (env.enter n trigger.declared).slot ++ slots) m := by
  have hassigned := assigned (env.enter n trigger.declared) (n + 1)
    ((Point.assignedTwice?_congr (p := p.declare trigger.declared) (q := p) rfl _).trans htrigger)
  have hrev : (trigger.assigned.map (·.name)).reverse = trigger.assigned.map (·.name) := by
    cases trigger <;> rfl
  rw [hrev] at hassigned
  refine (hassigned.append (Bindings.enter_lt henv trigger.declared) h).leave rfl
    fun name hname hown => ?_
  rw [Block.mem_assigns]
  refine (List.mem_append.1 hname).elim (⟨·, hown⟩) fun hmem => absurd ?_ hown
  cases trigger with
  | range => exact hmem
  | wait => cases hmem
  | foreach => cases hmem

/-- **Rounds** assign every variable once if each of them does and they assign
nothing from outside, or if there is one round at most. -/
theorem repeated {round : Nat → List Slot → Nat → Prop} {count : Nat} (henv : ∀ x, env x < n)
    (hround : ∀ {n m : Nat} {slots : List Slot}, (∀ x, env x < n) →
      round n slots m → Once env p A n slots m)
    (hcount : count ≤ 1 ∨ A = []) (h : Repeated round count n slots m) :
    Once env p A n slots m := by
  induction count generalizing n slots with
  | zero =>
    obtain ⟨rfl, rfl⟩ := h
    exact .nil env p A _
  | succ count ih =>
    obtain ⟨first, k, rest, rfl, hfirst, hrest⟩ := h
    have hone := hround henv hfirst
    have hle := hone.le
    have hothers := ih (fun x => (henv x).trans_le hle) (hcount.imp_left fun h => by omega) hrest
    rcases hcount with hcount | rfl
    · -- no other round follows
      obtain rfl : count = 0 := by omega
      obtain ⟨rfl, rfl⟩ := hrest
      rwa [List.append_nil]
    · exact hone.append henv hothers

end Once

/-! ## Accepted functions -/

section Accepted

variable {foreign : Foreign} {rounds : Nat → Prop}

mutual
/-- **A run of an accepted block assigns every variable once**, if loops take
one round at most or assign no variable from outside. -/
theorem Block.once_of_runs :
    ∀ {b : Block} {number : Nat} {p : Point} {env : Bindings} {n m : Nat} {slots : List Slot},
    b.Meets (accepted foreign) number p → (∀ count, rounds count → count ≤ 1)
      ∨ b.loopsAssignOwn = true →
    (∀ x, env x < n) → b.Runs rounds env n slots m → Once env p (b.assigns []) n slots m
  | .mk vars body, number, p, env, n, m, slots, hb, hloops, henv, h => by
    refine (Body.once_of_runs hb.2 hloops (Bindings.enter_lt henv vars) h).leave rfl
      fun name hname hvars => ?_
    rw [Block.assigns, List.mem_filter]
    simpa [hname] using hvars
theorem Body.once_of_runs :
    ∀ {b : Body} {block number : Nat} {p : Point} {env : Bindings} {n m : Nat}
    {slots : List Slot}, b.Meets (accepted foreign) block number p →
    (∀ count, rounds count → count ≤ 1) ∨ b.loopsAssignOwn = true →
    (∀ x, env x < n) → b.Runs rounds env n slots m → Once env p b.assigns n slots m
  | .done, block, number, p, env, n, m, slots, _, _, _, h => by
    obtain ⟨rfl, rfl⟩ := h
    exact .nil env p _ _
  | .instr i rest, block, number, p, env, n, m, slots, hb, hloops, henv, h => by
    obtain ⟨others, rfl, hrest⟩ := h
    exact (Once.assigned env n hb.1.2.1).append henv (Body.once_of_runs hb.2 hloops henv hrest)
  | .cont c rest, block, number, p, env, n, m, slots, hb, hloops, henv, h => by
    rw [Body.loopsAssignOwn, Bool.and_eq_true] at hloops
    obtain ⟨first, k, others, rfl, hfirst, hrest⟩ := h
    have hc := Continuation.once_of_runs hb.1 (hloops.imp_right And.left) henv hfirst
    exact hc.append henv
      (Body.once_of_runs hb.2 (hloops.imp_right And.right) (fun x => (henv x).trans_le hc.le) hrest)
theorem Continuation.once_of_runs :
    ∀ {c : Continuation} {number : Nat} {p : Point} {env : Bindings} {n m : Nat}
    {slots : List Slot}, c.Meets (accepted foreign) number p →
    (∀ count, rounds count → count ≤ 1) ∨ c.loopsAssignOwn = true →
    (∀ x, env x < n) → c.Runs rounds env n slots m → Once env p c.assigns n slots m
  | .ifElse condition t e, number, p, env, n, m, slots, hc, hloops, henv, h => by
    rw [Continuation.loopsAssignOwn, Bool.and_eq_true] at hloops
    rcases h with h | h
    · exact (Block.once_of_runs hc.2.1 (hloops.imp_right And.left) henv h).mono
        (List.subset_append_right _ _)
    · exact (Block.once_of_runs hc.2.2 (hloops.imp_right And.right) henv h).mono
        (List.subset_append_left _ _)
  | .switch value arms, number, p, env, n, m, slots, hc, hloops, henv, h =>
    Arms.once_of_runs hc.2 hloops henv h
  | .deferred trigger b, number, p, env, n, m, slots, hc, hloops, henv, h => by
    rw [Continuation.loopsAssignOwn, Bool.and_eq_true] at hloops
    obtain ⟨count, htakes, h⟩ := h
    refine Once.repeated henv ?_ ?_ h
    · rintro n m _ henv ⟨inner, rfl, hinner⟩
      have henv' := Bindings.enter_lt henv trigger.declared
      exact .round henv hc.1.2 (Block.once_of_runs hc.2 (hloops.imp_right And.right) henv' hinner)
    · -- a wait takes one round, and a loop assigns nothing from outside if it may take more
      unfold Trigger.takes at htakes
      split at htakes
      · rename_i hloop
        refine hloops.imp (fun hrounds => hrounds count htakes) fun ⟨hown, _⟩ => ?_
        rw [hloop] at hown
        exact List.isEmpty_iff.1 hown
      · exact .inl htakes.le
  | .nested b, number, p, env, n, m, slots, hc, hloops, henv, h =>
    Block.once_of_runs hc hloops henv h
theorem Arms.once_of_runs : ∀ {arms : Arms} {number : Nat} {p : Point} {env : Bindings} {n m : Nat}
    {slots : List Slot}, arms.Meets (accepted foreign) number p →
    (∀ count, rounds count → count ≤ 1) ∨ arms.loopsAssignOwn = true →
    (∀ x, env x < n) → arms.Runs rounds env n slots m → Once env p arms.assigns n slots m
  | .none, number, p, env, n, m, slots, _, _, _, h => by
    obtain ⟨rfl, rfl⟩ := h
    exact .nil env p _ _
  | .default b, number, p, env, n, m, slots, hb, hloops, henv, h =>
    Block.once_of_runs hb hloops henv h
  | .case label b rest, number, p, env, n, m, slots, hb, hloops, henv, h => by
    rw [Arms.loopsAssignOwn, Bool.and_eq_true] at hloops
    rcases h with h | h
    · exact (Block.once_of_runs hb.1 (hloops.imp_right And.left) henv h).mono
        (List.subset_append_right _ _)
    · exact (Arms.once_of_runs hb.2 (hloops.imp_right And.right) henv h).mono
        (List.subset_append_left _ _)
end

/-- **A run of an accepted function assigns every variable once**, under the
same condition. -/
theorem Function.nodup_of_runs {f : Function} {slots : List Slot} (hf : f.fault? foreign = none)
    (hloops : (∀ count, rounds count → count ≤ 1) ∨ f.block.loopsAssignOwn = true)
    (h : f.Runs rounds slots) : slots.Nodup := by
  obtain ⟨hinputs, hblock⟩ := Function.fault?_eq_none.1 hf
  obtain ⟨inner, m, rfl, hinner⟩ := h
  have hfirst := Once.assigned (fun _ => 0) 1 hinputs
  have henv : ∀ x : String, (fun _ => 0 : Bindings) x < 1 := fun _ => Nat.one_pos
  have hbody := Block.once_of_runs hblock hloops henv hinner
  exact (hfirst.append henv (B := f.block.assigns []) ⟨hbody.nodup, hbody.le, fun s hs => by
    have := hbody.declared s hs
    simpa [Function.point, Point.assign] using this⟩).nodup

end Accepted

/-! ## Loops that assign from outside -/

/-- **Some run assigns the given variables in their order**, among others. -/
def Attains (run : List Slot → Nat → Prop) (xs : List Slot) : Prop :=
  ∃ slots m, run slots m ∧ xs.Sublist slots

theorem Attains.mono {run : List Slot → Nat → Prop} {xs ys : List Slot} (h : Attains run ys)
    (hxs : xs.Sublist ys) : Attains run xs := by
  obtain ⟨slots, m, hrun, hys⟩ := h
  exact ⟨slots, m, hrun, hxs.trans hys⟩

theorem repeated_one {round : Nat → List Slot → Nat → Prop} {n m : Nat} {slots : List Slot}
    (h : round n slots m) : Repeated round 1 n slots m :=
  ⟨slots, m, [], (List.append_nil _).symm, h, rfl, rfl⟩

section Attained

variable {rounds : Nat → Prop} {env : Bindings} {n : Nat} {xs ys : List Slot}

theorem Body.attains_instr {i : Instruction} {rest : Body}
    (h : Attains (rest.Runs rounds env n) ys) :
    Attains ((Body.instr i rest).Runs rounds env n) (i.assigned.map env.slot ++ ys) := by
  obtain ⟨others, m, hrest, hys⟩ := h
  exact ⟨_, m, ⟨others, rfl, hrest⟩, hys.append_left _⟩

theorem Body.attains_cont {c : Continuation} {rest : Body} {first : List Slot} {k : Nat}
    (hc : c.Runs rounds env n first k) (hrest : Attains (rest.Runs rounds env k) ys) :
    Attains ((Body.cont c rest).Runs rounds env n) (first ++ ys) := by
  obtain ⟨others, m, hrest, hys⟩ := hrest
  exact ⟨_, m, ⟨first, k, others, rfl, hc, hrest⟩, hys.append_left _⟩

/-- A deferred block can run once. -/
theorem Continuation.attains_deferred {trigger : Trigger} {b : Block} (hrounds : rounds 1)
    (h : Attains (b.Runs rounds (env.enter n trigger.declared) (n + 1)) xs) :
    Attains ((Continuation.deferred trigger b).Runs rounds env n) xs := by
  obtain ⟨inner, m, hinner, hxs⟩ := h
  refine ⟨_, m, ⟨1, ?_, repeated_one ⟨inner, rfl, hinner⟩⟩,
    hxs.trans (List.sublist_append_right _ _)⟩
  unfold Trigger.takes
  split
  · exact hrounds
  · rfl

section

mutual
/-- **Every block can run.** -/
theorem Block.exists_runs (hrounds : rounds 1) : ∀ (b : Block) (env : Bindings) (n : Nat),
    Attains (b.Runs rounds env n) []
  | .mk vars body, env, n => Body.exists_runs hrounds body (env.enter n vars) (n + 1)
theorem Body.exists_runs (hrounds : rounds 1) : ∀ (b : Body) (env : Bindings) (n : Nat),
    Attains (b.Runs rounds env n) []
  | .done, env, n => ⟨[], n, ⟨rfl, rfl⟩, .slnil⟩
  | .instr i rest, env, n =>
    (Body.attains_instr (Body.exists_runs hrounds rest env n)).mono (List.nil_sublist _)
  | .cont c rest, env, n => by
    obtain ⟨first, k, hc, -⟩ := Continuation.exists_runs hrounds c env n
    exact (Body.attains_cont hc (Body.exists_runs hrounds rest env k)).mono (List.nil_sublist _)
theorem Continuation.exists_runs (hrounds : rounds 1) :
    ∀ (c : Continuation) (env : Bindings) (n : Nat),
    Attains (c.Runs rounds env n) []
  | .ifElse _ t _, env, n => by
    obtain ⟨slots, m, ht, h⟩ := Block.exists_runs hrounds t env n
    exact ⟨slots, m, .inl ht, h⟩
  | .switch _ arms, env, n => Arms.exists_runs hrounds arms env n
  | .deferred trigger b, env, n =>
    Continuation.attains_deferred hrounds
      (Block.exists_runs hrounds b (env.enter n trigger.declared) (n + 1))
  | .nested b, env, n => Block.exists_runs hrounds b env n
theorem Arms.exists_runs (hrounds : rounds 1) : ∀ (arms : Arms) (env : Bindings) (n : Nat),
    Attains (arms.Runs rounds env n) []
  | .none, env, n => ⟨[], n, ⟨rfl, rfl⟩, .slnil⟩
  | .default b, env, n => Block.exists_runs hrounds b env n
  | .case _ b _, env, n => by
    obtain ⟨slots, m, hb, h⟩ := Block.exists_runs hrounds b env n
    exact ⟨slots, m, .inl hb, h⟩
end

end

section

variable {name : String}

mutual
/-- **A variable that counts as assigned behind a block is assigned in some run
of it.** -/
theorem Block.attains_of_mem_assigns (hrounds : rounds 1) :
    ∀ (b : Block) (env : Bindings) (n : Nat),
    name ∈ b.assigns [] → Attains (b.Runs rounds env n) [(env name, name)]
  | .mk vars body, env, n, h => by
    rw [Block.assigns, List.mem_filter] at h
    have hvars : name ∉ vars.map (·.name) := by simpa using h.2
    have hbody := Body.attains_of_mem_assigns hrounds body (env.enter n vars) (n + 1) h.1
    rwa [Bindings.enter_of_not_mem hvars] at hbody
theorem Body.attains_of_mem_assigns (hrounds : rounds 1) : ∀ (b : Body) (env : Bindings) (n : Nat),
    name ∈ b.assigns → Attains (b.Runs rounds env n) [(env name, name)]
  | .done, env, n, h => by cases h
  | .instr i rest, env, n, h => by
    rcases List.mem_append.1 h with h | h
    · exact (Body.attains_instr (Body.attains_of_mem_assigns hrounds rest env n h)).mono
        (List.sublist_append_right _ _)
    · obtain ⟨v, hv, rfl⟩ := List.mem_map.1 (List.mem_reverse.1 h)
      refine (Body.attains_instr (Body.exists_runs hrounds rest env n)).mono
        (List.singleton_sublist.2 ?_)
      exact List.mem_append_left _ (List.mem_map_of_mem hv)
  | .cont c rest, env, n, h => by
    rcases List.mem_append.1 h with h | h
    · obtain ⟨first, k, hc, -⟩ := Continuation.exists_runs hrounds c env n
      exact (Body.attains_cont hc (Body.attains_of_mem_assigns hrounds rest env k h)).mono
        (List.sublist_append_right _ _)
    · obtain ⟨first, k, hc, hfirst⟩ := Continuation.attains_of_mem_assigns hrounds c env n h
      exact (Body.attains_cont hc (Body.exists_runs hrounds rest env k)).mono
        (hfirst.trans (List.sublist_append_left _ _))
theorem Continuation.attains_of_mem_assigns (hrounds : rounds 1) :
    ∀ (c : Continuation) (env : Bindings) (n : Nat),
    name ∈ c.assigns → Attains (c.Runs rounds env n) [(env name, name)]
  | .ifElse condition t e, env, n, h => by
    rcases List.mem_append.1 h with h | h
    · obtain ⟨slots, m, he, hmem⟩ := Block.attains_of_mem_assigns hrounds e env n h
      exact ⟨slots, m, .inr he, hmem⟩
    · obtain ⟨slots, m, ht, hmem⟩ := Block.attains_of_mem_assigns hrounds t env n h
      exact ⟨slots, m, .inl ht, hmem⟩
  | .switch value arms, env, n, h => Arms.attains_of_mem_assigns hrounds arms env n h
  | .deferred trigger b, env, n, h => by
    rw [Continuation.assigns, Block.mem_assigns] at h
    have hb := Block.attains_of_mem_assigns hrounds b (env.enter n trigger.declared) (n + 1) h.1
    rw [Bindings.enter_of_not_mem h.2] at hb
    exact Continuation.attains_deferred hrounds hb
  | .nested b, env, n, h => Block.attains_of_mem_assigns hrounds b env n h
theorem Arms.attains_of_mem_assigns (hrounds : rounds 1) :
    ∀ (arms : Arms) (env : Bindings) (n : Nat),
    name ∈ arms.assigns → Attains (arms.Runs rounds env n) [(env name, name)]
  | .none, env, n, h => by cases h
  | .default b, env, n, h => Block.attains_of_mem_assigns hrounds b env n h
  | .case label b rest, env, n, h => by
    rcases List.mem_append.1 h with h | h
    · obtain ⟨slots, m, hrest, hmem⟩ := Arms.attains_of_mem_assigns hrounds rest env n h
      exact ⟨slots, m, .inr hrest, hmem⟩
    · obtain ⟨slots, m, hb, hmem⟩ := Block.attains_of_mem_assigns hrounds b env n h
      exact ⟨slots, m, .inl hb, hmem⟩
end

end

/-- **Two rounds assign a variable twice** if it is declared outside of the loop
and assigned in its block. -/
theorem Continuation.attains_twice {trigger : Trigger} {b : Block} (hrounds : rounds 1)
    (htwo : rounds 2) (hloop : trigger.isLoop = true) {name : String}
    (h : name ∈ b.assigns (trigger.declared.map (·.name))) :
    Attains ((Continuation.deferred trigger b).Runs rounds env n)
      [(env name, name), (env name, name)] := by
  rw [Block.mem_assigns] at h
  have hround (n : Nat) :=
    Block.attains_of_mem_assigns hrounds b (env.enter n trigger.declared) (n + 1) h.1
  simp only [Bindings.enter_of_not_mem h.2] at hround
  obtain ⟨first, k, hfirst, hmem⟩ := hround n
  obtain ⟨second, m, hsecond, hmem'⟩ := hround k
  refine ⟨_, m, ⟨2, ?_, _, k, _, rfl, ⟨first, rfl, hfirst⟩, repeated_one ⟨second, rfl, hsecond⟩⟩,
    ?_⟩
  · rwa [Trigger.takes, if_pos hloop]
  · exact (hmem.trans (List.sublist_append_right _ _)).append
      (hmem'.trans (List.sublist_append_right _ _))

section

mutual
/-- **A loop that assigns a variable from outside makes some run assign a
variable twice.** -/
theorem Block.exists_attains_twice (hrounds : rounds 1) (htwo : rounds 2) :
    ∀ (b : Block) (env : Bindings) (n : Nat),
    b.loopsAssignOwn = false → ∃ s, Attains (b.Runs rounds env n) [s, s]
  | .mk vars body, env, n, h =>
    Body.exists_attains_twice hrounds htwo body (env.enter n vars) (n + 1) h
theorem Body.exists_attains_twice (hrounds : rounds 1) (htwo : rounds 2) :
    ∀ (b : Body) (env : Bindings) (n : Nat),
    b.loopsAssignOwn = false → ∃ s, Attains (b.Runs rounds env n) [s, s]
  | .done, env, n, h => by cases h
  | .instr i rest, env, n, h => by
    obtain ⟨s, hs⟩ := Body.exists_attains_twice hrounds htwo rest env n h
    exact ⟨s, (Body.attains_instr hs).mono (List.sublist_append_right _ _)⟩
  | .cont c rest, env, n, h => by
    rw [Body.loopsAssignOwn, Bool.and_eq_false_iff] at h
    rcases h with h | h
    · obtain ⟨s, first, k, hc, hfirst⟩ := Continuation.exists_attains_twice hrounds htwo c env n h
      exact ⟨s, (Body.attains_cont hc (Body.exists_runs hrounds rest env k)).mono
        (hfirst.trans (List.sublist_append_left _ _))⟩
    · obtain ⟨first, k, hc, -⟩ := Continuation.exists_runs hrounds c env n
      obtain ⟨s, hs⟩ := Body.exists_attains_twice hrounds htwo rest env k h
      exact ⟨s, (Body.attains_cont hc hs).mono (List.sublist_append_right _ _)⟩
theorem Continuation.exists_attains_twice (hrounds : rounds 1) (htwo : rounds 2) :
    ∀ (c : Continuation) (env : Bindings) (n : Nat),
    c.loopsAssignOwn = false → ∃ s, Attains (c.Runs rounds env n) [s, s]
  | .ifElse condition t e, env, n, h => by
    rw [Continuation.loopsAssignOwn, Bool.and_eq_false_iff] at h
    rcases h with h | h
    · obtain ⟨s, slots, m, ht, hs⟩ := Block.exists_attains_twice hrounds htwo t env n h
      exact ⟨s, slots, m, .inl ht, hs⟩
    · obtain ⟨s, slots, m, he, hs⟩ := Block.exists_attains_twice hrounds htwo e env n h
      exact ⟨s, slots, m, .inr he, hs⟩
  | .switch value arms, env, n, h => Arms.exists_attains_twice hrounds htwo arms env n h
  | .deferred trigger b, env, n, h => by
    rw [Continuation.loopsAssignOwn, Bool.and_eq_false_iff, Bool.or_eq_false_iff] at h
    rcases h with ⟨hloop, hown⟩ | h
    · -- this is the loop, and two rounds of it are enough
      obtain ⟨name, hname⟩ := List.isEmpty_eq_false_iff_exists_mem.1 hown
      exact ⟨_, Continuation.attains_twice hrounds htwo (by simpa using hloop) hname⟩
    · obtain ⟨s, hs⟩ :=
        Block.exists_attains_twice hrounds htwo b (env.enter n trigger.declared) (n + 1) h
      exact ⟨s, Continuation.attains_deferred hrounds hs⟩
  | .nested b, env, n, h => Block.exists_attains_twice hrounds htwo b env n h
theorem Arms.exists_attains_twice (hrounds : rounds 1) (htwo : rounds 2) :
    ∀ (arms : Arms) (env : Bindings) (n : Nat),
    arms.loopsAssignOwn = false → ∃ s, Attains (arms.Runs rounds env n) [s, s]
  | .none, env, n, h => by cases h
  | .default b, env, n, h => Block.exists_attains_twice hrounds htwo b env n h
  | .case label b rest, env, n, h => by
    rw [Arms.loopsAssignOwn, Bool.and_eq_false_iff] at h
    rcases h with h | h
    · obtain ⟨s, slots, m, hb, hs⟩ := Block.exists_attains_twice hrounds htwo b env n h
      exact ⟨s, slots, m, .inl hb, hs⟩
    · obtain ⟨s, slots, m, hrest, hs⟩ := Arms.exists_attains_twice hrounds htwo rest env n h
      exact ⟨s, slots, m, .inr hrest, hs⟩
end

end

/-- Two rounds of some loop are enough for a function to assign a variable twice. -/
theorem Function.exists_runs_not_nodup {f : Function} (hrounds : rounds 1) (htwo : rounds 2)
    (h : f.block.loopsAssignOwn = false) : ∃ slots, f.Runs rounds slots ∧ ¬ slots.Nodup := by
  obtain ⟨s, inner, m, hinner, hs⟩ :=
    Block.exists_attains_twice hrounds htwo f.block (fun _ => 0) 1 h
  refine ⟨_, ⟨inner, m, rfl, hinner⟩, fun hnodup => ?_⟩
  exact List.nodup_iff_sublist.1 hnodup s (hs.trans (List.sublist_append_right _ _))

end Attained

namespace Numbering

section Executions

variable {settings : Settings} {foreign : Foreign} {globals created : Constants}
  {f : Function} {stats : Stats}

/-- **Single assignment in accepted functions.** If loops take one round at
most, then no execution assigns a variable twice. If they may take more, then
this is so if, and only if, no loop assigns a variable that is declared outside
of it. -/
theorem assigned_once_iff (h : (run settings foreign globals f).result = .ok (stats, created)) :
    (∀ slots, f.Runs (· ≤ 1) slots → slots.Nodup)
      ∧ ((∀ slots, f.Runs (fun _ => True) slots → slots.Nodup)
        ↔ f.block.loopsAssignOwn = true) := by
  have hf := run_ok_iff.1 ⟨_, h⟩
  refine ⟨fun slots => Function.nodup_of_runs hf (.inl fun _ => id),
    fun hall => ?_, fun hown slots => ?_⟩
  · by_contra hown
    obtain ⟨slots, hruns, hnodup⟩ : ∃ slots, f.Runs (fun _ => True) slots ∧ ¬ slots.Nodup :=
      Function.exists_runs_not_nodup trivial trivial (Bool.eq_false_iff.2 hown)
    exact hnodup (hall slots hruns)
  · exact Function.nodup_of_runs hf (.inr hown)

/-- The output of the functions below. -/
def loopOutput : Var := ⟨"o", .future .int, .stack, .outArg, .user⟩

/-- A function with a loop whose block declares some variables and stores into a
variable. -/
def storesInLoop (vars : List Var) (v : Var) : Function where
  name := "f"
  inputs := []
  outputs := [loopOutput]
  target := .control
  block :=
    .mk [] (.cont (.deferred
      (.range (.value "i" .int) (.lit (.int 0)) (.lit (.int 1)) (.lit (.int 1)))
      (.mk vars (.instr (.storeScalar v (.lit (.int 5))) .done))) .done)

/-- Every round assigns a variable of its own. -/
theorem assigned_once_iff_storesInLoop :
    let x : Var := ⟨"x", .future .int, .stack, .localUser, .user⟩
    (∃ r, (run {} .empty .empty (storesInLoop [x] x)).result = .ok r)
      ∧ ∀ slots, (storesInLoop [x] x).Runs (fun _ => True) slots → slots.Nodup := by
  intro x
  obtain ⟨r, hr⟩ : ∃ r, (run {} .empty .empty (storesInLoop [x] x)).result = .ok r :=
    run_ok_iff.2 (by decide +kernel)
  exact ⟨⟨r, hr⟩, (assigned_once_iff hr).2.2 (by decide +kernel)⟩

/-- **An accepted function that assigns its output twice**: the output is
assigned in every round of a loop. -/
theorem assigned_twice_of_loop :
    (∃ r, (run {} .empty .empty (storesInLoop [] loopOutput)).result = .ok r)
      ∧ ∃ slots, (storesInLoop [] loopOutput).Runs (fun _ => True) slots ∧ ¬ slots.Nodup :=
  ⟨run_ok_iff.2 (by decide +kernel),
    Function.exists_runs_not_nodup trivial trivial (by decide +kernel)⟩

end Executions

end Numbering

end ValueFlow
