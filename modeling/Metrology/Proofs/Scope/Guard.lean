import Mathlib.Tactic.SplitIfs
import Metrology.Proofs.Scope

/-! What a guard leaves behind. Whatever is done in a guarded scope, as long as the scope itself stays open,
the scopes around it come back as they were when the guard closes. Only the variables assigned in a chain of
blocks that reaches down to the guard are forgotten there, up to and with the function around the guard. -/
namespace Metrology

variable {α : Type}

namespace Scope

def forgetting (names : List String) (scope : Scope α) : Scope α :=
  { scope with bindings := scope.bindings.map fun (n, v) => (n, if n ∈ names then v.forgotten else v) }

@[simp] theorem kind_forgetting (names : List String) (scope : Scope α) :
    (scope.forgetting names).kind = scope.kind := rfl

@[simp] theorem forgetting_nil (scope : Scope α) : scope.forgetting [] = scope := by
  simp [forgetting]

theorem forgetting_append (names : List String) (name : String) (scope : Scope α) :
    scope.forgetting (names ++ [name]) = { scope.forgetting names with
      bindings := (scope.forgetting names).bindings.modify name Value.forgotten } := by
  have hbinding : ∀ b : String × Value α,
      (b.1, if b.1 ∈ names ++ [name] then b.2.forgotten else b.2) =
        (b.1, if b.1 = name then (if b.1 ∈ names then b.2.forgotten else b.2).forgotten
          else if b.1 ∈ names then b.2.forgotten else b.2) := by
    intro b
    by_cases hname : b.1 = name <;> by_cases hold : b.1 ∈ names <;> simp_all
  simp only [forgetting, Bindings.modify, List.map_map, Function.comp_def, hbinding]

end Scope

namespace ScopeStack

/-- The open scopes from the inside out. -/
def scopes (s : ScopeStack α) : List (Scope α) := s.top :: s.below

@[simp] theorem length_scopes (s : ScopeStack α) : s.scopes.length = s.depth := rfl

/-- How many scopes a block inside them can make forget: the blocks around it and the function around those. -/
def reach (scopes : List (Scope α)) : Nat := (scopes.takeWhile (·.kind = .block)).length + 1

/-- Variables forgotten as far as a block inside the scopes can make them forget. -/
def forgetAlong (names : List String) (scopes : List (Scope α)) : List (Scope α) :=
  (scopes.take (reach scopes)).map (Scope.forgetting names) ++ scopes.drop (reach scopes)

theorem forgetAlong_cons (names : List String) (scope : Scope α) (rest : List (Scope α)) :
    forgetAlong names (scope :: rest) = scope.forgetting names :: match scope.kind with
      | .function => rest
      | .block => forgetAlong names rest := by
  cases h : scope.kind <;> simp [forgetAlong, reach, h]

theorem forgetAlong_nil (scopes : List (Scope α)) : forgetAlong [] scopes = scopes := by
  induction scopes with
  | nil => rfl
  | cons scope rest ih =>
    rw [forgetAlong_cons, ih, Scope.forgetting_nil]
    cases scope.kind <;> rfl

@[simp] theorem length_forgetAlong (names : List String) (scopes : List (Scope α)) :
    (forgetAlong names scopes).length = scopes.length := by
  simp only [forgetAlong, List.length_append, List.length_map, List.length_take, List.length_drop]
  omega

theorem forgetOutward_forgetAlong (name : String) (names : List String) (scopes : List (Scope α)) :
    forgetOutward name (forgetAlong names scopes) = forgetAlong (names ++ [name]) scopes := by
  induction scopes with
  | nil => rfl
  | cons scope rest ih =>
    rw [forgetAlong_cons, forgetAlong_cons, forgetOutward, Scope.forgetting_append]
    cases h : scope.kind with
    | function => simp [h]
    | block => simp [h, ih]

/-- The scopes around a guard of some kind, when some names have been assigned past it. -/
def aroundGuard (kind : Scope.Kind) (names : List String) (scopes : List (Scope α)) : List (Scope α) :=
  match kind with
  | .function => scopes
  | .block => forgetAlong names scopes

@[simp] theorem length_aroundGuard (kind : Scope.Kind) (names : List String) (scopes : List (Scope α)) :
    (aroundGuard kind names scopes).length = scopes.length := by
  cases kind with
  | function => rfl
  | block => exact length_forgetAlong names scopes

inductive Operation (α : Type)
  | push (kind : Scope.Kind)
  | pop
  | truncate (depth : Nat)
  | declare (name : String) (v : Value α)
  | assign (name : String) (v : Value α)
  | bind (name : String) (v : Value α)
deriving DecidableEq, Repr

def Operation.run (s : ScopeStack α) : Operation α → ScopeStack α
  | push kind => s.push kind
  | pop => s.pop
  | truncate depth => s.truncate depth
  | declare name v => (s.declare name v).toOption.getD s
  | assign name v => (s.assign name v).toOption.getD s
  | bind name v => s.bind name v

def run (s : ScopeStack α) (ops : List (Operation α)) : ScopeStack α := ops.foldl Operation.run s

def moments (s : ScopeStack α) : List (Operation α) → List (ScopeStack α × Operation α)
  | [] => []
  | op :: ops => (s, op) :: moments (op.run s) ops

inductive Action (α : Type)
  | single (op : Operation α)
  | guarded (kind : Scope.Kind) (inside : List (Action α))

mutual

def Action.run (s : ScopeStack α) : Action α → ScopeStack α
  | .single op => op.run s
  | .guarded kind inside => s.within kind fun s => runActions s inside

def runActions (s : ScopeStack α) : List (Action α) → ScopeStack α
  | [] => s
  | action :: rest => runActions (action.run s) rest

end

mutual

/-- The operations that an action comes down to: a guard closes to the depth that it was opened at. -/
def Action.operations (s : ScopeStack α) : Action α → List (Operation α)
  | .single op => [op]
  | .guarded kind inside =>
    .push kind :: (operationsOf (s.push kind) inside ++ [.truncate s.depth])

def operationsOf (s : ScopeStack α) : List (Action α) → List (Operation α)
  | [] => []
  | action :: rest => action.operations s ++ operationsOf (action.run s) rest

end

theorem run_append (s : ScopeStack α) (ops ops' : List (Operation α)) :
    s.run (ops ++ ops') = (s.run ops).run ops' := List.foldl_append

mutual

theorem run_operations (s : ScopeStack α) (action : Action α) :
    s.run (action.operations s) = action.run s := by
  cases action with
  | single op => rfl
  | guarded kind inside =>
    rw [Action.operations, Action.run, within, ← run_operationsOf]
    exact run_append (s.push kind) _ [.truncate s.depth]

theorem run_operationsOf (s : ScopeStack α) (actions : List (Action α)) :
    s.run (operationsOf s actions) = runActions s actions := by
  cases actions with
  | nil => rfl
  | cons action rest =>
    rw [operationsOf, runActions, run_append, run_operations, run_operationsOf]

end

/-- Some scopes and others around them, with a guard of some kind between. -/
inductive Above (kind : Scope.Kind) (outer : List (Scope α)) : List (Scope α) → Prop
  | guard {scope : Scope α} (hkind : scope.kind = kind) : Above kind outer (scope :: outer)
  | inner {scope : Scope α} {rest : List (Scope α)} (inside : Above kind outer rest) :
      Above kind outer (scope :: rest)

/-- Only blocks are open above a depth. -/
def OnlyBlocks (depth : Nat) (scopes : List (Scope α)) : Prop :=
  ∀ scope ∈ scopes.take (scopes.length - depth), scope.kind = .block

instance (depth : Nat) (scopes : List (Scope α)) : Decidable (OnlyBlocks depth scopes) :=
  inferInstanceAs (Decidable (∀ scope ∈ scopes.take (scopes.length - depth), scope.kind = .block))

namespace Above

variable {kind : Scope.Kind} {outer scopes rest : List (Scope α)} {scope : Scope α}

theorem length_lt (h : Above kind outer scopes) : outer.length < scopes.length := by
  induction h with
  | guard => exact Nat.lt_succ_self _
  | inner _ ih => exact Nat.lt_succ_of_lt ih

theorem onlyBlocks_guard : OnlyBlocks outer.length (scope :: outer) ↔ scope.kind = .block := by
  simp [OnlyBlocks]

theorem onlyBlocks_cons (h : Above kind outer rest) :
    OnlyBlocks outer.length (scope :: rest) ↔ scope.kind = .block ∧ OnlyBlocks outer.length rest := by
  have hlt := h.length_lt
  have htake : (scope :: rest).length - outer.length = rest.length - outer.length + 1 := by
    rw [List.length_cons]
    omega
  rw [OnlyBlocks, htake, List.take_succ_cons, List.forall_mem_cons]
  rfl

/-- Inside a guarded function no chain of blocks reaches the guard. -/
theorem not_onlyBlocks (h : Above .function outer scopes) : ¬ OnlyBlocks outer.length scopes := by
  induction h with
  | guard hkind => simp [onlyBlocks_guard, hkind]
  | inner inside ih => exact fun hblocks => ih ((onlyBlocks_cons inside).1 hblocks).2

theorem rebind (h : Above kind outer (scope :: rest)) {scope' : Scope α} (hkind : scope'.kind = scope.kind) :
    Above kind outer (scope' :: rest) := by
  cases h with
  | guard h => exact .guard (hkind.trans h)
  | inner inside => exact .inner inside

theorem drop (h : Above kind outer scopes) {n : Nat} (hn : outer.length < scopes.length - n) :
    Above kind outer (scopes.drop n) := by
  induction h generalizing n with
  | @guard scope hkind =>
    obtain rfl : n = 0 := by
      simp only [List.length_cons] at hn
      omega
    exact .guard hkind
  | @inner scope rest inside ih =>
    cases n with
    | zero => exact .inner inside
    | succ n =>
      simp only [List.length_cons, Nat.add_sub_add_right] at hn
      exact ih hn

/-- Where nothing is left of what was inside the guard, the scopes around it are left. -/
theorem drop_eq (h : Above kind outer scopes) : scopes.drop (scopes.length - outer.length) = outer := by
  induction h with
  | guard => simp
  | @inner scope rest inside ih =>
    have hlt := inside.length_lt
    have hsucc : (scope :: rest).length - outer.length = rest.length - outer.length + 1 := by
      rw [List.length_cons]
      omega
    rw [hsucc, List.drop_succ_cons, ih]

/-- An assignment to the innermost scope gets past the guard exactly when only blocks are open there. -/
theorem assign (h : Above kind outer (scope :: rest)) (name : String) {scope' : Scope α}
    (hkind : scope'.kind = scope.kind) :
    Above kind (if OnlyBlocks outer.length (scope :: rest) then forgetOutward name outer else outer)
      (scope' :: match scope.kind with
        | .function => rest
        | .block => forgetOutward name rest) := by
  -- by how deep the innermost scope lies; what it is bound to plays no part
  generalize hscopes : scope :: rest = scopes at h
  induction h generalizing scope scope' rest with
  | @guard inside hguard =>
    obtain ⟨rfl, rfl⟩ := List.cons.inj hscopes
    simp only [onlyBlocks_guard]
    cases hs : scope.kind with
    | function => exact .guard (hkind.trans hguard)
    | block => exact .guard (hkind.trans hguard)
  | @inner _ below inside ih =>
    obtain ⟨rfl, rfl⟩ := List.cons.inj hscopes
    cases hs : scope.kind with
    | function =>
      have hblocks : ¬ OnlyBlocks outer.length (scope :: rest) := by
        simp [onlyBlocks_cons inside, hs]
      rw [if_neg hblocks]
      exact .inner inside
    | block =>
      have hblocks : OnlyBlocks outer.length (scope :: rest) ↔ OnlyBlocks outer.length rest := by
        simp [onlyBlocks_cons inside, hs]
      rw [if_congr hblocks rfl rfl]
      cases rest with
      | nil => cases inside
      | cons scope₁ rest₁ =>
        have hkind₁ : ({ scope₁ with bindings := scope₁.bindings.modify name Value.forgotten } :
          Scope α).kind = scope₁.kind := rfl
        exact .inner (ih hkind₁ rfl)

end Above

/-- The name, if any, that an operation makes forgotten below a depth: one that is assigned while only
blocks are open above. -/
def forgets? (depth : Nat) (moment : ScopeStack α × Operation α) : Option String :=
  match moment.2 with
  | .assign name v =>
    if (moment.1.assign name v).isOk ∧ OnlyBlocks depth moment.1.scopes then some name else none
  | _ => none

theorem scopes_pop {s : ScopeStack α} (h : 1 < s.depth) : s.pop.scopes = s.scopes.drop 1 := by
  obtain ⟨top, below, reserved⟩ := s
  cases below with
  | nil => exact absurd h (Nat.lt_irrefl 1)
  | cons scope below => rfl

@[simp] theorem reserved_pop (s : ScopeStack α) : s.pop.reserved = s.reserved := by
  unfold pop
  split <;> rfl

theorem popTimes_spec {s : ScopeStack α} {n : Nat} (h : n < s.depth) :
    (s.popTimes n).scopes = s.scopes.drop n ∧ (s.popTimes n).reserved = s.reserved := by
  induction n generalizing s with
  | zero => exact ⟨rfl, rfl⟩
  | succ n ih =>
    have hpop := scopes_pop (s := s) (by omega)
    have hdepth : n < s.pop.depth := by
      rw [← length_scopes, hpop, List.length_drop, length_scopes]
      omega
    obtain ⟨hscopes, hreserved⟩ := ih hdepth
    refine ⟨?_, hreserved.trans (reserved_pop s)⟩
    rw [popTimes, hscopes, hpop, List.drop_drop, Nat.add_comm]

theorem truncate_spec (s : ScopeStack α) (depth : Nat) :
    (s.truncate depth).scopes = s.scopes.drop (s.depth - max depth 1) ∧
      (s.truncate depth).reserved = s.reserved := by
  have hpos : 0 < s.depth := Nat.succ_pos _
  exact popTimes_spec (by omega)

/-- The scopes inside a guard that was opened on `s`, when some names have been assigned past it. -/
structure Guarded (kind : Scope.Kind) (s : ScopeStack α) (names : List String) (c : ScopeStack α) :
    Prop where
  reserved : c.reserved = s.reserved
  scopes : Above kind (aroundGuard kind names s.scopes) c.scopes

namespace Guarded

variable {kind : Scope.Kind} {s c : ScopeStack α} {names : List String}

theorem enter (s : ScopeStack α) (kind : Scope.Kind) : Guarded kind s [] (s.push kind) where
  reserved := rfl
  scopes := by
    cases kind with
    | function => exact .guard rfl
    | block =>
      rw [aroundGuard, forgetAlong_nil]
      exact .guard rfl

theorem keep {c' : ScopeStack α} (h : Guarded kind s names c) (hreserved : c'.reserved = c.reserved)
    (hscopes : ∀ outer, outer.length = s.depth → Above kind outer c.scopes → Above kind outer c'.scopes) :
    Guarded kind s names c' :=
  ⟨hreserved.trans h.reserved, hscopes _ (length_aroundGuard kind names s.scopes) h.scopes⟩

theorem assign (h : Guarded kind s names c) {name : String} {v : Value α} {c' : ScopeStack α}
    (hc : c.assign name v = .ok c') :
    Guarded kind s (names ++ if OnlyBlocks s.depth c.scopes then [name] else []) c' := by
  unfold ScopeStack.assign at hc
  split at hc
  · cases hc
    refine ⟨h.reserved, ?_⟩
    have hkind : ({ c.top with bindings := c.top.bindings.modify name fun _ => v } : Scope α).kind =
      c.top.kind := rfl
    have habove := h.scopes.assign name hkind
    rw [length_aroundGuard, length_scopes] at habove
    change Above kind (if OnlyBlocks s.depth c.scopes then _ else _) _ at habove
    cases kind with
    | function =>
      have hblocks : ¬ OnlyBlocks s.depth c.scopes := h.scopes.not_onlyBlocks
      rwa [if_neg hblocks] at habove
    | block =>
      split_ifs at habove ⊢ with hblocks
      · rwa [aroundGuard, forgetOutward_forgetAlong] at habove
      · rwa [List.append_nil]
  · cases hc

theorem step (h : Guarded kind s names c) {op : Operation α} (hopen : s.depth < (op.run c).depth) :
    Guarded kind s (names ++ (forgets? s.depth (c, op)).toList) (op.run c) := by
  cases op with
  | push kind' =>
    rw [forgets?, Option.toList_none, List.append_nil]
    exact h.keep rfl fun outer _ habove => .inner habove
  | pop =>
    rw [forgets?, Option.toList_none, List.append_nil]
    refine h.keep (reserved_pop c) fun outer hlen habove => ?_
    have hdepth : 1 < c.depth := by
      have hlt := habove.length_lt
      rw [hlen, length_scopes] at hlt
      have hpos : 0 < s.depth := Nat.succ_pos _
      omega
    have hscopes := scopes_pop hdepth
    have hdrop : s.depth < (c.scopes.drop 1).length := hscopes ▸ hopen
    rw [Operation.run, hscopes]
    exact habove.drop (by simpa [hlen] using hdrop)
  | truncate depth =>
    rw [forgets?, Option.toList_none, List.append_nil]
    obtain ⟨hscopes, hreserved⟩ := truncate_spec c depth
    refine h.keep hreserved fun outer hlen habove => ?_
    have hdrop : s.depth < (c.scopes.drop (c.depth - max depth 1)).length := hscopes ▸ hopen
    rw [Operation.run, hscopes]
    exact habove.drop (by simpa [hlen] using hdrop)
  | declare name v =>
    rw [forgets?, Option.toList_none, List.append_nil, Operation.run]
    cases hd : c.declare name v with
    | error e => exact h
    | ok c' =>
      have hc' : c' = c.bind name v := by
        unfold ScopeStack.declare at hd
        split_ifs at hd
        exact (Except.ok.inj hd).symm
      subst hc'
      exact h.keep rfl fun outer _ habove => habove.rebind rfl
  | assign name v =>
    rw [Operation.run]
    cases ha : c.assign name v with
    | error e =>
      have hnone : forgets? s.depth (c, .assign name v) = none := by
        simp [forgets?, ha, Except.isOk, Except.toBool]
      rw [hnone, Option.toList_none, List.append_nil]
      exact h
    | ok c' =>
      have hsome : (forgets? s.depth (c, .assign name v)).toList =
          if OnlyBlocks s.depth c.scopes then [name] else [] := by
        simp only [forgets?, ha, Except.isOk, Except.toBool, true_and]
        split_ifs <;> rfl
      rw [hsome]
      exact h.assign ha
  | bind name v =>
    rw [forgets?, Option.toList_none, List.append_nil]
    exact h.keep rfl fun outer _ habove => habove.rebind rfl

theorem run {ops : List (Operation α)} (h : Guarded kind s names c)
    (hopen : ∀ m ∈ moments c ops, s.depth < (m.2.run m.1).depth) :
    Guarded kind s (names ++ (moments c ops).filterMap (forgets? s.depth)) (c.run ops) := by
  induction ops generalizing c names with
  | nil => simpa [moments, ScopeStack.run] using h
  | cons op ops ih =>
    rw [moments, List.forall_mem_cons] at hopen
    have hrest := ih (h.step hopen.1) hopen.2
    have hnames : (moments c (op :: ops)).filterMap (forgets? s.depth) =
        (forgets? s.depth (c, op)).toList ++ (moments (op.run c) ops).filterMap (forgets? s.depth) := by
      rw [moments, List.filterMap_cons]
      cases forgets? s.depth (c, op) <;> rfl
    rw [hnames, ← List.append_assoc]
    exact hrest

theorem close (h : Guarded kind s names c) :
    (c.truncate s.depth).reserved = s.reserved ∧
      (c.truncate s.depth).scopes = aroundGuard kind names s.scopes := by
  obtain ⟨hscopes, hreserved⟩ := truncate_spec c s.depth
  refine ⟨hreserved.trans h.reserved, ?_⟩
  have hmax : max s.depth 1 = s.depth := Nat.max_eq_left (Nat.succ_pos _)
  have hdrop := h.scopes.drop_eq
  rw [length_aroundGuard, length_scopes, length_scopes] at hdrop
  rw [hscopes, hmax]
  exact hdrop

end Guarded

/-- The exact effect of a guard, for all that can be done inside without closing its scope. A guarded function
leaves the scopes around it as they were. A guarded block leaves them with those variables forgotten that were
assigned while only blocks were open inside, from the scope around the guard up to and with the nearest
function. -/
theorem scopes_after_guard (s : ScopeStack α) (kind : Scope.Kind) (inside : List (Action α))
    (hopen : ∀ m ∈ moments (s.push kind) (operationsOf (s.push kind) inside),
      s.depth < (m.2.run m.1).depth) :
    ((Action.guarded kind inside).run s).reserved = s.reserved ∧
      ((Action.guarded kind inside).run s).scopes = aroundGuard kind
        ((moments (s.push kind) (operationsOf (s.push kind) inside)).filterMap (forgets? s.depth))
        s.scopes := by
  have hrun := (Guarded.enter s kind).run hopen
  rw [run_operationsOf, List.nil_append] at hrun
  rw [Action.run]
  exact hrun.close

def counted (n : Rat) : Value Rat := .measurement ⟨⟨"number", "", ⟨[]⟩, false⟩, some n⟩

/-- A function with two variables. -/
def counting : ScopeStack Rat :=
  ((((empty ["meter"]).push .function).bind "n" (counted 0)).bind "limit" (counted 9))

/-- One of them is assigned in two blocks, the other in a function inside the first of the blocks. -/
def loopBody : List (Action Rat) :=
  [.guarded .function [.single (.assign "limit" (counted 7)), .single (.bind "limit" (counted 8))],
    .single (.push .block), .single (.assign "n" (counted 1)), .single (.assign "meter" (counted 2)),
    .guarded .block [.single .pop, .single (.declare "meter" (counted 3))], .single (.truncate 3)]

/-- Only the first is forgotten when the outer block closes. -/
theorem counting_after_guard :
    (∀ m ∈ moments (counting.push .block) (operationsOf (counting.push .block) loopBody),
      counting.depth < (m.2.run m.1).depth) ∧
      ((Action.guarded .block loopBody).run counting).scopes =
        [⟨.function, [("limit", counted 9), ("n", (counted 0).forgotten)]⟩, ⟨.function, []⟩] := by
  have hopen : ∀ m ∈ moments (counting.push .block) (operationsOf (counting.push .block) loopBody),
      counting.depth < (m.2.run m.1).depth := by decide +kernel
  refine ⟨hopen, ?_⟩
  rw [(scopes_after_guard counting .block loopBody hopen).2]
  decide +kernel

end ScopeStack

end Metrology
