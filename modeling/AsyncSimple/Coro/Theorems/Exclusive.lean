import AsyncSimple.Coro.Theorems.Progress
import AsyncSimple.Coro.Theorems.Stranding

open Transition

namespace AsyncSimple
namespace Lazy

variable {ε α ξ θ χ : Type} {m : Setup ε α ξ θ χ} {s : Config ε α ξ θ χ}

namespace Config

-- Everything that is going to run some code: a thread that runs it, an executor or an external awaiter that
-- has been given it, and a coroutine or an awaiter that it is the continuation of. What an executor has
-- refused is kept beside it.
def holders (s : Config ε α ξ θ χ) : List Node :=
  s.tokens.map (·.node) ++ s.cells.filterMap (·.next) ++ s.refused

-- Code that has not come to its end: a coroutine that has been awaited, or launched by `Start`, the
-- `await_suspend` of the awaiter of a vector, and a child that this has launched.
def Pending (s : Config ε α ξ θ χ) : Node → Prop
  | .coro c    =>
    match s.cells[c]? with
    | some (.lazy f)          => f.alive
    | some (.via _ _ resumed) => resumed = false
    | some (.launch _ _ _ _)  => True
    | _                       => False
  | .starter q =>
    match s.cells[q]? with
    | some (.collectAll _ _ _ state) => state.starter.pending
    | some (.collectAny _ _ _ state) => state.starter.pending
    | _                              => False
  | .child q j =>
    match s.cells[q]? with
    | some (.collectAll _ _ _ state) => ∃ h, (state.child ⟨j, h⟩).pending
    | some (.collectAny _ _ _ state) => ∃ h, (state.child ⟨j, h⟩).pending
    | _                              => False

end Config

theorem count_holders (s : Config ε α ξ θ χ) (n : Node) : s.holders.count n = s.holds n := by
  simp only [Config.holders, Config.holds, List.count_append, List.count_filterMap, beq_eq_decide]
  rw [List.count, List.countP_map]
  rfl

theorem sum_child_pos {n : Nat} (p : Fin n → Bool) (q j : Nat) :
    0 < ∑ i, (if p i then (Node.child q i).one (.child q j) else 0) ↔ ∃ h : j < n, p ⟨j, h⟩ := by
  constructor
  · exact Wired.exists_pending
  · rintro ⟨h, hp⟩
    calc 0 < if p ⟨j, h⟩ then (Node.child q j).one (.child q j) else 0 := by rw [if_pos hp, one_self]; exact Nat.zero_lt_one
      _ ≤ _ := Finset.single_le_sum (f := fun i : Fin n => if p i then (Node.child q i).one (.child q j) else 0)
        (fun _ _ => Nat.zero_le _) (Finset.mem_univ (⟨j, h⟩ : Fin n))

theorem needs_starter (s : Config ε α ξ θ χ) (q : Nat) : s.needs (.starter q) = s.cells[q]?.elim 0 fun
    | .collectAll _ _ _ state => if state.starter.pending then 1 else 0
    | .collectAny _ _ _ state => if state.starter.pending then 1 else 0
    | _                       => 0 := by
  have h₁ : (Node.coro q).one (.starter q) = 0 := rfl
  have h₂ (j : Nat) : (Node.child q j).one (.starter q) = 0 := rfl
  simp only [Config.needs, Node.id]
  cases s.cells[q]?
  case none   => rfl
  case some x => cases x <;> simp [Cell.needs, h₁, h₂, one_self]

theorem needs_le_one (s : Config ε α ξ θ χ) (n : Node) : s.needs n ≤ 1 := by
  cases n
  case coro  => exact Holding.needs_coro_le ..
  case child => exact Wired.needs_child_le ..
  case starter q =>
    rw [needs_starter]
    cases s.cells[q]?
    case none   => exact Nat.zero_le _
    case some x =>
      cases x <;> simp only [Option.elim_some, Nat.zero_le]
      all_goals split <;> simp

theorem needs_pos_iff (s : Config ε α ξ θ χ) (n : Node) : 0 < s.needs n ↔ s.Pending n := by
  cases n
  case coro c    =>
    have h₁ : (Node.starter c).one (.coro c) = 0 := rfl
    have h₂ (j : Nat) : (Node.child c j).one (.coro c) = 0 := rfl
    simp only [Config.needs, Config.Pending, Node.id]
    cases s.cells[c]?
    case none   => simp
    case some x => cases x <;> simp [Cell.needs, h₁, h₂, one_self, Nat.pos_iff_ne_zero]
  case starter q =>
    rw [needs_starter, Config.Pending]
    cases s.cells[q]?
    case none   => simp
    case some x => cases x <;> simp [Nat.pos_iff_ne_zero]
  case child q j =>
    have h₁ : (Node.coro q).one (.child q j) = 0 := rfl
    have h₂ : (Node.starter q).one (.child q j) = 0 := rfl
    simp only [Config.needs, Config.Pending, Node.id]
    cases s.cells[q]?
    case none   => simp
    case some x =>
      cases x <;> simp only [Option.elim_some, Cell.needs, h₁, h₂, ite_self, Nat.zero_add, Nat.lt_irrefl, sum_child_pos]

-- All code that has not come to its end has exactly one holder, so that no coroutine is resumed twice, or by
-- two threads at once, or after its end, and none is forgotten.
theorem exclusive (h : m.system.Reachable s) : s.holders.Nodup ∧ ∀ n, n ∈ s.holders ↔ s.Pending n := by
  have i := Inv.reachable h
  refine ⟨List.nodup_iff_count_le_one.mpr fun n => ?_, fun n => ?_⟩
  · rw [count_holders, i.held]
    exact needs_le_one s n
  · rw [← List.count_pos_iff, count_holders, i.held]
    exact needs_pos_iff s n

-- The executors have refused the functions that start the children.
theorem exclusive_refused :
    let s := (workers awaitPara).system.after (List.replicate 12 (stepFirst false))
    s.refused = [.child 2 0, .child 2 1] ∧ s.holders.Nodup ∧ ∀ n, n ∈ s.holders ↔ s.Pending n :=
  ⟨by decide, exclusive ((workers awaitPara).system.reachable_after _)⟩

end Lazy
end AsyncSimple
