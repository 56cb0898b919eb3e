import AsyncSimple.Executor.SimpleExecutor
import AsyncSimple.Util.Theorems.Pinning

open Transition

namespace AsyncSimple

namespace ThreadPool

variable {n : Nat} {φ χ ι : Type} {s : Config n φ χ ι} {h : Record n ι}

end ThreadPool

namespace SimpleExecutor

variable {π : Type} [DecidableEq π] {thread_num_ : π → Nat} {pool : π} {t t₁ t₂ : Thread thread_num_}
  {options : ScheduleOptions}

-- What a `Checkin` on thread `t₂` does with the context of a `Checkout` on thread `t₁`.
def roundTrip (pool : π) (t₁ t₂ : Thread thread_num_) (options : ScheduleOptions) : Dispatch :=
  checkin pool t₂.current (checkout pool t₁.current) options

theorem getCurrentId_worker (i : Fin (thread_num_ pool)) :
    getCurrentId pool (Thread.worker pool i : Thread thread_num_).current = BitVec.ofNat 32 i := by
  simp [getCurrentId, Thread.current]

theorem getCurrentId_other (h : ¬ t.WorksFor pool) : getCurrentId pool t.current = -1 := by
  cases t
  case worker p i =>
    have : pool ≠ p := by
      rintro rfl
      exact h ⟨i, rfl⟩
    simp [getCurrentId, Thread.current, this]
  case other => simp [getCurrentId, Thread.current]

-- The id of a worker is a small number, and is not changed by widening it.
theorem signExtend_id {i : Nat} (h : i < 2 ^ 30) :
    (BitVec.ofNat 32 i).signExtend 64 = BitVec.ofNat 64 i := by
  have hm : (BitVec.ofNat 32 i).msb = false := by
    rw [BitVec.msb_eq_false_iff_two_mul_lt, BitVec.toNat_ofNat]
    omega
  rw [BitVec.signExtend_eq_setWidth_of_msb_false hm]
  apply BitVec.eq_of_toNat_eq
  simp only [BitVec.toNat_setWidth, BitVec.toNat_ofNat]
  omega

theorem kContextMask_eq : kContextMask = BitVec.twoPow 64 30 := rfl

-- Nor is it changed by setting the bit of the mask and clearing it again.
theorem mask_id {i : Nat} (h : i < 2 ^ 30) :
    (BitVec.ofNat 64 i ||| kContextMask) &&& ~~~kContextMask = BitVec.ofNat 64 i := by
  simp only [BitVec.and_or_distrib_right, BitVec.and_not_self, BitVec.ofNat_eq_ofNat, BitVec.or_zero]
  apply BitVec.eq_of_getLsbD_eq
  intro j hj
  have hb : i.testBit 30 = false := Nat.testBit_lt_two_pow h
  by_cases h30 : j = 30
  · subst h30
    simp only [BitVec.getLsbD_and, BitVec.getLsbD_ofNat, hb, Bool.and_false, Bool.false_and]
  · have hk : kContextMask.getLsbD j = false := by
      simp [kContextMask_eq, BitVec.getLsbD_twoPow, Ne.symm h30]
    simp only [BitVec.getLsbD_and, BitVec.getLsbD_not, hk, hj, decide_true, Bool.not_false,
      Bool.and_true]

section Worker

variable {i : Fin (thread_num_ pool)} (hn : thread_num_ pool < 2 ^ 30)
include hn

theorem checkout_worker :
    checkout pool (Thread.worker pool i : Thread thread_num_).current &&& ~~~kContextMask =
      BitVec.ofNat 64 i := by
  have hi : i.val < 2 ^ 30 := by omega
  rw [checkout, getCurrentId_worker, signExtend_id hi, mask_id hi]

-- The context of a worker is checked in by a call on this worker, or by its id.
theorem roundTrip_worker (t : Thread thread_num_) (options : ScheduleOptions) :
    roundTrip pool (.worker pool i) t options = .call ∧ options.prompt ∧ t = .worker pool i ∨
    roundTrip pool (.worker pool i) t options = .scheduleById (BitVec.ofNat 32 i) := by
  have hi : i.val < 2 ^ 30 := by omega
  have hw : (BitVec.ofNat 64 i).setWidth 32 = BitVec.ofNat 32 i := by
    apply BitVec.eq_of_toNat_eq
    simp only [BitVec.toNat_setWidth, BitVec.toNat_ofNat]
    omega
  simp only [roundTrip, checkin, checkout_worker hn, hw]
  split
  case isFalse => exact .inr rfl
  case isTrue hp =>
    refine .inl ⟨rfl, hp.right, ?_⟩
    by_cases ht : t.WorksFor pool
    · obtain ⟨j, rfl⟩ := ht
      have hj : j.val < 2 ^ 30 := by omega
      have := congrArg BitVec.toNat hp.left
      rw [getCurrentId_worker, signExtend_id hj, BitVec.toNat_ofNat, BitVec.toNat_ofNat] at this
      rw [show j = i by omega]
    · have := congrArg BitVec.toNat hp.left
      rw [getCurrentId_other ht, BitVec.toNat_ofNat] at this
      have hm : (BitVec.signExtend 64 (-1 : BitVec 32)).toNat = 2 ^ 64 - 1 := by decide
      omega

end Worker

theorem toInt_id {i : Nat} (h : i < 2 ^ 30) : (BitVec.ofNat 32 i).toInt = i := by
  rw [BitVec.toInt_eq_toNat_of_lt] <;> rw [BitVec.toNat_ofNat] <;> omega

-- A single pool with two workers.
def twoWorkers : Unit → Nat
  | _ => 2

instance : NeZero (twoWorkers ()) :=
  ⟨by decide⟩

end SimpleExecutor
end AsyncSimple
