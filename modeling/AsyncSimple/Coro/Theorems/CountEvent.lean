import AsyncSimple.Lib.Count
import AsyncSimple.Coro.CountEvent

namespace AsyncSimple

namespace DownPc

variable {κ : Type}

def pending : DownPc κ → Nat
  | .down => 1
  | _     => 0

def exchanging : DownPc κ → Nat
  | .exchange => 1
  | _         => 0

def resuming : DownPc κ → Nat
  | .resume _ => 1
  | _         => 0

-- A bound on the number of steps that a party has left.
def rank : DownPc κ → Nat
  | .down     => 3
  | .exchange => 2
  | .resume _ => 1
  | .done     => 0

theorem rank_step {pc : DownPc κ} (h : pc.step event resumed = some (event', resumed', pc')) :
    pc'.rank < pc.rank := by
  cases pc <;> simp only [step, CountEvent.downCount, CountEvent.exchange] at h
  case down =>
    cases h
    by_cases hc : event.count_ = 1 <;> simp [hc, rank]
  case exchange => split at h <;> cases h <;> simp [rank]
  case resume =>
    cases h
    simp [rank]
  case done     => contradiction

theorem step_none {pc : DownPc κ} (h : pc.step event resumed = none) : pc = .done := by
  cases pc <;> simp only [step, CountEvent.exchange] at h
  case exchange => split at h <;> contradiction
  case done     => rfl
  all_goals contradiction

theorem step_resumed {pc : DownPc κ} (h : pc.step event resumed = some (event', resumed', pc'))
    (hp : ∀ h, pc ≠ .resume h) : resumed' = resumed := by
  cases pc <;> simp only [step, CountEvent.exchange] at h
  case down     => simp_all
  case exchange => split at h <;> simp_all
  case resume   => exact absurd rfl (hp _)
  case done     => contradiction

end DownPc

-- Parties `ρ` that share an event, each of which counts it down once.
structure Countdown (ρ κ : Type) where
  event   : CountEvent κ
  resumed : List κ
  pc      : ρ → DownPc κ

namespace Countdown

open DownPc

variable {ρ κ : Type} [Fintype ρ]

def total (pc : ρ → DownPc κ) (w : DownPc κ → Nat) : Nat :=
  ∑ p, w (pc p)

-- The invariant of a countdown for the coroutine `h`, which one of the parties has registered or
-- will register before it counts down itself. Once the count is zero, there is one party that is
-- about to take the coroutine, or to resume it, or that has resumed it.
structure Inv (h : κ) (registered : Prop) (c : Countdown ρ κ) : Prop where
  count    : c.event.count_ = total c.pc pending
  before   : c.event.count_ ≠ 0 → total c.pc exchanging + total c.pc resuming + c.resumed.length = 0
  after    : c.event.count_ = 0 → total c.pc exchanging + total c.pc resuming + c.resumed.length = 1
  handle   : registered → total c.pc resuming + c.resumed.length = 0 →
             c.event.awaiting_coroutine_ = some h
  atResume : ∀ p h', c.pc p = .resume h' → h' = h
  resumed  : ∀ h' ∈ c.resumed, h' = h

variable {h : κ} {registered : Prop} {c : Countdown ρ κ}

theorem total_eq_zero {pc : ρ → DownPc κ} (hw : total pc w = 0) (p : ρ) : w (pc p) = 0 :=
  Finset.sum_eq_zero_iff.mp hw p (Finset.mem_univ p)

theorem le_total (pc : ρ → DownPc κ) (w : DownPc κ → Nat) (p : ρ) : w (pc p) ≤ total pc w :=
  Finset.single_le_sum (f := fun p => w (pc p)) (fun _ _ => Nat.zero_le _) (Finset.mem_univ p)

namespace Inv

theorem init [Nonempty ρ] (hpc : ∀ p, c.pc p = .down) (hc : c.event.count_ = Fintype.card ρ)
    (hr : c.resumed = []) : Inv h False c := by
  have h₁ : total c.pc pending = Fintype.card ρ := by simp [total, hpc, pending]
  have h₂ : total c.pc exchanging = 0 := by simp [total, hpc, exchanging]
  have h₃ : total c.pc resuming = 0 := by simp [total, hpc, resuming]
  have := Fintype.card_pos (α := ρ)
  exact ⟨by omega, by simp [h₂, h₃, hr], by omega, nofun, by simp [hpc], by simp [hr]⟩

theorem mono (i : Inv h registered c) (hr : registered' → registered) : Inv h registered' c :=
  ⟨i.count, i.before, i.after, fun h => i.handle (hr h), i.atResume, i.resumed⟩

theorem resumed_le (i : Inv h registered c) : c.resumed.length ≤ 1 := by
  have h₁ := i.before
  have h₂ := i.after
  omega

-- Once the coroutine has been resumed, all parties are done.
theorem done_of_resumed (i : Inv h registered c) (hr : c.resumed ≠ []) (p : ρ) : c.pc p = .done := by
  have hl := List.length_pos_iff.mpr hr
  have hb := i.before
  have ha := i.after
  have hc := i.count
  have h₁ : pending (c.pc p) = 0 := total_eq_zero (by omega) p
  have h₂ : exchanging (c.pc p) = 0 := total_eq_zero (by omega) p
  have h₃ : resuming (c.pc p) = 0 := total_eq_zero (by omega) p
  cases hp : c.pc p <;> simp [hp, pending, exchanging, resuming] at h₁ h₂ h₃ ⊢

-- Once all parties are done, the coroutine has been resumed.
theorem resumed_of_done (i : Inv h registered c) (hd : ∀ p, c.pc p = .done) : c.resumed = [h] := by
  have hz (w : DownPc κ → Nat) (hw : w .done = 0) : total c.pc w = 0 :=
    Finset.sum_eq_zero fun p _ => by rw [hd, hw]
  have ha := i.after (i.count.trans (hz pending rfl))
  rw [hz exchanging rfl, hz resuming rfl] at ha
  obtain ⟨h', hr⟩ := List.length_eq_one_iff.mp (by omega : c.resumed.length = 1)
  rw [hr, i.resumed h' (by simp [hr])]

theorem register (i : Inv h False c) :
    Inv h True { c with event := c.event.setAwaitingCoroutine h } :=
  ⟨i.count, i.before, i.after, fun _ _ => rfl, i.atResume, i.resumed⟩

variable [DecidableEq ρ]

-- A party takes its next step. Unless the coroutine has been registered, some other party has not
-- counted down yet.
theorem step {p : ρ} {pc' : DownPc κ} (i : Inv h registered c)
    (hs : (c.pc p).step c.event c.resumed = some (event', resumed', pc'))
    (hr : registered ∨ ∃ q, c.pc q = .down ∧ q ≠ p) :
    Inv h registered ⟨event', resumed', Function.update c.pc p pc'⟩ := by
  have hsum (w : DownPc κ → Nat) :
      total (Function.update c.pc p pc') w + w (c.pc p) = total c.pc w + w pc' :=
    Count.sum_update w c.pc p pc'
  have hle (w : DownPc κ → Nat) : w (c.pc p) ≤ total c.pc w := le_total c.pc w p
  have hat (hne : ∀ h', pc' = .resume h' → h' = h) (q : ρ) (h' : κ)
      (hq : Function.update c.pc p pc' q = .resume h') : h' = h := by
    by_cases hqp : q = p
    · subst hqp
      exact hne h' (by simpa using hq)
    · exact i.atResume q h' (by simpa [Function.update_of_ne hqp] using hq)
  have h₁ := hsum pending
  have h₂ := hsum exchanging
  have h₃ := hsum resuming
  have hcount := i.count
  have hbefore := i.before
  have hafter := i.after
  have hhandle := i.handle
  cases hp : c.pc p <;> simp only [DownPc.step, hp, CountEvent.downCount, CountEvent.exchange] at hs
  case down =>
    have hpos := hle pending
    simp only [hp, pending, exchanging, resuming] at h₁ h₂ h₃ hpos
    by_cases ho : c.event.count_ = 1 <;> simp only [ho, if_true, if_false] at hs <;> cases hs <;>
      simp only at h₁ h₂ h₃
    case pos =>
      refine ⟨?_, ?_, ?_, fun hr h => hhandle hr (by omega), hat nofun, i.resumed⟩ <;>
        dsimp only <;> omega
    case neg =>
      refine ⟨?_, ?_, ?_, fun hr h => hhandle hr (by omega), hat nofun, i.resumed⟩ <;>
        dsimp only <;> omega
  case exchange =>
    have hpos := hle exchanging
    simp only [hp, pending, exchanging, resuming] at h₁ h₂ h₃ hpos
    have hreg : registered := by
      obtain hr | ⟨q, hq, _⟩ := hr
      · exact hr
      · have := le_total c.pc pending q
        simp only [hq, pending] at this
        omega
    have hh := hhandle hreg (by omega)
    simp only [hh] at hs
    cases hs
    simp only at h₁ h₂ h₃
    refine ⟨?_, ?_, ?_, fun hr h => ?_, hat (by simp), i.resumed⟩ <;> dsimp only at * <;> omega
  case resume h' =>
    have hpos := hle resuming
    simp only [hp, pending, exchanging, resuming] at h₁ h₂ h₃ hpos
    cases hs
    simp only at h₁ h₂ h₃
    refine ⟨?_, ?_, ?_, fun hr h => ?_, hat nofun, ?_⟩
    all_goals simp only [List.length_append, List.length_singleton, List.mem_append,
      List.mem_singleton] at *
    · omega
    · omega
    · omega
    · omega
    · rintro h'' (h₄ | rfl)
      · exact i.resumed h'' h₄
      · exact i.atResume p _ hp
  case done => contradiction

end Inv
end Countdown
end AsyncSimple
