import AsyncSimple.Lib.Count
import AsyncSimple.Coro.CollectAny
import Mathlib.Data.Fintype.Card

open Transition

namespace AsyncSimple
namespace CollectAnyAwaiter

variable {n : Nat} {ε α κ ξ : Type}

namespace StarterPc

-- The children from this number on have not been started.
def next : StarterPc n → Nat
  | .loop i   => i
  | .bind i   => i
  | .start i  => i
  | .returned => n
  | _         => 0

-- The local variables of `await_suspend` have been made.
def Made : StarterPc n → Prop
  | .awaitReady | .ready | .moveInput => False
  | _                                 => True

-- The awaiter is not used any more.
def Left : StarterPc n → Prop
  | .awaitReady | .ready | .moveInput | .setResult => False
  | _                                              => True

end StarterPc

namespace ChildPc

-- The child has counted down.
def Down : ChildPc ε α → Prop
  | .notStarted | .running | .downCount _ => False
  | _                                     => True

end ChildPc

variable {m : Setup n κ ξ} {s s₁ s₂ : Config n ε α κ ξ} {i : Fin n}

namespace Config

-- What is known about the child that has counted down first, which alone writes the result.
def Winner (m : Setup n κ ξ) (s : Config n ε α κ ξ) (w : Fin n) : Prop :=
  ∃ t r, s.produced w = some t ∧ s.res = some r ∧
    match s.child w with
    | .setIndex t' => t' = t ∧ s.writes = [] ∧ s.resumed = [] ∧ s.received = none
    | .setValue t' => t' = t ∧ r.index = some w.val ∧ s.writes = [w] ∧ s.resumed = [] ∧ s.received = none
    | .resume      => r = ⟨some w, t⟩ ∧ s.writes = [w, w] ∧ s.resumed = [] ∧ s.received = none
    | .finished    => s.writes = [w, w] ∧ s.resumed = [(w, m.continuation)] ∧
                      (s.received = none ∧ r = ⟨some w, t⟩ ∨ s.received = some ⟨some w, t⟩)
    | _            => False

-- The state of the result, by the children that have counted down.
def Outcome (m : Setup n κ ξ) (s : Config n ε α κ ξ) : List (Fin n) → Prop
  | []          =>
    (∀ r, s.res = some r → r.index = none) ∧ s.writes = [] ∧ s.resumed = [] ∧ s.received = none
  | w :: losers => s.Winner m w ∧ ∀ j ∈ losers, s.child j = .finished

end Config

structure Inv (m : Setup n κ ξ) (s : Config n ε α κ ξ) : Prop where
  made     : s.starter.Made → s.in_.isSome ∧ s.res.isSome ∧
             ∃ e, s.event = some e ∧ e.count_ + s.downed.length = n + 1
  input    : ¬ s.starter.Made → s.input.isSome
  result   : s.starter.Left ↔ s.result = true
  ready    : s.starter ≠ .ready
  next     : ∀ i : Fin n, s.starter.next ≤ i → s.child i = .notStarted
  first    : ∀ i : Fin n, i.val = 0 → s.starter = .returned ∨ 0 < s.starter.next → s.child i ≠ .notStarted
  nodup    : s.downed.Nodup
  down     : ∀ i, i ∈ s.downed ↔ (s.child i).Down
  callback : ∀ i t, s.child i = .downCount t → s.produced i = some t
  outcome  : s.Outcome m s.downed
  late     : s.late = false

namespace Config

-- A step that does not concern the children that have counted down leaves the outcome as it is.
theorem Outcome.congr {l : List (Fin n)} (o : s₁.Outcome m l) (hr : s₂.res = s₁.res)
    (hw : s₂.writes = s₁.writes) (hs : s₂.resumed = s₁.resumed) (hc : s₂.received = s₁.received)
    (hl : ∀ j ∈ l, s₂.child j = s₁.child j ∧ s₂.produced j = s₁.produced j) : s₂.Outcome m l := by
  cases l
  case nil => simpa only [Outcome, hr, hw, hs, hc] using o
  case cons w l =>
    obtain ⟨hcw, hpw⟩ := hl w (.head l)
    refine ⟨by simpa only [Winner, hr, hw, hs, hc, hcw, hpw] using o.left, fun j hj => ?_⟩
    rw [(hl j (.tail w hj)).left]
    exact o.right j hj

-- A child that is between counting down and its end is the first that has counted down.
theorem Outcome.winner {l : List (Fin n)} (o : s.Outcome m l) (hi : i ∈ l) (hf : s.child i ≠ .finished) :
    ∃ losers, l = i :: losers ∧ s.Winner m i ∧ ∀ j ∈ losers, s.child j = .finished := by
  cases l
  case nil => contradiction
  case cons w l =>
    cases hi
    case head   => exact ⟨l, rfl, o.left, o.right⟩
    case tail h => exact absurd (o.right i h) hf

end Config

namespace Inv

theorem init : Inv m (m.init : Config n ε α κ ξ) where
  made     := False.elim
  input _  := rfl
  result   := by simp [Setup.init, StarterPc.Left]
  ready    := nofun
  next _ _ := rfl
  first    := by simp [Setup.init, StarterPc.next]
  nodup    := .nil
  down     := by simp [Setup.init, ChildPc.Down]
  callback := nofun
  outcome  := ⟨nofun, rfl, rfl, rfl⟩
  late     := rfl

theorem downed_nil (i : Inv m s) (h : s.starter.next = 0) : s.downed = [] := by
  refine List.eq_nil_iff_forall_not_mem.mpr fun j hj => ?_
  have hd := (i.down j).mp hj
  rw [i.next j (by omega)] at hd
  exact hd

-- While the awaiter is in use, no child has been started, so that nothing has been resumed.
theorem touch (i : Inv m s) (h : s.starter.next = 0) : s.touch = s := by
  have ho := i.outcome
  rw [i.downed_nil h] at ho
  simp only [Config.touch, ho.2.2.1, List.isEmpty_nil, Bool.not_true, Bool.or_false]
  rw [← ho.2.2.1]

-- A step within the loop of the starter.
theorem goto {pc : StarterPc n} (i : Inv m s) (hl : s.starter.Left) (hp : pc.Left)
    (hn : ∀ k : Fin n, pc.next ≤ k → s.starter.next ≤ k)
    (hf : ∀ i : Fin n, i.val = 0 → pc = .returned ∨ 0 < pc.next → s.child i ≠ .notStarted) :
    Inv m (s.goto pc) where
  made _   := i.made (by cases h : s.starter <;> simp_all [StarterPc.Left, StarterPc.Made])
  input h  := absurd hp (by cases pc <;> simp_all [Config.goto, StarterPc.Left, StarterPc.Made])
  result   := iff_of_true hp (i.result.mp hl)
  ready    := by
    intro h
    change pc = _ at h
    simp [h, StarterPc.Left] at hp
  next k h := i.next k (hn k h)
  first    := hf
  nodup    := i.nodup
  down     := i.down
  callback := i.callback
  outcome  := i.outcome
  late     := i.late

theorem ne_of_mem (i : Inv m s) (hk : k ∈ s.downed) (hj : ¬ (s.child j).Down) : k ≠ j :=
  fun h => hj (h ▸ (i.down k).mp hk)

theorem down_update {pc : ChildPc ε α} (i : Inv m s) (h : (s.child j).Down ↔ pc.Down) (k : Fin n) :
    k ∈ s.downed ↔ (Function.update s.child j pc k).Down := by
  by_cases hk : k = j
  · subst hk
    rw [Function.update_self, ← h]
    exact i.down k
  · rw [Function.update_of_ne hk]
    exact i.down k

theorem callback_update {pc : ChildPc ε α} (i : Inv m s) (h : ∀ t, pc ≠ .downCount t) (k : Fin n)
    (t : Try ε α) (hk : Function.update s.child j pc k = .downCount t) : s.produced k = some t := by
  by_cases hj : k = j
  · subst hj
    exact absurd (Function.update_self k pc s.child ▸ hk) (h t)
  · exact i.callback k t (Function.update_of_ne hj pc s.child ▸ hk)

theorem child_start (i : Inv m s) (hp : s.starter = .start j) : s.child j = .notStarted :=
  i.next j (by rw [hp]; exact Nat.le_refl _)

theorem bind (i : Inv m s) (hp : s.starter = .bind j) (in_ : Fin n → Option ξ) :
    Inv m ({ s with in_ := some in_ }.goto (.start j)) where
  made _   := ⟨rfl, (i.made (by simp [hp, StarterPc.Made])).right⟩
  input h  := absurd trivial h
  result   := by simpa [hp, StarterPc.Left, Config.goto] using i.result
  ready    := nofun
  next k   := by simpa [hp, StarterPc.next, Config.goto] using i.next k
  first k  := by simpa [hp, StarterPc.next, Config.goto] using i.first k
  nodup    := i.nodup
  down     := i.down
  callback := i.callback
  outcome  := i.outcome
  late     := i.late

theorem start (i : Inv m s) (hp : s.starter = .start j) :
    Inv m ((s.setChild j .running).goto (.loop (j + 1))) where
  made _   := i.made (by simp [hp, StarterPc.Made])
  input h  := absurd trivial h
  result   := by simpa [hp, StarterPc.Left, Config.goto, Config.setChild] using i.result
  ready    := nofun
  next k h := by
    have hk : j.val + 1 ≤ k := h
    change Function.update s.child j _ k = _
    rw [Function.update_of_ne (Fin.ne_of_gt hk)]
    exact i.next k (by simp [hp, StarterPc.next]; omega)
  first k h _ := by
    change Function.update s.child j _ k ≠ _
    by_cases hk : k = j
    · simp [hk]
    · rw [Function.update_of_ne hk]
      refine i.first k h (.inr ?_)
      have : k.val ≠ j.val := fun h => hk (Fin.ext h)
      simp only [hp, StarterPc.next]
      omega
  nodup    := i.nodup
  down     := i.down_update (by rw [i.child_start hp]; rfl)
  callback := i.callback_update (by simp)
  outcome  := i.outcome.congr rfl rfl rfl rfl fun k hk =>
    ⟨Function.update_of_ne (i.ne_of_mem hk (by simp [i.child_start hp, ChildPc.Down])) .., rfl⟩
  late     := i.late

theorem step_starter (hn : 0 < n) (i : Inv m s₁) (h : m.stepStarter s₁ = some s₂) : Inv m s₂ := by
  have ht : s₁.starter.next = 0 → s₁.touch = s₁ := i.touch
  cases hp : s₁.starter <;> simp only [Setup.stepStarter, hp] at h
  case awaitReady =>
    rw [ht (by rw [hp]; rfl)] at h
    have hr : ¬ s₁.result = true := fun h => by simpa [hp, StarterPc.Left] using i.result.mpr h
    have hi := i.input (by simp [hp, StarterPc.Made])
    have hw : Setup.awaitReady s₁ = false := by
      obtain ⟨in_, hi⟩ := Option.isSome_iff_exists.mp hi
      simp [Setup.awaitReady, hi, hr]
      omega
    rw [hw] at h
    cases h
    refine ⟨False.elim, fun _ => hi, ?_, nofun, fun k _ => i.next k (by simp [hp, StarterPc.next]), ?_,
      i.nodup, i.down, i.callback, i.outcome, i.late⟩
    · exact iff_of_false id hr
    · simp [Config.goto, StarterPc.next]
  case moveInput =>
    rw [ht (by rw [hp]; rfl)] at h
    cases h
    have hi := i.input (by simp [hp, StarterPc.Made])
    have hr : ¬ s₁.result = true := fun h => by simpa [hp, StarterPc.Left] using i.result.mpr h
    have hd := i.downed_nil (by rw [hp]; rfl)
    have ho := i.outcome
    rw [hd] at ho
    refine ⟨fun _ => ⟨hi, rfl, _, rfl, ?_⟩, fun h => absurd trivial h, iff_of_false id hr, nofun,
      fun k _ => i.next k (by simp [hp, StarterPc.next]), ?_, i.nodup, i.down, i.callback, ?_, i.late⟩
    · simp [Config.goto, hd, CountEvent.new]
    · simp [Config.goto, StarterPc.next]
    · change Config.Outcome m _ s₁.downed
      rw [hd]
      exact ⟨by simp [Config.goto, CollectAnyResult.new], ho.2⟩
  case setResult =>
    rw [ht (by rw [hp]; rfl)] at h
    cases h
    refine ⟨fun _ => i.made (by simp [hp, StarterPc.Made]), fun h => absurd trivial h,
      iff_of_true trivial rfl, nofun, fun k _ => i.next k (by simp [hp, StarterPc.next]), ?_, i.nodup,
      i.down, i.callback, i.outcome, i.late⟩
    simp [Config.goto, StarterPc.next]
  case loop j =>
    have hl : s₁.starter.Left := by simp [hp, StarterPc.Left]
    have hf := i.first
    simp only [hp, StarterPc.next, reduceCtorEq, false_or] at hf
    split at h
    case h_1 => contradiction
    case h_2 r hr =>
      -- The loop is left after the start of a child, because nothing has been written before that.
      have hret (hc : ¬ (j < n ∧ r.index = none)) : Inv m (s₁.goto .returned) := by
        refine i.goto hl trivial (fun k hk => absurd k.isLt (Nat.not_lt.mpr hk)) fun k hk _ =>
          hf k hk (Nat.pos_of_ne_zero fun hj => hc ?_)
        have ho := i.outcome
        rw [i.downed_nil (by rw [hp]; exact hj)] at ho
        exact ⟨by omega, ho.left r hr⟩
      split at h
      case isFalse hj =>
        cases h
        exact hret (fun hc => hj hc.left)
      case isTrue hj =>
        split at h <;> cases h
        case isTrue =>
          exact i.goto hl trivial (by simp [hp, StarterPc.next]) (by simpa [StarterPc.next] using hf)
        case isFalse hi => exact hret (fun hc => hi hc.right)
  case bind j =>
    split at h
    case h_1 => contradiction
    case h_2 =>
      cases h
      exact i.bind hp _
  case start j =>
    cases h
    exact i.start hp
  all_goals contradiction

-- A child that has been started is below the next one to be started, and it stays started.
theorem next_update {pc : ChildPc ε α} (i : Inv m s) (hj : s.child j ≠ .notStarted) (k : Fin n)
    (h : s.starter.next ≤ k) : Function.update s.child j pc k = .notStarted := by
  rw [Function.update_of_ne fun hk : k = j => hj (hk ▸ i.next k h)]
  exact i.next k h

theorem first_update {pc : ChildPc ε α} (i : Inv m s) (hp : pc ≠ .notStarted) (k : Fin n) (h : k.val = 0)
    (hs : s.starter = .returned ∨ 0 < s.starter.next) : Function.update s.child j pc k ≠ .notStarted := by
  by_cases hk : k = j
  · subst hk
    rwa [Function.update_self]
  · rw [Function.update_of_ne hk]
    exact i.first k h hs

theorem step_complete (i : Inv m s₁) (h : Setup.complete s₁ j t = some s₂) : Inv m s₂ := by
  simp only [Setup.complete] at h
  split at h
  case h_2 => contradiction
  case h_1 hp =>
    split at h <;> cases h
    have hj : s₁.child j ≠ .notStarted := by simp [hp]
    have hd : ¬ (s₁.child j).Down := by simp [hp, ChildPc.Down]
    refine ⟨i.made, i.input, i.result, i.ready, i.next_update hj, i.first_update nofun, i.nodup,
      i.down_update (iff_of_false hd id), fun k t' hk => ?callback, ?outcome, i.late⟩
    case callback =>
      by_cases hkj : k = j
      · subst hkj
        simp only [Config.setChild, Function.update_self, ChildPc.downCount.injEq] at hk ⊢
        rw [hk]
      · simp only [Config.setChild, Function.update_of_ne hkj] at hk ⊢
        exact i.callback k t' hk
    case outcome =>
      refine i.outcome.congr rfl rfl rfl rfl fun k hk => ?_
      have hkj := i.ne_of_mem hk hd
      exact ⟨Function.update_of_ne hkj .., Function.update_of_ne hkj ..⟩

theorem made_of_child (i : Inv m s) (hj : s.child j ≠ .notStarted) : s.starter.Made := by
  by_contra hm
  refine hj (i.next j ?_)
  cases hp : s.starter <;> simp [hp, StarterPc.Made] at hm <;> simp [StarterPc.next]

-- A child that counts down as the first becomes the winner, any other one is finished.
theorem downCount (i : Inv m s) (hp : s.child j = .downCount t) (he : s.event = some e) :
    Inv m ({ s with event := some (e.downCount 1).2, downed := s.downed ++ [j] }.setChild j
      (if e.count_ = n + 1 then .setIndex t else .finished)) := by
  have hj : s.child j ≠ .notStarted := by simp [hp]
  have hd : ¬ (s.child j).Down := by simp [hp, ChildPc.Down]
  have hmem : j ∉ s.downed := fun h => hd ((i.down j).mp h)
  have hnd : (s.downed ++ [j]).Nodup := List.nodup_append.mpr ⟨i.nodup, by simp, by grind⟩
  have hlen : (s.downed ++ [j]).length ≤ n := by simpa using hnd.length_le_card
  obtain ⟨hi, hr, e', he', hc⟩ := i.made (i.made_of_child hj)
  obtain rfl := Option.some.inj (he ▸ he')
  have hcount : e.count_ = n + 1 ↔ s.downed = [] := by
    rw [← List.length_eq_zero_iff]
    omega
  refine ⟨fun _ => ⟨hi, hr, _, rfl, ?count⟩, i.input, i.result, i.ready, i.next_update hj,
    i.first_update (by split <;> nofun), hnd, fun k => ?down, i.callback_update (by split <;> nofun),
    ?outcome, i.late⟩
  case count =>
    simp only [CountEvent.downCount, List.length_append, List.length_singleton, Config.setChild] at *
    omega
  case down =>
    simp only [Config.setChild, List.mem_append, List.mem_singleton]
    by_cases hk : k = j
    · subst hk
      simp only [Function.update_self, or_true, true_iff]
      split <;> trivial
    · simp only [Function.update_of_ne hk, hk, or_false]
      exact i.down k
  case outcome =>
    have ho := i.outcome
    obtain ⟨r, hr⟩ := Option.isSome_iff_exists.mp hr
    cases hl : s.downed
    case nil =>
      rw [hl] at ho
      simp only [hcount.mpr hl, if_true]
      refine ⟨⟨t, r, i.callback j t hp, hr, ?_⟩, nofun⟩
      simpa [Config.setChild] using ho.2
    case cons w l =>
      rw [if_neg (fun h => by simp [hcount.mp h] at hl)]
      rw [hl] at ho hmem
      have hc : ∀ k ∈ w :: l, Function.update s.child j .finished k = s.child k := fun k hk =>
        Function.update_of_ne (fun h : k = j => hmem (h ▸ hk)) ..
      have ho : Config.Outcome m ({ s with
          event := some (e.downCount 1).2, downed := s.downed ++ [j] }.setChild j .finished) (w :: l) :=
        ho.congr rfl rfl rfl rfl fun k hk => ⟨hc k hk, rfl⟩
      refine ⟨ho.left, fun k hk => ?_⟩
      cases List.mem_append.mp hk
      case inl hk => exact ho.right k hk
      case inr hk =>
        obtain rfl := List.mem_singleton.mp hk
        exact Function.update_self ..

-- A step of a child that has counted down, and thus of the winner.
theorem advance (i : Inv m s₁) (pc : ChildPc ε α) (hj : (s₁.child j).Down) (hf : s₁.child j ≠ .finished)
    (hp : pc.Down) (hs : s₂ = { s₁ with res := s₂.res, writes := s₂.writes, resumed := s₂.resumed }.setChild j pc)
    (hr : s₂.res.isSome) (hw : s₁.Winner m j → s₂.Winner m j) : Inv m s₂ := by
  have hn : s₁.child j ≠ .notStarted := fun h => by simp [h, ChildPc.Down] at hj
  obtain ⟨l, hl, hwin, hlose⟩ := i.outcome.winner ((i.down j).mpr hj) hf
  have ho : s₂.Outcome m (j :: l) := by
    refine ⟨hw hwin, fun k hk => ?_⟩
    have hkj : k ≠ j := by
      rintro rfl
      have := hl ▸ i.nodup
      simp [hk] at this
    rw [hs]
    exact (Function.update_of_ne hkj ..).trans (hlose k hk)
  rw [← hl] at ho
  obtain ⟨hi, _, he⟩ := i.made (i.made_of_child hn)
  rw [hs] at ho ⊢
  exact ⟨fun _ => ⟨hi, hr, he⟩, i.input, i.result, i.ready, i.next_update hn,
    i.first_update (fun h => by simp [h, ChildPc.Down] at hp), i.nodup,
    i.down_update (iff_of_true hj hp),
    i.callback_update (fun t h => by simp [h, ChildPc.Down] at hp), ho, i.late⟩

theorem step_child (i : Inv m s₁) (h : m.stepChild s₁ j = some s₂) : Inv m s₂ := by
  cases hp : s₁.child j <;> simp only [Setup.stepChild, hp] at h
  case downCount t =>
    split at h <;> cases h
    case h_2 he => exact i.downCount hp he
  case setIndex t =>
    split at h <;> cases h
    case h_2 r hr =>
      refine i.advance (.setValue t) (by simp [hp, ChildPc.Down]) (by simp [hp]) trivial rfl rfl ?_
      rintro ⟨t', r', hpr, hr', hw⟩
      simp only [hp] at hw
      refine ⟨t', _, hpr, rfl, ?_⟩
      simp only [Config.setChild, Function.update_self]
      exact ⟨hw.1, trivial, by rw [hw.2.1]; rfl, hw.2.2⟩
  case setValue t =>
    split at h <;> cases h
    case h_2 r hr =>
      refine i.advance .resume (by simp [hp, ChildPc.Down]) (by simp [hp]) trivial rfl rfl ?_
      rintro ⟨t', r', hpr, hr', hw⟩
      simp only [hp] at hw
      obtain rfl := Option.some.inj (hr ▸ hr')
      refine ⟨t', _, hpr, rfl, ?_⟩
      simp only [Config.setChild, Function.update_self]
      exact ⟨by rw [hw.1, hw.2.1], by rw [hw.2.2.1]; rfl, hw.2.2.2⟩
  case resume =>
    cases h
    have hm := i.made (i.made_of_child (by rw [hp]; nofun))
    refine i.advance .finished (by simp [hp, ChildPc.Down]) (by simp [hp]) trivial rfl hm.2.1 ?_
    rintro ⟨t', r', hpr, hr', hw⟩
    simp only [hp] at hw
    refine ⟨t', r', hpr, hr', ?_⟩
    simp only [Config.setChild, Function.update_self]
    exact ⟨hw.2.1, by rw [hw.2.2.1]; rfl, .inl ⟨hw.2.2.2, hw.1⟩⟩
  all_goals contradiction

-- When the coroutine has been resumed, then by the child that has counted down first.
theorem resumed (i : Inv m s) (hr : s.resumed ≠ []) :
    ∃ w l t, s.downed = w :: l ∧ s.resumed = [(w, m.continuation)] ∧ s.writes = [w, w] ∧
      s.produced w = some t ∧ s.child w = .finished ∧
      (s.received = none ∧ s.res = some ⟨some w, t⟩ ∨ s.received = some ⟨some w, t⟩) := by
  have ho := i.outcome
  cases hd : s.downed <;> rw [hd] at ho
  case nil => exact absurd ho.2.2.1 hr
  case cons w l =>
    obtain ⟨⟨t, r, hp, hres, hw⟩, _⟩ := ho
    refine ⟨w, l, t, rfl, ?_⟩
    split at hw
    case h_1 => exact absurd hw.2.2.1 hr
    case h_2 => exact absurd hw.2.2.2.1 hr
    case h_3 => exact absurd hw.2.2.1 hr
    case h_4 hf =>
      obtain ⟨h₁, h₂, h₃ | h₃⟩ := hw
      · exact ⟨h₂, h₁, hp, hf, .inl ⟨h₃.1, h₃.2 ▸ hres⟩⟩
      · exact ⟨h₂, h₁, hp, hf, .inr h₃⟩
    case h_5 => contradiction

theorem writes (i : Inv m s) : ∀ w ∈ s.writes, s.downed.head? = some w := by
  have ho := i.outcome
  cases hd : s.downed <;> rw [hd] at ho
  case nil => simp [ho.2.1]
  case cons w l =>
    obtain ⟨⟨t, r, _, _, hw⟩, _⟩ := ho
    split at hw
    case h_1 => simp [hw.2.1]
    case h_2 => simp [hw.2.2.1]
    case h_3 => simp [hw.2.1]
    case h_4 => simp [hw.1]
    case h_5 => contradiction

theorem received (i : Inv m s) (hr : s.received = some r) :
    ∃ w t, s.downed.head? = some w ∧ s.produced w = some t ∧ r = ⟨some w.val, t⟩ := by
  have hne : s.resumed ≠ [] := fun hn => by
    have ho := i.outcome
    cases hd : s.downed <;> rw [hd] at ho
    case nil => simp [ho.2.2.2] at hr
    case cons w l =>
      obtain ⟨⟨t, r', _, _, hw⟩, _⟩ := ho
      split at hw <;> simp_all
  obtain ⟨w, l, t, hd, _, _, hp, _, hn | hs⟩ := i.resumed hne
  case inl => simp [hn.1] at hr
  case inr => exact ⟨w, t, by rw [hd]; rfl, hp, Option.some.inj (hr ▸ hs)⟩

theorem step_awaitResume (i : Inv m s₁) (h : m.awaitResume s₁ = some s₂) : Inv m s₂ := by
  simp only [Setup.awaitResume] at h
  split at h
  case isFalse => contradiction
  case isTrue hc =>
    split at h <;> cases h
    case h_1 r _ hres =>
      have hr : s₁.resumed ≠ [] := by simpa [i.ready] using hc.right
      obtain ⟨w, l, t, hd, hres', hw, hp, hf, ho⟩ := i.resumed hr
      have hn : s₁.received = none := by simpa using hc.left
      obtain ⟨_, ho⟩ | ho := ho
      case inr => simp [hn] at ho
      case inl =>
        obtain rfl := Option.some.inj (hres ▸ ho)
        have hlose := i.outcome
        rw [hd] at hlose
        refine ⟨fun h => ⟨(i.made h).1, rfl, (i.made h).2.2⟩, i.input, i.result, i.ready, i.next, i.first,
          i.nodup, i.down, i.callback, ?_, i.late⟩
        change Config.Outcome m _ s₁.downed
        rw [hd]
        refine ⟨⟨t, _, hp, rfl, ?_⟩, hlose.right⟩
        simp only [hf]
        exact ⟨hw, hres', .inr trivial⟩

theorem step (hn : 0 < n) (i : Inv m s₁) (h : m.system.step s₁ a = some s₂) : Inv m s₂ := by
  cases a
  case starter     => exact i.step_starter hn h
  case complete    => exact i.step_complete h
  case child       => exact i.step_child h
  case awaitResume => exact i.step_awaitResume h

theorem reachable (hn : 0 < n) (h : m.system.Reachable s) : Inv m s :=
  h.invariant .init (step hn)

end Inv

-- The parties that have been started, and are not finished.

def StarterPc.pending : StarterPc n → Bool
  | .returned => false
  | _         => true

def ChildPc.pending : ChildPc ε α → Bool
  | .notStarted | .finished => false
  | _                       => true

theorem StarterPc.pending_of_ne {pc : StarterPc n} (h : pc ≠ .returned) : pc.pending := by
  cases pc
  case returned => contradiction
  all_goals rfl

-- What a step of the starter can do, as far as the children and the awaiting coroutine are concerned.
inductive StarterStep (s₁ s₂ : Config n ε α κ ξ) : Prop
  | start (j : Fin n) :
    (s₁.starter = .start j) → (s₂.starter = .loop (j + 1)) → (s₁.child j = .notStarted) →
    (s₂.child = Function.update s₁.child j .running) → (s₂.in_ = s₁.in_) →
    (s₂.resumed = s₁.resumed) → StarterStep s₁ s₂
  | other :
    (∀ j, s₁.starter ≠ .start j) → (s₁.starter ≠ .returned) → (s₂.child = s₁.child) →
    (s₂.resumed = s₁.resumed) →
    (∀ j, s₁.child j ≠ .notStarted → s₂.in_.bind (· j) = s₁.in_.bind (· j)) → StarterStep s₁ s₂

-- The same for a child that calls back.
inductive ChildStep (m : Setup n κ ξ) (s₁ s₂ : Config n ε α κ ξ) (j : Fin n) : Prop
  | resume :
    (s₁.child j = .resume) → (s₂.child = Function.update s₁.child j .finished) →
    (s₁.resumed = []) → (s₂.resumed = [(j, m.continuation)]) → ChildStep m s₁ s₂ j
  | other (pc : ChildPc ε α) :
    (s₁.child j).pending → (s₁.child j ≠ .running) → (s₁.child j ≠ .resume) →
    (pc ≠ .notStarted) → (pc ≠ .running) → (s₂.child = Function.update s₁.child j pc) →
    (s₂.resumed = s₁.resumed) → ChildStep m s₁ s₂ j

namespace Inv

theorem stepStarter_cases (i : Inv m s₁) (h : m.stepStarter s₁ = some s₂) : StarterStep s₁ s₂ := by
  cases hp : s₁.starter <;> simp only [Setup.stepStarter, hp] at h
  case awaitReady => split at h <;> cases h <;> exact .other (by simp [hp]) (by simp [hp]) rfl rfl fun _ _ => rfl
  case moveInput  =>
    cases h
    refine .other (by simp [hp]) (by simp [hp]) rfl rfl fun j hj => absurd (i.next j ?_) hj
    simp [hp, StarterPc.next]
  case setResult  =>
    cases h
    exact .other (by simp [hp]) (by simp [hp]) rfl rfl fun _ _ => rfl
  case loop j     =>
    split at h
    case h_1 => contradiction
    case h_2 =>
      split at h
      case isTrue  => split at h <;> cases h <;> exact .other (by simp [hp]) (by simp [hp]) rfl rfl fun _ _ => rfl
      case isFalse =>
        cases h
        exact .other (by simp [hp]) (by simp [hp]) rfl rfl fun _ _ => rfl
  case bind j     =>
    split at h
    case h_1 => contradiction
    case h_2 in_ hin =>
      cases h
      refine .other (by simp [hp]) (by simp [hp]) rfl rfl fun k hk => ?_
      have hj : s₁.child j = .notStarted := i.next j (by rw [hp]; exact Nat.le_refl _)
      have hkj : k ≠ j := fun hkj => hk (hkj ▸ hj)
      simp [Config.goto, hin, Function.update_of_ne hkj]
  case start j    =>
    cases h
    exact .start j hp rfl (i.child_start hp) rfl rfl rfl
  all_goals contradiction

theorem not_resumed (i : Inv m s) (hj : s.child j = .resume) : s.resumed = [] := by
  obtain ⟨l, _, ⟨t, r, _, _, hw⟩, _⟩ :=
    i.outcome.winner ((i.down j).mpr (by simp [hj, ChildPc.Down])) (by simp [hj])
  simp only [hj] at hw
  exact hw.2.2.1

theorem stepChild_cases (i : Inv m s₁) (h : m.stepChild s₁ j = some s₂) :
    ChildStep m s₁ s₂ j ∧ s₂.starter = s₁.starter ∧ s₂.in_ = s₁.in_ := by
  cases hp : s₁.child j <;> simp only [Setup.stepChild, hp] at h
  case downCount t =>
    split at h <;> cases h
    exact ⟨.other _ (by rw [hp]; rfl) (by simp [hp]) (by simp [hp]) (by split <;> simp)
      (by split <;> simp) rfl rfl, rfl, rfl⟩
  case setIndex t =>
    split at h <;> cases h
    exact ⟨.other _ (by rw [hp]; rfl) (by simp [hp]) (by simp [hp]) (by simp) (by simp)
      rfl rfl, rfl, rfl⟩
  case setValue t =>
    split at h <;> cases h
    exact ⟨.other _ (by rw [hp]; rfl) (by simp [hp]) (by simp [hp]) (by simp) (by simp)
      rfl rfl, rfl, rfl⟩
  case resume =>
    cases h
    have hr := i.not_resumed hp
    exact ⟨.resume hp rfl hr (by simp [Config.setChild, hr]), rfl, rfl⟩
  all_goals contradiction

theorem complete_eq (h : Setup.complete s₁ j t = some s₂) :
    s₁.child j = .running ∧ s₂.child = Function.update s₁.child j (.downCount t) ∧
    s₂.starter = s₁.starter ∧ s₂.in_ = s₁.in_ ∧ s₂.resumed = s₁.resumed := by
  simp only [Setup.complete] at h
  split at h
  case h_2 => contradiction
  case h_1 hp =>
    split at h <;> cases h
    exact ⟨hp, rfl, rfl, rfl, rfl⟩

theorem awaitResume_eq (h : m.awaitResume s₁ = some s₂) :
    s₂.starter = s₁.starter ∧ s₂.child = s₁.child ∧ s₂.resumed = s₁.resumed ∧ s₂.in_ = s₁.in_ := by
  simp only [Setup.awaitResume] at h
  split at h
  case isTrue  => split at h <;> cases h; exact ⟨rfl, rfl, rfl, rfl⟩
  case isFalse => contradiction

theorem awaitResume_received (h : m.awaitResume s₁ = some s₂) : ∃ r, s₂.received = some r := by
  simp only [Setup.awaitResume] at h
  split at h
  case isTrue  => split at h <;> cases h; exact ⟨_, rfl⟩
  case isFalse => contradiction

-- Only the awaiting coroutine receives something.
theorem received_eq (h : m.system.step s₁ a = some s₂) (ha : a ≠ .awaitResume) : s₂.received = s₁.received := by
  cases a
  case awaitResume  => contradiction
  case complete j t =>
    simp only [Setup.system, Setup.complete] at h
    split at h
    case h_1 => split at h <;> cases h; rfl
    case h_2 => contradiction
  case child j =>
    cases hp : s₁.child j <;> simp only [Setup.system, Setup.stepChild, hp] at h
    case resume => cases h; rfl
    case notStarted | running | finished => contradiction
    all_goals
      split at h <;> cases h
      rfl
  case starter =>
    cases hp : s₁.starter <;> simp only [Setup.system, Setup.stepStarter, hp] at h
    case awaitReady => split at h <;> cases h <;> rfl
    case loop       =>
      split at h
      case h_1 => contradiction
      case h_2 =>
        split at h
        case isTrue  => split at h <;> cases h <;> rfl
        case isFalse => cases h; rfl
    case bind             => split at h <;> cases h; rfl
    case ready | returned => contradiction
    all_goals
      cases h
      rfl

-- As long as the coroutine has not been resumed, some party is left, which the starter is, or which it
-- has started.
theorem pending (hn : 0 < n) (i : Inv m s) (hr : s.resumed = []) :
    s.starter.pending ∨ ∃ j, (s.child j).pending := by
  by_contra hp
  push Not at hp
  obtain ⟨hs, hc⟩ := hp
  have hs : s.starter = .returned := by
    by_contra h
    exact hs (StarterPc.pending_of_ne h)
  have hc (j : Fin n) (hj : s.child j ≠ .notStarted) : s.child j = .finished := by
    have hc := hc j
    cases hp : s.child j <;> simp_all [ChildPc.pending]
  have hf := hc ⟨0, hn⟩ (i.first ⟨0, hn⟩ rfl (.inl hs))
  have hd : ⟨0, hn⟩ ∈ s.downed := (i.down _).mpr (by simp [hf, ChildPc.Down])
  have ho := i.outcome
  cases hl : s.downed
  case nil => simp [hl] at hd
  case cons w l =>
    rw [hl] at ho
    have hw := (i.down w).mp (by simp [hl])
    have hw := hc w fun h => by simp [h, ChildPc.Down] at hw
    obtain ⟨⟨t, r, _, _, ho⟩, _⟩ := ho
    simp only [hw] at ho
    simp [ho.2.1] at hr

end Inv

-- Only the completion of a child produces something.

theorem stepStarter_produced (h : m.stepStarter s₁ = some s₂) : s₂.produced = s₁.produced := by
  cases hp : s₁.starter <;> simp only [Setup.stepStarter, hp] at h
  case awaitReady => split at h <;> cases h <;> rfl
  case loop       =>
    split at h
    case h_1 => contradiction
    case h_2 =>
      split at h
      case isTrue  => split at h <;> cases h <;> rfl
      case isFalse => cases h; rfl
  case bind             => split at h <;> cases h; rfl
  case ready | returned => contradiction
  all_goals
    cases h
    rfl

theorem stepChild_produced (h : m.stepChild s₁ j = some s₂) : s₂.produced = s₁.produced := by
  cases hp : s₁.child j <;> simp only [Setup.stepChild, hp] at h
  case resume                          => cases h; rfl
  case notStarted | running | finished => contradiction
  all_goals
    split at h <;> cases h
    rfl

theorem awaitResume_produced (h : m.awaitResume s₁ = some s₂) : s₂.produced = s₁.produced := by
  simp only [Setup.awaitResume] at h
  split at h
  case isTrue  => split at h <;> cases h; rfl
  case isFalse => contradiction

theorem complete_produced (h : Setup.complete s₁ j t = some s₂) : s₂.produced = Function.update s₁.produced j (some t) := by
  simp only [Setup.complete] at h
  split at h
  case h_2 => contradiction
  case h_1 => split at h <;> cases h; rfl

-- A child is started with the executor that it is bound to, or else that of the coroutine.

def Setup.bound (m : Setup n κ ξ) (j : Fin n) : Option ξ :=
  (m.input j).or m.executor

structure Bound (m : Setup n κ ξ) (s : Config n ε α κ ξ) : Prop where
  input : ∀ f, s.input = some f → f = m.input
  in_   : ∀ f, s.in_ = some f → ∀ j, f j = m.input j ∨ f j = m.bound j
  start : ∀ j, s.starter = .start j → s.in_.bind (· j) = m.bound j

namespace Bound

theorem init : Bound m (m.init : Config n ε α κ ξ) where
  input f h := by cases h; rfl
  in_ f h   := by contradiction
  start j h := by contradiction

-- Only the binding of a child, right before its start, changes the executors.
theorem mono (b : Bound m s₁) (hi : s₂.input = s₁.input) (hn : s₂.in_ = s₁.in_)
    (hs : ∀ j, s₂.starter = .start j → s₁.starter = .start j) : Bound m s₂ where
  input f h := b.input f (hi ▸ h)
  in_ f h   := b.in_ f (hn ▸ h)
  start j h := hn ▸ b.start j (hs j h)

theorem stepStarter (b : Bound m s₁) (h : m.stepStarter s₁ = some s₂) : Bound m s₂ := by
  cases hp : s₁.starter <;> simp only [Setup.stepStarter, hp] at h
  case awaitReady => split at h <;> cases h <;> exact b.mono rfl rfl (by simp [Config.goto])
  case moveInput  =>
    cases h
    exact ⟨by simp [Config.goto], fun f hf j => .inl (congrFun (b.input f hf) j), by simp [Config.goto]⟩
  case setResult  => cases h; exact b.mono rfl rfl (by simp [Config.goto])
  case loop       =>
    split at h
    case h_1 => contradiction
    case h_2 =>
      split at h
      case isTrue  => split at h <;> cases h <;> exact b.mono rfl rfl (by simp [Config.goto])
      case isFalse => cases h; exact b.mono rfl rfl (by simp [Config.goto])
  case bind j =>
    split at h
    case h_1 => contradiction
    case h_2 f hf =>
      cases h
      suffices hb : ∀ executor, executor = m.bound j →
          Bound m ({ s₁ with in_ := some (Function.update f j executor) }.goto (.start j)) by
        refine hb _ ?_
        obtain hj | hj := b.in_ f hf j <;> rw [hj] <;> simp only [Setup.bound]
        · cases m.input j <;> rfl
        · cases m.input j
          case none => simp only [Option.none_or]; cases m.executor <;> rfl
          case some => rfl
      rintro _ rfl
      refine ⟨b.input, fun f' h k => ?_, fun k h => ?_⟩
      · cases h
        by_cases hk : k = j
        · exact .inr (by rw [hk, Function.update_self])
        · rw [Function.update_of_ne hk]
          exact b.in_ f hf k
      · cases h
        exact Function.update_self ..
  case start => cases h; exact b.mono rfl rfl (by simp [Config.goto])
  all_goals contradiction

theorem stepChild (b : Bound m s₁) (h : m.stepChild s₁ j = some s₂) : Bound m s₂ := by
  cases hp : s₁.child j <;> simp only [Setup.stepChild, hp] at h
  case resume => cases h; exact b.mono rfl rfl fun _ => id
  case notStarted | running | finished => contradiction
  all_goals
    split at h <;> cases h
    exact b.mono rfl rfl fun _ => id

theorem step (b : Bound m s₁) (h : m.system.step s₁ a = some s₂) : Bound m s₂ := by
  cases a
  case starter => exact b.stepStarter h
  case child   => exact b.stepChild h
  case complete =>
    simp only [Setup.system, Setup.complete] at h
    split at h
    case h_1 => split at h <;> cases h; exact b.mono rfl rfl fun _ => id
    case h_2 => contradiction
  case awaitResume =>
    simp only [Setup.system, Setup.awaitResume] at h
    split at h
    case isTrue  => split at h <;> cases h; exact b.mono rfl rfl fun _ => id
    case isFalse => contradiction

theorem reachable (h : m.system.Reachable s) : Bound m s :=
  h.invariant .init .step

end Bound

-- A bound on the number of steps that are left.

def StarterPc.rank : StarterPc n → Nat
  | .awaitReady => 3 * n + 5
  | .moveInput  => 3 * n + 4
  | .setResult  => 3 * n + 3
  | .loop i     => 3 * (n - i) + 2
  | .bind i     => 3 * (n - i) + 1
  | .start i    => 3 * (n - i)
  | _           => 0

def ChildPc.rank : ChildPc ε α → Nat
  | .notStarted  => 6
  | .running     => 5
  | .downCount _ => 4
  | .setIndex _  => 3
  | .setValue _  => 2
  | .resume      => 1
  | .finished    => 0

def Config.rank (s : Config n ε α κ ξ) : Nat :=
  s.starter.rank + ∑ i, (s.child i).rank + s.received.isNone.toNat

theorem rank_goto (s : Config n ε α κ ξ) (pc : StarterPc n) :
    (s.goto pc).rank + s.starter.rank = s.rank + pc.rank := by
  simp only [Config.rank, Config.goto]
  omega

theorem rank_goto_lt {pc : StarterPc n} (h : pc.rank < s.starter.rank) : (s.goto pc).rank < s.rank := by
  have := rank_goto s pc
  omega

theorem rank_setChild (s : Config n ε α κ ξ) (i : Fin n) (pc : ChildPc ε α) :
    (s.setChild i pc).rank + (s.child i).rank = s.rank + pc.rank := by
  have := Count.sum_update ChildPc.rank s.child i pc
  simp only [Config.rank, Config.setChild]
  omega

theorem rank_setChild_lt {pc : ChildPc ε α} (h : pc.rank < (s.child i).rank) :
    (s.setChild i pc).rank < s.rank := by
  have := rank_setChild s i pc
  omega

theorem rank_starter (i : Inv m s₁) (h : m.stepStarter s₁ = some s₂) : s₂.rank < s₁.rank := by
  cases hp : s₁.starter <;> simp only [Setup.stepStarter, hp] at h
  case awaitReady =>
    split at h <;> cases h <;>
      exact rank_goto_lt (s := s₁.touch) (by simp [Config.touch, hp, StarterPc.rank])
  case moveInput =>
    cases h
    exact rank_goto_lt (s := { s₁.touch with
      in_ := s₁.input, input := none, res := some .new, event := some (.new n) })
      (by simp [Config.touch, hp, StarterPc.rank])
  case setResult =>
    cases h
    exact rank_goto_lt (s := { s₁.touch with result := true })
      (by simp [Config.touch, hp, StarterPc.rank])
  case loop j =>
    split at h
    case h_1 => contradiction
    case h_2 =>
      split at h
      case isTrue => split at h <;> cases h <;> exact rank_goto_lt (by simp [hp, StarterPc.rank])
      case isFalse =>
        cases h
        exact rank_goto_lt (by simp [hp, StarterPc.rank])
  case bind j =>
    split at h <;> cases h
    exact rank_goto_lt (s := { s₁ with in_ := _ }) (by simp [hp, StarterPc.rank])
  case start j =>
    cases h
    have h₁ := rank_setChild s₁ j .running
    have h₂ := rank_goto (s₁.setChild j .running) (.loop (j + 1))
    have h₃ : (s₁.setChild j .running).starter.rank = 3 * (n - j) := congrArg StarterPc.rank hp
    have h₄ : (s₁.child j).rank = 6 := congrArg ChildPc.rank (i.child_start hp)
    have h₅ : (StarterPc.loop (j + 1) : StarterPc n).rank = 3 * (n - (j + 1)) + 2 := rfl
    have h₆ : (ChildPc.running : ChildPc ε α).rank = 5 := rfl
    omega
  all_goals contradiction

theorem rank_child (h : m.stepChild s₁ j = some s₂) : s₂.rank < s₁.rank := by
  cases hp : s₁.child j <;> simp only [Setup.stepChild, hp] at h
  case downCount t =>
    split at h <;> cases h
    case h_2 e he =>
      refine rank_setChild_lt (s := { s₁ with event := _, downed := _ }) ?_
      split <;> simp [hp, ChildPc.rank]
  case setIndex t =>
    split at h <;> cases h
    exact rank_setChild_lt (s := { s₁ with res := _, writes := _ }) (by simp [hp, ChildPc.rank])
  case setValue t =>
    split at h <;> cases h
    exact rank_setChild_lt (s := { s₁ with res := _, writes := _ }) (by simp [hp, ChildPc.rank])
  case resume =>
    cases h
    exact rank_setChild_lt (s := { s₁ with resumed := _ }) (by simp [hp, ChildPc.rank])
  all_goals contradiction

theorem rank_step (i : Inv m s₁) (h : m.system.step s₁ a = some s₂) : s₂.rank < s₁.rank := by
  cases a
  case starter => exact rank_starter i h
  case child   => exact rank_child h
  case complete j t =>
    simp only [Setup.system, Setup.complete] at h
    split at h
    case h_2 => contradiction
    case h_1 hp =>
      split at h <;> cases h
      exact rank_setChild_lt (s := { s₁ with produced := _ }) (by simp [hp, ChildPc.rank])
  case awaitResume =>
    simp only [Setup.system, Setup.awaitResume] at h
    split at h
    case isFalse => contradiction
    case isTrue hc =>
      split at h <;> cases h
      simp [Config.rank, hc.left]

theorem rank_init : (m.init : Config n ε α κ ξ).rank = 9 * n + 6 := by
  simp only [Config.rank, Setup.init, StarterPc.rank, ChildPc.rank, Finset.sum_const, Finset.card_univ,
    Fintype.card_fin, smul_eq_mul, Option.isNone_none, Bool.toNat_true]
  omega

-- A party that has been started, and is not finished, can take its next step.

theorem Inv.stepStarter_isSome (i : Inv m s) (h : s.starter ≠ .returned) : (m.stepStarter s).isSome := by
  cases hp : s.starter <;> simp only [Setup.stepStarter, hp]
  case ready      => exact absurd hp i.ready
  case returned   => contradiction
  case awaitReady => split <;> rfl
  case loop       =>
    obtain ⟨r, hr⟩ := Option.isSome_iff_exists.mp (i.made (by simp [hp, StarterPc.Made])).2.1
    simp only [hr]
    split
    case isTrue  => split <;> rfl
    case isFalse => rfl
  case bind =>
    obtain ⟨in_, hi⟩ := Option.isSome_iff_exists.mp (i.made (by simp [hp, StarterPc.Made])).1
    simp [hi]
  all_goals rfl

theorem Inv.stepChild_isSome (i : Inv m s) (h : (s.child j).pending) (hr : s.child j ≠ .running) :
    (m.stepChild s j).isSome := by
  have hm (hn : s.child j ≠ .notStarted) := i.made (i.made_of_child hn)
  cases hp : s.child j <;> simp only [Setup.stepChild, hp]
  case notStarted => simp [hp, ChildPc.pending] at h
  case running    => contradiction
  case finished   => simp [hp, ChildPc.pending] at h
  case downCount  =>
    obtain ⟨_, _, e, he, _⟩ := hm (by simp [hp])
    simp [he]
  case resume => rfl
  all_goals
    obtain ⟨r, hr⟩ := Option.isSome_iff_exists.mp (hm (by simp [hp])).2.1
    simp [hr]

theorem complete_isSome (h : s.child j = .running) (ht : t.available) : (Setup.complete s j t).isSome := by
  simp [Setup.complete, h, ht]

-- The assertion of `await_resume` holds, so that a coroutine that has been resumed gets its result.
theorem Inv.awaitResume_isSome (i : Inv m s) (hr : s.resumed ≠ []) (hn : s.received = none) :
    (m.awaitResume s).isSome := by
  obtain ⟨w, l, t, hd, hres, _, _, _, h | h⟩ := i.resumed hr
  case inr => simp [hn] at h
  case inl =>
    have hl : s.starter.Left := by
      by_contra hl
      have hw := (i.down w).mp (by simp [hd])
      have hz : s.starter.next = 0 := by cases hp : s.starter <;> simp_all [StarterPc.Left, StarterPc.next]
      simp [i.next w (by omega), ChildPc.Down] at hw
    simp [Setup.awaitResume, hn, hres, i.result.mp hl, h.2]

-- When no step is left, all children that have been started are finished.
theorem finished_of_quiescent (i : Inv m s) (hq : m.system.Quiescent s) (hj : s.child j ≠ .notStarted) :
    s.child j = .finished := by
  have hr : s.child j ≠ .running := fun h => by
    have := complete_isSome (t := .exception (.logicError "")) h rfl
    simp [show Setup.complete s j _ = none from hq (.complete j _)] at this
  have hp : (s.child j).pending = false := by
    by_contra h
    have := i.stepChild_isSome (by simpa using h) hr
    simp [show m.stepChild s j = none from hq (.child j)] at this
  cases hc : s.child j <;> simp_all [ChildPc.pending]

theorem returned_of_quiescent (i : Inv m s) (hq : m.system.Quiescent s) : s.starter = .returned := by
  by_contra h
  have := i.stepStarter_isSome h
  simp [show m.stepStarter s = none from hq .starter] at this

-- When no step is left, the coroutine has been resumed, because the first child has counted down.
theorem resumed_of_quiescent (hn : 0 < n) (i : Inv m s) (hq : m.system.Quiescent s) : s.resumed ≠ [] := by
  have hst := returned_of_quiescent i hq
  have hfin := finished_of_quiescent i hq (i.first ⟨0, hn⟩ rfl (.inl hst))
  have hmem := (i.down ⟨0, hn⟩).mpr (by rw [hfin]; trivial)
  have ho := i.outcome
  cases hd : s.downed <;> rw [hd] at ho hmem
  case nil => contradiction
  case cons w l =>
    have hw : s.child w = .finished := finished_of_quiescent i hq fun hw => by
      have := (i.down w).mp (by simp [hd])
      rwa [hw] at this
    obtain ⟨⟨t, r, _, _, hc⟩, _⟩ := ho
    simp only [hw] at hc
    simp [hc.2.1]

-- The resumed coroutine has got its result.
theorem received_of_quiescent (hn : 0 < n) (i : Inv m s) (hq : m.system.Quiescent s) :
    s.received.isSome := by
  by_contra hr
  have := i.awaitResume_isSome (resumed_of_quiescent hn i hq) (by simpa using hr)
  simp [show m.awaitResume s = none from hq .awaitResume] at this

-- The awaiting coroutine is resumed once, by the child that has counted down first. This child alone
-- has written the result, and it is its result that the coroutine receives. After the resumption, the
-- awaiter is not used any more, except by the coroutine itself.
theorem collectAny (hn : 0 < n) (h : m.system.Reachable s) :
    (s.resumed = [] ∨
      ∃ w, s.downed.head? = some w ∧ s.resumed = [(w, m.continuation)] ∧ s.writes = [w, w]) ∧
    (∀ w ∈ s.writes, s.downed.head? = some w) ∧
    (∀ r, s.received = some r →
      ∃ w t, s.downed.head? = some w ∧ s.produced w = some t ∧ r = ⟨some w.val, t⟩) ∧
    (s.late = false) ∧
    (m.system.Quiescent s → s.resumed ≠ [] ∧ s.received.isSome) ∧
    (∀ k, m.system.Steps k s → k ≤ 9 * n + 6) := by
  have i := Inv.reachable hn h
  refine ⟨?once, i.writes, fun r hr => ?received, i.late, fun hq => ?quiescent, fun k hk => ?bound⟩
  case once =>
    by_cases hr : s.resumed = []
    · exact .inl hr
    · obtain ⟨w, l, t, hd, hr, hw, _⟩ := i.resumed hr
      exact .inr ⟨w, by rw [hd]; rfl, hr, hw⟩
  case received => exact i.received hr
  case quiescent => exact ⟨resumed_of_quiescent hn i hq, received_of_quiescent hn i hq⟩
  case bound =>
    have := hk.length_le (μ := Config.rank) fun hr hs => rank_step (.reachable hn hr) hs
    have := rank_init (m := m) (ε := ε) (α := α)
    simp only [Setup.system] at *
    omega

def twoSetup : Setup 2 String Unit where
  isVoid       := false
  executor     := some ()
  input _      := none
  continuation := "parent"

-- Child 0 finishes within its `Start`. The parent moves the result out before the starter goes on, so
-- that the loop starts child 1 too.
def twoRun (zero one : Fin 2) : List (Action 2 Unit Nat) :=
  [.starter, .starter, .starter, .starter, .starter, .starter, .complete zero (.value 7), .child zero, .child zero,
    .child zero, .child zero, .awaitResume, .starter, .starter, .starter, .starter,
    .complete one (.exception (.thrown ())), .child one]

theorem collectAny_two :
    ∃ s : Config 2 Unit Nat String Unit, s.resumed = [(0, "parent")] ∧
      s.received = some ⟨some 0, .value 7⟩ ∧ s.downed = [0, 1] ∧ s.late = false := by
  obtain ⟨s, hr, hs⟩ := twoSetup.system.exists_reachable (twoRun 0 1)
    (p := fun s => s.resumed = [(0, "parent")] ∧ s.received = some ⟨some 0, .value 7⟩ ∧ s.downed = [0, 1])
    (by decide)
  simp only [Bool.decide_and, Bool.and_eq_true, decide_eq_true_eq] at hs
  exact ⟨s, hs.1, hs.2.1, hs.2.2, (collectAny (by decide) hr).2.2.2.1⟩

end CollectAnyAwaiter
end AsyncSimple
