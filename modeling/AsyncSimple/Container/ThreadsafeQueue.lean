import Mathlib.Data.List.Basic

namespace AsyncSimple

-- Each operation of the queue holds its mutex from beginning to end, and is a function from the
-- contents of the queue to the contents that it leaves. An argument `lock` is the outcome of
-- `std::try_to_lock`, which is free to fail.
structure ThreadsafeQueue (τ : Type) where
  queue_ : List τ
  stop_  : Bool
  deriving DecidableEq, Repr

namespace ThreadsafeQueue

variable {τ : Type}

def new : ThreadsafeQueue τ where
  queue_ := []
  stop_  := false

def push (q : ThreadsafeQueue τ) (item : τ) : ThreadsafeQueue τ :=
  { q with queue_ := q.queue_ ++ [item] }

def tryPush (q : ThreadsafeQueue τ) (lock : Bool) (item : τ) : Bool × ThreadsafeQueue τ :=
  if lock then (true, q.push item) else (false, q)

-- The item that is popped is `none`, where the source returns `false`. The result as a whole is
-- `none`, while the caller waits on the condition variable.
def pop (q : ThreadsafeQueue τ) : Option (Option τ × ThreadsafeQueue τ) :=
  match q.queue_ with
  | item :: items => some (some item, { q with queue_ := items })
  | []            => if q.stop_ then some (none, q) else none

def tryPopIf (q : ThreadsafeQueue τ) (lock : Bool) (predict : Option (τ → Bool)) :
    Option τ × ThreadsafeQueue τ :=
  match lock, q.queue_ with
  | true, item :: items =>
    if predict.all (· item) then (some item, { q with queue_ := items }) else (none, q)
  | _, _ => (none, q)

def tryPop (q : ThreadsafeQueue τ) (lock : Bool) : Option τ × ThreadsafeQueue τ :=
  q.tryPopIf lock none

def stop (q : ThreadsafeQueue τ) : ThreadsafeQueue τ :=
  { q with stop_ := true }

theorem pop_some {q₁ q₂ : ThreadsafeQueue τ} (h : q₁.pop = some (some item, q₂)) :
    q₁.queue_ = item :: q₂.queue_ := by
  simp only [pop] at h
  split at h
  case h_1 hq =>
    simp only [Option.some.injEq, Prod.mk.injEq] at h
    simp [hq, ← h]
  case h_2 => split at h <;> simp at h

theorem pop_none {q₁ q₂ : ThreadsafeQueue τ} (h : q₁.pop = some (none, q₂)) :
    q₁.queue_ = [] ∧ q₁.stop_ := by
  simp only [pop] at h
  split at h
  case h_1    => simp at h
  case h_2 hq => split at h <;> simp_all

theorem tryPopIf_some {q₁ q₂ : ThreadsafeQueue τ}
    (h : q₁.tryPopIf lock predict = (some item, q₂)) :
    q₁.queue_ = item :: q₂.queue_ ∧ predict.all (· item) := by
  simp only [tryPopIf] at h
  split at h
  case h_1 hq =>
    split at h <;> simp only [Prod.mk.injEq, Option.some.injEq, reduceCtorEq, false_and] at h
    obtain ⟨rfl, rfl⟩ := h
    exact ⟨hq, ‹_›⟩
  case h_2 => simp at h

end ThreadsafeQueue
end AsyncSimple
