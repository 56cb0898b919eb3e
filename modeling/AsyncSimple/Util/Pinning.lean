import AsyncSimple.Util.ThreadPool

open Transition

namespace AsyncSimple
namespace ThreadPool

-- A thread that runs user code.
abbrev Thread (n : Nat) (ι : Type) := Fin n ⊕ ι

-- What is recorded of a run of the pool: for each thread, the id that it has given to its latest
-- call of `ScheduleById`; the calls that have pushed their item, with that id and in the order of
-- the pushes; for each worker, the call that has scheduled the function that it has called last;
-- and the functions that have returned, where `runs` has those that have been called.
structure Record (n : Nat) (ι : Type) where
  calling  : Thread n ι → Int
  pushes   : List (Int × Nat)
  running  : Fin n → Nat
  returned : List (Fin n × Nat)

variable {n : Nat} {φ χ ι : Type}

namespace Setup

def givenId (m : Setup n φ χ ι) : UserPc n φ χ → Option Int
  | .code c =>
    match m.instr c with
    | .scheduleById _ id _ => some id
    | _                    => none
  | _ => none

end Setup

namespace Record

def init : Record n ι where
  calling _ := -1
  pushes    := []
  running _ := 0
  returned  := []

variable [DecidableEq ι]

def noteUser (m : Setup n φ χ ι) (s₁ : Config n φ χ ι) (t : Thread n ι) (pc : UserPc n φ χ)
    (s₂ : Config n φ χ ι) (h : Record n ι) : Record n ι :=
  { h with
    calling := (m.givenId pc).elim h.calling (Function.update h.calling t)
    pushes  :=
      if s₂.results = s₁.results ++ [.kErrorNone] then
        h.pushes ++ [(h.calling t, s₁.results.length)]
      else
        h.pushes }

def note (m : Setup n φ χ ι) (s₁ : Config n φ χ ι) (a : Action n ι) (s₂ : Config n φ χ ι)
    (h : Record n ι) : Record n ι :=
  match a with
  | .worker id _ =>
    match s₁.worker id with
    | .run item => { h with running := Function.update h.running id item.call }
    | .user pc  =>
      let h := h.noteUser m s₁ (.inl id) pc s₂
      match s₂.worker id with
      | .top => { h with returned := h.returned ++ [(id, h.running id)] }
      | _    => h
    | _ => h
  | .client i _ =>
    match s₁.client i with
    | some pc => h.noteUser m s₁ (.inr i) pc s₂
    | none    => h
  | .destructor => h

-- The calls that have pushed an item with the explicit id `i`, and the functions of those items that
-- have been called so far.
def pushesOf (h : Record n ι) (i : Fin n) : List Nat :=
  h.pushes.filter (·.1 = (i : Int)) |>.map (·.2)

def runsOf (h : Record n ι) (s : Config n φ χ ι) (i : Fin n) : List (Fin n × Nat) :=
  s.runs.filter fun r => ((i : Int), r.2) ∈ h.pushes

end Record

-- What a pool promises about the items that are scheduled with an explicit id.
structure Pinned (s : Config n φ χ ι) (h : Record n ι) : Prop where
  worker : ∀ {i c w}, (i, c) ∈ h.pushes → i ≠ -1 → (w, c) ∈ s.runs → i = (w.val : Int)
  order  : ∀ i, (h.runsOf s i).map (·.2) <+: h.pushesOf i
  serial : h.runsOf s i = rs ++ [r] → rs ⊆ h.returned

end ThreadPool
end AsyncSimple
