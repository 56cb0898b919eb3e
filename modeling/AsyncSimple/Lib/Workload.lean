import Mathlib.Logic.Hydra

namespace Workload

-- A task, with those that can come of it.
inductive Task : Type 1
  | node {ι : Type} (sub : ι → Task)

namespace Task

def Sub (a : Task) : Task → Prop
  | node sub => ∃ i, sub i = a

theorem wellFounded_sub : WellFounded Sub := by
  refine ⟨fun a => ?_⟩
  induction a
  case node ih =>
    refine ⟨_, fun b h => ?_⟩
    obtain ⟨i, rfl⟩ := h
    exact ih i

-- A task that comes of another one at some time.
def After : Task → Task → Prop :=
  Relation.TransGen Sub

theorem after_sub {ι : Type} {sub : ι → Task} {a : Task} (i : ι) (h : sub i = a) : a.After (node sub) :=
  .single ⟨i, h⟩

theorem after_sub_sub {ι ι' : Type} {sub : ι → Task} {sub' : ι' → Task} {a : Task} (i : ι) (j : ι')
    (h : sub i = node sub') (h' : sub' j = a) : a.After (node sub) :=
  .tail (after_sub j h') ⟨i, h⟩

end Task

-- The tasks that are to be done, together with a bound on the number of steps up to the next one.
abbrev Load := Multiset Task × Nat

-- A task is replaced by some of those that come after it, or one of the other steps is made.
def Less : Load → Load → Prop :=
  Prod.Lex (Relation.CutExpand Task.After) (· < ·)

theorem wellFounded_less : WellFounded Less :=
  WellFounded.prod_lex Task.wellFounded_sub.transGen.cutExpand wellFounded_lt

variable {a : Task} {s s' t : Multiset Task} {n n' : Nat}

theorem Less.task (ht : ∀ b ∈ t, b.After a) (h : s' + {a} = s + t) : Less (s', n') (s, n) :=
  .left _ _ ⟨t, a, ht, h⟩

theorem Less.rest (hs : s' = s) (hn : n' < n) : Less (s', n') (s, n) :=
  hs ▸ .right _ hn

theorem Less.add (h : Less (s', n') (s, n)) (k : Nat) : Less (s', n' + k) (s, n + k) := by
  cases h
  case left h  => exact .left _ _ h
  case right h => exact .right _ (Nat.add_lt_add_right h k)

end Workload
