import AsyncSimple.Coro.CollectAllWindowed
import AsyncSimple.Coro.Theorems.CollectAll

open Transition

namespace AsyncSimple

namespace CollectAllAwaiter

variable {n : Nat} {ε α κ ξ : Type} {m : Setup n κ ξ} {s s₁ s₂ : Config n ε α κ ξ}

def ChildPc.completed : ChildPc ε α κ → Bool
  | .callback _ | .finish _ => true
  | _                       => false

-- How many children have been launched.
def Config.launched (s : Config n ε α κ ξ) : Nat :=
  min s.starter.next n

-- What the steps of the starter, of the executor and of the children change, as far as launches,
-- completions and results are concerned.

structure Same (s₁ s₂ : Config n ε α κ ξ) : Prop where
  completed : ∀ i, (s₂.child i).completed = (s₁.child i).completed
  produced  : s₂.produced = s₁.produced

theorem completed_setChild {pc : ChildPc ε α κ} (h : pc.completed = (s.child i).completed) (j : Fin n) :
    ((s.setChild i pc).child j).completed = (s.child j).completed := by
  by_cases hj : j = i
  · subst hj
    simpa [Config.setChild] using h
  · simp [Config.setChild, Function.update_of_ne hj]

theorem down_same (h : s₁.down pc = some (s₂, pc')) : Same s₁ s₂ ∧ s₂.starter = s₁.starter := by
  simp only [Config.down] at h
  split at h
  case h_1 => contradiction
  case h_2 => split at h <;> cases h <;> exact ⟨⟨fun _ => rfl, rfl⟩, rfl⟩

theorem stepStarter_same (i : Inv m s₁) (h : m.stepStarter s₁ = some s₂) :
    Same s₁ s₂ ∧ s₂.launched = match s₁.starter with
      | .launch j => j + 1
      | _         => s₁.launched := by
  cases hp : s₁.starter <;> simp only [Setup.stepStarter, hp] at h
  case loop j =>
    split at h <;> cases h
    case isTrue => exact ⟨⟨fun _ => rfl, rfl⟩, by simp [Config.launched, Config.goto, hp, StarterPc.next]⟩
    case isFalse hj =>
      refine ⟨⟨fun _ => rfl, rfl⟩, ?_⟩
      simp only [Config.launched, Config.goto, hp, StarterPc.next]
      omega
  case bind =>
    cases h
    exact ⟨⟨fun _ => rfl, rfl⟩, by simp [Config.launched, Config.goto, hp, StarterPc.next]⟩
  case launch j =>
    have hj : s₁.child j = .notStarted := (i.launched j).mpr (by simp [hp, StarterPc.next])
    have hl : min (j.val + 1) n = j + 1 := by omega
    split at h <;> cases h
    all_goals
      refine ⟨⟨completed_setChild (s := s₁.touch) ?_, rfl⟩, hl⟩
      simp [Config.touch, hj, ChildPc.completed]
  case setAwaitingCoroutine =>
    cases h
    exact ⟨⟨fun _ => rfl, rfl⟩, by simp [Config.launched, Config.goto, hp, StarterPc.next]⟩
  case finish =>
    obtain ⟨⟨s, pc'⟩, hd, rfl⟩ := Option.map_eq_some_iff.mp h
    obtain ⟨hs, _⟩ := down_same hd
    exact ⟨⟨hs.completed, hs.produced⟩, by simp [Config.launched, Config.goto, hp, StarterPc.next]⟩

theorem stepChild_same (h : Setup.stepChild s₁ i = some s₂) : Same s₁ s₂ ∧ s₂.starter = s₁.starter := by
  cases hp : s₁.child i <;> simp only [Setup.stepChild, hp] at h
  case callback t =>
    cases h
    exact ⟨⟨completed_setChild (s := { s₁.touch with output := _ })
      (by simp [Config.touch, hp, ChildPc.completed]), rfl⟩, rfl⟩
  case finish =>
    obtain ⟨⟨s, pc'⟩, hd, rfl⟩ := Option.map_eq_some_iff.mp h
    obtain ⟨hs, hst⟩ := down_same hd
    refine ⟨⟨fun j => ?_, hs.produced⟩, hst⟩
    rw [completed_setChild ?_, hs.completed]
    rw [hs.completed, hp]
    rfl
  all_goals contradiction

theorem runTask_same (h : Setup.runTask s₁ i = some s₂) : Same s₁ s₂ ∧ s₂.starter = s₁.starter := by
  simp only [Setup.runTask] at h
  split at h <;> cases h
  case h_1 hp =>
    exact ⟨⟨completed_setChild (s := s₁.touch) (by simp [Config.touch, hp, ChildPc.completed]), rfl⟩, rfl⟩

theorem complete_some (h : Setup.complete s₁ i t = some s₂) :
    (∀ j, (s₂.child j).completed = if j = i then true else (s₁.child j).completed) ∧
    (s₁.child i).completed = false ∧ s₂.produced = Function.update s₁.produced i (some t) ∧
    s₂.starter = s₁.starter := by
  simp only [Setup.complete] at h
  split at h
  case h_2 => contradiction
  case h_1 hp =>
    split at h <;> cases h
    refine ⟨fun j => ?_, by simp [hp, ChildPc.completed], rfl, rfl⟩
    by_cases hj : j = i
    · subst hj
      simp [Config.setChild, ChildPc.completed]
    · simp [Config.setChild, hj]

-- Once the awaiting coroutine has been resumed, everything has been done.
theorem Inv.resumed (i : Inv m s) (hr : s.resumed ≠ []) :
    s.launched = n ∧ s.output.length = n ∧ ∀ j : Fin n, (s.child j).completed ∧
      ∃ t, s.produced j = some t ∧ s.output[j.val]? = some t := by
  have hd := i.countdown.done_of_resumed hr
  refine ⟨?_, i.length, fun j => ?_⟩
  · have h₀ : s.starter.down = .done := hd none
    simp only [Config.launched]
    cases hp : s.starter <;> rw [hp] at h₀
    case finish => simp [StarterPc.next]
    all_goals contradiction
  · have h₁ : (s.child j).down = .done := hd (some j)
    have hj := i.stored j
    cases hp : s.child j <;> rw [hp] at h₁ hj
    case finish =>
      obtain ⟨t, ht, _, ho⟩ := hj
      exact ⟨rfl, t, ht, ho⟩
    all_goals contradiction

-- It gets the results of all children in their order.
theorem Inv.output_eq (i : Inv m s) (hr : s.resumed ≠ []) :
    ∃ v : Fin n → Try ε α, s.output = List.ofFn v ∧ ∀ j, s.produced j = some (v j) := by
  obtain ⟨_, hl, hc⟩ := i.resumed hr
  choose v hp ho using fun j => (hc j).right
  refine ⟨v, List.ext_getElem? fun j => ?_, hp⟩
  by_cases hj : j < n
  · rw [ho ⟨j, hj⟩, List.getElem?_ofFn, dif_pos hj]
  · rw [List.getElem?_eq_none (by omega), List.getElem?_eq_none (by simp; omega)]

end CollectAllAwaiter
namespace CollectAllWindowed

variable {n : Nat} {ε α ξ : Type} {m : Setup n ε α ξ} {s s₁ s₂ : Config n ε α ξ}

theorem children_map_some (is : List (Fin n)) : children (is.map some) = some is := by
  induction is
  case nil        => rfl
  case cons i is ih => simp [children, ih]

-- The first `k` children are done, and the others have not been touched.
structure Prefix (s : Config n ε α ξ) (k : Nat) : Prop where
  launched  : ∀ j : Fin n, s.launched j = if j.val < k then 1 else 0
  completed : ∀ j : Fin n, s.completed j = if j.val < k then 1 else 0

-- The children from `start` on are still in their places.
structure Moved (s : Config n ε α ξ) : Prop where
  start  : s.start ≤ n
  length : s.input.length = n
  rest   : ∀ j : Fin n, s.start ≤ j → s.input[j.val]? = some (some j)

-- The children of the window are those from `base` on, and all children before them are done.
structure WindowInv (m : Setup n ε α ξ) (s : Config n ε α ξ) (base : Nat) (w : Window n ε α ξ) :
    Prop where
  group    : ∀ i : Fin w.group.length, (w.group.get i).val = base + i
  inv      : CollectAllAwaiter.Inv (m.awaiter w.group) w.config
  produced : ∀ i t, w.config.produced i = some t → t = m.result (w.group.get i)
  launched : ∀ j : Fin n, s.launched j = if j.val < base + w.config.launched then 1 else 0
  before   : ∀ j : Fin n, j.val < base → s.completed j = 1
  within   : ∀ i, s.completed (w.group.get i) = if (w.config.child i).completed then 1 else 0
  after    : ∀ j : Fin n, base + w.group.length ≤ j → s.completed j = 0

-- The loop is entered only under this condition.
structure Looping (m : Setup n ε α ξ) : Prop where
  pos : 0 < m.max_concurrency
  lt  : m.max_concurrency < n

def results (m : Setup n ε α ξ) : List (Try ε α) :=
  List.ofFn m.result

inductive Inv (m : Setup n ε α ξ) (s : Config n ε α ξ) : Prop
  | entry :
    (s.pc = .entry) → (s.input = (List.finRange n).map some) → (s.start = 0) → (s.output = []) →
    (Prefix s 0) → Inv m s
  | all :
    (s.pc = .all w) → (w.group.length = n) → (0 < m.max_concurrency → n ≤ m.max_concurrency) →
    (WindowInv m s 0 w) → Inv m s
  | loop :
    (s.pc = .loop ∨ (s.pc = .yield ∧ m.yield) ∨ s.pc = .yielded) → (Looping m) → (Moved s) →
    (s.output = (results m).take s.start) → (Prefix s s.start) → Inv m s
  | gather {g : List (Fin n)} :
    (s.pc = .gather end_ (g.map some)) → (Looping m) → (Moved s) →
    (base + g.length = s.start) → (s.start ≤ end_) → (base < end_) → (end_ ≤ n) →
    (end_ ≤ base + m.max_concurrency) →
    (∀ (i : Nat) (h : i < g.length), g[i].val = base + i) →
    (s.output = (results m).take base) → (Prefix s base) → Inv m s
  | window :
    (s.pc = .window w) → (Looping m) → (Moved s) → (base + w.group.length = s.start) →
    (0 < w.group.length) → (w.group.length ≤ m.max_concurrency) →
    (s.output = (results m).take base) → (WindowInv m s base w) → Inv m s
  | append :
    (s.pc = .append tmp_output) → (Looping m) → (Moved s) →
    (s.output ++ tmp_output = (results m).take s.start) → (Prefix s s.start) → Inv m s
  | returned :
    (s.pc = .returned (results m)) → (Prefix s n) → Inv m s

-- The steps of a window.
section Window

variable {w w₁ w₂ : Window n ε α ξ} {a : Action}

theorem WindowInv.init {group : List (Fin n)}
    (hg : ∀ (i : Nat) (h : i < group.length), group[i].val = base + i) (hp : Prefix s base) :
    WindowInv m s base ⟨group, (m.awaiter group).init⟩ where
  group i      := hg i i.isLt
  inv          := .init
  produced     := nofun
  launched j   := by
    rw [hp.launched]
    rfl
  before j hj  := by rw [hp.completed, if_pos hj]
  within i     := by
    rw [hp.completed, if_neg]
    · rfl
    · have := hg i i.isLt
      simp only [List.get_eq_getElem]
      omega
  after j hj   := by rw [hp.completed, if_neg (by omega)]

-- The places of the children in the window are different.
theorem WindowInv.get_inj (i : WindowInv m s base w) {j k : Fin w.group.length}
    (h : w.group.get j = w.group.get k) : j = k := by
  have hj := i.group j
  have hk := i.group k
  rw [h] at hj
  exact Fin.ext (by omega)

-- A step that neither launches nor completes a child.
theorem WindowInv.same {config : CollectAllAwaiter.Config w.group.length ε α Unit ξ}
    (i : WindowInv m s base w) (inv : CollectAllAwaiter.Inv (m.awaiter w.group) config)
    (hs : CollectAllAwaiter.Same w.config config) (hl : config.launched = w.config.launched) :
    WindowInv m s base { w with config } where
  group        := i.group
  inv          := inv
  produced j t := by
    rw [hs.produced]
    exact i.produced j t
  launched     := hl ▸ i.launched
  before       := i.before
  within j     := by
    rw [hs.completed]
    exact i.within j
  after        := i.after

theorem WindowInv.launch {config : CollectAllAwaiter.Config w.group.length ε α Unit ξ}
    {j : Fin w.group.length} (i : WindowInv m s base w)
    (inv : CollectAllAwaiter.Inv (m.awaiter w.group) config)
    (hs : CollectAllAwaiter.Same w.config config) (h₁ : w.config.launched = j)
    (h₂ : config.launched = j + 1) :
    WindowInv m (s.launch (w.group.get j)) base { w with config } where
  group        := i.group
  inv          := inv
  produced k t := by
    rw [hs.produced]
    exact i.produced k t
  launched k   := by
    have hj := i.group j
    have hk := i.launched k
    rw [h₁] at hk
    simp only [h₂, Config.launch, Function.update_apply, i.launched, h₁]
    by_cases h : k = w.group.get j
    · subst h
      simp only [hj, if_true]
      simp
    · have : k.val ≠ base + j := fun e => h (Fin.ext (e.trans hj.symm))
      simp only [h, if_false]
      congr 1
      simp
      omega
  before       := i.before
  within k     := by
    rw [hs.completed]
    exact i.within k
  after        := i.after

theorem WindowInv.complete {config : CollectAllAwaiter.Config w.group.length ε α Unit ξ}
    {j : Fin w.group.length} (i : WindowInv m s base w)
    (h : CollectAllAwaiter.Setup.complete w.config j (m.result (w.group.get j)) = some config)
    (inv : CollectAllAwaiter.Inv (m.awaiter w.group) config) :
    WindowInv m (s.finish (w.group.get j)) base { w with config } := by
  obtain ⟨hc, hj, hp, hst⟩ := CollectAllAwaiter.complete_some h
  have hl : config.launched = w.config.launched := by
    simp only [CollectAllAwaiter.Config.launched, hst]
  have hg := i.group j
  have hne (k : Fin n) (hk : k.val < base ∨ base + w.group.length ≤ k) : k ≠ w.group.get j := by
    rintro rfl
    omega
  refine ⟨i.group, inv, fun k t ht => ?_, hl ▸ i.launched, fun k hk => ?_, fun k => ?_, fun k hk => ?_⟩
  · rw [hp] at ht
    by_cases hk : k = j
    · subst hk
      simpa using ht.symm
    · rw [Function.update_of_ne hk] at ht
      exact i.produced k t ht
  · exact (Function.update_of_ne (hne k (.inl hk)) ..).trans (i.before k hk)
  · simp only [Config.finish, hc]
    by_cases hk : k = j
    · subst hk
      rw [Function.update_self, i.within, hj]
      simp
    · rw [Function.update_of_ne fun h => hk (i.get_inj h), if_neg hk]
      exact i.within k
  · exact (Function.update_of_ne (hne k (.inr hk)) ..).trans (i.after k hk)

-- The steps of a window leave the loop alone.
structure Frame (s₁ s₂ : Config n ε α ξ) : Prop where
  input  : s₂.input = s₁.input
  output : s₂.output = s₁.output
  start  : s₂.start = s₁.start

theorem WindowInv.step (i : WindowInv m s₁ base w₁) (h : m.stepWindow s₁ w₁ a = some (s₂, w₂)) :
    WindowInv m s₂ base w₂ ∧ w₂.group.length = w₁.group.length ∧ Frame s₁ s₂ := by
  have inv {a config} (h : (m.awaiter w₁.group).system.step w₁.config a = some config) :
      CollectAllAwaiter.Inv (m.awaiter w₁.group) config := i.inv.step h
  cases a <;> simp only [Setup.stepWindow] at h
  case starter =>
    split at h
    case h_1 j hp =>
      obtain ⟨config, hs, e⟩ := Option.map_eq_some_iff.mp h
      cases e
      obtain ⟨hsame, hl⟩ := CollectAllAwaiter.stepStarter_same i.inv hs
      simp only [hp] at hl
      refine ⟨i.launch (inv hs) hsame ?_ hl, rfl, rfl, rfl, rfl⟩
      simp only [CollectAllAwaiter.Config.launched, hp, CollectAllAwaiter.StarterPc.next]
      omega
    case h_2 hp =>
      obtain ⟨config, hs, e⟩ := Option.map_eq_some_iff.mp h
      cases e
      obtain ⟨hsame, hl⟩ := CollectAllAwaiter.stepStarter_same i.inv hs
      refine ⟨i.same (inv hs) hsame ?_, rfl, rfl, rfl, rfl⟩
      rw [hl]
      split
      case h_1 hp' => exact absurd hp' (hp _)
      case h_2     => rfl
  case runTask =>
    split at h
    case isFalse => contradiction
    case isTrue =>
      obtain ⟨config, hs, e⟩ := Option.map_eq_some_iff.mp h
      cases e
      obtain ⟨hsame, hst⟩ := CollectAllAwaiter.runTask_same hs
      exact ⟨i.same (inv hs) hsame (by simp only [CollectAllAwaiter.Config.launched, hst]), rfl, rfl,
        rfl, rfl⟩
  case complete =>
    split at h
    case isFalse => contradiction
    case isTrue =>
      obtain ⟨config, hs, e⟩ := Option.map_eq_some_iff.mp h
      cases e
      exact ⟨i.complete hs (inv hs), rfl, rfl, rfl, rfl⟩
  case child =>
    split at h
    case isFalse => contradiction
    case isTrue =>
      obtain ⟨config, hs, e⟩ := Option.map_eq_some_iff.mp h
      cases e
      obtain ⟨hsame, hst⟩ := CollectAllAwaiter.stepChild_same hs
      exact ⟨i.same (inv hs) hsame (by simp only [CollectAllAwaiter.Config.launched, hst]), rfl, rfl,
        rfl, rfl⟩
  all_goals contradiction

-- When the coroutine is resumed, the window is done.
theorem WindowInv.done (i : WindowInv m s base w) (hr : w.config.resumed ≠ []) :
    Prefix s (base + w.group.length) := by
  obtain ⟨hl, _, hc⟩ := i.inv.resumed hr
  refine ⟨fun j => by rw [i.launched, hl], fun j => ?_⟩
  by_cases h₁ : j.val < base
  · rw [i.before j h₁, if_pos (by omega)]
  · by_cases h₂ : base + w.group.length ≤ j
    · rw [i.after j h₂, if_neg (by omega)]
    · have hj : w.group.get ⟨j - base, by omega⟩ = j := by
        refine Fin.ext ?_
        rw [i.group]
        dsimp only
        omega
      have hw := i.within ⟨j - base, by omega⟩
      rw [hj, (hc _).left] at hw
      rw [hw, if_pos rfl, if_pos (by omega)]

theorem WindowInv.output (i : WindowInv m s base w) (hr : w.config.resumed ≠ []) :
    (results m).take base ++ w.config.output = (results m).take (base + w.group.length) := by
  obtain ⟨_, hl, hc⟩ := i.inv.resumed hr
  rw [List.take_add]
  congr 1
  refine List.ext_getElem? fun k => ?_
  by_cases hk : k < w.group.length
  · obtain ⟨t, hp, ho⟩ := (hc ⟨k, hk⟩).right
    have hg := i.group ⟨k, hk⟩
    have hn : base + k < n := by
      rw [← hg]
      exact Fin.isLt _
    rw [ho, i.produced _ t hp, List.getElem?_take_of_lt hk, List.getElem?_drop, results,
      List.getElem?_ofFn, dif_pos hn]
    congr 2
    exact Fin.ext hg
  · rw [List.getElem?_eq_none (by omega), List.getElem?_eq_none]
    simp only [List.length_take]
    omega

end Window

theorem Prefix.goto (p : Prefix s k) : Prefix (s.goto pc) k := ⟨p.launched, p.completed⟩

theorem Moved.goto (v : Moved s) : Moved (s.goto pc) := ⟨v.start, v.length, v.rest⟩

theorem Moved.frame (v : Moved s₁) (f : Frame s₁ s₂) : Moved s₂ where
  start  := f.start ▸ v.start
  length := f.input ▸ v.length
  rest   := by
    rw [f.start, f.input]
    exact v.rest

theorem WindowInv.goto (i : WindowInv m s base w) : WindowInv m (s.goto pc) base w :=
  ⟨i.group, i.inv, i.produced, i.launched, i.before, i.within, i.after⟩

theorem length_results : (results m).length = n := List.length_ofFn

namespace Inv

theorem init : Inv m m.init :=
  .entry rfl rfl rfl rfl ⟨fun _ => rfl, fun _ => rfl⟩

theorem await_some {ready suspended} {tmp_group : List (Fin n)}
    (h : m.await s₁ (tmp_group.map some) ready suspended = some s₂) :
    (tmp_group = [] ∧ s₂ = s₁.goto (ready [])) ∨
    (0 < tmp_group.length ∧ s₂ = s₁.goto (suspended ⟨tmp_group, (m.awaiter tmp_group).init⟩)) := by
  rw [Setup.await, children_map_some] at h
  cases tmp_group
  case nil  => exact .inl ⟨rfl, (Option.some.inj h).symm⟩
  case cons => exact .inr ⟨Nat.succ_pos _, (Option.some.inj h).symm⟩

theorem step_coroutine (i : Inv m s₁) (h : m.stepCoroutine s₁ = some s₂) : Inv m s₂ := by
  cases i
  case entry hpc hin hst hout hp =>
    simp only [Setup.stepCoroutine, hpc, hin, List.length_map, List.length_finRange] at h
    split at h
    case isTrue hm =>
      obtain ⟨he, rfl⟩ | ⟨hl, rfl⟩ := await_some h
      · have hn : n = 0 := by simpa using congrArg List.length he
        subst hn
        exact .returned rfl hp.goto
      · exact .all rfl (List.length_finRange ..) (by omega) (.init (by simp) hp.goto)
    case isFalse hm =>
      cases h
      have hv : Moved s₁ := ⟨by omega, by simp [hin], fun j _ => by simp [hin]⟩
      refine .loop (.inl rfl) ⟨by omega, by omega⟩ hv.goto ?_ (hst ▸ hp.goto)
      simp [Config.goto, hst, hout]
  case all hpc hg _ w =>
    simp only [Setup.stepCoroutine, hpc] at h
    split at h <;> cases h
    case isFalse hr =>
      have ho := w.output hr
      have hd := w.done hr
      rw [hg, Nat.zero_add] at hd
      rw [List.take_zero, List.nil_append, Nat.zero_add,
        List.take_of_length_le (by rw [length_results, hg])] at ho
      exact .returned (by rw [ho]; rfl) hd.goto
  case loop hpc hl hv hout hp =>
    obtain hpc | ⟨hpc, _⟩ | hpc := hpc <;> simp only [Setup.stepCoroutine, hpc, hv.length] at h
    case inl =>
      have hw := m.size
      have hlt := hl.lt
      have hpos := hl.pos
      have hs := hv.start
      split at h <;> cases h
      case isTrue hn =>
        have hmod : (s₁.start + m.max_concurrency) % 2 ^ 64 = s₁.start + m.max_concurrency :=
          Nat.mod_eq_of_lt (by omega)
        rw [hmod]
        have he : s₁.start < min n (s₁.start + m.max_concurrency) := by omega
        exact .gather (g := []) rfl hl hv.goto rfl (Nat.le_of_lt he) he (Nat.min_le_left ..)
          (Nat.min_le_right ..) nofun hout hp.goto
      case isFalse hn =>
        have hs : s₁.start = n := by omega
        rw [hs] at hp hout
        rw [List.take_of_length_le (Nat.le_of_eq length_results)] at hout
        exact .returned (by rw [hout]; rfl) hp.goto
    case inr.inl =>
      split at h <;> cases h
      exact .loop (.inr (.inr rfl)) hl hv.goto hout hp.goto
    case inr.inr => contradiction
  case gather end_ base tmp_group hpc hl hv hb he hlt hn hmax hg hout hp =>
    simp only [Setup.stepCoroutine, hpc] at h
    split at h
    case isTrue hs =>
      have hc := hv.rest ⟨s₁.start, by omega⟩ (Nat.le_refl _)
      simp only [hc] at h
      cases h
      refine .gather (g := tmp_group ++ [⟨s₁.start, by omega⟩]) (by simp) hl ?_ ?_ hs hlt hn hmax ?_ hout
        ⟨hp.launched, hp.completed⟩
      · refine ⟨by dsimp only; omega, by simp [hv.length], fun j hj => ?_⟩
        have hj : s₁.start + 1 ≤ j := hj
        rw [List.getElem?_set_ne (by omega)]
        exact hv.rest j (by omega)
      · simp only [List.length_append, List.length_singleton]
        omega
      · intro k hk
        simp only [List.length_append, List.length_singleton] at hk
        by_cases hk' : k < tmp_group.length
        · rw [List.getElem_append_left hk']
          exact hg k hk'
        · rw [List.getElem_append_right (by omega)]
          simp only [List.getElem_singleton]
          omega
    case isFalse hs =>
      obtain ⟨rfl, rfl⟩ | ⟨hpos, rfl⟩ := await_some h
      · simp only [List.length_nil] at hb
        omega
      · exact .window rfl hl hv.goto hb hpos (by dsimp only; omega) hout (.init hg hp.goto)
  case window hpc hl hv hb hpos _ hout w =>
    simp only [Setup.stepCoroutine, hpc] at h
    split at h <;> cases h
    case isFalse hr =>
      refine .append rfl hl hv.goto ?_ ?_
      · have := w.output hr
        rw [hb] at this
        simpa only [Config.goto, hout] using this
      · have := w.done hr
        rw [hb] at this
        exact this.goto
  case append tmp_output hpc hl hv hout hp =>
    cases tmp_output <;> simp only [Setup.stepCoroutine, hpc] at h <;> cases h
    case nil =>
      rw [List.append_nil] at hout
      refine .loop ?_ hl hv.goto hout hp.goto
      cases hy : m.yield <;> simp [Config.goto]
    case cons =>
      exact .append rfl hl ⟨hv.start, hv.length, hv.rest⟩ (by simpa using hout) ⟨hp.launched, hp.completed⟩
  case returned hpc hp =>
    simp only [Setup.stepCoroutine, hpc] at h
    contradiction

-- What is known while the children are running.

theorem of_all (i : Inv m s) (h : s.pc = .all w) :
    w.group.length = n ∧ (0 < m.max_concurrency → n ≤ m.max_concurrency) ∧ WindowInv m s 0 w := by
  cases i
  case all hpc hg hm i =>
    cases hpc.symm.trans h
    exact ⟨hg, hm, i⟩
  all_goals simp_all

theorem of_window (i : Inv m s) (h : s.pc = .window w) :
    ∃ base, Looping m ∧ Moved s ∧ base + w.group.length = s.start ∧ 0 < w.group.length ∧
      w.group.length ≤ m.max_concurrency ∧ s.output = (results m).take base ∧ WindowInv m s base w := by
  cases i
  case window hpc hl hv hb hpos hmax hout i =>
    cases hpc.symm.trans h
    exact ⟨_, hl, hv, hb, hpos, hmax, hout, i⟩
  all_goals simp_all

theorem step (i : Inv m s₁) (h : m.system.step s₁ a = some s₂) : Inv m s₂ := by
  simp only [Setup.system] at h
  split at h
  case h_1 => exact i.step_coroutine h
  case h_2 hy =>
    cases h
    cases i
    case loop hl hv hout hp => exact .loop (.inl rfl) hl hv.goto hout hp.goto
    all_goals simp_all
  case h_3 _ hpc =>
    obtain ⟨⟨s, w₂⟩, hs, rfl⟩ := Option.map_eq_some_iff.mp h
    obtain ⟨hg, hm, w⟩ := i.of_all hpc
    obtain ⟨w, hlen, _⟩ := w.step hs
    exact .all rfl (hlen.trans hg) hm w.goto
  case h_4 _ hpc =>
    obtain ⟨⟨s, w₂⟩, hs, rfl⟩ := Option.map_eq_some_iff.mp h
    obtain ⟨base, hl, hv, hb, hpos, hmax, hout, w⟩ := i.of_window hpc
    obtain ⟨w, hlen, hf⟩ := w.step hs
    refine .window rfl hl (hv.frame hf).goto ?_ (hlen ▸ hpos) (hlen ▸ hmax) ?_ w.goto
    · rw [hlen]
      exact hb.trans hf.start.symm
    · exact hf.output.trans hout
  case h_5 => contradiction

theorem reachable (h : m.system.Reachable s) : Inv m s :=
  h.invariant init step

end Inv

-- Only the children of the window can be active.

theorem Prefix.active (p : Prefix s k) : s.active = 0 := by
  refine List.countP_eq_zero.mpr fun j _ => ?_
  simp [p.launched, p.completed]

theorem WindowInv.active (i : WindowInv m s base w) : s.active ≤ w.group.length := by
  have hin (j : Fin n) (hj : s.completed j < s.launched j) :
      base ≤ j.val ∧ j.val < base + w.group.length := by
    constructor
    · by_contra hc
      rw [i.before j (by omega), i.launched] at hj
      split at hj <;> omega
    · by_contra hc
      have hl : w.config.launched ≤ w.group.length := Nat.min_le_right ..
      rw [i.launched, if_neg (by omega)] at hj
      omega
  have hnodup : (((List.finRange n).filter fun i => s.completed i < s.launched i).map Fin.val).Nodup :=
    ((List.nodup_finRange n).filter _).map Fin.val_injective
  have hsub : (((List.finRange n).filter fun i => s.completed i < s.launched i).map Fin.val) ⊆
      List.range' base w.group.length := by
    intro k hk
    simp only [List.mem_map, List.mem_filter, decide_eq_true_eq] at hk
    obtain ⟨j, ⟨_, hj⟩, rfl⟩ := hk
    simpa using hin j hj
  have := hnodup.length_le_of_subset hsub
  simpa [Config.active, List.countP_eq_length_filter] using this

theorem Inv.active (i : Inv m s) (hpos : 0 < m.max_concurrency) : s.active ≤ m.max_concurrency := by
  cases i
  case all hpc hg hm i =>
    have := i.active
    have := hm hpos
    omega
  case window hpc hl hv hb _ hmax hout i =>
    have := i.active
    omega
  case entry hp    => simp [hp.active]
  case loop hp     => simp [hp.active]
  case gather hp   => simp [hp.active]
  case append hp   => simp [hp.active]
  case returned hp => simp [hp.active]

-- A bound on the number of steps that are left.

def Pc.rank (start : Nat) : Pc n ε α ξ → Nat
  | .entry             => 30 * n + 20
  | .all w             => w.config.rank + 5
  | .loop              => 30 * (n - start) + 3
  | .gather _ g        => 30 * (n - start) + 29 * g.length + 2
  | .window w          => 30 * (n - start) + w.config.rank + 2 * w.group.length + 8
  | .append tmp_output => 30 * (n - start) + tmp_output.length + 7
  | .yield             => 30 * (n - start) + 6
  | .yielded           => 30 * (n - start) + 5
  | .returned _        => 0

def Config.rank (s : Config n ε α ξ) : Nat :=
  s.pc.rank s.start

theorem stepWindow_config {a : Action} (h : m.stepWindow s₁ w₁ a = some (s₂, w₂)) :
    ∃ b config, (m.awaiter w₁.group).system.step w₁.config b = some config ∧
      w₂ = { w₁ with config } := by
  have hmap {b} {s : Config n ε α ξ}
      (h : ((m.awaiter w₁.group).system.step w₁.config b).map
        (fun config => (s, { w₁ with config })) = some (s₂, w₂)) :
      ∃ b config, (m.awaiter w₁.group).system.step w₁.config b = some config ∧
        w₂ = { w₁ with config } := by
    obtain ⟨config, hs, e⟩ := Option.map_eq_some_iff.mp h
    cases e
    exact ⟨_, _, hs, rfl⟩
  cases a <;> simp only [Setup.stepWindow] at h
  case starter  => split at h <;> exact hmap h
  case runTask  => split at h <;> first | exact hmap h | contradiction
  case complete => split at h <;> first | exact hmap h | contradiction
  case child    => split at h <;> first | exact hmap h | contradiction
  all_goals contradiction

theorem WindowInv.rank_step {a : Action} (i : WindowInv m s₁ base w₁)
    (h : m.stepWindow s₁ w₁ a = some (s₂, w₂)) : w₂.config.rank < w₁.config.rank := by
  obtain ⟨_, _, hs, rfl⟩ := stepWindow_config h
  exact CollectAllAwaiter.rank_step i.inv hs

theorem rank_coroutine (i : Inv m s₁) (h : m.stepCoroutine s₁ = some s₂) : s₂.rank < s₁.rank := by
  cases i
  case entry hpc hin hst _ _ =>
    simp only [Setup.stepCoroutine, hpc, hin, List.length_map, List.length_finRange] at h
    split at h
    case isTrue =>
      obtain ⟨_, rfl⟩ | ⟨_, rfl⟩ := Inv.await_some h
      · simp [Config.rank, Config.goto, hpc, Pc.rank]
      · simp only [Config.rank, Config.goto, hpc, Pc.rank, CollectAllAwaiter.rank_init, List.length_finRange]
        omega
    case isFalse =>
      cases h
      simp only [Config.rank, Config.goto, hpc, Pc.rank]
      omega
  case all hpc _ _ _ =>
    simp only [Setup.stepCoroutine, hpc] at h
    split at h <;> cases h
    simp [Config.rank, Config.goto, hpc, Pc.rank]
  case loop hpc hl hv _ _ =>
    obtain hpc | ⟨hpc, _⟩ | hpc := hpc <;> simp only [Setup.stepCoroutine, hpc] at h
    case inl => split at h <;> cases h <;> simp [Config.rank, Config.goto, hpc, Pc.rank]
    case inr.inl =>
      split at h <;> cases h
      simp [Config.rank, Config.goto, hpc, Pc.rank]
    case inr.inr => contradiction
  case gather hpc hl hv hb he hlt hn _ _ _ _ =>
    simp only [Setup.stepCoroutine, hpc] at h
    split at h
    case isTrue hs =>
      split at h <;> cases h
      simp only [Config.rank, hpc, Pc.rank, List.length_append, List.length_singleton, List.length_map]
      omega
    case isFalse hs =>
      obtain ⟨rfl, rfl⟩ | ⟨hpos, rfl⟩ := Inv.await_some h
      · simp only [List.length_nil] at hb
        omega
      · simp only [Config.rank, Config.goto, hpc, Pc.rank, CollectAllAwaiter.rank_init, List.length_map]
        omega
  case window hpc _ _ _ _ _ _ w =>
    simp only [Setup.stepCoroutine, hpc] at h
    split at h <;> cases h
    simp only [Config.rank, Config.goto, hpc, Pc.rank, w.inv.length]
    omega
  case append tmp_output hpc _ _ _ _ =>
    cases tmp_output <;> simp only [Setup.stepCoroutine, hpc] at h <;> cases h
    case nil => cases m.yield <;> simp [Config.rank, Config.goto, hpc, Pc.rank]
    case cons => simp [Config.rank, hpc, Pc.rank]
  case returned hpc _ =>
    simp only [Setup.stepCoroutine, hpc] at h
    contradiction

theorem rank_step (i : Inv m s₁) (h : m.system.step s₁ a = some s₂) : s₂.rank < s₁.rank := by
  simp only [Setup.system] at h
  split at h
  case h_1 => exact rank_coroutine i h
  case h_2 hpc =>
    cases h
    simp [Config.rank, Config.goto, hpc, Pc.rank]
  case h_3 _ hpc =>
    obtain ⟨⟨s, w₂⟩, hs, rfl⟩ := Option.map_eq_some_iff.mp h
    obtain ⟨_, _, w⟩ := i.of_all hpc
    have := w.rank_step hs
    simp only [Config.rank, Config.goto, hpc, Pc.rank]
    omega
  case h_4 _ hpc =>
    obtain ⟨⟨s, w₂⟩, hs, rfl⟩ := Option.map_eq_some_iff.mp h
    obtain ⟨_, _, _, _, _, _, _, w⟩ := i.of_window hpc
    have := w.rank_step hs
    obtain ⟨_, hlen, hf⟩ := w.step hs
    simp only [Config.rank, Config.goto, hpc, Pc.rank, hlen, hf.start]
    omega
  case h_5 => contradiction

theorem await_ne_none {ready suspended} {tmp_group : List (Fin n)} :
    m.await s (tmp_group.map some) ready suspended ≠ none := by
  rw [Setup.await, children_map_some]
  cases tmp_group <;> nofun

-- When no step is left in a window, its children are done.
theorem WindowInv.resumed_of_quiescent (i : WindowInv m s base w)
    (hq : ∀ a, m.stepWindow s w a = none) : w.config.resumed ≠ [] := by
  have hq' : (m.awaiter w.group).system.Quiescent w.config := by
    intro a
    cases a
    case starter =>
      have := hq .starter
      simp only [Setup.stepWindow] at this
      split at this <;> simpa using this
    case runTask j  => simpa [Setup.stepWindow] using hq (.runTask j)
    case child j    => simpa [Setup.stepWindow] using hq (.child j)
    case complete j t =>
      -- Whether a child can complete does not depend on its result.
      have := hq (.complete j)
      simp only [Setup.stepWindow, j.isLt, dite_true, Option.map_eq_none_iff] at this
      simp only [CollectAllAwaiter.Setup.system, CollectAllAwaiter.Setup.complete] at this ⊢
      split at this
      case h_1 => simp [m.available] at this
      case h_2 hc =>
        split
        case h_1 hc' => exact absurd hc' hc
        case h_2     => rfl
  have := i.inv.countdown.resumed_of_done (CollectAllAwaiter.done_of_quiescent i.inv hq')
  exact fun hr => List.cons_ne_nil _ _ (this.symm.trans hr)

-- When no step is left, the coroutine has returned.
theorem returned_of_quiescent (i : Inv m s) (hq : m.system.Quiescent s) :
    s.pc = .returned (results m) := by
  have hc : m.stepCoroutine s = none := hq .coroutine
  cases i
  case entry hpc hin _ _ _ =>
    simp only [Setup.stepCoroutine, hpc, hin] at hc
    split at hc
    case isTrue  => exact absurd hc await_ne_none
    case isFalse => contradiction
  case all hpc _ _ w =>
    have hr := w.resumed_of_quiescent fun a => ?_
    · simp [Setup.stepCoroutine, hpc, hr] at hc
    · have := hq a
      cases a
      case coroutine => rfl
      all_goals simpa [Setup.system, hpc] using this
  case loop hpc hl hv _ _ =>
    obtain hpc | ⟨hpc, hy⟩ | hpc := hpc <;> simp only [Setup.stepCoroutine, hpc] at hc
    case inl => split at hc <;> contradiction
    case inr.inl =>
      split at hc
      case h_1    => contradiction
      case h_2 he => simpa [he] using m.yieldExecutor hy
    case inr.inr =>
      have := hq .resume
      simp [Setup.system, hpc] at this
  case gather hpc hl hv hb he hlt hn _ _ _ _ =>
    simp only [Setup.stepCoroutine, hpc] at hc
    split at hc
    case isTrue hs =>
      have := hv.rest ⟨s.start, by omega⟩ (Nat.le_refl _)
      simp [this] at hc
    case isFalse => exact absurd hc await_ne_none
  case window hpc _ _ _ _ _ _ w =>
    have hr := w.resumed_of_quiescent fun a => ?_
    · simp [Setup.stepCoroutine, hpc, hr] at hc
    · have := hq a
      cases a
      case coroutine => rfl
      all_goals simpa [Setup.system, hpc] using this
  case append tmp_output hpc _ _ _ _ =>
    cases tmp_output <;> simp [Setup.stepCoroutine, hpc] at hc
  case returned hpc _ => exact hpc

-- `CollectAll` of all children at once gives the same results.
theorem collectAll_output {c : CollectAllAwaiter.Config n ε α Unit ξ}
    {w : CollectAllAwaiter.Setup n Unit ξ} (hc : w.system.Reachable c)
    (hp : ∀ i t, c.produced i = some t → t = m.result i) (hr : c.resumed ≠ []) :
    c.output = results m := by
  obtain ⟨_, hl, hd⟩ := (CollectAllAwaiter.Inv.reachable hc).resumed hr
  refine List.ext_getElem? fun k => ?_
  by_cases hk : k < n
  · obtain ⟨t, ht, ho⟩ := (hd ⟨k, hk⟩).right
    rw [ho, hp _ t ht, results, List.getElem?_ofFn, dif_pos hk]
  · rw [List.getElem?_eq_none (by omega), List.getElem?_eq_none (by rw [length_results]; omega)]

-- The loop terminates. It returns what `CollectAll` returns for the same children, each of which has
-- been started and completed once, and never are too many of them active.
theorem collectAllWindowed (h : m.system.Reachable s) :
    (∀ output, s.pc = .returned output →
      (∀ i, s.launched i = 1 ∧ s.completed i = 1) ∧ output.length = n ∧
      (∀ i : Fin n, output[i.val]? = some (m.result i)) ∧
      ∀ (w : CollectAllAwaiter.Setup n Unit ξ) (c : CollectAllAwaiter.Config n ε α Unit ξ),
        w.system.Reachable c → (∀ i t, c.produced i = some t → t = m.result i) → c.resumed ≠ [] →
        output = c.output) ∧
    (0 < m.max_concurrency → s.active ≤ m.max_concurrency) ∧
    (s.pc = .loop → s.start < n → s.start + m.max_concurrency < 2 ^ 64) ∧
    (m.system.Quiescent s → ∃ output, s.pc = .returned output) ∧
    (∀ k, m.system.Steps k s → k ≤ 30 * n + 20) := by
  have i := Inv.reachable h
  refine ⟨fun output hpc => ?returned, i.active, fun hpc hs => ?sum, fun hq => ?quiescent,
    fun k hk => ?bound⟩
  case returned =>
    cases i
    case returned hpc' hp =>
      cases hpc'.symm.trans hpc
      refine ⟨fun j => ⟨?_, ?_⟩, length_results, fun j => ?_, fun w c hc hp hr => ?_⟩
      · rw [hp.launched, if_pos j.isLt]
      · rw [hp.completed, if_pos j.isLt]
      · simp [results]
      · exact (collectAll_output hc hp hr).symm
    all_goals simp_all
  case sum =>
    have := m.size
    cases i
    case loop hl _ _ _ =>
      have := hl.lt
      omega
    all_goals simp_all
  case quiescent => exact ⟨_, returned_of_quiescent i hq⟩
  case bound =>
    have := hk.length_le (μ := Config.rank) fun hr hs => rank_step (.reachable hr) hs
    simp only [Setup.system, Setup.init, Config.rank, Pc.rank] at *
    omega

def pairSetup : Setup 3 Unit Nat Unit where
  para            := true
  max_concurrency := 2
  yield           := true
  executor        := some ()
  input _         := none
  result i        := .value i.val
  available _     := rfl
  yieldExecutor _ := rfl
  size            := by decide

-- The first window has two children, which complete in reverse order, and the second one has the
-- remaining child.
def pairRun : List Action :=
  List.replicate 5 .coroutine ++ List.replicate 9 .starter ++
  [.runTask 0, .runTask 1, .complete 1, .complete 0, .child 1, .child 1] ++ List.replicate 4 (.child 0) ++
  List.replicate 5 .coroutine ++ [.resume] ++
  List.replicate 3 .coroutine ++ List.replicate 6 .starter ++ [.complete 0] ++
  List.replicate 4 (.child 0) ++ List.replicate 4 .coroutine ++ [.resume, .coroutine]

theorem collectAllWindowed_pair :
    ∃ s : Config 3 Unit Nat Unit, (∀ i, s.launched i = 1) ∧ s.active ≤ 2 ∧
      s.pc = .returned [.value 0, .value 1, .value 2] := by
  obtain ⟨s, hr, hs⟩ := pairSetup.system.exists_reachable pairRun
    (p := fun s => match s.pc with
      | .returned output => output = [.value 0, .value 1, .value 2]
      | _                => false) (by decide +kernel)
  obtain ⟨hd, ha, _⟩ := collectAllWindowed hr
  split at hs
  case h_1 output hpc =>
    simp only [decide_eq_true_eq] at hs
    subst hs
    exact ⟨s, fun j => ((hd _ hpc).left j).left, ha (by decide), hpc⟩
  case h_2 => contradiction

end CollectAllWindowed
end AsyncSimple
