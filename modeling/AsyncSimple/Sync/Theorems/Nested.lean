import AsyncSimple.Sync.Nested

open Transition

namespace AsyncSimple
namespace Nested

variable {ε α : Type}

-- The result that a callback gives, where the last argument is the one that it gives if it returns a
-- future to which a continuation has already been attached.
def Callback.result (c : Callback ε α) (t attached : Try ε α) : Try ε α :=
  match c.func with
  | .value f  => .makeTryCall (f t)
  | .future f =>
    match f t with
    | .error x                             => .exception x
    | .ok (.localState r) | .ok (.ready r) => .makeTryCall r
    | .ok (.pending fate)                  => .makeTryCall fate.outcome
    | .ok .attached                        => attached

def Callback.returnsAttached (c : Callback ε α) (t : Try ε α) : Prop :=
  ∃ f, c.func = .future f ∧ f t = .ok .attached

namespace Setup

def result (m : Setup ε α) (attached : Try ε α) : Nat → Try ε α
  | 0     => .makeTryCall m.source
  | p + 1 => match m.callbacks[p]? with
    | some c => c.result (m.result attached p) attached
    | none   => .nothing

-- The results that the futures are meant to have: if the step of a callback fails, then the exception
-- that this step has raised.
def expected (m : Setup ε α) : Nat → Try ε α :=
  m.result (.exception (.logicError "FutureState already has a continuation"))

-- Those that they have.
def given (m : Setup ε α) : Nat → Try ε α :=
  m.result brokenPromise

-- No callback returns a future to which a continuation has already been attached.
def Detached (m : Setup ε α) : Prop :=
  ∀ p c, m.callbacks[p]? = some c → ¬ Callback.returnsAttached c (m.expected p)

end Setup

-- No call on the source throws, and the futures have the results that they are meant to have.
structure Safe (m : Setup ε α) (s : Config ε α) : Prop where
  exits   : ∀ exit ∈ s.exits, exit = .returned
  lives   : s.terminated = false
  results : ∀ p t, s.results p = some t → t = m.expected p

-- Besides, all futures have a result when nothing is left to be done.
def Contained (m : Setup ε α) : Prop :=
  ∀ s, m.system.Reachable s →
    Safe m s ∧ (m.system.Quiescent s → ∀ p, p ≤ m.callbacks.length → (s.results p).isSome)

-- The first `n` futures have results.
structure Upto (m : Setup ε α) (s : Config ε α) (n : Nat) : Prop where
  given : ∀ p, p < n → s.results p = some (m.given p)
  none  : ∀ p, n ≤ p → s.results p = none
  le    : n ≤ s.attached + 1
  bound : s.attached ≤ m.callbacks.length

-- What is waited for, if the first `n` futures have results.
inductive Waits (m : Setup ε α) (s : Config ε α) : Nat → Prop
  | source  : (s.next = .source) → Waits m s 0
  | queued  : (s.next = .queued p) → (p < s.attached) → Waits m s (p + 1)
  | pending : (s.next = .pending j fate) → (j < s.attached) → (m.given (j + 1) = .makeTryCall fate.outcome) →
              Waits m s (j + 1)
  | relay   : (s.next = .relay j t) → (j < s.attached) → (m.given (j + 1) = t) → Waits m s (j + 1)
  | nothing : (s.next = .nothing) → Waits m s (s.attached + 1)

structure Placed (m : Setup ε α) (s : Config ε α) (n : Nat) : Prop where
  upto  : Upto m s n
  waits : Waits m s n

-- What is waited for moves along the chain of this length.
def Next.rank (length : Nat) : Next ε α → Nat
  | source      => 3 * length + 4
  | queued p    => 3 * (length - p) + 3
  | pending j _ => 3 * (length - j) + 2
  | relay j _   => 3 * (length - j) + 1
  | nothing     => 0

variable {m : Setup ε α} {s s₁ s₂ : Config ε α} {p n : Nat} {t : Try ε α} {c : Callback ε α} {cs : List (Callback ε α)}

-- What a call that sets a result of future number `p`, or of one after it, leads to.
structure Leads (m : Setup ε α) (s : Config ε α) (p rank : Nat) (r : Config ε α × Exit ε) : Prop where
  placed     : ∃ n, p < n ∧ Placed m r.1 n
  attached   : r.1.attached = s.attached
  terminated : r.1.terminated = s.terminated
  exits      : r.1.exits = s.exits
  rank       : r.1.next.rank m.callbacks.length ≤ rank
  returned   : (∀ q c, p ≤ q → m.callbacks[q]? = some c → ¬ Callback.returnsAttached c (m.given q)) → r.2 = .returned

theorem Leads.weaken {q a b : Nat} {r : Config ε α × Exit ε} (l : Leads m s q a r) (hp : p ≤ q) (hab : a ≤ b) :
    Leads m s p b r := by
  obtain ⟨n, hlt, pl⟩ := l.placed
  exact ⟨⟨n, by omega, pl⟩, l.attached, l.terminated, l.exits, l.rank.trans hab,
    fun h => l.returned fun q c hq => h q c (by omega)⟩

-- The continuation of future number `p` passes on what the callback gives to the next future.
theorem continuation_leads {set : Try ε α → Config ε α → Config ε α × Exit ε} (u : Upto m s (p + 1))
    (hp : p < s.attached) (hc : m.callbacks[p]? = some c)
    (hset : Leads m s (p + 1) (3 * (m.callbacks.length - p)) (set (m.given (p + 1)) s)) :
    Leads m s p (3 * (m.callbacks.length - p) + 2) (continuation set c p (m.given p) s) := by
  have hg : m.given (p + 1) = c.result (m.given p) brokenPromise := by
    simp only [Setup.given, Setup.result, hc]
  have hset := hset.weaken (p := p) (b := 3 * (m.callbacks.length - p) + 2) (by omega) (by omega)
  cases hf : c.func <;> simp only [Callback.result, hf] at hg <;> simp only [continuation, hf]
  case value f  => exact hg ▸ hset
  case future f =>
    cases hr : f (m.given p) <;> simp only [hr] at hg ⊢
    case error x => exact hg ▸ hset
    case ok fut  =>
      cases fut <;> simp only at hg ⊢
      case localState | ready =>
        rw [hg] at hset
        exact ⟨hset.placed, hset.attached, hset.terminated, hset.exits, hset.rank,
          fun h => by simp only [hset.returned h, Exit.handled]⟩
      case pending fate =>
        exact ⟨⟨p + 1, by omega, ⟨u.given, u.none, u.le, u.bound⟩, .pending rfl hp hg⟩, rfl, rfl, rfl,
          Nat.le_refl _, fun _ => rfl⟩
      case attached =>
        rw [hg] at hset
        refine ⟨hset.placed, hset.attached, hset.terminated, hset.exits, hset.rank, fun h => ?_⟩
        exact absurd ⟨f, hf, hr⟩ (h p c (Nat.le_refl _) hc)

theorem setResult_leads (hcs : m.callbacks.drop p = cs) (u : Upto m s p) (hn : s.next = .nothing)
    (hp : p ≤ s.attached) : Leads m s p (3 * (m.callbacks.length - p) + 3) (setResult m cs p (m.given p) s) := by
  induction cs generalizing p s
  all_goals
    have hr : s.results p = none := u.none p (Nat.le_refl _)
    let s' : Config ε α := { s with results := Function.update s.results p (some (m.given p)) }
    have u' : Upto m s' (p + 1) := by
      refine ⟨fun q hq => ?_, fun q hq => ?_, Nat.succ_le_succ hp, u.bound⟩
      · by_cases hqp : q = p
        · simp [s', hqp]
        · simp only [s', Function.update_of_ne hqp]
          exact u.given q (by omega)
      · simp only [s', Function.update_of_ne (show q ≠ p by omega)]
        exact u.none q (by omega)
    -- When no continuation has been attached, then this is all.
    have last (ha : p = s.attached) : Leads m s p (3 * (m.callbacks.length - p) + 3) (s', .returned) := by
      refine ⟨⟨p + 1, by omega, u', ?_⟩, rfl, rfl, rfl, ?_, fun _ => rfl⟩
      · have h := Waits.nothing (m := m) (s := s') hn
        rwa [show s'.attached = p from ha.symm] at h
      · simp [s', hn, Next.rank]
    rw [setResult, hr]
    simp only [Option.isSome_none, Bool.false_eq_true, if_false]
  case nil =>
    have := List.drop_eq_nil_iff.mp hcs
    exact last (Nat.le_antisymm hp (u.bound.trans this))
  case cons c cs ih =>
    have hc : m.callbacks[p]? = some c := by
      rw [← Nat.add_zero p, ← List.getElem?_drop, hcs]
      rfl
    have hdrop : m.callbacks.drop (p + 1) = cs := by
      rw [← List.drop_drop, hcs]
      rfl
    split
    case isFalse h => exact last (by omega)
    case isTrue h  =>
      split
      case isTrue  =>
        exact ⟨⟨p + 1, by omega, ⟨u'.given, u'.none, u'.le, u'.bound⟩, .queued rfl h⟩, rfl, rfl, rfl,
          Nat.le_refl _, fun _ => rfl⟩
      case isFalse =>
        have hlen : p < m.callbacks.length := (List.getElem?_eq_some_iff.mp hc).1
        have hset := ih hdrop u' hn h
        have l := continuation_leads u' h hc (hset.weaken (p := p + 1) (Nat.le_refl _) (by omega))
        exact ⟨l.placed, l.attached, l.terminated, l.exits, l.rank.trans (by omega), l.returned⟩

-- What each step leads to, from the place `p` on.
structure Moves (m : Setup ε α) (s₁ s₂ : Config ε α) : Prop where
  placed : ∃ n, Placed m s₂ n
  rank   : (s₂.attached = s₁.attached ∧ s₂.next.rank m.callbacks.length < s₁.next.rank m.callbacks.length) ∨
           s₂.attached = s₁.attached + 1
  safe   : (∀ q c, m.callbacks[q]? = some c → ¬ Callback.returnsAttached c (m.given q)) →
           s₂.terminated = s₁.terminated ∧ ∃ exits, s₂.exits = s₁.exits ++ exits ∧ ∀ exit ∈ exits, exit = .returned

@[simp]
theorem ended_returned : ended (s, .returned) = s := rfl

theorem ended_fields (r : Config ε α × Exit ε) :
    (ended r).attached = r.1.attached ∧ (ended r).results = r.1.results ∧ (ended r).next = r.1.next ∧
    (ended r).exits = r.1.exits := by
  simp only [ended]
  split <;> exact ⟨rfl, rfl, rfl, rfl⟩

theorem Placed.congr (pl : Placed m s₁ n) (ha : s₂.attached = s₁.attached) (hr : s₂.results = s₁.results)
    (hn : s₂.next = s₁.next) : Placed m s₂ n := by
  refine ⟨⟨fun q => hr ▸ pl.upto.given q, fun q => hr ▸ pl.upto.none q, ha ▸ pl.upto.le, ha ▸ pl.upto.bound⟩, ?_⟩
  cases pl.waits
  case source h          => exact .source (hn.trans h)
  case queued h hp       => exact .queued (hn.trans h) (ha ▸ hp)
  case pending h hj hg   => exact .pending (hn.trans h) (ha ▸ hj) hg
  case relay h hj hg     => exact .relay (hn.trans h) (ha ▸ hj) hg
  case nothing h         => exact ha ▸ .nothing (hn.trans h)

-- A step that ends with a call that sets a result.
theorem Leads.moves {b : Nat} {r : Config ε α × Exit ε} (l : Leads m s p b r) (ha : s.attached = s₁.attached)
    (ht : s.terminated = s₁.terminated) (he : s.exits = s₁.exits) (hb : b < s₁.next.rank m.callbacks.length) :
    Moves m s₁ (ended r) := by
  obtain ⟨h₁, h₂, h₃, h₄⟩ := ended_fields r
  obtain ⟨n, _, pl⟩ := l.placed
  have hrank := l.rank
  refine ⟨⟨n, pl.congr h₁ h₂ h₃⟩, .inl ⟨h₁.trans (l.attached.trans ha), by rw [h₃]; omega⟩, fun h => ?_⟩
  have hr : ended r = r.1 := by
    simp only [ended, l.returned fun q c _ => h q c]
  exact ⟨by rw [hr, l.terminated, ht], [], by rw [hr, l.exits, he, List.append_nil], by simp⟩

theorem continuation_eq {s : Config ε α} (hc : m.callbacks[p]? = some c) (ht : s.results p = some t) :
    m.continuation p s = some (continuation (m.setResult (p + 1)) c p t s) := by
  simp only [Setup.continuation, hc, ht]

-- The continuation of a future runs when nothing else is left to be done.
theorem run_leads (u : Upto m s (p + 1)) (hn : s.next = .nothing) (hp : p < s.attached) :
    ∃ r, m.continuation p s = some r ∧ Leads m s p (3 * (m.callbacks.length - p) + 2) r := by
  have hlen : p < m.callbacks.length := Nat.lt_of_lt_of_le hp u.bound
  have hc : m.callbacks[p]? = some m.callbacks[p] := List.getElem?_eq_getElem hlen
  refine ⟨_, continuation_eq hc (u.given p (Nat.lt_succ_self p)), ?_⟩
  have l := setResult_leads rfl u hn hp
  exact continuation_leads u hp hc (l.weaken (Nat.le_refl _) (by omega))

section Steps

theorem moves_attach (pl : Placed m s₁ n) (h : m.attach s₁ = some s₂) : Moves m s₁ s₂ := by
  simp only [Setup.attach] at h
  split at h
  case isFalse   => contradiction
  case isTrue hlt =>
    have hle := pl.upto.le
    let s' : Config ε α := { s₁ with attached := s₁.attached + 1 }
    have u' : Upto m s' n := ⟨pl.upto.given, pl.upto.none, Nat.le_succ_of_le hle, hlt⟩
    split at h
    case h_1 t hr =>
      -- The last future has a result, so that there is nothing that is waited for.
      have hn : n = s₁.attached + 1 := by
        rcases Nat.lt_or_eq_of_le hle with h | h
        · rw [pl.upto.none _ (Nat.le_of_lt_succ h)] at hr
          contradiction
        · exact h
      have hnext : s₁.next = .nothing := by
        cases hw : pl.waits
        case nothing h => exact h
        all_goals omega
      obtain ⟨r, hrun, l⟩ := run_leads (s := s') (hn ▸ u') hnext (Nat.lt_succ_self _)
      obtain ⟨r', hr', rfl⟩ := Option.map_eq_some_iff.mp h
      cases hrun.symm.trans hr'
      obtain ⟨h₁, h₂, h₃, h₄⟩ := ended_fields r
      obtain ⟨k, _, pl'⟩ := l.placed
      refine ⟨⟨k, pl'.congr h₁ h₂ h₃⟩, .inr (h₁.trans l.attached), fun hd => ?_⟩
      have hr : ended r = r.1 := by
        simp only [ended, l.returned fun q c _ => hd q c]
      exact ⟨by rw [hr, l.terminated], [], by rw [hr, l.exits, List.append_nil], by simp⟩
    case h_2 hr =>
      cases h
      refine ⟨⟨n, u', ?_⟩, .inr rfl, fun _ => ⟨rfl, [], by simp, by simp⟩⟩
      cases pl.waits
      case source h        => exact .source h
      case queued h hp     => exact .queued h (Nat.lt_succ_of_lt hp)
      case pending h hj hg => exact .pending h (Nat.lt_succ_of_lt hj) hg
      case relay h hj hg   => exact .relay h (Nat.lt_succ_of_lt hj) hg
      case nothing         =>
        rw [pl.upto.given _ (Nat.lt_succ_self _)] at hr
        contradiction

theorem moves_fulfil (pl : Placed m s₁ n) (h : m.fulfil s₁ = some s₂) : Moves m s₁ s₂ := by
  simp only [Setup.fulfil] at h
  split at h <;> cases h
  case h_1 hn =>
    have h0 : n = 0 := by
      cases pl.waits
      case source => rfl
      all_goals simp_all
    subst h0
    let s' : Config ε α := { s₁ with next := .nothing }
    have u' : Upto m s' 0 := ⟨pl.upto.given, pl.upto.none, pl.upto.le, pl.upto.bound⟩
    let r := m.setResult 0 (.makeTryCall m.source) s'
    have l : Leads m s' 0 _ r := setResult_leads rfl u' rfl (Nat.zero_le _)
    obtain ⟨h₁, h₂, h₃, h₄⟩ := ended_fields ({ r.1 with exits := r.1.exits ++ [r.2] }, r.2)
    obtain ⟨k, _, pl'⟩ := l.placed
    refine ⟨⟨k, pl'.congr h₁ h₂ h₃⟩, .inl ⟨h₁.trans l.attached, ?_⟩, fun hd => ?_⟩
    · have hl := l.rank
      have hsrc : Next.rank m.callbacks.length (.source : Next ε α) = 3 * m.callbacks.length + 4 := rfl
      rw [hn, hsrc, show (ended _).next = r.1.next from h₃]
      show r.1.next.rank m.callbacks.length < _
      omega
    · have hr := l.returned fun q c _ => hd q c
      refine ⟨?_, [.returned], h₄.trans ?_, by simp⟩
      · have he : ended ({ r.1 with exits := r.1.exits ++ [r.2] }, r.2) = { r.1 with exits := r.1.exits ++ [r.2] } := by
          rw [hr]
          rfl
        exact (congrArg Config.terminated he).trans l.terminated
      · show r.1.exits ++ [r.2] = _
        rw [l.exits, hr]

theorem moves_fulfilReturned (pl : Placed m s₁ n) (h : m.fulfilReturned s₁ = some s₂) : Moves m s₁ s₂ := by
  simp only [Setup.fulfilReturned] at h
  split at h <;> try contradiction
  case h_1 j fate hn =>
  obtain ⟨rfl, hj, hg⟩ : n = j + 1 ∧ j < s₁.attached ∧ m.given (j + 1) = .makeTryCall fate.outcome := by
    cases pl.waits
    case pending h hj hg =>
      cases hn.symm.trans h
      exact ⟨rfl, hj, hg⟩
    all_goals simp_all
  split at h <;> cases h
  case isTrue  =>
    refine ⟨⟨j + 1, ⟨pl.upto.given, pl.upto.none, pl.upto.le, pl.upto.bound⟩, .relay rfl hj hg⟩,
      .inl ⟨rfl, ?_⟩, fun _ => ⟨rfl, [], by simp, by simp⟩⟩
    simp [hn, Next.rank]
  case isFalse =>
    have l := setResult_leads (s := { s₁ with next := .nothing }) (m := m) rfl
      ⟨pl.upto.given, pl.upto.none, pl.upto.le, pl.upto.bound⟩ rfl hj
    have hlen := Nat.lt_of_lt_of_le hj pl.upto.bound
    rw [hg] at l
    refine l.moves rfl rfl rfl ?_
    rw [hn]
    simp only [Next.rank]
    omega

theorem moves_runTask (pl : Placed m s₁ n) (h : m.runTask s₁ = some s₂) : Moves m s₁ s₂ := by
  have u {k} (u : Upto m s₁ k) : Upto m { s₁ with next := .nothing } k := ⟨u.given, u.none, u.le, u.bound⟩
  simp only [Setup.runTask] at h
  split at h <;> try contradiction
  case h_1 p hn =>
    obtain ⟨rfl, hp⟩ : n = p + 1 ∧ p < s₁.attached := by
      cases pl.waits
      case queued h hp =>
        cases hn.symm.trans h
        exact ⟨rfl, hp⟩
      all_goals simp_all
    obtain ⟨r, hr, l⟩ := run_leads (u pl.upto) rfl hp
    obtain ⟨r', hr', rfl⟩ := Option.map_eq_some_iff.mp h
    cases hr.symm.trans hr'
    exact l.moves rfl rfl rfl (by simp [hn, Next.rank])
  case h_2 j t hn =>
    obtain ⟨rfl, hj, hg⟩ : n = j + 1 ∧ j < s₁.attached ∧ m.given (j + 1) = t := by
      cases pl.waits
      case relay h hj hg =>
        cases hn.symm.trans h
        exact ⟨rfl, hj, hg⟩
      all_goals simp_all
    have hlen := Nat.lt_of_lt_of_le hj pl.upto.bound
    have l := setResult_leads (m := m) rfl (u pl.upto) rfl hj
    rw [hg] at l
    refine Option.some.inj h ▸ l.moves rfl rfl rfl ?_
    rw [hn]
    simp only [Next.rank]
    omega

theorem moves_step (pl : Placed m s₁ n) (h : m.system.step s₁ a = some s₂) : Moves m s₁ s₂ := by
  simp only [Setup.system] at h
  split at h
  case isTrue  => contradiction
  case isFalse =>
    cases a
    case attach         => exact moves_attach pl h
    case fulfil         => exact moves_fulfil pl h
    case fulfilReturned => exact moves_fulfilReturned pl h
    case runTask        => exact moves_runTask pl h

end Steps

theorem placed_reachable (h : m.system.Reachable s) : ∃ n, Placed m s n := by
  have hi : Placed m Setup.init 0 :=
    ⟨⟨fun _ hp => absurd hp (Nat.not_lt_zero _), fun _ _ => rfl, Nat.zero_le _, Nat.zero_le _⟩, .source rfl⟩
  refine h.invariant (I := fun s => ∃ n, Placed m s n) ⟨0, hi⟩ fun i e => ?_
  obtain ⟨n, pl⟩ := i
  exact (moves_step pl e).placed

-- Every run can be completed.
theorem exists_quiescent (m : Setup ε α) : ∃ s, m.system.Reachable s ∧ m.system.Quiescent s := by
  let length := m.callbacks.length
  refine System.Reachable.exists_quiescent
    (μ := fun s => (length - s.attached) * (3 * length + 5) + s.next.rank length) (fun {s₁ a s₂} hr e => ?_) .init
  obtain ⟨n, pl⟩ := placed_reachable hr
  have mv := moves_step pl e
  obtain ⟨k, pl'⟩ := mv.placed
  have hb := pl'.upto.bound
  have hrank : s₂.next.rank length ≤ 3 * length + 4 := by
    cases s₂.next <;> simp only [Next.rank] <;> omega
  rcases mv.rank with ⟨ha, hlt⟩ | ha
  · rw [ha]
    exact Nat.add_lt_add_left hlt _
  · have : length - s₁.attached = length - s₂.attached + 1 := by omega
    simp only [this, Nat.add_mul]
    omega

-- When no step is left, all futures have results.
theorem results_of_quiescent (pl : Placed m s n) (ht : s.terminated = false) (hq : m.system.Quiescent s)
    (hp : p ≤ m.callbacks.length) : s.results p = some (m.given p) := by
  have hw := pl.waits
  have hattach : m.attach s = none := by simpa [Setup.system, ht] using hq .attach
  have hfulfil : m.fulfil s = none := by simpa [Setup.system, ht] using hq .fulfil
  have hreturned : m.fulfilReturned s = none := by simpa [Setup.system, ht] using hq .fulfilReturned
  have htask : m.runTask s = none := by simpa [Setup.system, ht] using hq .runTask
  cases hw
  case source h => simp [Setup.fulfil, h] at hfulfil
  case queued k h hk =>
    obtain ⟨r, hr, _⟩ := run_leads (s := { s with next := .nothing })
      ⟨pl.upto.given, pl.upto.none, pl.upto.le, pl.upto.bound⟩ rfl hk
    simp [Setup.runTask, h, hr] at htask
  case pending h _ _ =>
    simp only [Setup.fulfilReturned, h] at hreturned
    split at hreturned <;> contradiction
  case relay h _ _ => simp [Setup.runTask, h] at htask
  case nothing h =>
    refine pl.upto.given p (Nat.lt_succ_of_le ?_)
    by_contra hlt
    have hlen : s.attached < m.callbacks.length := by omega
    obtain ⟨r, hr, _⟩ := run_leads (s := { s with attached := s.attached + 1 })
      ⟨pl.upto.given, pl.upto.none, Nat.le_succ _, hlen⟩ h (Nat.lt_succ_self _)
    simp [Setup.attach, hlen, pl.upto.given s.attached (Nat.lt_succ_self _), hr] at hattach

theorem brokenPromise_ne : (brokenPromise : Try ε α) ≠ .exception (.logicError "FutureState already has a continuation") := by
  intro h
  cases h

theorem Callback.result_of_attached {attached : Try ε α} (h : c.returnsAttached t) : c.result t attached = attached := by
  obtain ⟨f, hf, ht⟩ := h
  simp only [Callback.result, hf, ht]

theorem Callback.result_eq (h : ¬ c.returnsAttached t) (a b : Try ε α) : c.result t a = c.result t b := by
  simp only [Callback.result]
  split
  case h_1 => rfl
  case h_2 f hf =>
    split <;> try rfl
    case h_5 ht => exact absurd ⟨f, hf, ht⟩ h

theorem given_eq (hd : m.Detached) (p : Nat) : m.given p = m.expected p := by
  induction p
  case zero => rfl
  case succ p ih =>
    simp only [Setup.given, Setup.expected, Setup.result] at ih ⊢
    cases hc : m.callbacks[p]? <;> simp only
    case some c =>
      rw [ih]
      exact Callback.result_eq (hd p c hc) _ _

theorem safe_reachable (hd : m.Detached) (h : m.system.Reachable s) : Safe m s := by
  have hg (q c) (hc : m.callbacks[q]? = some c) : ¬ Callback.returnsAttached c (m.given q) :=
    given_eq hd q ▸ hd q c hc
  suffices hs : (∃ n, Placed m s n) ∧ s.terminated = false ∧ ∀ exit ∈ s.exits, exit = .returned by
    obtain ⟨⟨n, pl⟩, ht, he⟩ := hs
    refine ⟨he, ht, fun p t hp => ?_⟩
    by_cases hlt : p < n
    · rw [pl.upto.given p hlt] at hp
      exact (Option.some.inj hp).symm.trans (given_eq hd p)
    · rw [pl.upto.none p (Nat.le_of_not_lt hlt)] at hp
      contradiction
  refine h.invariant (I := fun s => (∃ n, Placed m s n) ∧ s.terminated = false ∧ ∀ exit ∈ s.exits, exit = .returned)
    ⟨placed_reachable .init, rfl, by simp [Setup.system, Setup.init]⟩ fun i e => ?_
  obtain ⟨⟨n, pl⟩, ht, he⟩ := i
  have mv := moves_step pl e
  obtain ⟨ht', exits, he', hr⟩ := mv.safe hg
  refine ⟨mv.placed, ht'.trans ht, fun exit hx => ?_⟩
  rw [he'] at hx
  exact (List.mem_append.mp hx).elim (he exit) (hr exit)

-- The errors of a chain stay in the chain exactly if no callback returns a future to which a continuation
-- has already been attached.
theorem contained_iff (m : Setup ε α) : Contained m ↔ m.Detached := by
  constructor
  case mpr =>
    intro hd s hr
    have hs := safe_reachable hd hr
    obtain ⟨n, pl⟩ := placed_reachable hr
    exact ⟨hs, fun hq p hp => by rw [results_of_quiescent pl hs.lives hq hp]; rfl⟩
  case mp =>
    intro h p c hc ha
    obtain ⟨s, hr, hq⟩ := exists_quiescent m
    have hs := (h s hr).left
    obtain ⟨n, pl⟩ := placed_reachable hr
    have hlen := (List.getElem?_eq_some_iff.mp hc).1
    have eq {q} (hq' : q ≤ m.callbacks.length) : m.given q = m.expected q :=
      hs.results q _ (results_of_quiescent pl hs.lives hq hq')
    have hg : m.given (p + 1) = brokenPromise := by
      simp only [Setup.given, Setup.result, hc]
      refine Callback.result_of_attached ?_
      have := eq (Nat.le_of_lt hlen)
      rw [Setup.given] at this
      exact this ▸ ha
    have he : m.expected (p + 1) = .exception (.logicError "FutureState already has a continuation") := by
      simp only [Setup.expected, Setup.result, hc]
      exact Callback.result_of_attached ha
    exact brokenPromise_ne (hg.symm.trans ((eq hlen).trans he))

def attachedSetup : Setup Unit Nat where
  source        := .ok 7
  callbacks     := [.thenValue (.future fun _ => .ok .attached)]
  schedules _   := false
  schedulesIn _ := false

-- The producer gets an error, and the future after the failing step gets the wrong exception.
theorem error_escapes :
    ∃ s, attachedSetup.system.Reachable s ∧ s.exits = [.threw (.logicError "Promise is broken")] ∧
      s.results 1 = some (.exception (.runtimeError "Promise is broken")) ∧
      attachedSetup.expected 1 = .exception (.logicError "FutureState already has a continuation") ∧
      ¬ Contained attachedSetup := by
  obtain ⟨s, hr, hs⟩ := attachedSetup.system.exists_reachable [.attach, .fulfil]
    (p := fun s => s.exits = [.threw (.logicError "Promise is broken")] ∧
      s.results 1 = some (.exception (.runtimeError "Promise is broken"))) (by decide)
  obtain ⟨he, hp⟩ := of_decide_eq_true hs
  refine ⟨s, hr, he, hp, rfl, fun h => ?_⟩
  have := (h s hr).left.exits _ (by rw [he]; exact List.mem_singleton_self _)
  contradiction

end Nested
end AsyncSimple
