import AsyncSimple.Coro.Affinity
import AsyncSimple.Coro.Executorless
import AsyncSimple.Coro.Theorems.Marking
import AsyncSimple.Coro.Theorems.Stranding

open Transition

namespace AsyncSimple
namespace Lazy

variable {ε α ξ θ χ : Type}

-- The places in executor `e` that its coroutines are brought back to: a place is one that threads are on,
-- and that a context leads back to which has been checked out on such a thread. If `any` holds, then all
-- threads of the executor are on it.
structure Places (m : Setup ε α ξ θ χ) (e : ξ) (any : Prop) (ω : Type) where
  On       : ω → θ → Prop
  prompt   : ∀ {w t₀ t}, On w t₀ → (m.executor e).prompt t ((m.executor e).checkout t₀) → On w t
  admits   : ∀ {w t₀ t}, On w t₀ → (m.executor e).admits ((m.executor e).checkout t₀) t → On w t
  schedule : any → ∀ {w t}, (m.executor e).currentThreadInExecutor t → On w t

variable {m : Setup ε α ξ θ χ} {e : ξ} {any : Prop} {ω : Type}

namespace Body

-- What stays on an executor is brought back by each of its awaits.
theorem Stays.returns {body : Body ε α ξ k} (h : body.Stays e any) : body.Returns e any (·.Stays e any) := by
  cases body
  all_goals exact h

theorem Returns.imp {body : Body ε α ξ k} {p q : Body ε α ξ k → Prop} (h : body.Returns e any p)
    (hpq : ∀ body, p body → q body) : body.Returns e any q := by
  cases body
  case coReturn | coReturnVoid | throw => trivial
  case currentExecutor                 => exact hpq _ h
  case yield                           => exact ⟨h.left, hpq _ h.right⟩
  case schedule | scheduleAfter        => exact ⟨h.left, h.right.left, hpq _ h.right.right⟩
  case await | collectAll | collectAny => exact ⟨h.left, fun r => hpq _ (h.right r)⟩
  case awaitVia | awaitExternal        => exact fun r => hpq _ (h r)

end Body

def Stage.Stays (e : ξ) (any : Prop) : Stage ε α ξ k → Prop
  | initial body | running body | suspended body => body.Stays e any
  | awaiting _ f                                 => ∀ r, (f r).Stays e any
  | external f                                   => ∀ r, (f r).Stays e any
  | collectAll _ f                               => ∀ r, (f r).Stays e any
  | collectAny _ f                               => ∀ r, (f r).Stays e any
  | final                                        => True

-- The cells whose code is run after that of this cell, or before it.
def Cell.refs (x : Cell ε α ξ θ χ) : List Nat :=
  match x with
  | launch _ child (.child q _) _ => [child, q]
  | launch _ child .caller _      => [child]
  | x                             => (x.next.map Node.id).toList

namespace Places

variable (P : Places m e any ω)

-- What is queued is run on a thread that is on place `w`.
def Leads (w : ω) : Place ξ θ χ → Prop
  | .running t                      => P.On w t
  | .queued executor none           => executor = e ∧ any
  | .queued executor (some context) => executor = e ∧ ∃ t, P.On w t ∧ context = (m.executor e).checkout t
  | .external                       => False

end Places

-- The children of a vector stay on the executor, to which they are bound if they are to any.
def Children (e : ξ) (any : Prop) (input : Fin n → Option ξ) (children : Fin n → Body ε α ξ k) : Prop :=
  ∀ i, (input i = none ∨ input i = some e) ∧ (children i).Stays e any

-- What a cell with a home is: a coroutine that is bound to the executor, and stays there, unless it is
-- the one whose code is `free` to do anything, or a part of a vector that it awaits.
def Cell.Settled (e : ξ) (any : Prop) (free : Option Nat) (home : Nat → Option ω) (c : Nat) : Cell ε α ξ θ χ → Prop
  | lazy f                                 =>
    ∀ w, home c = some w → f.executor_ = some e ∧ (free = some c ∨ f.stage.Stays e any)
  | via _ _ _                              => home c = none
  | launch reschedule child _ awaiting     =>
    (∀ w, home c = some w → reschedule = false) ∧ (awaiting = false → home child = home c)
  | collectAll reschedule children setup _ =>
    ∀ w, home c = some w → reschedule = false ∧ setup.executor = some e ∧ (setup.para → any) ∧
      Children e any setup.input children
  | collectAny reschedule children setup _ =>
    ∀ w, home c = some w → reschedule = false ∧ setup.executor = some e ∧ Children e any setup.input children
  | destroyed                              => True

section

variable (P : Places m e any ω) (free : Option Nat) (home : Nat → Option ω)

-- What runs after a cell is brought back to place `w`: by the cell, which has this place as its home, or
-- by a `ViaCoroutine`.
def Cell.Brings (c : Nat) (w : ω) : Cell ε α ξ θ χ → Prop
  | via context _ _ => ∃ t, P.On w t ∧ context = some (e, (m.executor e).checkout t)
  | _               => home c = some w

structure Cell.Placed (length c : Nat) (x : Cell ε α ξ θ χ) : Prop where
  settled : x.Settled e any free home c
  next    : ∀ n w, x.next = some n → home n.id = some w → x.Brings P home c w
  refs    : ∀ d ∈ x.refs, d < length

end

variable {P : Places m e any ω} {free : Option Nat} {home home' : Nat → Option ω}
  {homes homes' : List (Option ω)} {s s₁ s₂ : Config ε α ξ θ χ} {x y : Cell ε α ξ θ χ} {env : Env ε α}

theorem Stage.Stays.body {stage : Stage ε α ξ k} {b : Body ε α ξ k} (h : stage.Stays e any) (hp : stage.body = some b) :
    b.Stays e any := by
  cases stage <;> cases hp <;> exact h

namespace Cell

theorem mem_refs (h : x.next = some n) : n.id ∈ x.refs := by
  cases x
  case launch callback _ =>
    cases callback <;> cases h
    simp [refs, Node.id]
  all_goals simp [refs, h]

theorem mem_refs_of_next (h : ∀ a, x.next = some a → y.next = some a)
    (hd : d ∈ (x.next.map Node.id).toList) : d ∈ (y.next.map Node.id).toList := by
  obtain ⟨a, ha, rfl⟩ := Option.map_eq_some_iff.mp (Option.mem_toList.mp hd)
  rw [h a ha]
  exact List.mem_singleton_self _

theorem next_lazy {f : Frame ε α ξ θ k} (h : (lazy f : Cell ε α ξ θ χ).next = some n) :
    f.alive ∧ ∃ q, f.continuation_ = some q ∧ n = .coro q := by
  simp only [next] at h
  split at h
  case isFalse   => contradiction
  case isTrue ha =>
    obtain ⟨q, hq, rfl⟩ := Option.map_eq_some_iff.mp h
    exact ⟨ha, q, hq, rfl⟩

theorem next_alive {f : Frame ε α ξ θ k} (ha : f.alive) (hq : f.continuation_ = some q) :
    (lazy f : Cell ε α ξ θ χ).next = some (.coro q) := by
  simp [next, ha, hq]

theorem refs_lazy {f : Frame ε α ξ θ k} (h : d ∈ (lazy f : Cell ε α ξ θ χ).refs) : f.continuation_ = some d := by
  replace h : d ∈ ((lazy f : Cell ε α ξ θ χ).next.map Node.id).toList := h
  obtain ⟨n, hn, rfl⟩ := Option.map_eq_some_iff.mp (Option.mem_toList.mp h)
  obtain ⟨_, _, hq, rfl⟩ := next_lazy hn
  exact hq

theorem bound_eq {x executor : Option ξ} (hx : x = none ∨ x = some e) (he : executor = some e) :
    x.or executor = some e := by
  obtain rfl | rfl := hx
  · exact he
  · rfl

-- A vector starts its children where it is.
theorem Settled.child {child : Body ε α ξ k} (h : x.Settled e any free home c) (hc : x.Child reschedule j executor child)
    (hw : home c = some w) : reschedule = false ∧ executor = some e ∧ child.Stays e any := by
  cases hc
  case collectAll j _ =>
    obtain ⟨hr, he, _, hch⟩ := h w hw
    exact ⟨hr, bound_eq (hch j).left he, (hch j).right⟩
  case collectAny j _ =>
    obtain ⟨hr, he, hch⟩ := h w hw
    exact ⟨hr, bound_eq (hch j).left he, (hch j).right⟩

namespace Placed

-- A cell does not refer to those that are created later.
theorem mono (h : x.Placed P free home length c) (hc : c < length) (hl : length ≤ length')
    (hh : ∀ d < length, home' d = home d) : x.Placed P free home' length' c where
  settled := by
    have hs := h.settled
    cases x
    case launch callback _ =>
      have hd := h.refs
      cases callback <;> simpa only [Settled, hh c hc, hh _ (hd _ (List.mem_cons_self ..))] using hs
    case destroyed => trivial
    all_goals simpa only [Settled, hh c hc] using hs
  next n w hn hw := by
    rw [hh _ (h.refs _ (mem_refs hn))] at hw
    have hb := h.next n w hn hw
    cases x <;> simpa only [Brings, hh c hc] using hb
  refs d hd := Nat.lt_of_lt_of_le (h.refs d hd) hl

-- What a vector resumes stays the same.

theorem moves (h : x.Placed P free home length c) (hm : x.Moves y) : y.Placed P free home length c where
  settled       := by cases hm <;> exact h.settled
  next n w hn   := by
    have := h.next n w (hm.next hn)
    cases hm <;> exact this
  refs d hd     := by
    have hn (a) (h : y.next = some a) := hm.next h
    cases hm <;> exact h.refs d (mem_refs_of_next hn hd)

theorem completes (h : x.Placed P free home length c) (hm : x.Completes j r y) : y.Placed P free home length c where
  settled       := by cases hm <;> exact h.settled
  next n w hn   := by
    have := h.next n w (hm.next ▸ hn)
    cases hm <;> exact this
  refs d hd     := by
    have hn (a) (h : y.next = some a) : x.next = some a := hm.next ▸ h
    cases hm <;> exact h.refs d (mem_refs_of_next hn hd)

-- A coroutine that has a home is bound to the executor. What is left of it stays there, if it is not free.

theorem executor_ {f : Frame ε α ξ θ k} (h : (lazy f : Cell ε α ξ θ χ).Placed P free home length c) (hw : home c = some w) :
    f.executor_ = some e :=
  (h.settled w hw).left

theorem stays {f : Frame ε α ξ θ k} (h : (lazy f : Cell ε α ξ θ χ).Placed P free home length c) (hf : free ≠ some c)
    (hp : f.stage = p) (hw : home c = some w) : p.Stays e any :=
  hp ▸ (h.settled w hw).right.resolve_left hf

-- It reaches its next stage.

theorem enter {f g : Frame ε α ξ θ k} {stage : Stage ε α ξ k} (h : (lazy f : Cell ε α ξ θ χ).Placed P free home length c)
    (ha : f.alive) (he : g.executor_ = f.executor_) (hg : g.continuation_ = f.continuation_)
    (hs : ∀ w, home c = some w → free = some c ∨ stage.Stays e any) :
    (lazy (g.enter t stage) : Cell ε α ξ θ χ).Placed P free home length c where
  settled w hw := ⟨he.trans (h.executor_ hw), hs w hw⟩
  next n w hn hw := by
    obtain ⟨_, q, hq, rfl⟩ := next_lazy hn
    exact h.next _ w (next_alive ha (hg.symm.trans hq)) hw
  refs d hd := h.refs d (mem_refs (next_alive ha (hg.symm.trans (refs_lazy (f := g.enter t stage) hd))))

theorem running {f : Frame ε α ξ θ k} {body : Body ε α ξ k} (h : (lazy f : Cell ε α ξ θ χ).Placed P free home length c)
    (ha : f.alive) (hs : ∀ w, home c = some w → free = some c ∨ body.Stays e any) :
    (lazy (f.enter t (.running body)) : Cell ε α ξ θ χ).Placed P free home length c :=
  h.enter ha rfl rfl hs

-- What a coroutine creates: a `ViaCoroutine` that brings it back, or a child or a vector that stays where it is.

theorem via {f : Frame ε α ξ θ k} (h : (lazy f : Cell ε α ξ θ χ).Placed P free home length c) (hc : c < length)
    (ht : ∀ w, home c = some w → P.On w t) (hd : home d = none) :
    (m.via f.executor_ t c : Cell ε α ξ θ χ).Placed P free home length d where
  settled        := hd
  next n w hn hw := by
    cases hn
    exact ⟨t, ht w hw, by rw [h.executor_ hw]; rfl⟩
  refs d hd      := by
    rw [List.mem_singleton.mp hd]
    exact hc

theorem newLazy {child : Body ε α ξ k} (hq : q < length) (hd : home d = home q)
    (hx : ∀ w, home q = some w → executor = some e ∧ child.Stays e any) :
    (lazy (.new child executor (some q) thread) : Cell ε α ξ θ χ).Placed P free home length d where
  settled w hw   := (hx w (hd.symm.trans hw)).imp_right .inr
  next n w hn hw := by
    obtain ⟨_, _, hq, rfl⟩ := next_lazy hn
    cases hq
    exact hd.trans hw
  refs d hd      := by
    cases refs_lazy hd
    exact hq

theorem newCollectAll {children : Fin n → Body ε α ξ k} {setup : CollectAllAwaiter.Setup n Nat ξ}
    (hq : setup.continuation < length) (hd : home d = home setup.continuation)
    (hx : ∀ w, home setup.continuation = some w →
      reschedule = false ∧ setup.executor = some e ∧ (setup.para → any) ∧ Children e any setup.input children) :
    (collectAll reschedule children setup setup.init : Cell ε α ξ θ χ).Placed P free home length d where
  settled w hw   := hx w (hd.symm.trans hw)
  next n w hn hw := by
    cases hn
    exact hd.trans hw
  refs d hd      := by
    rw [List.mem_singleton.mp hd]
    exact hq

theorem newCollectAny {children : Fin n → Body ε α ξ k} {setup : CollectAnyAwaiter.Setup n Nat ξ}
    (hq : setup.continuation < length) (hd : home d = home setup.continuation)
    (hx : ∀ w, home setup.continuation = some w →
      reschedule = false ∧ setup.executor = some e ∧ Children e any setup.input children) :
    (collectAny reschedule children setup setup.init : Cell ε α ξ θ χ).Placed P free home length d where
  settled w hw   := hx w (hd.symm.trans hw)
  next n w hn hw := by
    cases hn
    exact hd.trans hw
  refs d hd      := by
    rw [List.mem_singleton.mp hd]
    exact hq

end Placed
end Cell

-- The home that a cell has been given.
def homeOf (homes : List (Option ω)) (c : Nat) : Option ω :=
  homes[c]?.join

theorem homeOf_mono (hp : homes <+: homes') (h : c < homes.length) : homeOf homes' c = homeOf homes c := by
  obtain ⟨_, rfl⟩ := hp
  simp [homeOf, List.getElem?_append_left h]

theorem homeOf_first {v : Option ω} {l : List (Option ω)} : homeOf (homes ++ v :: l) homes.length = v := by
  simp [homeOf]

theorem homeOf_second {v v' : Option ω} : homeOf (homes ++ [v, v']) (homes.length + 1) = v' := by
  simp [homeOf]

-- What is run, or is to be run, when a cell is brought back to its home.
def placed (P : Places m e any ω) (free : Option Nat) : Marking ε α ξ θ χ (Option ω) where
  cell homes c x    := x.Placed P free (homeOf homes) homes.length c
  token homes tok   := tok.node.id < homes.length ∧ ∀ w, homeOf homes tok.node.id = some w → P.Leads w tok.place
  result _          := True
  destroyed         := ⟨trivial, fun _ _ h => by simp [Cell.next] at h, fun _ h => by simp [Cell.refs, Cell.next] at h⟩
  cell_mono hp hc h := h.mono hc hp.length_le fun _ => homeOf_mono hp
  token_mono hp h   := by
    refine ⟨Nat.lt_of_lt_of_le h.left hp.length_le, fun w hw => h.right w ?_⟩
    rwa [homeOf_mono hp h.left] at hw


namespace Cell.Placed

variable {f : Frame ε α ξ θ k} {body : Body ε α ξ k}

theorem goes {body' : Body ε α ξ k} (h : (lazy f : Cell ε α ξ θ χ).Placed P free home length c) (ha : f.alive)
    (hb : ∀ w, home c = some w → body.Returns e any fun body => free = some c ∨ body.Stays e any)
    (hg : body.Goes m t f.executor_ body') :
    (lazy (f.enter t (.running body')) : Cell ε α ξ θ χ).Placed P free home length c := by
  refine h.running ha fun w hw => ?_
  have hb := hb w hw
  cases hg
  case currentExecutor => exact h.executor_ hw ▸ hb
  case schedule        => exact hb.right.right
  case awaitExternal   => exact hb _
  case collectAll      => exact hb.right _

theorem leaves {body' : Body ε α ξ k} (h : (lazy f : Cell ε α ξ θ χ).Placed P free home length c) (ha : f.alive)
    (hb : ∀ w, home c = some w → body.Returns e any fun body => free = some c ∨ body.Stays e any)
    (hl : body.Leaves f.executor_ e' body') :
    (lazy (f.enter t (.suspended body')) : Cell ε α ξ θ χ).Placed P free home length c ∧
      ∀ w, home c = some w → P.Leads w (.queued e' none) := by
  cases hl
  case yield he =>
    refine ⟨h.enter ha rfl rfl fun w hw => (hb w hw).right, fun w hw => ⟨?_, (hb w hw).left⟩⟩
    exact Option.some.inj (he.symm.trans (h.executor_ hw))
  case schedule =>
    exact ⟨h.enter ha rfl rfl fun w hw => (hb w hw).right.right, fun w hw => ⟨(hb w hw).right.left, (hb w hw).left⟩⟩
  case scheduleAfter =>
    exact ⟨h.enter ha rfl rfl fun w hw => (hb w hw).right.right, fun w hw => ⟨(hb w hw).right.left, (hb w hw).left⟩⟩

-- What is awaited gets the home of the coroutine, or none if a `ViaCoroutine` brings it back.
theorem awaits {l : List (Cell ε α ξ θ χ)} {stage : Stage ε α ξ k}
    (h : (lazy f : Cell ε α ξ θ χ).Placed P free (homeOf homes) homes.length c) (hc : c < homes.length) (ha : f.alive)
    (ht : ∀ w, homeOf homes c = some w → P.On w t)
    (hb : ∀ w, homeOf homes c = some w → body.Returns e any fun body => free = some c ∨ body.Stays e any)
    (hl : body.Awaits m t c f homes.length l stage p a) :
    ∃ ms : List (Option ω), ms.length = l.length ∧ (placed P free).cell (homes ++ ms) c (.lazy (f.enter t stage)) ∧
      (placed P free).token (homes ++ ms) ⟨p, a⟩ ∧
      ∀ (i : Nat) y, l[i]? = some y → (placed P free).cell (homes ++ ms) (homes.length + i) y := by
  have hx (ms : List (Option ω)) : (lazy f : Cell ε α ξ θ χ).Placed P free (homeOf (homes ++ ms)) (homes ++ ms).length c :=
    (placed P free).cell_mono (List.prefix_append ..) hc h
  have hh (ms : List (Option ω)) : homeOf (homes ++ ms) c = homeOf homes c := homeOf_mono (List.prefix_append ..) hc
  have hlt (ms : List (Option ω)) : c < (homes ++ ms).length := by
    rw [List.length_append]
    exact Nat.lt_add_right _ hc
  have hvia (v : List (Option ω)) : (m.via f.executor_ t c : Cell ε α ξ θ χ).Placed P free (homeOf (homes ++ none :: v))
      (homes ++ none :: v).length homes.length :=
    (hx _).via (hlt _) (fun w hw => ht w ((hh _).symm.trans hw)) homeOf_first
  cases hl
  case await =>
    refine ⟨[homeOf homes c], rfl, (hx _).enter ha rfl rfl fun w hw => ?_, ⟨by simp [Node.id], fun w hw => ?_⟩,
      fun _ _ => Marking.single (I := placed P free) (newLazy (hlt _) ?_ fun w hw => ?_)⟩
    · exact forall_or_left.mp (hb w ((hh _).symm.trans hw)).right
    · exact ht w (homeOf_first.symm.trans hw)
    · exact homeOf_first.trans (hh _).symm
    · rw [hh] at hw
      exact ⟨h.executor_ hw, (hb w hw).left⟩
  case awaitVia =>
    refine ⟨[none, none], rfl, (hx _).enter ha rfl rfl fun w hw => ?_, ⟨by simp [Node.id], fun w hw => ?_⟩,
      fun _ _ => Marking.pair (I := placed P free) (hvia _) (newLazy (by simp) ?_ fun w hw => ?_)⟩
    · exact forall_or_left.mp (hb w ((hh _).symm.trans hw))
    · cases homeOf_second.symm.trans hw
    · exact homeOf_second.trans homeOf_first.symm
    · cases homeOf_first.symm.trans hw
  case awaitExternal =>
    refine ⟨[none], rfl, (hx _).enter ha rfl rfl fun w hw => ?_, ⟨by simp [Node.id], fun w hw => ?_⟩,
      fun _ _ => Marking.single (I := placed P free) (hvia _)⟩
    · exact forall_or_left.mp (hb w ((hh _).symm.trans hw))
    · cases homeOf_first.symm.trans hw
  case collectAll hs =>
    subst hs
    refine ⟨[homeOf homes c], rfl, (hx _).enter ha rfl rfl fun w hw => ?_, ⟨by simp [Node.id], fun w hw => ?_⟩,
      fun _ _ => Marking.single (I := placed P free) (newCollectAll (hlt _) ?_ fun w hw => ?_)⟩
    · exact forall_or_left.mp (hb w ((hh _).symm.trans hw)).right
    · exact ht w (homeOf_first.symm.trans hw)
    · exact homeOf_first.trans (hh _).symm
    · replace hw : homeOf homes c = some w := (hh _).symm.trans hw
      obtain ⟨hp, hch⟩ := (hb w hw).left rfl
      exact ⟨rfl, h.executor_ hw, hp, hch⟩
  case collectAllVia hs =>
    subst hs
    refine ⟨[none, none], rfl, (hx _).enter ha rfl rfl fun w hw => ?_, ⟨by simp [Node.id], fun w hw => ?_⟩,
      fun _ _ => Marking.pair (I := placed P free) (hvia _) (newCollectAll (by simp) ?_ fun w hw => ?_)⟩
    · exact forall_or_left.mp (hb w ((hh _).symm.trans hw)).right
    · cases homeOf_second.symm.trans hw
    · exact homeOf_second.trans homeOf_first.symm
    · cases homeOf_first.symm.trans hw
  case collectAny hs =>
    subst hs
    refine ⟨[homeOf homes c], rfl, (hx _).enter ha rfl rfl fun w hw => ?_, ⟨by simp [Node.id], fun w hw => ?_⟩,
      fun _ _ => Marking.single (I := placed P free) (newCollectAny (hlt _) ?_ fun w hw => ?_)⟩
    · exact forall_or_left.mp (hb w ((hh _).symm.trans hw)).right
    · exact ht w (homeOf_first.symm.trans hw)
    · exact homeOf_first.trans (hh _).symm
    · replace hw : homeOf homes c = some w := (hh _).symm.trans hw
      exact ⟨rfl, h.executor_ hw, (hb w hw).left rfl⟩
  case collectAnyVia hs =>
    subst hs
    refine ⟨[none, none], rfl, (hx _).enter ha rfl rfl fun w hw => ?_, ⟨by simp [Node.id], fun w hw => ?_⟩,
      fun _ _ => Marking.pair (I := placed P free) (hvia _) (newCollectAny (by simp) ?_ fun w hw => ?_)⟩
    · exact forall_or_left.mp (hb w ((hh _).symm.trans hw)).right
    · cases homeOf_second.symm.trans hw
    · exact homeOf_second.trans homeOf_first.symm
    · cases homeOf_first.symm.trans hw

theorem execs (h : (lazy f : Cell ε α ξ θ χ).Placed P free (homeOf homes) homes.length c) (hc : c < homes.length)
    (ha : f.alive) (ht : ∀ w, homeOf homes c = some w → P.On w t)
    (hb : ∀ w, homeOf homes c = some w → body.Returns e any fun body => free = some c ∨ body.Stays e any) :
    (placed P free).Execs m homes t c f body where
  finish _   := h.enter ha rfl rfl fun _ _ => .inr trivial
  proceed hg := h.goes ha hb hg
  leave hl   := (h.leaves ha hb hl).imp_right fun h => ⟨hc, h⟩
  await hl   := h.awaits hc ha ht hb hl

-- The coroutine that `Start` has launched is where its child is.

theorem await {child : Nat} {callback : Callback}
    (h : (launch reschedule child callback false : Cell ε α ξ θ χ).Placed P free home length c) :
    (launch reschedule child callback true : Cell ε α ξ θ χ).Placed P free home length c where
  settled := ⟨h.settled.left, fun h => by contradiction⟩
  next    := by cases callback <;> exact h.next
  refs    := by cases callback <;> exact h.refs

theorem child {child : Nat} {callback : Callback} {thread : Option θ}
    (h : (launch reschedule child callback false : Cell ε α ξ θ χ).Placed P free home length c)
    (hc : c < length) (hx : (lazy f : Cell ε α ξ θ χ).Placed P free home length child) :
    (lazy { f with continuation_ := some c, thread } : Cell ε α ξ θ χ).Placed P free home length child where
  settled        := hx.settled
  next n w hn hw := by
    obtain ⟨_, _, hq, rfl⟩ := next_lazy hn
    cases hq
    exact (h.settled.right rfl).trans hw
  refs d hd      := by
    cases refs_lazy hd
    exact hc

theorem lt_child {child : Nat} {callback : Callback}
    (h : (launch reschedule child callback awaiting : Cell ε α ξ θ χ).Placed P free home length c) : child < length := by
  cases callback <;> exact h.refs _ (List.mem_cons_self ..)

-- It starts the child of a vector where this is.
theorem start {child : Body ε α ξ k} (h : x.Placed P free (homeOf homes) homes.length q) (hq : q < homes.length)
    (hc : x.Child reschedule j executor child) (he : homes' = homes ++ [homeOf homes q, homeOf homes q]) :
    (launch reschedule (homes.length + 1) (.child q j) false : Cell ε α ξ θ χ).Placed P free (homeOf homes') homes'.length
        homes.length ∧
      (lazy (.new child executor none none) : Cell ε α ξ θ χ).Placed P free (homeOf homes') homes'.length
        (homes.length + 1) := by
  have hh : homeOf homes' q = homeOf homes q := homeOf_mono (he ▸ List.prefix_append ..) hq
  have hl : homes'.length = homes.length + 2 := by simp [he]
  have h₁ : homeOf homes' homes.length = homeOf homes q := he ▸ homeOf_first
  have h₂ : homeOf homes' (homes.length + 1) = homeOf homes q := he ▸ homeOf_second
  refine ⟨⟨⟨fun w hw => ?_, fun _ => h₂.trans h₁.symm⟩, fun n w hn hw => ?_, fun d hd => ?_⟩,
    fun w hw => ?_, fun n w hn _ => ?_, fun d hd => ?_⟩
  · exact (h.settled.child hc (h₁.symm.trans hw)).left
  · cases hn
    exact h₁.trans (hh.symm.trans hw)
  · simp only [Cell.refs, List.mem_cons, List.not_mem_nil, or_false] at hd
    omega
  · exact (h.settled.child hc (h₂.symm.trans hw)).right.imp_right .inr
  · obtain ⟨_, _, h, _⟩ := next_lazy hn
    contradiction
  · have := refs_lazy hd
    contradiction

end Cell.Placed

-- What is queued is run where it belongs.
theorem on_of_admits (h : P.Leads w (.queued executor context)) (ha : m.admits executor context t) : P.On w t := by
  cases context
  case none =>
    obtain ⟨rfl, hany⟩ := h
    exact P.schedule hany ha
  case some =>
    obtain ⟨rfl, t₀, ho, rfl⟩ := h
    exact P.admits ho ha

theorem sound_placed : (placed P free).Sound m fun c => free ≠ some c where
  begin hf hx ha hp           := hx.running ha fun _ hw => .inr ((hx.stays hf rfl hw).body hp)
  external hf hx ha hp r      := hx.running ha fun _ hw => .inr (hx.stays hf hp hw r)
  await hf hx ha hp _ _ _     := hx.running ha fun _ hw => .inr (hx.stays hf hp hw _)
  collectAll hf hx ha hp _ _  := hx.running ha fun _ hw => .inr (hx.stays hf hp hw _)
  collectAny hf hx ha hp _ _  := hx.running ha fun _ hw => .inr (hx.stays hf hp hw _)
  exec hf hc hx ha hp ht      :=
    hx.execs hc ha ht.right fun _ hw => (Body.Stays.returns (hx.stays hf hp hw)).imp fun _ => .inr
  via hx                      := ⟨hx.settled, fun _ _ h => by simp [Cell.next] at h, fun _ h => by simp [Cell.refs, Cell.next] at h⟩
  launch hx                   := hx.await
  child _ hl hx hy _          := hx.child hl hy
  deliver _ _ _ _             := trivial
  complete _ _ _ _ hx h       := hx.completes h
  moves hx h                  := hx.moves h
  start hq hx hc ht           := by
    obtain ⟨a, rfl, ht⟩ := ht
    obtain ⟨hl, hch⟩ := hx.start hq hc rfl
    exact ⟨_, _, hl, hch, by simp [Node.id], fun w hw => ht.right w (homeOf_first.symm.trans hw)⟩
  run h hp                    := by
    refine ⟨h.left, fun w hw => ?_⟩
    have hw := h.right w hw
    rename Place ξ θ χ => p
    cases p
    case running  => exact hp.elim
    case queued   => exact on_of_admits hw hp
    case external => exact hw.elim
  next hx hv hn ht            := by
    refine ⟨hx.refs _ (Cell.mem_refs hn), fun w hw => ht.right w ?_⟩
    have hb := hx.next _ w hn hw
    rename Cell ε α ξ θ χ => x
    cases x
    case via => contradiction
    all_goals exact hb
  resume hx hp                := by
    refine ⟨hx.refs _ (List.mem_singleton_self _), fun w hw => ?_⟩
    obtain ⟨t₀, ho, rfl⟩ := hx.next _ w rfl hw
    exact P.prompt ho (hp _ rfl)
  checkin hx                  := by
    refine ⟨hx.refs _ (List.mem_singleton_self _), fun w hw => ?_⟩
    obtain ⟨t₀, ho, h⟩ := hx.next _ w rfl hw
    cases h
    exact ⟨rfl, t₀, ho, rfl⟩
  schedule hx _ _             := by
    refine ⟨hx.lt_child, fun w hw => ?_⟩
    have := hx.settled.left w ((hx.settled.right rfl).symm.trans hw)
    contradiction
  launched hx _ ht            := ⟨hx.lt_child, fun w hw => ht.right w ((hx.settled.right rfl).symm.trans hw)⟩
  queue hq hx hp he           := by
    refine ⟨hq, fun w hw => ?_⟩
    obtain ⟨_, he', hany, _⟩ := hx.settled w hw
    exact ⟨Option.some.inj (he.symm.trans he'), hany hp⟩

-- A holder of code that is to be run.

theorem holds_of_token (h : tok ∈ s.tokens) : 0 < s.holds tok.node := by
  have : 0 < s.tokens.countP (·.node = tok.node) := List.countP_pos_iff.mpr ⟨tok, h, by simp⟩
  simp only [Config.holds]
  omega

theorem holds_of_next {c : Nat} (hc : s.cells[c]? = some x) (hn : x.next = some n) : 0 < s.holds n := by
  have : 0 < s.cells.countP (·.next = some n) := List.countP_pos_iff.mpr ⟨x, List.mem_of_getElem? hc, by simp [hn]⟩
  simp only [Config.holds]
  omega

theorem holds_of_refused (h : a ∈ s.refused) : 0 < s.holds a := by
  have : 0 < s.refused.count a := List.count_pos_iff.mpr h
  simp only [Config.holds]
  omega

theorem Inv.lt_of_holds (i : Inv s) (h : 0 < s.holds n) : n.id < s.cells.length := by
  by_contra hge
  have hz : s.needs n = 0 := by simp [Config.needs, List.getElem?_eq_none (Nat.le_of_not_lt hge)]
  have := i.held n
  omega

theorem Inv.refs_lt {c : Nat} (i : Inv s) (hx : s.cells[c]? = some x) (hd : d ∈ x.refs) : d < s.cells.length := by
  have hl := i.linked c x hx
  have hn {n} (hn : x.next = some n) : n.id < s.cells.length :=
    Nat.lt_trans (hl.next_lt hn) (Holding.lt_of_getElem? hx)
  cases x
  case launch child callback _ =>
    have hch : child < s.cells.length := hl.2.1
    cases callback <;> simp only [Cell.refs, List.mem_cons, List.not_mem_nil, or_false] at hd
    case caller    => exact hd ▸ hch
    case child q j =>
      obtain rfl | rfl := hd
      · exact hch
      · exact hn (n := .child d j) rfl
  case destroyed => simp [Cell.refs, Cell.next] at hd
  all_goals
    obtain ⟨n, h, rfl⟩ := Option.map_eq_some_iff.mp (Option.mem_toList.mp hd)
    exact hn h

-- The code of the coroutine that takes the next step is held by nothing else, whatever its cell runs.
theorem id_ne_of_holds {f : Frame ε α ξ θ k} (h : Holding s [.coro c]) (hf : s.fault = none)
    (hc : s.cells[c]? = some (.lazy f)) (hn : 0 < s.holds n) : n.id ≠ c := by
  intro hid
  have ho := h.owes hf n
  have hs : s.needs n = (Node.coro c).one n := by
    simp [Config.needs, hid, hc, needs_alive (h.alive hf hc)]
  simp only [List.map_cons, List.map_nil, List.sum_cons, List.sum_nil] at ho
  omega

theorem homeOf_set (hc : c < n) : homeOf ((List.replicate n none).set c (some w)) d = if d = c then some w else none := by
  simp only [homeOf, List.getElem?_set, List.length_replicate, hc, if_true, List.getElem?_replicate, eq_comm (a := c)]
  split
  case isTrue  => rfl
  case isFalse => split <;> rfl

-- The place where a coroutine is running becomes its home, and the only one.
theorem marked_set {f : Frame ε α ξ θ k} {j : Nat} (i : Inv s) (hf : s.fault = none)
    (ht : s.tokens[j]? = some ⟨.running t, .coro c⟩) (hc : s.cells[c]? = some (.lazy f)) (he : f.executor_ = some e)
    (hb : free = some c ∨ f.stage.Stays e any) (hw : P.On w t) :
    Marked (placed P free) ((List.replicate s.cells.length none).set c (some w)) s := by
  have hlt := Holding.lt_of_getElem? hc
  have h := i.holding.take ht
  have hh (d : Nat) : homeOf ((List.replicate s.cells.length none).set c (some w)) d = if d = c then some w else none :=
    homeOf_set hlt
  have hlen : ((List.replicate s.cells.length none).set c (some w)).length = s.cells.length := by simp
  -- What else is to be run is not what this coroutine resumes.
  have hne {n} (hn : 0 < (s.take j).holds n) : homeOf ((List.replicate s.cells.length none).set c (some w)) n.id = none :=
    (hh _).trans (if_neg (id_ne_of_holds h hf hc hn))
  refine ⟨hlen, fun d x hx => ⟨?_, fun n w' hn hw' => ?_, fun d' hd => hlen.symm ▸ i.refs_lt hx hd⟩, fun tok ht' => ?_,
    fun a ha => ?_, fun _ _ => trivial⟩
  · by_cases hd : d = c
    case pos =>
      subst hd
      cases hc.symm.trans hx
      exact fun _ _ => ⟨he, hb⟩
    case neg =>
      have hd : homeOf ((List.replicate s.cells.length none).set c (some w)) d = none := (hh d).trans (if_neg hd)
      cases x <;> simp only [Cell.Settled, hd, reduceCtorEq, false_implies, implies_true, true_and]
      case launch child callback awaiting =>
        rintro rfl
        refine (hh child).trans (if_neg ?_)
        rintro rfl
        have hl := (i.linked d _ hx).right.right.left
        obtain ⟨q, hq⟩ := Option.isSome_iff_exists.mp (Bool.and_eq_true_iff.mp (h.alive hf hc)).left
        simp [Config.cont, hc, Cell.cont, hq] at hl
  · cases (hne (holds_of_next (c := d) hx hn)).symm.trans hw'
  · refine ⟨hlen.symm ▸ i.lt_of_holds (holds_of_token ht'), fun w' hw' => ?_⟩
    obtain ⟨l, hl⟩ := List.mem_iff_getElem?.mp ht'
    by_cases hj : l = j
    case pos =>
      cases hj
      cases ht.symm.trans hl
      cases ((hh c).trans (if_pos rfl)).symm.trans hw'
      exact hw
    case neg =>
      have ht' : tok ∈ (s.take j).tokens := List.mem_eraseIdx_iff_getElem?.mpr ⟨l, hj, hl⟩
      cases (hne (holds_of_token ht')).symm.trans hw'
  · refine ⟨e, none, hlen.symm ▸ i.lt_of_holds (holds_of_refused ha), fun w' hw' => ?_⟩
    cases (hne (holds_of_refused ha)).symm.trans hw'

-- Coroutine `c` has the home `w`.
structure Lives (P : Places m e any ω) (free : Option Nat) (w : ω) (c : Nat) (s : Config ε α ξ θ χ) : Prop where
  inv    : Inv s
  wired  : Wired s
  placed : ∃ homes, homeOf homes c = some w ∧ Marked (placed P free) homes s

namespace Lives

theorem carries (i : Inv s) (wd : Wired s) (hw : homeOf homes c = some w) (h : Carries (Lazy.placed P free) homes s) :
    Lives P free w c s := by
  obtain ⟨homes', hp, p⟩ := h
  refine ⟨i, wd, homes', (homeOf_mono hp ?_).trans hw, p⟩
  by_contra hn
  simp [homeOf, List.getElem?_eq_none (Nat.le_of_not_lt hn)] at hw

-- It is running there.
theorem settle {f : Frame ε α ξ θ k} {j : Nat} (i : Inv s) (wd : Wired s) (hf : s.fault = none)
    (ht : s.tokens[j]? = some ⟨.running t, .coro c⟩) (hc : s.cells[c]? = some (.lazy f)) (he : f.executor_ = some e)
    (hb : free = some c ∨ f.stage.Stays e any) (hw : P.On w t) : Lives P free w c s :=
  have hlt := Holding.lt_of_getElem? hc
  ⟨i, wd, _, (homeOf_set hlt).trans (if_pos rfl), marked_set i hf ht hc he hb hw⟩

-- It takes a step, which brings it back to its home.
theorem leave {f : Frame ε α ξ θ k} {body : Body ε α ξ k} {j : Nat} (h : Lives P (some c) w c s₁)
    (ht : s₁.tokens[j]? = some ⟨.running t, .coro c⟩) (hc : s₁.cells[c]? = some (.lazy f))
    (hp : f.stage = .running body) (hb : body.Returns e any fun _ => True)
    (hs : m.system.step s₁ (.step j env) = some s₂) : Lives P (some c) w c s₂ := by
  obtain ⟨i, wd, homes, hw, p⟩ := h
  refine carries (i.step hs) (wd.step i hs) hw ?_
  obtain ⟨hf, hs⟩ := Setup.step_cases hs
  have hx := p.cells c _ hc
  have ha := (i.holding.take ht).alive hf hc
  have htok := p.tokens _ (List.mem_of_getElem? ht)
  cases hs
  case fail             => exact p.fail.carries
  case step ht' hf₂ hs  =>
    cases ht.symm.trans ht'
    simp only [Setup.stepNode, Setup.stepCoro, Config.take, hc, Setup.stepLazy, hp] at hs
    have ho := hx.execs (p.lt hc) ha htok.right fun _ _ => hb.imp fun _ _ => .inl rfl
    have hf₁ : (s₁.take j).fault = none := hf
    have he : ExecStep m (s₁.take j) t c env f body s₂ := (exec_cases hf₁ ha hs).right hf₂
    refine p.take.exec hc ho htok (fun q hq => ?_) he
    exact sound_placed.next (a := .coro c) hx rfl (Cell.next_alive ha hq) htok

theorem step (h : Lives P free w c s₁) (hl : ∀ c, free = some c → s₁.rests c a) (hs : m.system.step s₁ a = some s₂) :
    Lives P free w c s₂ := by
  obtain ⟨i, wd, homes, hw, p⟩ := h
  refine carries (i.step hs) (wd.step i hs) hw (p.step sound_placed wd i ?_ hs)
  cases a
  case run  => trivial
  case step =>
    intro tok d ht hn hd
    simpa [Config.rests, ht, hn] using hl d hd

-- As long as it does not take a step itself, if it is free.

theorem rests (h : Lives P (some c) w c s₁)
    (hr : ((m.system.restrict fun s a => s.rests c a).startingAt s₁).Reachable s₂) : Lives P (some c) w c s₂ := by
  induction hr
  case init       => exact h
  case step hs ih =>
    obtain ⟨hl, hs⟩ := System.restrict_step (S := m.system) (C := fun s a => s.rests c a).mp hs
    exact ih.step (fun d hd => Option.some.inj hd ▸ hl) hs

theorem run (h : Lives P none w c s₁) (hr : (m.system.startingAt s₁).Reachable s₂) : Lives P none w c s₂ := by
  induction hr
  case init       => exact h
  case step hs ih => exact ih.step (fun _ hd => by contradiction) hs

-- It is bound to the executor, and is there whenever it is running.

theorem executor_ {f : Frame ε α ξ θ k} (h : Lives P free w c s) (hc : s.cells[c]? = some (.lazy f)) :
    f.executor_ = some e := by
  obtain ⟨_, hw, p⟩ := h.placed
  exact (p.cells c _ hc).executor_ hw

theorem on (h : Lives P free w c s) (ht : ⟨.running t, .coro c⟩ ∈ s.tokens) : P.On w t := by
  obtain ⟨_, hw, p⟩ := h.placed
  exact (p.tokens _ ht).right w hw

-- So are the coroutines that inherit its executor.
theorem inherits (h : Lives P free w c s) (hi : s.Inherits c d) (ht : ⟨.running t, .coro d⟩ ∈ s.tokens) :
    Lives P free w d s := by
  replace ht : 0 < s.holds (.coro d) := holds_of_token ht
  induction hi
  case self => exact h
  case await k d q f hc hq _ ih =>
    have ha : f.alive := by
      by_contra ha
      have := h.inv.held (.coro d)
      simp [Config.needs, Node.id, hc, needs_not_alive (Bool.eq_false_iff.mpr ha)] at this
      omega
    have hn := Cell.next_alive (χ := χ) ha hq
    obtain ⟨i, wd, homes, hw, p⟩ := ih (holds_of_next hc hn)
    exact ⟨i, wd, homes, (p.cells d _ hc).next _ w hn hw, p⟩

end Lives

-- The coroutine that `Start` is called for, after `Via`, is scheduled, and has not been run yet.
structure Setup.Schedules (m : Setup ε α ξ θ χ) (e : ξ) (s : Config ε α ξ θ χ) : Prop where
  cells  : s.cells = [.launch true 1 .caller true, .lazy { Frame.new m.program (some e) none none with continuation_ := some 0 }]
  tokens : ∀ tok ∈ s.tokens, tok = ⟨.queued e none, .coro 1⟩

-- Then it is run on some place, and stays there.
def Starts (P : Places m e any ω) (s : Config ε α ξ θ χ) : Prop :=
  s = m.init ∨ m.Schedules e s ∨ ∃ w, Lives P none w 1 s

namespace Starts

theorem launch (he : m.executor_ = some e) (hr : m.reschedule) (hs : m.system.step m.init a = some s) :
    m.Schedules e s := by
  replace hs := (Setup.step_cases hs).right
  have htok {i : Nat} {p n} (ht : m.init.tokens[i]? = some ⟨p, n⟩) :
      i = 0 ∧ p = Place.running m.thread ∧ n = Node.coro 0 := by
    cases i <;> cases ht
    exact ⟨rfl, rfl, rfl⟩
  have hstep {env s'} (hs : m.stepNode (m.init.take 0) m.thread env (.coro 0) = some s') :
      m.Schedules e s' ∧ s'.fault = none := by
    simp only [Setup.stepNode, Setup.stepCoro, Setup.init, Config.take, List.getElem?_cons_zero, Setup.stepLaunch,
      List.getElem?_cons_succ, hr, if_true, Bool.false_eq_true, if_false] at hs
    cases hs
    cases ha : env.accept <;>
      exact ⟨⟨by simp [Config.schedule, Config.submit, Config.put, Config.set, Frame.new, he],
        by simp [Config.schedule, Config.submit, Config.put, Config.set, Frame.new, he]⟩,
        by simp [Config.schedule, Config.submit, Config.put, Config.set, Frame.new, he]⟩
  cases hs
  case run ht hp =>
    obtain ⟨_, rfl, _⟩ := htok ht
    exact hp.elim
  case step ht hs _ =>
    obtain ⟨rfl, hp, rfl⟩ := htok ht
    cases hp
    exact (hstep hs).left
  case fail ht hs hf =>
    obtain ⟨rfl, hp, rfl⟩ := htok ht
    cases hp
    rw [(hstep hs).right] at hf
    contradiction

-- Each thread of the executor is on some place.
theorem scheduled (hin : ∀ t, (m.executor e).currentThreadInExecutor t → ∃ w, P.On w t) (hb : m.program.Stays e any)
    (i : Inv s₁) (wd : Wired s₁) (h : m.Schedules e s₁) (hs : m.system.step s₁ a = some s₂) :
    ∃ w, Lives P none w 1 s₂ := by
  have i₂ := i.step hs
  have w₂ := wd.step i hs
  obtain ⟨hf, hs⟩ := Setup.step_cases hs
  cases hs
  case run ht hp =>
    cases h.tokens _ (List.mem_of_getElem? ht)
    obtain ⟨w, hw⟩ := hin _ hp
    have hc : s₁.cells[1]? = some (.lazy { Frame.new m.program (some e) none none with continuation_ := some 0 }) := by
      rw [h.cells]
      rfl
    exact ⟨w, .settle i₂ w₂ hf List.getElem?_concat_length hc rfl (.inr hb) hw⟩
  case step ht _ _ => cases h.tokens _ (List.mem_of_getElem? ht)
  case fail ht _ _ => cases h.tokens _ (List.mem_of_getElem? ht)

theorem reachable (hin : ∀ t, (m.executor e).currentThreadInExecutor t → ∃ w, P.On w t) (hb : m.program.Stays e any)
    (he : m.executor_ = some e) (hr : m.reschedule) (h : m.system.Reachable s) : Starts P s := by
  induction h
  case init => exact .inl rfl
  case step h hs ih =>
    obtain rfl | hw | ⟨w, hl⟩ := ih
    · exact .inr (.inl (launch he hr hs))
    · exact .inr (.inr (scheduled hin hb (.reachable h) (.reachable h) hw hs))
    · exact .inr (.inr ⟨w, hl.step (fun _ hd => by contradiction) hs⟩)

-- A coroutine that inherits the executor is running there.
theorem lives (h : Starts P s) (hd : s.Inherits 1 d) (ht : ⟨.running t, .coro d⟩ ∈ s.tokens) :
    ∃ w, Lives P none w 1 s := by
  obtain rfl | hw | hl := h
  case inl =>
    cases List.mem_singleton.mp ht
    obtain _ | ⟨hc, _, _⟩ := hd
    cases hc
  case inr.inl => cases hw.tokens _ ht
  case inr.inr => exact hl

end Starts

-- The threads of an executor are a place.
def Places.threads (m : Setup ε α ξ θ χ) (e : ξ) : Places m e True Unit where
  On _ t     := (m.executor e).currentThreadInExecutor t
  prompt _ h := (m.executor e).prompt_in _ _ h
  admits _ h := (m.executor e).admits_in _ _ h
  schedule _ := id

-- A coroutine that is bound to executor `e`, and runs on one of its threads, is on a thread of `e` again
-- when it goes on after an await.
theorem affine {f : Frame ε α ξ θ k} {body : Body ε α ξ k} {j : Nat} (hr : m.system.Reachable s₁)
    (ht : s₁.tokens[j]? = some ⟨.running t, .coro c⟩) (hc : s₁.cells[c]? = some (.lazy f)) (hp : f.stage = .running body)
    (he : f.executor_ = some e) (hin : (m.executor e).currentThreadInExecutor t)
    (hb : body.Returns e True fun _ => True) (hs : m.system.step s₁ (.step j env) = some s₂)
    (hr' : ((m.system.restrict fun s a => s.rests c a).startingAt s₂).Reachable s₃)
    (ht' : ⟨.running t', .coro c⟩ ∈ s₃.tokens) : (m.executor e).currentThreadInExecutor t' := by
  have hf := (Setup.step_cases hs).left
  have h := Lives.settle (P := .threads m e) (w := ()) (.reachable hr) (.reachable hr) hf ht hc he (.inl rfl) hin
  exact ((h.leave ht hc hp hb hs).rests hr').on ht'

-- The child of a vector is resumed on another thread.

def awaitBack : Body Unit Unit Nat .void :=
  .collectAll 1 false false (fun _ => none)
    (fun _ => (.awaitExternal .void fun _ => .coReturnVoid : Body Unit Unit Nat .void)) fun _ => .coReturnVoid

def stepSuspended : Action Unit Unit Nat :=
  .step 0 ⟨true, .suspended, .value none⟩

def backRun : List (Action Unit Unit Nat) :=
  List.replicate 9 stepSuspended ++ [.run 0 7, stepSuspended, .run 0 0] ++ List.replicate 7 stepSuspended

def awaitBackState (n : Nat) : Config Unit Unit Nat Nat Nat :=
  (workers awaitBack).system.after (List.replicate n stepSuspended)

def awaitBackRest : System (Config Unit Unit Nat Nat Nat) (Action Unit Unit Nat) :=
  ((workers awaitBack).system.restrict fun s a => s.rests 1 a).startingAt (awaitBackState 3)

theorem affine_back : ⟨.running 0, .coro 1⟩ ∈ (awaitBackRest.after backRun).tokens ∧
    (worker 0).currentThreadInExecutor 0 := by
  have hs : (workers awaitBack).system.step (awaitBackState 2) stepSuspended = some (awaitBackState 3) := rfl
  have ht : ⟨.running 0, .coro 1⟩ ∈ (awaitBackRest.after backRun).tokens := List.mem_singleton_self _
  have hb : awaitBack.Returns 0 True fun _ => True :=
    ⟨fun _ => ⟨fun _ => trivial, fun _ => ⟨.inl rfl, fun _ => trivial⟩⟩, fun _ => trivial⟩
  exact ⟨ht, affine (e := 0) (j := 0) (System.reachable_after ..) rfl rfl rfl rfl rfl hb hs
    (System.reachable_after ..) ht⟩

-- A loop over windows stays, if its children do, which are not bound to an executor before.

theorem Body.Stays.windows {yield : Bool} {input : List (Body ε α ξ k')} {g : List (Try ε (Option α)) → Body ε α ξ k}
    (hg : ∀ r, (g r).Stays e True) (hx : ∀ child ∈ input, child.Stays e True) (output : List (Try ε (Option α))) :
    (windows para max_concurrency yield g input output).Stays e True := by
  fun_induction Body.windows para max_concurrency yield g input output
  case case1 => exact hg _
  case case2 child input output ih =>
    have hw : ∀ child' ∈ child :: input.take (max_concurrency - 1), child'.Stays e True := by
      intro child' h
      exact hx child' (List.cons_subset_cons _ (List.take_subset ..) h)
    refine ⟨fun _ => ⟨fun _ => trivial, fun i => ⟨.inl rfl, hw _ (List.get_mem ..)⟩⟩, fun r => ?_⟩
    have ih := ih r fun child' h => hx child' (List.mem_cons_of_mem _ (List.mem_of_mem_drop h))
    cases yield
    case false => exact ih
    case true  => exact ⟨trivial, ih⟩

theorem Body.Stays.collectWindows {yield : Bool} {input : List (Body ε α ξ k')}
    {g : List (Try ε (Option α)) → Body ε α ξ k} (hg : ∀ r, (g r).Stays e True)
    (hx : ∀ child ∈ input, child.Stays e True) :
    (collectAllWindowed para max_concurrency yield input g).Stays e True := by
  rw [Body.collectAllWindowed]
  split
  case isTrue  => exact ⟨fun _ => ⟨fun _ => trivial, fun i => ⟨.inl rfl, hx _ (List.get_mem ..)⟩⟩, hg⟩
  case isFalse => exact windows hg hx []

theorem Body.Stays.sleep : (Body.sleep : Body ε α ξ .void).Stays e True :=
  ⟨trivial, rfl, trivial⟩

-- If the coroutine that `Via` binds to executor `e` stays there, then so do all that inherit `e` from it.
theorem inherits_affine (he : m.executor_ = some e) (hr : m.reschedule) (hb : m.program.Stays e True)
    (h : m.system.Reachable s) (hd : s.Inherits 1 d) (ht : ⟨.running t, .coro d⟩ ∈ s.tokens) :
    (m.executor e).currentThreadInExecutor t ∧
      ∀ {k} {f : Frame ε α ξ θ k}, s.cells[d]? = some (.lazy f) → f.executor_ = some e := by
  have hs : Starts (.threads m e) s := .reachable (fun _ hin => ⟨(), hin⟩) hb he hr h
  obtain ⟨_, hl⟩ := hs.lives hd ht
  have hl := hl.inherits hd ht
  exact ⟨hl.on ht, hl.executor_⟩

-- A child that inherits the executor awaits a vector, one child of which sleeps and one of which is
-- resumed on another thread.

def awaitPair : Body Unit Unit Nat .void :=
  .await (.collectAll 2 true false (fun _ => none)
    (fun i => if i.val = 0 then .awaitExternal .void fun _ => .coReturnVoid else .sleep)
    (fun _ => .yield .coReturnVoid : List (Try Unit (Option Unit)) → Body Unit Unit Nat .void)) fun _ => .coReturnVoid

def startPair : Setup Unit Unit Nat Nat Nat :=
  { workers awaitPair with reschedule := true, thread := 5 }

def pairRun : List (Action Unit Unit Nat) :=
  [stepSuspended, .run 0 0] ++ List.replicate 8 stepSuspended ++ [.run 0 0] ++ List.replicate 5 stepSuspended ++ [.run 0 0] ++
    List.replicate 6 stepSuspended ++ [.run 0 7] ++ List.replicate 3 stepSuspended ++ [.run 0 0] ++
    List.replicate 2 stepSuspended ++ [.run 0 0] ++ List.replicate 11 stepSuspended

theorem inherits_affine_pair : ⟨.running 0, .coro 2⟩ ∈ (startPair.system.after pairRun).tokens ∧
    (worker 0).currentThreadInExecutor 0 := by
  have hb : awaitPair.Stays 0 True := by
    refine ⟨⟨fun _ => ⟨fun _ => trivial, fun i => ⟨.inl rfl, ?_⟩⟩, fun _ => ⟨trivial, trivial⟩⟩, fun _ => trivial⟩
    dsimp only
    split
    case isTrue  => exact fun _ => trivial
    case isFalse => exact .sleep
  have ht : ⟨.running 0, .coro 2⟩ ∈ (startPair.system.after pairRun).tokens := List.mem_singleton_self _
  exact ⟨ht, (inherits_affine rfl rfl hb (System.reachable_after ..) (.await rfl rfl .self) ht).left⟩

end Lazy
end AsyncSimple
