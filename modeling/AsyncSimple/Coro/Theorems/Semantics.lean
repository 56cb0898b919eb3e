import AsyncSimple.Coro.Semantics
import AsyncSimple.Coro.Executorless
import Mathlib.Data.List.Forall2
import Mathlib.Data.List.OfFn
import Mathlib.Logic.ExistsUnique

open Transition

namespace AsyncSimple
namespace Lazy

variable {ε α ξ : Type}

namespace Body

variable {body : Body ε α ξ k} {executor_ : Option ξ} {P Q : Try ε (Option α) → Prop} {r r₁ r₂ : Try ε (Option α)}

theorem Ensures.mono (h : body.Ensures executor_ P) (hq : ∀ r, P r → Q r) : body.Ensures executor_ Q := by
  induction body generalizing executor_ P Q <;> simp only [Ensures] at h ⊢
  case coReturn | coReturnVoid | throw => exact hq _ h
  case currentExecutor ih              => exact ih _ h hq
  case yield ih                        => exact ⟨h.left, ih h.right hq⟩
  case schedule ih                     => exact ih h hq
  case scheduleAfter ih                => exact ih h hq
  case await ihc ihf                   => exact ihc h fun v hv => ihf v hv hq
  case awaitVia ihc ihf                => exact ⟨h.left, ihc h.right fun v hv => ihf v hv hq⟩
  case awaitExternal ih                => exact fun v => ih v (h v) hq
  case collectAll ihc ihf              =>
    obtain ⟨hx, R, hc, hf⟩ := h
    exact ⟨hx, R, hc, fun v hv => ihf _ (hf v hv) hq⟩
  case collectAny ihc ihf              =>
    obtain ⟨hn, hx, hc⟩ := h
    exact ⟨hn, hx, fun i => ihc i (hc i) fun v hv => ihf _ hv hq⟩

theorem Ensures.gives (h : body.Ensures executor_ Q) (hr : body.Gives executor_ r) : Q r := by
  induction body generalizing executor_ Q r <;> simp only [Ensures, Gives] at h hr
  case coReturn | coReturnVoid | throw => exact hr ▸ h
  case currentExecutor ih              => exact ih _ h hr
  case yield ih                        => exact ih h.right hr
  case schedule ih                     => exact ih h hr
  case scheduleAfter ih                => exact ih h hr
  case await ihc ihf                   =>
    obtain ⟨v, hv, hr⟩ := hr
    exact ihf v (ihc h hv) hr
  case awaitVia ihc ihf                =>
    obtain ⟨v, hv, hr⟩ := hr
    exact ihf v (ihc h.right hv) hr
  case awaitExternal ih                =>
    obtain ⟨v, hr⟩ := hr
    exact ih v (h v) hr
  case collectAll ihc ihf              =>
    obtain ⟨_, R, hc, hf⟩ := h
    obtain ⟨v, hv, hr⟩ := hr
    exact ihf _ (hf v fun i => ihc i (hc i) (hv i)) hr
  case collectAny ihc ihf              =>
    obtain ⟨_, _, hc⟩ := h
    obtain ⟨i, v, hv, hr⟩ := hr
    exact ihf _ (ihc i (hc i) hv) hr

-- The precondition is the weakest one.
theorem Sound.ensures (h : body.Sound executor_) (hq : ∀ r, body.Gives executor_ r → Q r) : body.Ensures executor_ Q := by
  simp only [Sound] at h
  induction body generalizing executor_ Q <;> simp only [Ensures, Gives] at h hq ⊢
  case coReturn | coReturnVoid | throw => exact hq _ rfl
  case currentExecutor ih              => exact ih _ h hq
  case yield ih                        => exact ⟨h.left, ih h.right hq⟩
  case schedule ih                     => exact ih h hq
  case scheduleAfter ih                => exact ih h hq
  case await ihc ihf                   =>
    exact ihc (h.mono fun _ _ => trivial) fun v hv => ihf v (h.gives hv) fun r hr => hq r ⟨v, hv, hr⟩
  case awaitVia ihc ihf                =>
    obtain ⟨hx, h⟩ := h
    exact ⟨hx, ihc (h.mono fun _ _ => trivial) fun v hv => ihf v (h.gives hv) fun r hr => hq r ⟨v, hv, hr⟩⟩
  case awaitExternal ih                => exact fun v => ih v (h v) fun r hr => hq r ⟨v, hr⟩
  case collectAll executors children _ ihc ihf =>
    obtain ⟨hx, R, hc, hf⟩ := h
    refine ⟨hx, fun i => (children i).Gives ((executors i).or executor_), fun i => ?_, fun v hv => ?_⟩
    · exact ihc i ((hc i).mono fun _ _ => trivial) fun _ => id
    · exact ihf _ (hf v fun i => (hc i).gives (hv i)) fun r hr => hq r ⟨v, hv, hr⟩
  case collectAny ihc ihf              =>
    obtain ⟨hn, hx, hc⟩ := h
    refine ⟨hn, hx, fun i => ihc i ((hc i).mono fun _ _ => trivial) fun v hv => ?_⟩
    exact ihf _ ((hc i).gives hv) fun r hr => hq r ⟨i, v, hv, hr⟩

theorem ensures_iff : body.Ensures executor_ Q ↔ body.Sound executor_ ∧ ∀ r, body.Gives executor_ r → Q r :=
  ⟨fun h => ⟨h.mono fun _ _ => trivial, fun _ => h.gives⟩, fun h => h.left.ensures h.right⟩

-- There is exactly one outcome, if nothing chooses one.

theorem existsUnique_bind {β γ : Type} {p : β → Prop} {q : β → γ → Prop} (hp : ∃! v, p v) (hq : ∀ v, ∃! r, q v r) :
    ∃! r, ∃ v, p v ∧ q v r := by
  obtain ⟨v, hv, hu⟩ := hp
  obtain ⟨r, hr, hu'⟩ := hq v
  refine ⟨r, ⟨v, hv, hr⟩, ?_⟩
  rintro r' ⟨v', hv', hr'⟩
  cases hu v' hv'
  exact hu' r' hr'

theorem Determined.existsUnique (h : body.Determined) (executor_ : Option ξ) : ∃! r, body.Gives executor_ r := by
  induction body generalizing executor_ <;> simp only [Determined, Gives] at h ⊢
  case coReturn | coReturnVoid | throw => exact existsUnique_eq
  case currentExecutor ih              => exact ih _ (h _) _
  case yield ih                        => exact ih h _
  case schedule ih                     => exact ih h _
  case scheduleAfter ih                => exact ih h _
  case await ihc ihf                   => exact existsUnique_bind (ihc h.left _) fun v => ihf v (h.right v) _
  case awaitVia ihc ihf                => exact existsUnique_bind (ihc h.left _) fun v => ihf v (h.right v) _
  case collectAll executors children f ihc ihf =>
    refine existsUnique_bind ?_ fun v => ihf _ (h.right _) _
    have hc (i) : ∃! v, (children i).Gives ((executors i).or executor_) v := ihc i (h.left i) _
    choose v hv hu using hc
    exact ⟨v, hv, fun v' hv' => funext fun i => hu i _ (hv' i)⟩

-- The windows of `CollectAllWindowed` do not change what it gives.

variable {input : List (Body ε α ξ k')} {f : List (Try ε (Option α)) → Body ε α ξ k}

theorem gives_awaitAll : (awaitAll para input f).Gives executor_ r ↔
    ∃ vs, List.Forall₂ (fun child v => child.Gives executor_ v) input vs ∧ (f vs).Gives executor_ r := by
  simp only [awaitAll, Gives, Option.none_or]
  constructor
  · rintro ⟨v, hv, hr⟩
    refine ⟨List.ofFn v, List.forall₂_iff_get.mpr ⟨by simp, fun i hi _ => ?_⟩, hr⟩
    simpa using hv ⟨i, hi⟩
  · rintro ⟨vs, hvs, hr⟩
    obtain ⟨hl, hv⟩ := List.forall₂_iff_get.mp hvs
    refine ⟨fun i => vs.get (i.cast hl), fun i => hv i i.isLt (hl ▸ i.isLt), ?_⟩
    rwa [← List.ofFn_congr hl.symm, List.ofFn_get]

theorem gives_windows {yield : Bool} {output : List (Try ε (Option α))} :
    (windows para max_concurrency yield f input output).Gives executor_ r ↔
      ∃ vs, List.Forall₂ (fun child v => child.Gives executor_ v) input vs ∧ (f (output ++ vs)).Gives executor_ r := by
  fun_induction windows
  case case1 => simp
  case case2 child input output ih =>
    have hloop (body : Body ε α ξ k) : (if yield then body.yield else body).Gives executor_ r ↔ body.Gives executor_ r := by
      cases yield <;> rfl
    simp only [gives_awaitAll, hloop, ih]
    constructor
    · rintro ⟨ws, hws, vs, hvs, hr⟩
      refine ⟨ws ++ vs, ?_, by rwa [← List.append_assoc]⟩
      have : List.Forall₂ _ ((child :: input.take (max_concurrency - 1)) ++ input.drop (max_concurrency - 1)) (ws ++ vs) :=
        List.rel_append hws hvs
      rwa [List.cons_append, List.take_append_drop] at this
    · rintro ⟨vs, hvs, hr⟩
      cases hvs
      case cons v vs hv hvs =>
      refine ⟨v :: vs.take (max_concurrency - 1), .cons hv (List.forall₂_take _ hvs), vs.drop (max_concurrency - 1),
        List.forall₂_drop _ hvs, ?_⟩
      rwa [List.append_assoc, List.cons_append, List.take_append_drop]

theorem gives_collectAllWindowed {yield : Bool} :
    (collectAllWindowed para max_concurrency yield input f).Gives executor_ r ↔
      (awaitAll false input f).Gives executor_ r := by
  rw [collectAllWindowed]
  split
  case isTrue  => rw [gives_awaitAll, gives_awaitAll]
  case isFalse => rw [gives_awaitAll, gives_windows]; rfl

theorem ensures_awaitAll : (awaitAll para input f).Ensures executor_ Q ↔
    (∀ child ∈ input, child.Sound executor_) ∧
      ∀ vs, List.Forall₂ (fun child v => child.Gives executor_ v) input vs → (f vs).Ensures executor_ Q := by
  have hinput : (∀ i, (input.get i).Sound executor_) ↔ ∀ child ∈ input, child.Sound executor_ :=
    (List.forall_mem_iff_get (p := fun child : Body ε α ξ k' => child.Sound executor_)).symm
  rw [ensures_iff, ← hinput]
  simp only [gives_awaitAll]
  constructor
  · rintro ⟨⟨_, P, hc, hf⟩, hq⟩
    refine ⟨fun i => (hc i).mono fun _ _ => trivial, fun vs hvs => Sound.ensures ?_ fun r hr => hq r ⟨vs, hvs, hr⟩⟩
    obtain ⟨hl, hv⟩ := List.forall₂_iff_get.mp hvs
    have hf := hf (fun i => vs.get (i.cast hl)) fun i => (hc i).gives (hv i i.isLt (hl ▸ i.isLt))
    rwa [← List.ofFn_congr hl.symm, List.ofFn_get] at hf
  · rintro ⟨hc, hf⟩
    refine ⟨⟨fun h => by contradiction, fun i => (input.get i).Gives executor_, fun i => ?_, fun v hv => ?_⟩, ?_⟩
    · exact (hc i).ensures fun _ => id
    · refine (hf _ (List.forall₂_iff_get.mpr ⟨by simp, fun i hi _ => ?_⟩)).mono fun _ _ => trivial
      simpa using hv ⟨i, hi⟩
    · rintro r ⟨vs, hvs, hr⟩
      exact (hf vs hvs).gives hr

theorem ensures_windows {yield : Bool} {output : List (Try ε (Option α))} (hy : yield → executor_.isSome)
    (hc : ∀ child ∈ input, child.Sound executor_)
    (hf : ∀ vs, List.Forall₂ (fun child v => child.Gives executor_ v) input vs → (f (output ++ vs)).Ensures executor_ Q) :
    (windows para max_concurrency yield f input output).Ensures executor_ Q := by
  fun_induction windows
  case case1 => simpa using hf
  case case2 child input output ih =>
    have hloop (body : Body ε α ξ k) (h : body.Ensures executor_ Q) :
        (if yield then body.yield else body).Ensures executor_ Q := by
      split
      case isTrue ht => exact ⟨hy ht, h⟩
      case isFalse   => exact h
    refine ensures_awaitAll.mpr ⟨fun c h => hc c ?_, fun ws hws => hloop _ (ih ws (fun c h => hc c ?_) fun vs hvs => ?_)⟩
    · exact List.cons_subset_cons _ (List.take_subset _ _) h
    · exact List.mem_cons_of_mem _ (List.drop_subset _ _ h)
    · rw [List.append_assoc]
      refine hf _ ?_
      have : List.Forall₂ _ ((child :: input.take (max_concurrency - 1)) ++ input.drop (max_concurrency - 1)) (ws ++ vs) :=
        List.rel_append hws hvs
      rwa [List.cons_append, List.take_append_drop] at this

theorem Sound.collectWindows {yield : Bool} (h : (awaitAll false input f).Sound executor_)
    (hy : yield → executor_.isSome) :
    (collectAllWindowed para max_concurrency yield input f).Sound executor_ := by
  obtain ⟨hc, hf⟩ := ensures_awaitAll.mp h
  rw [Body.collectAllWindowed]
  split
  case isTrue  => exact ensures_awaitAll.mpr ⟨hc, hf⟩
  case isFalse => exact ensures_windows hy hc hf

end Body
end Lazy
end AsyncSimple
