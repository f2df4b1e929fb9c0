import Cascade.Proofs.Action
import Cascade.Proofs.Result

/-! # Two runs of actions

Two actions agree when, from any two sessions that are related, both succeed or
both fail, what they end with is related, and the sessions still are. An action
that agrees with itself does not depend on what the sessions differ in. Results that
differ only in a part that can be erased are alike; the same relation also says
when they have to be equal. -/
namespace Cascade

/-- Two outcomes of the same kind, whose contents are related. -/
def Matches {ε α β : Type} (E : ε → ε → Prop) (R : α → β → Prop) : Except ε α → Except ε β → Prop
  | .ok x, .ok y => R x y
  | .error e, .error e' => E e e'
  | _, _ => False

theorem Matches.refl {ε α : Type} {E : ε → ε → Prop} {R : α → α → Prop} {x : Except ε α}
    (he : ∀ e, E e e) (hr : ∀ a, x = .ok a → R a a) : Matches E R x x := by
  cases x with
  | ok a => exact hr a rfl
  | error e => exact he e

theorem Matches.ok {ε α β : Type} {E : ε → ε → Prop} {R : α → β → Prop} {x : Except ε α}
    {y : Except ε β} (h : Matches E R x y) {a : α} (hx : x = .ok a) : ∃ b, y = .ok b ∧ R a b := by
  subst hx
  cases y with
  | ok b => exact ⟨b, rfl, h⟩
  | error e => exact False.elim h

theorem Matches.ok_right {ε α β : Type} {E : ε → ε → Prop} {R : α → β → Prop} {x : Except ε α}
    {y : Except ε β} (h : Matches E R x y) {b : β} (hy : y = .ok b) : ∃ a, x = .ok a ∧ R a b := by
  subst hy
  cases x with
  | ok a => exact ⟨a, rfl, h⟩
  | error e => exact False.elim h

theorem Matches.map {ε α β γ δ : Type} {E : ε → ε → Prop} {Q : α → β → Prop} {P : γ → δ → Prop} {x : Except ε α}
    {y : Except ε β} {f : α → γ} {g : β → δ} (h : Matches E Q x y) (hf : ∀ a b, Q a b → P (f a) (g b)) :
    Matches E P (x.map f) (y.map g) := by
  cases x <;> cases y
  · exact h
  · exact h
  · exact h
  · exact hf _ _ h

theorem Matches.bind {ε α β γ δ : Type} {E : ε → ε → Prop} {Q : α → β → Prop} {P : γ → δ → Prop} {x : Except ε α}
    {y : Except ε β} {f : α → Except ε γ} {g : β → Except ε δ} (h : Matches E Q x y)
    (hf : ∀ a b, Q a b → Matches E P (f a) (g b)) : Matches E P (x >>= f) (y >>= g) := by
  cases x <;> cases y
  · exact h
  · exact h.elim
  · exact h.elim
  · exact hf _ _ h

/-- Outcomes of which one is a success when the other one is, for whatever failures. -/
theorem matches_of_ok {ε α β : Type} {E : ε → ε → Prop} {R : α → β → Prop} {x : Except ε α}
    {y : Except ε β} (he : ∀ e e', E e e') (h : ∀ a, x = .ok a → ∃ b, y = .ok b ∧ R a b)
    (h' : ∀ b, y = .ok b → ∃ a, x = .ok a) : Matches E R x y := by
  cases x with
  | ok a =>
    obtain ⟨b, rfl, hr⟩ := h a rfl
    exact hr
  | error e =>
    cases y with
    | ok b =>
      obtain ⟨a, ha⟩ := h' b rfl
      cases ha
    | error e' => exact he e e'

/-- The same after erasing a part, and equal if they have to be. -/
structure Like {α β : Type} (same : Prop) (erase : α → β) (x y : α) : Prop where
  erased : erase x = erase y
  equal : same → x = y

namespace Like

variable {α β : Type} {same : Prop} {erase : α → β}

theorem refl (x : α) : Like same erase x x := ⟨rfl, fun _ => rfl⟩

theorem cons {x y : α} {xs ys : List α} (h : Like same erase x y) (hs : Like same (List.map erase) xs ys) :
    Like same (List.map erase) (x :: xs) (y :: ys) :=
  ⟨by rw [List.map_cons, List.map_cons, h.erased, hs.erased],
    fun hsame => by rw [h.equal hsame, hs.equal hsame]⟩

theorem append {xs ys xs' ys' : List α} (h : Like same (List.map erase) xs ys)
    (h' : Like same (List.map erase) xs' ys') :
    Like same (List.map erase) (xs ++ xs') (ys ++ ys') :=
  ⟨by rw [List.map_append, List.map_append, h.erased, h'.erased],
    fun hsame => by rw [h.equal hsame, h'.equal hsame]⟩

theorem flatten {xss yss : List (List α)} (h : Like same (List.map (List.map erase)) xss yss) :
    Like same (List.map erase) xss.flatten yss.flatten :=
  ⟨by rw [List.map_flatten, List.map_flatten, h.erased], fun hsame => by rw [h.equal hsame]⟩

end Like

/-- From any two sessions that are related both actions end alike and leave the
sessions related. -/
def Agree {α β : Type} (J : Session → Session → Prop) (E : Failure → Failure → Prop) (a : Action α)
    (b : Action β) (R : α → β → Prop) : Prop :=
  ∀ s t, J s t → J (a.runFrom s).2 (b.runFrom t).2 ∧ Matches E R (a.runFrom s).1 (b.runFrom t).1

/-- Two actions that end alike, with the same failure if it has to be. -/
abbrev Agrees {α β : Type} (J : Session → Session → Prop) (same : Prop) (a : Action α) (b : Action β)
    (R : α → β → Prop) : Prop :=
  Agree J (fun e e' => same → e = e') a b R

namespace Agree

variable {α β γ δ : Type} {J : Session → Session → Prop} {E : Failure → Failure → Prop}
  {a : Action α} {b : Action β} {R R' : α → β → Prop}

theorem pure {x : α} {y : β} (h : R x y) : Agree J E (Pure.pure x) (Pure.pure y) R :=
  fun _ _ hj => ⟨hj, h⟩

theorem throw {e e' : Failure} (h : E e e') :
    Agree J E (throw e : Action α) (throw e' : Action β) R :=
  fun _ _ hj => ⟨hj, h⟩

theorem mono (h : Agree J E a b R) (hr : ∀ x y, R x y → R' x y) : Agree J E a b R' := by
  intro s t hj
  obtain ⟨hj', hm⟩ := h s t hj
  refine ⟨hj', ?_⟩
  revert hm
  cases (a.runFrom s).1 <;> cases (b.runFrom t).1 <;> intro hm
  · exact hm
  · exact hm
  · exact hm
  · exact hr _ _ hm

theorem bind {f : α → Action γ} {g : β → Action δ} {Q : γ → δ → Prop} (h : Agree J E a b R)
    (hf : ∀ x y, R x y → Agree J E (f x) (g y) Q) : Agree J E (a >>= f) (b >>= g) Q := by
  intro s t hj
  obtain ⟨hj', hm⟩ := h s t hj
  rw [Action.runFrom_bind, Action.runFrom_bind]
  cases ha : a.runFrom s with
  | mk x s' =>
    cases hb : b.runFrom t with
    | mk y t' =>
      rw [ha, hb] at hj' hm
      cases x with
      | error e =>
        cases y with
        | error e' => exact ⟨hj', hm⟩
        | ok y => exact False.elim hm
      | ok x =>
        cases y with
        | error e' => exact False.elim hm
        | ok y => exact hf x y hm s' t' hj'

theorem ofFault {x : Except Fault α} {y : Except Fault β}
    (h : Matches (fun e e' => E (.fault e) (.fault e')) R x y) :
    Agree J E (Action.ofFault x) (Action.ofFault y) R := by
  intro s t hj
  refine ⟨hj, ?_⟩
  cases x <;> cases y <;> exact h

theorem ofProblem {x : Except Problem α} {y : Except Problem β}
    (h : Matches (fun e e' => E (.problem e) (.problem e')) R x y) :
    Agree J E (Action.ofProblem x) (Action.ofProblem y) R := by
  intro s t hj
  refine ⟨hj, ?_⟩
  cases x <;> cases y <;> exact h

section
variable {same : Prop} {ε : Type} {erase : β → ε} {l : List α}

theorem mapM {f g : α → Action β} (h : ∀ x ∈ l, Agree J E (f x) (g x) (Like same erase)) :
    Agree J E (l.mapM f) (l.mapM g) (Like same (List.map erase)) := by
  induction l with
  | nil => exact .pure (.refl _)
  | cons x rest ih =>
    rw [List.mapM_cons, List.mapM_cons]
    refine (h x (by simp)).bind fun y y' hy => ?_
    exact (ih fun x hx => h x (List.mem_cons_of_mem _ hx)).bind fun ys ys' hys => .pure (hy.cons hys)

theorem foldlM {f g : β → α → Action β}
    (h : ∀ x ∈ l, ∀ b b', Like same erase b b' → Agree J E (f b x) (g b' x) (Like same erase))
    {b b' : β} (hb : Like same erase b b') :
    Agree J E (l.foldlM f b) (l.foldlM g b') (Like same erase) := by
  induction l generalizing b b' with
  | nil => exact .pure hb
  | cons x rest ih =>
    rw [List.foldlM_cons, List.foldlM_cons]
    exact (h x (by simp) b b' hb).bind fun b b' hb =>
      ih (fun x hx => h x (List.mem_cons_of_mem _ hx)) hb

/-- An optional value for which actions are run. -/
theorem optionMapM {f g : α → Action β} {o : Option α}
    (h : ∀ x ∈ o, Agree J E (f x) (g x) (Like same erase)) :
    Agree J E (o.mapM f) (o.mapM g) (Like same (Option.map erase)) := by
  cases o with
  | none => exact .pure (.refl _)
  | some x =>
    have hx : Agree J E (f x) (g x) (Like same erase) := h x rfl
    refine Agree.bind hx fun y y' hy => .pure ⟨?_, fun hsame => ?_⟩
    · rw [Option.map_some, Option.map_some, hy.erased]
    · rw [hy.equal hsame]

end

end Agree

namespace Agrees

variable {α : Type} {J : Session → Session → Prop} {same : Prop}

theorem ofFault (x : Except Fault α) : Agrees J same (Action.ofFault x) (Action.ofFault x) Eq :=
  Agree.ofFault (.refl (fun _ _ => rfl) fun _ _ => rfl)

theorem ofProblem (x : Except Problem α) : Agrees J same (Action.ofProblem x) (Action.ofProblem x) Eq :=
  Agree.ofProblem (.refl (fun _ _ => rfl) fun _ _ => rfl)

end Agrees

end Cascade
