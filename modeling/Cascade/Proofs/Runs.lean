import Cascade.Proofs.Action

/-! # What a run requires and leaves

What an action gives may depend on the session that it leaves, as a plugin is among
those that have been loaded then, and so may what is known of its failures. Such runs
are followed from what is required of the session before them. -/
namespace Cascade

/-- From a session with what is required an action ends with a result that is as it
should be in the session after it, or with such a failure. -/
structure Runs {α : Type} (P : Session → Prop) (a : Action α) (Q : α → Session → Prop)
    (F : Failure → Session → Prop) : Prop where
  outcome : ∀ s, P s → match a.runFrom s with
    | (.ok x, t) => Q x t
    | (.error e, t) => F e t

namespace Runs

variable {α β : Type} {P : Session → Prop} {a : Action α} {Q : α → Session → Prop}
  {F : Failure → Session → Prop}

theorem pure {x : α} (h : ∀ s, P s → Q x s) : Runs P (Pure.pure x) Q F := ⟨h⟩

theorem throw {e : Failure} (h : ∀ s, P s → F e s) : Runs P (throw e : Action α) Q F := ⟨h⟩

theorem bind {f : α → Action β} {Q' : β → Session → Prop} (h : Runs P a Q F)
    (hf : ∀ x, Runs (Q x) (f x) Q' F) : Runs P (a >>= f) Q' F := by
  refine ⟨fun s hs => ?_⟩
  have hr := h.outcome s hs
  rw [Action.runFrom_bind]
  cases ha : a.runFrom s with
  | mk r t =>
    rw [ha] at hr
    cases r with
    | ok x => exact (hf x).outcome t hr
    | error e => exact hr

/-- More may be required, and less be said. -/
theorem imp {P' : Session → Prop} {Q' : α → Session → Prop} {F' : Failure → Session → Prop}
    (h : Runs P a Q F) (hpre : ∀ s, P' s → P s) (hpost : ∀ x t, Q x t → Q' x t)
    (hfail : ∀ e t, F e t → F' e t) : Runs P' a Q' F' := by
  refine ⟨fun s hs => ?_⟩
  have hr := h.outcome s (hpre s hs)
  cases ha : a.runFrom s with
  | mk r t =>
    rw [ha] at hr
    cases r with
    | ok x => exact hpost x t hr
    | error e => exact hfail e t hr

/-- More may be required. -/
theorem require {P' : Session → Prop} (h : Runs P a Q F) (hpre : ∀ s, P' s → P s) : Runs P' a Q F :=
  h.imp hpre (fun _ _ hq => hq) fun _ _ hf => hf

/-- Failures may be said less about. -/
theorem weaken {F' : Failure → Session → Prop} (h : Runs P a Q F) (hfail : ∀ e t, F e t → F' e t) :
    Runs P a Q F' := h.imp (fun _ hp => hp) (fun _ _ hq => hq) hfail

/-- A result is the one of some run. -/
theorem ran (h : Runs P a Q F) :
    Runs P a (fun x t => Q x t ∧ ∃ s u, P s ∧ a.runFrom s = (.ok x, u)) F := by
  refine ⟨fun s hs => ?_⟩
  have hr := h.outcome s hs
  cases ha : a.runFrom s with
  | mk r t =>
    rw [ha] at hr
    cases r with
    | ok x => exact ⟨hr, s, t, hs, ha⟩
    | error e => exact hr

/-- What is known whatever the session is. -/
theorem assuming {C : Prop} (h : C → Runs P a Q F) : Runs (fun s => P s ∧ C) a Q F :=
  ⟨fun s hs => (h hs.2).outcome s hs.1⟩

/-- What is required may depend on the session that a run is from. -/
theorem of_session (h : ∀ s, P s → Runs (· = s) a Q F) : Runs P a Q F :=
  ⟨fun s hs => (h s hs).outcome s rfl⟩

theorem get : Runs P (getThe Session) (fun s t => s = t ∧ P t) F := ⟨fun _ hs => ⟨rfl, hs⟩⟩

theorem shared : Runs P Action.shared (fun store t => store = t.world.shared ∧ P t) F :=
  ⟨fun _ hs => ⟨rfl, hs⟩⟩

theorem modify {f : Session → Session} {Q : Session → Prop} (h : ∀ s, P s → Q (f s)) :
    Runs P (modifyThe Session f) (fun _ => Q) F := ⟨h⟩

theorem ofFault {x : Except Fault α} (h : ∀ f, x = .error f → ∀ s, P s → F (.fault f) s) :
    Runs P (Action.ofFault x) (fun y t => P t ∧ x = .ok y) F := by
  refine ⟨fun s hs => ?_⟩
  cases x with
  | ok y => exact ⟨hs, rfl⟩
  | error f => exact h f rfl s hs

theorem ofProblem {x : Except Problem α} (h : ∀ p, x = .error p → ∀ s, P s → F (.problem p) s) :
    Runs P (Action.ofProblem x) (fun y t => P t ∧ x = .ok y) F := by
  refine ⟨fun s hs => ?_⟩
  cases x with
  | ok y => exact ⟨hs, rfl⟩
  | error p => exact h p rfl s hs

/-- What an action yields that leaves a part of the session as it is, with what is
known of that part. -/
theorem of_yields {γ : Type} {I : Session → Prop} {E : Failure → Prop} {Q : α → Prop} {part : Session → γ}
    (h : ∀ c, Yields (fun s => I s ∧ part s = c) E a Q) (K : γ → Prop) :
    Runs (fun s => I s ∧ K (part s)) a (fun x t => (I t ∧ K (part t)) ∧ Q x) fun e _ => E e := by
  refine ⟨fun s hpre => ?_⟩
  obtain ⟨hs, hk⟩ := hpre
  obtain ⟨⟨ht, hpart⟩, hr⟩ := h (part s) s ⟨hs, rfl⟩
  cases ha : a.runFrom s with
  | mk r t =>
    rw [ha] at ht hpart hr
    cases r with
    | ok x => exact ⟨⟨ht, hpart ▸ hk⟩, hr⟩
    | error e => exact hr

/-! ## Several actions -/

variable {I : Session → Prop} {f : β → Action α} {l : List β}

theorem mapM (h : ∀ x ∈ l, Runs I (f x) (fun _ => I) F) : Runs I (l.mapM f) (fun _ => I) F := by
  induction l with
  | nil => exact Runs.pure fun _ hs => hs
  | cons x rest ih =>
    rw [List.mapM_cons]
    refine (h x (by simp)).bind fun y => ?_
    exact (ih fun x hx => h x (List.mem_cons_of_mem _ hx)).bind fun ys => Runs.pure fun _ hs => hs

theorem foldlM {g : α → β → Action α} {R : α → Session → Prop}
    (h : ∀ x ∈ l, ∀ b, Runs (R b) (g b x) R F) (b : α) : Runs (R b) (l.foldlM g b) R F := by
  induction l generalizing b with
  | nil => exact Runs.pure fun _ hs => hs
  | cons x rest ih =>
    rw [List.foldlM_cons]
    exact (h x (by simp) b).bind fun b => ih (fun x hx => h x (List.mem_cons_of_mem _ hx)) b

/-- An optional value for which an action is run. -/
theorem optionMapM {o : Option β} {Q : α → Session → Prop}
    (h : ∀ x ∈ o, Runs I (f x) (fun y t => I t ∧ Q y t) F) :
    Runs I (o.mapM f) (fun y t => I t ∧ ∀ x ∈ y, Q x t) F := by
  cases o with
  | none => exact Runs.pure fun _ hs => ⟨hs, by simp⟩
  | some x =>
    refine Runs.bind (h x rfl) fun y => Runs.pure fun _ hs => ⟨hs.1, ?_⟩
    intro z hz
    cases hz
    exact hs.2

theorem optionMapM_ofFault {o : Option β} {g : β → Except Fault α} {y : Option α} (h : o.mapM g = .ok y) :
    Runs I (o.mapM fun x => Action.ofFault (g x)) (fun z t => I t ∧ z = y) F := by
  refine ⟨fun s hs => ?_⟩
  cases o with
  | none =>
    cases h
    exact ⟨hs, rfl⟩
  | some x =>
    cases hx : g x with
    | ok z =>
      rw [Option.mapM_some, hx] at h
      cases h
      rw [Option.mapM_some, hx]
      exact ⟨hs, rfl⟩
    | error f =>
      rw [Option.mapM_some, hx] at h
      cases h

end Runs

end Cascade
