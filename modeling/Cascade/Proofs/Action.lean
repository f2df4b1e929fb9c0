import Cascade.Session
import Cascade.Proofs.Result

/-! # Runs of actions

An action is run from a session, which it leaves in another state whether or not
it succeeds. Such runs are followed by an invariant of sessions, a property of
results and a property of failures, one operation at a time. -/
namespace Cascade

namespace Action

variable {α β : Type}

/-- The outcome of an action and the session after it. -/
def runFrom (a : Action α) (s : Session) : Except Failure α × Session :=
  StateT.run (ExceptT.run a) s

variable (s : Session)

@[simp] theorem runFrom_pure (x : α) : (pure x : Action α).runFrom s = (.ok x, s) := rfl

@[simp] theorem runFrom_throw (e : Failure) : (throw e : Action α).runFrom s = (.error e, s) := rfl

theorem runFrom_bind (a : Action α) (f : α → Action β) : (a >>= f).runFrom s =
    match a.runFrom s with
    | (.ok x, t) => (f x).runFrom t
    | (.error e, t) => (.error e, t) := by
  show StateT.run (StateT.bind (ExceptT.run a) (ExceptT.bindCont f)) s = _
  simp only [StateT.run, StateT.bind, runFrom, Bind.bind]
  cases h : (ExceptT.run a) s with
  | mk r t => cases r <;> rfl

@[simp] theorem runFrom_get : (getThe Session : Action Session).runFrom s = (.ok s, s) := rfl

@[simp] theorem runFrom_modify (f : Session → Session) :
    (modifyThe Session f : Action Unit).runFrom s = (.ok (), f s) := rfl

@[simp] theorem runFrom_world : world.runFrom s = (.ok s.world, s) := rfl

@[simp] theorem runFrom_shared : shared.runFrom s = (.ok s.world.shared, s) := rfl

@[simp] theorem runFrom_debug (source : Source) (message : String) :
    (debug source message).runFrom s =
      (.ok (), { s with journal := s.journal ++ [⟨Level.debug, source, message⟩] }) := rfl

@[simp] theorem runFrom_ofFault (x : Except Fault α) :
    (ofFault x).runFrom s = (x.mapError .fault, s) := rfl

@[simp] theorem runFrom_ofProblem (x : Except Problem α) :
    (ofProblem x).runFrom s = (x.mapError .problem, s) := rfl

/-- A run that ends with a result, of which something is known. -/
theorem exists_run {a : Action α} {f : α → β} {b : β} (h : (a.runFrom s).1.toOption.map f = some b) :
    ∃ x t, a.runFrom s = (.ok x, t) ∧ f x = b := by
  obtain ⟨x, hx, hf⟩ := exists_ok_of_map h
  exact ⟨x, (a.runFrom s).2, Prod.ext hx rfl, hf⟩

end Action

/-- From a session with the invariant an action keeps it, and what it ends with
is as it should be, a result or a failure. -/
def Yields {α : Type} (I : Session → Prop) (E : Failure → Prop) (a : Action α) (Q : α → Prop) : Prop :=
  ∀ s, I s → I (a.runFrom s).2 ∧
    match (a.runFrom s).1 with
    | .ok x => Q x
    | .error e => E e

namespace Yields

variable {α β : Type} {I : Session → Prop} {E : Failure → Prop} {a : Action α} {Q Q' : α → Prop}

theorem pure {x : α} (h : Q x) : Yields I E (Pure.pure x) Q := fun _ hs => ⟨hs, h⟩

theorem throw {e : Failure} (h : E e) : Yields I E (throw e : Action α) Q := fun _ hs => ⟨hs, h⟩

theorem mono (h : Yields I E a Q) (hq : ∀ x, Q x → Q' x) : Yields I E a Q' := by
  intro s hs
  obtain ⟨ht, hr⟩ := h s hs
  refine ⟨ht, ?_⟩
  cases ha : (a.runFrom s).1 with
  | ok x => rw [ha] at hr; exact hq x hr
  | error e => rw [ha] at hr; exact hr

/-- Failures may be said less about. -/
theorem weaken {E' : Failure → Prop} (h : Yields I E a Q) (he : ∀ e, E e → E' e) : Yields I E' a Q := by
  intro s hs
  obtain ⟨ht, hr⟩ := h s hs
  refine ⟨ht, ?_⟩
  cases ha : (a.runFrom s).1 with
  | ok x => rw [ha] at hr; exact hr
  | error e => rw [ha] at hr; exact he e hr

/-- A result is the one of some run. -/
theorem ran (h : Yields I E a Q) :
    Yields I E a fun x => Q x ∧ ∃ s t, I s ∧ a.runFrom s = (.ok x, t) := by
  intro s hs
  obtain ⟨ht, hr⟩ := h s hs
  refine ⟨ht, ?_⟩
  cases ha : a.runFrom s with
  | mk r t =>
    rw [ha] at hr
    cases r with
    | ok x => exact ⟨hr, s, t, hs, ha⟩
    | error e => exact hr

theorem bind {f : α → Action β} {R : β → Prop} (h : Yields I E a Q)
    (hf : ∀ x, Q x → Yields I E (f x) R) : Yields I E (a >>= f) R := by
  intro s hs
  obtain ⟨ht, hr⟩ := h s hs
  rw [Action.runFrom_bind]
  cases ha : a.runFrom s with
  | mk r t =>
    rw [ha] at ht hr
    cases r with
    | ok x => exact hf x hr t ht
    | error e => exact ⟨ht, hr⟩

theorem get : Yields I E (getThe Session) I := fun _ hs => ⟨hs, hs⟩

theorem modify {f : Session → Session} (h : ∀ s, I s → I (f s)) :
    Yields I E (modifyThe Session f) fun _ => True := fun s hs => ⟨h s hs, trivial⟩

theorem ofFault {x : Except Fault α} (hq : ∀ y, x = .ok y → Q y)
    (he : ∀ e, x = .error e → E (.fault e)) : Yields I E (Action.ofFault x) Q := by
  intro s hs
  refine ⟨hs, ?_⟩
  cases x with
  | ok y => exact hq y rfl
  | error e => exact he e rfl

theorem ofProblem {x : Except Problem α} (hq : ∀ y, x = .ok y → Q y)
    (he : ∀ e, x = .error e → E (.problem e)) : Yields I E (Action.ofProblem x) Q := by
  intro s hs
  refine ⟨hs, ?_⟩
  cases x with
  | ok y => exact hq y rfl
  | error e => exact he e rfl

theorem mapM {f : α → Action β} {R : β → Prop} {l : List α}
    (h : ∀ x ∈ l, Yields I E (f x) R) : Yields I E (l.mapM f) fun ys => ∀ y ∈ ys, R y := by
  induction l with
  | nil => exact Yields.pure (by simp)
  | cons x rest ih =>
    rw [List.mapM_cons]
    refine (h x (by simp)).bind fun y hy => ?_
    refine (ih fun x hx => h x (List.mem_cons_of_mem _ hx)).bind fun ys hys => ?_
    refine .pure fun z hz => ?_
    rcases List.mem_cons.mp hz with rfl | hz
    · exact hy
    · exact hys z hz

/-- A list of actions each of which gives what is expected at its place. -/
theorem mapM_getElem? {f : α → Action β} {Q : Nat → β → Prop} {l : List α}
    (h : ∀ i x, l[i]? = some x → Yields I E (f x) (Q i)) :
    Yields I E (l.mapM f) fun ys => ∀ i y, ys[i]? = some y → Q i y := by
  induction l generalizing Q with
  | nil => exact Yields.pure (by simp)
  | cons x rest ih =>
    rw [List.mapM_cons]
    refine (h 0 x rfl).bind fun y hy => ?_
    refine (ih (Q := fun i => Q (i + 1)) fun i x hx => h (i + 1) x hx).bind fun ys hys => .pure ?_
    intro i z hz
    cases i with
    | zero =>
      cases hz
      exact hy
    | succ i => exact hys i z hz

theorem foldlM {f : β → α → Action β} {R : β → Prop} {l : List α}
    (h : ∀ x ∈ l, ∀ b, R b → Yields I E (f b x) R) {b : β} (hb : R b) :
    Yields I E (l.foldlM f b) R := by
  induction l generalizing b with
  | nil => exact Yields.pure hb
  | cons x rest ih =>
    rw [List.foldlM_cons]
    exact (h x (by simp) b hb).bind fun b hb => ih (fun x hx => h x (List.mem_cons_of_mem _ hx)) hb

/-- A list of actions each of which gives a value that is known. -/
theorem mapM_eq {f : α → Action β} {g : α → β} {l : List α}
    (h : ∀ x ∈ l, Yields I E (f x) (· = g x)) : Yields I E (l.mapM f) (· = l.map g) := by
  induction l with
  | nil => exact Yields.pure rfl
  | cons x rest ih =>
    rw [List.mapM_cons]
    refine (h x (by simp)).bind fun y hy => ?_
    refine (ih fun x hx => h x (List.mem_cons_of_mem _ hx)).bind fun ys hys => .pure ?_
    rw [hy, hys, List.map_cons]

/-- An optional value for which an action is run. -/
theorem optionMapM {f : α → Action β} {R : β → Prop} {o : Option α}
    (h : ∀ x ∈ o, Yields I E (f x) R) : Yields I E (o.mapM f) fun y => ∀ x ∈ y, R x := by
  cases o with
  | none => exact Yields.pure (by simp)
  | some x =>
    refine Yields.bind (Q := R) (h x rfl) fun y hy => ?_
    exact .pure (by simpa using hy)

end Yields

/-- Whatever an action gives has a property. -/
abbrev Always {α : Type} (a : Action α) (Q : α → Prop) : Prop :=
  Yields (fun _ => True) (fun _ => True) a Q

namespace Always

variable {α β : Type} {a : Action α} {Q : β → Prop}

theorem any (a : Action α) : Always a fun _ => True := by
  intro s _
  refine ⟨trivial, ?_⟩
  split <;> trivial

theorem next {f : α → Action β} (hf : ∀ x, Always (f x) Q) : Always (a >>= f) Q :=
  (any a).bind fun x _ => hf x

end Always

end Cascade
