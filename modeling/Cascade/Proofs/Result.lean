import Mathlib.Data.List.Forall2
import Cascade.Journal

/-! # Results of computations

Binding on a known result, and what is known about the parts of a computation
when the whole one is known to succeed or to fail. A logged computation is
followed through its result alone. -/
namespace Cascade

section
variable {ε α β : Type}

@[simp] theorem ok_bind (a : α) (f : α → Except ε β) : (Except.ok a >>= f) = f a := rfl

@[simp] theorem error_bind (e : ε) (f : α → Except ε β) : (Except.error e >>= f) = .error e := rfl

theorem bind_eq_ok {x : Except ε α} {f : α → Except ε β} {b : β} :
    (x >>= f) = .ok b ↔ ∃ a, x = .ok a ∧ f a = .ok b := by
  cases x <;> simp

@[simp] theorem pure_eq_ok (a : α) : (pure a : Except ε α) = .ok a := rfl

@[simp] theorem throw_eq_error (e : ε) : (throw e : Except ε α) = .error e := rfl

@[simp] theorem map_ok (a : α) (f : α → β) : (Except.ok a : Except ε α).map f = .ok (f a) := rfl

@[simp] theorem map_error (e : ε) (f : α → β) : (Except.error e : Except ε α).map f = .error e := rfl

@[simp] theorem mapError_ok {ε' : Type} (a : α) (f : ε → ε') :
    (Except.ok a : Except ε α).mapError f = .ok a := rfl

@[simp] theorem mapError_error {ε' : Type} (e : ε) (f : ε → ε') :
    (Except.error e : Except ε α).mapError f = .error (f e) := rfl

theorem map_eq_ok {x : Except ε α} {f : α → β} {b : β} :
    x.map f = .ok b ↔ ∃ a, x = .ok a ∧ f a = b := by
  cases x <;> simp

theorem exists_map {x : Except ε α} {f : α → β} : (∃ y, x.map f = .ok y) ↔ ∃ a, x = .ok a := by
  cases x with
  | error e => simp
  | ok a => simp

/-- A result of which something is known. -/
theorem exists_ok_of_map {x : Except ε α} {f : α → β} {b : β} (h : x.toOption.map f = some b) :
    ∃ a, x = .ok a ∧ f a = b := by
  cases x with
  | ok a => exact ⟨a, rfl, Option.some.inj h⟩
  | error e => cases h

theorem mapError_eq_ok {ε' : Type} {x : Except ε α} {f : ε → ε'} {a : α} :
    x.mapError f = .ok a ↔ x = .ok a := by
  cases x <;> simp

/-! ## One result for each item -/

section
variable {f g : α → Except ε β} {l : List α} {ys : List β}

/-- Items are made one after the other. -/
theorem mapM_eq_ok_iff : l.mapM f = .ok ys ↔ List.Forall₂ (fun x y => f x = .ok y) l ys := by
  induction l generalizing ys with
  | nil => simp [eq_comm]
  | cons x rest ih =>
    rw [List.mapM_cons, bind_eq_ok]
    constructor
    · intro h
      obtain ⟨y, hy, h⟩ := h
      obtain ⟨others, hothers, h⟩ := bind_eq_ok.mp h
      exact Except.ok.inj h ▸ .cons hy (ih.mp hothers)
    · intro h
      cases h with
      | @cons _ y _ others hy hothers =>
        exact ⟨y, hy, by rw [ih.mpr hothers]; rfl⟩

theorem exists_mapM : (∃ ys, l.mapM f = .ok ys) ↔ ∀ x ∈ l, ∃ y, f x = .ok y := by
  induction l with
  | nil => simp
  | cons x rest ih =>
    rw [List.forall_mem_cons, ← ih, List.mapM_cons]
    simp only [bind_eq_ok]
    constructor
    · intro h
      obtain ⟨_, y, hy, others, hothers, -⟩ := h
      exact ⟨⟨y, hy⟩, others, hothers⟩
    · intro h
      obtain ⟨⟨y, hy⟩, others, hothers⟩ := h
      exact ⟨_, y, hy, others, hothers, rfl⟩

theorem exists_left_of_forall₂ {Q : α → β → Prop} (h : List.Forall₂ Q l ys) {y : β} (hy : y ∈ ys) :
    ∃ x ∈ l, Q x y := by
  induction h with
  | nil => cases hy
  | @cons x _ _ _ hq _ ih =>
    rcases List.mem_cons.mp hy with rfl | hy
    · exact ⟨x, by simp, hq⟩
    · obtain ⟨x, hmem, hq⟩ := ih hy
      exact ⟨x, List.mem_cons_of_mem _ hmem, hq⟩

theorem exists_left_of_mapM (h : l.mapM f = .ok ys) {y : β} (hy : y ∈ ys) : ∃ x ∈ l, f x = .ok y :=
  exists_left_of_forall₂ (mapM_eq_ok_iff.mp h) hy

theorem mapM_mono (hfg : ∀ x ∈ l, ∀ y, f x = .ok y → g x = .ok y) (h : l.mapM f = .ok ys) : l.mapM g = .ok ys := by
  induction l generalizing ys with
  | nil => exact h
  | cons x rest ih =>
    obtain ⟨hx, hrest⟩ := List.forall_mem_cons.mp hfg
    rw [List.mapM_cons] at h ⊢
    obtain ⟨y, hy, h⟩ := bind_eq_ok.mp h
    obtain ⟨others, hothers, h⟩ := bind_eq_ok.mp h
    rw [hx y hy, ok_bind, ih hrest hothers]
    exact h

theorem mapM_eq_self {f : α → Except ε α} (h : ∀ x ∈ l, f x = .ok x) : l.mapM f = .ok l := by
  induction l with
  | nil => rfl
  | cons x rest ih =>
    obtain ⟨hx, hrest⟩ := List.forall_mem_cons.mp h
    rw [List.mapM_cons, hx, ok_bind, ih hrest]
    rfl

theorem mapM_ok_of_mem (h : l.mapM f = .ok ys) {x : α} (hx : x ∈ l) : ∃ y, f x = .ok y :=
  exists_mapM.mp ⟨ys, h⟩ x hx

/-- What every step keeps, a fold keeps. -/
theorem foldlM_invariant {P : β → Prop} {step : β → α → Except ε β} {b b' : β}
    (hs : ∀ b x b', step b x = .ok b' → P b → P b') (h : l.foldlM step b = .ok b') (hb : P b) : P b' := by
  induction l generalizing b with
  | nil =>
    cases h
    exact hb
  | cons x rest ih =>
    rw [List.foldlM_cons] at h
    obtain ⟨next, hnext, h⟩ := bind_eq_ok.mp h
    exact ih h (hs b x next hnext hb)

/-- A fold fails at the first step that does. -/
theorem foldlM_eq_error {step : β → α → Except ε β} {b : β} {e : ε} : l.foldlM step b = .error e ↔
    ∃ before x after b', l = before ++ x :: after ∧ before.foldlM step b = .ok b' ∧ step b' x = .error e := by
  induction l generalizing b with
  | nil => simp
  | cons y rest ih =>
    rw [List.foldlM_cons]
    cases hy : step b y with
    | error e' =>
      constructor
      · intro h
        exact ⟨[], y, rest, b, rfl, rfl, hy.trans h⟩
      · intro h
        obtain ⟨before, x, after, b', heq, hbefore, hx⟩ := h
        cases before with
        | nil =>
          cases hbefore
          cases heq
          exact hy.symm.trans hx
        | cons z before =>
          cases heq
          rw [List.foldlM_cons, hy] at hbefore
          cases hbefore
    | ok next =>
      rw [ok_bind, ih]
      constructor
      · intro h
        obtain ⟨before, x, after, b', rfl, hbefore, hx⟩ := h
        exact ⟨y :: before, x, after, b', rfl, by rw [List.foldlM_cons, hy]; exact hbefore, hx⟩
      · intro h
        obtain ⟨before, x, after, b', heq, hbefore, hx⟩ := h
        cases before with
        | nil =>
          cases hbefore
          cases heq
          cases hy.symm.trans hx
        | cons z before =>
          cases heq
          rw [List.foldlM_cons, hy] at hbefore
          exact ⟨before, x, after, b', rfl, hbefore, hx⟩

end

/-! ## Failures -/

/-- What is known of how a computation fails. -/
def FailsAs (E : ε → Prop) (x : Except ε α) : Prop := ∀ e, x = .error e → E e

namespace FailsAs

variable {E : ε → Prop} {x : Except ε α}

theorem ok (a : α) : FailsAs E (.ok a) := fun _ h => nomatch h

theorem error {e : ε} (h : E e) : FailsAs E (.error e : Except ε α) := by
  intro e' he
  cases he
  exact h

theorem bind {f : α → Except ε β} (h : FailsAs E x) (hf : ∀ a, FailsAs E (f a)) : FailsAs E (x >>= f) := by
  cases x with
  | ok a => exact hf a
  | error e =>
    intro e' he
    cases he
    exact h e rfl

theorem mapError {ε' : Type} {y : Except ε' α} {f : ε' → ε} (h : ∀ e, y = .error e → E (f e)) :
    FailsAs E (y.mapError f) := by
  cases y with
  | ok a => exact ok a
  | error e => exact error (h e rfl)

end FailsAs

end

namespace Logged

variable {α β γ : Type}

@[simp] theorem result_ofFault (x : Except Fault α) : (ofFault x).result = x.mapError .fault := rfl

/-- A fold is followed through its results. -/
theorem result_foldlM (f : β → γ → Logged β) (b : β) (l : List γ) :
    (l.foldlM f b).result = l.foldlM (fun b c => (f b c).result) b := by
  induction l generalizing b with
  | nil => rfl
  | cons c rest ih =>
    rw [List.foldlM_cons, List.foldlM_cons, result_bind]
    congr 1
    funext b'
    exact ih b'

end Logged

end Cascade
