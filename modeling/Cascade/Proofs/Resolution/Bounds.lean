import Cascade.Proofs.Resolution.Termination

/-! # Bounds that do not matter

How many configurations may extend each other is bounded for the sake of resolution
coming to an end. Every bound that is wide enough for a world gives the same run. -/
namespace Cascade

/-- From every session with the invariant both actions make the same run, which keeps it. -/
def Coincide {α : Type} (I : Session → Prop) (a b : Action α) (Q : α → Prop) : Prop :=
  ∀ s, I s → b.runFrom s = a.runFrom s ∧ I (a.runFrom s).2 ∧ ∀ x, (a.runFrom s).1 = .ok x → Q x

namespace Coincide

variable {α β : Type} {I : Session → Prop} {a b : Action α} {Q : α → Prop} {R : β → Prop}

theorem of_yields {E : Failure → Prop} (h : Yields I E a Q) : Coincide I a a Q := by
  intro s hs
  obtain ⟨ht, hr⟩ := h s hs
  refine ⟨rfl, ht, fun x hx => ?_⟩
  rw [hx] at hr
  exact hr

theorem pure {x : α} (h : Q x) : Coincide I (Pure.pure x) (Pure.pure x) Q := by
  refine fun s hs => ⟨rfl, hs, fun y hy => ?_⟩
  cases hy
  exact h

theorem throw (e : Failure) : Coincide I (throw e : Action α) (throw e) Q :=
  fun _ hs => ⟨rfl, hs, fun _ h => nomatch h⟩

theorem bind {f g : α → Action β} (h : Coincide I a b Q) (hf : ∀ x, Q x → Coincide I (f x) (g x) R) :
    Coincide I (a >>= f) (b >>= g) R := by
  intro s hs
  obtain ⟨heq, ht, hr⟩ := h s hs
  rw [Action.runFrom_bind, Action.runFrom_bind, heq]
  cases ha : a.runFrom s with
  | mk x t =>
    rw [ha] at ht hr
    cases x with
    | ok x => exact hf x (hr x rfl) t ht
    | error e => exact ⟨rfl, ht, fun _ h => nomatch h⟩

theorem mapM {f g : α → Action β} {l : List α} (h : ∀ x ∈ l, Coincide I (f x) (g x) R) :
    Coincide I (l.mapM f) (l.mapM g) fun _ => True := by
  induction l with
  | nil => exact .pure trivial
  | cons x rest ih =>
    rw [List.mapM_cons, List.mapM_cons]
    refine (h x (by simp)).bind fun y _ => ?_
    exact (ih fun x hx => h x (List.mem_cons_of_mem _ hx)).bind fun ys _ => .pure trivial

end Coincide

namespace Resolution

variable {r : Resolver} {w : World} {texts : List String}

theorem coincide_of_gives {α : Type} {a : Action α} {Q : α → Prop} (h : Gives w (fun _ => True) a Q) :
    Coincide (Session.Sourced w) a a Q :=
  .of_yields h

/-- Where what is extended coincides, configurations with the same chain do. -/
theorem elements_coincide (hcov : Covers w texts) {chain : List String}
    {extended extended' : String → Context → Action (List Element)}
    (hext : ∀ reference ∈ texts, ∀ ctx : Context, ctx.chain = chain →
      Coincide (Session.Sourced w) (extended reference ctx) (extended' reference ctx) fun _ => True)
    {depth : Nat} {config : Value} {ctx : Context} (hf : Probe.texts.found config ⊆ texts)
    (hc : ctx.chain = chain) : Coincide (Session.Sourced w) (elements r extended depth config ctx)
      (elements r extended' depth config ctx) fun _ => True := by
  induction depth generalizing config ctx with
  | zero => exact .throw _
  | succ depth ih =>
    unfold elements
    refine (coincide_of_gives Gives.shared).bind fun store hs => ?_
    subst hs
    split
    · rename_i m hm
      refine (coincide_of_gives (ofProblem_gives (checks_checkMembers _ _ _))).bind fun _ _ => ?_
      refine (coincide_of_gives (ofProblem_gives (checks_references _ _ _))).bind fun names hn => ?_
      refine (Coincide.mapM fun name hname =>
        hext name (references_found hcov hm hf hn hname) ctx hc).bind fun _ _ => ?_
      refine (coincide_of_gives (ownElements_gives r m ctx)).bind fun _ _ => ?_
      refine (coincide_of_gives (ofProblem_gives (checks_overrides _ _ _))).bind fun items ho => ?_
      refine (Coincide.mapM (R := fun _ => True) fun override hover => ?_).bind fun _ _ => .pure trivial
      refine (coincide_of_gives (ofProblem_gives (checks_overrideContext _ _ _))).bind
        fun ctx' hctx => ?_
      obtain ⟨_, _, _, -, -, -, rfl⟩ := overrideContext_eq_ok.mp hctx
      exact ih (found_override hcov (overrideOf_of_mem_zipIdx hm ho hover) hf) hc
    · exact .throw _

/-- All bounds above the number of identities that are left give the same run. -/
theorem elementsTo_coincide (hcov : Covers w texts) {steps steps' : Nat} {config : Value} {ctx : Context}
    (hs : unused (identities w texts) ctx.chain < steps) (hs' : unused (identities w texts) ctx.chain < steps')
    (hf : Probe.texts.found config ⊆ texts) (hd : ctx.chain.Nodup) : Coincide (Session.Sourced w)
      (elementsTo r (loadExtended r) steps config ctx) (elementsTo r (loadExtended r) steps' config ctx)
      fun _ => True := by
  induction steps generalizing steps' config ctx with
  | zero => omega
  | succ steps ih =>
    obtain ⟨steps', rfl⟩ : ∃ n, steps' = n + 1 := ⟨steps' - 1, by omega⟩
    unfold elementsTo
    refine (coincide_of_gives Gives.shared).bind fun store hstore => ?_
    refine elements_coincide hcov (fun reference href ctx' hctx' => ?_) hf rfl
    rw [← hctx'] at hd hs hs'
    have hclose : Closes w (fun _ => True) reference ctx' := fun _ _ _ => trivial
    refine (coincide_of_gives (loadExtended_gives hcov r href hclose)).bind fun e he => ?_
    exact ih (Nat.lt_of_lt_of_le he.unused_lt (Nat.le_of_lt_succ hs))
      (Nat.lt_of_lt_of_le he.unused_lt (Nat.le_of_lt_succ hs')) he.content (he.nodup hd)

end Resolution

end Cascade
