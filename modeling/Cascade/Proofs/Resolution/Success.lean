import Cascade.Proofs.Resolution.Independence

/-! # What a successful resolution is made of

An action that succeeds does so in all its steps. The elements of a configuration
are those of everything that it extends, its own, and those of its overrides, and
it has elements just when all of these do. -/
namespace Cascade

/-- In all coherent sessions an action ends as a computation does that needs no session. -/
structure Computes {α : Type} (r : Resolver) (w : World) (a : Action α) (x : Except Failure α) : Prop where
  settled : Settled r w a
  outcome : a.outcome w = x

namespace Computes

variable {α β : Type} {r : Resolver} {w : World} {a : Action α} {x : Except Failure α}

theorem of_settled (h : Settled r w a) : Computes r w a (a.outcome w) := ⟨h, rfl⟩

theorem pure (y : α) : Computes r w (Pure.pure y) (.ok y) := ⟨.pure y, rfl⟩

theorem throw (e : Failure) : Computes r w (throw e : Action α) (.error e) := ⟨.throw e, rfl⟩

theorem ofProblem (x : Except Problem α) : Computes r w (Action.ofProblem x) (x.mapError .problem) :=
  ⟨.ofProblem x, rfl⟩

theorem bind {f : α → Action β} {g : α → Except Failure β} (h : Computes r w a x)
    (hf : ∀ y, Computes r w (f y) (g y)) : Computes r w (a >>= f) (x >>= g) := by
  refine ⟨h.settled.bind fun y _ => (hf y).settled, ?_⟩
  rw [h.settled.outcome_bind fun y _ => (hf y).settled, h.outcome]
  congr 1
  exact funext fun y => (hf y).outcome

theorem shared {f : Shared → Action β} {y : Except Failure β} (h : Computes r w (f w.shared) y) :
    Computes r w (Action.shared >>= f) y :=
  ⟨Settled.shared.bind fun store hs => (show w.shared = store from Except.ok.inj hs) ▸ h.settled,
    h.outcome⟩

theorem mapM {f : α → Action β} {g : α → Except Failure β} (h : ∀ y, Computes r w (f y) (g y))
    (l : List α) : Computes r w (l.mapM f) (l.mapM g) := by
  refine ⟨.mapM fun y _ => (h y).settled, ?_⟩
  rw [Settled.outcome_mapM fun y _ => (h y).settled]
  congr 1
  exact funext fun y => (h y).outcome

end Computes

namespace Resolution

variable {r : Resolver} {w : World} {ctx : Context}

theorem ownElements_settled (hw : w.ModulesApart) (m : Entries) (ctx : Context) :
    Settled r w (ownElements r w.shared m ctx) :=
  settled_of_agrees (ownElements_agrees hw.interchangeable m (.refl ctx)) fun _ _ h => h.equal trivial

theorem elements_settled (hw : w.ModulesApart) {extended : String → Context → Action (List Element)}
    (hx : ∀ reference c, Settled r w (extended reference c)) (depth : Nat) (config : Value)
    (ctx : Context) : Settled r w (elements r extended depth config ctx) := by
  have hagree : ExtendedAgree (CoherentPair r w) True extended extended := by
    rintro reference c _ ⟨name, rfl, hname⟩
    have : c.named name = c := by rw [← hname trivial]; rfl
    rw [this]
    exact ((hx reference c).agrees True).mono fun _ _ heq => heq ▸ .refl _
  exact settled_of_agrees (elements_agrees hw.interchangeable hagree depth config (.refl ctx)) fun _ _ h =>
    h.equal trivial

/-- How an override of a configuration ends. -/
def overrideOutcome (r : Resolver) (w : World) (extended : String → Context → Action (List Element))
    (depth : Nat) (ctx : Context) (override : Value × Nat) : Except Failure (List Element) := do
  let c ← (overrideContext w.shared override.1 (ctx.atOverride override.2)).mapError .problem
  (elements r extended depth override.1 c).outcome w

theorem elements_computes (hw : w.ModulesApart) {extended : String → Context → Action (List Element)}
    (hx : ∀ reference c, Settled r w (extended reference c)) {depth : Nat} {config : Value}
    {m : Entries} (hm : w.shared.view config = .mapping m) :
    Computes r w (elements r extended (depth + 1) config ctx) (do
      (checkMembers w.shared m ctx).mapError .problem
      let names ← (references w.shared m ctx).mapError .problem
      let outer ← names.mapM fun reference => (extended reference ctx).outcome w
      let own ← (ownElements r w.shared m ctx).outcome w
      let items ← (overrides w.shared m ctx).mapError .problem
      let inner ← items.zipIdx.mapM (overrideOutcome r w extended depth ctx)
      return outer.flatten ++ own ++ inner.flatten) := by
  unfold elements
  refine .shared ?_
  rw [hm]
  refine (Computes.ofProblem _).bind fun _ => ?_
  refine (Computes.ofProblem _).bind fun names => ?_
  refine (Computes.mapM (fun reference => .of_settled (hx reference ctx)) names).bind fun outer => ?_
  refine (Computes.of_settled (ownElements_settled hw m ctx)).bind fun own => ?_
  refine (Computes.ofProblem _).bind fun items => ?_
  refine (Computes.mapM (fun item => ?_) items.zipIdx).bind fun inner => .pure _
  exact (Computes.ofProblem _).bind fun c => .of_settled (elements_settled hw hx depth item.1 c)

theorem elements_of_not_mapping {extended : String → Context → Action (List Element)} {depth : Nat}
    {config : Value} (hm : ∀ m, w.shared.view config ≠ .mapping m) :
    Computes r w (elements r extended (depth + 1) config ctx)
      (.error (.problem (.notAMapping ctx.name (w.shared.view config).typeName))) := by
  unfold elements
  refine .shared ?_
  cases hv : w.shared.view config with
  | mapping m => exact absurd hv (hm m)
  | _ => exact .throw _

/-- A configuration has elements just when everything that it extends, the
configuration itself and all its overrides have. -/
theorem elements_eq_ok (hw : w.ModulesApart) {extended : String → Context → Action (List Element)}
    (hx : ∀ reference c, Settled r w (extended reference c)) {depth : Nat} {config : Value}
    {es : List Element} : (elements r extended (depth + 1) config ctx).outcome w = .ok es ↔
      ∃ m names outer own items inner, w.shared.view config = .mapping m ∧
        checkMembers w.shared m ctx = .ok () ∧
        references w.shared m ctx = .ok names ∧
        names.mapM (fun reference => (extended reference ctx).outcome w) = .ok outer ∧
        (ownElements r w.shared m ctx).outcome w = .ok own ∧
        overrides w.shared m ctx = .ok items ∧
        items.zipIdx.mapM (overrideOutcome r w extended depth ctx) = .ok inner ∧
        es = outer.flatten ++ own ++ inner.flatten := by
  by_cases hm : ∃ m, w.shared.view config = .mapping m
  · obtain ⟨m, hm⟩ := hm
    rw [(elements_computes hw hx hm).outcome]
    simp only [bind_eq_ok, mapError_eq_ok, hm, Value.mapping.injEq]
    constructor
    · rintro ⟨_, hcheck, names, hnames, outer, houter, own, hown, items, hitems, inner, hinner, h⟩
      exact ⟨m, names, outer, own, items, inner, rfl, hcheck, hnames, houter, hown, hitems, hinner,
        (Except.ok.inj h).symm⟩
    · rintro ⟨_, names, outer, own, items, inner, rfl, hcheck, hnames, houter, hown, hitems, hinner, rfl⟩
      exact ⟨(), hcheck, names, hnames, outer, houter, own, hown, items, hitems, inner, hinner, rfl⟩
  · have hnone : ∀ m, w.shared.view config ≠ .mapping m := fun m h => hm ⟨m, h⟩
    rw [(elements_of_not_mapping (r := r) hnone).outcome]
    refine ⟨fun h => (nomatch h), ?_⟩
    rintro ⟨m, _, _, _, _, _, h, -⟩
    exact absurd h (hnone m)

end Resolution

end Cascade
