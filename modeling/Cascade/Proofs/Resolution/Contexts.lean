import Cascade.Proofs.Resolution.Derivation

/-! # Elements in other contexts

A configuration can be reached on many ways. The way there gives it a name and a
chain, and both leave its elements as they are: the name stands in elements and in
failures only, and a chain is no obstacle if a longer one is none. -/
namespace Cascade

/-- Where the first action succeeds, the second one does from the same session,
with a related result, and leaves the same session. -/
def Follows {α : Type} (a b : Action α) (R : α → α → Prop) : Prop :=
  ∀ s x t, a.runFrom s = (.ok x, t) → ∃ y, b.runFrom s = (.ok y, t) ∧ R x y

namespace Follows

variable {α β : Type} {a b : Action β} {R : β → β → Prop}

theorem throw (e : Failure) : Follows (throw e) b R := fun _ _ _ h => nomatch h

theorem pure {x y : β} (h : R x y) : Follows (Pure.pure x) (Pure.pure y) R := by
  rintro s _ t heq
  cases heq
  exact ⟨y, rfl, h⟩

theorem bind {Q : α → α → Prop} {c d : Action α} {f g : α → Action β} (h : Follows c d Q)
    (hf : ∀ x y, Q x y → Follows (f x) (g y) R) : Follows (c >>= f) (d >>= g) R := by
  intro s x t hrun
  rw [Action.runFrom_bind] at hrun ⊢
  cases hc : c.runFrom s with
  | mk found u =>
    rw [hc] at hrun
    cases found with
    | error e => cases hrun
    | ok z =>
      obtain ⟨z', hz', hq⟩ := h s z u hc
      obtain ⟨y, hy, hr⟩ := hf z z' hq u x t hrun
      refine ⟨y, ?_, hr⟩
      rw [hz']
      exact hy

/-- The same step comes first in both. -/
theorem next {c : Action α} {f g : α → Action β} (hf : ∀ x, Follows (f x) (g x) R) :
    Follows (c >>= f) (c >>= g) R :=
  bind (Q := Eq) (fun _ x _ h => ⟨x, h, rfl⟩) fun x _ heq => heq ▸ hf x

theorem outcome {w : World} (h : Follows a b R) {x : β} (hx : a.outcome w = .ok x) :
    ∃ y, b.outcome w = .ok y ∧ R x y := by
  obtain ⟨y, hy, hr⟩ := h (Session.start w) x (a.runFrom (Session.start w)).2 (Prod.ext hx rfl)
  exact ⟨y, congrArg Prod.fst hy, hr⟩

end Follows

namespace Resolution

variable {r : Resolver} {w : World} {config : Value} {ctx ctx' : Context} {chain : List String}
  {es : List Element}

/-! ## Shorter chains -/

/-- The same context at the end of another chain. -/
def Context.after (ctx : Context) (chain : List String) : Context := { ctx with chain }

/-- The same configuration, one identity further on both chains. -/
def Rechained (ctx : Context) (chain : List String) (e e' : Extended) : Prop :=
  ∃ identity, e.2.chain = ctx.chain ++ [identity] ∧ e' = (e.1, e.2.after (chain ++ [identity]))

theorem extended_follows (hc : chain ⊆ ctx.chain) (config : Value) (reference identity : String)
    (file directory : Option Path) :
    Follows (do return (config, ← extend reference identity ctx file directory))
      (do return (config, ← extend reference identity (ctx.after chain) file directory))
      (Rechained ctx chain) := by
  unfold extend
  split
  · exact .throw _
  · rename_i hnew
    have hfree : ¬ (ctx.after chain).chain.contains identity = true := by
      simp only [List.contains_iff_mem] at hnew ⊢
      exact fun hmem => hnew (hc hmem)
    rw [if_neg hfree]
    exact .pure ⟨identity, rfl, rfl⟩

theorem pluginConfig_follows (hc : chain ⊆ ctx.chain) (reference : String) :
    Follows (pluginConfig r reference ctx) (pluginConfig r reference (ctx.after chain))
      (Rechained ctx chain) := by
  have settle : ∀ identity directory found,
      Follows (extendPlugin reference ctx identity directory found)
        (extendPlugin reference (ctx.after chain) identity directory found) (Rechained ctx chain) := by
    intro identity directory found
    cases found with
    | none => exact .throw _
    | some config => exact extended_follows hc config reference identity none directory
  unfold pluginConfig
  cases Text.cutLast '/' (Text.drop "plugin:".length reference) with
  | none => exact .throw _
  | some parts =>
    dsimp only
    split
    · exact .throw _
    refine .next fun plugin => .next fun store => ?_
    split
    · exact .next fun found => settle _ _ found
    · exact .next fun found => settle _ _ found

theorem pathConfig_follows (hc : chain ⊆ ctx.chain) (reference : String) :
    Follows (pathConfig reference ctx) (pathConfig reference (ctx.after chain)) (Rechained ctx chain) := by
  unfold pathConfig
  refine .next fun w => .next fun path => ?_
  dsimp only
  split
  · refine .next fun loaded => ?_
    cases loaded with
    | none => exact .next fun config => extended_follows hc config _ _ _ _
    | some m => exact .next fun config => extended_follows hc config _ _ _ _
  · split
    · exact .next fun config => extended_follows hc config _ _ _ _
    · exact .next fun config => extended_follows hc config _ _ _ _

theorem packageConfig_follows (hc : chain ⊆ ctx.chain) (reference : String) :
    Follows (packageConfig reference ctx) (packageConfig reference (ctx.after chain))
      (Rechained ctx chain) := by
  unfold packageConfig
  refine .next fun w => .next fun package => ?_
  cases hfile : packageFile? w package ctx.directory with
  | some path =>
    simp only [show packageFile? w package (ctx.after chain).directory = some path from hfile]
    exact .next fun path => .next fun _ => .next fun config => extended_follows hc config _ _ _ _
  | none =>
    simp only [show packageFile? w package (ctx.after chain).directory = none from hfile]
    refine .next fun loaded => ?_
    cases loaded with
    | none => exact .throw _
    | some m => exact .next fun config => extended_follows hc config _ _ _ _

/-- A reference that leads on from a chain leads on from every part of it. -/
theorem loadExtended_follows (hc : chain ⊆ ctx.chain) (reference : String) :
    Follows (loadExtended r reference ctx) (loadExtended r reference (ctx.after chain))
      (Rechained ctx chain) := by
  unfold loadExtended
  refine .next fun _ => ?_
  split
  · exact extended_follows hc _ _ _ _ _
  split
  · exact pluginConfig_follows hc reference
  split
  · exact pathConfig_follows hc reference
  · exact packageConfig_follows hc reference

/-- A configuration has its elements also at the end of a part of the chain. -/
theorem Resolves.after (h : Resolves r w config ctx es) (hc : chain ⊆ ctx.chain) :
    Resolves r w config (ctx.after chain) es := by
  induction h generalizing chain with
  | @intro config ctx m names own items outer inner hm hcheck hnames hload _ hown hitems hcontext _
      houter hinner =>
    refine resolves_iff.mpr ⟨m, names, _, own, items, _, hm, hcheck, hnames,
      .of_forall outer fun reference href => ?_, hown, hitems, .of_forall inner fun item hitem => ?_, rfl⟩
    · obtain ⟨e, he⟩ := hload reference href
      obtain ⟨_, hload', identity, hgrown, rfl⟩ := (loadExtended_follows hc reference).outcome he
      refine ⟨_, hload', houter reference href e he ?_⟩
      rw [hgrown]
      exact List.append_subset.mpr ⟨List.subset_append_of_subset_left _ hc, List.subset_append_right _ _⟩
    · obtain ⟨c, hcontext⟩ := hcontext item hitem
      obtain ⟨m', files, criteria, hm', hf, hmake, rfl⟩ := overrideContext_eq_ok.mp hcontext
      exact ⟨_, overrideContext_eq_ok.mpr ⟨m', files, criteria, hm', hf, hmake, rfl⟩,
        hinner item hitem _ hcontext hc⟩

/-! ## Other names -/

/-- A configuration has the same elements in a context of another name, but for
names. -/
theorem Resolves.renamed (hw : w.ModulesApart) (h : Resolves r w config ctx es) (hc : Renamed False ctx ctx') :
    ∃ es', Resolves r w config ctx' es' ∧ es.map Element.anonymous = es'.map Element.anonymous := by
  induction h generalizing ctx' with
  | @intro config ctx m names own items outer inner hm hcheck hnames hload _ hown hitems hcontext _
      houter hinner =>
    obtain ⟨own', hown', hlike⟩ := Agrees.outcome (ownElements_agrees (r := r) hw.interchangeable m hc) hown
    have houter' : ∀ reference ∈ names, ∃ es', FromReference r w ctx' reference es' ∧
        (outer reference).map Element.anonymous = es'.map Element.anonymous := by
      intro reference href
      obtain ⟨e, he⟩ := hload reference href
      obtain ⟨e', he', hsame, hrenamed⟩ :=
        Agrees.outcome (loadExtended_agrees (r := r) hw.interchangeable reference ctx ctx' hc) he
      obtain ⟨es', hes', heq⟩ := houter reference href e he hrenamed
      exact ⟨es', ⟨e', he', hsame ▸ hes'⟩, heq⟩
    have hinner' : ∀ item ∈ items.zipIdx, ∃ es', FromOverride r w ctx' item es' ∧
        (inner item).map Element.anonymous = es'.map Element.anonymous := by
      intro item hitem
      obtain ⟨c, hcontext⟩ := hcontext item hitem
      obtain ⟨name, rfl, -⟩ := hc
      have hnew := overrideContext_named hcontext (name ++ "#overrides[" ++ toString item.2 ++ "]")
      obtain ⟨es', hes', heq⟩ := hinner item hitem c hcontext ⟨_, rfl, False.elim⟩
      exact ⟨es', ⟨_, hnew, hes'⟩, heq⟩
    -- the elements of each reference and of each override, all in the renamed context
    choose! outer' houter' heqo using houter'
    choose! inner' hinner' heqi using hinner'
    obtain ⟨name, rfl, -⟩ := hc
    refine ⟨_, resolves_iff.mpr ⟨m, names, _, own', items, _, hm, checkMembers_named name hcheck,
      references_named hnames name, .of_forall outer' houter', hown', overrides_named hitems name,
      .of_forall inner' hinner', rfl⟩, ?_⟩
    simp only [List.map_append, List.map_flatMap, hlike.erased]
    congr 1
    · congr 1
      exact List.flatMap_congr heqo
    · exact List.flatMap_congr heqi

end Resolution

end Cascade
