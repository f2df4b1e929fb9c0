import Mathlib.Data.List.Basic
import Cascade.Proofs.Resolution.Deletion

/-! # Resolving without overrides

What a configuration extends and what is nested in it stands under the criteria
that the configuration itself has. So everything that an override brings along
carries the patterns of the override, and a resolution without the override has
the same elements except for these. -/
namespace Cascade

theorem Always.of_outcome {α : Type} {a : Action α} {w : World} {P : α → Prop} (h : Always a P) {x : α}
    (hx : a.outcome w = .ok x) : P x := by
  have hrun := (h (Session.start w) trivial).2
  rw [show (a.runFrom (Session.start w)).1 = .ok x from hx] at hrun
  exact hrun

namespace Resolution

variable {r : Resolver} {accepts : String → Bool} {ctx ctx' : Context}

/-! ## Criteria -/

/-- Criteria one of whose pairs of patterns rejects a file. -/
def Outside (accepts : String → Bool) (criteria : Option Criteria) : Prop :=
  ∃ c ∈ criteria, ∃ pair ∈ c.pairs, pair.rejects accepts = true

theorem extend_criteria (reference identity : String) (ctx : Context) (file directory : Option Path) :
    Always (extend reference identity ctx file directory) fun c => c.criteria = ctx.criteria := by
  unfold extend
  split
  · exact .throw trivial
  · exact .pure rfl

theorem extended_criteria (config : Value) (reference identity : String) (ctx : Context)
    (file directory : Option Path) : Always
      (do return (config, ← extend reference identity ctx file directory) : Action Extended)
      fun e => e.2.criteria = ctx.criteria :=
  (extend_criteria reference identity ctx file directory).bind fun _ hc => .pure hc

theorem missing_always {α : Type} {Q : α → Prop} (target : Target) (name : String) (ctx : Context)
    (searched : Path) : Always (missing target name ctx searched : Action α) Q :=
  .throw trivial

theorem pluginConfig_criteria (reference : String) (ctx : Context) :
    Always (pluginConfig r reference ctx) fun e => e.2.criteria = ctx.criteria := by
  unfold pluginConfig
  split
  · split
    · exact .throw trivial
    have settle : ∀ identity directory found, Always (extendPlugin reference ctx identity directory found)
        fun e => e.2.criteria = ctx.criteria := by
      intro identity directory found
      cases found with
      | none => exact .throw trivial
      | some config => exact extended_criteria _ _ _ _ _ _
    refine .next fun plugin => .next fun store => ?_
    dsimp only
    split
    · exact .next fun found => settle _ _ found
    · exact .next fun found => settle _ _ found
  · exact .throw trivial

theorem pathConfig_criteria (reference : String) (ctx : Context) :
    Always (pathConfig reference ctx) fun e => e.2.criteria = ctx.criteria := by
  unfold pathConfig
  refine .next fun w => .next fun path => ?_
  dsimp only
  split
  · refine .next fun loaded => ?_
    split
    · exact .next fun config => extended_criteria _ _ _ _ _ _
    · exact .next fun config => extended_criteria _ _ _ _ _ _
  · split
    · exact .next fun config => extended_criteria _ _ _ _ _ _
    · exact .next fun config => extended_criteria _ _ _ _ _ _

theorem packageConfig_criteria (reference : String) (ctx : Context) :
    Always (packageConfig reference ctx) fun e => e.2.criteria = ctx.criteria := by
  unfold packageConfig
  refine .next fun w => .next fun package => ?_
  split
  · refine .next fun path => .next fun _ => .next fun config => ?_
    exact extended_criteria _ _ _ _ _ _
  · refine .next fun loaded => ?_
    split
    · exact missing_always _ _ _ _
    · exact .next fun config => extended_criteria _ _ _ _ _ _

/-- What a configuration extends is under the same criteria. -/
theorem loadExtended_criteria (reference : String) (ctx : Context) :
    Always (loadExtended r reference ctx) fun e => e.2.criteria = ctx.criteria := by
  unfold loadExtended
  refine .next fun _ => ?_
  split
  · exact extended_criteria _ _ _ _ _ _
  split
  · exact pluginConfig_criteria reference ctx
  split
  · exact pathConfig_criteria reference ctx
  · exact packageConfig_criteria reference ctx

/-! ## What all elements have -/

/-- A property of elements that comes from a property of the contexts they stand in. -/
structure Inherits (r : Resolver) (Under : Context → Prop) (Q : Element → Prop) : Prop where
  override : ∀ {store : Shared} {override : Value} {ctx ctx' : Context} {i : Nat}, Under ctx →
    overrideContext store override (ctx.atOverride i) = .ok ctx' → Under ctx'
  own : ∀ (store : Shared) (m : Entries) (ctx : Context), Under ctx →
    Always (ownElements r store m ctx) fun es => ∀ e ∈ es, Q e

namespace Inherits

variable {Under : Context → Prop} {Q : Element → Prop}

theorem elements (hq : Inherits r Under Q) {extended : String → Context → Action (List Element)}
    (hx : ∀ reference c, Under c → Always (extended reference c) fun es => ∀ e ∈ es, Q e)
    (depth : Nat) (config : Value) (h : Under ctx) :
    Always (elements r extended depth config ctx) fun es => ∀ e ∈ es, Q e := by
  induction depth generalizing config ctx with
  | zero => exact .throw trivial
  | succ depth ih =>
    unfold Resolution.elements
    refine .next fun store => ?_
    split
    · refine .next fun _ => .next fun names => ?_
      refine (Yields.mapM fun reference _ => hx reference ctx h).bind fun outer houter => ?_
      refine (hq.own _ _ ctx h).bind fun own hown => Always.next fun items => ?_
      refine (Yields.mapM (R := fun es => ∀ e ∈ es, Q e) fun item _ => ?_).bind
        fun inner hinner => .pure ?_
      · refine Yields.bind (Yields.ofProblem (fun _ hc => hc) fun _ _ => trivial) fun c hc => ?_
        exact ih item.1 (hq.override h hc)
      · intro e he
        simp only [List.mem_append, List.mem_flatten] at he
        rcases he with (⟨es, hes, he⟩ | he) | ⟨es, hes, he⟩
        · exact houter es hes e he
        · exact hown e he
        · exact hinner es hes e he
    · exact .throw trivial

theorem elementsTo (hq : Inherits r Under Q) {load : Loader}
    (hl : ∀ reference c, Under c → Always (load reference c) fun e => Under e.2) (steps : Nat)
    (config : Value) (h : Under ctx) :
    Always (elementsTo r load steps config ctx) fun es => ∀ e ∈ es, Q e := by
  induction steps generalizing config ctx with
  | zero => exact .throw trivial
  | succ steps ih =>
    unfold Resolution.elementsTo
    refine .next fun store => hq.elements (fun reference c hc => ?_) _ config h
    exact (hl reference c hc).bind fun e he => ih e.1 he

end Inherits

/-- What a node takes over from its configuration has the keys for that. -/
def Plain (n : Node) : Prop := ∀ key, key ∉ nodeKeys → Entries.field? n.data key = none

theorem plain_nodeData {m : Entries} {n : Node} (h : n.data = nodeData m) : Plain n := by
  intro key hk
  rw [h, Entries.field?, Entries.get?, Option.map_eq_none_iff, List.find?_eq_none]
  intro e he hkey
  obtain ⟨name, hname, hv⟩ := List.mem_filterMap.mp he
  obtain ⟨v, -, rfl⟩ := Option.map_eq_some_iff.mp hv
  cases (Value.same_str _ _).mp hkey
  exact hk hname

theorem processorElement_plain (ctx : Context) (plugin extension : String) :
    Always (processorElement ctx plugin extension)
      fun e => e.kind = .implicitProcessor ∧ Plain e.node := by
  refine Always.next fun _ => .pure ⟨rfl, fun key hk => ?_⟩
  have hne : "processor" ≠ key := by
    rintro rfl
    exact hk (by decide)
  simp [Entries.field?, Entries.get?, hne]

/-- The own elements of a configuration are for processors, or under its criteria. -/
theorem ownElements_plain (store : Shared) (m : Entries) (ctx : Context) :
    Always (ownElements r store m ctx) fun es => ∀ e ∈ es,
      (e.kind = .implicitProcessor ∨ e.node.criteria = ctx.criteria) ∧ Plain e.node := by
  unfold ownElements
  refine .next fun parser => .next fun plugins => ?_
  refine (processorElements_yields (processorElement_plain ctx) trivial trivial (Always.any _) _).bind
    fun processors hp => Always.next fun pattern => .pure ?_
  intro e he
  rcases List.mem_append.mp he with he | he
  · exact ⟨.inl (hp e he).1, (hp e he).2⟩
  · rw [List.mem_singleton.mp he]
    exact ⟨.inr rfl, plain_nodeData rfl⟩

theorem inherits_plain : Inherits r (fun _ => True) fun e => Plain e.node where
  override _ _ := trivial
  own store m ctx _ := (ownElements_plain store m ctx).mono fun _ h e he => (h e he).2

/-- All elements of a configuration are plain. -/
theorem resolve_plain (config : Value) (name : String) (file : Option Path) :
    Always (r.resolve config name file) fun es => ∀ e ∈ es, Plain e.node := by
  unfold Resolver.resolve Resolver.resolveWith
  refine .next fun w => .next fun path => ?_
  exact inherits_plain.elementsTo (fun _ _ _ => .any _) _ _ trivial

/-- An element that has no items or stands in an override that rejects a file. -/
def Lost (accepts : String → Bool) (e : Element) : Prop :=
  e.kind = .implicitProcessor ∨ Outside accepts e.node.criteria

theorem outside_override {store : Shared} {override : Value} {i : Nat} (h : Outside accepts ctx.criteria)
    (hc : overrideContext store override (ctx.atOverride i) = .ok ctx') : Outside accepts ctx'.criteria := by
  obtain ⟨_, _, c, -, -, -, rfl⟩ := overrideContext_eq_ok.mp hc
  obtain ⟨outer, ho, pair, hp, hr⟩ := h
  refine ⟨outer.both c, ?_, pair, List.mem_append_left _ hp, hr⟩
  show Criteria.combine ctx.criteria (some c) = some (outer.both c)
  rw [Option.mem_def.mp ho]
  rfl

theorem inherits_lost : Inherits r (fun c => Outside accepts c.criteria) (Lost accepts) where
  override h hc := outside_override h hc
  own store m ctx h := (ownElements_plain store m ctx).mono fun _ hes e he =>
    (hes e he).1.imp_right fun hc => by rwa [hc]

theorem loadExtended_outside (reference : String) (ctx : Context) (h : Outside accepts ctx.criteria) :
    Always (loadExtended r reference ctx) fun e => Outside accepts e.2.criteria :=
  (loadExtended_criteria reference ctx).mono fun _ he => by rwa [he]

/-! ## What is left -/

/-- The elements that are left, some of them under other names. -/
abbrev Survives (accepts : String → Bool) : List Element → List Element → Prop :=
  Pruned (Lost accepts) fun e e' => e.anonymous = e'.anonymous

variable {w : World} {texts : List String}

theorem mapM_survives {α β : Type} {Gone : α → Prop} {Kept : α → β → Prop} {xs : List α} {ys : List β}
    {f : α → Except Failure (List Element)} {f' : β → Except Failure (List Element)}
    (hp : Pruned Gone Kept xs ys)
    (hgone : ∀ x ∈ xs, Gone x → ∀ es, f x = .ok es → ∀ e ∈ es, Lost accepts e)
    (hkept : ∀ x ∈ xs, ∀ y ∈ ys, Kept x y → ∀ es, f x = .ok es →
      ∃ es', f' y = .ok es' ∧ Survives accepts es es') {ess : List (List Element)}
    (h : xs.mapM f = .ok ess) :
    ∃ ess', ys.mapM f' = .ok ess' ∧ Survives accepts ess.flatten ess'.flatten := by
  induction hp generalizing ess with
  | nil =>
    cases h
    exact ⟨[], rfl, .nil⟩
  | drop hx _ ih =>
    rw [List.mapM_cons] at h
    obtain ⟨es, hes, h⟩ := bind_eq_ok.mp h
    obtain ⟨rest, hrest, h⟩ := bind_eq_ok.mp h
    cases h
    obtain ⟨ess', hess', hs⟩ := ih (fun x hx => hgone x (List.mem_cons_of_mem _ hx))
      (fun x hx => hkept x (List.mem_cons_of_mem _ hx)) hrest
    exact ⟨ess', hess', (Pruned.of_lost (hgone _ (by simp) hx es hes)).append hs⟩
  | keep hxy _ ih =>
    rw [List.mapM_cons] at h
    obtain ⟨es, hes, h⟩ := bind_eq_ok.mp h
    obtain ⟨rest, hrest, h⟩ := bind_eq_ok.mp h
    cases h
    obtain ⟨es', hes', hfirst⟩ := hkept _ (by simp) _ (by simp) hxy es hes
    obtain ⟨ess', hess', hs⟩ := ih (fun x hx => hgone x (List.mem_cons_of_mem _ hx))
      (fun x hx y hy => hkept x (List.mem_cons_of_mem _ hx) y (List.mem_cons_of_mem _ hy)) hrest
    refine ⟨es' :: ess', ?_, hfirst.append hs⟩
    rw [List.mapM_cons, hes', ok_bind, hess']
    rfl

/-- The criteria of an override are its patterns, from the directory that it is in,
inside those around it. -/
theorem overrideContext_pair {store : Shared} {override : Value} (h : overrideContext store override ctx = .ok ctx') :
    ∃ pair, pairOf? store override = some pair ∧
      ctx'.criteria = Criteria.combine ctx.criteria (some ⟨[pair], some ctx.directory.text⟩) := by
  obtain ⟨m, files, c, hm, hf, hmake, rfl⟩ := overrideContext_eq_ok.mp h
  obtain ⟨includes, excludes, hi, he, -, hsome⟩ := Criteria.make_eq_ok.mp hmake
  refine ⟨⟨includes, excludes⟩, ?_, ?_⟩
  · rw [pairOf?, hm]
    simp only [hf, Option.bind_eq_bind, Option.bind_some, Criteria.patternList_source hi "",
      Criteria.patternList_source he ""]
    rfl
  · split at hsome
    · cases hsome
    · cases hsome
      rfl

/-- A rejected override puts all that it brings along under criteria that reject. -/
theorem outside_of_rejected {override : Value} (h : Rejected accepts w.shared override)
    (hc : overrideContext w.shared override ctx = .ok ctx') : Outside accepts ctx'.criteria := by
  obtain ⟨pair, hpair, hr⟩ := h
  obtain ⟨pair', hpair', hcriteria⟩ := overrideContext_pair hc
  cases hpair.symm.trans hpair'
  rw [hcriteria]
  cases ctx.criteria with
  | none => exact ⟨_, rfl, pair, by simp, hr⟩
  | some outer => exact ⟨_, rfl, pair, by simp [Criteria.both], hr⟩

/-- An override that is left has the patterns that it had. -/
theorem overrideContext_thinned {override override' : Value} {i : Nat}
    (ht : Thinned accepts w.shared override override') (hc : Renamed False ctx ctx') {c : Context}
    (h : overrideContext w.shared override (ctx.atOverride i) = .ok c) (i' : Nat) :
    ∃ c', overrideContext w.shared override' (ctx'.atOverride i') = .ok c' ∧ Renamed False c c' ∧
      c.chain = ctx.chain := by
  obtain ⟨name, rfl, -⟩ := hc
  obtain ⟨m, files, patterns, hm, hf, hmake, rfl⟩ := overrideContext_eq_ok.mp h
  obtain ⟨m', hm', -, hfields, -⟩ := ht.view hm
  have hnew : (ctx.named name).atOverride i' = (ctx.atOverride i).named
      (name ++ "#overrides[" ++ toString i' ++ "]") := rfl
  rw [hnew]
  refine ⟨_, overrideContext_named (overrideContext_eq_ok.mpr ⟨m', files, patterns, hm', ?_, ?_, rfl⟩) _,
    ⟨_, rfl, False.elim⟩, rfl⟩
  · rw [hfields "files" (by decide), hf]
  · rw [hfields "excludedFiles" (by decide), hmake]

theorem references_congr {store : Shared} {m m' : Entries}
    (h : Entries.field? m' "extends" = Entries.field? m "extends") (ctx : Context) :
    references store m' ctx = references store m ctx := by
  unfold references
  rw [h]

theorem ownElements_congr {store : Shared} {m m' : Entries}
    (h : ∀ key, key ≠ "extends" → key ≠ "overrides" → Entries.field? m' key = Entries.field? m key) (ctx : Context) :
    ownElements r store m' ctx = ownElements r store m ctx := by
  have hparser := h "parser" (by decide) (by decide)
  have hplugins := h "plugins" (by decide) (by decide)
  have hpatterns := h "ignorePatterns" (by decide) (by decide)
  have hdata : nodeData m' = nodeData m := by
    refine List.filterMap_congr fun key hk => ?_
    rw [h key (by rintro rfl; revert hk; decide) (by rintro rfl; revert hk; decide)]
  have hpattern : ignorePattern? store m' ctx = ignorePattern? store m ctx := by
    unfold ignorePattern?
    rw [hpatterns]
  unfold ownElements given?
  rw [hparser, hplugins, hdata, hpattern]

theorem checkMembers_congr {store : Shared} {m m' : Entries} (hkeys : Entries.keys m' = Entries.keys m)
    (h : ∀ key, key ≠ "overrides" → Entries.field? m' key = Entries.field? m key)
    (hc : checkMembers store m ctx = .ok ()) : checkMembers store m' ctx = .ok () := by
  obtain ⟨hallowed, hmappings, hbooleans⟩ := checkMembers_eq_ok.mp hc
  refine checkMembers_eq_ok.mpr ⟨hkeys ▸ hallowed, fun key hk v hv => ?_, fun key hk v hv => ?_⟩
  · exact hmappings key hk v (h key (by rintro rfl; revert hk; decide) ▸ hv)
  · exact hbooleans key hk v (h key (by rintro rfl; revert hk; decide) ▸ hv)

end Resolution

end Cascade
