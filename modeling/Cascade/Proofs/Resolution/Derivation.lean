import Cascade.Proofs.Resolution.Remainder

/-! # Elements without bounds

What elements a configuration has is derived from what it extends, from itself and
from its overrides, whatever the lengths of the ways there. A resolution keeps to
bounds, and finds the elements that can be derived: along every chain the bounds
are wide enough. -/
namespace Cascade

/-- A result for every item, as a function of the item. -/
theorem mapM_eq_ok {ε α β : Type} {f : α → Except ε (List β)} {l : List α} {found : List (List β)} :
    l.mapM f = .ok found ↔ ∃ g : α → List β, (∀ x ∈ l, f x = .ok (g x)) ∧ found = l.map g := by
  constructor
  · intro h
    have hg : ∀ x ∈ l, f x = .ok ((f x).toOption.getD []) := by
      intro x hx
      obtain ⟨y, hy⟩ := mapM_ok_of_mem h hx
      rw [hy]
      rfl
    refine ⟨fun x => (f x).toOption.getD [], hg, ?_⟩
    clear hg
    induction l generalizing found with
    | nil => exact (Except.ok.inj h).symm
    | cons x rest ih =>
      rw [List.mapM_cons] at h
      obtain ⟨y, hy, h⟩ := bind_eq_ok.mp h
      obtain ⟨ys, hys, h⟩ := bind_eq_ok.mp h
      cases h
      rw [List.map_cons, ← ih hys, hy]
      rfl
  · rintro ⟨g, hg, rfl⟩
    induction l with
    | nil => rfl
    | cons x rest ih =>
      rw [List.mapM_cons, hg x (by simp), ok_bind, ih fun y hy => hg y (List.mem_cons_of_mem _ hy)]
      rfl

namespace Resolution

variable {r : Resolver} {w : World} {texts : List String} {config : Value} {ctx : Context}
  {es : List Element}

/-- A configuration has elements: those of everything that it extends, its own, and
those of its overrides. -/
inductive Resolves (r : Resolver) (w : World) : Value → Context → List Element → Prop where
  | intro {config : Value} {ctx : Context} {m : Entries} {names : List String} {own : List Element}
      {items : List Value} (outer : String → List Element) (inner : Value × Nat → List Element) :
      w.shared.view config = .mapping m → checkMembers w.shared m ctx = .ok () →
      references w.shared m ctx = .ok names →
      (∀ reference ∈ names, ∃ e, (loadExtended r reference ctx).outcome w = .ok e) →
      (∀ reference ∈ names, ∀ e, (loadExtended r reference ctx).outcome w = .ok e →
        Resolves r w e.1 e.2 (outer reference)) →
      (ownElements r w.shared m ctx).outcome w = .ok own →
      overrides w.shared m ctx = .ok items →
      (∀ item ∈ items.zipIdx, ∃ c, overrideContext w.shared item.1 (ctx.atOverride item.2) = .ok c) →
      (∀ item ∈ items.zipIdx, ∀ c, overrideContext w.shared item.1 (ctx.atOverride item.2) = .ok c →
        Resolves r w item.1 c (inner item)) →
      Resolves r w config ctx (names.flatMap outer ++ own ++ items.zipIdx.flatMap inner)

/-- What a reference leads to has elements. -/
def FromReference (r : Resolver) (w : World) (ctx : Context) (reference : String) (es : List Element) : Prop :=
  ∃ e, (loadExtended r reference ctx).outcome w = .ok e ∧ Resolves r w e.1 e.2 es

/-- An override has elements. Its place is for its name. -/
def FromOverride (r : Resolver) (w : World) (ctx : Context) (item : Value × Nat) (es : List Element) : Prop :=
  ∃ c, overrideContext w.shared item.1 (ctx.atOverride item.2) = .ok c ∧ Resolves r w item.1 c es

/-- All items have elements, together in the order of the items. -/
inductive Each {α : Type} (R : α → List Element → Prop) : List α → List Element → Prop where
  | nil : Each R [] []
  | cons {x : α} {rest : List α} {es es' : List Element} :
      R x es → Each R rest es' → Each R (x :: rest) (es ++ es')

namespace Each

variable {α : Type} {R : α → List Element → Prop} {xs ys : List α}

theorem of_forall (g : α → List Element) (h : ∀ x ∈ xs, R x (g x)) : Each R xs (xs.flatMap g) := by
  induction xs with
  | nil => exact .nil
  | cons x rest ih => exact .cons (h x (by simp)) (ih fun y hy => h y (List.mem_cons_of_mem _ hy))

/-- Where no item has other elements than those that it has, these are a function of
the item. -/
theorem exists_forall (hR : ∀ x es es', R x es → R x es' → es = es') (h : Each R xs es) :
    ∃ g : α → List Element, es = xs.flatMap g ∧ ∀ x ∈ xs, R x (g x) := by
  classical
  induction h with
  | nil => exact ⟨fun _ => [], rfl, by simp⟩
  | @cons x rest es es' hx hrest ih =>
    obtain ⟨g, rfl, hg⟩ := ih
    have hsame : ∀ y ∈ rest, Function.update g x es y = g y := by
      intro y hy
      by_cases heq : y = x
      · subst heq
        rw [Function.update_self]
        exact hR y _ _ hx (hg y hy)
      · rw [Function.update_of_ne heq]
    refine ⟨Function.update g x es, ?_, List.forall_mem_cons.mpr ⟨?_, fun y hy => ?_⟩⟩
    · rw [List.flatMap_cons, Function.update_self, List.flatMap_congr hsame]
    · rw [Function.update_self]
      exact hx
    · rw [hsame y hy]
      exact hg y hy

theorem append (h : Each R xs es) {es' : List Element} (h' : Each R ys es') :
    Each R (xs ++ ys) (es ++ es') := by
  induction h with
  | nil => exact h'
  | cons hx _ ih =>
    rw [List.cons_append, List.append_assoc]
    exact .cons hx ih

theorem of_append (h : Each R (xs ++ ys) es) : ∃ front back, Each R xs front ∧ Each R ys back ∧
    es = front ++ back := by
  induction xs generalizing es with
  | nil => exact ⟨[], es, .nil, h, rfl⟩
  | cons x rest ih =>
    cases h with
    | cons hx hrest =>
      obtain ⟨front, back, hf, hb, rfl⟩ := ih hrest
      exact ⟨_, back, .cons hx hf, hb, (List.append_assoc _ _ _).symm⟩

end Each

/-- A configuration has no other elements than those that it has. -/
theorem Resolves.unique {es' : List Element} (h : Resolves r w config ctx es)
    (h' : Resolves r w config ctx es') : es = es' := by
  induction h generalizing es' with
  | intro outer inner hm _ hnames hload _ hown hitems hcontext _ houter hinner =>
    cases h' with
    | intro outer' inner' hm' _ hnames' _ houter' hown' hitems' _ hinner' =>
      cases hm.symm.trans hm'
      cases hnames.symm.trans hnames'
      cases hown.symm.trans hown'
      cases hitems.symm.trans hitems'
      congr 1
      · congr 1
        refine List.flatMap_congr fun reference href => ?_
        obtain ⟨e, he⟩ := hload reference href
        exact houter reference href e he (houter' reference href e he)
      · refine List.flatMap_congr fun item hitem => ?_
        obtain ⟨c, hc⟩ := hcontext item hitem
        exact hinner item hitem c hc (hinner' item hitem c hc)

theorem FromReference.unique (reference : String) (es es' : List Element)
    (h : FromReference r w ctx reference es) (h' : FromReference r w ctx reference es') : es = es' := by
  obtain ⟨e, he, hres⟩ := h
  obtain ⟨e', he', hres'⟩ := h'
  cases he.symm.trans he'
  exact hres.unique hres'

theorem FromOverride.unique (item : Value × Nat) (es es' : List Element)
    (h : FromOverride r w ctx item es) (h' : FromOverride r w ctx item es') : es = es' := by
  obtain ⟨c, hc, hres⟩ := h
  obtain ⟨c', hc', hres'⟩ := h'
  cases hc.symm.trans hc'
  exact hres.unique hres'

/-- A configuration has elements just when everything that it extends, the
configuration itself and all its overrides have. -/
theorem resolves_iff : Resolves r w config ctx es ↔ ∃ m names outer own items inner,
    w.shared.view config = .mapping m ∧ checkMembers w.shared m ctx = .ok () ∧
    references w.shared m ctx = .ok names ∧ Each (FromReference r w ctx) names outer ∧
    (ownElements r w.shared m ctx).outcome w = .ok own ∧ overrides w.shared m ctx = .ok items ∧
    Each (FromOverride r w ctx) items.zipIdx inner ∧ es = outer ++ own ++ inner := by
  constructor
  · rintro ⟨outer, inner, hm, hcheck, hnames, hload, houter, hown, hitems, hcontext, hinner⟩
    refine ⟨_, _, _, _, _, _, hm, hcheck, hnames, .of_forall outer fun reference href => ?_, hown, hitems,
      .of_forall inner fun item hitem => ?_, rfl⟩
    · obtain ⟨e, he⟩ := hload reference href
      exact ⟨e, he, houter reference href e he⟩
    · obtain ⟨c, hc⟩ := hcontext item hitem
      exact ⟨c, hc, hinner item hitem c hc⟩
  · rintro ⟨m, names, _, own, items, _, hm, hcheck, hnames, hreferences, hown, hitems, hoverrides, rfl⟩
    obtain ⟨outer, rfl, houter⟩ := hreferences.exists_forall FromReference.unique
    obtain ⟨inner, rfl, hinner⟩ := hoverrides.exists_forall FromOverride.unique
    refine .intro outer inner hm hcheck hnames (fun reference href => ?_) (fun reference href e he => ?_) hown
      hitems (fun item hitem => ?_) fun item hitem c hc => ?_
    · obtain ⟨e, he, -⟩ := houter reference href
      exact ⟨e, he⟩
    · obtain ⟨e', he', hres⟩ := houter reference href
      cases he.symm.trans he'
      exact hres
    · obtain ⟨c, hc, -⟩ := hinner item hitem
      exact ⟨c, hc⟩
    · obtain ⟨c', hc', hres⟩ := hinner item hitem
      cases hc.symm.trans hc'
      exact hres

/-! ## What a resolution finds -/

theorem resolves_of_elements (hw : w.ModulesApart) {extended : String → Context → Action (List Element)}
    (hs : ∀ reference c, Settled r w (extended reference c))
    (hx : ∀ reference c es, (extended reference c).outcome w = .ok es →
      ∃ e, (loadExtended r reference c).outcome w = .ok e ∧ Resolves r w e.1 e.2 es)
    {depth : Nat} (h : (elements r extended depth config ctx).outcome w = .ok es) :
    Resolves r w config ctx es := by
  induction depth generalizing config ctx es with
  | zero => cases h
  | succ depth ih =>
    obtain ⟨m, names, _, own, items, _, hm, hcheck, hnames, hfound, hown, hitems, hbelow, rfl⟩ :=
      (elements_eq_ok hw hs).mp h
    obtain ⟨outer, houter, rfl⟩ := mapM_eq_ok.mp hfound
    obtain ⟨inner, hinner, rfl⟩ := mapM_eq_ok.mp hbelow
    refine resolves_iff.mpr ⟨m, names, _, own, items, _, hm, hcheck, hnames,
      .of_forall outer fun reference href => hx reference ctx _ (houter reference href), hown, hitems,
      .of_forall inner fun item hitem => ?_, rfl⟩
    obtain ⟨c, hc, hes⟩ := bind_eq_ok.mp (hinner item hitem)
    exact ⟨c, mapError_eq_ok.mp hc, ih hes⟩

theorem resolves_of_elementsTo (hw : w.ModulesApart) {steps : Nat}
    (h : (elementsTo r (loadExtended r) steps config ctx).outcome w = .ok es) :
    Resolves r w config ctx es := by
  induction steps generalizing config ctx es with
  | zero => cases h
  | succ steps ih =>
    rw [elementsTo_succ] at h
    refine resolves_of_elements hw (extendedTo_settled hw (loadExtended_agrees hw.interchangeable) steps) ?_ h
    intro reference c es hes
    obtain ⟨e, he, hes⟩ := (extendedTo_eq_ok hw (loadExtended_agrees hw.interchangeable)).mp hes
    exact ⟨e, he, ih hes⟩

/-! ## The bounds are wide enough -/

theorem Resolves.nests (h : Resolves r w config ctx es) : Nests w.shared config := by
  induction h with
  | @intro config ctx m names own items outer inner hm _ _ _ _ _ hitems hcontext _ _ hinner =>
    refine .intro config fun override ho => ?_
    obtain ⟨v, listed, hl, hmem⟩ := ho
    have hlisted := overrides_of_lists hl (List.ne_nil_of_mem hmem) hm ctx
    cases hlisted.symm.trans hitems
    obtain ⟨i, hi⟩ := exists_mem_zipIdx hmem
    obtain ⟨c, hc⟩ := hcontext _ hi
    exact hinner _ hi c hc

/-- The elements are found within every bound that is left for the references and
for the overrides. -/
theorem Resolves.elements_eq_ok (hw : w.ModulesApart) (hcov : Covers w texts) (h : Resolves r w config ctx es)
    {steps depth : Nat} {seen : List String} (hf : Probe.texts.found config ⊆ texts) (hd : ctx.chain.Nodup)
    (hu : unused (identities w texts) ctx.chain ≤ steps) (hi : Inside w.shared seen config)
    (hr : reach w.shared seen config < depth) :
    (elements r (extendedTo r (loadExtended r) steps) depth config ctx).outcome w = .ok es := by
  induction h generalizing steps depth seen with
  | @intro config ctx m names own items outer inner hm hcheck hnames hload hres hown hitems hcontext _
      houter hinner =>
    obtain ⟨depth, rfl⟩ : ∃ n, depth = n + 1 := ⟨depth - 1, by omega⟩
    have hagree : LoadersAgree (CoherentPair r w) True (loadExtended r) (loadExtended r) := loadExtended_agrees hw.interchangeable
    refine (Resolution.elements_eq_ok hw (extendedTo_settled hw hagree steps)).mpr ⟨m, names, _, own, items,
      _, hm, hcheck, hnames, mapM_eq_ok.mpr ⟨outer, fun reference href => ?_, rfl⟩, hown, hitems,
      mapM_eq_ok.mpr ⟨inner, fun item hitem => ?_, rfl⟩, rfl⟩
    -- a reference takes one of the identities that are left
    · obtain ⟨e, he⟩ := hload reference href
      have hext := extension_of_load hcov (references_found hcov hm hf hnames href) (Session.sourced_start w) he
      have hless := Nat.lt_of_lt_of_le hext.unused_lt hu
      obtain ⟨steps, rfl⟩ : ∃ n, steps = n + 1 := ⟨steps - 1, by omega⟩
      obtain ⟨hinside, hreach⟩ := Inside.start (hres reference href e he).nests
      refine (extendedTo_eq_ok hw hagree).mpr ⟨e, he, ?_⟩
      rw [elementsTo_succ]
      exact houter reference href e he hext.content (hext.nodup hd)
        (Nat.le_of_lt_succ hless) hinside hreach
    -- an override takes one of the references that are unseen, or some of the depth
    · obtain ⟨c, hc⟩ := hcontext item hitem
      have hov := overrideOf_of_mem_zipIdx hm hitems hitem
      obtain ⟨seen', hi', hr'⟩ := hi.override hov
      have hchain : c.chain = ctx.chain := by
        obtain ⟨_, _, _, -, -, -, rfl⟩ := overrideContext_eq_ok.mp hc
        rfl
      refine bind_eq_ok.mpr ⟨c, mapError_eq_ok.mpr hc, ?_⟩
      exact hinner item hitem c hc (found_override hcov hov hf) (hchain ▸ hd) (hchain ▸ hu) hi' (by omega)

/-- A configuration that is resolved by itself or from a file has the elements that
can be derived for it. -/
theorem resolve_eq_ok (hw : w.ModulesApart) {name : String} {file : Option Path} :
    (r.resolve config name file).outcome w = .ok es ↔
      ∃ path, file.mapM w.resolve = .ok path ∧ Resolves r w config (startContext r name path) es := by
  rw [Resolver.resolve, resolveWith_eq_ok]
  refine exists_congr fun path => and_congr_right fun _ => ⟨resolves_of_elementsTo hw, fun h => ?_⟩
  have hd : (startContext r name path).chain.Nodup := by cases path <;> simp [startContext]
  have hf : Probe.texts.found config ⊆ textsAround w config := fun t ht => by simp [textsAround, ht]
  obtain ⟨hinside, hreach⟩ := Inside.start h.nests
  have hbound := Nat.lt_of_le_of_lt (unused_le _ (startContext r name path).chain)
    (identities_length w config)
  obtain ⟨steps, hsteps⟩ : ∃ n, chainBound w config = n + 1 := ⟨chainBound w config - 1, by omega⟩
  rw [hsteps] at hbound ⊢
  rw [elementsTo_succ]
  exact h.elements_eq_ok hw (covers_textsAround w config) hf hd (Nat.le_of_lt_succ hbound) hinside hreach

theorem fileConfig_outcome (path : Path) :
    (fileConfig path).outcome w = (ConfigFile.load w path).map Value.mapping := by
  unfold fileConfig
  rw [outcome_world]
  cases ConfigFile.load w path <;> rfl

theorem resolveFile_eq_ok (hw : w.ModulesApart) {file : Path} :
    (r.resolveFile file).outcome w = .ok es ↔ ∃ m path, ConfigFile.load w (r.base.join file) = .ok m ∧
      w.resolve (r.base.join file) = .ok path ∧
      Resolves r w (.mapping m) (startContext r (r.base.join file).name (some path)) es := by
  have hload : (r.resolveFile file).outcome w = (fileConfig (r.base.join file)).outcome w >>= fun config =>
      (r.resolve config (r.base.join file).name (some (r.base.join file))).outcome w := by
    have hrest := (fileConfig_settled (r := r) (w := w) (r.base.join file)).bind fun config _ =>
      resolve_settled hw config (r.base.join file).name (some (r.base.join file))
    rw [Resolver.resolveFile, (Settled.debug _ _).outcome_bind fun _ _ => hrest,
      (fileConfig_settled (r := r) _).outcome_bind fun config _ => resolve_settled hw config _ _]
    rfl
  have hpath : ∀ path, (some (r.base.join file)).mapM w.resolve = .ok path ↔
      ∃ q, w.resolve (r.base.join file) = .ok q ∧ path = some q := by
    intro path
    rw [Option.mapM_some]
    cases w.resolve (r.base.join file) <;> simp [eq_comm]
  rw [hload, fileConfig_outcome]
  cases ConfigFile.load w (r.base.join file) with
  | error e => simp
  | ok m =>
    rw [map_ok, ok_bind, resolve_eq_ok hw]
    simp only [hpath, Except.ok.injEq, exists_eq_left', exists_and_left]
    constructor
    · rintro ⟨_, ⟨q, hq, rfl⟩, h⟩
      exact ⟨q, hq, h⟩
    · rintro ⟨q, hq, h⟩
      exact ⟨_, ⟨q, hq, rfl⟩, h⟩

end Resolution

end Cascade
