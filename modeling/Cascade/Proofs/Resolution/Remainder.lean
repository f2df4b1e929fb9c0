import Cascade.Proofs.Resolution.Pruning
import Cascade.Proofs.Resolution.Termination

/-! # What deleting overrides leaves of a resolution

When a configuration has elements, it still has when rejected overrides are
deleted from it and from what it extends: all those elements, but for some that
are lost. The resolution has to be followed in both runs, since the second one
does less and has its own bounds for that. -/
namespace Cascade

theorem exists_mem_zipIdx {α : Type} {x : α} {l : List α} (h : x ∈ l) : ∃ i, (x, i) ∈ l.zipIdx := by
  obtain ⟨i, hi, rfl⟩ := List.getElem_of_mem h
  exact ⟨i, List.mem_zipIdx_iff_getElem?.mpr (List.getElem?_eq_getElem hi)⟩

theorem Pruned.zipIdx {α β : Type} {Gone : α → Prop} {Kept : α → β → Prop} {xs : List α} {ys : List β}
    (h : Pruned Gone Kept xs ys) (k k' : Nat) :
    Pruned (fun p : α × Nat => Gone p.1) (fun p q => Kept p.1 q.1) (xs.zipIdx k) (ys.zipIdx k') := by
  induction h generalizing k k' with
  | nil => exact .nil
  | drop hx _ ih => exact .drop hx (ih _ _)
  | keep hxy _ ih => exact .keep hxy (ih _ _)

namespace Resolution

variable {r : Resolver} {w : World} {accepts : String → Bool} {texts : List String}
  {config config' : Value} {ctx ctx' : Context}

theorem overrides_of_lists {store : Shared} {m : Entries} {v : Value} {items : List Value}
    (hl : Lists store config v items) (hne : items ≠ []) (hm : store.view config = .mapping m)
    (ctx : Context) : overrides store m ctx = .ok items := by
  obtain ⟨m', hm', hv, hitems⟩ := hl
  rw [hm] at hm'
  cases hm'
  refine overrides_eq_ok.mpr (.inr ⟨v, ?_, hitems⟩)
  rw [given?, hv, Option.filter_some, Shared.truthy, hitems]
  cases items with
  | nil => exact absurd rfl hne
  | cons first rest => rfl

/-- The overrides of a configuration that has elements come to an end, also
after some are deleted. -/
theorem nests_of_ok (hw : w.ModulesApart) {extended : String → Context → Action (List Element)}
    (hs : ∀ reference c, Settled r w (extended reference c)) {depth : Nat} {es : List Element}
    (ht : Thinned accepts w.shared config config')
    (h : (elements r extended depth config ctx).outcome w = .ok es) : Nests w.shared config' := by
  induction depth generalizing config config' ctx es with
  | zero => cases h
  | succ depth ih =>
    obtain ⟨m, _, _, _, items, inner, hm, -, -, -, -, hitems, hinner, -⟩ := (elements_eq_ok hw hs).mp h
    obtain ⟨m', hm', -, -, hoverrides⟩ := ht.view hm
    obtain ⟨items', hitems', hp⟩ := hoverrides ctx items hitems
    refine .intro config' fun override' ho => ?_
    obtain ⟨v, listed, hl, hmem⟩ := ho
    have hlisted := overrides_of_lists hl (List.ne_nil_of_mem hmem) hm' ctx
    rw [hitems'] at hlisted
    cases hlisted
    obtain ⟨override, ho, hthin⟩ := hp.mem hmem
    obtain ⟨i, hi⟩ := exists_mem_zipIdx ho
    obtain ⟨es', hes'⟩ := mapM_ok_of_mem hinner hi
    obtain ⟨c, -, hc⟩ := bind_eq_ok.mp hes'
    exact ih hthin hc

theorem Agrees.outcome {α : Type} {a b : Action α} {R : α → α → Prop} {same : Prop}
    (h : Agrees (CoherentPair r w) same a b R) {x : α} (hx : a.outcome w = .ok x) :
    ∃ y, b.outcome w = .ok y ∧ R x y :=
  (h _ _ ⟨Session.coherent_start r w, Session.coherent_start r w⟩).2.ok hx

/-- A configuration that is accepted still is when overrides are deleted from it,
with the same references and own elements. -/
theorem accepted_thinned (hw : w.ModulesApart) (ht : Thinned accepts w.shared config config')
    (hc : Renamed False ctx ctx') {m : Entries} {names : List String} {own : List Element}
    {items : List Value} (hm : w.shared.view config = .mapping m)
    (hcheck : checkMembers w.shared m ctx = .ok ()) (hnames : references w.shared m ctx = .ok names)
    (hown : (ownElements r w.shared m ctx).outcome w = .ok own)
    (hitems : overrides w.shared m ctx = .ok items) :
    ∃ m' own' items', w.shared.view config' = .mapping m' ∧ checkMembers w.shared m' ctx' = .ok () ∧
      references w.shared m' ctx' = .ok names ∧
      (ownElements r w.shared m' ctx').outcome w = .ok own' ∧ Survives accepts own own' ∧
      (∀ c, overrides w.shared m' c = .ok items') ∧
      Pruned (Rejected accepts w.shared) (Thinned accepts w.shared) items items' := by
  obtain ⟨m', hm', hkeys, hfields, hoverrides⟩ := ht.view hm
  obtain ⟨items', hitems', hp⟩ := hoverrides ctx items hitems
  obtain ⟨own', hown', hlike⟩ := Agrees.outcome (ownElements_agrees (r := r) hw.interchangeable m hc) hown
  rw [← ownElements_congr fun key _ h => hfields key h] at hown'
  obtain ⟨name, rfl, -⟩ := hc
  refine ⟨m', own', items', hm', checkMembers_named name (checkMembers_congr hkeys hfields hcheck), ?_,
    hown', .of_map_eq hlike.erased, hitems', hp⟩
  rw [references_congr (hfields "extends" (by decide))]
  exact references_named hnames name

/-- What is left of one configuration, given what is left of those it extends. -/
theorem elements_pruned (hw : w.ModulesApart) (hcov : Covers w texts)
    {extended extended' : String → Context → Action (List Element)} {chain : List String}
    (hs : ∀ reference c, Settled r w (extended reference c))
    (hs' : ∀ reference c, Settled r w (extended' reference c))
    (hlost : ∀ reference c, Outside accepts c.criteria →
      Always (extended reference c) fun es => ∀ e ∈ es, Lost accepts e)
    (hx : ∀ reference ∈ texts, ∀ c c', Renamed False c c' → c.chain = chain →
      ∀ es, (extended reference c).outcome w = .ok es →
        ∃ es', (extended' reference c').outcome w = .ok es' ∧ Survives accepts es es')
    {depth depth' : Nat} {seen : List String} {es : List Element}
    (ht : Thinned accepts w.shared config config') (hf : Probe.texts.found config' ⊆ texts)
    (hi : Inside w.shared seen config') (hd : reach w.shared seen config' < depth')
    (hc : Renamed False ctx ctx') (hchain : ctx.chain = chain)
    (h : (elements r extended depth config ctx).outcome w = .ok es) :
    ∃ es', (elements r extended' depth' config' ctx').outcome w = .ok es' ∧
      Survives accepts es es' := by
  induction depth generalizing config config' ctx ctx' es seen depth' with
  | zero => cases h
  | succ depth ih =>
    obtain ⟨m, names, outer, own, items, inner, hm, hcheck, hnames, houter, hown, hitems, hinner, rfl⟩ :=
      (elements_eq_ok hw hs).mp h
    obtain ⟨m', own', items', hm', hcheck', hnames', hown', hsown, hitems', hp⟩ :=
      accepted_thinned hw ht hc hm hcheck hnames hown hitems
    have hnever : ∀ reference ∈ names, False → ∀ es, (extended reference ctx).outcome w = .ok es →
        ∀ e ∈ es, Lost accepts e := fun _ _ hfalse => hfalse.elim
    have hsame : Pruned (fun _ => False) Eq names names := .refl (fun _ => rfl) names
    obtain ⟨outer', houter', hsouter⟩ := mapM_survives hsame
      hnever (fun reference href _ _ heq es hes => heq ▸
        hx reference (references_found hcov hm' hf hnames' href) ctx ctx' hc hchain es hes) houter
    obtain ⟨depth', rfl⟩ : ∃ n, depth' = n + 1 := ⟨depth' - 1, by omega⟩
    -- an override that rejects the file leads to lost elements only; any other one is thinned as well
    have hdeleted : ∀ item ∈ items.zipIdx, Rejected accepts w.shared item.1 → ∀ es,
        overrideOutcome r w extended depth ctx item = .ok es → ∀ e ∈ es, Lost accepts e := by
      intro item _ hr es hes
      obtain ⟨c, hcontext, hes⟩ := bind_eq_ok.mp hes
      exact Always.of_outcome
        (inherits_lost.elements hlost depth item.1 (outside_of_rejected hr (mapError_eq_ok.mp hcontext))) hes
    have hleft : ∀ item ∈ items.zipIdx, ∀ item' ∈ items'.zipIdx, Thinned accepts w.shared item.1 item'.1 →
        ∀ es, overrideOutcome r w extended depth ctx item = .ok es →
          ∃ es', overrideOutcome r w extended' depth' ctx' item' = .ok es' ∧ Survives accepts es es' := by
      intro item _ item' hitem' hthin es hes
      obtain ⟨c, hcontext, hes⟩ := bind_eq_ok.mp hes
      obtain ⟨c', hcontext', hrenamed, hcchain⟩ :=
        overrideContext_thinned hthin hc (mapError_eq_ok.mp hcontext) item'.2
      have hov := overrideOf_of_mem_zipIdx hm' (hitems' ctx') hitem'
      obtain ⟨seen', hi', hr'⟩ := hi.override hov
      have hless : reach w.shared seen' item'.1 < depth' := by omega
      obtain ⟨es', hes', hsurvive⟩ := ih hthin (found_override hcov hov hf) hi' hless hrenamed
        (hcchain.trans hchain) hes
      exact ⟨es', bind_eq_ok.mpr ⟨c', mapError_eq_ok.mpr hcontext', hes'⟩, hsurvive⟩
    obtain ⟨inner', hinner', hsinner⟩ := mapM_survives (hp.zipIdx 0 0) hdeleted hleft hinner
    exact ⟨_, (elements_eq_ok hw hs').mpr ⟨m', names, outer', own', items', inner', hm', hcheck', hnames',
      houter', hown', hitems' ctx', hinner', rfl⟩,
      (hsouter.append hsown).append hsinner⟩

/-- Leading on to configurations that have been edited. -/
def edited (edit : Context → Value → Value) (load : Loader) : Loader := fun reference ctx => do
  let (config, ctx) ← load reference ctx
  return (edit ctx config, ctx)

/-- The elements of what a reference leads to. -/
def extendedTo (r : Resolver) (load : Loader) (steps : Nat) (reference : String) (ctx : Context) :
    Action (List Element) := do
  let (config, ctx) ← load reference ctx
  elementsTo r load steps config ctx

theorem outcome_shared {α : Type} (f : Shared → Action α) :
    (Action.shared >>= f).outcome w = (f w.shared).outcome w := rfl

theorem elementsTo_succ (load : Loader) (steps : Nat) (config : Value) (ctx : Context) :
    (elementsTo r load (steps + 1) config ctx).outcome w =
      (elements r (extendedTo r load steps) (depthBound w.shared config) config ctx).outcome w := by
  rw [elementsTo, outcome_shared]
  rfl

theorem edited_agrees (edit : Context → Value → Value) {load : Loader}
    (hl : LoadersAgree (CoherentPair r w) True load load) : LoadersAgree (CoherentPair r w) True (edited edit load) (edited edit load) := by
  intro reference ctx ctx' h
  refine (hl reference ctx ctx' h).bind fun e e' he => .pure ?_
  obtain ⟨config, c⟩ := e
  obtain ⟨config', c'⟩ := e'
  obtain ⟨rfl, name, rfl, hname⟩ := he
  have : c.named name = c := by rw [← hname trivial]; rfl
  rw [this]
  exact ⟨rfl, .refl c⟩

theorem loader_settled {load : Loader} (hl : LoadersAgree (CoherentPair r w) True load load) (reference : String)
    (ctx : Context) : Settled r w (load reference ctx) := by
  refine settled_of_agrees (hl reference ctx ctx (.refl ctx)) ?_
  rintro ⟨config, c⟩ ⟨_, _⟩ ⟨rfl, name, rfl, hname⟩
  have : c.named name = c := by rw [← hname trivial]; rfl
  rw [this]

theorem extendedTo_settled (hw : w.ModulesApart) {load : Loader} (hl : LoadersAgree (CoherentPair r w) True load load)
    (steps : Nat) (reference : String) (ctx : Context) :
    Settled r w (extendedTo r load steps reference ctx) :=
  (loader_settled hl reference ctx).bind fun e _ => elementsTo_settled hw hl steps e.1 e.2

theorem extendedTo_eq_ok (hw : w.ModulesApart) {load : Loader} (hl : LoadersAgree (CoherentPair r w) True load load)
    {steps : Nat} {reference : String} {es : List Element} :
    (extendedTo r load steps reference ctx).outcome w = .ok es ↔
      ∃ e, (load reference ctx).outcome w = .ok e ∧
        (elementsTo r load steps e.1 e.2).outcome w = .ok es := by
  rw [extendedTo, (loader_settled hl reference ctx).outcome_bind fun e _ =>
    elementsTo_settled hw hl steps e.1 e.2, bind_eq_ok]

theorem edited_outcome {edit : Context → Value → Value} {load : Loader}
    (hl : LoadersAgree (CoherentPair r w) True load load) {reference : String} {e : Extended}
    (h : (load reference ctx).outcome w = .ok e) :
    (edited edit load reference ctx).outcome w = .ok (edit e.2 e.1, e.2) := by
  rw [edited, (loader_settled hl reference ctx).outcome_bind fun e _ => .pure _, h]
  rfl

/-- What is left of a resolution whose configurations are thinned on the way. -/
theorem elementsTo_pruned (hw : w.ModulesApart) (hcov : Covers w texts)
    {edit : Context → Value → Value} (hedit : ∀ c v, Thinned accepts w.shared v (edit c v))
    {steps steps' : Nat} {es : List Element} (ht : Thinned accepts w.shared config config')
    (hf : Probe.texts.found config' ⊆ texts) (hd : ctx.chain.Nodup)
    (hu : unused (identities w texts) ctx.chain < steps') (hc : Renamed False ctx ctx')
    (h : (elementsTo r (loadExtended r) steps config ctx).outcome w = .ok es) :
    ∃ es', (elementsTo r (edited edit (loadExtended r)) steps' config' ctx').outcome w = .ok es' ∧
      Survives accepts es es' := by
  induction steps generalizing steps' config config' ctx ctx' es with
  | zero => cases h
  | succ steps ih =>
    obtain ⟨steps', rfl⟩ : ∃ n, steps' = n + 1 := ⟨steps' - 1, by omega⟩
    rw [elementsTo_succ] at h ⊢
    have hagree : LoadersAgree (CoherentPair r w) True (loadExtended r) (loadExtended r) := loadExtended_agrees hw.interchangeable
    have hagree' := edited_agrees edit hagree
    have hs := extendedTo_settled hw hagree steps
    obtain ⟨hinside, hreach⟩ := Inside.start (nests_of_ok hw hs ht h)
    refine elements_pruned hw hcov hs (extendedTo_settled hw hagree' steps') ?_ ?_ ht hf hinside hreach hc
      rfl h
    -- below criteria that reject the file all elements are lost
    · intro reference c hout
      exact (loadExtended_criteria reference c).bind fun e he =>
        inherits_lost.elementsTo loadExtended_outside steps e.1 (he ▸ hout)
    -- what is loaded is thinned when it is entered, with fewer identities left
    · intro reference href c c' hcc hchain es hes
      rw [← hchain] at hd hu
      obtain ⟨e, hload, hes⟩ := (extendedTo_eq_ok hw hagree).mp hes
      have hext := extension_of_load hcov href (Session.sourced_start w) hload
      obtain ⟨e', hload', hsame, hrenamed⟩ :=
        Agrees.outcome (loadExtended_agrees (r := r) hw.interchangeable reference c c' hcc) hload
      have hthin : Thinned accepts w.shared e.1 (edit e'.2 e'.1) := hsame ▸ hedit e'.2 e'.1
      have hleft := Nat.lt_of_lt_of_le hext.unused_lt (Nat.le_of_lt_succ hu)
      obtain ⟨es', hes', hsurvive⟩ := ih hthin (hthin.found hcov.shared hext.content)
        (hext.nodup hd) hleft hrenamed hes
      exact ⟨es', (extendedTo_eq_ok hw hagree').mpr ⟨_, edited_outcome hagree hload', hes'⟩, hsurvive⟩

theorem outcome_world {α : Type} (f : World → Action α) :
    (Action.world >>= f).outcome w = (f w).outcome w := rfl

theorem outcome_ofFault_bind {α β : Type} (x : Except Fault α) (f : α → Action β) :
    (Action.ofFault x >>= f).outcome w = x.mapError .fault >>= fun y => (f y).outcome w := by
  cases x <;> rfl

theorem resolveWith_eq_ok {load : Loader} {config : Value} {name : String} {file : Option Path}
    {es : List Element} : (r.resolveWith load config name file).outcome w = .ok es ↔
      ∃ path, file.mapM w.resolve = .ok path ∧
        (elementsTo r load (chainBound w config) config (startContext r name path)).outcome w = .ok es := by
  rw [Resolver.resolveWith, outcome_world]
  cases file with
  | none =>
    simp only [Option.mapM_none, pure_bind, pure_eq_ok, Except.ok.injEq, exists_eq_left']
    exact Iff.rfl
  | some p =>
    simp only [Option.mapM_some, map_eq_pure_bind, bind_assoc, pure_bind, outcome_ofFault_bind, bind_eq_ok,
      mapError_eq_ok]
    constructor
    · rintro ⟨q, hq, h⟩
      exact ⟨some q, ⟨q, hq, rfl⟩, h⟩
    · rintro ⟨_, ⟨q, hq, hsome⟩, h⟩
      cases hsome
      exact ⟨q, hq, h⟩

/-- A resolution of a configuration without rejected overrides, in it or in what
it extends, has the elements that the resolution with them has, except for lost ones. -/
theorem resolve_pruned (hw : w.ModulesApart) {edit : Context → Value → Value}
    (hedit : ∀ c v, Thinned accepts w.shared v (edit c v)) (ht : Thinned accepts w.shared config config')
    {name : String} {file : Option Path} {es : List Element}
    (h : (r.resolve config name file).outcome w = .ok es) :
    ∃ es', (r.resolveWith (edited edit (loadExtended r)) config' name file).outcome w = .ok es' ∧
      Survives accepts es es' := by
  obtain ⟨path, hpath, h⟩ := resolveWith_eq_ok.mp h
  have hchain : (startContext r name path).chain.Nodup := by cases path <;> simp [startContext]
  have hcontent : Probe.texts.found config' ⊆ textsAround w config' := fun t htext => by
    simp [textsAround, htext]
  obtain ⟨es', hes', hsurvive⟩ := elementsTo_pruned hw (covers_textsAround w config') hedit ht hcontent
    hchain (Nat.lt_of_le_of_lt (unused_le _ _) (identities_length w config')) (.refl _) h
  exact ⟨es', resolveWith_eq_ok.mpr ⟨path, hpath, hes'⟩, hsurvive⟩

end Resolution

end Cascade
