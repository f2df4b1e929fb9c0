import Cascade.Proofs.Resolution.Checks
import Cascade.Proofs.Resolution.Extends
import Cascade.Proofs.Tree

/-! # Resolution comes to an end

Resolution goes into the overrides of a configuration, which are parts of it,
and into the configurations that it extends, which need not be smaller. The
chain is what bounds the latter: every one of them adds an identity that was not
there, and a world has only finitely many. -/
namespace Cascade

/-- Every configuration of a world can be read and is a finite tree. -/
structure World.FiniteConfigs (w : World) : Prop where
  readable : ∀ p, ConfigFile.load w p ≠ .error (.fault .endless)
  trees : ∀ v, w.HasConfig v → w.shared.IsTree v

namespace Resolution

variable {w : World} {texts : List String} {C : List String → Prop}

/-! ## Parts of a configuration -/

theorem found_field? {m : Entries} (h : Probe.texts.foundInEntries m ⊆ texts) (name : String) :
    Probe.texts.found ((Entries.field? m name).getD .null) ⊆ texts :=
  Probe.found_of_get? h (.str name)

theorem mem_of_strings? {items : List Value} {names : List String}
    (h : Value.strings? items = some names) {name : String} (hn : name ∈ names) : .str name ∈ items := by
  induction items generalizing names with
  | nil => cases h; cases hn
  | cons v rest ih =>
    rw [Value.strings?, List.mapM_cons] at h
    obtain ⟨first, hf, h⟩ := Option.bind_eq_some_iff.mp h
    obtain ⟨others, ho, h⟩ := Option.bind_eq_some_iff.mp h
    cases h
    rcases List.mem_cons.mp hn with rfl | hn
    · cases v <;> simp only [Value.str?, reduceCtorEq, Option.some.injEq] at hf
      simp [hf]
    · exact List.mem_cons_of_mem _ (ih ho hn)

/-- The references of a configuration are texts in it. -/
theorem references_found (hw : Covers w texts) {config : Value} {m : Entries}
    (hm : w.shared.view config = .mapping m) (hf : Probe.texts.found config ⊆ texts) {ctx : Context}
    {names : List String} (h : references w.shared m ctx = .ok names) : names ⊆ texts := by
  have hentries := Probe.found_view hw.shared hf
  rw [hm] at hentries
  have hv := Probe.found_view hw.shared (found_field? hentries "extends")
  unfold references at h
  split at h
  · cases h
    exact List.nil_subset _
  · rename_i s hs
    cases h
    rw [hs] at hv
    exact List.Subset.trans (fun _ hmem => (List.mem_filter.mp hmem).1) hv
  · rename_i items hs
    split at h
    · rename_i names' hn
      cases h
      rw [hs] at hv
      intro name hmem
      have := Probe.found_of_mem_items (p := Probe.texts) (mem_of_strings? hn (List.mem_filter.mp hmem).1)
      exact hv (this (by simp [Probe.found, Probe.texts, Value.str?]))
    · cases h
  · cases h

theorem overrideOf_of_mem {store : Shared} {config : Value} {m : Entries}
    (hm : store.view config = .mapping m) {ctx : Context} {items : List Value}
    (h : overrides store m ctx = .ok items) {override : Value} (ho : override ∈ items) :
    OverrideOf store override config := by
  unfold overrides at h
  split at h
  · cases h
    cases ho
  · rename_i v hg
    split at h
    · rename_i items' hv
      cases h
      exact ⟨v, items, ⟨m, hm, (Option.filter_eq_some_iff.mp hg).1, hv⟩, ho⟩
    · cases h

theorem overrideOf_of_mem_zipIdx {store : Shared} {config : Value} {m : Entries}
    (hm : store.view config = .mapping m) {ctx : Context} {items : List Value}
    (h : overrides store m ctx = .ok items) {item : Value × Nat} (ho : item ∈ items.zipIdx) :
    OverrideOf store item.1 config :=
  overrideOf_of_mem hm h ((List.mem_zipIdx' ho).2 ▸ List.getElem_mem _)

theorem found_override (hw : Covers w texts) {config override : Value}
    (ho : OverrideOf w.shared override config) (h : Probe.texts.found config ⊆ texts) :
    Probe.texts.found override ⊆ texts := by
  obtain ⟨v, items, hl, hmem⟩ := ho
  exact Probe.found_part hw.shared (hl.parts.2 _ hmem) (Probe.found_part hw.shared hl.parts.1 h)

/-! ## The two recursions -/

/-- Overrides come to an end before the depth does. -/
theorem elements_gives (hw : Covers w texts) (r : Resolver)
    {extended : String → Context → Action (List Element)} {chain : List String}
    (hext : ∀ reference ∈ texts, ∀ ctx : Context, ctx.chain = chain →
      Gives w C (extended reference ctx) fun _ => True)
    {depth : Nat} {seen : List String} {config : Value} {ctx : Context}
    (hi : Inside w.shared seen config) (hd : reach w.shared seen config < depth)
    (ht : Probe.texts.found config ⊆ texts) (hc : ctx.chain = chain) :
    Gives w C (elements r extended depth config ctx) fun _ => True := by
  induction depth generalizing seen config ctx with
  | zero => omega
  | succ depth ih =>
    unfold elements
    refine Gives.shared.bind fun store hs => ?_
    subst hs
    split
    · rename_i m hm
      refine (ofProblem_gives (checks_checkMembers _ _ _)).bind fun _ _ => ?_
      refine (ofProblem_gives (checks_references _ _ _)).bind fun names hn => ?_
      refine (Yields.mapM (R := fun _ => True) fun name hname =>
        hext name (references_found hw hm ht hn hname) ctx hc).bind fun _ _ => ?_
      refine (ownElements_gives r m ctx).bind fun _ _ => ?_
      refine (ofProblem_gives (checks_overrides _ _ _)).bind fun items ho => ?_
      refine (Yields.mapM (R := fun _ => True) fun override hover => ?_).bind fun _ _ => .pure trivial
      have hov := overrideOf_of_mem_zipIdx hm ho hover
      -- an override has less to go than its configuration, which is what the depth counts
      obtain ⟨seen', hi', hr'⟩ := hi.override hov
      refine (ofProblem_gives (checks_overrideContext _ _ _)).bind fun ctx' hctx => ?_
      obtain ⟨_, _, _, -, -, -, rfl⟩ := overrideContext_eq_ok.mp hctx
      exact ih hi' (by omega) (found_override hw hov ht) hc
    · exact .throw ⟨by simp, by simp⟩

/-- Configurations that extend each other come to an end before the steps do. -/
theorem elementsTo_gives (hw : Covers w texts) (hf : w.FiniteConfigs) (r : Resolver) {steps : Nat}
    {config : Value} {ctx : Context} (hs : unused (identities w texts) ctx.chain < steps)
    (hn : Nests w.shared config) (hc : Probe.texts.found config ⊆ texts) (hd : ctx.chain.Nodup) :
    Gives w IsCycle (elementsTo r (loadExtended r) steps config ctx) fun _ => True := by
  induction steps generalizing config ctx with
  | zero => omega
  | succ steps ih =>
    unfold elementsTo
    refine Gives.shared.bind fun store hstore => ?_
    subst hstore
    obtain ⟨hinside, hreach⟩ := Inside.start hn
    refine elements_gives hw r (fun reference href ctx' hctx' => ?_) hinside hreach hc rfl
    rw [← hctx'] at hd hs
    refine (loadExtended_gives hw r href (closes_of_nodup hd reference)).bind fun e he => ?_
    have hnests : Nests w.shared e.1 := he.config.elim (fun hv => nests_of_isTree (hf.trees _ hv))
      nests_of_not_mapping
    -- the identity is new on the chain, so that fewer are left, which is what the steps count
    exact ih (Nat.lt_of_lt_of_le he.unused_lt (Nat.le_of_lt_succ hs)) hnests he.content (he.nodup hd)

theorem resolve_gives_elements (r : Resolver) (hw : w.FiniteConfigs) {config : Value}
    (hc : w.shared.IsTree config) (name : String) (file : Option Path) :
    Gives w IsCycle (r.resolve config name file) fun _ => True := by
  unfold Resolver.resolve Resolver.resolveWith
  refine Gives.world.bind fun w' hw' => ?_
  subst hw'
  refine (Yields.optionMapM (R := fun _ => True) fun p _ => (resolve_gives p).mono fun _ _ => trivial).bind
    fun path _ => ?_
  refine elementsTo_gives (covers_textsAround w config) hw r ?_ (nests_of_isTree hc) ?_ ?_
  · exact Nat.lt_of_le_of_lt (unused_le _ _) (identities_length w config)
  · intro t ht
    simp [textsAround, ht]
  · cases path <;> simp

theorem resolveFile_gives (r : Resolver) (hw : w.FiniteConfigs) (file : Path) :
    Gives w IsCycle (r.resolveFile file) fun _ => True := by
  unfold Resolver.resolveFile
  refine (Gives.debug _ _).bind fun _ _ => ?_
  refine (fileConfig_gives _).bind fun config hc => ?_
  obtain ⟨m, hl, rfl⟩ := hc
  exact resolve_gives_elements r hw (hw.trees _ (.file hl)) _ _

/-! ## Chains -/

/-- The configurations that are nested in one, by overrides and by extending. -/
inductive Nested (r : Resolver) (w : World) (start : Extended) : Extended → Prop where
  | start : Nested r w start start
  | override {config override : Value} {ctx ctx' : Context} {m : Entries} {items : List Value}
      {name : String} : Nested r w start (config, ctx) → w.shared.view config = .mapping m →
      overrides w.shared m ctx = .ok items → override ∈ items →
      overrideContext w.shared override { ctx with name } = .ok ctx' →
      Nested r w start (override, ctx')
  | extends {config : Value} {ctx : Context} {m : Entries} {names : List String} {reference : String}
      {s t : Session} {e : Extended} : Nested r w start (config, ctx) →
      w.shared.view config = .mapping m → references w.shared m ctx = .ok names → reference ∈ names →
      s.Sourced w → (loadExtended r reference ctx).runFrom s = (.ok e, t) → Nested r w start e

/-- Along every way into nested configurations the chain has no identity twice,
and what it has gained is among the identities of the world. -/
theorem Nested.chain {r : Resolver} {config config' : Value} {ctx ctx' : Context}
    (h : Nested r w (config, ctx) (config', ctx')) (hd : ctx.chain.Nodup) :
    ctx'.chain.Nodup ∧ ∃ gained, ctx'.chain = ctx.chain ++ gained ∧
      gained ⊆ identities w (textsAround w config) := by
  have hcov := covers_textsAround w config
  -- the texts on the way are kept too, since the identities are made of them
  suffices H : ∀ e, Nested r w (config, ctx) e → Probe.texts.found e.1 ⊆ textsAround w config ∧
      e.2.chain.Nodup ∧ ∃ gained, e.2.chain = ctx.chain ++ gained ∧
        gained ⊆ identities w (textsAround w config) from (H _ h).2
  intro e he
  induction he with
  | start => exact ⟨fun t ht => by simp [textsAround, ht], hd, [], by simp, List.nil_subset _⟩
  | override _ hm ho hmem hctx ih =>
    obtain ⟨ht, hd, gained, hg⟩ := ih
    obtain ⟨_, _, _, -, -, -, rfl⟩ := overrideContext_eq_ok.mp hctx
    exact ⟨found_override hcov (overrideOf_of_mem hm ho hmem) ht, hd, gained, hg⟩
  | @«extends» _ ctx₁ m names reference s t e _ hm hn hmem hs hrun ih =>
    obtain ⟨ht, hd, gained, hg, hsub⟩ := ih
    have hext := extension_of_load hcov (references_found hcov hm ht hn hmem) hs (congrArg Prod.fst hrun)
    obtain ⟨identity, hid, -, hchain⟩ := hext.chain
    refine ⟨hext.content, hext.nodup hd, gained ++ [identity], ?_, ?_⟩
    · rw [hchain, hg, List.append_assoc]
    · exact List.append_subset.mpr ⟨hsub, by simpa using hid⟩

/-- Resolving a configuration or a file ends with elements or with a failure,
whatever was resolved before. A failure that reports a cycle gives a chain whose
first and last identities are equal, and no other two. On the way the chain has
no identity twice and no other ones than those it started with and those of the
world, of which there are finitely many. -/
theorem resolve_ends (r : Resolver) (hw : w.FiniteConfigs) {s : Session} (hs : s.Sourced w) :
    (∀ config name file, w.shared.IsTree config →
      ((∃ elements, ((r.resolve config name file).runFrom s).1 = .ok elements) ∨
        ∃ e, ((r.resolve config name file).runFrom s).1 = .error e ∧ e ≠ .fault .endless ∧
          ∀ chain, e = .problem (.extendsCycle chain) → IsCycle chain) ∧
      ((r.resolve config name file).runFrom s).2.Sourced w) ∧
    (∀ file,
      ((∃ elements, ((r.resolveFile file).runFrom s).1 = .ok elements) ∨
        ∃ e, ((r.resolveFile file).runFrom s).1 = .error e ∧ e ≠ .fault .endless ∧
          ∀ chain, e = .problem (.extendsCycle chain) → IsCycle chain) ∧
      ((r.resolveFile file).runFrom s).2.Sourced w) ∧
    ∀ config ctx config' ctx', Nested r w (config, ctx) (config', ctx') → ctx.chain.Nodup →
      ctx'.chain.Nodup ∧ ∃ gained, ctx'.chain = ctx.chain ++ gained ∧
        gained ⊆ identities w (textsAround w config) := by
  have ended : ∀ {a : Action (List Element)}, Gives w IsCycle a (fun _ => True) →
      ((∃ elements, (a.runFrom s).1 = .ok elements) ∨
        ∃ e, (a.runFrom s).1 = .error e ∧ e ≠ .fault .endless ∧
          ∀ chain, e = .problem (.extendsCycle chain) → IsCycle chain) ∧ (a.runFrom s).2.Sourced w := by
    intro a ha
    obtain ⟨ht, hr⟩ := ha s hs
    refine ⟨?_, ht⟩
    cases hx : (a.runFrom s).1 with
    | ok elements => exact .inl ⟨elements, rfl⟩
    | error e =>
      rw [hx] at hr
      refine .inr ⟨e, rfl, fun he => ?_, hr.cycle⟩
      obtain ⟨p, hp⟩ := hr.ended he
      exact hw.readable p (he ▸ hp)
  exact ⟨fun config name file hc => ended (resolve_gives_elements r hw hc name file),
    fun file => ended (resolveFile_gives r hw file), fun _ _ _ _ h hd => h.chain hd⟩

/-! ## Worlds of configurations alone -/

/-- A world without files whose modules define configurations and nothing else. -/
structure ConfigsAlone (w : World) : Prop where
  entries : w.entries = []
  members : ∀ members, w.Defines members → ∀ name, name ≠ "config" → members.lookup name = none
  trees : ∀ members v, w.Defines members → members.lookup "config" = some v → w.shared.IsTree v

namespace ConfigsAlone

variable {s : Session} {module x : Value} {name : String}

theorem hasModule_attribute? (hw : ConfigsAlone w) (hs : s.Imports w) (hm : w.HasModule module)
    (hn : name ≠ "config") (h : attribute? s module name = some x) : w.HasModule x := by
  obtain ⟨_, members, rfl, hd⟩ := hm
  rcases Option.or_eq_some_iff.mp h with hsub | ⟨-, hl⟩
  · exact hs.submodule? hsub
  · rw [hw.members members hd name hn] at hl
    cases hl

theorem hasModule_pluginSource (hw : ConfigsAlone w) (hs : s.Imports w) (hm : w.HasModule module) :
    w.HasModule (pluginSource s module) := by
  unfold pluginSource
  cases ha : attribute? s module "plugin" with
  | none => exact hm
  | some x =>
    obtain ⟨name, members, rfl, hd⟩ := hw.hasModule_attribute? hs hm (by decide) ha
    exact ⟨name, members, rfl, hd⟩

/-- No plugin of such a world has anything under any name. -/
theorem empty_of_plugin (hw : ConfigsAlone w) (hs : s.Imports w) (hm : w.HasModule module) :
    ∀ e ∈ pluginDefinition s module, ∀ m, w.shared.view e.2 = .mapping m → m = [] := by
  have notMapping : ∀ v, w.HasModule v → ∀ m, w.shared.view v ≠ .mapping m := by
    rintro _ ⟨name, members, rfl, -⟩ m h
    cases h
  refine forall_mem_pluginDefinition (P := fun v => ∀ m, w.shared.view v = .mapping m → m = [])
    (fun m h => ?_) (fun m h => ?_) fun n hn x hx m h => ?_
  · cases h
    rfl
  · exact absurd (hs.world ▸ h) (notMapping _ (hw.hasModule_pluginSource hs hm) m)
  · have hne : n ≠ "config" := by
      rintro rfl
      revert hn
      decide
    exact absurd h (notMapping x (hw.hasModule_attribute? hs (hw.hasModule_pluginSource hs hm) hne hx) m)

theorem load_missing (hw : ConfigsAlone w) (p : Path) :
    ConfigFile.load w p = .error (.problem (.missing .config p.text none none)) := by
  rw [ConfigFile.load, World.isFile_of_no_entries hw.entries p]
  rfl

theorem finiteConfigs (hw : ConfigsAlone w) : w.FiniteConfigs := by
  refine ⟨fun p => by rw [hw.load_missing]; simp, fun v hv => ?_⟩
  cases hv with
  | file hl => rw [hw.load_missing] at hl; cases hl
  | module hd hl => exact hw.trees _ v hd hl
  | @plugin s module _ m name hs hm hview hv =>
    have hempty : m = [] := by
      simp only [Shared.member, Shared.view, Entries.field?, Entries.get?] at hview
      cases hf : (pluginDefinition s module).find? fun e => e.1.same (.str "configs") with
      | none => rw [hf] at hview; cases hview
      | some e =>
        rw [hf] at hview
        exact hw.empty_of_plugin hs hm e (List.mem_of_find?_eq_some hf) m hview
    subst hempty
    cases hv
  | rules name => exact isTree_of_not_hasShared rfl

end ConfigsAlone

/-! Two packages whose configurations extend each other. -/

def extending (names : List String) : Value := .mapping [(.str "extends", .list (names.map .str))]

def mutualWorld : World where
  here := ["work"]
  available := [("eslint_config_a", [("config", extending ["b"])]),
    ("eslint_config_b", [("config", extending ["a"])])]

theorem hasShared_extending (names : List String) : (extending names).hasShared = false := by
  simp [extending, Value.hasShared, Value.hasSharedEntries, hasSharedItems_eq]

theorem defines_mutualWorld {members : List (String × Value)} (h : mutualWorld.Defines members) :
    members = [] ∨ ∃ names, members = [("config", extending names)] := by
  rcases h with rfl | ⟨names, hm⟩ | ⟨name, hm⟩
  · exact .inl rfl
  · cases hm
  · simp only [mutualWorld, List.mem_cons, Prod.mk.injEq, List.not_mem_nil, or_false] at hm
    rcases hm with ⟨-, rfl⟩ | ⟨-, rfl⟩
    · exact .inr ⟨_, rfl⟩
    · exact .inr ⟨_, rfl⟩

theorem finiteConfigs_mutualWorld : mutualWorld.FiniteConfigs := by
  refine ConfigsAlone.finiteConfigs ⟨rfl, fun members hd name hn => ?_, fun members v hd hl => ?_⟩
  · rcases defines_mutualWorld hd with rfl | ⟨names, rfl⟩
    · rfl
    · rw [List.lookup_cons, beq_eq_false_iff_ne.mpr hn]
      rfl
  · rcases defines_mutualWorld hd with rfl | ⟨names, rfl⟩
    · cases hl
    · cases hl
      exact isTree_of_not_hasShared (hasShared_extending names)

theorem resolve_mutualWorld : mutualWorld.FiniteConfigs ∧
    (Session.start mutualWorld).Sourced mutualWorld ∧
    mutualWorld.shared.IsTree (extending ["a"]) ∧
    (((Resolver.mk ⟨"/", ["work"]⟩ ⟨"/", ["work"]⟩).resolve (extending ["a"]) "<input>" none).runFrom
      (Session.start mutualWorld)).1 =
        .error (.problem (.extendsCycle ["eslint-config-a", "eslint-config-b", "eslint-config-a"])) ∧
    IsCycle ["eslint-config-a", "eslint-config-b", "eslint-config-a"] := by
  have hc : mutualWorld.shared.IsTree (extending ["a"]) :=
    isTree_of_not_hasShared (hasShared_extending _)
  have hs := Session.sourced_start mutualWorld
  have hr : (((Resolver.mk ⟨"/", ["work"]⟩ ⟨"/", ["work"]⟩).resolve (extending ["a"]) "<input>"
      none).runFrom (Session.start mutualWorld)).1 =
        .error (.problem (.extendsCycle ["eslint-config-a", "eslint-config-b", "eslint-config-a"])) :=
    rfl
  refine ⟨finiteConfigs_mutualWorld, hs, hc, hr, ?_⟩
  rcases ((resolve_ends _ finiteConfigs_mutualWorld hs).1 (extending ["a"]) "<input>" none hc).1 with
    ⟨elements, hok⟩ | ⟨e, herr, -, hcycle⟩
  · rw [hr] at hok
    cases hok
  · rw [hr] at herr
    cases herr
    exact hcycle _ rfl

end Resolution

end Cascade
