import Cascade.Proofs.Flattener
import Cascade.Proofs.Resolution.Contexts
import Cascade.Proofs.Resolution.Interference

/-! # A configuration is made of its parts

The items of a configuration are those of what it extends, its own, and those of
its overrides, each of which can be had from a configuration of its own. In the
same way the items of a list of references, or of overrides, are those of the parts
of the list. -/
namespace Cascade

open Resolution

namespace Resolution

variable {r : Resolver} {w : World} {config : Value} {ctx : Context} {m m' : Entries} {es : List Element}

/-! ## Members -/

theorem references_listed {names : List String}
    (h : Entries.field? m "extends" = some (.list (names.map .str))) :
    references w.shared m ctx = .ok (names.filter (· != "")) := by
  simp [references, h, Shared.view, Value.strings?_map_str]

theorem references_absent (h : Entries.field? m "extends" = none) : references w.shared m ctx = .ok [] := by
  simp [references, h, Shared.view]

theorem overrides_listed {items : List Value} (h : Entries.field? m "overrides" = some (.list items)) :
    overrides w.shared m ctx = .ok items := by
  cases items with
  | nil => exact overrides_eq_ok.mpr (.inl ⟨by rw [given?, h]; rfl, rfl⟩)
  | cons first rest => exact overrides_eq_ok.mpr (.inr ⟨_, by rw [given?, h]; rfl, rfl⟩)

theorem overrides_absent (h : Entries.field? m "overrides" = none) : overrides w.shared m ctx = .ok [] :=
  overrides_eq_ok.mpr (.inl ⟨by rw [given?, h]; rfl, rfl⟩)

/-- What a configuration needs to have members for references and for overrides. -/
def partKeys : List String := ["extends", "overrides"]

theorem field?_part (hkeys : ∀ k ∈ Entries.keys m, ∃ key ∈ partKeys, k = .str key) {key : String}
    (hk : key ∉ partKeys) : Entries.field? m key = none := by
  rw [Entries.field?, Entries.get?, Option.map_eq_none_iff, List.find?_eq_none]
  intro e he hsame
  obtain ⟨part, hpart, heq⟩ := hkeys e.1 (List.mem_map_of_mem he)
  rw [heq] at hsame
  cases (Value.same_str _ _).mp hsame
  exact hk hpart

theorem checkMembers_append (hkeys : ∀ k ∈ Entries.keys m', ∃ key ∈ partKeys, k = .str key) :
    checkMembers w.shared (m ++ m') ctx = .ok () ↔ checkMembers w.shared m ctx = .ok () := by
  have hsame : ∀ key ∈ mappingKeys ++ booleanKeys,
      Entries.field? (m ++ m') key = Entries.field? m key := by
    intro key hk
    rw [Entries.field?_append, field?_part hkeys (by revert key; decide), Option.or_none]
  simp only [checkMembers_eq_ok, Entries.keys, List.map_append, List.forall_mem_append]
  refine and_congr ⟨And.left, fun h => ⟨h, fun k hk => ?_⟩⟩ (and_congr ?_ ?_)
  · obtain ⟨key, hkey, rfl⟩ := hkeys k hk
    have hbase : ∀ key ∈ partKeys, key ∈ baseKeys := by decide
    exact List.any_eq_true.mpr
      ⟨key, List.mem_append_left _ (hbase key hkey), (Value.same_str _ _).mpr rfl⟩
  · exact forall₂_congr fun key hk => by rw [hsame key (List.mem_append_left _ hk)]
  · exact forall₂_congr fun key hk => by rw [hsame key (List.mem_append_right _ hk)]

/-- The element of a configuration without members of its own. -/
def bareElement (ctx : Context) : Element where
  kind := .config
  name := ctx.name
  node := { data := [], criteria := ctx.criteria }
  file := ctx.file

theorem ownElements_bare : (ownElements r w.shared [] ctx).outcome w = .ok [bareElement ctx] := rfl

/-- A configuration has elements just when its references, its other members and its
overrides have. -/
theorem resolves_parts (hm : w.shared.view config = .mapping (m ++ m'))
    (hkeys : ∀ k ∈ Entries.keys m', ∃ key ∈ partKeys, k = .str key) {names : List String} {items : List Value}
    (hnames : references w.shared (m ++ m') ctx = .ok names)
    (hitems : overrides w.shared (m ++ m') ctx = .ok items) :
    Resolves r w config ctx es ↔ checkMembers w.shared m ctx = .ok () ∧ ∃ outer own inner,
      Each (FromReference r w ctx) names outer ∧ (ownElements r w.shared m ctx).outcome w = .ok own ∧
      Each (FromOverride r w ctx) items.zipIdx inner ∧ es = outer ++ own ++ inner := by
  have hown : ownElements r w.shared (m ++ m') ctx = ownElements r w.shared m ctx := by
    refine ownElements_congr (fun key he ho => ?_) ctx
    rw [Entries.field?_append, field?_part hkeys (by simp [partKeys, he, ho]), Option.or_none]
  rw [resolves_iff, ← checkMembers_append hkeys, ← hown]
  constructor
  · rintro ⟨_, _, outer, own, _, inner, hm', hcheck, hnames', houter, hown, hitems', hinner, rfl⟩
    cases hm.symm.trans hm'
    cases hnames.symm.trans hnames'
    cases hitems.symm.trans hitems'
    exact ⟨hcheck, outer, own, inner, houter, hown, hinner, rfl⟩
  · rintro ⟨hcheck, outer, own, inner, houter, hown, hinner, rfl⟩
    exact ⟨_, _, outer, own, _, inner, hm, hcheck, hnames, houter, hown, hitems, hinner, rfl⟩

/-! ## Places -/

/-- An override has the same elements in another place, but for names. -/
theorem FromOverride.placed (hw : w.ModulesApart) {override : Value} {i : Nat}
    (h : FromOverride r w ctx (override, i) es) (i' : Nat) : ∃ es',
      FromOverride r w ctx (override, i') es' ∧ es.map Element.anonymous = es'.map Element.anonymous := by
  obtain ⟨c, hc, hres⟩ := h
  obtain ⟨es', hres', heq⟩ := hres.renamed hw
    ⟨(ctx.atOverride i').name, rfl, False.elim⟩
  exact ⟨es', ⟨_, overrideContext_named hc _, hres'⟩, heq⟩

theorem Each.placed (hw : w.ModulesApart) {items : List Value} {k : Nat}
    (h : Each (FromOverride r w ctx) (items.zipIdx k) es) (k' : Nat) : ∃ es',
      Each (FromOverride r w ctx) (items.zipIdx k') es' ∧
        es.map Element.anonymous = es'.map Element.anonymous := by
  induction items generalizing k k' es with
  | nil =>
    cases h
    exact ⟨[], .nil, rfl⟩
  | cons item rest ih =>
    cases h with
    | cons hitem hrest =>
      obtain ⟨first, hfirst, heq⟩ := hitem.placed hw k'
      obtain ⟨others, hothers, heq'⟩ := ih hrest (k' + 1)
      exact ⟨first ++ others, .cons hfirst hothers, by rw [List.map_append, List.map_append, heq, heq']⟩

end Resolution

namespace Flattener

variable {f : Flattener} {w : World} {items : List Value}

/-- Items of elements with a property. -/
def Flattened (f : Flattener) (w : World) (P : List Element → Prop) (items : List Value) : Prop :=
  ∃ es, P es ∧ (f.flatten es).outcome w = .ok items

theorem flattened_append {α : Type} {R : α → List Element → Prop} {xs ys : List α} :
    f.Flattened w (Each R (xs ++ ys)) items ↔
      ∃ a b, f.Flattened w (Each R xs) a ∧ f.Flattened w (Each R ys) b ∧ items = a ++ b := by
  constructor
  · rintro ⟨_, h, hitems⟩
    obtain ⟨front, back, hfront, hback, rfl⟩ := h.of_append
    obtain ⟨a, b, ha, hb, rfl⟩ := flatten_append.mp hitems
    exact ⟨a, b, ⟨front, hfront, ha⟩, ⟨back, hback, hb⟩, rfl⟩
  · rintro ⟨a, b, ⟨front, hfront, ha⟩, ⟨back, hback, hb⟩, rfl⟩
    exact ⟨front ++ back, hfront.append hback, flatten_append.mpr ⟨a, b, ha, hb, rfl⟩⟩

/-- The places of overrides do not matter for their items. -/
theorem flattened_placed (hw : w.ModulesApart) {ctx : Context} {overrides : List Value} (k k' : Nat)
    (h : f.Flattened w (Each (FromOverride f.resolver w ctx) (overrides.zipIdx k)) items) :
    f.Flattened w (Each (FromOverride f.resolver w ctx) (overrides.zipIdx k')) items := by
  obtain ⟨es, h, hitems⟩ := h
  obtain ⟨es', h', heq⟩ := h.placed hw k'
  exact ⟨es', h', by rw [← flatten_anonymous heq, hitems]⟩

/-- The context of a configuration that comes from no file. -/
abbrev inputOf (f : Flattener) : Context := startContext f.resolver "<input>" none

/-- The items of the elements that a configuration has by itself. -/
abbrev OwnItems (f : Flattener) (w : World) (m : Entries) : List Value → Prop :=
  f.Flattened w fun own => (ownElements f.resolver w.shared m f.inputOf).outcome w = .ok own

theorem ownItems_nil : f.OwnItems w [] items ↔ items = [] := by
  have hnone : (f.flatten [bareElement f.inputOf]).outcome w = .ok [] := rfl
  constructor
  · rintro ⟨own, hown, hitems⟩
    cases ownElements_bare.symm.trans hown
    exact (Except.ok.inj (hnone.symm.trans hitems)).symm
  · rintro rfl
    exact ⟨_, ownElements_bare, hnone⟩

theorem config_parts (hw : w.ModulesApart) {config : Value} {m m' : Entries}
    (hm : w.shared.view config = .mapping (m ++ m'))
    (hkeys : ∀ k ∈ Entries.keys m', ∃ key ∈ partKeys, k = .str key) {names : List String}
    {listed : List Value} (hnames : references w.shared (m ++ m') f.inputOf = .ok names)
    (hlisted : overrides w.shared (m ++ m') f.inputOf = .ok listed) :
    (f.config config).outcome w = .ok items ↔ checkMembers w.shared m f.inputOf = .ok () ∧ ∃ a b c,
      f.Flattened w (Each (FromReference f.resolver w f.inputOf) names) a ∧ f.OwnItems w m b ∧
      f.Flattened w (Each (FromOverride f.resolver w f.inputOf) listed.zipIdx) c ∧
      items = a ++ b ++ c := by
  rw [config_eq_ok hw]
  simp only [resolves_parts hm hkeys hnames hlisted]
  constructor
  · rintro ⟨_, ⟨hcheck, outer, own, inner, houter, hown, hinner, rfl⟩, hitems⟩
    obtain ⟨_, c, hab, hc, rfl⟩ := flatten_append.mp hitems
    obtain ⟨a, b, ha, hb, rfl⟩ := flatten_append.mp hab
    exact ⟨hcheck, a, b, c, ⟨outer, houter, ha⟩, ⟨own, hown, hb⟩, ⟨inner, hinner, hc⟩, rfl⟩
  · rintro ⟨hcheck, a, b, c, ⟨outer, houter, ha⟩, ⟨own, hown, hb⟩, ⟨inner, hinner, hc⟩, rfl⟩
    exact ⟨_, ⟨hcheck, outer, own, inner, houter, hown, hinner, rfl⟩,
      flatten_append.mpr ⟨_, c, flatten_append.mpr ⟨a, b, ha, hb, rfl⟩, hc, rfl⟩⟩

theorem flattened_nil {α : Type} {R : α → List Element → Prop} :
    f.Flattened w (Each R []) items ↔ items = [] := by
  constructor
  · rintro ⟨_, h, hitems⟩
    cases h
    exact (Except.ok.inj hitems).symm
  · rintro rfl
    exact ⟨[], .nil, rfl⟩

theorem checkMembers_nil : checkMembers w.shared [] f.inputOf = .ok () := rfl

/-- The items of a list of references. -/
theorem extends_eq_ok (hw : w.ModulesApart) {names : List String} :
    (f.extends_ (names.map .str)).outcome w = .ok items ↔
      f.Flattened w (Each (FromReference f.resolver w f.inputOf) (names.filter (· != ""))) items := by
  rw [extends_, config_parts (m := []) hw rfl (by simp [Entries.keys, partKeys]) (references_listed rfl)
    (overrides_absent rfl)]
  simp only [checkMembers_nil, ownItems_nil, List.zipIdx_nil, flattened_nil, true_and]
  constructor
  · rintro ⟨a, _, _, ha, rfl, rfl, heq⟩
    simpa [heq] using ha
  · exact fun h => ⟨items, [], [], h, rfl, rfl, by simp⟩

/-- The items of a list of overrides. -/
theorem overrides_eq_ok (hw : w.ModulesApart) {listed : List Value} :
    (f.config (member "overrides" (.list listed))).outcome w = .ok items ↔
      f.Flattened w (Each (FromOverride f.resolver w f.inputOf) listed.zipIdx) items := by
  rw [config_parts (m := []) hw rfl (by simp [Entries.keys, partKeys]) (references_absent rfl)
    (overrides_listed rfl)]
  simp only [checkMembers_nil, ownItems_nil, flattened_nil, true_and]
  constructor
  · rintro ⟨_, _, c, rfl, rfl, hc, heq⟩
    simpa [heq] using hc
  · exact fun h => ⟨[], [], items, rfl, rfl, h, rfl⟩

/-- The items of a configuration without references and overrides. -/
theorem rest_eq_ok (hw : w.ModulesApart) {rest : Value} {m : Entries} (hm : w.shared.view rest = .mapping m)
    (he : Entries.field? m "extends" = none) (ho : Entries.field? m "overrides" = none) :
    (f.config rest).outcome w = .ok items ↔
      checkMembers w.shared m f.inputOf = .ok () ∧ f.OwnItems w m items := by
  rw [← List.append_nil m] at hm
  rw [config_parts hw hm (by simp [Entries.keys]) (references_absent (by simpa using he))
    (overrides_absent (by simpa using ho))]
  simp only [List.zipIdx_nil, flattened_nil]
  refine and_congr_right fun _ => ⟨?_, fun h => ⟨[], items, [], rfl, h, rfl, by simp⟩⟩
  rintro ⟨_, b, _, rfl, hb, rfl, heq⟩
  simpa [heq] using hb

/-- A configuration with references and overrides after its other members. -/
def combined (m : Entries) (names : List String) (overrides : List Value) : Value :=
  .mapping (m ++ [(.str "extends", .list (names.map .str)), (.str "overrides", .list overrides)])

theorem combined_eq_ok (hw : w.ModulesApart) {rest : Value} {m : Entries}
    (hm : w.shared.view rest = .mapping m) (he : Entries.field? m "extends" = none)
    (ho : Entries.field? m "overrides" = none) {names : List String} {overrides : List Value} :
    (f.config (combined m names overrides)).outcome w = .ok items ↔
      ∃ a b c, (f.extends_ (names.map .str)).outcome w = .ok a ∧ (f.config rest).outcome w = .ok b ∧
        (f.config (member "overrides" (.list overrides))).outcome w = .ok c ∧ items = a ++ b ++ c := by
  have hextends : Entries.field? (m ++ [(.str "extends", .list (names.map .str)),
      (.str "overrides", .list overrides)]) "extends" = some (.list (names.map .str)) := by
    rw [Entries.field?_append, he]
    rfl
  have hoverrides : Entries.field? (m ++ [(.str "extends", .list (names.map .str)),
      (.str "overrides", .list overrides)]) "overrides" = some (.list overrides) := by
    rw [Entries.field?_append, ho]
    rfl
  rw [combined, config_parts hw rfl (by simp [Entries.keys, partKeys]) (references_listed hextends)
    (overrides_listed hoverrides)]
  simp only [extends_eq_ok hw, overrides_eq_ok hw, rest_eq_ok hw hm he ho]
  constructor
  · rintro ⟨hcheck, a, b, c, ha, hb, hc, rfl⟩
    exact ⟨a, b, c, ha, ⟨hcheck, hb⟩, hc, rfl⟩
  · rintro ⟨a, b, c, ha, ⟨hcheck, hb⟩, hc, rfl⟩
    exact ⟨hcheck, a, b, c, ha, hb, hc, rfl⟩

theorem extends_append_eq_ok (hw : w.ModulesApart) {names names' : List String} :
    (f.extends_ ((names ++ names').map .str)).outcome w = .ok items ↔
      ∃ a b, (f.extends_ (names.map .str)).outcome w = .ok a ∧
        (f.extends_ (names'.map .str)).outcome w = .ok b ∧ items = a ++ b := by
  simp only [extends_eq_ok hw, List.filter_append, flattened_append]

theorem overrides_append_eq_ok (hw : w.ModulesApart) {overrides overrides' : List Value} :
    (f.config (member "overrides" (.list (overrides ++ overrides')))).outcome w = .ok items ↔
      ∃ a b, (f.config (member "overrides" (.list overrides))).outcome w = .ok a ∧
        (f.config (member "overrides" (.list overrides'))).outcome w = .ok b ∧ items = a ++ b := by
  simp only [overrides_eq_ok hw, List.zipIdx_append, flattened_append]
  exact exists_congr fun a => exists_congr fun b => and_congr_right fun _ => and_congr_left fun _ =>
    ⟨flattened_placed hw _ _, flattened_placed hw _ _⟩

def baseWorld : World where
  here := ["work"]
  available := [("eslint_config_base", [("config", .mapping [ruleOf "curly"])])]

/-- A flattener that knows no environments. -/
def plainFlattener : Flattener := { resolver := workResolver, table := ⟨[]⟩ }

theorem accepted_of_isOk {x : Except Failure (List Value)} (h : x.isOk = true) : ∃ items, x = .ok items := by
  cases x with
  | ok items => exact ⟨items, rfl⟩
  | error e => cases h

/-! Configurations whose modules are in each other's way. -/

def parsedItem (pattern : String) (v : Value) : Value :=
  .mapping [(.str "languageOptions", .mapping [(.str "parser", v)]), (.str "files", .list [.str pattern])]

/-- The flat items of overrides in the colliding world, whose parser is the module
that is loaded first. -/
theorem config_colliding (hr : f.resolver.base = ⟨"/", ["work"]⟩) {members : Entries}
    (hmembers : members = [] ∨ members = [ruleOf "semi"]) {parsers : List (String × String)}
    (hne : parsers ≠ []) (hp : ∀ p ∈ parsers, Colliding p) {v : Value}
    (hv : ∀ p ∈ parsers.head?, v = collidingModule p.2)
    (hitems : ∀ t : Session, t.world = collidingWorld → ((f.flatten
      ({ semiElement with node := { data := members } } :: parsers.zipIdx.map (parsedElement v))).runFrom t).1 =
        .ok items) :
    ((f.config (withOverrides members (parsers.map parsedBy))).runFrom (Session.start collidingWorld)).1 =
      .ok items := by
  obtain ⟨t, hrun, ht, -⟩ := resolve_overrides_colliding f.resolver hr hmembers parsers hne hp
    (s := Session.start collidingWorld) rfl hv
  rw [config, Action.runFrom_bind, hrun]
  exact hitems t ht

/-- The folders of the parsers of an item. -/
def foldersIn : Value → List String
  | .mapping m => match Entries.field? m "languageOptions" with
    | some (.mapping options) => match Entries.field? options "parser" with
      | some (.object _ members) => members.map fun m => m.2.text
      | _ => []
    | _ => []
  | _ => []

end Flattener

end Cascade
