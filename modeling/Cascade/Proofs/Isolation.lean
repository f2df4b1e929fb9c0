import Cascade.Proofs.Composition

/-! # What a file sees of an override that rejects it

Deleting an override from a configuration deletes the items of those elements
that stand in it. When the override rejects a file, their own items do not apply
to the file, except for those of overrides nested in it, which have only their
own patterns. The items beside them have no patterns of overrides at all: those
of environments, of processors for file extensions and of whole sets of rules are
for all files, wherever they come from. -/
namespace Cascade

open Conversion Resolution

/-- The items of one element, its own one at the end. -/
structure Piece where
  element : Element
  beside : List Value
  own : List Value
  /-- Whether it is still there when overrides are deleted. -/
  kept : Bool

namespace Piece

def items (p : Piece) : List Value := p.beside ++ p.own

/-- The items that apply to a file, given the patterns that match it. -/
def reaching (accepts : String → Bool) (p : Piece) : List Value := p.items.filter (applies accepts)

/-- Whether the innermost of the overrides that an element stands in rejects a file. -/
def InnermostRejects (accepts : String → Bool) (criteria : Option Criteria) : Prop :=
  ∃ c ∈ criteria, ∃ last ∈ c.pairs.getLast?, last.rejects accepts = true

end Piece

namespace Flattener

variable {f : Flattener} {w : World} {accepts : String → Bool}

/-! ## The items of an element -/

/-- The own item of an element, if it has one. -/
def ownOf (f : Flattener) (w : World) (e : Element) : List Value :=
  match e.kind with
  | .config => ownPart ⟨f.table, w.shared⟩ e.node.entries
  | .implicitProcessor => []

/-- A piece has the items that its element is converted to. -/
structure Converts (f : Flattener) (w : World) (p : Piece) : Prop where
  items : (f.itemsOf p.element).outcome w = .ok p.items
  own : p.own = f.ownOf w p.element

theorem exists_piece {e : Element} {items : List Value} (h : (f.itemsOf e).outcome w = .ok items)
    (kept : Bool) : ∃ p : Piece, p.element = e ∧ p.kept = kept ∧ p.items = items ∧ f.Converts w p := by
  suffices hown : ∃ beside, items = beside ++ f.ownOf w e by
    obtain ⟨beside, rfl⟩ := hown
    exact ⟨⟨e, beside, f.ownOf w e, kept⟩, rfl, rfl, rfl, h, rfl⟩
  rw [itemsOf_outcome] at h
  obtain ⟨kind, name, node, file⟩ := e
  cases kind with
  | config => exact convert_own rfl h
  | implicitProcessor => exact ⟨items, by simp [ownOf]⟩

/-- The pieces of a list of elements, some of which are lost. -/
theorem exists_pieces {es es' : List Element} (h : Survives accepts es es') {itemss : List (List Value)}
    (hi : es.mapM (fun e => (f.itemsOf e).outcome w) = .ok itemss) : ∃ pieces : List Piece,
      pieces.map Piece.element = es ∧ itemss = pieces.map Piece.items ∧
      es'.mapM (fun e => (f.itemsOf e).outcome w) = .ok ((pieces.filter Piece.kept).map Piece.items) ∧
      ∀ p ∈ pieces, f.Converts w p ∧ (p.kept = false → Lost accepts p.element) := by
  induction h generalizing itemss with
  | nil =>
    cases hi
    exact ⟨[], rfl, rfl, rfl, by simp⟩
  | drop hlost _ ih =>
    rw [List.mapM_cons] at hi
    obtain ⟨items, hitems, hi⟩ := bind_eq_ok.mp hi
    obtain ⟨rest, hrest, hi⟩ := bind_eq_ok.mp hi
    cases hi
    obtain ⟨pieces, rfl, rfl, hleft, hall⟩ := ih hrest
    obtain ⟨p, rfl, hk, rfl, hp⟩ := exists_piece hitems false
    refine ⟨p :: pieces, rfl, rfl, ?_, List.forall_mem_cons.mpr ⟨⟨hp, fun _ => hlost⟩, hall⟩⟩
    rw [List.filter_cons_of_neg (by simp [hk]), hleft]
  | keep heq _ ih =>
    rw [List.mapM_cons] at hi
    obtain ⟨items, hitems, hi⟩ := bind_eq_ok.mp hi
    obtain ⟨rest, hrest, hi⟩ := bind_eq_ok.mp hi
    cases hi
    obtain ⟨pieces, rfl, rfl, hleft, hall⟩ := ih hrest
    obtain ⟨p, rfl, hk, rfl, hp⟩ := exists_piece hitems true
    refine ⟨p :: pieces, rfl, rfl, ?_, List.forall_mem_cons.mpr ⟨⟨hp, fun h => ?_⟩, hall⟩⟩
    -- the element that is left differs in its name only, which has no part in its items
    · rw [List.filter_cons_of_pos hk, List.map_cons, List.mapM_cons, ← itemsOf_anonymous heq, hitems, ok_bind,
        hleft]
      rfl
    · rw [hk] at h
      cases h

/-- The own item of an element does not apply where the innermost override
rejects the file. -/
theorem ownOf_rejected {e : Element} (hp : Plain e.node)
    (h : Piece.InnermostRejects accepts e.node.criteria) : ∀ v ∈ f.ownOf w e, applies accepts v = false := by
  obtain ⟨kind, name, node, file⟩ := e
  cases kind with
  | implicitProcessor => exact fun v hv => nomatch hv
  | config =>
    obtain ⟨c, hc, last, hl, hr⟩ := h
    have hat : node.entries.at "criteria" = c.value := by
      rw [Entries.at, Node.criteria_field?, hp "criteria" (by decide), Option.none_or,
        show node.criteria = some c from hc]
      rfl
    exact fun v hv => ownPart_rejected hat hl hr hv

/-! ## Flattening without overrides -/

/-- The flat items of a configuration, with a way of its own to load extended ones. -/
def configWith (f : Flattener) (load : Loader) (config : Value) : Action (List Value) := do
  f.flatten (← f.resolver.resolveWith load config "<input>" none)

theorem config_eq_configWith (f : Flattener) (config : Value) :
    f.config config = f.configWith (loadExtended f.resolver) config := rfl

theorem configWith_settled (hw : w.ModulesApart) {load : Loader}
    (hl : LoadersAgree (CoherentPair f.resolver w) True load load) (config : Value) :
    Settled f.resolver w (f.configWith load config) :=
  (resolveWith_settled hw hl config _ _).bind fun _ _ => flatten_settled _

theorem configWith_eq_ok (hw : w.ModulesApart) {load : Loader} (hl : LoadersAgree (CoherentPair f.resolver w) True load load)
    {config : Value} {items : List Value} : (f.configWith load config).outcome w = .ok items ↔
      ∃ es itemss, (f.resolver.resolveWith load config "<input>" none).outcome w = .ok es ∧
        es.mapM (fun e => (f.itemsOf e).outcome w) = .ok itemss ∧ items = itemss.flatten := by
  rw [configWith, (resolveWith_settled hw hl config _ _).outcome_bind fun _ _ => flatten_settled _, bind_eq_ok]
  simp only [flatten_outcome]
  constructor
  · rintro ⟨es, hes, h⟩
    cases hi : es.mapM fun e => (f.itemsOf e).outcome w with
    | error e =>
      rw [hi] at h
      cases h
    | ok itemss =>
      rw [hi] at h
      cases h
      exact ⟨es, itemss, hes, hi, rfl⟩
  · rintro ⟨es, itemss, hes, hi, rfl⟩
    exact ⟨es, hes, by rw [hi]; rfl⟩

/-- What the items of a configuration have to do with those that it has without
overrides that reject a file. -/
structure Isolated (f : Flattener) (w : World) (accepts : String → Bool) (config : Value)
    (items items' : List Value) (pieces : List Piece) : Prop where
  elements : (f.resolver.resolve config "<input>" none).outcome w = .ok (pieces.map Piece.element)
  converts : ∀ p ∈ pieces, f.Converts w p
  before : items = pieces.flatMap Piece.items
  after : items' = (pieces.filter Piece.kept).flatMap Piece.items
  reachingBefore : items.filter (applies accepts) = pieces.flatMap (Piece.reaching accepts)
  reachingAfter :
    items'.filter (applies accepts) = (pieces.filter Piece.kept).flatMap (Piece.reaching accepts)
  /-- Only what stands in an override that rejects the file is deleted, and of it
  only items beside the own one reach the file, unless the innermost override takes it. -/
  lost : ∀ p ∈ pieces, p.kept = false → p.items = [] ∨ Outside accepts p.element.node.criteria ∧
    (Piece.InnermostRejects accepts p.element.node.criteria →
      p.reaching accepts = p.beside.filter (applies accepts))

def scriptsOnly (pattern : String) : Bool := pattern == "*.js"

/-- An override for other files, with an environment. -/
def webOverride (members : Entries) : Value :=
  overrideFor "*.ts" ((.str "env", .mapping [(.str "web", .bool true)]) :: members)

def sampleWorld : World where
  here := ["work"]
  available := [("eslint_config_base",
    [("config", withOverrides [ruleOf "semi"] [overrideFor "*.ts" [ruleOf "curly"]])])]

def sampleFlattener : Flattener where
  resolver := ⟨⟨"/", ["work"]⟩, ⟨"/", ["work"]⟩⟩
  table := ⟨[(.str "web", .mapping [(.str "globals", .mapping [(.str "window", .bool true)])])]⟩

def sampleConfig : Value := withOverrides [(.str "extends", .str "base")]
  [webOverride [(.str "overrides", .list [overrideFor "*.js" [ruleOf "quotes"]])],
    overrideFor "*.js" [ruleOf "eqeqeq"]]

def itemFor (pattern : String) (members : Entries) : Value :=
  .mapping (members ++ [(.str "files", .list [.str pattern])])

def webItem : Value :=
  .mapping [(.str "languageOptions", .mapping [(.str "globals", .mapping [(.str "window", .bool true)])])]

def sampleItems : List Value :=
  [.mapping [ruleOf "semi"], itemFor "*.ts" [ruleOf "curly"], webItem, itemFor "*.ts" [],
    itemFor "*.js" [ruleOf "quotes"], itemFor "*.js" [ruleOf "eqeqeq"]]

/-- Deleting an override that rejects a file, and not others, changes what applies
to the file. -/
def Strays (w : World) (override : Value) (others : List Value) : Prop :=
  Rejected scriptsOnly w.shared override ∧ ∃ items items',
    ((sampleFlattener.config (withOverrides [ruleOf "semi"] (override :: others))).runFrom
      (Session.start w)).1 = .ok items ∧
    ((sampleFlattener.config (withOverrides [ruleOf "semi"] others)).runFrom
      (Session.start w)).1 = .ok items' ∧
    items.filter (applies scriptsOnly) ≠ items'.filter (applies scriptsOnly)

/-- The rules in each item that applies to a file. -/
def rulesReaching (w : World) (overrides : List Value) : Option (List (List String)) :=
  ((sampleFlattener.config (withOverrides [ruleOf "semi"] overrides)).runFrom
    (Session.start w)).1.toOption.map fun items => (items.filter (applies scriptsOnly)).map rulesIn

theorem exists_of_rulesReaching {w : World} {overrides : List Value} {rules : List (List String)}
    (h : rulesReaching w overrides = some rules) : ∃ items,
      ((sampleFlattener.config (withOverrides [ruleOf "semi"] overrides)).runFrom
        (Session.start w)).1 = .ok items ∧ (items.filter (applies scriptsOnly)).map rulesIn = rules :=
  exists_ok_of_map h

theorem strays_of_rules {w : World} {override : Value} {others : List Value}
    {rules rules' : List (List String)} (hr : Rejected scriptsOnly w.shared override)
    (h : rulesReaching w (override :: others) = some rules) (h' : rulesReaching w others = some rules')
    (hne : rules ≠ rules') : Strays w override others := by
  obtain ⟨items, hitems, hrules⟩ := exists_of_rulesReaching h
  obtain ⟨items', hitems', hrules'⟩ := exists_of_rulesReaching h'
  refine ⟨hr, items, items', hitems, hitems', fun heq => hne ?_⟩
  rw [← hrules, ← hrules', heq]

theorem strays_colliding : Strays collidingWorld (parsedBy ("*.ts", "1835924"))
    [parsedBy ("*.js", "48542345")] := by
  have hboth : ((sampleFlattener.config (parsing [("*.ts", "1835924"), ("*.js", "48542345")])).runFrom
      (Session.start collidingWorld)).1 = .ok [.mapping [ruleOf "semi"],
        parsedItem "*.ts" (collidingModule "1835924"), parsedItem "*.js" (collidingModule "1835924")] := by
    refine config_colliding rfl (.inr rfl) (v := collidingModule "1835924") (by simp) (by decide) (by simp) ?_
    rintro ⟨world, _, _, _, _, _⟩ rfl
    rfl
  have hone : ((sampleFlattener.config (parsing [("*.js", "48542345")])).runFrom
      (Session.start collidingWorld)).1 = .ok [.mapping [ruleOf "semi"],
        parsedItem "*.js" (collidingModule "48542345")] := by
    refine config_colliding rfl (.inr rfl) (v := collidingModule "48542345") (by simp) (by decide) (by simp) ?_
    rintro ⟨world, _, _, _, _, _⟩ rfl
    rfl
  refine ⟨⟨⟨some ["*.ts"], none⟩, rfl, rfl⟩, _, _, hboth, hone, fun heq => ?_⟩
  have hfolders := congrArg (List.map foldersIn) heq
  revert hfolders
  decide +kernel

end Flattener

end Cascade
