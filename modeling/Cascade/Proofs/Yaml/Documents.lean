import Cascade.Proofs.Yaml.Nodes
import Cascade.Yaml.Document

/-! # Documents without an end

The only thing in a document that has no end is an alias inside the node that it names.
Every other text has a value, or is refused for a reason. -/
namespace Cascade.Yaml

namespace Ends

variable {α β : Type} {P : α → Prop} {Q : β → Prop}

theorem map {x : Except Refusal α} {f : α → β} (hx : Ends x P) (hf : ∀ a, P a → Q (f a)) : Ends (x.map f) Q := by
  cases x with
  | ok a => exact hf a hx
  | error e => exact hx

theorem mapM {f : α → Except Refusal β} :
    ∀ {items : List α}, (∀ x ∈ items, Ends (f x) Q) → Ends (items.mapM f) fun ys => ∀ y ∈ ys, Q y
  | [], _ => nofun
  | x :: rest, h => by
    obtain ⟨hx, hrest⟩ := List.forall_mem_cons.mp h
    rw [List.mapM_cons]
    exact hx.bind fun y hy => (Ends.mapM hrest).bind fun ys hys => List.forall_mem_cons.mpr ⟨hy, hys⟩

theorem forM {f : α → Except Refusal Unit} :
    ∀ {items : List α}, (∀ x ∈ items, Ends (f x) fun _ => True) → Ends (items.forM f) fun _ => True
  | [], _ => trivial
  | _ :: _, h => (List.forall_mem_cons.mp h).1.bind fun _ _ => Ends.forM (List.forall_mem_cons.mp h).2

end Ends

/-! ## Scalars -/

namespace Tag

/-- What the value of a scalar fails with is a fault of scalars. -/
def FailsAsScalar {α : Type} (x : Except Fault α) : Prop := FailsAs (· ∈ scalarFaults) x

namespace FailsAsScalar

variable {α β : Type} {x y : Except Fault α}

theorem error {f : Fault} (h : f ∈ scalarFaults) : FailsAsScalar (.error f : Except Fault α) := FailsAs.error h

theorem ok (a : α) : FailsAsScalar (.ok a) := FailsAs.ok a

theorem map (h : FailsAsScalar x) (f : α → β) : FailsAsScalar (x.map f) := by
  cases x with
  | ok a => exact .ok (f a)
  | error e => exact .error (h e rfl)

theorem ite {c : Prop} [Decidable c] (hx : FailsAsScalar x) (hy : FailsAsScalar y) :
    FailsAsScalar (if c then x else y) := by
  split
  · exact hx
  · exact hy

end FailsAsScalar

theorem numeralOf_fails (base : Nat) (cs : List Char) : FailsAsScalar (numeralOf base cs) := by
  unfold numeralOf
  dsimp only
  split
  · exact .ok _
  · exact .error (by decide)

theorem intOf_fails (text : String) : FailsAsScalar (intOf text) := by
  unfold intOf
  dsimp only
  split
  · exact .error (by decide)
  split
  · exact .error (by decide)
  · exact .ok _
  · exact (numeralOf_fails _ _).map _
  · exact (numeralOf_fails _ _).map _
  · exact (numeralOf_fails _ _).map _
  · refine .ite ?_ ((numeralOf_fails _ _).map _)
    split
    · exact .ok _
    · exact .error (by decide)

theorem decimalOf_fails (cs : List Char) : FailsAsScalar (decimalOf cs) := by
  unfold decimalOf
  dsimp only
  refine .ite (.ok _) (.ite (.ok _) (.ite (.error (by decide)) ?_))
  split
  · exact .ok _
  · exact .ite ((numeralOf_fails _ _).map _) (.error (by decide))

theorem floatOf_fails (text : String) : FailsAsScalar (floatOf text) := by
  unfold floatOf
  dsimp only
  split
  · exact .error (by decide)
  refine .ite (.ok _) (.ite (.ok _) (.ite ?_ ((decimalOf_fails _).map _)))
  split
  · exact .ok _
  · exact .error (by decide)

theorem boolOf_fails (text : String) : FailsAsScalar (boolOf text) :=
  .ite (.ok _) (.ite (.ok _) (.error (by decide)))

theorem timeOf_fails (text : String) : FailsAsScalar (timeOf text) := by
  unfold timeOf
  split
  · exact .error (by decide)
  refine .ite (.error (by decide)) ?_
  split
  · exact .ok _
  · exact .ite (.ok _) (.error (by decide))

theorem scalarValue_fails {tag : Tag} {text : String} {x : Except Fault Value} (h : tag.scalarValue text = some x) :
    FailsAsScalar x := by
  cases tag with
  | null | str => exact Option.some.inj h ▸ .ok _
  | bool => exact Option.some.inj h ▸ (boolOf_fails text).map _
  | int => exact Option.some.inj h ▸ (intOf_fails text).map _
  | float => exact Option.some.inj h ▸ (floatOf_fails text).map _
  | timestamp => exact Option.some.inj h ▸ timeOf_fails text
  | _ => cases h

end Tag

namespace Node

theorem ends_scalar? (n : Node) : Ends n.scalar? fun _ => True := by
  unfold scalar?
  split
  · exact .malformed _ _
  refine .ite (fun _ => ?_) fun _ => ?_
  · split
    · trivial
    · exact .malformed _ _
  · split
    · trivial
    · rename_i h
      exact .fault (Tag.scalarValue_fails h _ rfl)
    · exact .malformed _ _

/-! ## Nodes without an end -/

/-- A node in which no alias names a node around it. -/
inductive Finite : Node → Prop
  | scalar (tag : Tag) (text : String) (mark : Mark) : Finite (.scalar tag text mark)
  | sequence {tag : Tag} {items : List Node} {mark : Mark} : (∀ n ∈ items, Finite n) →
      Finite (.sequence tag items mark)
  | mapping {tag : Tag} {entries : List (Node × Node)} {mark : Mark} :
      (∀ e ∈ entries, Finite e.1) → (∀ e ∈ entries, Finite e.2) → Finite (.mapping tag entries mark)

/-- Entries whose keys and values come to an end. -/
abbrev FiniteEntries (entries : List (Node × Node)) : Prop := ∀ e ∈ entries, e.1.Finite ∧ e.2.Finite

theorem Finite.items {tag : Tag} {items : List Node} {m : Mark} (h : (Node.sequence tag items m).Finite) :
    ∀ n ∈ items, n.Finite := by
  cases h
  assumption

theorem Finite.entries {tag : Tag} {entries : List (Node × Node)} {m : Mark}
    (h : (Node.mapping tag entries m).Finite) : FiniteEntries entries := by
  cases h with
  | mapping hkeys hvalues => exact fun e he => ⟨hkeys e he, hvalues e he⟩

mutual

/-- Whether no alias in a node names a node around it. -/
def isFinite : Node → Bool
  | .scalar _ _ _ => true
  | .sequence _ items _ => itemsFinite items
  | .mapping _ entries _ => entriesFinite entries
  | .cyclic _ => false

def itemsFinite : List Node → Bool
  | [] => true
  | n :: rest => n.isFinite && itemsFinite rest

def entriesFinite : List (Node × Node) → Bool
  | [] => true
  | (k, v) :: rest => k.isFinite && v.isFinite && entriesFinite rest

end

mutual

theorem finite_of_isFinite : ∀ n : Node, n.isFinite = true → n.Finite
  | .scalar _ _ _, _ => .scalar _ _ _
  | .sequence _ items _, h => .sequence (finite_of_itemsFinite items h)
  | .mapping _ entries _, h => by
    have hentries := finite_of_entriesFinite entries h
    exact .mapping (fun e he => (hentries e he).1) fun e he => (hentries e he).2

theorem finite_of_itemsFinite : ∀ items : List Node, itemsFinite items = true → ∀ n ∈ items, n.Finite
  | [], _ => nofun
  | n :: rest, h => by
    obtain ⟨hn, hrest⟩ := Bool.and_eq_true_iff.mp h
    exact List.forall_mem_cons.mpr ⟨finite_of_isFinite n hn, finite_of_itemsFinite rest hrest⟩

theorem finite_of_entriesFinite : ∀ entries : List (Node × Node), entriesFinite entries = true → FiniteEntries entries
  | [], _ => nofun
  | (k, v) :: rest, h => by
    obtain ⟨hfirst, hrest⟩ := Bool.and_eq_true_iff.mp h
    obtain ⟨hk, hv⟩ := Bool.and_eq_true_iff.mp hfirst
    exact List.forall_mem_cons.mpr ⟨⟨finite_of_isFinite k hk, finite_of_isFinite v hv⟩, finite_of_entriesFinite rest hrest⟩

end

theorem itemsFinite_eq (items : List Node) : itemsFinite items = items.all isFinite := by
  induction items with
  | nil => rfl
  | cons n rest ih => rw [itemsFinite, ih, List.all_cons]

theorem entriesFinite_eq (entries : List (Node × Node)) :
    entriesFinite entries = entries.all fun e => e.1.isFinite && e.2.isFinite := by
  induction entries with
  | nil => rfl
  | cons e rest ih => rw [entriesFinite, ih, List.all_cons]

theorem isFinite_of_finite {n : Node} (h : n.Finite) : n.isFinite = true := by
  induction h with
  | scalar => rfl
  | sequence _ ih => simpa [isFinite, itemsFinite_eq] using ih
  | mapping _ _ hkeys hvalues =>
    rw [isFinite, entriesFinite_eq, List.all_eq_true]
    exact fun e he => Bool.and_eq_true_iff.mpr ⟨hkeys e he, hvalues e he⟩

instance : DecidablePred Finite := fun n => decidable_of_iff (n.isFinite = true) ⟨finite_of_isFinite n, isFinite_of_finite⟩

theorem ends_checkHead {n : Node} (h : n.Finite) : Ends n.checkHead fun _ => True := by
  unfold checkHead
  split
  · cases h
  · refine .ite (fun _ => trivial) fun _ => ?_
    split
    · exact .malformed _ _
    · exact .malformed _ _
    · exact .malformed _ _
    · exact (ends_scalar? _).map fun _ _ => trivial

/-- Entries that come before others. -/
theorem Ends.merged {x : Except Refusal (List (Node × Node) × List (Node × Node))}
    (hx : Ends x fun r => FiniteEntries r.1 ∧ FiniteEntries r.2) :
    Ends (do let (merged, own) ← x; return merged ++ own) FiniteEntries :=
  hx.bind fun _ hr => List.forall_mem_append.mpr hr

mutual

theorem ends_split : ∀ entries : List (Node × Node), FiniteEntries entries →
    Ends (mergedEntries.split entries) fun r => FiniteEntries r.1 ∧ FiniteEntries r.2
  | [], _ => ⟨nofun, nofun⟩
  | (key, value) :: rest, h => by
    obtain ⟨⟨hkey, hvalue⟩, hrest⟩ := List.forall_mem_cons.mp h
    have hsources := ends_sourcesOf value hvalue
    have hsplit := ends_split rest hrest
    rw [mergedEntries.split]
    refine .ite (fun _ => ?_) fun _ => ?_
    · exact hsources.bind fun sources hs => hsplit.bind fun r hr => ⟨List.forall_mem_append.mpr ⟨hs, hr.1⟩, hr.2⟩
    · refine hsplit.bind fun r hr => ⟨hr.1, List.forall_mem_cons.mpr ⟨⟨?_, hvalue⟩, hr.2⟩⟩
      dsimp only
      split
      · exact .scalar _ _ _
      · exact hkey

theorem ends_sourcesOf : ∀ n : Node, n.Finite → Ends (mergedEntries.sourcesOf n) FiniteEntries
  | .mapping tag entries mark, h => by
    rw [mergedEntries.sourcesOf]
    exact Ends.merged (ends_split entries h.entries)
  | .sequence tag items mark, h => by
    rw [mergedEntries.sourcesOf]
    exact ends_listed items h.items
  | .scalar tag text mark, h => .malformed _ _
  | .cyclic mark, h => nomatch h

theorem ends_listed : ∀ items : List Node, (∀ n ∈ items, n.Finite) → Ends (mergedEntries.listed items) FiniteEntries
  | [], _ => nofun
  | .mapping tag entries mark :: rest, h => by
    obtain ⟨hn, hrest⟩ := List.forall_mem_cons.mp h
    have hlisted := ends_listed rest hrest
    rw [mergedEntries.listed]
    refine (ends_split entries hn.entries).bind fun first hfirst => ?_
    exact hlisted.bind fun others hothers => List.forall_mem_append.mpr ⟨hothers, List.forall_mem_append.mpr hfirst⟩
  | .scalar _ _ _ :: _, _ | .sequence _ _ _ :: _, _ | .cyclic _ :: _, _ => .malformed _ _

end

theorem ends_mergedEntries {n : Node} (h : n.Finite) : Ends n.mergedEntries FiniteEntries := by
  unfold mergedEntries
  split
  · exact Ends.merged (ends_split _ h.entries)
  · exact .malformed _ _

/-! ## Levels -/

/-- The items of a list of pairs, each a mapping of one key. -/
theorem ends_pairs {items : List Node} (h : ∀ n ∈ items, n.Finite) : Ends (do
    let children ← items.mapM fun item => match item with
      | .mapping _ [(key, value)] _ => do
        key.checkHead
        value.checkHead
        return [key, value]
      | item => .error (.malformed "a missing mapping of one key" item.mark)
    return children.flatten) fun below => ∀ m ∈ below, m.Finite := by
  refine Ends.bind (P := fun children => ∀ below ∈ children, ∀ m ∈ below, m.Finite) (.mapM fun item hitem => ?_)
    fun _ => List.forall_mem_flatten.mpr
  split
  · obtain ⟨hkey, hvalue⟩ := (h _ hitem).entries _ (List.mem_singleton_self _)
    refine (ends_checkHead hkey).bind fun _ _ => (ends_checkHead hvalue).bind fun _ _ => ?_
    exact List.forall_mem_cons.mpr ⟨hkey, List.forall_mem_singleton.mpr hvalue⟩
  · exact .malformed _ _

/-- What a node holds comes to an end as the node does. -/
theorem ends_checkChildren {n : Node} (h : n.Finite) : Ends n.checkChildren fun below => ∀ m ∈ below, m.Finite := by
  unfold checkChildren
  split
  · cases h
  split
  · split
    · exact (Ends.forM fun item hitem => ends_checkHead (h.items item hitem)).bind fun _ _ => h.items
    · exact .malformed _ _
  · split
    · exact ends_pairs h.items
    · exact .malformed _ _
  · split
    · exact ends_pairs h.items
    · exact .malformed _ _
  · refine (ends_mergedEntries h).bind fun entries hentries => .mapM fun e he => ?_
    obtain ⟨hkey, hvalue⟩ := hentries e he
    refine (ends_checkHead hkey).bind fun _ _ => .ite (fun _ => .malformed _ _) fun _ => ?_
    exact (ends_checkHead hvalue).bind fun _ _ => hvalue

theorem ends_checkLevels {levels : Nat} {nodes : List Node} (h : ∀ n ∈ nodes, n.Finite) :
    Ends (checkLevels levels nodes) fun _ => True := by
  induction levels generalizing nodes with
  | zero => trivial
  | succ levels ih =>
    unfold checkLevels
    refine (Ends.mapM fun n hn => ends_checkChildren (h n (List.mem_of_mem_filter hn))).bind fun below hfinite => .ite (fun _ => trivial) fun _ => ih fun n hn => ?_
    obtain ⟨children, hc, hn⟩ := List.mem_flatten.mp hn
    exact hfinite children hc n hn

theorem ends_check {n : Node} (h : n.Finite) : Ends n.check fun _ => True :=
  (ends_checkHead h).bind fun _ _ => ends_checkLevels (List.forall_mem_singleton.mpr h)

end Node

/-- What the reading of a text fails with itself is the fault of a scalar, unless the text has
a document in which an alias names a node around it. -/
theorem read_fault {cs : List Char} {f : Fault} (h : read cs = .error (.fault f)) :
    f ∈ scalarFaults ∨ ∃ root, Node.ofTokens (Tokens.ofText cs) = .ok (some root) ∧ ¬ root.Finite := by
  by_contra! hnone
  obtain ⟨hf, hfinite⟩ := hnone
  have hread : Ends (read cs) fun _ => True := by
    unfold read
    have htokens : Ends (Node.ofTokens (Tokens.ofText cs)) fun _ => True :=
      Node.ends_ofTokens fun _ hr => Tokens.isReason_ofText hr
    cases hroot : Node.ofTokens (Tokens.ofText cs) with
    | error e =>
      rw [hroot] at htokens
      exact htokens
    | ok root =>
      cases root with
      | none => trivial
      | some root => exact (Node.ends_check (hfinite root hroot)).bind fun _ _ => trivial
  rw [h] at hread
  exact hf (hread f rfl)

/-- There are texts of the latter kind. -/
example : (match read "&a [*a]".toList with
    | .error (.fault f) => f == .endless
    | _ => false) = true := by decide +kernel

end Cascade.Yaml
