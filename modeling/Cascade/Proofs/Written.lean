import Cascade.Json.Reader
import Cascade.Proofs.Result
import Cascade.Proofs.Tree
import Cascade.Yaml.Document

/-! # What a text can hold

The values that are read from YAML and from JSON: scalars, and lists, tuples and
mappings of them. A set is one too, but what is in it is not known. None of them
refers to a value elsewhere, so that each is a finite tree. -/
namespace Cascade

namespace Value

/-- Whether a value has no parts and refers to none. -/
def isLeaf : Value → Bool
  | .list _ | .tuple _ | .mapping _ | .object _ _ | .shared _ => false
  | _ => true

/-- The values that texts hold. -/
inductive Written : Value → Prop
  | leaf {v : Value} : v.isLeaf → Written v
  | list {items : List Value} : (∀ v ∈ items, Written v) → Written (.list items)
  | tuple {items : List Value} : (∀ v ∈ items, Written v) → Written (.tuple items)
  | mapping {m : Entries} : (∀ e ∈ m, Written e.2) → Written (.mapping m)
  | set : Written (.object (.instanceOf "set") [])

theorem Written.entries {m : Entries} (h : Written (.mapping m)) : ∀ e ∈ m, Written e.2 := by
  cases h with
  | leaf h => cases h
  | mapping h => exact h

theorem Written.field {m : Entries} (h : Written (.mapping m)) {key : String} {v : Value}
    (hv : Entries.field? m key = some v) : Written v := by
  obtain ⟨e, he, rfl⟩ := Option.map_eq_some_iff.mp hv
  exact h.entries e (List.mem_of_find?_eq_some he)

theorem Written.ofPairs {pairs : List (Value × Value)} (h : ∀ e ∈ pairs, Written e.2) :
    Written (.mapping (Entries.ofPairs pairs)) :=
  .mapping (Entries.forall_mem_merge (fun _ he => absurd he List.not_mem_nil) h)

theorem Written.hasShared {v : Value} (h : Written v) : v.hasShared = false := by
  induction h with
  | @leaf v h =>
    cases v with
    | list _ | tuple _ | mapping _ | object _ _ | shared _ => cases h
    | _ => rfl
  | list _ ih => simpa [Value.hasShared, Resolution.hasSharedItems_eq] using ih
  | tuple _ ih => simpa [Value.hasShared, Resolution.hasSharedItems_eq] using ih
  | mapping _ ih => simpa [Value.hasShared, Resolution.hasSharedEntries_eq] using ih
  | set => rfl

end Value

open Value (Written)

/-! ## YAML -/

namespace Yaml

variable {v : Value}

theorem isLeaf_timeOf {text : String} (h : Tag.timeOf text = .ok v) : v.isLeaf := by
  unfold Tag.timeOf at h
  split at h
  · cases h
  · dsimp only at h
    split at h
    · cases h
    · split at h
      · rw [← Except.ok.inj h]
        rfl
      · split at h <;> split at h
        all_goals first
          | cases h; done
          | rw [← Except.ok.inj h]; rfl

theorem isLeaf_of_map {α : Type} {x : Except Fault α} {f : α → Value} (hf : ∀ a, (f a).isLeaf)
    (h : x.map f = .ok v) : v.isLeaf := by
  cases x with
  | error _ => cases h
  | ok a => exact Except.ok.inj h ▸ hf a

theorem isLeaf_scalarValue {tag : Tag} {text : String} (h : tag.scalarValue text = some (.ok v)) : v.isLeaf := by
  cases tag with
  | null => cases h; rfl
  | str => cases h; rfl
  | bool => exact isLeaf_of_map (fun _ => rfl) (Option.some.inj h)
  | int => exact isLeaf_of_map (fun _ => rfl) (Option.some.inj h)
  | float => exact isLeaf_of_map (fun _ => rfl) (Option.some.inj h)
  | timestamp => exact isLeaf_timeOf (Option.some.inj h)
  | _ => cases h

theorem isLeaf_binaryValue {text : String} (h : Node.binaryValue text = some v) : v.isLeaf := by
  unfold Node.binaryValue at h
  split at h
  · obtain ⟨_, -, rfl⟩ := Option.map_eq_some_iff.mp h
    rfl
  · cases h

theorem isLeaf_scalar? {n : Node} (h : n.scalar? = .ok v) : v.isLeaf := by
  unfold Node.scalar? at h
  split at h
  · cases h
  · split at h <;> split at h
    · rename_i hv
      exact isLeaf_binaryValue (Except.ok.inj h ▸ hv)
    · cases h
    · rename_i hv
      exact isLeaf_scalarValue (Except.ok.inj h ▸ hv)
    · cases h
    · cases h

theorem written_scalar? (n : Node) : Written (n.scalar?.toOption.getD .null) := by
  refine .leaf ?_
  cases h : n.scalar? with
  | error _ => rfl
  | ok v => exact isLeaf_scalar? h

mutual

theorem written_value : ∀ n : Node, Written n.value
  | .scalar tag text mark => by
    rw [Node.value]
    exact written_scalar? _
  | .sequence tag items mark => by
    rw [Node.value]
    split
    · exact .list (written_pairValues items)
    · exact .list (written_itemValues items)
  | .mapping tag entries mark => by
    rw [Node.value]
    split
    · exact .ofPairs (List.forall_mem_append.mpr (written_entryValues entries))
    · split
      · exact .set
      · exact written_scalar? _
  | .cyclic _ => .leaf rfl

theorem written_itemValues : ∀ items : List Node, ∀ v ∈ Node.itemValues items, Written v
  | [] => nofun
  | n :: rest => List.forall_mem_cons.mpr ⟨written_value n, written_itemValues rest⟩

theorem written_pairValues : ∀ items : List Node, ∀ v ∈ Node.pairValues items, Written v
  | [] => nofun
  | .mapping tag entries mark :: rest => by
    rw [Node.pairValues]
    refine List.forall_mem_append.mpr ⟨?_, written_pairValues rest⟩
    split
    · rename_i hpair
      obtain ⟨hk, hv⟩ := written_entryPairs entries _ (List.mem_of_mem_head? hpair)
      exact List.forall_mem_singleton.mpr (.tuple (List.forall_mem_cons.mpr ⟨hk, List.forall_mem_singleton.mpr hv⟩))
    · exact nofun
  | .scalar _ _ _ :: rest | .sequence _ _ _ :: rest | .cyclic _ :: rest => written_pairValues rest

theorem written_entryPairs : ∀ entries : List (Node × Node), ∀ e ∈ Node.entryPairs entries, Written e.1 ∧ Written e.2
  | [] => nofun
  | (k, v) :: rest => List.forall_mem_cons.mpr ⟨⟨written_value k, written_value v⟩, written_entryPairs rest⟩

theorem written_entryValues : ∀ entries : List (Node × Node),
    (∀ e ∈ (Node.entryValues entries).1, Written e.2) ∧ ∀ e ∈ (Node.entryValues entries).2, Written e.2
  | [] => ⟨nofun, nofun⟩
  | (k, v) :: rest => by
    have hv := written_value v
    have hm := written_mergedPairs v
    have hrest := written_entryValues rest
    rw [Node.entryValues]
    dsimp only
    split
    · exact ⟨List.forall_mem_append.mpr ⟨hm, hrest.1⟩, hrest.2⟩
    · exact ⟨hrest.1, List.forall_mem_cons.mpr ⟨hv, hrest.2⟩⟩

theorem written_mergedPairs : ∀ n : Node, ∀ e ∈ n.mergedPairs, Written e.2
  | .mapping _ entries _ => List.forall_mem_append.mpr (written_entryValues entries)
  | .sequence _ items _ => written_listedPairs items
  | .scalar _ _ _ => nofun
  | .cyclic _ => nofun

theorem written_listedPairs : ∀ items : List Node, ∀ e ∈ Node.listedPairs items, Written e.2
  | [] => nofun
  | n :: rest => List.forall_mem_append.mpr ⟨written_listedPairs rest, written_mergedPairs n⟩

end

theorem written_read {text : List Char} (h : read text = .ok v) : Written v := by
  unfold read at h
  obtain ⟨root?, -, h⟩ := bind_eq_ok.mp h
  cases root? with
  | none => exact .leaf (Except.ok.inj h ▸ rfl)
  | some root =>
    obtain ⟨_, -, h⟩ := bind_eq_ok.mp h
    exact Except.ok.inj h ▸ written_value root

end Yaml

/-! ## JSON -/

namespace Json

theorem written_readWord {cs rest : List Char} {v : Value} (h : readWord cs = some (v, rest)) : Written v := by
  obtain ⟨⟨word, u⟩, hmem, h⟩ := List.exists_of_findSome?_eq_some h
  have hleaf : words.all (·.2.isLeaf) = true := rfl
  obtain ⟨_, h⟩ := Option.ite_none_right_eq_some.mp h
  cases h
  exact .leaf (List.all_eq_true.mp hleaf _ hmem)

theorem written_readNumber {cs rest : List Char} {v : Value} (h : readNumber cs = some (v, rest)) : Written v := by
  have hnumber {a b : Bool} {x : Float} {n : Int} {r r' : List Char}
      (h : (if a then none else if b then some (.float x, r) else some (.int n, r')) = some (v, rest)) :
      Written v := by
    obtain ⟨_, h⟩ := Option.ite_none_left_eq_some.mp h
    split at h <;> cases h <;> exact .leaf rfl
  unfold readNumber at h
  exact hnumber h

/-- What the readers of a text give from some number of steps on. -/
structure ReadsWritten (fuel : Nat) : Prop where
  value : ∀ {cs rest v}, readValue fuel cs = .ok (v, rest) → Written v
  members : ∀ {cs done rest v}, (∀ e ∈ done, Written e.2) → readMembers fuel cs done = .ok (v, rest) → Written v
  items : ∀ {cs done rest v}, (∀ u ∈ done, Written u) → readItems fuel cs done = .ok (v, rest) → Written v

theorem readsWritten (fuel : Nat) : ReadsWritten fuel := by
  induction fuel with
  | zero => exact ⟨nofun, nofun, nofun⟩
  | succ fuel ih =>
    refine ⟨fun {cs rest v} h => ?_, fun {cs done rest v} hdone h => ?_, fun {cs done rest v} hdone h => ?_⟩
    · unfold readValue at h
      split at h
      · split at h
        · cases h
          exact .leaf rfl
        · cases h
      · split at h
        · cases h
          exact .mapping (List.forall_mem_nil _)
        · exact ih.members (List.forall_mem_nil _) h
      · split at h
        · cases h
          exact .list (List.forall_mem_nil _)
        · exact ih.items (List.forall_mem_nil _) h
      · split at h
        · rename_i hword
          exact written_readWord (Except.ok.inj h ▸ hword)
        · split at h
          · rename_i hnumber
            exact written_readNumber (Except.ok.inj h ▸ hnumber)
          · cases h
    · unfold readMembers at h
      split at h
      · split at h
        · cases h
        split at h
        · split at h
          · cases h
          rename_i u _ hu
          have hmore (name : String) : ∀ e ∈ (Value.str name, u) :: done, Written e.2 :=
            List.forall_mem_cons.mpr ⟨ih.value hu, hdone⟩
          dsimp only at h
          split at h
          · cases h
            exact .ofPairs fun e he => hmore _ e (List.mem_reverse.mp he)
          · exact ih.members (hmore _) h
          · cases h
        · cases h
      · cases h
    · unfold readItems at h
      split at h
      · cases h
      · rename_i u after hu
        have hmore : ∀ w ∈ u :: done, Written w := List.forall_mem_cons.mpr ⟨ih.value hu, hdone⟩
        split at h
        · cases h
          exact .list fun w hw => hmore w (List.mem_reverse.mp hw)
        · exact ih.items hmore h
        · cases h

theorem written_read {text : String} {v : Value} (h : read text = .ok v) : Written v := by
  unfold read at h
  split at h
  · rename_i hall
    cases h
    unfold readAll at hall
    split at hall
    · cases hall
    · split at hall
      · cases hall
      · rename_i hv
        split at hall
        · cases hall
          exact (readsWritten _).value hv
        · cases hall
  · cases h

end Json

end Cascade
