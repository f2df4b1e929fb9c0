import Mathlib.Data.List.Nodup
import Mathlib.Logic.Relation
import Cascade.Plain
import Cascade.Proofs.Tree
import Cascade.Proofs.Conversion.OwnForm

/-! # Plain data

A value has plain data when the way down into it comes to an end. Objects are
described, so it ends at them. The data are built of null, truth values, numbers,
texts, lists and mappings whose keys are different texts, and what is built of
these is plain data itself. -/
namespace Cascade

/-! ## Mappings with texts as keys -/

namespace Entries

/-- The keys are different texts. -/
structure Textual (m : Entries) : Prop where
  nodup : (keys m).Nodup
  texts : ∀ e ∈ m, ∃ name, e.1 = .str name

variable {m : Entries}

theorem Textual.of_sublist {names : List String} (hn : names.Nodup) (h : (keys m).Sublist (names.map .str)) :
    Textual m := by
  refine ⟨h.nodup (hn.map fun _ _ heq => Value.str.inj heq), fun e he => ?_⟩
  obtain ⟨name, -, hname⟩ := List.mem_map.mp (h.mem (List.mem_map_of_mem he))
  exact ⟨name, hname.symm⟩

theorem Textual.of_keys {m' : Entries} (h : Textual m) (hk : keys m' = keys m) : Textual m' := by
  refine ⟨hk ▸ h.nodup, fun e he => ?_⟩
  have hmem : e.1 ∈ keys m := hk ▸ List.mem_map_of_mem he
  obtain ⟨e', he', heq⟩ := List.mem_map.mp hmem
  exact heq ▸ h.texts e' he'

theorem Textual.field?_of_mem (h : Textual m) {name : String} {v : Value} (he : (.str name, v) ∈ m) :
    field? m name = some v := by
  induction m with
  | nil => cases he
  | cons e rest ih =>
    obtain ⟨hfirst, hrest⟩ := List.nodup_cons.mp h.nodup
    obtain ⟨key, w⟩ := e
    rw [field?_cons]
    rcases List.mem_cons.mp he with heq | hmem
    · obtain ⟨rfl, rfl⟩ := Prod.mk.inj heq
      rw [if_pos ((Value.same_str _ _).mpr rfl)]
    · have hne : key ≠ .str name := fun heq => hfirst (heq ▸ List.mem_map.mpr ⟨_, hmem, rfl⟩)
      rw [if_neg (mt (Value.same_str _ _).mp hne)]
      exact ih ⟨hrest, fun e he => h.texts e (List.mem_cons_of_mem _ he)⟩ hmem

theorem Textual.erase (h : Textual m) (key : Value) : Textual (m.erase key) :=
  ⟨h.nodup.sublist (List.filter_sublist.map _), fun e he => h.texts e (List.mem_filter.mp he).1⟩

theorem Textual.setField (h : Textual m) (key : String) (v : Value) : Textual (m.setField key v) := by
  refine ⟨?_, setField_named h.texts key v⟩
  cases hf : field? m key with
  | some old => rw [keys_setField hf]; exact h.nodup
  | none =>
    rw [setField_absent hf, keys, List.map_append, List.nodup_append]
    refine ⟨h.nodup, by simp, fun k hk k' hk' heq => ?_⟩
    obtain ⟨e, he, rfl⟩ := List.mem_map.mp hk
    exact field?_eq_none.mp hf e he (heq.trans (List.mem_singleton.mp hk'))

/-- Whatever is set under texts has different texts as keys. -/
theorem textual_ofPairs {pairs : List (Value × Value)} (h : ∀ e ∈ pairs, ∃ name, e.1 = .str name) :
    Textual (ofPairs pairs) := by
  have hfold : ∀ m, Textual m → Textual (pairs.foldl (fun m e => set m e.1 e.2) m) := by
    induction pairs with
    | nil => exact fun m hm => hm
    | cons e rest ih =>
      obtain ⟨⟨name, hname⟩, hrest⟩ := List.forall_mem_cons.mp h
      intro m hm
      rw [List.foldl_cons, hname]
      exact ih hrest _ (hm.setField name e.2)
  exact hfold [] ⟨List.nodup_nil, nofun⟩

/-- Different keys are set in their order. -/
theorem Textual.ofPairs_eq (h : Textual m) : ofPairs m = m := by
  have hfold : ∀ front, Textual (front ++ m) → m.foldl (fun m e => set m e.1 e.2) front = front ++ m := by
    clear h
    induction m with
    | nil => exact fun front _ => (List.append_nil front).symm
    | cons e rest ih =>
      intro front h
      obtain ⟨name, hname⟩ := h.texts e (by simp)
      have habsent : field? front name = none := by
        refine field?_eq_none.mpr fun e' he' heq => ?_
        have hnodup := h.nodup
        rw [keys, List.map_append, List.nodup_append] at hnodup
        exact hnodup.2.2 e'.1 (List.mem_map_of_mem he') e.1 (by simp) (heq.trans hname.symm)
      have hset : set front e.1 e.2 = front ++ [e] := by
        rw [hname]
        refine (setField_absent habsent e.2).trans ?_
        rw [← hname]
      rw [List.foldl_cons, hset, ih (front ++ [e]) (by simpa using h), List.append_assoc]
      rfl
  exact hfold [] h

end Entries

/-- What is built of null, truth values, numbers, texts, lists and mappings with texts as keys. -/
inductive IsData : Value → Prop where
  | null : IsData .null
  | bool (b : Bool) : IsData (.bool b)
  | int (n : Int) : IsData (.int n)
  | float (x : Float) : IsData (.float x)
  | str (s : String) : IsData (.str s)
  | list {items : List Value} (h : ∀ v ∈ items, IsData v) : IsData (.list items)
  | mapping {m : Entries} (hk : m.Textual) (h : ∀ e ∈ m, IsData e.2) : IsData (.mapping m)

/-- The values that a list, a tuple or a mapping holds. -/
def Value.held : Value → List Value
  | .list items | .tuple items => items
  | .mapping m => m.map Prod.snd
  | _ => []

theorem Value.held_subset_parts (v : Value) : v.held ⊆ v.parts := by
  cases v with
  | object _ _ => exact List.nil_subset _
  | _ => exact List.Subset.refl _

namespace Shared

/-- One step down into a value: to what it holds, or to what a reference stands for. -/
inductive Below (store : Shared) : Value → Value → Prop where
  | held {part whole : Value} (h : part ∈ whole.held) : Below store part whole
  | content (name : String) : Below store (store.view (.shared name)) (.shared name)

/-- The way down into a value comes to an end. -/
def Finite (store : Shared) (v : Value) : Prop := Acc store.Below v

variable {store : Shared} {v p : Value} {depth : Nat} {chain : List String}

/-! ## One step -/

theorem plainItems_eq (f : String → Except Fault Value) (items : List Value) :
    Value.plainItems store f items = items.mapM (Value.plainWith store f) := by
  induction items with
  | nil => rfl
  | cons v rest ih => rw [Value.plainItems, ih, List.mapM_cons]

/-- An entry under the text of its key. -/
def plainPair (store : Shared) (depth : Nat) (e : Value × Value) : Except Fault (Value × Value) :=
  (store.plainTo depth e.2).map (.str e.1.text, ·)

theorem plainEntries_eq (f : String → Except Fault Value) (m : Entries) : Value.plainEntries store f m =
    m.mapM fun e => (e.2.plainWith store f).map (.str e.1.text, ·) := by
  induction m with
  | nil => rfl
  | cons e rest ih =>
    rw [Value.plainEntries, ih, List.mapM_cons]
    cases e.2.plainWith store f <;> rfl

theorem plainTo_list (depth : Nat) (items : List Value) :
    store.plainTo depth (.list items) = (items.mapM (store.plainTo depth)).map .list := by
  cases depth <;> (rw [plainTo, Value.plainWith, plainItems_eq]; rfl)

theorem plainTo_tuple (depth : Nat) (items : List Value) :
    store.plainTo depth (.tuple items) = (items.mapM (store.plainTo depth)).map .list := by
  cases depth <;> (rw [plainTo, Value.plainWith, plainItems_eq]; rfl)

theorem plainTo_mapping (depth : Nat) (m : Entries) : store.plainTo depth (.mapping m) =
    (m.mapM (store.plainPair depth)).map fun m => .mapping (Entries.ofPairs m) := by
  cases depth <;> (rw [plainTo, Value.plainWith, plainEntries_eq]; rfl)

/-- Whether plain data are made of what a value holds or stands for. -/
def isHolder : Value → Bool
  | .list _ | .tuple _ | .mapping _ | .shared _ => true
  | _ => false

theorem plainTo_single (store : Shared) (h : isHolder v = false) : ∃ p, IsData p ∧ ∀ depth, store.plainTo depth v = .ok p := by
  cases v with
  | list _ | tuple _ | mapping _ | shared _ => cases h
  | null => exact ⟨_, .null, fun depth => by cases depth <;> rfl⟩
  | bool b => exact ⟨_, .bool b, fun depth => by cases depth <;> rfl⟩
  | int n => exact ⟨_, .int n, fun depth => by cases depth <;> rfl⟩
  | float x => exact ⟨_, .float x, fun depth => by cases depth <;> rfl⟩
  | str s => exact ⟨_, .str s, fun depth => by cases depth <;> rfl⟩
  | date d => exact ⟨_, .str (store.describe (.date d)), fun depth => by cases depth <;> rfl⟩
  | moment t => exact ⟨_, .str (store.describe (.moment t)), fun depth => by cases depth <;> rfl⟩
  | bytes bs => exact ⟨_, .str (store.describe (.bytes bs)), fun depth => by cases depth <;> rfl⟩
  | object kind members =>
    exact ⟨_, .str (store.describe (.object kind members)), fun depth => by cases depth <;> rfl⟩

/-- Induction along the way down into a value, with steps left for references. -/
@[elab_as_elim]
theorem plainTo_induction (store : Shared) {P : Nat → Value → Prop}
    (held : ∀ depth v, (∀ name, v ≠ .shared name) → (∀ part ∈ v.held, P depth part) → P depth v)
    (zero : ∀ name, P 0 (.shared name))
    (shared : ∀ depth name, P depth (store.view (.shared name)) → P (depth + 1) (.shared name))
    (depth : Nat) (v : Value) : P depth v := by
  have hinner : ∀ depth, (∀ name, P depth (.shared name)) → ∀ v, P depth v := by
    intro depth hd v
    induction v using Value.partsInduction with
    | parts v ih =>
      by_cases hv : ∀ name, v ≠ .shared name
      · exact held depth v hv fun part hp => ih part (v.held_subset_parts hp)
      · obtain ⟨name, hname⟩ := Classical.not_forall.mp hv
        exact Classical.not_not.mp hname ▸ hd name
  induction depth generalizing v with
  | zero => exact hinner 0 zero v
  | succ depth ih => exact hinner (depth + 1) (fun name => shared depth name (ih _)) v

/-! ## The way down -/

/-- A value that is no reference has plain data when all that it holds has. -/
theorem exists_plainTo (hv : ∀ name, v ≠ .shared name) : (∃ p, store.plainTo depth v = .ok p) ↔
    ∀ part ∈ v.held, ∃ p, store.plainTo depth part = .ok p := by
  by_cases hs : isHolder v = false
  · obtain ⟨p, -, hp⟩ := plainTo_single store hs
    have hheld : v.held = [] := by
      cases v with
      | list _ | tuple _ | mapping _ | shared _ => cases hs
      | _ => rfl
    simp [hp, hheld]
  · cases v with
    | list items => rw [plainTo_list, exists_map, exists_mapM, Value.held]
    | tuple items => rw [plainTo_tuple, exists_map, exists_mapM, Value.held]
    | mapping m =>
      rw [plainTo_mapping, exists_map, exists_mapM, Value.held, List.forall_mem_map]
      exact forall₂_congr fun e _ => exists_map
    | shared name => exact absurd rfl (hv name)
    | _ => exact absurd rfl hs

/-- References are followed deep enough when there are more steps left than names that
do not lead to the value. -/
theorem plainTo_of_finite (h : store.Finite v)
    (hc : ∀ name ∈ chain, Relation.TransGen store.Below v (.shared name))
    (hd : unused (store.entries.map Prod.fst) chain < depth) : ∃ p, store.plainTo depth v = .ok p := by
  induction h generalizing depth chain with
  | intro v hacc ih =>
    by_cases hv : ∀ name, v ≠ .shared name
    · refine (exists_plainTo hv).mpr fun part hp => ?_
      exact ih part (.held hp) (fun name hn => .head (.held hp) (hc name hn)) hd
    · obtain ⟨name, hname⟩ := Classical.not_forall.mp hv
      obtain rfl := Classical.not_not.mp hname
      obtain ⟨depth, rfl⟩ := Nat.exists_eq_succ_of_ne_zero (Nat.ne_zero_of_lt hd)
      have hfresh : name ∉ chain := fun hmem => not_transGen_self (.intro _ hacc) (hc name hmem)
      show ∃ p, store.plainTo depth (store.view (.shared name)) = .ok p
      by_cases hin : name ∈ store.entries.map Prod.fst
      · refine ih _ (.content name) (fun other (ho : other ∈ chain ++ [name]) => ?_) ?_
        · rcases List.mem_append.mp ho with ho | ho
          · exact .head (.content name) (hc other ho)
          · rw [List.mem_singleton.mp ho]
            exact .single (.content name)
        · exact Nat.lt_of_lt_of_le (unused_append hin hfresh) (Nat.le_of_lt_succ hd)
      · have hnull : store.view (.shared name) = .null := by
          rw [view, List.lookup_eq_none_iff.mpr]
          · rfl
          · intro e he
            rw [bne_iff_ne]
            exact fun heq => hin (heq ▸ List.mem_map_of_mem he)
        rw [hnull]
        obtain ⟨p, -, hp⟩ := plainTo_single store (show isHolder .null = false from rfl)
        exact ⟨p, hp depth⟩

/-- What holds no reference, and each of whose parts is finite, is finite. -/
theorem finite_of_held (hv : ∀ name, v ≠ .shared name) (h : ∀ part ∈ v.held, store.Finite part) : store.Finite v := by
  refine .intro v fun part hb => ?_
  cases hb with
  | held hp => exact h part hp
  | content name => exact absurd rfl (hv name)

theorem finite_shared {name : String} (h : store.Finite (store.view (.shared name))) : store.Finite (.shared name) := by
  refine .intro _ fun part hb => ?_
  cases hb with
  | held hp => cases hp
  | content name => exact h

theorem finite_of_plainTo (h : ∃ p, store.plainTo depth v = .ok p) : store.Finite v := by
  induction depth, v using plainTo_induction store with
  | held depth v hv ih => exact finite_of_held hv fun part hp => ih part hp ((exists_plainTo hv).mp h part hp)
  | zero name =>
    obtain ⟨p, hp⟩ := h
    cases hp
  | shared depth name ih => exact finite_shared (ih h)

theorem exists_plain : (∃ p, store.plain v = .ok p) ↔ store.Finite v := by
  refine ⟨finite_of_plainTo, fun h => plainTo_of_finite h (fun name (hn : name ∈ []) => nomatch hn) ?_⟩
  exact Nat.lt_succ_of_le (Nat.le_trans (unused_le _ _) (Nat.le_of_eq (List.length_map _)))

/-! ## What comes out -/

theorem isData_of_plainTo (h : store.plainTo depth v = .ok p) : IsData p := by
  induction depth, v using plainTo_induction store generalizing p with
  | held depth v hv ih =>
    by_cases hs : isHolder v = false
    · obtain ⟨q, hq, hall⟩ := plainTo_single store hs
      rw [hall depth] at h
      exact Except.ok.inj h ▸ hq
    cases v with
    | list items | tuple items =>
      simp only [plainTo_list, plainTo_tuple] at h
      obtain ⟨ps, hps, rfl⟩ := map_eq_ok.mp h
      refine .list fun p hp => ?_
      obtain ⟨v, hv, hvp⟩ := exists_left_of_mapM hps hp
      exact ih v hv hvp
    | mapping m =>
      rw [plainTo_mapping] at h
      obtain ⟨pairs, hpairs, rfl⟩ := map_eq_ok.mp h
      have hentry : ∀ e ∈ pairs, (∃ name, e.1 = .str name) ∧ IsData e.2 := by
        intro e he
        obtain ⟨e', he', h⟩ := exists_left_of_mapM hpairs he
        obtain ⟨p, hp, rfl⟩ := map_eq_ok.mp h
        exact ⟨⟨_, rfl⟩, ih e'.2 (List.mem_map_of_mem he') hp⟩
      exact .mapping (Entries.textual_ofPairs fun e he => (hentry e he).1)
        (Entries.forall_mem_merge nofun fun e he => (hentry e he).2)
    | shared name => exact absurd rfl (hv name)
    | _ => exact absurd rfl hs
  | zero name => cases h
  | shared depth name ih => exact ih h

/-- Plain data are their own plain data. -/
theorem plainTo_of_isData (h : IsData v) (depth : Nat) : store.plainTo depth v = .ok v := by
  induction h with
  | list _ ih => rw [plainTo_list, mapM_eq_self ih, map_ok]
  | @mapping m hk _ ih =>
    have hpairs : ∀ e ∈ m, store.plainPair depth e = .ok e := by
      intro e he
      obtain ⟨name, hname⟩ := hk.texts e he
      rw [plainPair, ih e he, map_ok, hname]
      exact congrArg Except.ok (Prod.ext hname.symm rfl)
    rw [plainTo_mapping, mapM_eq_self hpairs, map_ok, hk.ofPairs_eq]
  | _ => cases depth <;> rfl

/-- More depth changes nothing. -/
theorem plainTo_succ (h : store.plainTo depth v = .ok p) : store.plainTo (depth + 1) v = .ok p := by
  induction depth, v using plainTo_induction store generalizing p with
  | held depth v hv ih =>
    by_cases hs : isHolder v = false
    · obtain ⟨q, -, hall⟩ := plainTo_single store hs
      rw [hall] at h ⊢
      exact h
    cases v with
    | list items | tuple items =>
      simp only [plainTo_list, plainTo_tuple] at h ⊢
      obtain ⟨ps, hps, rfl⟩ := map_eq_ok.mp h
      have hitem : ∀ v ∈ items, ∀ p, store.plainTo depth v = .ok p → store.plainTo (depth + 1) v = .ok p :=
        fun v hv p hp => ih v hv hp
      rw [mapM_mono hitem hps, map_ok]
    | mapping m =>
      rw [plainTo_mapping] at h ⊢
      obtain ⟨pairs, hpairs, rfl⟩ := map_eq_ok.mp h
      have hpair : ∀ e ∈ m, ∀ e', store.plainPair depth e = .ok e' → store.plainPair (depth + 1) e = .ok e' := by
        intro e he e' h
        obtain ⟨p, hp, rfl⟩ := map_eq_ok.mp h
        rw [plainPair, ih e.2 (List.mem_map_of_mem he) hp, map_ok]
      rw [mapM_mono hpair hpairs, map_ok]
    | shared name => exact absurd rfl (hv name)
    | _ => exact absurd rfl hs
  | zero name => cases h
  | shared depth name ih => exact ih h

/-- A reference has the plain data of what it stands for. -/
theorem plain_shared (name : String) : store.plain (.shared name) = .ok p ↔ store.plain (store.view (.shared name)) = .ok p := by
  have hdeep : ∀ q, store.plain (.shared name) = .ok q → store.plain (store.view (.shared name)) = .ok q :=
    fun q h => plainTo_succ (v := store.view (.shared name)) h
  refine ⟨hdeep p, fun h => ?_⟩
  obtain ⟨q, hq⟩ := exists_plain.mpr (finite_shared (exists_plain.mp ⟨p, h⟩))
  have hsame : (Except.ok q : Except Fault Value) = .ok p := (hdeep q hq).symm.trans h
  rwa [Except.ok.inj hsame] at hq

end Shared

end Cascade
