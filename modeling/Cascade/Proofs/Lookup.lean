import Cascade.Settings
import Cascade.Proofs.Conversion.Parts
import Cascade.Proofs.Text

/-! # Looking settings up

A key with points and a path of keys without points lead to the same place: both
go down through nested mappings, one on the data as it is and the other through
settings that are made of each mapping on the way. The item of a single key agrees
with that only where the key has no points. -/
namespace Cascade.Settings

/-- What is stored under a path of keys below a value. -/
inductive Stored (store : Shared) : Value → List String → Value → Prop where
  | here (v : Value) : Stored store v [] v
  | under {v next last : Value} {m : Entries} {key : String} {path : List String}
      (hv : store.view v = .mapping m) (hk : Entries.field? m key = some next)
      (h : Stored store next path last) : Stored store v (key :: path) last

variable {store : Shared} {s : Settings} {key : String} {path : List String} {v last : Value}

/-- A value as an item: a mapping is settings in turn. -/
def wrapped (store : Shared) (v : Value) : Value :=
  match store.view v with
  | .mapping m => value ⟨m⟩
  | _ => v

theorem wrapped_mapping {m : Entries} (hv : store.view v = .mapping m) : wrapped store v = value ⟨m⟩ := by
  rw [wrapped, hv]

theorem wrapped_other (h : ∀ m, store.view v ≠ .mapping m) : wrapped store v = v := by
  unfold wrapped
  split
  · rename_i m hv
    exact absurd hv (h m)
  · rfl

theorem wrapped_eq_self : wrapped store v = v ↔ ∀ m, store.view v ≠ .mapping m := by
  refine ⟨fun h m hv => ?_, wrapped_other⟩
  rw [wrapped_mapping hv] at h
  subst h
  cases hv

/-! ## What keys lead to -/

theorem walk_eq_some : walk store path v = some last ↔ Stored store v path last := by
  induction path generalizing v with
  | nil =>
    constructor
    · intro h
      cases h
      exact .here _
    · intro h
      cases h
      rfl
  | cons key path ih =>
    rw [walk]
    constructor
    · intro h
      split at h
      · rename_i m hv
        obtain ⟨next, hk, hnext⟩ := Option.bind_eq_some_iff.mp h
        exact .under hv hk (ih.mp hnext)
      · cases h
    · intro h
      cases h with
      | under hv hk h =>
        rw [hv]
        exact Option.bind_eq_some_iff.mpr ⟨_, hk, ih.mpr h⟩

theorem find?_intercalate (hn : path ≠ []) (hp : ∀ key ∈ path, '.' ∉ key.toList) :
    s.find? store (String.intercalate "." path) = walk store path (.mapping s.data) := by
  unfold find?
  rw [Text.fields_intercalate hn hp]

theorem find?_eq_some : s.find? store key = some v ↔ Stored store (.mapping s.data) (Text.fields '.' key) v :=
  walk_eq_some

/-- A key without points is one of the data. -/
theorem find?_single (h : '.' ∉ key.toList) : s.find? store key = Entries.field? s.data key := by
  rw [find?, Text.fields_single h]
  show (Entries.field? s.data key).bind (walk store []) = Entries.field? s.data key
  exact Option.bind_fun_some _

theorem contains_eq_true : s.contains store key = true ↔ ∃ v, s.find? store key = some v :=
  Option.isSome_iff_exists

theorem contains_eq_false : s.contains store key = false ↔ s.find? store key = none := by
  simp [contains]

theorem get_of_find? (h : s.find? store key = some v) (default : Value) : s.get store key default = v := by
  rw [get, h, Option.getD_some]

theorem get_of_contains_eq_false (h : s.contains store key = false) (default : Value) :
    s.get store key default = default := by
  rw [get, contains_eq_false.mp h, Option.getD_none]

/-! ## The item of one key -/

theorem item_pointed (h : '.' ∈ key.toList) : s.item store key = .ok (s.get store key .null) := by
  rw [item, if_pos (List.contains_iff_mem.mpr h)]

theorem item_single (h : '.' ∉ key.toList) : s.item store key =
    match Entries.field? s.data key with
    | some v => .ok (wrapped store v)
    | none => .error (.noSetting key) := by
  rw [item, if_neg (by simpa using h)]
  cases Entries.field? s.data key with
  | none => rfl
  | some v =>
    dsimp only
    split
    · rename_i m hv
      rw [wrapped_mapping hv]
    · rename_i hother
      rw [wrapped_other fun m hv => hother m hv]

theorem item_of_contains (h : '.' ∉ key.toList) (hc : s.contains store key = true) :
    s.item store key = .ok (wrapped store (s.get store key .null)) := by
  obtain ⟨v, hv⟩ := contains_eq_true.mp hc
  rw [item_single h, ← find?_single h, get_of_find? hv, hv]

theorem item_of_contains_eq_false (h : '.' ∉ key.toList) (hc : s.contains store key = false) :
    s.item store key = .error (.noSetting key) := by
  rw [item_single h, ← find?_single h, contains_eq_false.mp hc]

/-- What the item of a key is, and where that agrees with the key being one of the settings. -/
structure Looked (store : Shared) (s : Settings) (key : String) : Prop where
  /-- A missing key is reported when it has no points, and nothing else is. -/
  fails : ∀ e, s.item store key = .error e ↔
    e = .noSetting key ∧ '.' ∉ key.toList ∧ s.contains store key = false
  /-- A key without points gives what is stored under it, a mapping as settings. -/
  single : '.' ∉ key.toList → s.contains store key = true →
    s.item store key = .ok (wrapped store (s.get store key .null))
  /-- A key with points gives what is stored under it as it is, or null. -/
  pointed : '.' ∈ key.toList → s.item store key = .ok (s.get store key .null)
  /-- Only a missing key with points is not reported. -/
  reported : ((∃ e, s.item store key = .error e) ↔ s.contains store key = false) ↔
    ('.' ∈ key.toList → s.contains store key = true)
  /-- Only a mapping under a key with points is not made settings. -/
  made : s.contains store key = true →
    (s.item store key = .ok (wrapped store (s.get store key .null)) ↔
      ('.' ∈ key.toList → ∀ m, store.view (s.get store key .null) ≠ .mapping m))
  /-- Only a key of the data whose points lead nowhere is not one of the settings. -/
  listed : .str key ∈ s.keys → (s.contains store key = false ↔
    '.' ∈ key.toList ∧ ∀ v, ¬ Stored store (.mapping s.data) (Text.fields '.' key) v)

theorem field?_of_mem_keys (h : .str key ∈ s.keys) : ∃ v, Entries.field? s.data key = some v := by
  obtain ⟨e, he, hkey⟩ := List.mem_map.mp h
  cases hf : Entries.field? s.data key with
  | some v => exact ⟨v, rfl⟩
  | none =>
    rw [Entries.field?, Entries.get?, Option.map_eq_none_iff, List.find?_eq_none] at hf
    exact absurd ((Value.same_str _ _).mpr hkey) (hf e he)

theorem contains_of_mem_keys (h : '.' ∉ key.toList) (hk : .str key ∈ s.keys) : s.contains store key = true := by
  rw [contains_eq_true, find?_single h]
  exact field?_of_mem_keys hk

theorem item_looked (store : Shared) (s : Settings) (key : String) : Looked store s key := by
  by_cases h : '.' ∈ key.toList
  · have hitem : s.item store key = .ok (s.get store key .null) := item_pointed h
    refine ⟨by simp [hitem, h], fun hn => absurd h hn, fun _ => hitem, by simp [hitem, h], fun _ => ?_, fun _ => ?_⟩
    · rw [hitem, Except.ok.injEq, eq_comm, wrapped_eq_self]
      simp [h]
    · rw [contains_eq_false, Option.eq_none_iff_forall_ne_some]
      simp [h, find?_eq_some]
  · refine ⟨fun e => ?_, fun _ => item_of_contains h, fun hp => absurd hp h, ?_, fun hc => ?_, fun hk => ?_⟩
    · cases hc : s.contains store key with
      | true => simp [item_of_contains h hc]
      | false => simp [item_of_contains_eq_false h hc, h, eq_comm]
    · cases hc : s.contains store key with
      | true => simp [item_of_contains h hc]
      | false => simp [item_of_contains_eq_false h hc, h]
    · simp [item_of_contains h hc, h]
    · simp [contains_of_mem_keys h hk, h]

/-- A missing key with points is null, a mapping under one is not made settings, and a
key of the data with points is not one of the settings. -/
theorem lookups_disagree :
    (contains ⟨[]⟩ {} "a.b" = false ∧ item ⟨[]⟩ {} "a.b" = .ok .null) ∧
    (contains ⟨[(.str "a", .mapping [(.str "b", .mapping [])])]⟩ {} "a.b" = true ∧
      item ⟨[(.str "a", .mapping [(.str "b", .mapping [])])]⟩ {} "a.b" = .ok (.mapping []) ∧
      wrapped {} (.mapping []) = value ⟨[]⟩) ∧
    (.str "a.b" ∈ keys ⟨[(.str "a.b", .int 1)]⟩ ∧ contains ⟨[(.str "a.b", .int 1)]⟩ {} "a.b" = false) := by
  exact ⟨⟨rfl, rfl⟩, ⟨rfl, rfl, rfl⟩, .head _, rfl⟩

/-! ## Paths of keys -/

/-- No value below is settings already. -/
def Unwrapped (store : Shared) (v : Value) : Prop := ∀ path members, ¬ Stored store v path (.object .settings members)

theorem Unwrapped.next (h : Unwrapped store v) {m : Entries} {next : Value} (hv : store.view v = .mapping m)
    (hk : Entries.field? m key = some next) : Unwrapped store next :=
  fun path members hs => h (key :: path) members (.under hv hk hs)

theorem stored_mapping {m : Entries} (hv : store.view v = .mapping m) : Stored store v (key :: path) last ↔
    ∃ next, Entries.field? m key = some next ∧ Stored store next path last := by
  constructor
  · intro h
    cases h with
    | under hv' hk h =>
      rw [hv, Value.mapping.injEq] at hv'
      exact ⟨_, hv' ▸ hk, h⟩
  · intro h
    obtain ⟨next, hk, h⟩ := h
    exact .under hv hk h

theorem not_stored (hv : ∀ m, store.view v ≠ .mapping m) : ¬ Stored store v (key :: path) last := by
  intro h
  cases h with
  | under hv' _ _ => exact hv _ hv'

theorem unwrapped_scalar (hv : ∀ m, store.view v ≠ .mapping m) (hs : ∀ members, v ≠ .object .settings members) :
    Unwrapped store v := by
  intro path members h
  cases path with
  | nil =>
    cases h
    exact hs _ rfl
  | cons key path => exact not_stored hv h

theorem unwrapped_mapping {m : Entries} (hm : ∀ e ∈ m, Unwrapped store e.2) : Unwrapped store (.mapping m) := by
  intro path members h
  cases path with
  | nil => cases h
  | cons key path =>
    obtain ⟨next, hk, h⟩ := (stored_mapping rfl).mp h
    obtain ⟨e, he, rfl⟩ := Option.map_eq_some_iff.mp hk
    exact hm e (List.mem_of_find?_eq_some he) path members h

theorem items_value (m : Entries) (rest : List Value) : items store (value ⟨m⟩) (.str key :: rest) =
    (item ⟨m⟩ store key).bind fun next => items store next rest := by
  cases m <;> rfl

/-- What is neither settings nor a mapping has nothing under a key. -/
theorem items_other {rest : List Value} (hs : Unwrapped store v) (hv : ∀ m, store.view v ≠ .mapping m) :
    items store v (.str key :: rest) = .error (.fault .unsupported) := by
  have hindex : index store v (.str key) = .error .unsupported := by
    unfold index
    split
    · rename_i hm
      exact absurd hm (hv _)
    all_goals first | rfl | (rename_i hn; cases hn)
  unfold items
  split
  · exact absurd (.here _) (hs [] _)
  · exact absurd (.here _) (hs [] _)
  · rw [hindex]
    rfl

/-- One key after the other leads to what is stored under the path. -/
theorem items_wrapped {out : Value} (hs : Unwrapped store v) (hp : ∀ key ∈ path, '.' ∉ key.toList) :
    items store (wrapped store v) (path.map .str) = .ok out ↔
      ∃ last, Stored store v path last ∧ out = wrapped store last := by
  induction path generalizing v with
  | nil =>
    constructor
    · intro h
      cases h
      exact ⟨v, .here v, rfl⟩
    · intro h
      obtain ⟨last, hlast, rfl⟩ := h
      cases hlast
      rfl
  | cons key path ih =>
    obtain ⟨hkey, hpath⟩ := List.forall_mem_cons.mp hp
    rw [List.map_cons]
    by_cases hv : ∃ m, store.view v = .mapping m
    · obtain ⟨m, hv⟩ := hv
      rw [wrapped_mapping hv, items_value, item_single hkey]
      simp only [stored_mapping hv]
      cases hk : Entries.field? m key with
      | none => simp [Except.bind]
      | some next => simpa [Except.bind] using ih (hs.next hv hk) hpath
    · have hv : ∀ m, store.view v ≠ .mapping m := fun m h => hv ⟨m, h⟩
      rw [wrapped_other hv, items_other hs hv]
      simp [not_stored hv]

/-- A path of keys and the one key that they make with points between them lead to the same. -/
structure Together (store : Shared) (s : Settings) (path : List String) (joined : String) : Prop where
  succeeds : (∃ v, items store s.value (path.map .str) = .ok v) ↔ s.contains store joined = true
  /-- What the key leads to is there, also when it is null. -/
  stored : s.contains store joined = true ↔ ∃ v, Stored store (.mapping s.data) path v
  found : ∀ v, Stored store (.mapping s.data) path v →
    (∀ default, s.get store joined default = v) ∧ items store s.value (path.map .str) = .ok (wrapped store v)
  missing : s.contains store joined = false → ∀ default, s.get store joined default = default

theorem items_path (hn : path ≠ []) (hp : ∀ key ∈ path, '.' ∉ key.toList)
    (hs : Unwrapped store (.mapping s.data)) : Together store s path (String.intercalate "." path) := by
  have hwrapped : s.value = wrapped store (.mapping s.data) := rfl
  have hfind : ∀ v, s.find? store (String.intercalate "." path) = some v ↔ Stored store (.mapping s.data) path v := by
    intro v
    rw [find?_intercalate hn hp, walk_eq_some]
  have hstored : s.contains store (String.intercalate "." path) = true ↔
      ∃ v, Stored store (.mapping s.data) path v := by
    rw [contains_eq_true]
    exact exists_congr hfind
  refine ⟨?_, hstored, fun v hv => ⟨get_of_find? ((hfind v).mpr hv), ?_⟩, get_of_contains_eq_false⟩
  · rw [hstored]
    constructor
    · intro h
      obtain ⟨out, hout⟩ := h
      obtain ⟨v, hv, -⟩ := (items_wrapped hs hp).mp (hwrapped ▸ hout)
      exact ⟨v, hv⟩
    · intro h
      obtain ⟨v, hv⟩ := h
      exact ⟨wrapped store v, hwrapped ▸ (items_wrapped hs hp).mpr ⟨v, hv, rfl⟩⟩
  · exact hwrapped ▸ (items_wrapped hs hp).mpr ⟨v, hv, rfl⟩

/-- Settings under which null is stored. -/
def silent : Settings := ⟨[(.str "logging", .mapping [(.str "level", .null)])]⟩

theorem unwrapped_silent : Unwrapped {} (.mapping silent.data) :=
  unwrapped_mapping (List.forall_mem_singleton.mpr (unwrapped_mapping (List.forall_mem_singleton.mpr
    (unwrapped_scalar (fun _ h => by cases h) (fun _ h => by cases h)))))

theorem items_path_silent : ["logging", "level"] ≠ [] ∧ (∀ key ∈ ["logging", "level"], '.' ∉ key.toList) ∧
    Unwrapped {} (.mapping silent.data) ∧
    Together {} silent ["logging", "level"] (String.intercalate "." ["logging", "level"]) :=
  ⟨by simp, by decide, unwrapped_silent, items_path (by simp) (by decide) unwrapped_silent⟩

end Cascade.Settings
