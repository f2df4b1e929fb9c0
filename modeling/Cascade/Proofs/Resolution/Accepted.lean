import Cascade.Proofs.Resolution.Agreement
import Cascade.Proofs.Resolution.Checks

/-! # Accepted configurations

A check that a configuration passes says something about the configuration only.
The name under which it is checked appears in reports and nowhere else. -/
namespace Cascade

theorem forM_eq_ok {ε α : Type} {f : α → Except ε PUnit} {l : List α} :
    l.forM f = .ok ⟨⟩ ↔ ∀ a ∈ l, f a = .ok ⟨⟩ := by
  induction l with
  | nil => simp [List.forM, pure, Except.pure]
  | cons a rest ih =>
    rw [List.forall_mem_cons, ← ih]
    show (f a >>= fun _ => rest.forM f) = .ok ⟨⟩ ↔ _
    cases f a with
    | ok u => exact ⟨fun h => ⟨rfl, h⟩, fun h => h.2⟩
    | error e => exact ⟨fun h => (nomatch h), fun h => (nomatch h.1)⟩

namespace Criteria

variable {store : Shared}

theorem patternList_source {key source : String} {v : Value} {patterns : Option (List String)}
    (h : patternList store key source v = .ok patterns) (source' : String) :
    patternList store key source' v = .ok patterns := by
  unfold patternList at h ⊢
  cases hv : store.view v with
  | list items =>
    simp only [hv] at h ⊢
    cases hs : Value.strings? items with
    | none => simp only [hs] at h; cases h
    | some names => cases names <;> simpa only [hs] using h
  | _ => simp only [hv] at h ⊢; first | exact h | cases h

/-- Criteria are made from the patterns of both lists, if there are any. -/
theorem make_eq_ok {files excluded : Value} {base : Option String} {source : String}
    {criteria : Option Criteria} : make store files excluded base source = .ok criteria ↔
      ∃ includes excludes, patternList store "files" source files = .ok includes ∧
        patternList store "excludedFiles" source excluded = .ok excludes ∧
        ((includes.getD [] ++ excludes.getD []).find? fun p => !isConfined p) = none ∧
        criteria = if includes.isNone && excludes.isNone then none
          else some ⟨[⟨includes, excludes⟩], base⟩ := by
  unfold make
  cases hi : patternList store "files" source files with
  | error p => simp
  | ok includes =>
    cases he : patternList store "excludedFiles" source excluded with
    | error p => simp
    | ok excludes =>
      simp only [ok_bind, Except.ok.injEq, exists_and_left, exists_eq_left']
      cases (includes.getD [] ++ excludes.getD []).find? fun p => !isConfined p with
      | some p => simp [throw, throwThe, MonadExceptOf.throw]
      | none =>
        simp only [true_and]
        split <;> exact ⟨fun h => (Except.ok.inj h).symm, fun h => congrArg Except.ok h.symm⟩

theorem make_source {files excluded : Value} {base : Option String} {source : String}
    {criteria : Option Criteria} (h : make store files excluded base source = .ok criteria)
    (source' : String) : make store files excluded base source' = .ok criteria := by
  obtain ⟨includes, excludes, hi, he, hc⟩ := make_eq_ok.mp h
  exact make_eq_ok.mpr
    ⟨includes, excludes, patternList_source hi source', patternList_source he source', hc⟩

end Criteria

namespace Resolution

variable {store : Shared} {m : Entries} {ctx ctx' : Context}

theorem checkMapping_eq_ok {key : String} : checkMapping store m ctx key = .ok ⟨⟩ ↔
    ∀ v, Entries.field? m key = some v → isMapping (store.view v) = true := by
  unfold checkMapping
  cases Entries.field? m key with
  | none => simp
  | some v => by_cases hv : isMapping (store.view v) = true <;> simp [hv]

theorem checkBoolean_eq_ok {key : String} : checkBoolean m ctx key = .ok ⟨⟩ ↔
    ∀ v, Entries.field? m key = some v → isBool v = true := by
  unfold checkBoolean
  cases Entries.field? m key with
  | none => simp
  | some v => by_cases hv : isBool v = true <;> simp [hv]

/-- A configuration has no other keys than it may have, mappings under the keys
that are for mappings and truth values under those for truth values. -/
theorem checkMembers_eq_ok : checkMembers store m ctx = .ok () ↔
    (∀ k ∈ Entries.keys m, (allowedKeys ctx.inOverride).any (fun a => k.same (.str a)) = true) ∧
    (∀ key ∈ mappingKeys, ∀ v, Entries.field? m key = some v → isMapping (store.view v) = true) ∧
    ∀ key ∈ booleanKeys, ∀ v, Entries.field? m key = some v → isBool v = true := by
  have hkeys : ((Entries.keys m).filter fun k =>
      !(allowedKeys ctx.inOverride).any fun a => k.same (.str a)).isEmpty = true ↔
      ∀ k ∈ Entries.keys m, (allowedKeys ctx.inOverride).any (fun a => k.same (.str a)) = true := by
    simp only [List.isEmpty_iff, List.filter_eq_nil_iff, Bool.not_eq_true, Bool.not_eq_false']
  unfold checkMembers
  dsimp only
  split
  · rename_i hne
    rw [Bool.not_eq_true', ← Bool.not_eq_true, hkeys] at hne
    exact ⟨fun h => (nomatch h), fun h => absurd h.1 hne⟩
  · rename_i hne
    rw [Bool.not_eq_true', Bool.not_eq_false, hkeys] at hne
    rw [bind_eq_ok]
    constructor
    · rintro ⟨⟨⟩, hm, hb⟩
      exact ⟨hne, fun key hk => checkMapping_eq_ok.mp (forM_eq_ok.mp hm key hk),
        fun key hk => checkBoolean_eq_ok.mp (forM_eq_ok.mp hb key hk)⟩
    · rintro ⟨-, hm, hb⟩
      exact ⟨⟨⟩, forM_eq_ok.mpr fun key hk => checkMapping_eq_ok.mpr (hm key hk),
        forM_eq_ok.mpr fun key hk => checkBoolean_eq_ok.mpr (hb key hk)⟩

theorem checkMembers_named (name : String) (h : checkMembers store m ctx = .ok ()) :
    checkMembers store m (ctx.named name) = .ok () := by
  rw [checkMembers_eq_ok] at h ⊢
  exact h

theorem references_named {names : List String} (h : references store m ctx = .ok names)
    (name : String) : references store m (ctx.named name) = .ok names := by
  unfold references at h ⊢
  cases hv : store.view ((Entries.field? m "extends").getD .null) with
  | list items =>
    simp only [hv] at h ⊢
    cases hs : Value.strings? items with
    | none => simp only [hs] at h; cases h
    | some names => simpa only [hs] using h
  | _ => simp only [hv] at h ⊢; first | exact h | cases h

theorem ignorePattern?_named {pattern : Option IgnorePattern}
    (h : ignorePattern? store m ctx = .ok pattern) (name : String) :
    ignorePattern? store m (ctx.named name) = .ok pattern := by
  unfold ignorePattern? at h ⊢
  obtain ⟨patterns, hp, h⟩ := bind_eq_ok.mp h
  refine bind_eq_ok.mpr ⟨patterns, Criteria.patternList_source hp _, ?_⟩
  cases patterns with
  | none => exact h
  | some patterns =>
    dsimp only at h ⊢
    split at h
    · cases h
    · rename_i hc
      rw [if_neg (show ¬ (ctx.named name).criteria.isSome = true from hc)]
      exact h

/-- The overrides of a configuration are those of its list, if it has one. -/
theorem overrides_eq_ok {items : List Value} : overrides store m ctx = .ok items ↔
    (given? store m "overrides" = none ∧ items = []) ∨
      ∃ v, given? store m "overrides" = some v ∧ store.view v = .list items := by
  unfold overrides
  cases given? store m "overrides" with
  | none => simp [eq_comm]
  | some v =>
    dsimp only
    cases hv : store.view v <;> simp [hv]

theorem overrides_named {items : List Value} (h : overrides store m ctx = .ok items) (name : String) :
    overrides store m (ctx.named name) = .ok items :=
  overrides_eq_ok.mpr (overrides_eq_ok.mp h)

theorem overrideContext_named {override : Value} {ctx' : Context}
    (h : overrideContext store override ctx = .ok ctx') (name : String) :
    overrideContext store override (ctx.named name) = .ok (ctx'.named name) := by
  obtain ⟨m, files, c, hm, hf, hc, rfl⟩ := overrideContext_eq_ok.mp h
  exact overrideContext_eq_ok.mpr ⟨m, files, c, hm, hf, Criteria.make_source hc _, rfl⟩

end Resolution

end Cascade
