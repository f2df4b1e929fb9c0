import Cascade.Proofs.Conversion.Parts

/-! # Expanding environments

The fold over the environments of a node expands each fragment that an enabled
name stands for. It gives blocks of items when all expansions succeed, and the
failure of one of them when not; nothing but their results matters to it. -/
namespace Cascade.Conversion

variable {s : Setting}

theorem addEnvironment_result (expand : Value → Value → Logged (Precedence Value))
    (environments : Entries) (items : Precedence Value) (e : Value × Value) :
    (addEnvironment s expand environments items e).result =
      if s.shared.truthy e.2 then
        match s.table.get? e.1, Entries.get? environments e.1 with
        | some fragment, _ => (expand e.1 fragment).result.map fun r => ⟨r.items ++ items.items⟩
        | none, some fragment => (expand e.1 fragment).result.map fun r => ⟨items.items ++ r.items⟩
        | none, none => .ok items
      else .ok items := by
  obtain ⟨name, enabled⟩ := e
  unfold addEnvironment
  by_cases ht : s.shared.truthy enabled = true
  · simp only [ht, Bool.not_true, Bool.false_eq_true, if_false, if_true, Logged.result_bind,
      Logged.result_record, ok_bind]
    cases s.table.get? name with
    | some fragment =>
      simp only [Logged.result_bind]
      cases (expand name fragment).result <;> rfl
    | none =>
      cases Entries.get? environments name with
      | some fragment =>
        simp only [Logged.result_bind]
        cases (expand name fragment).result <;> rfl
      | none => rfl
  · simp [ht]

/-- The items of a node after its environments, from those before them. -/
def foldEnvironments (s : Setting) (expand : Value → Value → Logged (Precedence Value))
    (named : List (String × Value)) (env : Entries) (items : Precedence Value) :
    Except Failure (Precedence Value) :=
  env.foldlM (fun items e => (addEnvironment s expand
    (named.foldl (fun m e => Entries.setField m e.1 e.2) []) items e).result) items

/-- The fragments that the enabled names of an environment mapping stand for. -/
def steps (s : Setting) (named : List (String × Value)) (env : Entries) : List (String × Value) :=
  tableFragments s env ++ pluginFragments s named env

/-- Blocks of items around others: those from the table in front, the last one
first, and those from plugins behind. -/
def arranged (s : Setting) (named : List (String × Value)) (env : Entries)
    (block : String × Value → List Value) (items : Precedence Value) : Precedence Value :=
  ⟨(tableFragments s env).reverse.flatMap block ++ items.items ++
    (pluginFragments s named env).flatMap block⟩

/-- An enabled name is looked for in the table first, and then in the plugins. -/
theorem foldEnvironments_enabled (named : List (String × Value)) (rest : Entries) (name : String)
    {enabled : Value} (ht : s.shared.truthy enabled = true)
    (expand : Value → Value → Logged (Precedence Value)) (items : Precedence Value) :
    foldEnvironments s expand named ((.str name, enabled) :: rest) items =
      (match s.table.get? (.str name), named.reverse.lookup name with
        | some fragment, _ =>
          (expand (.str name) fragment).result.map fun r => ⟨r.items ++ items.items⟩
        | none, some fragment =>
          (expand (.str name) fragment).result.map fun r => ⟨items.items ++ r.items⟩
        | none, none => .ok items) >>= foldEnvironments s expand named rest := by
  have hl : Entries.get? (named.foldl (fun m e => Entries.setField m e.1 e.2) []) (.str name) =
      named.reverse.lookup name := by
    have := get?_named named [] name
    simpa [Entries.field?, Entries.get?] using this
  rw [foldEnvironments, List.foldlM_cons, addEnvironment_result, if_pos ht, hl]
  rfl

/-- A name that is not enabled changes nothing. -/
theorem foldEnvironments_disabled (named : List (String × Value)) (rest : Entries) {e : Value × Value}
    (ht : ¬ s.shared.truthy e.2 = true) (expand : Value → Value → Logged (Precedence Value)) (items : Precedence Value) :
    foldEnvironments s expand named (e :: rest) items = foldEnvironments s expand named rest items := by
  rw [foldEnvironments, List.foldlM_cons, addEnvironment_result, if_neg ht]
  rfl

/-- The first entry expands a fragment, and its items are put around those before. -/
structure Expands (s : Setting) (named : List (String × Value)) (e : Value × Value) (rest : Entries)
    (f : String × Value) (put : Precedence Value → Precedence Value → Precedence Value) : Prop where
  mem : ∀ g, g ∈ steps s named (e :: rest) ↔ g = f ∨ g ∈ steps s named rest
  around : ∀ block items, arranged s named (e :: rest) block items =
    arranged s named rest block (put items ⟨block f⟩)
  fold : ∀ expand items, foldEnvironments s expand named (e :: rest) items =
    (expand (.str f.1) f.2).result >>= fun r => foldEnvironments s expand named rest (put items r)

/-- The first entry changes nothing. -/
structure Idle (s : Setting) (named : List (String × Value)) (e : Value × Value) (rest : Entries) : Prop where
  same : steps s named (e :: rest) = steps s named rest
  around : ∀ block items, arranged s named (e :: rest) block items = arranged s named rest block items
  fold : ∀ expand items, foldEnvironments s expand named (e :: rest) items =
    foldEnvironments s expand named rest items

section
variable (named : List (String × Value)) (rest : Entries)

theorem idle_of_enabledNames {e : Value × Value} (hnames : enabledNames s (e :: rest) = enabledNames s rest)
    (hfold : ∀ expand items, foldEnvironments s expand named (e :: rest) items =
      foldEnvironments s expand named rest items) : Idle s named e rest where
  same := by simp only [steps, tableFragments, pluginFragments, hnames]
  around := by
    intro block items
    simp only [arranged, tableFragments, pluginFragments, hnames]
  fold := hfold

theorem idle_disabled {e : Value × Value} (ht : ¬ s.shared.truthy e.2 = true) : Idle s named e rest :=
  idle_of_enabledNames named rest (by simp [enabledNames, ht]) (foldEnvironments_disabled named rest ht)

/-- What is no name has no fragment of the table, and none of a plugin. -/
theorem idle_other {key enabled : Value} (hkey : ∀ name, key ≠ .str name) (hnone : s.table.get? key = none) :
    Idle s named (key, enabled) rest := by
  have hstr : key.str? = none := by
    cases key with
    | str name => exact absurd rfl (hkey name)
    | _ => rfl
  refine idle_of_enabledNames named rest (by simp [enabledNames, hstr]) fun expand items => ?_
  rw [foldEnvironments, List.foldlM_cons, addEnvironment_result, hnone, get?_named_other hkey, ite_self]
  rfl

variable {name : String} {enabled : Value} (ht : s.shared.truthy enabled = true)
include ht

theorem enabledNames_cons : enabledNames s ((.str name, enabled) :: rest) = name :: enabledNames s rest := by
  simp [enabledNames, ht, Value.str?]

theorem expands_table {fragment : Value} (hg : s.table.get? (.str name) = some fragment) :
    Expands s named (.str name, enabled) rest (name, fragment) fun items r => ⟨r.items ++ items.items⟩ where
  mem := by simp [steps, tableFragments, pluginFragments, enabledNames_cons rest ht, hg]
  around := by simp [arranged, tableFragments, pluginFragments, enabledNames_cons rest ht, hg]
  fold := by
    intro expand items
    rw [foldEnvironments_enabled named rest name ht, hg]
    dsimp only
    cases (expand (.str name) fragment).result <;> rfl

theorem expands_plugin {fragment : Value} (hg : s.table.get? (.str name) = none)
    (hn : named.reverse.lookup name = some fragment) :
    Expands s named (.str name, enabled) rest (name, fragment) fun items r => ⟨items.items ++ r.items⟩ where
  mem := by simp [steps, tableFragments, pluginFragments, enabledNames_cons rest ht, hg, hn, or_left_comm]
  around := by simp [arranged, tableFragments, pluginFragments, enabledNames_cons rest ht, hg, hn]
  fold := by
    intro expand items
    rw [foldEnvironments_enabled named rest name ht, hg, hn]
    dsimp only
    cases (expand (.str name) fragment).result <;> rfl

theorem idle_unknown (hg : s.table.get? (.str name) = none) (hn : named.reverse.lookup name = none) :
    Idle s named (.str name, enabled) rest where
  same := by simp [steps, tableFragments, pluginFragments, enabledNames_cons rest ht, hg, hn]
  around := by simp [arranged, tableFragments, pluginFragments, enabledNames_cons rest ht, hg, hn]
  fold := by
    intro expand items
    rw [foldEnvironments_enabled named rest name ht, hg, hn]
    rfl

end

/-- An entry of a node's environments is a step, into the table or a plugin, or
it changes nothing. -/
theorem foldEnvironments_cons (s : Setting) (named : List (String × Value)) {e : Value × Value} (rest : Entries)
    (he : s.shared.truthy e.2 = true → (∃ name, e.1 = .str name) ∨ s.table.get? e.1 = none) :
    (∃ f put, Expands s named e rest f put) ∨ Idle s named e rest := by
  obtain ⟨key, enabled⟩ := e
  by_cases ht : s.shared.truthy enabled = true
  · by_cases hkey : ∀ name, key ≠ .str name
    · exact .inr (idle_other named rest hkey
        ((he ht).resolve_left fun h => h.elim fun name hname => hkey name hname))
    obtain ⟨name, rfl⟩ := Classical.not_forall_not.mp hkey
    cases hg : s.table.get? (.str name) with
    | some fragment => exact .inl ⟨_, _, expands_table named rest ht hg⟩
    | none =>
      cases hn : named.reverse.lookup name with
      | some fragment => exact .inl ⟨_, _, expands_plugin named rest ht hg hn⟩
      | none => exact .inr (idle_unknown named rest ht hg hn)
  · exact .inr (idle_disabled named rest ht)

section
variable {expand : Value → Value → Logged (Precedence Value)} {named : List (String × Value)}

theorem foldEnvironments_known (block : String × Value → List Value) {env : Entries}
    (names : Known s env)
    (h : ∀ f ∈ steps s named env, (expand (.str f.1) f.2).result = .ok ⟨block f⟩)
    (items : Precedence Value) :
    foldEnvironments s expand named env items = .ok (arranged s named env block items) := by
  induction env generalizing items with
  | nil =>
    simp [foldEnvironments, arranged, tableFragments, pluginFragments, enabledNames, pure, Except.pure]
  | cons e rest ih =>
    have ih := ih fun e he => names e (List.mem_cons_of_mem _ he)
    rcases foldEnvironments_cons s named rest (names e (by simp)) with
      ⟨f, put, ⟨hm, ha, hf⟩⟩ | ⟨hm, ha, hf⟩
    · rw [hf, h f ((hm f).mpr (.inl rfl)), ok_bind, ha]
      exact ih (fun g hg => h g ((hm g).mpr (.inr hg))) _
    · rw [hf, ha]
      exact ih (fun g hg => h g (hm ▸ hg)) _

theorem foldEnvironments_ok (block : String × Value → List Value) {env : Entries}
    (names : ∀ e ∈ env, s.shared.truthy e.2 = true → ∃ name, e.1 = .str name)
    (h : ∀ f ∈ steps s named env, (expand (.str f.1) f.2).result = .ok ⟨block f⟩)
    (items : Precedence Value) :
    foldEnvironments s expand named env items = .ok (arranged s named env block items) :=
  foldEnvironments_known block (fun e he ht => .inl (names e he ht)) h items

/-- Only the expansions of its own steps matter to a node. -/
theorem foldEnvironments_congr {expand' : Value → Value → Logged (Precedence Value)} {env : Entries}
    (names : Known s env)
    (h : ∀ f ∈ steps s named env, (expand (.str f.1) f.2).result = (expand' (.str f.1) f.2).result)
    (items : Precedence Value) :
    foldEnvironments s expand named env items = foldEnvironments s expand' named env items := by
  induction env generalizing items with
  | nil => rfl
  | cons e rest ih =>
    have ih := ih fun e he => names e (List.mem_cons_of_mem _ he)
    rcases foldEnvironments_cons s named rest (names e (by simp)) with
      ⟨f, put, ⟨hm, _, hf⟩⟩ | ⟨hm, _, hf⟩
    · rw [hf, hf, h f ((hm f).mpr (.inl rfl))]
      congr 1
      funext r
      exact ih (fun g hg => h g ((hm g).mpr (.inr hg))) _
    · rw [hf, hf]
      exact ih (fun g hg => h g (hm ▸ hg)) _

/-- Either all expansions succeed, or the fold fails as one of them does. -/
theorem foldEnvironments_cases (expand : Value → Value → Logged (Precedence Value))
    (named : List (String × Value)) {env : Entries}
    (names : Known s env) (items : Precedence Value) :
    (∀ f ∈ steps s named env, ∃ r, (expand (.str f.1) f.2).result = .ok r) ∨
    ∃ f ∈ steps s named env, ∃ e, (expand (.str f.1) f.2).result = .error e ∧
      foldEnvironments s expand named env items = .error e := by
  induction env generalizing items with
  | nil => left; simp [steps, tableFragments, pluginFragments, enabledNames]
  | cons entry rest ih =>
    have ih := fun items => ih (fun e he => names e (List.mem_cons_of_mem _ he)) items
    rcases foldEnvironments_cons s named rest (names entry (by simp)) with
      ⟨f, put, ⟨hm, _, hf⟩⟩ | ⟨hm, _, hf⟩
    · cases hr : (expand (.str f.1) f.2).result with
      | error e => exact .inr ⟨f, (hm f).mpr (.inl rfl), e, hr, by rw [hf, hr, error_bind]⟩
      | ok r =>
        rcases ih (put items r) with hall | ⟨g, hg, e, he, hfold⟩
        · left
          intro g hg
          rcases (hm g).mp hg with rfl | hg
          · exact ⟨r, hr⟩
          · exact hall g hg
        · exact .inr ⟨g, (hm g).mpr (.inr hg), e, he, by rw [hf, hr, ok_bind, hfold]⟩
    · rw [hm, hf]
      exact ih items

end

end Cascade.Conversion
