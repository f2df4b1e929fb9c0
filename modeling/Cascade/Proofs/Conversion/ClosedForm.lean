import Cascade.Proofs.Conversion.Route

/-! # The items of a node in order

What a conversion pushes to the front and to the back comes out as one row of
blocks: environments of the table, processors, ignored files, environments of
plugins, and the node's own item. The environments are themselves rows of this
kind. -/
namespace Cascade.Conversion

variable {s : Setting} {m : Entries} {node : Value} {chain : List String}

/-- How much fuel there is makes no difference once it suffices. -/
theorem reached_fuel {fuel fuel' : Nat} {all all' : List String} (h : Legible s node)
    (hc : Closed s all) (hn : Probe.keys.found node ⊆ all) (hfuel : unused all chain < fuel)
    (hc' : Closed s all') (hn' : Probe.keys.found node ⊆ all') (hfuel' : unused all' chain < fuel') :
    reached s fuel chain node = reached s fuel' chain node := by
  induction fuel generalizing fuel' chain node with
  | zero => omega
  | succ fuel ih =>
    cases fuel' with
    | zero => omega
    | succ fuel' =>
      obtain ⟨m, hv, hm⟩ := h [] node (.here node)
      obtain ⟨expand, hx, hr⟩ := reached_readable fuel chain hv hm
      obtain ⟨expand', hx', hr'⟩ := reached_readable fuel' chain hv hm
      rw [hr, hr']
      by_cases ha : asksFor s m allRules = true
      · rw [if_pos ha, if_pos ha]
      by_cases hb : asksFor s m recommendedRules = true
      · rw [if_neg ha, if_neg ha, if_pos hb, if_pos hb]
      rw [if_neg ha, if_neg ha, if_neg hb, if_neg hb]
      congr 1
      -- both expand the same fragments, each with one more name on the chain
      refine foldEnvironments_congr hm.known (fun f hf => ?_) _
      have he : Enters s node f.1 f.2 :=
        (enters_iff hv (by simpa using ha) (by simpa using hb)).mpr hf
      rw [hx, hx', entered, entered]
      split
      · rfl
      · rename_i hmem
        obtain ⟨hin, hkeys⟩ := hc.enters hn he
        obtain ⟨hin', hkeys'⟩ := hc'.enters hn' he
        have hleft := Nat.lt_of_lt_of_le (unused_append hin hmem) (Nat.le_of_lt_succ hfuel)
        have hleft' := Nat.lt_of_lt_of_le (unused_append hin' hmem) (Nat.le_of_lt_succ hfuel')
        exact ih (h.enters he) hkeys hleft hkeys' hleft'

/-- The items of a node that a chain of environments leads to. -/
def translated (s : Setting) (chain : List String) (node : Value) : Except Failure (List Value) :=
  (reached s (chainBound s node) chain node).map (·.toList)

theorem convert_result (s : Setting) (node : Value) :
    (convert s node).result = translated s [] node := by
  unfold convert translated reached
  rw [Logged.result_bind]
  rfl

/-- The items of a fragment that an enabled name stands for. -/
def block (s : Setting) (chain : List String) (f : String × Value) : List Value :=
  (translated s (chain ++ [f.1]) f.2).toOption.getD []

theorem unused_namesAround (s : Setting) (node : Value) (chain : List String) :
    unused (namesAround s node) chain < chainBound s node :=
  Nat.lt_succ_of_le (unused_le _ _)

theorem translated_of_acyclic (h : WellShaped s node) (ha : Acyclic s chain node) :
    ∃ items, translated s chain node = .ok items := by
  obtain ⟨items, hr⟩ := reached_of_acyclic h ha (closed_namesAround s node)
    (found_subset_namesAround s node) (unused_namesAround s node chain)
  exact ⟨items.toList, by rw [translated, hr]; rfl⟩

theorem translated_block (h : WellShaped s node) (ha : Acyclic s chain node) {name : String}
    {fragment : Value} (he : Enters s node name fragment) :
    translated s (chain ++ [name]) fragment = .ok (block s chain (name, fragment)) := by
  obtain ⟨items, ht⟩ := translated_of_acyclic (h.enters he) (ha.enters he)
  rw [block, ht]
  rfl

/-- A fragment that is entered has no other names than its node, and its own one
is used up. -/
theorem unused_entered {name : String} {fragment : Value} (he : Enters s node name fragment)
    (hmem : name ∉ chain) {fuel : Nat} (hf : chainBound s node = fuel + 1) :
    Probe.keys.found fragment ⊆ namesAround s node ∧
      unused (namesAround s node) (chain ++ [name]) < fuel := by
  obtain ⟨hin, hkeys⟩ :=
    (closed_namesAround s node).enters (found_subset_namesAround s node) he
  have := unused_append hin hmem
  have := unused_namesAround s node chain
  exact ⟨hkeys, by omega⟩

/-- The conversion of a node expands each of its steps to its block. -/
theorem entered_block (h : WellShaped s node) (ha : Acyclic s chain node) {name : String}
    {fragment : Value} (he : Enters s node name fragment) {fuel : Nat}
    (hf : chainBound s node = fuel + 1) :
    entered s fuel chain (name, fragment) = .ok ⟨block s chain (name, fragment)⟩ := by
  have hmem := ha.not_mem he
  obtain ⟨hkeys, hleft⟩ := unused_entered he hmem hf
  have hb := translated_block h ha he
  rw [translated] at hb
  rw [entered, if_neg hmem, reached_fuel (h.enters he).legible (closed_namesAround s node) hkeys hleft
    (closed_namesAround s fragment) (found_subset_namesAround s fragment)
    (unused_namesAround s fragment (chain ++ [name]))]
  cases hr : reached s (chainBound s fragment) (chain ++ [name]) fragment with
  | error e => rw [hr] at hb; cases hb
  | ok items =>
    rw [hr] at hb
    simp only [map_ok, Except.ok.injEq] at hb
    rw [← hb]
    rfl

/-- A node that asks for a whole set of rules is the name of the set. Any other
well-shaped node is, weakest first: the blocks of its environments of the table,
the last one first; its processors, the last one first; the files it ignores;
the blocks of the environments of its own plugins; and its own item. -/
theorem translated_eq (h : WellShaped s node) (ha : Acyclic s chain node) :
    ∃ m, s.shared.view node = .mapping m ∧
      (∀ name fragment, Enters s node name fragment →
        WellShaped s fragment ∧ Acyclic s (chain ++ [name]) fragment ∧
          translated s (chain ++ [name]) fragment = .ok (block s chain (name, fragment))) ∧
      translated s chain node = .ok (
        if asksFor s m allRules then [.str "eslint:all"]
        else if asksFor s m recommendedRules then [.str "eslint:recommended"]
        else
          (tableFragments s (envOf s m)).reverse.flatMap (block s chain) ++
          (processorItems s m).reverse ++
          ignoreItems s m ++
          (pluginFragments s (namedEnvironments s m) (envOf s m)).flatMap (block s chain) ++
          ownItems s m) := by
  obtain ⟨m, hv, hm⟩ := h [] node (.here node)
  refine ⟨m, hv, fun name fragment he => ⟨h.enters he, ha.enters he, translated_block h ha he⟩, ?_⟩
  obtain ⟨fuel, hfuel⟩ : ∃ fuel, chainBound s node = fuel + 1 := ⟨_, rfl⟩
  obtain ⟨expand, hx, hr⟩ := reached_succ fuel chain hv hm
  rw [translated, hfuel, hr]
  by_cases hall : asksFor s m allRules = true
  · rw [if_pos hall, if_pos hall]
    rfl
  by_cases hrec : asksFor s m recommendedRules = true
  · rw [if_neg hall, if_neg hall, if_pos hrec, if_pos hrec]
    rfl
  rw [if_neg hall, if_neg hall, if_neg hrec, if_neg hrec, envOf,
    foldEnvironments_ok (block s chain) hm.envNames]
  · simp [arranged, front, Precedence.toList]
  · intro f hf
    rw [hx]
    exact entered_block h ha
      ((enters_iff hv (by simpa using hall) (by simpa using hrec)).mpr hf) hfuel

/-! Two environments of the table, one of which has another one inside, and an
environment and two processors of a plugin. -/

def fragmentOf (name : String) (env : Entries) : Value :=
  .mapping [(.str "env", .mapping env), (.str "rules", .mapping [(.str name, .int 1)])]

def switchedOn (names : List String) : Entries := names.map fun name => (.str name, .bool true)

def sampleSetting : Setting where
  table := ⟨[(.str "a", fragmentOf "a" (switchedOn ["c"])), (.str "b", fragmentOf "b" []),
    (.str "c", fragmentOf "c" [])]⟩
  shared := {}

def samplePlugin : Value := .object .dependency [("definition", .mapping [
  (.str "processors", .mapping [(.str ".md", .str "first"), (.str ".txt", .str "second")]),
  (.str "environments", .mapping [(.str "x", fragmentOf "x" [])])])]

def sampleNode : Value := .mapping [
  (.str "env", .mapping ((.str "d", .bool false) :: switchedOn ["a", "p/x", "other", "b"])),
  (.str "plugins", .mapping [(.str "p", samplePlugin)]),
  (.str "ignorePattern", .object .ignorePattern [("patterns", .list [.str "out"])])]

def sampleNodes : List Value :=
  [sampleNode, fragmentOf "a" (switchedOn ["c"]), fragmentOf "b" [], fragmentOf "c" [], fragmentOf "x" []]

theorem wellShaped_sample : WellShaped sampleSetting sampleNode := by
  refine .of_invariant (· ∈ sampleNodes) (by simp [sampleNodes]) ?_ ?_
  · intro v hv
    simp only [sampleNodes, List.mem_cons, List.not_mem_nil, or_false] at hv
    rcases hv with rfl | rfl | rfl | rfl | rfl <;> exact ⟨_, rfl, by decide⟩
  · rintro v name fragment hv ⟨m, hm, -, -, hf⟩
    simp only [sampleNodes, List.mem_cons, List.not_mem_nil, or_false] at hv
    rcases hv with rfl | rfl | rfl | rfl | rfl <;> cases hm
    · have hs : (name, fragment) ∈ [("a", fragmentOf "a" (switchedOn ["c"])), ("b", fragmentOf "b" []),
          ("p/x", fragmentOf "x" [])] := hf
      simp only [List.mem_cons, Prod.mk.injEq, List.not_mem_nil, or_false] at hs
      rcases hs with ⟨-, rfl⟩ | ⟨-, rfl⟩ | ⟨-, rfl⟩ <;> simp [sampleNodes]
    · have hs : (name, fragment) ∈ [("c", fragmentOf "c" [])] := hf
      simp only [List.mem_cons, Prod.mk.injEq, List.not_mem_nil, or_false] at hs
      obtain ⟨-, rfl⟩ := hs
      simp [sampleNodes]
    all_goals exact absurd (show (name, fragment) ∈ [] from hf) (by simp)

/-- The item of the node's own rules. -/
def rulesItem (name : String) : Value := .mapping [(.str "rules", .mapping [(.str name, .int 1)])]

def processorOf (name processor : String) : Value :=
  .mapping [(.str "files", .list [.str ("**/*" ++ name)]), (.str "processor", .str processor)]

theorem translated_sample : WellShaped sampleSetting sampleNode ∧ Acyclic sampleSetting [] sampleNode ∧
    translated sampleSetting [] sampleNode = .ok [
      rulesItem "b", rulesItem "c", rulesItem "a",
      processorOf ".txt" "second", processorOf ".md" "first",
      .mapping [(.str "ignores", .list [.str "out"])],
      rulesItem "x",
      .mapping [(.str "plugins", .mapping [(.str "p", Shared.member {} samplePlugin "definition")])]] := by
  obtain ⟨items, hr⟩ : ∃ items, reached sampleSetting 10 [] sampleNode = .ok items := ⟨_, rfl⟩
  have ha := acyclic_of_ok wellShaped_sample hr
  obtain ⟨m, hm, -, ht⟩ := translated_eq wellShaped_sample ha
  cases hm
  exact ⟨wellShaped_sample, ha, ht⟩

end Cascade.Conversion
