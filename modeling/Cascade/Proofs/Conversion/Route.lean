import Cascade.Proofs.Conversion.Names

/-! # Routes of expansion

A conversion enters the fragment of an enabled name, and from there the
fragments of its names in turn. The names that it has entered are its chain. A
name that comes twice is a cycle; as long as none does, the chain consists of
different names, of which there are only so many. -/
namespace Cascade.Conversion

variable {s : Setting} {m : Entries} {node fragment last : Value} {name : String}
  {chain names : List String} {fuel : Nat}

/-! ## Steps and routes -/

/-- A node that asks for no whole set of rules enters the fragments of its
enabled names, which are those of the table and of its own plugins. -/
def Enters (s : Setting) (node : Value) (name : String) (fragment : Value) : Prop :=
  ∃ m, s.shared.view node = .mapping m ∧
    asksFor s m allRules = false ∧ asksFor s m recommendedRules = false ∧
    (name, fragment) ∈ steps s (namedEnvironments s m) (envOf s m)

/-- The names that lead from a node to another one, step by step. -/
inductive Leads (s : Setting) : Value → List String → Value → Prop where
  | here (node : Value) : Leads s node [] node
  | step {node fragment last : Value} {name : String} {names : List String} :
      Enters s node name fragment → Leads s fragment names last → Leads s node (name :: names) last

/-- Every node that a node leads to has the shape of a node. -/
def WellShaped (s : Setting) (node : Value) : Prop :=
  ∀ names last, Leads s node names last → ∃ m, s.shared.view last = .mapping m ∧ Shaped s m

/-- Every node that a node leads to is one that a conversion can read. -/
def Legible (s : Setting) (node : Value) : Prop :=
  ∀ names last, Leads s node names last → ∃ m, s.shared.view last = .mapping m ∧ Readable s m

/-- No name comes twice on the way from a node, those of the chain counting. -/
def Acyclic (s : Setting) (chain : List String) (node : Value) : Prop :=
  ∀ names last, Leads s node names last → names.Nodup ∧ ∀ name ∈ names, name ∉ chain

/-- Nodes that lead only to each other are well-shaped when each of them has the
shape of a node. -/
theorem WellShaped.of_invariant (good : Value → Prop) (hn : good node)
    (shape : ∀ v, good v → ∃ m, s.shared.view v = .mapping m ∧ Shaped s m)
    (enter : ∀ v name fragment, good v → Enters s v name fragment → good fragment) :
    WellShaped s node := by
  intro names last hl
  induction hl with
  | here node => exact shape node hn
  | step he _ ih => exact ih (enter _ _ _ hn he)

/-- A node that enters nothing is well-shaped when its entries are. -/
theorem WellShaped.of_no_steps (hv : s.shared.view node = .mapping m) (hm : Shaped s m)
    (hs : steps s (namedEnvironments s m) (envOf s m) = []) : WellShaped s node := by
  intro names last hl
  cases hl with
  | here => exact ⟨m, hv, hm⟩
  | step he _ =>
    obtain ⟨m', hv', -, -, hf⟩ := he
    rw [hv] at hv'
    cases hv'
    rw [hs] at hf
    cases hf

theorem WellShaped.enters (h : WellShaped s node) (he : Enters s node name fragment) :
    WellShaped s fragment :=
  fun names last hl => h (name :: names) last (.step he hl)

theorem WellShaped.entries (h : WellShaped s node) (hv : s.shared.view node = .mapping m) :
    Shaped s m := by
  obtain ⟨m', hm, hs⟩ := h [] node (.here node)
  rw [hv] at hm
  cases hm
  exact hs

theorem WellShaped.legible (h : WellShaped s node) : Legible s node := by
  intro names last hl
  obtain ⟨m, hm, hs⟩ := h names last hl
  exact ⟨m, hm, hs.readable⟩

theorem Legible.enters (h : Legible s node) (he : Enters s node name fragment) : Legible s fragment :=
  fun names last hl => h (name :: names) last (.step he hl)

theorem Acyclic.not_mem (h : Acyclic s chain node) (he : Enters s node name fragment) :
    name ∉ chain :=
  (h [name] fragment (.step he (.here _))).2 name (by simp)

theorem Acyclic.enters (h : Acyclic s chain node) (he : Enters s node name fragment) :
    Acyclic s (chain ++ [name]) fragment := by
  intro names last hl
  obtain ⟨hd, hc⟩ := h (name :: names) last (.step he hl)
  obtain ⟨hn, hd⟩ := List.nodup_cons.mp hd
  refine ⟨hd, fun other ho => ?_⟩
  rw [List.mem_append, List.mem_singleton, not_or]
  exact ⟨hc other (List.mem_cons_of_mem _ ho), fun heq => hn (heq ▸ ho)⟩

/-- A step stays within a collection of names. -/
theorem Closed.enters {all : List String} (hc : Closed s all) (hn : Probe.keys.found node ⊆ all)
    (he : Enters s node name fragment) : name ∈ all ∧ Probe.keys.found fragment ⊆ all := by
  obtain ⟨m, hv, -, -, hf⟩ := he
  have hk := Probe.found_view hc.shared hn
  rw [hv] at hk
  exact hc.step hk hf

/-! ## Conversion of one node -/

/-- The conversion of a node that a chain of names leads to. -/
def reached (s : Setting) (fuel : Nat) (chain : List String) (node : Value) :
    Except Failure (Precedence Value) :=
  (ofNode s fuel (chain.map .str) node).result

/-- The conversion of a fragment that a node enters, or the cycle that it closes. -/
def entered (s : Setting) (fuel : Nat) (chain : List String) (f : String × Value) :
    Except Failure (Precedence Value) :=
  if f.1 ∈ chain then .error (.problem (.environmentCycle (chain.dropWhile (· != f.1) ++ [f.1])))
  else reached s fuel (chain ++ [f.1]) f.2

theorem cycleFailure_names (chain : List String) (name : String) :
    cycleFailure (chain.map .str) (.str name) =
      .problem (.environmentCycle (chain.dropWhile (· != name) ++ [name])) := by
  have hd : (chain.map Value.str).dropWhile (fun c => !c.same (.str name)) =
      (chain.dropWhile (· != name)).map .str := by
    rw [List.dropWhile_map]
    congr 2
  have hc : cycleAt (chain.map .str) (.str name) =
      (chain.dropWhile (· != name) ++ [name]).map .str := by
    rw [cycleAt, hd, List.map_append]
    rfl
  rw [cycleFailure, hc, Value.strings?_map_str]

/-- The items of an ordinary node before its environments and its own item. -/
def front (s : Setting) (m : Entries) : Precedence Value :=
  ⟨(processorItems s m).reverse ++ ignoreItems s m⟩

/-- What a conversion with fuel left does to the entries of a node. -/
theorem reached_readable (fuel : Nat) (chain : List String) (hv : s.shared.view node = .mapping m)
    (hm : Readable s m) :
    ∃ expand : Value → Value → Logged (Precedence Value),
      (∀ f, (expand (.str f.1) f.2).result = entered s fuel chain f) ∧
      reached s (fuel + 1) chain node =
        if asksFor s m allRules then .ok ⟨[.str allRules]⟩
        else if asksFor s m recommendedRules then .ok ⟨[.str recommendedRules]⟩
        else (foldEnvironments s expand (namedEnvironments s m) (envOf s m) (front s m)).map
          fun items => ⟨items.items ++ ownItems s m⟩ := by
  refine ⟨fun name fragment => if (chain.map Value.str).any fun c => c.same name
      then Logged.fail (cycleFailure (chain.map .str) name)
      else ofNode s fuel (chain.map .str ++ [name]) fragment, ?_, ?_⟩
  · rintro ⟨name, fragment⟩
    by_cases hn : name ∈ chain
    · have hany : ((chain.map Value.str).any fun c => c.same (.str name)) = true := by
        simpa using hn
      dsimp only
      rw [if_pos hany, Logged.result_fail, cycleFailure_names, entered, if_pos hn]
    · have hany : ((chain.map Value.str).any fun c => c.same (.str name)) = false := by
        simp only [List.any_eq_false, List.mem_map, Value.same_str]
        rintro c ⟨n, hm, rfl⟩ heq
        cases heq
        exact hn hm
      dsimp only
      rw [hany, entered, if_neg hn, reached, List.map_append]
      rfl
  · have he : s.shared.entriesOf node = .ok m := by rw [Shared.entriesOf, hv]
    rw [reached, ofNode, Logged.result_bind, Logged.result_ofFault, he, mapError_ok, ok_bind,
      Logged.result_bind, sentinel_result hm.settings, ok_bind]
    by_cases ha : asksFor s m allRules = true
    · simp only [ha, if_true, Logged.result_pure, Precedence.ofList]
    · by_cases hr : asksFor s m recommendedRules = true
      · simp only [ha, hr, if_true, Precedence.ofList]
        rfl
      · simp only [ha, hr, if_false, Bool.false_eq_true]
        rw [ordinary_result hm]
        rfl

theorem reached_succ (fuel : Nat) (chain : List String) (hv : s.shared.view node = .mapping m) (hm : Shaped s m) :
    ∃ expand : Value → Value → Logged (Precedence Value),
      (∀ f, (expand (.str f.1) f.2).result = entered s fuel chain f) ∧
      reached s (fuel + 1) chain node =
        if asksFor s m allRules then .ok ⟨[.str allRules]⟩
        else if asksFor s m recommendedRules then .ok ⟨[.str recommendedRules]⟩
        else (foldEnvironments s expand (namedEnvironments s m) (envOf s m) (front s m)).map
          fun items => ⟨items.items ++ ownItems s m⟩ :=
  reached_readable fuel chain hv hm.readable

/-- The steps of a node that asks for no whole set of rules. -/
theorem enters_iff (hv : s.shared.view node = .mapping m) (ha : asksFor s m allRules = false)
    (hr : asksFor s m recommendedRules = false) :
    Enters s node name fragment ↔
      (name, fragment) ∈ steps s (namedEnvironments s m) (envOf s m) := by
  constructor
  · rintro ⟨m', hm, -, -, hf⟩
    rw [hv] at hm
    cases hm
    exact hf
  · exact fun hf => ⟨m, hv, ha, hr, hf⟩

/-- A conversion fails only as one of its expansions does. -/
theorem reached_cases (fuel : Nat) (chain : List String) (h : Legible s node) :
    (∃ items, reached s (fuel + 1) chain node = .ok items) ∧
      (∀ name fragment, Enters s node name fragment →
        ∃ items, entered s fuel chain (name, fragment) = .ok items) ∨
    ∃ name fragment e, Enters s node name fragment ∧ entered s fuel chain (name, fragment) = .error e ∧
      reached s (fuel + 1) chain node = .error e := by
  obtain ⟨m, hv, hm⟩ := h [] node (.here node)
  obtain ⟨expand, hx, hr⟩ := reached_readable fuel chain hv hm
  -- either of the two sets of rules stands for the whole node, which then enters nothing
  by_cases ha : asksFor s m allRules = true
  · left
    rw [hr, if_pos ha]
    refine ⟨⟨_, rfl⟩, ?_⟩
    rintro name fragment ⟨m', hv', ha', -, -⟩
    rw [hv] at hv'
    cases hv'
    rw [ha] at ha'
    cases ha'
  by_cases hc : asksFor s m recommendedRules = true
  · left
    rw [hr, if_neg ha, if_pos hc]
    refine ⟨⟨_, rfl⟩, ?_⟩
    rintro name fragment ⟨m', hv', -, hc', -⟩
    rw [hv] at hv'
    cases hv'
    rw [hc] at hc'
    cases hc'
  · rw [hr, if_neg ha, if_neg hc]
    have iff : ∀ name fragment, Enters s node name fragment ↔
        (name, fragment) ∈ steps s (namedEnvironments s m) (envOf s m) :=
      fun _ _ => enters_iff hv (by simpa using ha) (by simpa using hc)
    rcases foldEnvironments_cases expand (namedEnvironments s m) hm.known
      (front s m) with hall | ⟨f, hf, e, he, hfold⟩
    · left
      refine ⟨?_, fun name fragment hs => ?_⟩
      · rw [envOf, foldEnvironments_known
          (fun f => ((expand (.str f.1) f.2).result.toOption.map (·.items)).getD []) hm.known]
        · exact ⟨_, rfl⟩
        · intro f hf
          obtain ⟨r, hr⟩ := hall f hf
          rw [hr]
          rfl
      · obtain ⟨r, hr⟩ := hall (name, fragment) ((iff _ _).mp hs)
        exact ⟨r, by rw [← hx]; exact hr⟩
    · right
      exact ⟨f.1, f.2, e, (iff _ _).mpr hf, by rw [← hx]; exact he, by rw [envOf, hfold]; rfl⟩

/-! ## Conversions along routes -/

/-- A conversion that gives items has met no name twice. -/
theorem acyclic_of_ok (h : WellShaped s node) {items : Precedence Value}
    (hr : reached s fuel chain node = .ok items) : Acyclic s chain node := by
  intro names last hl
  induction hl generalizing fuel chain items with
  | here node => exact ⟨List.nodup_nil, by simp⟩
  | @step node fragment last name names he hl ih =>
    cases fuel with
    | zero => simp [reached, ofNode] at hr
    | succ fuel =>
      rcases reached_cases fuel chain h.legible with ⟨-, hall⟩ | ⟨_, _, e, -, -, herr⟩
      · obtain ⟨r, hf⟩ := hall name fragment he
        unfold entered at hf
        split at hf
        · cases hf
        · rename_i hn
          obtain ⟨hd, hc⟩ := ih (h.enters he) hf
          have hne : ∀ other ∈ names, other ∉ chain ∧ other ≠ name := by
            intro other ho
            simpa using hc other ho
          refine ⟨List.nodup_cons.mpr ⟨fun hmem => (hne name hmem).2 rfl, hd⟩, ?_⟩
          intro other ho
          rcases List.mem_cons.mp ho with rfl | ho
          · exact hn
          · exact (hne other ho).1
      · rw [herr] at hr
        cases hr

/-- With fuel for all the names that are left, a conversion gives items or the
first name that comes twice on one of its routes. -/
theorem reached_ok_or_cycle (h : Legible s node) {all : List String} (hc : Closed s all)
    (hn : Probe.keys.found node ⊆ all) (hf : unused all chain < fuel) :
    (∃ items, reached s fuel chain node = .ok items) ∨
    ∃ names name last, Leads s node (names ++ [name]) last ∧
      names.Nodup ∧ (∀ other ∈ names, other ∉ chain) ∧ name ∈ chain ++ names ∧
      reached s fuel chain node = .error (.problem
        (.environmentCycle ((chain ++ names).dropWhile (· != name) ++ [name]))) := by
  induction fuel generalizing chain node with
  | zero => omega
  | succ fuel ih =>
    rcases reached_cases fuel chain h with ⟨hok, -⟩ | ⟨name, fragment, e, hs, he, hr⟩
    · exact .inl hok
    · right
      -- a name of the chain closes the route here, and any other name goes on the chain
      by_cases hmem : name ∈ chain
      · refine ⟨[], name, fragment, .step hs (.here _), List.nodup_nil, by simp, by simpa using hmem, ?_⟩
        rw [entered, if_pos hmem] at he
        rw [hr, ← he, List.append_nil]
      · rw [entered, if_neg hmem] at he
        have hstep := hc.enters hn hs
        have hleft : unused all (chain ++ [name]) < fuel :=
          Nat.lt_of_lt_of_le (unused_append hstep.1 hmem) (Nat.le_of_lt_succ hf)
        rcases ih (h.enters hs) hstep.2 hleft with
          ⟨items, hok⟩ | ⟨names, twice, last, hl, hd, hfresh, hin, herr⟩
        · rw [hok] at he
          cases he
        · have hne : ∀ other ∈ names, other ∉ chain ∧ other ≠ name := by
            intro other ho
            simpa using hfresh other ho
          refine ⟨name :: names, twice, last, .step hs hl,
            List.nodup_cons.mpr ⟨fun hmem => (hne name hmem).2 rfl, hd⟩, ?_, by simpa using hin, ?_⟩
          · intro other ho
            rcases List.mem_cons.mp ho with rfl | ho
            · exact hmem
            · exact (hne other ho).1
          · rw [hr, ← he, herr, List.append_assoc chain [name] names, List.singleton_append]

/-- Where no name comes twice, a conversion gives items. -/
theorem reached_of_acyclic (h : WellShaped s node) (ha : Acyclic s chain node) {all : List String}
    (hc : Closed s all) (hn : Probe.keys.found node ⊆ all) (hf : unused all chain < fuel) :
    ∃ items, reached s fuel chain node = .ok items := by
  rcases reached_ok_or_cycle h.legible hc hn hf with hok | ⟨names, name, last, hl, -, -, hin, -⟩
  · exact hok
  · obtain ⟨hd, hfresh⟩ := ha _ _ hl
    rcases List.mem_append.mp hin with hin | hin
    · exact absurd hin (hfresh name (by simp))
    · exact absurd rfl ((List.nodup_append.mp hd).2.2 name hin name (by simp))

end Cascade.Conversion
