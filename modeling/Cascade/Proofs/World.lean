import Cascade.ConfigFile
import Cascade.Proofs.Chain
import Cascade.Proofs.Result
import Cascade.Proofs.Text

/-! # What is found in a world

A path that has been resolved starts at the root and goes down only. A file that
it leads to is an entry of the world under its names. Resolving a path to a file
changes neither what it leads to nor its last name. -/
namespace Cascade

namespace Path

/-- A path from the root that never goes up. -/
def IsResolved (p : Path) : Prop := p.root = "/" ∧ ".." ∉ p.names

theorem not_mem_climb (names : List String) : ".." ∉ climb names := by
  suffices h : ∀ names done : List String, ".." ∉ done → ".." ∉
      names.foldl (fun done n => if n == ".." then done.drop 1 else n :: done) done by
    rw [climb, List.mem_reverse]
    exact h names [] (by simp)
  intro names
  induction names with
  | nil => exact fun done hd => hd
  | cons name rest ih =>
    intro done hd
    rw [List.foldl_cons]
    refine ih _ ?_
    split
    · exact fun hm => hd (List.mem_of_mem_drop hm)
    · rename_i hn
      rw [List.mem_cons, not_or]
      exact ⟨fun heq => hn (by simp [← heq]), hd⟩

theorem isResolved_of_resolve {directory p q : Path} (h : resolve directory p = .ok q) :
    q.IsResolved := by
  simp only [resolve] at h
  split at h
  · cases h
  · cases h
    exact ⟨rfl, not_mem_climb _⟩

theorem resolve_error {directory p : Path} {e : Fault} (h : resolve directory p = .error e) :
    e = .badValue := by
  simp only [resolve] at h
  split at h
  · cases h
    rfl
  · cases h

theorem child_packageFile (p : Path) : p.child "__init__.py" = ⟨p.root, p.names ++ ["__init__.py"]⟩ := by
  have : ofString "__init__.py" = ⟨"", ["__init__.py"]⟩ := by decide
  rw [child, this]
  rfl

theorem climb_append_of_ne (names : List String) {name : String} (hn : name ≠ "..") :
    climb (names ++ [name]) = climb names ++ [name] := by
  simp [climb, List.foldl_append, hn]

/-- A path whose last name stays when it is resolved. -/
def KeepsName (p : Path) : Prop := ∀ directory q, resolve directory p = .ok q → q.name = p.name

theorem keepsName_of_last {p : Path} {above : List String} {name : String}
    (hnames : p.names = above ++ [name]) (hn : name ≠ "..") : p.KeepsName := by
  intro directory q h
  have hjoin : ∃ before, (directory.join p).names = before ++ [name] := by
    unfold join
    split
    · exact ⟨above, hnames⟩
    · exact ⟨directory.names ++ above, by simp [hnames]⟩
  obtain ⟨before, hbefore⟩ := hjoin
  simp only [resolve] at h
  split at h
  · cases h
  · cases h
    simp [Path.name, hbefore, hnames, climb_append_of_ne before hn]

theorem keepsName_of_isResolved {p : Path} (hp : p.IsResolved) : p.KeepsName := by
  by_cases hn : p.names = []
  · intro directory q h
    have hjoin : directory.join p = p := by rw [join, if_pos (by simp [isAbsolute, hp.1])]
    simp only [resolve, hjoin] at h
    split at h
    · cases h
    · cases h
      simp [Path.name, hn, climb]
  · refine keepsName_of_last (List.dropLast_concat_getLast hn).symm fun h => ?_
    exact hp.2 (h ▸ List.getLast_mem hn)

/-! ## Module files -/

/-- The last name of a module's file is the name of the module's last part with its ending. -/
theorem names_child_module (p : Path) (s : String) : ∃ above last,
    (p.child (s ++ ".py")).names = above ++ [String.ofList (last ++ ".py".toList)] := by
  have hdot : '/' ∉ ".py".toList := by decide
  obtain ⟨before, last, hs⟩ := Text.splitOn_append hdot s.toList
  have hproper : isProper (String.ofList (last ++ ".py".toList)) = true := by
    have hlength : ∀ t : String, t.length < 3 → String.ofList (last ++ ".py".toList) ≠ t := by
      rintro t ht rfl
      have : ".py".length = 3 := rfl
      simp at ht
      omega
    simp only [isProper, bne_iff_ne, Bool.and_eq_true]
    exact ⟨hlength "" (by decide), hlength "." (by decide)⟩
  have hnames : (ofString (s ++ ".py")).names =
      (before.map String.ofList).filter isProper ++ [String.ofList (last ++ ".py".toList)] := by
    rw [ofString, Text.fields, String.toList_append, hs, List.map_append, List.filter_append, List.map_cons,
      List.map_nil, List.filter_cons_of_pos hproper, List.filter_nil]
  unfold child join
  split
  · exact ⟨_, last, hnames⟩
  · exact ⟨p.names ++ (before.map String.ofList).filter isProper, last, by rw [hnames, List.append_assoc]⟩

theorem keepsName_child_module (p : Path) (s : String) : (p.child (s ++ ".py")).KeepsName := by
  obtain ⟨above, last, hnames⟩ := names_child_module p s
  refine keepsName_of_last hnames fun hup => ?_
  have hlength := congrArg String.length hup
  have hending : ".py".length = 3 := rfl
  have hparent : "..".length = 2 := rfl
  simp only [String.length_ofList, List.length_append, String.length_toList] at hlength
  omega

theorem endsWith_child_module (p : Path) (s : String) :
    Text.endsWith (p.child (s ++ ".py")).name ".py" = true := by
  obtain ⟨above, last, hnames⟩ := names_child_module p s
  have hlast : (p.child (s ++ ".py")).name = String.ofList (last ++ ".py".toList) := by
    rw [name, hnames, List.getLast?_concat, Option.getD_some]
  rw [hlast, Text.endsWith, List.isSuffixOf_iff_suffix]
  exact ⟨last, String.toList_ofList.symm⟩

theorem keepsName_child_packageFile (p : Path) : (p.child "__init__.py").KeepsName := by
  rw [child_packageFile]
  exact keepsName_of_last rfl (by decide)

end Path

namespace World

variable {w : World} {p : Path}

theorem walk_down {names at_ result : List String} (hn : ".." ∉ names)
    (h : w.walk at_ names = some result) : result = names.reverse ++ at_ := by
  induction names generalizing at_ with
  | nil =>
    simp only [walk, Option.some.injEq] at h
    simp [h]
  | cons name rest ih =>
    rw [List.mem_cons, not_or] at hn
    rw [walk] at h
    split at h
    · rw [ih hn.2 h]
      have : (name == "..") = false := by simpa using Ne.symm hn.1
      simp [this]
    · cases h

theorem entryAt?_cases {names : List String} {e : Entry} (h : w.entryAt? names = some e) :
    (names, e) ∈ w.entries ∨ e = .directory := by
  unfold entryAt? at h
  split at h
  · rename_i hl
    cases h
    exact .inl (mem_of_lookup hl)
  · split at h
    · cases h
      exact .inr rfl
    · cases h

theorem find?_cases {e : Entry} (h : w.find? p = some e) :
    (∃ names, (names, e) ∈ w.entries) ∨ e = .directory := by
  obtain ⟨names, -, hn⟩ := Option.bind_eq_some_iff.mp h
  rcases entryAt?_cases hn with hm | hd
  · exact .inl ⟨_, hm⟩
  · exact .inr hd

theorem find?_of_isResolved (hp : p.IsResolved) {e : Entry} (h : w.find? p = some e) :
    (p.names, e) ∈ w.entries ∨ e = .directory := by
  obtain ⟨names, hw, hn⟩ := Option.bind_eq_some_iff.mp h
  have hj : w.directory.join p = p := by
    rw [Path.join, if_pos (by simp [Path.isAbsolute, hp.1])]
  rw [hj] at hw
  have := walk_down hp.2 hw
  rw [this, List.append_nil, List.reverse_reverse] at hn
  exact entryAt?_cases hn

/-- The entry of a file, when the path to it is resolved. -/
theorem entry_of_isFile (hp : p.IsResolved) (h : w.isFile p = true) :
    ∃ e, w.find? p = some e ∧ (p.names, e) ∈ w.entries := by
  unfold isFile at h
  split at h
  · rename_i content hf
    rcases find?_of_isResolved hp hf with hm | hd
    · exact ⟨_, hf, hm⟩
    · cases hd
  · rename_i run hf
    rcases find?_of_isResolved hp hf with hm | hd
    · exact ⟨_, hf, hm⟩
    · cases hd
  · cases h

/-! ## Resolving a path to a file -/

/-- Everything above the end of a walk is a directory; names come last first. -/
def Grounded (w : World) : List String → Prop
  | [] => True
  | _ :: above => w.entryAt? above.reverse = some .directory ∧ Grounded w above

theorem walk_append (start first second : List String) :
    w.walk start (first ++ second) = (w.walk start first).bind fun stop => w.walk stop second := by
  induction first generalizing start with
  | nil => simp [walk]
  | cons name rest ih =>
    rw [List.cons_append, walk, walk]
    split
    · exact ih _
    · rfl

/-- A walk climbs and ends below directories only. -/
theorem walk_grounded {names start stop : List String} (hg : w.Grounded start)
    (h : w.walk start names = some stop) : w.Grounded stop ∧
      stop = names.foldl (fun done n => if n == ".." then done.drop 1 else n :: done) start := by
  induction names generalizing start with
  | nil =>
    simp only [walk, Option.some.injEq] at h
    subst h
    exact ⟨hg, rfl⟩
  | cons name rest ih =>
    rw [walk] at h
    split at h
    · rename_i hd
      have hnext : w.Grounded (if name == ".." then start.drop 1 else name :: start) := by
        split
        · cases start with
          | nil => exact trivial
          | cons _ above => exact hg.2
        · exact ⟨hd, hg⟩
      exact ih hnext h
    · cases h

/-- What is grounded can be walked down to. -/
theorem walk_of_grounded {stop : List String} (hg : w.Grounded stop) (hn : ".." ∉ stop) :
    w.walk [] stop.reverse = some stop := by
  induction stop with
  | nil => rfl
  | cons name above ih =>
    rw [List.mem_cons, not_or] at hn
    have : (name == "..") = false := by simpa using Ne.symm hn.1
    rw [List.reverse_cons, walk_append, ih hg.2 hn.2, Option.bind_some, walk, hg.1]
    simp [walk, this]

/-- A resolved path leads to what the path leads to. -/
theorem find?_resolve {q : Path} (hq : w.resolve p = .ok q) {e : Entry} (h : w.find? p = some e) :
    w.find? q = some e := by
  obtain ⟨stop, hw, he⟩ := Option.bind_eq_some_iff.mp h
  have hempty : w.Grounded [] := trivial
  obtain ⟨hg, hstop⟩ := walk_grounded hempty hw
  have hnames : q.names = stop.reverse := by
    simp only [resolve, Path.resolve] at hq
    split at hq
    · cases hq
    · cases hq
      rw [hstop]
      rfl
  have hres := Path.isResolved_of_resolve hq
  have hj : w.directory.join q = q := by
    rw [Path.join, if_pos (by simp [Path.isAbsolute, hres.1])]
  have hup : ".." ∉ stop := by
    have := hres.2
    rwa [hnames, List.mem_reverse] at this
  show (do let whole := w.directory.join q; w.entryAt? (← w.walk [] whole.names).reverse) = some e
  simp only [hj, hnames, walk_of_grounded hg hup, Option.bind_eq_bind, Option.bind_some, he]

/-- Files whose paths resolve to the same one are the same file. -/
theorem find?_eq_of_resolve_eq {p' q : Path} (hp : w.isFile p = true) (hp' : w.isFile p' = true)
    (hq : w.resolve p = .ok q) (hq' : w.resolve p' = .ok q) : w.find? p = w.find? p' := by
  have found : ∀ {p : Path}, w.isFile p = true → ∃ e, w.find? p = some e := by
    intro p hp
    cases hf : w.find? p with
    | none => simp [isFile, hf] at hp
    | some e => exact ⟨e, rfl⟩
  obtain ⟨e, he⟩ := found hp
  obtain ⟨e', he'⟩ := found hp'
  have hfirst := find?_resolve hq he
  rw [find?_resolve hq' he'] at hfirst
  rw [he, he', hfirst]

theorem isFile_resolve {q : Path} (hq : w.resolve p = .ok q) (hp : w.isFile p = true) :
    w.isFile q = true := by
  cases hf : w.find? p with
  | none => simp [isFile, hf] at hp
  | some e =>
    rw [isFile, hf] at hp
    rw [isFile, find?_resolve hq hf]
    exact hp

/-- Where there is at most one file, all paths to files are resolved to the same one. -/
theorem resolve_eq_of_names {names : List String} (hw : ∀ e ∈ w.entries, e.1 = names) {p' q : Path}
    (hp : w.isFile p = true) (hp' : w.isFile p' = true) (hq : w.resolve p = .ok q) {q' : Path}
    (hq' : w.resolve p' = .ok q') : w.resolve p = w.resolve p' := by
  have only : ∀ {p q : Path}, w.isFile p = true → w.resolve p = .ok q → q = ⟨"/", names⟩ := by
    intro p q hp hq
    have hres := Path.isResolved_of_resolve hq
    obtain ⟨e, -, he⟩ := entry_of_isFile hres (isFile_resolve hq hp)
    rw [← hw _ he, ← hres.1]
  rw [hq, hq', only hp hq, only hp' hq']

/-- A world without entries has no files. -/
theorem isFile_of_no_entries (hw : w.entries = []) (p : Path) : w.isFile p = false := by
  unfold isFile
  split
  · rename_i hf
    rcases find?_cases hf with ⟨_, hm⟩ | hd
    · rw [hw] at hm
      cases hm
    · cases hd
  · rename_i hf
    rcases find?_cases hf with ⟨_, hm⟩ | hd
    · rw [hw] at hm
      cases hm
    · cases hd
  · rfl

end World

end Cascade
