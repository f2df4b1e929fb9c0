import Cascade.Proofs.ConfigFile

/-! # Names that files can have

No file has a NUL in its name. So there is none in a path that leads to a file or
that has been resolved, and a path below such a one has none but in what is added. -/
namespace Cascade

/-- What does not separate fields is in one of them. -/
theorem Text.exists_mem_splitOn {α : Type} [BEq α] [LawfulBEq α] {sep c : α} {l : List α} (hc : c ∈ l) (hne : c ≠ sep) :
    ∃ field ∈ l.splitOn sep, c ∈ field := by
  induction l with
  | nil => cases hc
  | cons first rest ih =>
    rw [List.splitOn_cons_eq_if_modifyHead]
    split
    · rename_i hfirst
      rcases List.mem_cons.mp hc with rfl | hc
      · exact absurd (beq_iff_eq.mp hfirst) hne
      · obtain ⟨field, hfield, hmem⟩ := ih hc
        exact ⟨field, List.mem_cons_of_mem _ hfield, hmem⟩
    · cases hs : rest.splitOn sep with
      | nil => exact absurd hs (List.splitOn_ne_nil _ _)
      | cons front fields =>
        rw [List.modifyHead_cons]
        rcases List.mem_cons.mp hc with rfl | hc
        · exact ⟨c :: front, by simp, by simp⟩
        · obtain ⟨field, hfield, hmem⟩ := ih hc
          rw [hs] at hfield
          rcases List.mem_cons.mp hfield with rfl | hfield
          · exact ⟨first :: field, by simp, List.mem_cons_of_mem _ hmem⟩
          · exact ⟨field, List.mem_cons_of_mem _ hfield, hmem⟩

namespace Path

variable {p q directory : Path}

theorem hasNul_eq_false : p.hasNul = false ↔ ∀ name ∈ p.names, '\x00' ∉ name.toList := by
  simp [hasNul]

theorem hasNul_of_subset (h : p.hasNul = false) (hs : q.names ⊆ p.names) : q.hasNul = false :=
  hasNul_eq_false.mpr fun name hn => hasNul_eq_false.mp h name (hs hn)

theorem hasNul_parent (h : p.hasNul = false) : p.parent.hasNul = false :=
  hasNul_of_subset h (List.dropLast_subset _)

theorem hasNul_join (hp : p.hasNul = false) (hq : q.hasNul = false) : (p.join q).hasNul = false := by
  unfold join
  split
  · exact hq
  · rw [hasNul_eq_false] at hp hq ⊢
    intro name hn
    exact (List.mem_append.mp hn).elim (hp name) (hq name)

theorem hasNul_child (hp : p.hasNul = false) {name : String} (hn : '\x00' ∉ name.toList) :
    (p.child name).hasNul = false := by
  refine hasNul_join hp (hasNul_eq_false.mpr fun part hpart hnul => hn ?_)
  obtain ⟨field, hfield, rfl⟩ := List.mem_map.mp (List.mem_filter.mp hpart).1
  rw [String.toList_ofList] at hnul
  exact Text.mem_of_mem_splitOn hfield hnul

theorem names_subset_join (p q : Path) : q.names ⊆ (p.join q).names := by
  unfold join
  split
  · exact List.Subset.refl _
  · exact List.subset_append_right _ _

/-- A NUL in what is added to a path is one in the path. -/
theorem hasNul_child_of_mem (p : Path) {name : String} (hn : '\x00' ∈ name.toList) : (p.child name).hasNul = true := by
  obtain ⟨field, hfield, hmem⟩ := Text.exists_mem_splitOn hn (by decide : '\x00' ≠ '/')
  have hproper : isProper (String.ofList field) = true := by
    refine Bool.and_eq_true_iff.mpr ⟨?_, ?_⟩ <;>
    · refine bne_iff_ne.mpr fun heq => ?_
      rw [← String.toList_inj, String.toList_ofList] at heq
      rw [heq] at hmem
      revert hmem
      decide
  refine List.any_eq_true.mpr ⟨String.ofList field, names_subset_join _ _ ?_, ?_⟩
  · exact List.mem_filter.mpr ⟨List.mem_map.mpr ⟨field, hfield, rfl⟩, hproper⟩
  · rw [String.toList_ofList]
    exact List.contains_iff_mem.mpr hmem

theorem hasNul_of_resolve (h : resolve directory p = .ok q) : q.hasNul = false := by
  simp only [resolve] at h
  split at h
  · cases h
  · rename_i hnul
    cases h
    exact hasNul_of_subset (Bool.eq_false_iff.mpr hnul) (climb_subset _)

theorem exists_resolve (hd : directory.hasNul = false) (hp : p.hasNul = false) :
    ∃ q, resolve directory p = .ok q := by
  simp [resolve, hasNul_join hd hp]

theorem resolve_child_of_mem (directory p : Path) {name : String} (hn : '\x00' ∈ name.toList) :
    resolve directory (p.child name) = .error .badValue := by
  have hnul : (directory.join (p.child name)).hasNul = true := by
    obtain ⟨part, hpart, hmem⟩ := List.any_eq_true.mp (hasNul_child_of_mem p hn)
    exact List.any_eq_true.mpr ⟨part, names_subset_join _ _ hpart, hmem⟩
  simp [resolve, hnul]

end Path

/-- A world whose files have the names that files can have. -/
structure World.Named (w : World) : Prop where
  here : w.directory.hasNul = false
  entries : ∀ e ∈ w.entries, (⟨"/", e.1⟩ : Path).hasNul = false

namespace World

variable {w : World}

/-- What is found has a name that files can have. -/
theorem Named.hasNul_entryAt? (hw : w.Named) {names : List String} {e : Entry}
    (h : w.entryAt? names = some e) : ∀ name ∈ names, '\x00' ∉ name.toList := by
  have ofPrefix : ∀ {whole : List String}, (⟨"/", whole⟩ : Path).hasNul = false → names.isPrefixOf whole = true →
      ∀ name ∈ names, '\x00' ∉ name.toList :=
    fun hwhole hprefix name hn =>
      Path.hasNul_eq_false.mp hwhole name ((List.isPrefixOf_iff_prefix.mp hprefix).subset hn)
  unfold entryAt? at h
  split at h
  · rename_i hl
    exact Path.hasNul_eq_false.mp (hw.entries _ (mem_of_lookup hl))
  · split at h
    · rename_i hdir
      rcases Bool.or_eq_true_iff.mp hdir with hhere | hbelow
      · exact ofPrefix hw.here hhere
      · obtain ⟨entry, hentry, hprefix⟩ := List.any_eq_true.mp hbelow
        exact ofPrefix (hw.entries entry hentry) hprefix
    · cases h

/-- Every name on a walk that ends somewhere is that of something or leads up. -/
theorem Named.hasNul_walk (hw : w.Named) {names at_ stop : List String} (h : w.walk at_ names = some stop)
    {e : Entry} (he : w.entryAt? stop.reverse = some e) :
    (∃ e, w.entryAt? at_.reverse = some e) ∧ ∀ name ∈ names, '\x00' ∉ name.toList := by
  induction names generalizing at_ with
  | nil =>
    cases h
    exact ⟨⟨e, he⟩, by simp⟩
  | cons name rest ih =>
    rw [walk] at h
    split at h
    · rename_i hdir
      obtain ⟨⟨next, hnext⟩, hrest⟩ := ih h
      refine ⟨⟨_, hdir⟩, fun other hother => ?_⟩
      rcases List.mem_cons.mp hother with rfl | hother
      · split at hnext
        · rename_i hup
          rw [beq_iff_eq.mp hup]
          decide
        · exact hw.hasNul_entryAt? hnext other (by simp)
      · exact hrest other hother
    · cases h

theorem Named.hasNul_of_isFile (hw : w.Named) {p : Path} (h : w.isFile p = true) : p.hasNul = false := by
  have hfound : ∃ e, w.find? p = some e := by
    cases hf : w.find? p with
    | none => simp [isFile, hf] at h
    | some e => exact ⟨e, rfl⟩
  obtain ⟨e, he⟩ := hfound
  obtain ⟨stop, hwalk, he⟩ := Option.bind_eq_some_iff.mp he
  have hwhole : (w.directory.join p).hasNul = false := Path.hasNul_eq_false.mpr (hw.hasNul_walk hwalk he).2
  exact Path.hasNul_of_subset hwhole (Path.names_subset_join _ _)

/-- A path is resolved unless there is a NUL in it. -/
theorem Named.exists_resolve (hw : w.Named) {p : Path} (h : p.hasNul = false) : ∃ q, w.resolve p = .ok q :=
  Path.exists_resolve hw.here h

end World

end Cascade
