import Kaleidoscope.File.Tree

/-!
# Changes to a file tree

Making directories takes nothing away. A file that is made and written is found where its path leads,
and nothing else is touched.
-/

namespace Kaleidoscope

theorem Path.ofText_letter : ∀ name ∈ ["a", "b", "c"], ofText name = ⟨[name]⟩ := by
  intro name letter
  have first : name.splitOnAux "/" 0 0 0 [] = name.splitOnAux "/" 0 ⟨1⟩ 0 [] := by
    simp only [List.mem_cons, List.not_mem_nil, or_false] at letter
    rcases letter with rfl | rfl | rfl
    all_goals
      rw [String.splitOnAux]
      rfl
  have second : name.splitOnAux "/" 0 ⟨1⟩ 0 [] = [name] := by
    simp only [List.mem_cons, List.not_mem_nil, or_false] at letter
    rcases letter with rfl | rfl | rfl
    all_goals
      rw [String.splitOnAux]
      rfl
  exact congrArg Path.mk (first.trans second)

theorem Path.ofText_nested : ofText "b/c" = ⟨["b", "c"]⟩ := by
  have first : "b/c".splitOnAux "/" 0 0 0 [] = "b/c".splitOnAux "/" 0 ⟨1⟩ 0 [] := by
    rw [String.splitOnAux]
    rfl
  have second : "b/c".splitOnAux "/" 0 ⟨1⟩ 0 [] = "b/c".splitOnAux "/" ⟨2⟩ ⟨2⟩ 0 ["b"] := by
    rw [String.splitOnAux]
    rfl
  have third : "b/c".splitOnAux "/" ⟨2⟩ ⟨2⟩ 0 ["b"] = "b/c".splitOnAux "/" ⟨2⟩ ⟨3⟩ 0 ["b"] := by
    rw [String.splitOnAux]
    rfl
  have fourth : "b/c".splitOnAux "/" ⟨2⟩ ⟨3⟩ 0 ["b"] = ["b", "c"] := by
    rw [String.splitOnAux]
    rfl
  exact congrArg Path.mk (first.trans (second.trans (third.trans fourth)))

namespace FileTree

variable {t t' t'' : FileTree} {names place place' : List String} {text name : String}

/-! ## Entries -/

theorem entry_of_ne_nil (t : FileTree) (below : names ≠ []) :
    t.entry? names = (t.entries.find? (·.1 == names)).map (·.2) := by
  unfold entry?
  rw [if_neg (by rwa [List.isEmpty_iff])]

@[simp] theorem home_put (t : FileTree) (names : List String) (entry : FileEntry) :
    (t.put names entry).home = t.home := by
  unfold put
  split <;> rfl

theorem find?_replaced {entries : List (List String × FileEntry)} {entry : FileEntry}
    (there : entries.any (·.1 == names) = true) :
    (entries.map fun e => if e.1 == names then (names, entry) else e).find? (·.1 == names) =
      some (names, entry) := by
  induction entries with
  | nil => cases there
  | cons e entries ih =>
    rw [List.map_cons, List.find?_cons]
    by_cases here : (e.1 == names) = true
    · rw [if_pos here, BEq.rfl]
    · rw [List.any_cons, Bool.eq_false_iff.mpr here, Bool.false_or] at there
      rw [if_neg here, Bool.eq_false_iff.mpr here]
      exact ih there

theorem put_self (t : FileTree) (entry : FileEntry) (below : names ≠ []) :
    entry? (t.put names entry) names = some entry := by
  rw [entry_of_ne_nil _ below]
  unfold put
  split
  · rename_i there
    rw [find?_replaced there]
    rfl
  · rename_i absent
    rw [List.find?_append, List.find?_eq_none.mpr]
    · simp
    · intro e mem here
      exact absent (List.any_eq_true.mpr ⟨e, mem, here⟩)

theorem put_of_ne (t : FileTree) (entry : FileEntry) {names' : List String}
    (ne : names' ≠ names) : entry? (t.put names entry) names' = t.entry? names' := by
  have other : (names == names') = false := beq_false_of_ne (Ne.symm ne)
  unfold entry?
  split
  · rfl
  · congr 1
    unfold put
    split
    · induction t.entries with
      | nil => rfl
      | cons e entries ih =>
        rw [List.map_cons, List.find?_cons, List.find?_cons, ih]
        by_cases here : e.1 == names
        · have there : (e.1 == names') = false := by rwa [eq_of_beq here]
          simp only [if_pos here, other, there]
        · simp only [here, if_neg Bool.false_ne_true]
    · rw [List.find?_append]
      simp [other]

/-! ## Walks -/

structure Within (t t' : FileTree) : Prop where
  home : t'.home = t.home
  directory : ∀ names, t.entry? names = some .directory → t'.entry? names = some .directory

theorem enter_ok : t.enter place = .ok () ↔ t.entry? place = some .directory := by
  unfold enter
  cases t.entry? place with
  | none => simp
  | some entry => cases entry <;> simp

theorem follow_ok (directory : t.entry? place = some .directory) (name : String) :
    t.follow place name =
      if name = "." then .ok place
      else if name = ".." then .ok place.dropLast
      else child place name := by
  unfold follow
  rw [enter_ok.mpr directory]
  rfl

theorem directory_of_follow (h : t.follow place name = .ok place') :
    t.entry? place = some .directory := by
  unfold follow at h
  cases entered : t.enter place with
  | error e =>
    rw [entered] at h
    cases h
  | ok => exact enter_ok.mp entered

namespace Within

theorem follow (h : t.Within t') (followed : t.follow place name = .ok place') :
    t'.follow place name = .ok place' := by
  have directory := directory_of_follow followed
  rwa [follow_ok (h.directory place directory), ← follow_ok directory]

theorem walk (h : t.Within t') {names : List String} (walked : t.walk place names = .ok place') :
    t'.walk place names = .ok place' := by
  induction names generalizing place with
  | nil => exact walked
  | cons name names ih =>
    unfold FileTree.walk at walked ⊢
    rw [List.foldlM_cons] at walked ⊢
    cases followed : t.follow place name with
    | error e =>
      rw [followed] at walked
      cases walked
    | ok next =>
      rw [followed] at walked
      rw [h.follow followed]
      exact ih walked

theorem origin (h : t.Within t') (p : Path) : t'.origin p = t.origin p := by
  unfold FileTree.origin
  rw [h.home]

end Within

theorem lastStep_named : t.lastStep text = .ok (.named place name) ↔
    Path.refused? text = none ∧ (Path.ofText text).names.getLast? = some name ∧
      t.walk (t.origin (.ofText text)) (Path.ofText text).names.dropLast = .ok place ∧
      t.entry? place = some .directory ∧ name ≠ "." ∧ name ≠ ".." := by
  unfold lastStep
  constructor
  · intro h
    -- the path is accepted, walked up to its last name and entered, in this order
    cases refused : Path.refused? text with
    | some e =>
      rw [refused] at h
      cases h
    | none =>
      rw [refused] at h
      dsimp only at h
      cases last : (Path.ofText text).names.getLast? with
      | none =>
        rw [last] at h
        cases h
      | some name' =>
        rw [last] at h
        dsimp only at h
        cases walked : t.walk (t.origin (.ofText text)) (Path.ofText text).names.dropLast with
        | error e =>
          rw [walked] at h
          cases h
        | ok place' =>
          rw [walked] at h
          cases entered : t.enter place' with
          | error e =>
            simp only [bind, Except.bind, entered] at h
            cases h
          | ok =>
            simp only [bind, Except.bind, entered] at h
            split at h
            · cases h
            · rename_i proper
              cases h
              exact ⟨rfl, rfl, rfl, enter_ok.mp entered, not_or.mp proper⟩
  · rintro ⟨accepted, last, walked, directory, proper⟩
    rw [accepted]
    dsimp only
    rw [last]
    simp only [walked, bind, Except.bind, enter_ok.mpr directory, if_neg (not_or.mpr proper)]

theorem Within.lastStep (h : t.Within t') (found : t.lastStep text = .ok (.named place name)) :
    t'.lastStep text = .ok (.named place name) := by
  obtain ⟨accepted, last, walked, directory, proper⟩ := lastStep_named.mp found
  rw [← h.origin] at walked
  exact lastStep_named.mpr ⟨accepted, last, h.walk walked, h.directory place directory, proper⟩

/-! ## Files -/

theorem child_ne_nil (h : child place name = .ok names) : names ≠ [] := by
  unfold child at h
  split at h
  · cases h
  · cases h
    exact List.append_ne_nil_of_right_ne_nil _ (List.cons_ne_nil _ _)

theorem fileTarget_ok : t.fileTarget text = .ok names ↔
    ∃ place name, t.lastStep text = .ok (.named place name) ∧
      (Path.ofText text).wantsDirectory = false ∧ child place name = .ok names ∧
      t.entry? names ≠ some .directory := by
  unfold fileTarget
  cases t.lastStep text with
  | error e => simp [bind, Except.bind]
  | ok step =>
    cases step with
    | standing => simp [bind, Except.bind]
    | named place name =>
      cases wants : (Path.ofText text).wantsDirectory with
      | true => simp [bind, Except.bind]
      | false =>
        cases made : child place name with
        | error e => simp [bind, Except.bind, made]
        | ok names' =>
          simp only [bind, Except.bind, Bool.false_eq_true, if_false, made]
          constructor
          · intro h
            refine ⟨place, name, rfl, trivial, ?_⟩
            split at h
            · cases h
            · rename_i other
              cases h
              exact ⟨made, other⟩
          · rintro ⟨place', name', same, -, made', other⟩
            cases same
            rw [made] at made'
            cases made'
            split
            · rename_i directory
              exact absurd directory other
            · rfl

theorem within_put_file (t : FileTree) (content : ByteArray)
    (other : t.entry? names ≠ some .directory) : t.Within (t.put names (.file content)) where
  home := home_put ..
  directory names' directory := by
    have ne : names' ≠ names := fun same => other (same ▸ directory)
    rwa [put_of_ne t _ ne]

theorem fileTarget_put_file (content : ByteArray) (target : t.fileTarget text = .ok names) :
    (t.put names (.file content)).fileTarget text = .ok names := by
  obtain ⟨place, name, last, plain, made, other⟩ := fileTarget_ok.mp target
  refine fileTarget_ok.mpr
    ⟨place, name, (within_put_file t content other).lastStep last, plain, made, ?_⟩
  rw [put_self t _ (child_ne_nil made)]
  exact nofun

theorem find_of_fileTarget {content : ByteArray} (target : t.fileTarget text = .ok names)
    (there : t.entry? names = some (.file content)) :
    t.find text = .ok (names, .file content) := by
  obtain ⟨place, name, last, plain, made, -⟩ := fileTarget_ok.mp target
  obtain ⟨accepted, ends, walked, directory, noDot, noDots⟩ := lastStep_named.mp last
  obtain ⟨names', split⟩ := List.getLast?_eq_some_iff.mp ends
  -- The last step was taken by `child` there and is taken by `follow` here.
  have whole : t.walk (t.origin (.ofText text)) (Path.ofText text).names = .ok names := by
    rw [split, List.dropLast_concat] at walked
    unfold walk at walked ⊢
    rw [split, List.foldlM_append, walked]
    simp only [bind, Except.bind, List.foldlM_cons, List.foldlM_nil, follow_ok directory,
      if_neg noDot, if_neg noDots, made]
    rfl
  unfold find
  rw [accepted]
  simp only [whole, bind, Except.bind, there, plain]

theorem createFile_ok (h : t.createFile text = .ok t') :
    ∃ names, t.fileTarget text = .ok names ∧ t' = t.put names (.file .empty) := by
  unfold createFile at h
  cases target : t.fileTarget text with
  | error e =>
    rw [target] at h
    cases h
  | ok names =>
    rw [target] at h
    cases h
    exact ⟨names, rfl, rfl⟩

/-- A file that was made takes its content, and no other entry changes. -/
theorem writeFile_of_createFile (h : t.createFile text = .ok t') (content : ByteArray) :
    ∃ place, (t'.writeFile text content).find text = .ok (place, .file content) ∧
      ∀ names, names ≠ place → entry? (t'.writeFile text content) names = t.entry? names := by
  obtain ⟨place, target, rfl⟩ := createFile_ok h
  have target' := fileTarget_put_file .empty target
  obtain ⟨_, _, -, -, made, -⟩ := fileTarget_ok.mp target
  unfold writeFile
  rw [target']
  refine ⟨place, find_of_fileTarget (fileTarget_put_file content target') ?_, ?_⟩
  · exact put_self _ _ (child_ne_nil made)
  · intro names ne
    rw [put_of_ne _ _ ne, put_of_ne _ _ ne]

/-! ## Directories -/

/-- The second tree has all entries of the first, and besides them only directories. -/
def Adds (t t' : FileTree) : Prop :=
  ∀ names, t'.entry? names = t.entry? names ∨
    t.entry? names = none ∧ t'.entry? names = some .directory

theorem Adds.refl (t : FileTree) : t.Adds t := fun _ => .inl rfl

theorem Adds.trans (h : t.Adds t') (h' : t'.Adds t'') : t.Adds t'' := by
  intro names
  rcases h names with same | ⟨absent, directory⟩ <;>
    rcases h' names with same' | ⟨absent', directory'⟩
  · exact .inl (same'.trans same)
  · exact .inr ⟨same ▸ absent', directory'⟩
  · exact .inr ⟨absent, same'.trans directory⟩
  · rw [directory] at absent'
    cases absent'

theorem adds_of_makeDirectory (h : t.makeDirectory text = .ok t') : t.Adds t' := by
  unfold makeDirectory at h
  cases last : t.lastStep text with
  | error e =>
    rw [last] at h
    cases h
  | ok step =>
    rw [last] at h
    cases step with
    | standing => cases h
    | named place name =>
      cases made : child place name with
      | error e =>
        simp only [bind, Except.bind, made] at h
        cases h
      | ok names =>
        simp only [bind, Except.bind, made] at h
        split at h
        · rename_i absent
          cases h
          intro names'
          by_cases here : names' = names
          · subst here
            exact .inr ⟨absent, put_self t _ (child_ne_nil made)⟩
          · exact .inl (put_of_ne t _ here)
        · cases h

theorem adds_makeDirectories (t : FileTree) (path : Path) : t.Adds (t.makeDirectories path).2 := by
  fun_induction makeDirectories t path with
  | case1 path t' made => exact adds_of_makeDirectory made
  | case2 => exact .refl _
  | case3 => exact .refl _
  | case4 path _ up _ _ _ e t' failed ih =>
    rw [failed] at ih
    exact ih
  | case5 path _ up _ _ _ t' above t'' made ih =>
    rw [above] at ih
    exact ih.trans (adds_of_makeDirectory made)
  | case6 path _ up _ _ _ t' above e failed ih =>
    rw [above] at ih
    exact ih
  | case7 => exact .refl _

end FileTree

end Kaleidoscope
