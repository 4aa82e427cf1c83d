import Kaleidoscope.Symbols
import Std.Data.HashMap.Lemmas

/-!
# Words are spelled as they are looked up
-/

namespace Kaleidoscope.SymbolTable

def Faithful (t : SymbolTable) : Prop :=
  ∀ (spelling : String) (name : Name), t.words[spelling]? = some (.name name) →
    name.spelling = spelling

theorem faithful_seeded (serial : Nat) : (seeded serial).Faithful := by
  intro spelling name found
  simp only [seeded, Keyword.all, List.foldl_cons, List.foldl_nil, Std.HashMap.getElem?_insert] at found
  split at found
  · cases found
  · split at found
    · cases found
    · simp at found

theorem Faithful.intern {t : SymbolTable} (h : t.Faithful) (spelling : String) :
    (t.intern spelling).2.Faithful ∧
      ∀ name, (t.intern spelling).1 = .name name → name.spelling = spelling := by
  cases found : t.words[spelling]? with
  | some word =>
    simp only [SymbolTable.intern, found]
    refine ⟨h, ?_⟩
    rintro name rfl
    exact h spelling name found
  | none =>
    simp only [SymbolTable.intern, found]
    refine ⟨?_, ?_⟩
    · intro other name there
      simp only [Std.HashMap.getElem?_insert] at there
      split at there
      · rename_i same
        cases there
        exact eq_of_beq same
      · exact h other name there
    · rintro name eq
      cases eq
      rfl

def Reserved (t : SymbolTable) : Prop :=
  ∀ (spelling : String) (k : Keyword), t.words[spelling]? = some (.keyword k) → k.spelling = spelling

theorem reserved_seeded (serial : Nat) : (seeded serial).Reserved := by
  intro spelling k found
  simp only [seeded, Keyword.all, List.foldl_cons, List.foldl_nil, Std.HashMap.getElem?_insert] at found
  split at found
  · rename_i same
    cases found
    exact eq_of_beq same
  · split at found
    · rename_i same
      cases found
      exact eq_of_beq same
    · simp at found

theorem Reserved.intern {t : SymbolTable} (h : t.Reserved) (spelling : String) :
    (t.intern spelling).2.Reserved ∧
      ((∀ k : Keyword, k.spelling ≠ spelling) → ∃ name, (t.intern spelling).1 = .name name) := by
  cases found : t.words[spelling]? with
  | some word =>
    simp only [SymbolTable.intern, found]
    refine ⟨h, ?_⟩
    intro other
    cases word with
    | name name => exact ⟨name, rfl⟩
    | keyword k => exact absurd (h spelling k found) (other k)
  | none =>
    simp only [SymbolTable.intern, found]
    refine ⟨?_, fun _ => ⟨_, rfl⟩⟩
    intro other k there
    simp only [Std.HashMap.getElem?_insert] at there
    split at there
    · cases there
    · exact h other k there

structure Sound (t : SymbolTable) : Prop where
  faithful : t.Faithful
  reserved : t.Reserved

theorem sound_seeded (serial : Nat) : (seeded serial).Sound :=
  ⟨faithful_seeded serial, reserved_seeded serial⟩

theorem Sound.intern {t : SymbolTable} (h : t.Sound) (spelling : String) :
    (t.intern spelling).2.Sound :=
  ⟨(h.faithful.intern spelling).1, (h.reserved.intern spelling).1⟩

theorem Sound.name_of_intern {t : SymbolTable} (h : t.Sound) {spelling : String}
    (other : ∀ k : Keyword, k.spelling ≠ spelling) :
    ∃ name, (t.intern spelling).1 = .name name ∧ name.spelling = spelling := by
  obtain ⟨name, eq⟩ := (h.reserved.intern spelling).2 other
  exact ⟨name, eq, (h.faithful.intern spelling).2 name eq⟩

def Stocked (t : SymbolTable) : Prop := ∀ k : Keyword, t.words[k.spelling]? = some (.keyword k)

theorem stocked_seeded (serial : Nat) : (seeded serial).Stocked := by
  intro k
  simp only [seeded, Keyword.all, List.foldl_cons, List.foldl_nil, Std.HashMap.getElem?_insert]
  cases k <;> rfl

theorem Stocked.intern {t : SymbolTable} (h : t.Stocked) (spelling : String) :
    (t.intern spelling).2.Stocked := by
  cases found : t.words[spelling]? with
  | some word =>
    simp only [SymbolTable.intern, found]
    exact h
  | none =>
    simp only [SymbolTable.intern, found]
    intro k
    have other : ¬ (spelling == k.spelling) = true := by
      intro same
      rw [eq_of_beq same, h k] at found
      cases found
    rw [Std.HashMap.getElem?_insert, if_neg other]
    exact h k

structure Regular (t : SymbolTable) : Prop extends Sound t where
  stocked : t.Stocked

theorem regular_seeded (serial : Nat) : (seeded serial).Regular :=
  ⟨sound_seeded serial, stocked_seeded serial⟩

theorem Regular.intern {t : SymbolTable} (h : t.Regular) (spelling : String) :
    (t.intern spelling).2.Regular :=
  ⟨h.toSound.intern spelling, h.stocked.intern spelling⟩

theorem Stocked.intern_keyword {t : SymbolTable} (h : t.Stocked) (k : Keyword) :
    (t.intern k.spelling).1 = .keyword k := by
  simp only [SymbolTable.intern, h k]

theorem no_name_seeded (serial : Nat) (spelling : String) (name : Name) :
    (seeded serial).words[spelling]? ≠ some (.name name) := by
  intro found
  simp only [seeded, Keyword.all, List.foldl_cons, List.foldl_nil, Std.HashMap.getElem?_insert] at found
  split at found
  · cases found
  · split at found
    · cases found
    · simp at found

/-- A spelling is found in the table, or becomes the name of the next number. -/
theorem intern_cases (t : SymbolTable) (spelling : String) :
    (∃ word, t.words[spelling]? = some word ∧ t.intern spelling = (word, t)) ∨
      t.words[spelling]? = none ∧ t.intern spelling =
        (.name ⟨spelling, t.nextSerial⟩,
          ⟨t.words.insert spelling (.name ⟨spelling, t.nextSerial⟩), t.nextSerial + 1⟩) := by
  cases found : t.words[spelling]? with
  | some word => exact .inl ⟨word, rfl, by simp only [intern, found]⟩
  | none => exact .inr ⟨rfl, by simp only [intern, found]⟩

end Kaleidoscope.SymbolTable
