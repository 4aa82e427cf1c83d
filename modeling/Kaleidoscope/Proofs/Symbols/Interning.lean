import Kaleidoscope.Proofs.Token.Sharing
import Kaleidoscope.Proofs.Transcript

/-!
# Symbol tables as interning maps

In a session a spelling that is no keyword has one name until the table is cleared, and gets another one
behind that. To reserve a keyword again gives a warning, and nothing else can be seen of it.
-/

namespace Kaleidoscope.SymbolTable

/-! ## Sessions -/

inductive Request
  | intern (spelling : String)
  | reserve (k : Keyword)
  | clear

structure Response where
  word : Option Word
  log : List Record

structure Contents where
  contains : String → Bool
  size : Nat
  isEmpty : Bool

def contents (t : SymbolTable) : Contents := ⟨t.contains, t.size, t.isEmpty⟩

/-- A table that is cleared loses all its entries before the keywords are reserved anew. -/
def serve (t : SymbolTable) : Request → Response × SymbolTable
  | .intern spelling => (⟨some (t.intern spelling).1, []⟩, (t.intern spelling).2)
  | .reserve k => (⟨none, (t.reserve k).2⟩, (t.reserve k).1)
  | .clear => (⟨none, (bare t.nextSerial).reserveAll.2⟩, (bare t.nextSerial).reserveAll.1)

def after (session : List Request) : SymbolTable := serveAll serve (bare 0).reserveAll.1 session

def IsReserved (spelling : String) : Prop := spelling = "def" ∨ spelling = "extern"

instance (spelling : String) : Decidable (IsReserved spelling) := inferInstanceAs (Decidable (_ ∨ _))

def remember (spellings : List String) : Request → List String
  | .intern spelling => if IsReserved spelling then spellings else spellings ++ [spelling]
  | .reserve _ => spellings
  | .clear => []

/-- What a session has interned since it last cleared the table, keywords apart, in order. -/
def interned (session : List Request) : List String := session.foldl remember []

/-! ## Reserved words -/

theorem isReserved_iff {spelling : String} : IsReserved spelling ↔ ∃ k : Keyword, k.spelling = spelling := by
  constructor
  · rintro (rfl | rfl)
    · exact ⟨.definition, rfl⟩
    · exact ⟨.external, rfl⟩
  · rintro ⟨k, rfl⟩
    cases k
    · exact .inl rfl
    · exact .inr rfl

theorem reserveAll_bare (serial : Nat) : (bare serial).reserveAll = (seeded serial, []) := by
  simp [reserveAll, reserve, bare, seeded, Keyword.all, Keyword.spelling]

theorem clear_eq (t : SymbolTable) : t.serve .clear = (⟨none, []⟩, t.clear) := by
  simp only [serve, reserveAll_bare, clear]

section
variable {t t' : SymbolTable} {names past : List Name}

theorem Stocked.reserve_log (h : t.Stocked) (k : Keyword) : (t.reserve k).2 = [duplicate k] := by
  have there : t.words.contains k.spelling = true := by
    rw [Std.HashMap.contains_eq_isSome_getElem?, h k]
    rfl
  exact if_pos there

structure Alike (t t' : SymbolTable) : Prop where
  entries : t.words.Equiv t'.words
  nextSerial : t.nextSerial = t'.nextSerial

theorem Stocked.reserve_alike (h : t.Stocked) (k : Keyword) : (t.reserve k).1.Alike t := by
  refine ⟨.of_forall_getElem?_eq fun spelling => ?_, rfl⟩
  rw [reserve, Std.HashMap.getElem?_insert]
  split
  · rename_i same
    rw [← eq_of_beq same, h k]
  · rfl

namespace Alike

theorem contents_eq (h : t.Alike t') : t.contents = t'.contents := by
  unfold contents
  have contains : t.contains = t'.contains := funext fun _ => h.entries.contains_eq
  rw [contains, size, size, isEmpty, isEmpty, h.entries.size_eq, h.entries.isEmpty_eq]

theorem intern (h : t.Alike t') (spelling : String) :
    (t.intern spelling).1 = (t'.intern spelling).1 ∧
      (t.intern spelling).2.Alike (t'.intern spelling).2 := by
  have same := h.entries.getElem?_eq (k := spelling)
  rcases t'.intern_cases spelling with ⟨word, found, eq⟩ | ⟨absent, eq⟩
  · rw [found] at same
    rw [eq, SymbolTable.intern, same]
    exact ⟨rfl, h⟩
  · rw [absent] at same
    rw [eq, SymbolTable.intern, same, h.nextSerial]
    exact ⟨rfl, h.entries.insert _ _, rfl⟩

theorem serve (h : t.Alike t') (r : Request) :
    (t.serve r).1 = (t'.serve r).1 ∧ (t.serve r).2.Alike (t'.serve r).2 := by
  cases r with
  | intern spelling =>
    obtain ⟨word, next⟩ := h.intern spelling
    exact ⟨by rw [SymbolTable.serve, SymbolTable.serve, word], next⟩
  | reserve k =>
    have log : (t.reserve k).2 = (t'.reserve k).2 := by
      rw [reserve, reserve, h.entries.contains_eq]
    exact ⟨by rw [SymbolTable.serve, SymbolTable.serve, log], h.entries.insert _ _, h.nextSerial⟩
  | clear =>
    rw [clear_eq, clear_eq, clear, clear, h.nextSerial]
    exact ⟨rfl, .refl _, rfl⟩

theorem transcript_eq (h : t.Alike t') (session : List Request) :
    transcript SymbolTable.serve contents t session =
      transcript SymbolTable.serve contents t' session := by
  refine (Kaleidoscope.transcript_eq (R := Alike) (S := Eq) (F := fun _ => False) contents_eq ?_ h
    (List.forall₂_eq_eq_eq ▸ rfl) fun _ _ => id).1
  rintro s s' r r' alike rfl -
  exact alike.serve r

theorem regular (h : t.Alike t') (regular : t'.Regular) : t.Regular where
  faithful spelling name found := regular.faithful spelling name (h.entries.getElem?_eq ▸ found)
  reserved spelling k found := regular.reserved spelling k (h.entries.getElem?_eq ▸ found)
  stocked k := h.entries.getElem?_eq.trans (regular.stocked k)

theorem holds (h : t.Alike t') (holds : t'.Holds names past) : t.Holds names past where
  toRegular := h.regular holds.toRegular
  entered name := by rw [h.entries.getElem?_eq, holds.entered name]
  distinct := holds.distinct
  older := holds.older
  issued := h.nextSerial ▸ holds.issued

end Alike

/-! ## Names in a session -/

theorem Regular.intern_eq_keyword (h : t.Regular) (spelling : String) (k : Keyword) :
    (t.intern spelling).1 = .keyword k ↔ k.spelling = spelling := by
  constructor
  · intro found
    rcases t.intern_cases spelling with ⟨word, there, eq⟩ | ⟨-, eq⟩
    · rw [eq] at found
      exact h.reserved spelling k (found ▸ there)
    · rw [eq] at found
      cases found
  · rintro rfl
    exact h.stocked.intern_keyword k

theorem Regular.exists_name (h : t.Regular) {spelling : String} (free : ¬ IsReserved spelling) :
    ∃ name, (t.intern spelling).1 = .name name ∧ name.spelling = spelling :=
  h.name_of_intern fun k same => free (isReserved_iff.mpr ⟨k, same⟩)

theorem Holds.remember_intern (h : t.Holds names past) (spelling : String) :
    (names ++ (t.intern spelling).1.name?.toList).map Name.spelling =
      remember (names.map Name.spelling) (.intern spelling) := by
  by_cases reserved : IsReserved spelling
  · obtain ⟨k, same⟩ := isReserved_iff.mp reserved
    simp [(h.intern_eq_keyword spelling k).mpr same, Word.name?, remember, reserved]
  · obtain ⟨name, found, spelled⟩ := h.exists_name reserved
    simp [found, Word.name?, remember, reserved, spelled]

/-- One request adds at most one name, or makes the names those of the past. -/
theorem Holds.serve (h : t.Holds names past) (r : Request) :
    ∃ names' past', (t.serve r).2.Holds names' past' ∧
      names'.map Name.spelling = remember (names.map Name.spelling) r ∧
      (r ≠ .clear → names ⊆ names') ∧ (r = .clear → names ⊆ past') ∧ past ⊆ past' := by
  cases r with
  | intern spelling =>
    exact ⟨_, past, h.intern spelling, h.remember_intern spelling,
      fun _ => List.subset_append_left _ _, nofun, List.Subset.refl _⟩
  | reserve k =>
    exact ⟨names, past, (h.stocked.reserve_alike k).holds h, rfl, fun _ => List.Subset.refl _, nofun,
      List.Subset.refl _⟩
  | clear =>
    rw [clear_eq]
    exact ⟨[], past ++ names, h.clear, rfl, fun other => absurd rfl other,
      fun _ => List.subset_append_right _ _, List.subset_append_left _ _⟩

theorem Holds.serveAll (h : t.Holds names past) (session : List Request) :
    ∃ names' past', (serveAll SymbolTable.serve t session).Holds names' past' ∧
      names'.map Name.spelling = session.foldl remember (names.map Name.spelling) ∧
      (.clear ∉ session → names ⊆ names') ∧ (.clear ∈ session → names ⊆ past') ∧ past ⊆ past' := by
  induction session generalizing t names past with
  | nil => exact ⟨names, past, h, rfl, fun _ => List.Subset.refl _, nofun, List.Subset.refl _⟩
  | cons r session ih =>
    obtain ⟨names₁, past₁, first, spelled₁, kept₁, lost₁, older₁⟩ := h.serve r
    obtain ⟨names', past', last, spelled, kept, lost, older⟩ := ih first
    refine ⟨names', past', last, ?_, ?_, ?_, List.Subset.trans older₁ older⟩
    · rw [spelled, spelled₁, List.foldl_cons]
    · intro uncleared
      obtain ⟨other, later⟩ := not_or.mp (mt List.mem_cons.mpr uncleared)
      exact List.Subset.trans (kept₁ (Ne.symm other)) (kept later)
    · intro cleared
      by_cases here : r = .clear
      · exact List.Subset.trans (lost₁ here) older
      · have later := (List.mem_cons.mp cleared).resolve_left (Ne.symm here)
        exact List.Subset.trans (kept₁ here) (lost later)

end

theorem holds_after (session : List Request) :
    ∃ names past, (after session).Holds names past ∧ names.map Name.spelling = interned session := by
  have start : (bare 0).reserveAll.1.Holds [] [] := by
    rw [reserveAll_bare]
    exact holds_seeded 0
  obtain ⟨names, past, holds, spelled, -⟩ := start.serveAll session
  exact ⟨names, past, holds, spelled⟩

/-- Names are shared if and only if they are spelled alike and no clearing lies between them. -/
theorem Holds.intern_shared {t : SymbolTable} {names past : List Name} (h : t.Holds names past)
    {spelling spelling' : String} (free : ¬ IsReserved spelling) (free' : ¬ IsReserved spelling')
    (between : List Request) :
    ∃ name name', (t.intern spelling).1 = .name name ∧
      ((Kaleidoscope.serveAll SymbolTable.serve (t.intern spelling).2 between).intern spelling').1 = .name name' ∧
      (name.serial = name'.serial ↔ spelling = spelling' ∧ .clear ∉ between) := by
  obtain ⟨name, found, spelled⟩ := h.exists_name free
  have first := h.intern spelling
  rw [found] at first
  have held : name ∈ names ++ (Word.name name).name?.toList := List.mem_append_right _ List.mem_cons_self
  obtain ⟨names₁, past₁, later, -, kept, lost, -⟩ := first.serveAll between
  obtain ⟨name', found', spelled'⟩ := later.exists_name free'
  have second := later.intern spelling'
  rw [found'] at second
  have held' : name' ∈ names₁ ++ (Word.name name').name?.toList :=
    List.mem_append_right _ List.mem_cons_self
  refine ⟨name, name', found, found', ?_⟩
  by_cases cleared : .clear ∈ between
  · -- behind a clearing every number is greater than all before it
    have less := second.older name' held' name (lost cleared held)
    simp [cleared, Nat.ne_of_lt less]
  · have still := List.mem_append_left (Word.name name').name?.toList (kept cleared held)
    rw [← spelled, ← spelled']
    constructor
    · intro same
      exact ⟨congrArg Name.spelling (second.distinct name still name' held' same), cleared⟩
    · rintro ⟨same, -⟩
      rw [second.eq_of_spelling still held' same]

/-! ## Interning maps -/

/-- The table behind `session` is an interning map in which the keywords stay where they are. -/
structure InternsAfter (session : List Request) : Prop where
  keyword : ∀ spelling k, ((after session).intern spelling).1 = .keyword k ↔ k.spelling = spelling
  reserved : ∀ spelling, (∃ k, ((after session).intern spelling).1 = .keyword k) ↔
    spelling = "def" ∨ spelling = "extern"
  name : ∀ spelling, ¬ IsReserved spelling →
    ∃ name, ((after session).intern spelling).1 = .name name ∧ name.spelling = spelling
  shared : ∀ spelling spelling', ¬ IsReserved spelling → ¬ IsReserved spelling' → ∀ between,
    ∃ name name', ((after session).intern spelling).1 = .name name ∧
      ((after (session ++ .intern spelling :: between)).intern spelling').1 = .name name' ∧
      (name.serial = name'.serial ↔ spelling = spelling' ∧ .clear ∉ between)
  contains : ∀ spelling,
    (after session).contains spelling = true ↔ IsReserved spelling ∨ spelling ∈ interned session
  size : (after session).size = 2 + (interned session).dedup.length
  nonempty : (after session).isEmpty = false
  warns : ∀ k, ((after session).serve (.reserve k)).1.log = [duplicate k]
  unseen : ∀ k, ((after session).serve (.reserve k)).2.contents = (after session).contents ∧
    ∀ later, transcript serve contents ((after session).serve (.reserve k)).2 later =
      transcript serve contents (after session) later
  quiet : ((after session).serve .clear).1.log = []

/-- In every session a table interns its spellings, and a new one has logged nothing. -/
theorem interns_after (session : List Request) :
    (bare 0).reserveAll = (empty, []) ∧ InternsAfter session := by
  obtain ⟨names, past, holds, spelled⟩ := holds_after session
  have keyword := holds.intern_eq_keyword
  refine ⟨reserveAll_bare 0, ?_⟩
  constructor
  case keyword => exact keyword
  case reserved =>
    intro spelling
    simp only [keyword]
    exact isReserved_iff.symm
  case name => exact fun spelling => holds.exists_name
  case shared =>
    intro spelling spelling' free free' between
    have split : after (session ++ .intern spelling :: between) =
        serveAll serve ((after session).intern spelling).2 between := by
      simp [after, serveAll, serve]
    rw [split]
    exact holds.intern_shared free free' between
  case contains =>
    intro spelling
    rw [holds.contains_iff, spelled, IsReserved, or_assoc]
  case size => rw [holds.size_eq, spelled]
  case nonempty =>
    have some : (after session).size ≠ 0 := by
      rw [holds.size_eq]
      omega
    rw [isEmpty, Std.HashMap.isEmpty_eq_size_eq_zero]
    exact beq_false_of_ne some
  case warns => exact holds.stocked.reserve_log
  case unseen =>
    intro k
    have alike := holds.stocked.reserve_alike k
    exact ⟨alike.contents_eq, alike.transcript_eq⟩
  case quiet => rw [clear_eq]

end Kaleidoscope.SymbolTable
