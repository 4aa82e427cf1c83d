import Mathlib.Data.List.Dedup
import Kaleidoscope.Token.Stream
import Kaleidoscope.Proofs.Symbols

/-!
# Names in a session

The identifiers that a stream returns share their entries as they share their spellings, and their
spellings are all that the symbol table holds besides the reserved words.
-/

namespace Kaleidoscope

/-! ## The names in a table -/

def Word.name? : Word → Option Name
  | name n => some n
  | keyword _ => none

namespace SymbolTable

/-- The table holds `names`. They have numbers of their own, which are greater than those of the names
that it held in the `past`. -/
structure Holds (t : SymbolTable) (names past : List Name) : Prop extends Regular t where
  entered : ∀ name, t.words[name.spelling]? = some (.name name) ↔ name ∈ names
  distinct : ∀ name ∈ names, ∀ name' ∈ names, name.serial = name'.serial → name = name'
  older : ∀ name ∈ names, ∀ old ∈ past, old.serial < name.serial
  issued : ∀ name, name ∈ names ∨ name ∈ past → name.serial < t.nextSerial

theorem holds_seeded (serial : Nat) : (seeded serial).Holds [] [] where
  toRegular := regular_seeded serial
  entered name := ⟨fun found => absurd found (no_name_seeded serial _ name), nofun⟩
  distinct := nofun
  older := nofun
  issued := by
    rintro name (mem | mem) <;> cases mem

section
variable {t : SymbolTable} {names past : List Name}

theorem Holds.clear (h : t.Holds names past) : t.clear.Holds [] (past ++ names) where
  toRegular := regular_seeded _
  entered name := ⟨fun found => absurd found (no_name_seeded _ _ name), nofun⟩
  distinct := nofun
  older := nofun
  issued := by
    rintro name (mem | mem)
    · cases mem
    · exact h.issued name (List.mem_append.mp mem).symm

theorem Holds.eq_of_spelling (h : t.Holds names past) {name name' : Name} (mem : name ∈ names)
    (mem' : name' ∈ names) (same : name.spelling = name'.spelling) : name = name' := by
  have found := (h.entered name).mpr mem
  rw [same, (h.entered name').mpr mem'] at found
  cases found
  rfl

theorem Holds.found (h : t.Holds names past) {spelling : String} {word : Word}
    (found : t.words[spelling]? = some word) : t.Holds (names ++ word.name?.toList) past := by
  cases word with
  | keyword k => rwa [Word.name?, Option.toList_none, List.append_nil]
  | name n =>
    have held : n ∈ names := by
      rw [← h.entered n, h.faithful spelling n found]
      exact found
    have same : ∀ name, name ∈ names ++ [n] ↔ name ∈ names := by
      intro name
      rw [List.mem_append, List.mem_singleton]
      exact ⟨fun mem => mem.elim id (· ▸ held), .inl⟩
    refine ⟨h.toRegular, ?_, ?_, ?_, ?_⟩ <;>
      simp only [Word.name?, Option.toList_some, same]
    exacts [h.entered, h.distinct, h.older, h.issued]

theorem Holds.new (h : t.Holds names past) {spelling : String}
    (absent : t.words[spelling]? = none) (regular : (t.intern spelling).2.Regular)
    (new : t.intern spelling = (.name ⟨spelling, t.nextSerial⟩,
      ⟨t.words.insert spelling (.name ⟨spelling, t.nextSerial⟩), t.nextSerial + 1⟩)) :
    (t.intern spelling).2.Holds (names ++ [⟨spelling, t.nextSerial⟩]) past := by
  refine ⟨regular, ?_, ?_, ?_, ?_⟩ <;>
    simp only [new, List.mem_append, List.mem_singleton, Std.HashMap.getElem?_insert, beq_iff_eq]
  · intro name
    by_cases same : spelling = name.spelling
    · have unheld : name ∉ names := by
        rw [← h.entered name, ← same, absent]
        exact nofun
      rw [if_pos same]
      simp only [unheld, false_or, Option.some.injEq, Word.name.injEq]
      exact eq_comm
    · have other : name ≠ ⟨spelling, t.nextSerial⟩ := fun eq => same (eq ▸ rfl)
      rw [if_neg same, h.entered name]
      simp only [other, or_false]
  · rintro name (mem | rfl) name' (mem' | rfl) same
    · exact h.distinct name mem name' mem' same
    · exact absurd same (Nat.ne_of_lt (h.issued name (.inl mem)))
    · exact absurd same.symm (Nat.ne_of_lt (h.issued name' (.inl mem')))
    · rfl
  · rintro name (mem | rfl) old gone
    · exact h.older name mem old gone
    · exact h.issued old (.inr gone)
  · rintro name ((mem | rfl) | gone)
    · exact Nat.lt_succ_of_lt (h.issued name (.inl mem))
    · exact Nat.lt_succ_self _
    · exact Nat.lt_succ_of_lt (h.issued name (.inr gone))

theorem Holds.intern (h : t.Holds names past) (spelling : String) :
    (t.intern spelling).2.Holds (names ++ (t.intern spelling).1.name?.toList) past := by
  have regular := h.toRegular.intern spelling
  rcases t.intern_cases spelling with ⟨word, found, eq⟩ | ⟨absent, eq⟩
  · rw [eq]
    exact h.found found
  · have new := h.new absent regular eq
    rwa [eq] at new ⊢

theorem Holds.contains_iff (h : t.Holds names past) (spelling : String) :
    t.contains spelling = true ↔
      spelling = "def" ∨ spelling = "extern" ∨ spelling ∈ names.map Name.spelling := by
  rw [contains, Std.HashMap.contains_eq_isSome_getElem?, Option.isSome_iff_exists]
  constructor
  · rintro ⟨word, found⟩
    cases word with
    | keyword k =>
      have here := h.reserved spelling k found
      cases k with
      | definition => exact .inl here.symm
      | external => exact .inr (.inl here.symm)
    | name n =>
      have here := h.faithful spelling n found
      refine .inr (.inr (List.mem_map.mpr ⟨n, ?_, here⟩))
      rw [← h.entered n, here]
      exact found
  · rintro (rfl | rfl | mem)
    · exact ⟨_, h.stocked .definition⟩
    · exact ⟨_, h.stocked .external⟩
    · obtain ⟨n, held, rfl⟩ := List.mem_map.mp mem
      exact ⟨_, (h.entered n).mpr held⟩

theorem Holds.not_reserved (h : t.Holds names past) (k : Keyword) :
    k.spelling ∉ names.map Name.spelling := by
  intro mem
  obtain ⟨n, held, same⟩ := List.mem_map.mp mem
  have found := (h.entered n).mpr held
  rw [same, h.stocked k] at found
  cases found

theorem Holds.size_eq (h : t.Holds names past) :
    t.size = 2 + (names.map Name.spelling).dedup.length := by
  -- The table counts its keys, so they are compared with a list that repeats none.
  have nodup : ("def" :: "extern" :: (names.map Name.spelling).dedup).Nodup := by
    refine List.nodup_cons.mpr ⟨?_, List.nodup_cons.mpr ⟨?_, List.nodup_dedup _⟩⟩
    · rw [List.mem_cons, List.mem_dedup]
      rintro (same | mem)
      · exact absurd same (by decide)
      · exact h.not_reserved .definition mem
    · rw [List.mem_dedup]
      exact h.not_reserved .external
  have perm : t.words.keys.Perm ("def" :: "extern" :: (names.map Name.spelling).dedup) := by
    refine (List.perm_ext_iff_of_nodup Std.HashMap.nodup_keys nodup).mpr fun spelling => ?_
    rw [Std.HashMap.mem_keys, Std.HashMap.mem_iff_contains, List.mem_cons, List.mem_cons,
      List.mem_dedup]
    exact h.contains_iff spelling
  rw [size, ← Std.HashMap.length_keys, perm.length_eq, List.length_cons, List.length_cons]
  omega

end

end SymbolTable

/-! ## Words have characters -/

namespace Buffer

variable {ρ : Type} {b b' : Buffer ρ}

/-- What the cursor has passed can be read off if the near chunk holds the first character of it. -/
theorem lexeme_ne_nil (held : b.start < b.near.length) (passed : 0 < b.extent) : b.lexeme ≠ [] := by
  have some {c : Chunk} {i j : Nat} (lt : i < j) : c.slice i j ≠ [] := by
    rw [Chunk.slice, Ne, List.map_eq_nil_iff, List.range'_eq_nil_iff]
    omega
  unfold lexeme lexeme?
  by_cases inside : b.cursor < chunkSize
  · rw [if_pos inside]
    exact some (Nat.lt_add_of_pos_right passed)
  · rw [if_neg inside, if_pos (Nat.le_of_lt held)]
    exact List.append_ne_nil_of_left_ne_nil (some held) _

theorem start_lt_of_word (committed : b.extent = 0) (inside : isWordCharacter b.peek = true) :
    b.start < b.near.length := by
  have cursor : b.cursor = b.start := by rw [Buffer.cursor, committed, Nat.add_zero]
  rw [peek, chunk, index, cursor, if_pos b.start_lt, if_pos b.start_lt, Chunk.peek] at inside
  split at inside
  · assumption
  · exact absurd inside (by decide)

theorem word_ne_empty [Reader ρ] {text : String} (h : b.word = (.ok (some text), b'))
    (committed : b.extent = 0) : text ≠ "" := by
  unfold word at h
  split at h
  · rename_i inside
    split at h
    · rename_i b₁ taken
      cases h
      obtain ⟨ahead, -, passed⟩ := takeWord_ok taken (loaded_of_extent_eq_zero committed)
      have held := start_lt_of_word committed inside
      rw [← ahead.start, ← ahead.near] at held
      rw [Ne, String.ofList_eq_empty_iff]
      exact lexeme_ne_nil held (Nat.zero_lt_of_lt (passed inside))
    · cases h
  · cases h

end Buffer

/-! ## Ledgers -/

namespace TokenStream

inductive Call
  | next
  | reset

def returned : Except ScanError Token → List Name
  | .ok t => t.name?.toList
  | .error _ => []

theorem returned_word (w : Word) (pos : Position) :
    returned (.ok ⟨w.kind, pos⟩) = w.name?.toList := by
  cases w <;> rfl

section
variable {ρ : Type} [Reader ρ]

/-- A word is looked up only if its token is found. -/
theorem kind_symbols (s : TokenStream ρ) (committed : s.buffer.extent = 0) (pos : Position) :
    (s.kind.2.symbols = s.symbols ∧ returned (s.kind.1.map (⟨·, pos⟩)) = []) ∨
      ∃ text, text ≠ "" ∧ s.kind.2.symbols = (s.symbols.intern text).2 ∧
        returned (s.kind.1.map (⟨·, pos⟩)) = (s.symbols.intern text).1.name?.toList := by
  unfold kind
  split
  · exact .inl ⟨rfl, rfl⟩
  · exact .inl ⟨rfl, rfl⟩
  · rename_i b₁ number
    split
    · exact .inl ⟨rfl, rfl⟩
    · rename_i text b word
      have settled := Buffer.number_settled number committed
      exact .inr ⟨text, Buffer.word_ne_empty word settled.1, rfl, returned_word _ pos⟩
    · split
      · exact .inl ⟨rfl, rfl⟩
      · exact .inl ⟨rfl, rfl⟩
      · split <;> exact .inl ⟨rfl, rfl⟩

theorem next_symbols (s : TokenStream ρ) :
    (s.next.2.symbols = s.symbols ∧ returned s.next.1 = []) ∨
      ∃ text, text ≠ "" ∧ s.next.2.symbols = (s.symbols.intern text).2 ∧
        returned s.next.1 = (s.symbols.intern text).1.name?.toList := by
  unfold next
  split
  · exact .inl ⟨rfl, rfl⟩
  · rename_i b gap
    have found := kind_symbols { s with buffer := b } (Buffer.skipGap_ok gap).1 b.startPos
    generalize kind { s with buffer := b } = result at found ⊢
    obtain ⟨result, s'⟩ := result
    cases result with
    | ok kind => exact found
    | error e => exact found

theorem returned_ne_empty (s : TokenStream ρ) (faithful : s.symbols.Faithful) :
    ∀ name ∈ returned s.next.1, name.spelling ≠ "" := by
  intro name mem
  rcases s.next_symbols with ⟨-, none⟩ | ⟨text, some, -, found⟩
  · rw [none] at mem
    cases mem
  · rw [found, Option.mem_toList] at mem
    have word : (s.symbols.intern text).1 = .name name := by
      cases entry : (s.symbols.intern text).1 with
      | name n =>
        rw [entry] at mem
        cases mem
        rfl
      | keyword k =>
        rw [entry] at mem
        cases mem
    rw [(faithful.intern text).2 name word]
    exact some

theorem holds_next {names past : List Name} (s : TokenStream ρ) (h : s.symbols.Holds names past) :
    s.next.2.symbols.Holds (names ++ returned s.next.1) past := by
  rcases s.next_symbols with ⟨symbols, none⟩ | ⟨text, -, symbols, name⟩
  · rwa [symbols, none, List.append_nil]
  · rw [symbols, name]
    exact h.intern text

end

end TokenStream

/-- A stream, and the names that came with its tokens since it was reset and before. -/
structure Ledger (ρ : Type) where
  stream : TokenStream ρ
  names : List Name
  past : List Name

namespace Ledger

open TokenStream (Call returned)

variable {ρ : Type} [Reader ρ]

def ofBuffer (b : Buffer ρ) : Ledger ρ := ⟨.ofBuffer b, [], []⟩

def call (l : Ledger ρ) : Call → Ledger ρ
  | .next => ⟨l.stream.next.2, l.names ++ returned l.stream.next.1, l.past⟩
  | .reset => ⟨l.stream.reset.state, [], l.past ++ l.names⟩

def callAll (l : Ledger ρ) (calls : List Call) : Ledger ρ := calls.foldl call l

theorem holds_call {l : Ledger ρ} (h : l.stream.symbols.Holds l.names l.past) (c : Call) :
    (l.call c).stream.symbols.Holds (l.call c).names (l.call c).past := by
  cases c with
  | next => exact l.stream.holds_next h
  | reset => exact h.clear

theorem holds_callAll {l : Ledger ρ} (h : l.stream.symbols.Holds l.names l.past)
    (calls : List Call) :
    (l.callAll calls).stream.symbols.Holds (l.callAll calls).names (l.callAll calls).past := by
  induction calls generalizing l with
  | nil => exact h
  | cons c calls ih => exact ih (holds_call h c)

/-- In every session two identifiers come from one entry if and only if they have one spelling, none
comes from an entry of one that was returned before the stream was reset, and the table holds the two
reserved words and the spellings of the identifiers, whatever else was read or failed to be. -/
theorem entries_are_spellings (b : Buffer ρ) (calls : List Call) :
    let l := (Ledger.ofBuffer b).callAll calls
    (∀ name ∈ l.names, ∀ name' ∈ l.names,
        name.serial = name'.serial ↔ name.spelling = name'.spelling) ∧
      (∀ name ∈ l.names, ∀ old ∈ l.past, name.serial ≠ old.serial) ∧
      l.stream.symbols.size = 2 + (l.names.map Name.spelling).dedup.length ∧
      ∀ spelling, l.stream.symbols.contains spelling = true ↔
        spelling = "def" ∨ spelling = "extern" ∨ spelling ∈ l.names.map Name.spelling := by
  intro l
  have h : l.stream.symbols.Holds l.names l.past :=
    holds_callAll (l := .ofBuffer b) (SymbolTable.holds_seeded 0) calls
  refine ⟨?_, ?_, h.size_eq, h.contains_iff⟩
  · intro name mem name' mem'
    constructor
    · intro same
      rw [h.distinct name mem name' mem' same]
    · intro same
      rw [h.eq_of_spelling mem mem' same]
  · intro name mem old gone
    exact Nat.ne_of_gt (h.older name mem old gone)

end Ledger

end Kaleidoscope
