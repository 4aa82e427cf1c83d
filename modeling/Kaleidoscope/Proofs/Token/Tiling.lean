import Kaleidoscope.Proofs.Token.Head

/-!
# Tokens tile their source

The tokens up to the end of the input or the first error take spans of the source, one behind the
other, and what lies between the spans is gaps. Nothing is read twice and nothing is passed over.
-/

namespace Kaleidoscope

structure Tile where
  token : Token
  stop : Nat

def Tile.start (t : Tile) : Nat := t.token.pos.offset

/-- The tokens that a stream gives until it comes to the end of the input or to an error, what it
gives there, and the stream behind it. -/
def TokenStream.tiles {ρ : Type} [Reader ρ] (s : TokenStream ρ) :
    List Tile × Except ScanError Token × TokenStream ρ :=
  match h : s.next with
  | (.error e, s') => ([], .error e, s')
  | (.ok t, s') =>
    if more : t.isEnd = false then
      have _less : Less s' s := next_less h more
      (⟨t, s'.buffer.pos.offset⟩ :: (tiles s').1, (tiles s').2)
    else ([], .ok t, s')
termination_by (s.buffer.unsettled, s.buffer.supply)
decreasing_by all_goals exact _less

theorem TokenStream.tiles_eq {ρ : Type} [Reader ρ] (s : TokenStream ρ) :
    s.tiles =
      match s.next with
      | (.error e, s') => ([], .error e, s')
      | (.ok t, s') =>
        if t.isEnd then ([], .ok t, s') else (⟨t, s'.buffer.pos.offset⟩ :: s'.tiles.1, s'.tiles.2) := by
  rw [tiles]
  split
  · rename_i next
    rw [next]
  · rename_i t s' next
    simp only [next]
    cases t.isEnd <;> rfl

/-! ## Tilings -/

def GapBetween (cs : List Char) (i j : Nat) : Prop :=
  i ≤ j ∧ j ≤ cs.length ∧ Gap (cs.drop j) ((cs.drop i).take (j - i))

/-- From offset `i` up to offset `stop`, `cs` is made of the spans of `tiles` and of gaps. -/
structure Tiling (cs : List Char) (i : Nat) (tiles : List Tile) (stop : Nat) : Prop where
  nonempty : ∀ t ∈ tiles, t.start < t.stop
  ordered : tiles.Pairwise fun t u => t.stop ≤ u.start
  pos : ∀ t ∈ tiles, t.token.pos = .ofIndex cs t.start
  gaps : ∀ p ∈ List.zip (i :: tiles.map Tile.stop) (tiles.map Tile.start ++ [stop]),
    GapBetween cs p.1 p.2

namespace Tiling

variable {cs : List Char} {i stop : Nat} {tiles : List Tile}

theorem nil (gap : GapBetween cs i stop) : Tiling cs i [] stop where
  nonempty := nofun
  ordered := .nil
  pos := nofun
  gaps p mem := by
    rw [List.mem_singleton.mp mem]
    exact gap

theorem start_le (h : Tiling cs i tiles stop) : ∀ t ∈ tiles, i ≤ t.start := by
  intro t mem
  cases tiles with
  | nil => cases mem
  | cons u tiles =>
    have first := (h.gaps (i, u.start) (by simp)).1
    rcases List.mem_cons.mp mem with rfl | later
    · exact first
    · have := h.nonempty u List.mem_cons_self
      have := (List.pairwise_cons.mp h.ordered).1 t later
      omega

theorem cons {t : Tile} (gap : GapBetween cs i t.start) (some : t.start < t.stop)
    (pos : t.token.pos = .ofIndex cs t.start) (rest : Tiling cs t.stop tiles stop) :
    Tiling cs i (t :: tiles) stop where
  nonempty u mem := by
    rcases List.mem_cons.mp mem with rfl | later
    · exact some
    · exact rest.nonempty u later
  ordered := List.pairwise_cons.mpr ⟨rest.start_le, rest.ordered⟩
  pos u mem := by
    rcases List.mem_cons.mp mem with rfl | later
    · exact pos
    · exact rest.pos u later
  gaps p mem := by
    rcases List.mem_cons.mp mem with rfl | later
    · exact gap
    · exact rest.gaps p later

theorem tail {t : Tile} (h : Tiling cs i (t :: tiles) stop) : Tiling cs t.stop tiles stop where
  nonempty u mem := h.nonempty u (List.mem_cons_of_mem t mem)
  ordered := h.ordered.of_cons
  pos u mem := h.pos u (List.mem_cons_of_mem t mem)
  gaps p mem := h.gaps p (List.mem_cons_of_mem _ mem)

theorem start_le_stop (h : Tiling cs i tiles stop) : i ≤ stop ∧ stop ≤ cs.length := by
  induction tiles generalizing i with
  | nil =>
    have gap := h.gaps (i, stop) List.mem_cons_self
    exact ⟨gap.1, gap.2.1⟩
  | cons t tiles ih =>
    have first := h.start_le t List.mem_cons_self
    have some := h.nonempty t List.mem_cons_self
    have rest := ih h.tail
    omega

theorem start_lt_stop (h : Tiling cs i tiles stop) : ∀ t ∈ tiles, t.start < stop := by
  induction tiles generalizing i with
  | nil => nofun
  | cons t tiles ih =>
    intro u mem
    rcases List.mem_cons.mp mem with rfl | later
    · have some := h.nonempty u List.mem_cons_self
      have rest := h.tail.start_le_stop.1
      omega
    · exact ih h.tail u later

theorem increasing (h : Tiling cs i tiles stop) :
    tiles.Pairwise fun t u => compare t.token.pos u.token.pos = .lt := by
  have inside := h.start_le_stop.2
  apply h.ordered.imp_of_mem
  intro t u memt memu le
  have some := h.nonempty t memt
  have before := h.start_lt_stop u memu
  rw [h.pos t memt, h.pos u memu]
  exact Position.compare_ofIndex (by omega) (by omega)

end Tiling

def StopsAt (cs : List Char) (stop : Nat) : Except ScanError Token → Prop
  | .ok t => t = .endOfInput (.ofIndex cs stop) ∧ stop = cs.length
  | .error e => e.position? = some (.ofIndex cs stop) ∧ stop < cs.length

theorem gapBetween_append (before : List Char) {gap rest : List Char} (isGap : Gap rest gap) :
    GapBetween (before ++ gap ++ rest) before.length (before ++ gap).length := by
  refine ⟨by simp, by simp, ?_⟩
  rw [List.drop_left, List.append_assoc, List.drop_left, List.length_append, Nat.add_sub_cancel_left,
    List.take_left]
  exact isGap

/-! ## One token after another -/

namespace TokenStream

section
variable {ρ : Type} [Reader ρ]

inductive Step (s : TokenStream ρ) (source : List UInt8) (before after : List Char) : Prop
  | token {t : Token} {s' : TokenStream ρ} {gap lexeme rest : List Char}
    (next : s.next = (.ok t, s')) (more : t.isEnd = false) (pos : t.pos = .behind (before ++ gap))
    (split : after = gap ++ (lexeme ++ rest)) (isGap : Gap (lexeme ++ rest) gap)
    (some : lexeme ≠ []) (splits : s'.buffer.Splits source (before ++ gap ++ lexeme) [] rest)
  | ended {s' : TokenStream ρ}
    (next : s.next = (.ok (.endOfInput (.behind (before ++ after))), s')) (isGap : Gap [] after)
    (splits : s'.buffer.Splits source (before ++ after) [] [])
  | failed {e : ScanError} {s' : TokenStream ρ} {gap rest : List Char}
    (next : s.next = (.error e, s')) (pos : e.position? = .some (.behind (before ++ gap)))
    (split : after = gap ++ rest) (isGap : Gap rest gap) (some : rest ≠ [])

variable {s : TokenStream ρ} {source : List UInt8} {before after : List Char}

theorem step (h : s.buffer.Splits source before [] after) : s.Step source before after := by
  obtain ⟨gap, tail, b, rest, -, split, isGap, next, tail_eq, splits⟩ := next_splits h
  have answers := Head.answer_cases (Head.ofText_fits tail) s.symbols (.behind (before ++ gap))
  rcases answers with ⟨tail_nil, head⟩ | ⟨some, none, kind, answered, notEnd⟩ |
    ⟨some, e, answered, pos⟩
  · rw [head] at next splits tail_eq
    have gap_eq : after = gap := by rw [split, tail_nil, List.append_nil]
    have rest_nil : rest = [] := tail_eq.symm.trans tail_nil
    rw [tail_nil] at isGap
    rw [gap_eq]
    rw [rest_nil] at splits
    exact .ended next isGap (by simpa [Head.committed, Head.pending] using splits)
  · rw [none] at splits tail_eq
    rw [List.append_nil] at tail_eq
    rw [answered] at next
    rw [tail_eq] at split isGap
    exact .token next notEnd rfl split isGap some splits
  · rw [answered] at next
    exact .failed next pos split isGap some

/-- Tokens, gaps and the stop cover the source behind `before`. -/
theorem tiles_tiling (h : s.buffer.Splits source before [] after) :
    ∃ stop, Tiling (sourceText source) before.length s.tiles.1 stop ∧
      StopsAt (sourceText source) stop s.tiles.2.1 ∧
      ∀ t, s.tiles.2.1 = .ok t → s.tiles.2.2.buffer.Splits source (sourceText source) [] [] := by
  have text : sourceText source = before ++ after := by
    rw [h.text_eq, List.append_nil]
  fun_induction tiles s generalizing before after with
  | case1 s e s' failed =>
    cases step h with
    | token next => rw [next] at failed; cases failed
    | ended next => rw [next] at failed; cases failed
    | @failed e' s'' gap rest next pos split isGap some =>
      rw [next] at failed
      cases failed
      rw [split, ← List.append_assoc] at text
      refine ⟨(before ++ gap).length, ?_, ⟨?_, ?_⟩, nofun⟩
      · rw [text]
        exact .nil (gapBetween_append _ isGap)
      · rw [pos, text, Position.ofIndex_append]
      · have some_left : 0 < rest.length := List.length_pos_iff.mpr some
        rw [text]
        simp only [List.length_append]
        omega
  | case2 s t s' found more _ ih =>
    cases step h with
    | failed next => rw [next] at found; cases found
    | ended next => rw [next] at found; cases found; cases more
    | @token t' s'' gap lexeme rest next _ pos split isGap some splits =>
      rw [next] at found
      cases found
      -- The rest is tiled from the place where the token stops.
      obtain ⟨stop, tiling, stops, behind⟩ := ih splits (by rw [splits.text_eq, List.append_nil])
      refine ⟨stop, ?_, stops, behind⟩
      have start : t.pos.offset = (before ++ gap).length := by rw [pos, Position.offset_behind]
      have here : s'.buffer.pos.offset = (before ++ gap ++ lexeme).length := by
        rw [splits.pos, List.append_nil, Position.offset_behind]
      rw [split, ← List.append_assoc] at text
      apply Tiling.cons
      · rw [Tile.start, start, text]
        exact gapBetween_append _ isGap
      · have some_read : 0 < lexeme.length := List.length_pos_iff.mpr some
        rw [Tile.start, start, here]
        simp only [List.length_append]
        omega
      · rw [Tile.start, start, text, Position.ofIndex_append]
        exact pos
      · rw [here]
        exact tiling
  -- behind the last gap nothing is left
  | case3 s t s' found ended =>
    cases step h with
    | failed next => rw [next] at found; cases found
    | token next more => rw [next] at found; cases found; exact absurd more ended
    | ended next isGap splits =>
      rw [next] at found
      cases found
      rw [← text] at splits
      refine ⟨(before ++ after).length, ?_, ⟨?_, ?_⟩, fun _ _ => splits⟩
      · have gap := gapBetween_append before isGap
        rw [List.append_nil] at gap
        rw [text]
        exact .nil gap
      · rw [text]
        rfl
      · rw [text]

theorem next_of_end (h : s.buffer.Splits source (sourceText source) [] []) :
    ∃ s', s.next = (.ok (.endOfInput (.behind (sourceText source))), s') ∧
      s'.buffer.Splits source (sourceText source) [] [] := by
  cases step h with
  | failed next pos split isGap some =>
    have empty := (List.append_eq_nil_iff.mp split.symm).2
    exact absurd empty some
  | token next more pos split isGap some splits =>
    have empty := (List.append_eq_nil_iff.mp split.symm).2
    exact absurd (List.append_eq_nil_iff.mp empty).1 some
  | ended next isGap splits =>
    rw [List.append_nil] at next splits
    exact ⟨_, next, splits⟩

theorem repeat_next_of_end (h : s.buffer.Splits source (sourceText source) [] []) (n : Nat) :
    (Nat.repeat (fun s => s.next.2) n s).buffer.Splits source (sourceText source) [] [] := by
  induction n with
  | zero => exact h
  | succ n ih =>
    obtain ⟨s', eq, splits⟩ := next_of_end ih
    rw [Nat.repeat, eq]
    exact splits

end

section
variable {ρ : Type} [Reader ρ] {source : List UInt8} {r : ρ}

/-- Tokens and gaps cover the source up to the stop, and behind its end a stream answers that end
however often it is asked. -/
theorem tiles_cover_source (reads : Reader.Delivers source r) (name : String) :
    ∃ b, Buffer.new r name = .ok b ∧
      (∃ stop, Tiling (sourceText source) 0 (ofBuffer b).tiles.1 stop ∧
        StopsAt (sourceText source) stop (ofBuffer b).tiles.2.1) ∧
      ∀ t, (ofBuffer b).tiles.2.1 = .ok t →
        ∀ n, (Nat.repeat (fun s => s.next.2) n (ofBuffer b).tiles.2.2).next.1 = .ok t := by
  obtain ⟨b, eq, splits⟩ := Buffer.new_splits reads name
  obtain ⟨stop, tiling, stops, behind⟩ := tiles_tiling (s := ofBuffer b) splits
  refine ⟨b, eq, ⟨stop, tiling, stops⟩, ?_⟩
  intro t ended n
  obtain ⟨s', again, -⟩ := next_of_end (repeat_next_of_end (behind t ended) n)
  rw [ended] at stops
  obtain ⟨rfl, rfl⟩ := stops
  rw [again, Position.behind]

/-- A comment may hold any bytes, and its source may come in pieces. -/
theorem tiles_cover_source_pieces :
    let content : Array UInt8 := #[35, 0, 233, 10, 97, 32, 60, 61, 49, 46, 53, 9, 35, 33]
    let r := FaultyReader.ofBytes content ⟨some 3, 2, none, false⟩ none
    Reader.Delivers content.toList r ∧ ∃ b, Buffer.new r "pieces" = .ok b ∧
      (∃ stop, Tiling (sourceText content.toList) 0 (ofBuffer b).tiles.1 stop ∧
        StopsAt (sourceText content.toList) stop (ofBuffer b).tiles.2.1) ∧
      ∀ t, (ofBuffer b).tiles.2.1 = .ok t →
        ∀ n, (Nat.repeat (fun s => s.next.2) n (ofBuffer b).tiles.2.2).next.1 = .ok t := by
  have reads := FaultyReader.delivers #[35, 0, 233, 10, 97, 32, 60, 61, 49, 46, 53, 9, 35, 33]
    ⟨some 3, 2, none, false⟩ none rfl rfl (by decide)
  exact ⟨reads, tiles_cover_source reads "pieces"⟩

end

end TokenStream

end Kaleidoscope
