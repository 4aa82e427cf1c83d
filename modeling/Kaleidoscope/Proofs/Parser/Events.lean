import Kaleidoscope.Parser
import Kaleidoscope.Proofs.Grammar.Recovery

/-!
# What a parse does in turn

A parse takes up its tokens in their order. It reports each error right behind the token that the error
shows, and takes up the end of the input a second time if it has reported an error there.
-/

namespace Kaleidoscope

namespace Event

def token? : Event → Option Token
  | took t => some t
  | reported _ => none

def error? : Event → Option SyntaxError
  | took _ => none
  | reported e => some e

variable {read rest more : List Token} {u : Token} {e : SyntaxError} {es : List SyntaxError}

theorem filterMap_token? (ts : List Token) : (ts.map took).filterMap token? = ts := by
  rw [List.filterMap_map]
  exact List.filterMap_some

theorem filterMap_error? (ts : List Token) : (ts.map took).filterMap error? = [] := by
  rw [List.filterMap_map]
  exact List.filterMap_eq_nil_iff.mpr fun _ _ => rfl

/-- No error is reported before the token that the next one shows. -/
theorem sequence_append (apart : ∀ e ∈ es.head?, ∀ t ∈ read, e.pos ≠ t.pos) (rest : List Token) :
    sequence (read ++ rest) es = read.map took ++ sequence rest es := by
  induction read with
  | nil => rfl
  | cons t read ih =>
    have later := ih fun e mem u inside => apart e mem u (List.mem_cons_of_mem t inside)
    cases es with
    | nil => rw [List.cons_append, sequence, later]; rfl
    | cons e es =>
      rw [List.cons_append, sequence, if_neg (apart e rfl t List.mem_cons_self), later]
      rfl

theorem sequence_nil (ts : List Token) : sequence ts [] = ts.map took := by
  induction ts with
  | nil => rfl
  | cons t ts ih => rw [sequence, ih, List.map_cons]

theorem sequence_error (here : e.pos = u.pos) (apart : ∀ t ∈ read, e.pos ≠ t.pos) (more : List Token) :
    sequence (read ++ u :: more) (e :: es) = read.map took ++
      took u :: reported e :: if u.isEnd then [took u] else sequence more es := by
  have front : ∀ e' ∈ (e :: es).head?, ∀ t ∈ read, e'.pos ≠ t.pos := by
    rintro _ ⟨⟩
    exact apart
  rw [sequence_append front, sequence, if_pos here]

end Event

namespace Grammar

variable {ts read rest more : List Token} {t u : Token} {e : SyntaxError}

def Apart (ts : List Token) : Prop := ts.Pairwise fun t u => t.pos ≠ u.pos

def EndsLast (ts : List Token) : Prop := ∀ read u more, ts = read ++ u :: more → u.isEnd = true → more = []

theorem Apart.behind (h : Apart (read ++ rest)) : Apart rest := (List.pairwise_append.mp h).2.1

theorem EndsLast.behind (h : EndsLast (read ++ rest)) : EndsLast rest := by
  intro read' u more split
  exact h (read ++ read') u more (by rw [split, List.append_assoc])

theorem Fault.split {D : List Token → Prop} {Fails : List Token → List Token → Prop}
    (h : Fault D Fails e ts (u :: more)) : ∃ read, ts = read ++ u :: more ∧ e.Shows u := by
  cases h with
  | @mk read _ _ shown => exact ⟨read, rfl, shown⟩

theorem exists_pos_eq (mem : e ∈ (program ts).diagnostics) : ∃ t ∈ ts, e.pos = t.pos := by
  fun_induction program ts with
  | case1 => cases mem
  | case2 => cases mem
  | case3 t rest _ _ ih =>
    obtain ⟨u, there, pos⟩ := ih mem
    exact ⟨u, List.mem_cons_of_mem t there, pos⟩
  | case4 t rest _ _ item behind shorter found ih =>
    obtain ⟨read, -, split, -⟩ := form_again ⟨shorter, found⟩
    obtain ⟨u, there, pos⟩ := ih mem
    exact ⟨u, split ▸ List.mem_append_right read there, pos⟩
  | case5 t rest _ _ e' noLonger found =>
    obtain ⟨u, more, none⟩ := (form_fault ⟨noLonger, found⟩).rest_eq
    cases none
  | case6 t rest _ _ e' u more noLonger found =>
    obtain ⟨read, split, shown⟩ := (form_fault ⟨noLonger, found⟩).split
    cases List.mem_singleton.mp mem
    exact ⟨u, split ▸ List.mem_append_right read List.mem_cons_self, shown.1⟩
  | case7 t rest _ _ e' u more noLonger found _ ih =>
    obtain ⟨read, split, shown⟩ := (form_fault ⟨noLonger, found⟩).split
    rw [split]
    rcases List.mem_cons.mp mem with rfl | later
    · exact ⟨u, List.mem_append_right read List.mem_cons_self, shown.1⟩
    · obtain ⟨v, there, pos⟩ := ih later
      exact ⟨v, List.mem_append_right read (List.mem_cons_of_mem u there), pos⟩
  | case8 => cases mem

theorem Apart.pos_ne (h : Apart (read ++ u :: more)) : ∀ t ∈ read, u.pos ≠ t.pos :=
  fun t mem same => (List.pairwise_append.mp h).2.2 t mem u List.mem_cons_self same.symm

/-- What was read before a program is taken up before anything is reported. -/
theorem sequence_behind (apart : Apart (read ++ rest)) :
    Event.sequence (read ++ rest) (program rest).diagnostics =
      read.map .took ++ Event.sequence rest (program rest).diagnostics := by
  apply Event.sequence_append
  intro e first t mem same
  obtain ⟨u, there, pos⟩ := exists_pos_eq (List.mem_of_mem_head? first)
  exact (List.pairwise_append.mp apart).2.2 t mem u there (same.symm.trans pos)

/-- The end of the input, if `ts` comes to it and one of `es` stands there. -/
def again (ts : List Token) (es : List SyntaxError) : List Token :=
  ts.getLast?.toList.filter fun t => t.isEnd && es.any fun e => e.pos = t.pos

theorem again_nil (ts : List Token) : again ts [] = [] := by
  simp [again]

theorem again_of_noEnd (h : NoEnd ts) (es : List SyntaxError) : again ts es = [] := by
  apply List.filter_eq_nil_iff.mpr
  intro t mem
  rw [h t (List.mem_of_mem_getLast? (Option.mem_toList.mp mem))]
  exact Bool.false_ne_true

theorem again_of_last (last : ts.getLast? = some t) (ends : t.isEnd = true) (es : List SyntaxError) :
    again ts es = if ∃ e ∈ es, e.pos = t.pos then [t] else [] := by
  simp [again, last, ends, List.filter_cons]

/-- Each of the errors `es` is reported, and all of `ts` is taken up. -/
structure Accounts (ts : List Token) (es : List SyntaxError) : Prop where
  errors : (Event.sequence ts es).filterMap Event.error? = es
  tokens : (Event.sequence ts es).filterMap Event.token? = ts ++ again ts es

namespace Accounts

theorem nil (ts : List Token) : Accounts ts [] where
  errors := by rw [Event.sequence_nil, Event.filterMap_error?]
  tokens := by rw [Event.sequence_nil, Event.filterMap_token?, again_nil, List.append_nil]

theorem behind (apart : Apart (read ++ rest)) (h : Accounts rest (program rest).diagnostics) :
    Accounts (read ++ rest) (program rest).diagnostics where
  errors := by
    rw [sequence_behind apart, List.filterMap_append, Event.filterMap_error?, List.nil_append, h.errors]
  tokens := by
    have last : again (read ++ rest) (program rest).diagnostics = again rest (program rest).diagnostics := by
      cases rest with
      | nil => rw [program, again_nil, again_nil]
      | cons t rest => rw [again, List.getLast?_append_of_ne_nil _ (List.cons_ne_nil t rest)]; rfl
    rw [sequence_behind apart, List.filterMap_append, Event.filterMap_token?, h.tokens, last,
      List.append_assoc]

theorem last (apart : Apart (read ++ [u])) (shown : e.pos = u.pos) (ends : u.isEnd = true) :
    Accounts (read ++ [u]) [e] := by
  have front : ∀ t ∈ read, e.pos ≠ t.pos := by
    rw [shown]
    exact apart.pos_ne
  have here : again (read ++ [u]) [e] = [u] := by simp [again, ends, shown]
  constructor
  · rw [Event.sequence_error shown front, if_pos ends, List.filterMap_append, Event.filterMap_error?]
    rfl
  · rw [Event.sequence_error shown front, if_pos ends, here, List.filterMap_append,
      Event.filterMap_token?, List.append_assoc]
    rfl

theorem error (apart : Apart (read ++ u :: more)) (shown : e.pos = u.pos) (goes : u.isEnd = false)
    (h : Accounts more (program more).diagnostics) :
    Accounts (read ++ u :: more) (e :: (program more).diagnostics) := by
  have front : ∀ t ∈ read, e.pos ≠ t.pos := by
    rw [shown]
    exact apart.pos_ne
  have last : again (read ++ u :: more) (e :: (program more).diagnostics) =
      again more (program more).diagnostics := by
    cases more with
    | nil => simp [again, goes]
    | cons v more =>
      unfold again
      rw [List.getLast?_append_of_ne_nil _ (List.cons_ne_nil u _), List.getLast?_cons_cons]
      apply List.filter_congr
      intro t mem
      have inside := List.mem_of_mem_getLast? (Option.mem_toList.mp mem)
      have other : ¬ e.pos = t.pos := shown ▸ (List.pairwise_cons.mp apart.behind).1 t inside
      rw [List.any_cons, decide_eq_false other, Bool.false_or]
  constructor
  · rw [Event.sequence_error shown front, goes, List.filterMap_append, Event.filterMap_error?]
    exact congrArg (e :: ·) h.errors
  · rw [Event.sequence_error shown front, goes, last, List.filterMap_append, Event.filterMap_token?,
      List.append_assoc]
    exact congrArg (read ++ u :: ·) h.tokens

end Accounts

theorem accounts_program (apart : Apart ts) (endsLast : EndsLast ts) :
    Accounts ts (program ts).diagnostics := by
  fun_induction program ts with
  | case1 => exact .nil _
  | case2 => exact .nil _
  | case3 t rest notEnd mark ih =>
    have endsLast' : EndsLast rest := @EndsLast.behind [t] rest endsLast
    exact @Accounts.behind [t] rest apart (ih apart.of_cons endsLast')
  | case4 t rest _ _ item behind shorter found ih =>
    obtain ⟨read, -, split, -⟩ := form_again ⟨shorter, found⟩
    rw [split] at apart endsLast ⊢
    exact (ih apart.behind endsLast.behind).behind apart
  | case5 t rest _ _ e' noLonger found =>
    obtain ⟨u, more, none⟩ := (form_fault ⟨noLonger, found⟩).rest_eq
    cases none
  | case6 t rest _ _ e' u more noLonger found ends =>
    obtain ⟨read, split, shown⟩ := (form_fault ⟨noLonger, found⟩).split
    obtain rfl := endsLast read u more split ends
    rw [split] at apart ⊢
    exact .last apart shown.1 ends
  | case7 t rest _ _ e' u more noLonger found goes ih =>
    obtain ⟨read, split, shown⟩ := (form_fault ⟨noLonger, found⟩).split
    rw [split] at apart endsLast ⊢
    rw [Bool.not_eq_true] at goes
    have endsLast' : EndsLast more := @EndsLast.behind [u] more endsLast.behind
    exact .error apart shown.1 goes (ih apart.behind.of_cons endsLast')
  | case8 => exact .nil _

end Grammar

end Kaleidoscope
