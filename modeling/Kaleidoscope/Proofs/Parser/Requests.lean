import Kaleidoscope.Proofs.Parser.Events
import Kaleidoscope.Proofs.Parser.Following
import Kaleidoscope.Proofs.Parser.Scan

/-!
# Parsing on demand is parsing

A parse on demand asks for every token once, up to the end of the input or the first error, and once
more for the end if it has reported an error there. It gives, reports and logs what a parse does that
has all tokens before it.
-/

namespace Kaleidoscope

/-! ## Acts -/

def Event.act : Event → Act
  | took t => .asked (.ok t)
  | reported e => .reported e.report

theorem SyntaxError.message_report (e : SyntaxError) : e.report.message = e.message := by
  cases e <;> rfl

theorem Event.records_act (name : String) (event : Event) : event.act.records name = [event.record name] := by
  cases event with
  | took t => rfl
  | reported e => simp only [act, Act.records, record, e.message_report]

theorem Event.answers_took (ts : List Token) :
    ((ts.map took).map act).filterMap Act.answer? = ts.map .ok := by
  rw [List.map_map, List.filterMap_map]
  exact congrFun List.filterMap_eq_map ts

namespace Script

def failing (S : Script) : List Act := S.failure.toList.map fun e => .asked (.error e)

def plan (S : Script) (ts : List Token) (es : List SyntaxError) : List Act :=
  (Event.sequence ts es).map Event.act ++ S.failing

def result {α : Type} (S : Script) (value : α) : Except ScanError α :=
  match S.failure with
  | none => .ok value
  | some e => .error e

variable {S : Script} {ts read rest more : List Token} {u : Token} {e : SyntaxError} {es : List SyntaxError}

open Grammar

theorem result_congr {α : Type} {S' : Script} (same : S'.failure = S.failure) (value : α) :
    S'.result value = S.result value := by
  unfold result
  rw [same]

theorem plan_congr {S' : Script} (same : S'.failure = S.failure) (ts : List Token)
    (es : List SyntaxError) : S'.plan ts es = S.plan ts es := by
  unfold plan failing
  rw [same]

theorem requests_eq (ts : List Token) : S.requests ts = (ts.map Event.took).map Event.act ++ S.failing := by
  rw [List.map_map]
  rfl

theorem requests_append (read rest : List Token) :
    S.requests (read ++ rest) = (read.map Event.took).map Event.act ++ S.requests rest := by
  rw [requests_eq, requests_eq, List.map_append, List.map_append, List.append_assoc]

theorem diagnostics_plan (h : Accounts ts es) :
    (S.plan ts es).filterMap Act.report? = es.map SyntaxError.report := by
  have none : S.failing.filterMap Act.report? = [] := by
    unfold failing
    cases S.failure <;> rfl
  have each : Act.report? ∘ Event.act = fun event => event.error?.map SyntaxError.report := by
    funext event
    cases event <;> rfl
  rw [plan, List.filterMap_append, none, List.append_nil, List.filterMap_map, each,
    ← List.map_filterMap, h.errors]

theorem answers_plan (h : Accounts ts es) : (S.plan ts es).filterMap Act.answer? =
    (ts ++ again ts es).map .ok ++ S.failure.toList.map .error := by
  have last : S.failing.filterMap Act.answer? = S.failure.toList.map .error := by
    unfold failing
    cases S.failure <;> rfl
  have each : Act.answer? ∘ Event.act = fun event => event.token?.map .ok := by
    funext event
    cases event <;> rfl
  rw [plan, List.filterMap_append, last, List.filterMap_map, each, ← List.map_filterMap, h.tokens]

theorem records_plan (name : String) : (S.plan ts es).flatMap (Act.records name) =
    (Event.sequence ts es).map (·.record name) := by
  have none : S.failing.flatMap (Act.records name) = [] := by
    unfold failing
    cases S.failure <;> rfl
  rw [plan, List.flatMap_append, none, List.append_nil, List.flatMap_map]
  simp only [Event.records_act]
  exact (List.map_eq_flatMap ..).symm

theorem plan_nil (ts : List Token) : S.plan ts [] = S.requests ts := by
  rw [plan, Event.sequence_nil, requests_eq]

theorem plan_behind (apart : Apart (read ++ rest)) :
    S.plan (read ++ rest) (program rest).diagnostics =
      (read.map Event.took).map Event.act ++ S.plan rest (program rest).diagnostics := by
  rw [plan, sequence_behind apart, List.map_append, List.append_assoc]
  rfl

theorem plan_error (apart : Apart (read ++ u :: more)) (shown : e.pos = u.pos) :
    S.plan (read ++ u :: more) (e :: es) = (read.map Event.took).map Event.act ++
      .asked (.ok u) :: .reported e.report ::
        if u.isEnd then .asked (.ok u) :: S.failing else S.plan more es := by
  have front : ∀ t ∈ read, e.pos ≠ t.pos := by
    rw [shown]
    exact apart.pos_ne
  rw [plan, Event.sequence_error shown front, List.map_append, List.append_assoc]
  cases u.isEnd <;> rfl

end Script

section
variable {ρ : Type} [Reader ρ] {S : Script}

omit [Reader ρ] in
theorem Script.Breaks.result {b : Broken ρ} {α : Type} (h : S.Breaks b) (value : α) :
    S.result value = .error b.error := by
  rw [Script.result, h.1]

/-! ## The top level -/

namespace Reading

open Grammar

variable {r r' : Reading ρ} {t u : Token} {ts read rest : List Token} {past : List Act}

section
variable {goes : r.current.isEnd = false} {items : List Item}

theorem run_of_isEnd (ends : r.current.isEnd = true) (items : List Item) :
    r.run items = ⟨.ok items, r.stream, r.history⟩ := by
  rw [run, dif_pos ends]

theorem run_of_goesOn {item : Option Item} {less : r'.left < r.left}
    (turn : r.turn goes = .goesOn item r' less) : r.run items = r'.run (items ++ item.toList) := by
  rw [run, dif_neg (by simp [goes])]
  simp only [turn]

theorem run_of_broken {b : Broken ρ} (turn : r.turn goes = .broken b) :
    r.run items = .ofBroken b := by
  rw [run, dif_neg (by simp [goes])]
  simp only [turn]

end

theorem Faces.acts_eq (h : r.Faces S ts) (took : r.history = past ++ [.asked (.ok r.current)]) :
    S.acts = past ++ S.requests ts := by
  cases h with
  | ended last sound place done =>
    rw [← done, took, Script.requests, sound]
    rfl
  | more goes place yields ahead =>
    rw [← ahead, took, List.append_assoc]
    rfl

theorem Faces.history_eq (h : r.Faces S ts) (acts : S.acts = past ++ S.requests ts) :
    r.history = past ++ [.asked (.ok r.current)] := by
  cases h with
  | ended last sound place done =>
    rw [done, acts, Script.requests, sound]
    rfl
  | more goes place yields ahead =>
    rw [← ahead, Script.requests_cons, List.append_cons] at acts
    exact List.append_cancel_right acts

/-- What was done up to the first of `rest`, if nothing was reported on the way. -/
theorem Faces.history_behind (h : r.Faces S (read ++ rest)) (h' : r'.Faces S rest)
    (took : r.history = past ++ [.asked (.ok r.current)]) :
    r'.history = past ++ (read.map Event.took).map Event.act ++ [.asked (.ok r'.current)] := by
  apply h'.history_eq
  rw [h.acts_eq took, Script.requests_append, List.append_assoc]

/-- What the acts in `past` come to when the tokens `read` and then `u` have been taken up. -/
def upTo (past : List Act) (read : List Token) (u : Token) : List Act :=
  past ++ (read.map Event.took).map Event.act ++ [.asked (.ok u)]

/-- What a turn at the head of `ts` comes to, for a reading that has done `past` before its token. -/
inductive Turn.Follows (S : Script) (past : List Act) (ts : List Token) {n : Nat} : Turn ρ n → Prop
  | read {item : Option Item} {r : Reading ρ} {read rest : List Token} {less : r.left < n}
    (split : ts = read ++ rest) (some : read ≠ [])
    (items : (program ts).items = item.toList ++ (program rest).items)
    (diagnostics : (program ts).diagnostics = (program rest).diagnostics) (faces : r.Faces S rest) :
    Follows S past ts (.goesOn item r less)
  | reported {r : Reading ρ} {e : SyntaxError} {u : Token} {read rest : List Token} {less : r.left < n}
    {S' : Script} (split : ts = read ++ u :: rest) (shown : e.Shows u) (goes : u.isEnd = false)
    (program : program ts = (program rest).withError e) (faces : r.Faces S' rest)
    (same : S'.failure = S.failure)
    (acts : S'.acts = upTo past read u ++ .reported e.report :: S'.requests rest) :
    Follows S past ts (.goesOn none r less)
  | ended {r : Reading ρ} {e : SyntaxError} {read : List Token} {less : r.left < n}
    (split : ts = read ++ [r.current]) (shown : e.Shows r.current) (ends : r.current.isEnd = true)
    (program : program ts = ⟨[], [e], true⟩) (sound : S.failure = none)
    (history : r.history = upTo past read r.current ++ [.reported e.report, .asked (.ok r.current)]) :
    Follows S past ts (.goesOn none r less)
  | broken {b : Broken ρ} (diagnostics : (program ts).diagnostics = []) (breaks : S.Breaks b) :
    Follows S past ts (.broken b)
  | failed {b : Broken ρ} {e : SyntaxError} {u : Token} {read : List Token}
    (split : ts = read ++ [u]) (shown : e.Shows u) (goes : u.isEnd = false)
    (diagnostics : (program ts).diagnostics = [e]) (failure : S.failure = some b.error)
    (history : b.history = upTo past read u ++ .reported e.report :: S.failing) :
    Follows S past ts (.broken b)

theorem Turn.Follows.asked {n : Nat} {item : Option Item} {less : r'.left < n}
    (h : Turn.Follows S past ts (.goesOn item r' less)) (faces : r.Faces S ts)
    (took : r.history = past ++ [.asked (.ok r.current)]) :
    ∃ more, r'.history = past ++ more ++ [.asked (.ok r'.current)] ∧ more.filterMap Act.answer? ≠ [] := by
  have some (read : List Token) (u : Token) (e : Report) :
      ((read.map Event.took).map Event.act ++ [Act.asked (.ok u), Act.reported e]).filterMap Act.answer? ≠ [] := by
    rw [List.filterMap_append]
    exact List.append_ne_nil_of_right_ne_nil _ (List.cons_ne_nil _ _)
  cases h with
  | @read _ _ read rest _ split some _ _ faces' =>
    rw [split] at faces
    refine ⟨_, faces.history_behind faces' took, ?_⟩
    rw [Event.answers_took]
    exact mt List.map_eq_nil_iff.mp some
  | @reported _ e u read rest _ S' _ _ _ _ faces' _ acts =>
    rw [List.append_cons] at acts
    refine ⟨_, ?_, some read u e.report⟩
    rw [faces'.history_eq acts]
    simp only [upTo, List.append_assoc, List.cons_append, List.nil_append]
  | @ended _ e read _ _ _ _ _ _ history =>
    refine ⟨_, ?_, some read r'.current e.report⟩
    rw [history]
    simp only [upTo, List.append_assoc, List.cons_append, List.nil_append]

section
variable {n : Nat} {le : r.bound ≤ n}

theorem skip_of_ok (asked : r.stream.ask r.history = .ok r') : r.skip le =
    .goesOn none r' (Nat.lt_of_lt_of_le (TokenStream.left_lt_of_ask asked) le) := by
  unfold skip
  split
  · rename_i found
    cases asked.symm.trans found
    rfl
  · rename_i found
    cases asked.symm.trans found

theorem skip_of_error {b : Broken ρ} (asked : r.stream.ask r.history = .error b) :
    r.skip le = .broken b := by
  unfold skip
  split
  · rename_i found
    cases asked.symm.trans found
  · rename_i found
    cases asked.symm.trans found
    rfl

end

theorem Faces.report_follows {n : Nat} {e : SyntaxError} {le : (r'.report e.report).bound ≤ n}
    (h : r.Faces S (read ++ u :: rest)) (h' : r'.Faces S (u :: rest))
    (took : r.history = past ++ [.asked (.ok r.current)]) (shown : e.Shows u)
    (program : program (read ++ u :: rest) =
      if u.isEnd then ⟨[], [e], true⟩ else (program rest).withError e) :
    ((r'.report e.report).skip le).Follows S past (read ++ u :: rest) := by
  have history := h.history_behind h' took
  cases h' with
  | ended last sound place done =>
    have ends : r'.current.isEnd = true := by
      rw [last]
      rfl
    obtain ⟨s, next, -⟩ := TokenStream.next_of_end place
    rw [← last] at next
    rw [skip_of_ok (r := r'.report e.report) (TokenStream.ask_ok next _)]
    rw [if_pos ends] at program
    refine .ended rfl shown ends program sound ?_
    rw [upTo, ← history]
    simp [report]
  | more goes place yields ahead =>
    rw [if_neg (by simp [goes])] at program
    -- what is behind the report follows a script of its own
    let S' : Script := { S with acts := (r'.report e.report).history ++ S.requests rest }
    have acts : S'.acts = upTo past read r'.current ++ .reported e.report :: S'.requests rest := by
      rw [upTo, ← history]
      simp only [S', report, List.append_assoc]
      rfl
    rcases TokenStream.ask_faces (S := S') place yields rfl with ⟨r'', asked, faces⟩ | ⟨rfl, b, asked, breaks⟩
    · rw [skip_of_ok (r := r'.report e.report) asked]
      exact .reported rfl shown goes program faces rfl acts
    · rw [skip_of_error (r := r'.report e.report) asked]
      refine .failed rfl shown goes ?_ breaks.1 (breaks.2.trans acts)
      rw [program, Grammar.program]
      rfl

/-- A turn of the loop does at the head of its tokens what the program does. -/
theorem Faces.turn (h : r.Faces S ts) (took : r.history = past ++ [.asked (.ok r.current)])
    (goes : r.current.isEnd = false) : (r.turn goes).Follows S past ts := by
  obtain ⟨rest, rfl⟩ := h.exists_tail
  unfold Reading.turn
  by_cases mark : r.current.isPunctuator ";" = true
  · rw [if_pos mark]
    have program := program_of_semicolon mark rest
    cases h with
    | ended last => rw [last] at goes; cases goes
    | more _ place yields ahead =>
      rcases TokenStream.ask_faces place yields ahead with ⟨r', asked, faces⟩ | ⟨rfl, b, asked, breaks⟩
      · rw [skip_of_ok asked]
        have split : r.current :: rest = [r.current] ++ rest := rfl
        exact .read split (List.cons_ne_nil _ _) (by rw [program]; rfl) (by rw [program]) faces
      · rw [skip_of_error asked]
        exact .broken (by rw [program, Grammar.program]) breaks
  · rw [if_neg mark]
    have notMark : r.current.isPunctuator ";" = false := by simpa using mark
    have form := h.form
    generalize r.form = d at form
    generalize found : Grammar.form (r.current :: rest) = p at form
    cases form with
    | cut breaks => exact .broken (by rw [program_of_cut goes notMark found]) breaks
    -- the form is complete, but what is behind it cannot be asked for
    | short breaks =>
      refine .broken ?_ breaks
      rw [program_of_gives goes notMark ⟨_, found⟩, Grammar.program]
      rfl
    | @done item r' behind less shorter faces =>
      have program := program_of_gives goes notMark ⟨shorter, found⟩
      obtain ⟨read, form, split, derived, -⟩ := form_again ⟨shorter, found⟩
      obtain ⟨t, others, some, -⟩ := derived.starts
      refine .read split ?_ (by rw [program]; rfl) (by rw [program]; rfl) faces
      rw [some]
      exact List.cons_ne_nil t others
    | @wrong e r' behind noMore noLonger faces =>
      -- the token that the error shows is passed over, which asks for the next one
      have wrong : (Grammar.form (r.current :: rest)).GoesWrong e behind := ⟨noLonger, found⟩
      obtain ⟨more, rfl⟩ := faces.exists_tail
      have program := program_of_goesWrong goes notMark wrong
      obtain ⟨read, split, shown⟩ := (form_fault wrong).split
      rw [split] at h program ⊢
      exact h.report_follows faces took shown program

theorem Faces.run (h : r.Faces S ts) (apart : Apart ts)
    (took : r.history = past ++ [.asked (.ok r.current)]) (items : List Item) :
    (r.run items).result = S.result (items ++ (program ts).items) ∧
      (r.run items).history = past ++ S.plan ts (program ts).diagnostics := by
  -- a report starts another script, so the induction is over all scripts with the same failure
  induction length : ts.length using Nat.strong_induction_on generalizing S r past ts items with
  | _ n ih =>
  subst length
  cases goes : r.current.isEnd with
  | true =>
    cases h with
    | more goesOn => cases goes.symm.trans goesOn
    | ended last sound place done =>
      rw [run_of_isEnd goes, program_of_isEnd goes, Script.plan_nil, Script.result, Script.requests, sound]
      exact ⟨by rw [List.append_nil], took⟩
  | false =>
    have turn := h.turn took goes
    generalize turn_eq : r.turn goes = t at turn
    cases turn with
    | @read item r' read rest less split some items_eq diagnostics faces =>
      rw [split] at h apart
      have shorter : rest.length < ts.length := by
        rw [split, List.length_append]
        have := List.length_pos_iff.mpr some
        omega
      have took' := h.history_behind faces took
      obtain ⟨result, history⟩ := ih _ shorter faces apart.behind took' (items ++ item.toList) rfl
      rw [run_of_goesOn turn_eq, items_eq, diagnostics, ← List.append_assoc, split,
        Script.plan_behind apart, ← List.append_assoc]
      exact ⟨result, history⟩
    | @reported r' e u read rest less S' split shown goesOn program faces same acts =>
      rw [split] at apart
      have shorter : rest.length < ts.length := by
        rw [split, List.length_append, List.length_cons]
        omega
      rw [List.append_cons] at acts
      obtain ⟨result, history⟩ := ih _ shorter faces apart.behind.of_cons (faces.history_eq acts) items rfl
      -- the script of what is left has the failure of the whole one
      rw [Script.result_congr same] at result
      rw [Script.plan_congr same, upTo] at history
      rw [run_of_goesOn turn_eq, Option.toList_none, List.append_nil, program, split, Program.withError,
        Script.plan_error apart shown.1, if_neg (by simp [goesOn])]
      refine ⟨result, ?_⟩
      rw [history]
      simp only [List.append_assoc]
      rfl
    | @ended r' e read less split shown ends program sound history =>
      rw [split] at apart
      rw [run_of_goesOn turn_eq, run_of_isEnd ends, program, split, Script.plan_error apart shown.1,
        if_pos ends, Script.result, Script.failing, sound, history, upTo]
      simp
    | broken diagnostics breaks =>
      rw [run_of_broken turn_eq, diagnostics, Script.plan_nil, breaks.result]
      exact ⟨rfl, breaks.2.trans (h.acts_eq took)⟩
    | @failed b e u read split shown goesOn diagnostics failure history =>
      rw [split] at apart
      rw [run_of_broken turn_eq, diagnostics, split, Script.plan_error apart shown.1, Script.plan_nil,
        if_neg (by simp [goesOn]), Script.result, failure]
      refine ⟨rfl, history.trans ?_⟩
      rw [upTo]
      simp only [List.append_assoc]
      rfl

end Reading

/-! ## The tokens of a source -/

namespace TokenStream

variable {s s' : TokenStream ρ} {t : Token} {tokens : List Token} {failure : Option ScanError}
  {source : List UInt8} {before after : List Char}

theorem offset_next_lt (place : s.buffer.Splits source before [] after) (next : s.next = (.ok t, s'))
    (goes : t.isEnd = false) : s.buffer.pos.offset < s'.buffer.pos.offset := by
  cases step place with
  | failed next' => cases next.symm.trans next'
  | ended next' => cases next.symm.trans next'; cases goes
  | @token t' s'' gap lexeme rest next' more pos split isGap some splits =>
    cases next.symm.trans next'
    have length := List.length_pos_iff.mpr some
    rw [place.pos, splits.pos, Position.offset_behind, Position.offset_behind]
    simp only [List.length_append, List.length_nil]
    omega

/-- Tokens stand behind one another, and there are no more of them than bytes, and the end. -/
theorem Yields.offsets (yields : s.Yields tokens failure)
    (place : s.buffer.Splits source before [] after) :
    (∀ t ∈ tokens, before.length ≤ t.pos.offset) ∧
      tokens.Pairwise (fun t u => t.pos.offset < u.pos.offset) ∧ tokens.length ≤ after.length + 1 := by
  induction yields generalizing before after with
  | failed next => exact ⟨nofun, .nil, Nat.zero_le _⟩
  | @ended s s' t next ends =>
    cases step place with
    | failed next' => cases next.symm.trans next'
    | token next' more =>
      cases next.symm.trans next'
      exact absurd ends (by simp [more])
    | ended next' =>
      cases next.symm.trans next'
      refine ⟨?_, List.pairwise_singleton _ _, Nat.succ_le_succ (Nat.zero_le _)⟩
      intro t mem
      rw [List.mem_singleton.mp mem]
      simp [Token.endOfInput, Position.offset_behind]
  | @more s s' t tokens failure next goes rest ih =>
    cases step place with
    | failed next' => cases next.symm.trans next'
    | ended next' => cases next.symm.trans next'; cases goes
    | @token t' s'' gap lexeme after' next' _ pos split isGap some splits =>
      cases next.symm.trans next'
      -- the lexeme takes at least one byte
      obtain ⟨behind, increasing, few⟩ := ih splits
      have length := List.length_pos_iff.mpr some
      have here : t.pos.offset = (before ++ gap).length := by rw [pos, Position.offset_behind]
      simp only [List.length_append] at behind here
      refine ⟨?_, List.pairwise_cons.mpr ⟨?_, increasing⟩, ?_⟩
      · intro u mem
        rcases List.mem_cons.mp mem with rfl | later
        · omega
        · have := behind u later
          omega
      · intro u later
        have := behind u later
        omega
      · rw [split]
        simp only [List.length_append, List.length_cons]
        omega

theorem Yields.apart (yields : s.Yields tokens failure)
    (place : s.buffer.Splits source before [] after) : Grammar.Apart tokens := by
  refine (yields.offsets place).2.1.imp fun less same => ?_
  rw [same] at less
  exact Nat.lt_irrefl _ less

theorem Yields.endsLast (yields : s.Yields tokens failure) : Grammar.EndsLast tokens := by
  induction yields with
  | failed => intro read u more split; simp at split
  | ended =>
    intro read u more split ends
    cases read with
    | nil => exact (List.cons.inj split).2.symm
    | cons t read => simp at split
  | more next goes rest ih =>
    intro read u more split ends
    cases read with
    | nil =>
      rw [← (List.cons.inj split).1, goes] at ends
      cases ends
    | cons t read => exact ih read u more (List.cons.inj split).2 ends

theorem Yields.exists_last (yields : s.Yields tokens failure) (sound : failure = none) :
    ∃ last, tokens.getLast? = some last ∧ last.isEnd = true := by
  induction yields with
  | failed => cases sound
  | @ended _ _ t _ ends => exact ⟨t, rfl, ends⟩
  | @more _ _ t tokens _ _ _ _ ih =>
    obtain ⟨last, eq, ends⟩ := ih sound
    refine ⟨last, ?_, ends⟩
    rw [List.getLast?_cons, eq]
    rfl

/-- A parse on demand does what the program of its tokens does. -/
theorem descend_eq (yields : s.Yields tokens failure) (place : s.buffer.Splits source before [] after) :
    let S : Script := ⟨source, failure, []⟩
    s.descend.result = S.result (Grammar.program tokens).items ∧
      s.descend.history = S.plan tokens (Grammar.program tokens).diagnostics := by
  intro S
  let S' : Script := { S with acts := S.requests tokens }
  have ahead : [] ++ S'.requests tokens = S'.acts := rfl
  unfold descend
  rcases ask_faces place yields ahead with ⟨r, asked, faces⟩ | ⟨rfl, b, asked, breaks⟩
  · rw [asked]
    exact faces.run (yields.apart place) (faces.history_eq ahead.symm) []
  · rw [asked]
    refine ⟨(breaks.result _).symm, ?_⟩
    rw [Grammar.program, Script.plan_nil]
    exact breaks.2

end TokenStream

/-! ## Turns -/

def Reading.requests (r : Reading ρ) : Nat := (r.history.filterMap Act.answer?).length

namespace TokenStream

inductive Turns (s : TokenStream ρ) : Reading ρ → Prop
  | first {r : Reading ρ} (asked : s.ask [] = .ok r) : Turns s r
  | next {r r' : Reading ρ} {goes : r.current.isEnd = false} {item : Option Item} {less : r'.left < r.left}
    (h : Turns s r) (turn : r.turn goes = .goesOn item r' less) : Turns s r'

variable {s : TokenStream ρ} {r r' : Reading ρ} {source : List UInt8} {before after : List Char}

/-- Turns start where there are tokens to come, or end the loop. -/
theorem Turns.faces (h : s.Turns r) (place : s.buffer.Splits source before [] after) :
    r.current.isEnd = true ∨ ∃ S ts past, r.Faces S ts ∧ r.history = past ++ [.asked (.ok r.current)] := by
  induction h with
  | @first r asked =>
    let S : Script := ⟨source, s.all.1, Script.requests ⟨source, s.all.1, []⟩ s.all.2.1.toList⟩
    have ahead : [] ++ S.requests s.all.2.1.toList = S.acts := rfl
    rcases ask_faces place s.yields_all ahead with ⟨r', found, faces⟩ | ⟨-, b, found, -⟩
    · cases asked.symm.trans found
      exact .inr ⟨S, _, [], faces, faces.history_eq ahead.symm⟩
    · cases asked.symm.trans found
  | @next r r' goes item less _ turn ih =>
    rcases ih with ends | ⟨S, ts, past, faces, took⟩
    · exact absurd ends (by simp [goes])
    · have follows := faces.turn took goes
      rw [turn] at follows
      cases follows with
      | @read _ _ read _ _ split _ _ _ faces' =>
        rw [split] at faces
        exact .inr ⟨S, _, _, faces', faces.history_behind faces' took⟩
      | @reported _ e u read rest _ S' _ _ _ _ faces' _ acts =>
        rw [List.append_cons] at acts
        exact .inr ⟨S', _, _, faces', faces'.history_eq acts⟩
      | ended _ _ ends => exact .inl ends

theorem Turns.requests_lt (h : s.Turns r) (place : s.buffer.Splits source before [] after)
    {goes : r.current.isEnd = false} {item : Option Item} {less : r'.left < r.left}
    (turn : r.turn goes = .goesOn item r' less) : r.requests < r'.requests := by
  rcases h.faces place with ends | ⟨S, ts, past, faces, took⟩
  · exact absurd ends (by simp [goes])
  · have follows := faces.turn took goes
    rw [turn] at follows
    obtain ⟨more, history, some⟩ := follows.asked faces took
    have one (t : Token) : ([Act.asked (.ok t)].filterMap Act.answer?).length = 1 := rfl
    have pos := List.length_pos_iff.mpr some
    rw [Reading.requests, Reading.requests, history, took]
    simp only [List.filterMap_append, List.length_append, one]
    omega

end TokenStream

/-! ## Parses -/

namespace Parser

variable {p : Parser ρ} {source : List UInt8} {before after : List Char}

theorem descendRest_eq (place : p.stream.buffer.Splits source before [] after) :
    p.descendRest.result = p.parseRest.result ∧ p.descendRest.log = p.parseRest.log ∧
      p.descendRest.state.diagnostics = p.parseRest.state.diagnostics.map SyntaxError.report := by
  have yields := p.stream.yields_all
  have accounts := Grammar.accounts_program (yields.apart place) yields.endsLast
  have incomplete (e : ScanError) (failed : p.stream.all.1 = some e) :=
    Grammar.program_incomplete (TokenStream.all_noEnd failed)
  obtain ⟨result, history⟩ := TokenStream.descend_eq yields place
  have diagnostics := Script.diagnostics_plan (S := ⟨source, p.stream.all.1, []⟩) accounts
  have records (name : String) : p.stream.descend.history.flatMap (Act.records name) =
      (Event.sequence p.stream.all.2.1.toList (Grammar.program p.stream.all.2.1.toList).diagnostics).map
        (·.record name) := by
    rw [history, Script.records_plan]
  rw [← history] at diagnostics
  unfold descendRest parseRest Ending.diagnostics
  generalize p.stream.descend = ending at result diagnostics records
  generalize p.stream.all = all at result diagnostics records incomplete
  obtain ⟨failure, tokens, s⟩ := all
  dsimp only at result diagnostics records incomplete ⊢
  rw [result, diagnostics, records]
  generalize Grammar.program tokens.toList = program at incomplete diagnostics
  obtain ⟨items, es, complete⟩ := program
  cases failure with
  | some e =>
    obtain rfl := incomplete e rfl
    exact ⟨rfl, rfl, diagnostics⟩
  | none =>
    cases es with
    | nil => cases complete <;> exact ⟨rfl, rfl, diagnostics⟩
    | cons e es => cases complete <;> exact ⟨rfl, rfl, diagnostics⟩

theorem descendRest_state (p : Parser ρ) : p.descendRest.state = p.stream.descend := by
  unfold descendRest
  dsimp only
  split
  · rfl
  · split <;> rfl

theorem descendRest_answers (place : p.stream.buffer.Splits source before [] after) :
    p.descendRest.state.answers =
      (p.stream.all.2.1.toList ++
        Grammar.again p.stream.all.2.1.toList p.parseRest.state.diagnostics).map .ok ++
      p.stream.all.1.toList.map .error := by
  have yields := p.stream.yields_all
  have accounts := Grammar.accounts_program (yields.apart place) yields.endsLast
  rw [descendRest_state, parseRest_state, Ending.answers, (TokenStream.descend_eq yields place).2]
  exact Script.answers_plan accounts

theorem descend_of_reset (done : p.stream.reset.result = .ok ()) : p.descend =
    (descendRest ⟨p.stream.reset.state, []⟩).after p.stream.reset.log := by
  unfold descend
  simp only [done]

/-- Whether its tokens are there before it or asked for one by one, a parse gives, logs and reports the
same. -/
theorem Placed.descend_eq (h : p.Placed source) :
    p.descend.result = p.parse.result ∧ p.descend.log = p.parse.log ∧
      p.descend.state.diagnostics = p.parse.state.diagnostics.map SyntaxError.report := by
  obtain ⟨before, lexeme, after, splits⟩ := h
  obtain ⟨done, -, place⟩ := TokenStream.reset_splits splits
  obtain ⟨result, log, diagnostics⟩ := descendRest_eq (p := ⟨p.stream.reset.state, []⟩) place
  rw [descend_of_reset done, parse_of_reset done]
  exact ⟨result, congrArg (_ ++ ·) log, diagnostics⟩

/-- A parse of a source that is read without failures asks for each of its tokens once, and once more
for the end if an error is reported there. There are no more tokens than bytes, and the end. Each turn
of the top-level loop asks for a token or ends the loop, and each token that is not the end takes a
byte. -/
theorem descend_asks_once (placed : p.Placed source) :
    let s := p.stream.reset.state
    (p.descend.result = p.parse.result ∧ p.descend.log = p.parse.log ∧
      p.descend.state.diagnostics = p.parse.state.diagnostics.map SyntaxError.report) ∧
    (∃ tokens failure, s.Yields tokens failure ∧ tokens.length ≤ source.length + 1 ∧
      (∀ e, failure = some e → p.parse.result = .error (.lexical e) ∧
        p.descend.state.answers = tokens.map .ok ++ [.error e]) ∧
      (failure = none → ∃ last, tokens.getLast? = some last ∧ last.isEnd = true ∧
        p.descend.state.answers =
          (tokens ++ if ∃ e ∈ p.parse.state.diagnostics, e.pos = last.pos then [last] else []).map .ok)) ∧
    (∀ r goes item r' less, s.Turns r → r.turn goes = .goesOn item r' less → r.requests < r'.requests) ∧
    ∀ (u u' : TokenStream ρ) t before after, u.buffer.Splits source before [] after →
      u.next = (.ok t, u') → t.isEnd = false → u.buffer.pos.offset < u'.buffer.pos.offset := by
  intro s
  have same := placed.descend_eq
  obtain ⟨before, lexeme, after, splits⟩ := placed
  obtain ⟨done, -, place⟩ := TokenStream.reset_splits splits
  let again : Parser ρ := ⟨s, []⟩
  have descends : p.descend = again.descendRest.after p.stream.reset.log := descend_of_reset done
  have parses : p.parse = again.parseRest.after p.stream.reset.log := parse_of_reset done
  have yields := s.yields_all
  refine ⟨same, ?_, ?_, ?_⟩
  · rw [descends, parses]
    have few := (yields.offsets place).2.2
    rw [length_sourceText] at few
    have answers := descendRest_answers (p := again) place
    refine ⟨_, _, yields, few, ?_, ?_⟩
    · intro e failed
      have noEnd := TokenStream.all_noEnd failed
      refine ⟨parseRest_of_failure failed, answers.trans ?_⟩
      rw [Grammar.again_of_noEnd noEnd, List.append_nil, failed]
      rfl
    · intro sound
      obtain ⟨last, last_eq, ends⟩ := yields.exists_last sound
      refine ⟨last, last_eq, ends, answers.trans ?_⟩
      rw [Grammar.again_of_last last_eq ends, sound]
      exact List.append_nil _
  · intro r goes item r' less turns turn
    exact turns.requests_lt place turn
  · intro u u' t before after splits next goes
    exact TokenStream.offset_next_lt splits next goes

end Parser

end

theorem Grammar.program_unclosed {opening last : Token} (opens : opening.isPunctuator "(" = true)
    (ends : last.isEnd = true) : program [opening, last] = ⟨[], [.noExpression last], true⟩ := by
  have starts : StartsExpression opening := .inr (.inr opens)
  have other : ¬ StartsExpression last := by
    intro startsLast
    rw [startsLast.isEnd_eq_false] at ends
    cases ends
  have wrong : (form [opening, last]).GoesWrong (.noExpression last) [last] := by
    rw [form_expression starts.isKeyword_eq_false, Parsed.goesWrong_map, expression_goesWrong,
      primary_goesWrong_group opens, expression_goesWrong, primary_goesWrong_other other]
    exact .inl (.inl (.inl ⟨rfl, rfl⟩))
  have notMark := starts.isPunctuator_eq_false (by decide : ";" ≠ "(")
  rw [program_of_goesWrong starts.isEnd_eq_false notMark wrong, if_pos ends]

/-- The end is asked for twice when it stands where an operand should. -/
theorem Parser.descend_asks_once_unclosed :
    let r := ByteReader.ofBytes #[40]
    ∃ b, Buffer.new r "open" = .ok b ∧ (ofStream (.ofBuffer b)).Placed [40] ∧
      let p := ofStream (.ofBuffer b)
      ∃ opening last, opening.isPunctuator "(" = true ∧ last.isEnd = true ∧
        p.parse.state.diagnostics = [.noExpression last] ∧
        p.descend.state.answers = [.ok opening, .ok last, .ok last] := by
  intro r
  have reads := ByteReader.delivers #[40]
  obtain ⟨b, opened, splits⟩ := Buffer.new_splits reads "open"
  have placed := placed_new reads opened
  refine ⟨b, opened, placed, ?_⟩
  intro p
  have lexemes : Heads [] (sourceText [40]) [.punctuator "("] :=
    .single rfl (List.cons_ne_nil '(' []) rfl rfl
  obtain ⟨ts, last, rest, scan, each, ends⟩ :=
    (TokenStream.ofBuffer b).all_of_heads splits (SymbolTable.sound_seeded 0) lexemes rfl
  obtain ⟨opening, opens, rfl⟩ : ∃ opening, Token.Is opening (.punctuator "(") ∧ ts = [opening] := by
    cases each with
    | cons opens none =>
      cases none
      exact ⟨_, opens, rfl⟩
  have reported : p.parse.state.diagnostics = [.noExpression last] :=
    (parse_of_all reads opened scan).1.trans
      (congrArg Grammar.Program.diagnostics (Grammar.program_unclosed opens ends))
  obtain ⟨-, ⟨tokens, failure, yields, -, -, sound⟩, -⟩ := Parser.descend_asks_once placed
  -- the stream that was reset has the tokens of the new one
  obtain ⟨unfailing, found⟩ := (TokenStream.reset_alike reads opened).2.all
  rw [scan] at unfailing found
  obtain ⟨failure_eq, tokens_eq⟩ := yields.all_eq
  obtain ⟨_, last_eq, -, answers⟩ := sound (failure_eq.symm.trans unfailing)
  replace tokens_eq : [opening, last] = tokens := (congrArg Array.toList found.symm).trans tokens_eq
  subst tokens_eq
  cases last_eq
  refine ⟨opening, last, opens, ends, reported, answers.trans ?_⟩
  rw [reported, if_pos ⟨_, List.mem_singleton_self _, rfl⟩]
  rfl

end Kaleidoscope
