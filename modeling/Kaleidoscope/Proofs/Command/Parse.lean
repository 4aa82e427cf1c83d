import Kaleidoscope.Proofs.Command.Lex
import Kaleidoscope.Proofs.Parser.Failure
import Kaleidoscope.Proofs.Parser.Scan

/-!
# Writing the trees of a file

A file is parsed into all of its trees or into none. As long as anything is wrong with it nothing is
written and nothing is made.
-/

namespace Kaleidoscope

inductive Obstacle (t : FileTree) (file : String) : Prop
  | unreadable (h : t.Unreadable file)
  | lexical {tokens : List Token} {e : ScanError} (h : t.Lexes file tokens (some e))
  | syntactic {tokens : List Token} (h : t.Lexes file tokens none)
    (wrong : ¬ Grammar.Derivable tokens)

namespace Parser

variable {t : FileTree} {file : String}

theorem ofFile_ok {s : TokenStream FileHandle}
    (opened : TokenStream.ofFile file (t.openFile file) = .ok s) :
    Parser.ofFile file (t.openFile file) = .ok (.ofStream s) := by
  unfold Parser.ofFile
  rw [opened]

theorem ofFile_error {e : ScanError}
    (failed : TokenStream.ofFile file (t.openFile file) = .error e) :
    Parser.ofFile file (t.openFile file) = .error (.lexical e) := by
  unfold Parser.ofFile
  rw [failed]

/-- A parse of a readable file comes to an error that its tokens come to. -/
theorem parse_of_lexical {tokens : List Token} {e : ScanError} {content : ByteArray}
    (found : t.lookup file = .ok (.file content)) (lexes : t.Lexes file tokens (some e)) :
    ∃ p, Parser.ofFile file (t.openFile file) = .ok p ∧ p.parse.result = .error (.lexical e) := by
  obtain ⟨b, opened, streams⟩ := FileTree.ofFile_of_readable found
  obtain ⟨s, streams', yields⟩ := lexes
  rw [streams] at streams'
  cases streams'
  have result := parse_result (FileHandle.delivers content.data) opened
  rw [yields.all_eq.1] at result
  exact ⟨_, ofFile_ok streams, result⟩

theorem parse_of_lexes {tokens : List Token} {content : ByteArray}
    (found : t.lookup file = .ok (.file content)) (lexes : t.Lexes file tokens none) :
    ∃ p items, Parser.ofFile file (t.openFile file) = .ok p ∧ p.parse.result = .ok items ∧
      (p.parse.state.diagnostics = [] ↔ Grammar.Derivable tokens) := by
  obtain ⟨b, opened, streams⟩ := FileTree.ofFile_of_readable found
  obtain ⟨s, streams', yields⟩ := lexes
  rw [streams] at streams'
  cases streams'
  obtain ⟨sound, rfl⟩ := yields.all_eq
  have all : (TokenStream.ofBuffer b).all = (none, (TokenStream.ofBuffer b).all.2) :=
    Prod.ext sound rfl
  obtain ⟨diagnostics, result⟩ := parse_of_all (FileHandle.delivers content.data) opened all
  refine ⟨_, _, ofFile_ok streams, result, ?_⟩
  rw [diagnostics]
  exact Grammar.program_clean_iff (TokenStream.all_closed all)

end Parser

namespace FileTree

theorem Lexes.readable {t : FileTree} {file : String} {tokens : List Token}
    {failure : Option ScanError} (h : t.Lexes file tokens failure) :
    ∃ content, t.lookup file = .ok (.file content) := by
  refine Classical.byContradiction fun unreadable => ?_
  obtain ⟨e, failed⟩ := ofFile_of_unreadable (not_exists.mp unreadable)
  obtain ⟨s, streams, -⟩ := h
  rw [failed] at streams
  cases streams

end FileTree

theorem sentence_of_clear {t : FileTree} {file : String} (clear : ¬ Obstacle t file) :
    ∃ content tokens, t.lookup file = .ok (.file content) ∧ t.Lexes file tokens none ∧
      Grammar.Derivable tokens := by
  have readable : ∃ content, t.lookup file = .ok (.file content) :=
    Classical.byContradiction fun none => clear (.unreadable (not_exists.mp none))
  obtain ⟨content, found⟩ := readable
  obtain ⟨b, -, opened⟩ := FileTree.ofFile_of_readable found
  have lexes : t.Lexes file _ _ := ⟨_, opened, TokenStream.yields_all _⟩
  -- Whatever the tokens come to but a sentence is an obstacle.
  cases failure : (TokenStream.ofBuffer b).all.1 with
  | some e =>
    rw [failure] at lexes
    exact absurd (.lexical lexes) clear
  | none =>
    rw [failure] at lexes
    exact ⟨content, _, found, lexes,
      Classical.byContradiction fun wrong => clear (.syntactic lexes wrong)⟩

/-! ## Short programs -/

theorem program_number (value : Float) (pos pos' : Position) :
    (Grammar.program [⟨.number value, pos⟩, .endOfInput pos']).diagnostics = [] := by
  have primary : Grammar.primary [⟨.number value, pos⟩, .endOfInput pos'] =
      .done (.number value) [.endOfInput pos'] (Nat.lt_succ_self _) := by
    rw [Grammar.primary]
  have climb : Grammar.climb 0 (.number value) [.endOfInput pos'] =
      .done (.number value) [.endOfInput pos'] (Nat.lt_succ_self _) := by
    rw [Grammar.climb]
    rfl
  have expression : Grammar.expression [⟨.number value, pos⟩, .endOfInput pos'] =
      .done (.number value) [.endOfInput pos'] (Nat.lt_succ_self _) := by
    rw [Grammar.expression, primary]
    dsimp only
    rw [climb]
    rfl
  have form : Grammar.form [⟨.number value, pos⟩, .endOfInput pos'] =
      .done (.function ⟨.anonymous, .number value⟩) [.endOfInput pos'] (Nat.lt_succ_self _) := by
    show (Grammar.expression [⟨.number value, pos⟩, .endOfInput pos']).map _ = _
    rw [expression]
    rfl
  have ended : Grammar.program [.endOfInput pos'] = ⟨[], [], true⟩ := by
    rw [Grammar.program]
    rfl
  rw [Grammar.program, form]
  simp [Token.isEnd, Token.isPunctuator, ended, Grammar.Program.withItem]

theorem program_closing (pos : Position) :
    (Grammar.program [⟨.punctuator ")", pos⟩]).diagnostics = [.expectedExpression ")" pos] := by
  have expression : Grammar.expression [⟨.punctuator ")", pos⟩] =
      .refuse (.expectedExpression ")" pos) ⟨.punctuator ")", pos⟩ [] := by
    rw [Grammar.expression, Grammar.primary]
    rfl
  have form : Grammar.form [⟨.punctuator ")", pos⟩] =
      .refuse (.expectedExpression ")" pos) ⟨.punctuator ")", pos⟩ [] := by
    show (Grammar.expression [⟨.punctuator ")", pos⟩]).map _ = _
    rw [expression]
    rfl
  have nothing : Grammar.program [] = ⟨[], [], false⟩ := by
    rw [Grammar.program]
  rw [Grammar.program, form]
  simp [Token.isEnd, Token.isPunctuator, Parsed.refuse, nothing, Grammar.Program.withError]

theorem clear_of_scan {t : FileTree} {file : String} {content : ByteArray} {r : Scanned}
    (found : t.lookup file = .ok (.file content))
    (scan : Scan .start (sourceText content.data.toList) r) (fine : r.failure = none)
    (clean : r.program.diagnostics = []) : ¬ Obstacle t file := by
  obtain ⟨b, loaded, streams⟩ := FileTree.ofFile_of_readable found
  have delivers := FileHandle.delivers content.data
  rintro (unreadable | ⟨s, streams', yields⟩ | ⟨lexes, wrong⟩)
  · exact unreadable content found
  · rw [streams] at streams'
    cases streams'
    have failure := yields.all_eq.1
    rw [(TokenStream.all_of_source delivers loaded scan).1, fine] at failure
    cases failure
  · obtain ⟨p, items, opened, -, clean_iff⟩ := Parser.parse_of_lexes found lexes
    rw [Parser.ofFile_ok streams] at opened
    cases opened
    exact wrong (clean_iff.mp ((Parser.parse_of_source delivers loaded scan).2.trans clean))

/-! ## The command -/

namespace Command

variable {t t' : FileTree} {file : String} {output : Option String} {w : World}

def complaint (file : String) (e : SyntaxError) : String := file ++ ": " ++ e.message ++ "\n"

def counted (file : String) (count : Nat) : Failure :=
  ⟨"failed to parse '" ++ file ++ "'" ++ ": " ++ toString count ++ " syntax error(s)", []⟩

theorem toText_counted (file : String) (count : Nat) :
    (counted file count).toText =
      "Error: failed to parse '" ++ file ++ "': " ++ toString count ++ " syntax error(s)\n" := by
  have front : "Error: failed to parse '" = "Error: " ++ "failed to parse '" := rfl
  have middle : "': " = "'" ++ ": " := rfl
  have back : " syntax error(s)\n" = " syntax error(s)" ++ "\n" := rfl
  unfold counted Failure.toText Failure.causeLines
  rw [String.intercalate_singleton, front, middle, back]
  simp only [String.append_assoc]

theorem run_complaints (file : String) (errors : List SyntaxError) (w : World) :
    StateT.run (m := Id) (σ := World) (forIn errors PUnit.unit fun e _ => do
        Host.complain (file ++ ": " ++ e.message ++ "\n")
        pure (ForInStep.yield PUnit.unit)) w =
      pure (PUnit.unit,
        { w with complaints := w.complaints ++ String.join (errors.map (complaint file)) }) := by
  induction errors generalizing w with
  | nil =>
    rw [List.map_nil, String.join_nil, String.append_empty]
    rfl
  | cons e errors ih =>
    rw [List.forIn_cons, List.map_cons, String.join_cons, ← String.append_assoc]
    exact ih { w with complaints := w.complaints ++ complaint file e }

theorem run_parseFile_error {e : ScanError}
    (failed : TokenStream.ofFile file (w.tree.openFile file) = .error e) :
    (parseFile file output : StateM World (Except Failure Unit)).run w =
      pure (.error (.ofParseError (.lexical e)), w) := by
  unfold parseFile
  rw [run_bind (run_openFile file w)]
  rw [Parser.ofFile_error failed]
  rfl

section
variable {p : Parser FileHandle} (opened : Parser.ofFile file (w.tree.openFile file) = .ok p)
include opened

theorem run_parseFile_failed {e : ParseError} (failed : p.parse.result = .error e) :
    (parseFile file output : StateM World (Except Failure Unit)).run w =
      pure (.error ((Failure.ofParseError e).within ("failed to parse '" ++ file ++ "'")), w) := by
  unfold parseFile
  rw [run_bind (run_openFile file w)]
  rw [opened]
  dsimp only
  rw [failed]
  rfl

theorem run_parseFile_reported {items : List Item} (parsed : p.parse.result = .ok items)
    (shown : p.parse.state.diagnostics ≠ []) :
    (parseFile file output : StateM World (Except Failure Unit)).run w =
      pure (.error (counted file p.parse.state.diagnostics.length),
          { w with complaints := w.complaints ++
              String.join (p.parse.state.diagnostics.map (complaint file)) }) := by
  unfold parseFile
  rw [run_bind (run_openFile file w)]
  rw [opened]
  dsimp only
  rw [parsed]
  cases reported : p.parse.state.diagnostics with
  | nil => exact absurd reported shown
  | cons e errors =>
    dsimp only
    rw [run_bind (run_complaints file (e :: errors) w)]
    rfl

theorem run_parseFile_clean {items : List Item} (parsed : p.parse.result = .ok items)
    (clean : p.parse.state.diagnostics = []) (takes : w.tree.Takes output t') :
    (parseFile file output : StateM World (Except Failure Unit)).run w =
      pure (.ok (),
        World.wrote { w with tree := t' } (String.join (items.map Item.toText)) output) := by
  unfold parseFile
  rw [run_bind (run_openFile file w)]
  rw [opened]
  dsimp only
  rw [parsed, clean]
  dsimp only
  rw [run_bind (run_createOutput takes)]
  dsimp only
  rw [run_bind (run_write _ output { w with tree := t' })]
  rfl

end

theorem run_parseFile_wrong {tokens : List Token} (lexes : w.tree.Lexes file tokens none)
    (wrong : ¬ Grammar.Derivable tokens) :
    ∃ p, Parser.ofFile file (w.tree.openFile file) = .ok p ∧ p.parse.state.diagnostics ≠ [] ∧
      (parseFile file output : StateM World (Except Failure Unit)).run w =
        pure (.error (counted file p.parse.state.diagnostics.length),
          { w with complaints := w.complaints ++
              String.join (p.parse.state.diagnostics.map (complaint file)) }) := by
  obtain ⟨content, found⟩ := lexes.readable
  obtain ⟨p, items, opened, parsed, clean_iff⟩ := Parser.parse_of_lexes found lexes
  have shown : p.parse.state.diagnostics ≠ [] := mt clean_iff.mp wrong
  exact ⟨p, opened, shown, run_parseFile_reported opened parsed shown⟩

/-- If a file cannot be read, a token of it cannot be found or its tokens are not a sentence of the
grammar, then parsing it fails and changes nothing. In the last case the syntax errors are shown, then
their number. Any other file is parsed, and if the output can take the trees they go there and nowhere
else. -/
theorem parse_all_or_nothing (t : FileTree) (file : String) (output : Option String) :
    let ran := (Command.parse file output).runOn t
    (Obstacle t file → ran.1 = 1 ∧ ran.2.printed = "" ∧ ran.2.tree = t) ∧
    (∀ tokens, t.Lexes file tokens none → ¬ Grammar.Derivable tokens →
      ∃ p, Parser.ofFile file (t.openFile file) = .ok p ∧ p.parse.state.diagnostics ≠ [] ∧
        ran.2.complaints =
          String.join (p.parse.state.diagnostics.map fun e => file ++ ": " ++ e.message ++ "\n") ++
            ("Error: failed to parse '" ++ file ++ "': " ++
              toString p.parse.state.diagnostics.length ++ " syntax error(s)\n")) ∧
    (¬ Obstacle t file →
      ∃ p items, Parser.ofFile file (t.openFile file) = .ok p ∧ p.parse.result = .ok items ∧
        ∀ t', t.Takes output t' → ran.1 = 0 ∧ ran.2.complaints = "" ∧
          ran.2.Shows t (String.join (items.map Item.toText)) output) := by
  refine ⟨?_, ?_, ?_⟩
  -- nothing is made before the parse has succeeded
  · intro obstacle
    cases obstacle with
    | unreadable unreadable =>
      obtain ⟨e, failed⟩ := FileTree.ofFile_of_unreadable unreadable
      rw [runOn_of_work (c := .parse file output) (run_parseFile_error (w := .ofTree t) failed)]
      exact ⟨rfl, rfl, rfl⟩
    | lexical lexes =>
      obtain ⟨content, found⟩ := lexes.readable
      obtain ⟨p, opened, failed⟩ := Parser.parse_of_lexical found lexes
      rw [runOn_of_work (c := .parse file output)
        (run_parseFile_failed (w := .ofTree t) opened failed)]
      exact ⟨rfl, rfl, rfl⟩
    | syntactic lexes wrong =>
      obtain ⟨p, -, -, run⟩ := run_parseFile_wrong (w := .ofTree t) lexes wrong
      rw [runOn_of_work (c := .parse file output) run]
      exact ⟨rfl, rfl, rfl⟩
  · intro tokens lexes wrong
    obtain ⟨p, opened, shown, run⟩ := run_parseFile_wrong (w := .ofTree t) lexes wrong
    refine ⟨p, opened, shown, ?_⟩
    rw [runOn_of_work (c := .parse file output) run, ← toText_counted]
    exact congrArg (· ++ _) String.empty_append
  · intro clear
    obtain ⟨content, tokens, found, lexes, derivable⟩ := sentence_of_clear clear
    obtain ⟨p, items, opened, parsed, clean_iff⟩ := Parser.parse_of_lexes found lexes
    refine ⟨p, items, opened, parsed, fun t' takes => ?_⟩
    rw [runOn_of_work (c := .parse file output)
      (run_parseFile_clean (w := .ofTree t) opened parsed (clean_iff.mpr derivable) takes)]
    exact ⟨rfl, World.complaints_wrote _ _ output, World.shows_wrote takes _ ""⟩

/-- A number is parsed into a directory that is missing. -/
theorem parse_all_or_nothing_nested :
    let t := FileTree.single ⟨#[49]⟩
    let ran := (Command.parse "a" (some "b/c")).runOn t
    ¬ Obstacle t "a" ∧ t.Takes (some "b/c") (.nested ⟨#[49]⟩) ∧
      ∃ p items, Parser.ofFile "a" (t.openFile "a") = .ok p ∧ p.parse.result = .ok items ∧
        ran.1 = 0 ∧ ran.2.complaints = "" ∧
        ran.2.Shows t (String.join (items.map Item.toText)) (some "b/c") := by
  intro t ran
  obtain ⟨value, scan⟩ : ∃ value, Scan .start (sourceText [49])
      ⟨[⟨⟨.number value, .start⟩, 1⟩], .ok (.endOfInput ⟨0, 1, 1⟩)⟩ :=
    ⟨_, @Scan.token _ [] ['1'] _ _ _ rfl (List.cons_ne_nil _ _) rfl rfl (@Scan.ended _ [] rfl)⟩
  have clear : ¬ Obstacle t "a" :=
    clear_of_scan (FileTree.lookup_single _) scan rfl (program_number _ _ _)
  have takes : t.Takes (some "b/c") (.nested ⟨#[49]⟩) := FileTree.provides_nested _
  obtain ⟨p, items, opened, parsed, written⟩ :=
    (parse_all_or_nothing t "a" (some "b/c")).2.2 clear
  exact ⟨clear, takes, p, items, opened, parsed, written _ takes⟩

/-- A syntax error is not shown if a lexical error comes after it. -/
theorem complaints_without_diagnostics :
    let t := FileTree.single ⟨#[41, 1]⟩
    ∃ p, Parser.ofFile "a" (t.openFile "a") = .ok p ∧
      p.parse.state.diagnostics = [.expectedExpression ")" .start] ∧
      ∀ rest, ((Command.parse "a" none).runOn t).2.complaints ≠
        String.join (p.parse.state.diagnostics.map fun e => "a" ++ ": " ++ e.message ++ "\n") ++
          rest := by
  intro t
  have found := FileTree.lookup_single ⟨#[41, 1]⟩
  have delivers := FileHandle.delivers #[41, 1]
  obtain ⟨b, loaded, streams⟩ := FileTree.ofFile_of_readable found
  have scan : Scan .start (sourceText [41, 1]) ⟨[⟨⟨.punctuator ")", .start⟩, 1⟩],
      .error (.unexpectedCharacter '\x01' ⟨0, 1, 1⟩)⟩ :=
    @Scan.token _ [] [')'] _ _ _ rfl (List.cons_ne_nil _ _) rfl rfl
      (@Scan.failed _ [] _ _ rfl (List.cons_ne_nil _ _) rfl)
  have shown := (Parser.parse_of_source delivers loaded scan).2.trans (program_closing .start)
  have lexes : t.Lexes "a" _ _ := ⟨_, streams, TokenStream.yields_all _⟩
  rw [(TokenStream.all_of_source delivers loaded scan).1] at lexes
  obtain ⟨p, opened, failed⟩ := Parser.parse_of_lexical found lexes
  rw [Parser.ofFile_ok streams] at opened
  cases opened
  refine ⟨_, Parser.ofFile_ok streams, shown, ?_⟩
  intro rest
  rw [shown, runOn_of_work (c := .parse "a" none)
    (run_parseFile_failed (w := .ofTree t) (Parser.ofFile_ok streams) failed)]
  intro same
  -- One text starts with the name of the file, the other with `Error`.
  have first := congrArg (fun text => text.toList.head?) same
  simp [World.exit, World.ofTree, Failure.toText, Failure.within, Failure.ofParseError,
    Failure.causeLines] at first

end Command

end Kaleidoscope
