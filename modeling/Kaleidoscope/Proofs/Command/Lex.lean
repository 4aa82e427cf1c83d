import Kaleidoscope.Proofs.Command.Output
import Kaleidoscope.Proofs.Token.Dump

/-!
# Writing the tokens of a file

A file is lexed into one line for each of its tokens, up to the end or the first error. What was found
before an error is written all the same.
-/

namespace Kaleidoscope

theorem TokenStream.line_eq (t : Token) :
    line t = t.pos.toText ++ " " ++ String.join t.kind.pieces ++ "\n" := by
  unfold line linePieces Token.pieces
  rw [String.join_append, String.join_append, String.join_cons, String.join_cons, String.join_nil,
    String.append_empty, ← String.append_assoc]
  rfl

/-! ## The tokens of a file -/

theorem Buffer.new_directory (name : String) :
    Buffer.new FileHandle.directory name = .error (.cannotRead .isADirectory) := by
  have unread := FileHandle.fill_directory (by decide : chunkSize ≠ 0) #[]
  unfold Buffer.new loadNear Chunk.load
  simp only [unread]

namespace FileTree

variable {t : FileTree} {file : String} {tokens : List Token} {failure : Option ScanError}

def Lexes (t : FileTree) (file : String) (tokens : List Token) (failure : Option ScanError) : Prop :=
  ∃ s, TokenStream.ofFile file (t.openFile file) = .ok s ∧ s.Yields tokens failure

def Unreadable (t : FileTree) (file : String) : Prop :=
  ∀ content, t.lookup file ≠ .ok (.file content)

theorem ofFile_of_unreadable (h : t.Unreadable file) :
    ∃ e, TokenStream.ofFile file (t.openFile file) = .error e := by
  unfold openFile TokenStream.ofFile Buffer.ofFile
  cases found : t.lookup file with
  | error cause => exact ⟨_, rfl⟩
  | ok entry =>
    cases entry with
    | file content => exact absurd found (h content)
    | directory =>
      refine ⟨.cannotRead .isADirectory, ?_⟩
      show (Buffer.new FileHandle.directory file).map _ = _
      rw [Buffer.new_directory]
      rfl

theorem ofFile_of_readable {content : ByteArray} (h : t.lookup file = .ok (.file content)) :
    ∃ b, Buffer.new (FileHandle.file (.ofBytes content.data)) file = .ok b ∧
      TokenStream.ofFile file (t.openFile file) = .ok (.ofBuffer b) := by
  obtain ⟨b, opened, -⟩ := Buffer.new_splits (FileHandle.delivers content.data) file
  refine ⟨b, opened, ?_⟩
  unfold openFile TokenStream.ofFile Buffer.ofFile
  rw [h]
  show (Buffer.new (FileHandle.file (.ofBytes content.data)) file).map _ = _
  rw [opened]
  rfl

theorem stands_of_opened {s : TokenStream FileHandle}
    (opened : TokenStream.ofFile file (t.openFile file) = .ok s) : ∃ source, s.Stands source := by
  by_cases unreadable : t.Unreadable file
  · obtain ⟨e, failed⟩ := ofFile_of_unreadable unreadable
    cases failed.symm.trans opened
  · simp only [Unreadable, ne_eq, not_forall, not_not] at unreadable
    obtain ⟨content, found⟩ := unreadable
    obtain ⟨b, made, opened'⟩ := ofFile_of_readable found
    cases opened'.symm.trans opened
    exact ⟨_, .ofBuffer (TokenStream.ofBuffer_splits (FileHandle.delivers content.data) made)⟩

end FileTree

/-! ## The command -/

namespace Command

variable {t t' : FileTree} {file : String} {output : Option String} {w : World}

def Overwrites (t : FileTree) (file : String) (output : Option String) : Prop :=
  ∃ path, output = some path ∧ t.sameFile file path = true

theorem run_openFile (file : String) (w : World) :
    (Host.openFile file : StateM World (Except SystemError FileHandle)).run w =
      pure (w.tree.openFile file, w) := rfl

theorem run_overwrites (other : ¬ Overwrites w.tree file output) :
    (overwrites file output : StateM World Bool).run w = pure (false, w) := by
  cases output with
  | none => rfl
  | some path =>
    have differs : w.tree.sameFile file path = false :=
      Bool.eq_false_iff.mpr fun same => other ⟨path, rfl, same⟩
    have run : (overwrites file (some path) : StateM World Bool).run w =
        pure (w.tree.sameFile file path, w) := rfl
    rw [run, differs]

theorem run_lexFile_error {e : ScanError}
    (failed : TokenStream.ofFile file (w.tree.openFile file) = .error e) :
    (lexFile file output : StateM World (Except Failure Unit)).run w =
      pure (.error (.ofScanError e), w) := by
  unfold lexFile
  rw [run_bind (run_openFile file w)]
  rw [failed]
  rfl

def lexed (file : String) : Option ScanError → Except Failure Unit
  | some e => .error ((Failure.ofScanError e).within ("failed to tokenize '" ++ file ++ "'"))
  | none => .ok ()

theorem run_lexFile {s : TokenStream FileHandle}
    (opened : TokenStream.ofFile file (w.tree.openFile file) = .ok s)
    (takes : w.tree.Takes output t') (other : ¬ Overwrites t' file output) :
    (lexFile file output : StateM World (Except Failure Unit)).run w =
      pure (lexed file s.all.1, World.wrote { w with tree := t' }
        (String.join (s.all.2.1.toList.map TokenStream.line)) output) := by
  unfold lexFile
  rw [run_bind (run_openFile file w)]
  rw [opened]
  dsimp only
  rw [run_bind (run_createOutput takes)]
  dsimp only
  rw [run_bind (run_overwrites (w := { w with tree := t' }) other), if_neg Bool.false_ne_true,
    run_bind (run_write _ output { w with tree := t' })]
  cases s.all.1 <;> rfl

/-- To lex a file is to dump its tokens where there is room for all of them. -/
theorem run_lexFile_dump {s : TokenStream FileHandle}
    (opened : TokenStream.ofFile file (w.tree.openFile file) = .ok s)
    (takes : w.tree.Takes output t') (other : ¬ Overwrites t' file output) :
    ∃ text, text.toUTF8 = (s.dump .unlimited).state.2.written ∧
      (lexFile file output : StateM World (Except Failure Unit)).run w =
        pure ((s.dump .unlimited).result.mapError
          fun e => (Failure.ofScanError e).within ("failed to tokenize '" ++ file ++ "'"),
          World.wrote { w with tree := t' } text output) := by
  obtain ⟨source, stands⟩ := FileTree.stands_of_opened opened
  have roomy : Sink.unlimited.room = none := rfl
  obtain ⟨result, written⟩ := s.yields_all.dump_roomy stands roomy
  refine ⟨String.join (s.all.2.1.toList.map TokenStream.line), ?_, ?_⟩
  · exact (written.trans ByteArray.empty_append).symm
  · rw [run_lexFile opened takes other, result]
    cases s.all.1 <;> rfl

/-- Lexing a readable file writes one line for each of its tokens before the first error, which makes
the command fail, or all of them with the end of the input. Lexing any other file changes nothing. -/
theorem lex_lines (t : FileTree) (file : String) (output : Option String) :
    let ran := (Command.lex file output).runOn t
    (t.Unreadable file → ran.1 = 1 ∧ ran.2.printed = "" ∧ ran.2.tree = t) ∧
    ∀ content t', t.lookup file = .ok (.file content) → t.Takes output t' →
      ¬ Overwrites t' file output → ∃ tokens failure, t.Lexes file tokens failure ∧
        ran.2.Shows t (String.join (tokens.map fun u =>
          u.pos.toText ++ " " ++ String.join u.kind.pieces ++ "\n")) output ∧
        (ran.1 = 0 ↔ failure = none) ∧
        match failure with
        | none => ran.2.complaints = ""
        | some e => ran.1 = 1 ∧ ran.2.complaints = Failure.toText
            ⟨"failed to tokenize '" ++ file ++ "'", e.message :: (e.cause?.map (·.message)).toList⟩ := by
  refine ⟨?_, ?_⟩
  · intro unreadable
    obtain ⟨e, failed⟩ := FileTree.ofFile_of_unreadable unreadable
    rw [runOn_of_work (c := .lex file output) (run_lexFile_error (w := .ofTree t) failed)]
    exact ⟨rfl, rfl, rfl⟩
  · intro content t' found takes other
    obtain ⟨b, -, opened⟩ := FileTree.ofFile_of_readable found
    refine ⟨_, _, ⟨_, opened, TokenStream.yields_all _⟩, ?_⟩
    have lines : (TokenStream.ofBuffer b).all.2.1.toList.map TokenStream.line =
        (TokenStream.ofBuffer b).all.2.1.toList.map fun u =>
          u.pos.toText ++ " " ++ String.join u.kind.pieces ++ "\n" :=
      List.map_congr_left fun u _ => TokenStream.line_eq u
    rw [runOn_of_work (c := .lex file output) (run_lexFile (w := .ofTree t) opened takes other),
      ← lines]
    generalize String.join ((TokenStream.ofBuffer b).all.2.1.toList.map TokenStream.line) = text
    have shows := World.shows_wrote takes text ""
    have quiet := World.complaints_wrote ⟨t', "", ""⟩ text output
    refine ⟨shows.exit _, ?_⟩
    cases (TokenStream.ofBuffer b).all.1 with
    | none => exact ⟨by simp [World.exit, lexed], quiet⟩
    | some e =>
      exact ⟨by simp [World.exit, lexed], rfl, (congrArg (· ++ _) quiet).trans String.empty_append⟩

/-- A variable is lexed into a directory that is missing. -/
theorem lex_lines_nested :
    let t := FileTree.single ⟨#[120]⟩
    let ran := (Command.lex "a" (some "b/c")).runOn t
    t.lookup "a" = .ok (.file ⟨#[120]⟩) ∧ t.Takes (some "b/c") (.nested ⟨#[120]⟩) ∧
      ¬ Overwrites (.nested ⟨#[120]⟩) "a" (some "b/c") ∧
      ∃ tokens failure, t.Lexes "a" tokens failure ∧
        ran.2.Shows t (String.join (tokens.map fun u =>
          u.pos.toText ++ " " ++ String.join u.kind.pieces ++ "\n")) (some "b/c") := by
  intro t ran
  have found := FileTree.lookup_single ⟨#[120]⟩
  have takes : t.Takes (some "b/c") (.nested ⟨#[120]⟩) := FileTree.provides_nested _
  have other : ¬ Overwrites (.nested ⟨#[120]⟩) "a" (some "b/c") := by
    rintro ⟨path, same, overwritten⟩
    cases same
    rw [FileTree.sameFile_nested] at overwritten
    cases overwritten
  obtain ⟨tokens, failure, lexes, shows, -⟩ :=
    (lex_lines t "a" (some "b/c")).2 _ _ found takes other
  exact ⟨found, takes, other, tokens, failure, lexes, shows⟩

end Command

end Kaleidoscope
