import Kaleidoscope.Session
import Kaleidoscope.Proofs.File.Tree
import Kaleidoscope.Proofs.Parser.Joining

/-!
# Sessions forget

What a parse gives and reports in a session follows from the file that was opened last. Neither the
files before it nor the errors in them leave a trace.
-/

namespace Kaleidoscope

/-! ## Going to another file -/

section
variable {ρ : Type} [Reader ρ] {source : List UInt8} {r : ρ}

theorem Buffer.switchTo_splits (reads : Reader.Delivers source r) (b : Buffer ρ) (name : String) :
    ∃ b', b.switchTo r name = (.ok (), b') ∧ b'.Splits source [] [] (sourceText source) := by
  obtain ⟨r', eq, start⟩ := Reader.DeliversFrom.toStart reads
  let switched : Buffer ρ := { b with reader := r, name := name }
  obtain ⟨b', loaded, holds, begin, extent⟩ :=
    loadNear_holds (b := switched.restarted r') rfl rfl rfl rfl rfl rfl start
  refine ⟨b', ?_, rfl, 0, holds, by simp [begin], by simp [extent]⟩
  unfold switchTo rewind
  rw [eq]
  exact loaded

theorem TokenStream.reopen_ok (reads : Reader.Delivers source r) (s : TokenStream ρ) (path : String) :
    (s.reopen path (.ok r)).result = .ok () ∧
      (s.reopen path (.ok r)).state.symbols = s.symbols.clear ∧
      (s.reopen path (.ok r)).state.buffer.Splits source [] [] (sourceText source) := by
  obtain ⟨b, switched, splits⟩ := Buffer.switchTo_splits reads s.buffer path
  obtain ⟨result, symbols, again⟩ := reset_splits (s := ⟨b, s.symbols⟩) splits
  simp only [reopen, Buffer.reopen, switched, Outcome.andThen, Outcome.after]
  exact ⟨result, symbols, again⟩

theorem Parser.reopen_ok (reads : Reader.Delivers source r) (p : Parser ρ) (path : String) :
    (p.reopen path (.ok r)).result = .ok () ∧
      (p.reopen path (.ok r)).state.stream.buffer.Splits source [] [] (sourceText source) := by
  obtain ⟨result, -, again⟩ := p.stream.reopen_ok reads path
  unfold reopen
  dsimp only
  rw [result]
  exact ⟨rfl, again⟩

theorem Parser.reopen_error (p : Parser ρ) (path : String) (cause : SystemError) :
    (p.reopen path (.error cause)).result = .error (.lexical (.cannotOpen path cause)) ∧
      (p.reopen path (.error cause)).state = p :=
  ⟨rfl, rfl⟩

end

/-! ## Requests to a session -/

inductive Request
  | parse
  | reopen (path : String)

namespace Request

def next (tree : FileTree) (p : Parser FileHandle) : Request → Parser FileHandle
  | parse => p.parse.state
  | reopen path => (p.reopen path (tree.openFile path)).state

def file (tree : FileTree) (path : String) : Request → String
  | parse => path
  | reopen path' =>
    match tree.openFile path' with
    | .ok _ => path'
    | .error _ => path

end Request

namespace Parser

def Reads (tree : FileTree) (path : String) (p : Parser FileHandle) : Prop :=
  ∃ handle source, tree.openFile path = .ok handle ∧ Reader.Delivers source handle ∧
    ∃ before lexeme after, p.stream.buffer.Splits source before lexeme after

section
variable {tree : FileTree} {path : String} {p : Parser FileHandle} {requests : List Request}

theorem reads_of_opened (opened : ofFile path (tree.openFile path) = .ok p)
    (readable : tree.openFile path ≠ .ok .directory) : p.Reads tree path := by
  cases found : tree.openFile path with
  | error cause =>
    rw [found] at opened
    cases opened
  | ok handle =>
    rw [found] at opened readable
    obtain ⟨source, delivers⟩ :=
      FileHandle.delivers_of_openFile found fun same => readable (by rw [same])
    obtain ⟨b, loaded, splits⟩ := Buffer.new_splits delivers path
    simp only [ofFile, TokenStream.ofFile, Buffer.ofFile, loaded, Except.map] at opened
    cases opened
    exact ⟨handle, source, found, delivers, _, _, _, splits⟩

/-- A parse gives and reports what the first parse of a new session on the same file does. -/
theorem Reads.parse_eq (h : p.Reads tree path) :
    p.parse.state.Reads tree path ∧ ∃ fresh, ofFile path (tree.openFile path) = .ok fresh ∧
      p.parse.result = fresh.parse.result ∧
      p.parse.state.diagnostics = fresh.parse.state.diagnostics := by
  obtain ⟨handle, source, found, delivers, before, lexeme, after, splits⟩ := h
  obtain ⟨r, scan⟩ := exists_scan .start (sourceText source)
  obtain ⟨result, diagnostics, behind⟩ := parse_of_scan scan splits
  obtain ⟨b, loaded, -⟩ := Buffer.new_splits delivers path
  obtain ⟨result', diagnostics'⟩ := parse_of_source delivers loaded scan
  refine ⟨⟨handle, source, found, delivers, behind⟩, ofStream (.ofBuffer b), ?_, ?_, ?_⟩
  · rw [found]
    simp only [ofFile, TokenStream.ofFile, Buffer.ofFile, loaded, Except.map]
  · rw [result, result']
  · rw [diagnostics, diagnostics']

theorem Reads.next (h : p.Reads tree path) {request : Request}
    (readable : ∀ path', request = .reopen path' → tree.openFile path' ≠ .ok .directory) :
    (request.next tree p).Reads tree (request.file tree path) := by
  cases request with
  | parse => exact h.parse_eq.1
  | reopen path' =>
    cases found : tree.openFile path' with
    | error cause =>
      simp only [Request.next, Request.file, found]
      rwa [(reopen_error p path' cause).2]
    | ok handle =>
      have file := readable path' rfl
      rw [found] at file
      obtain ⟨source, delivers⟩ :=
        FileHandle.delivers_of_openFile found fun same => file (by rw [same])
      simp only [Request.next, Request.file, found]
      exact ⟨handle, source, found, delivers, _, _, _, (reopen_ok delivers p path').2⟩

theorem Reads.serve (h : p.Reads tree path)
    (readable : ∀ path', .reopen path' ∈ requests → tree.openFile path' ≠ .ok .directory) :
    (requests.foldl (Request.next tree) p).Reads tree (requests.foldl (Request.file tree) path) := by
  induction requests generalizing p path with
  | nil => exact h
  | cons request requests ih =>
    apply ih
    · apply h.next
      rintro path' rfl
      exact readable path' List.mem_cons_self
    · exact fun path' mem => readable path' (List.mem_cons_of_mem _ mem)

/-- After any requests a parse answers as the first one of a new session on the file that was opened
last, and as often as it is asked to. Going to a file that is not there fails and changes nothing. -/
theorem parse_after (opened : ofFile path (tree.openFile path) = .ok p)
    (readable : ∀ path', path' = path ∨ .reopen path' ∈ requests →
      tree.openFile path' ≠ .ok .directory) :
    let served := requests.foldl (Request.next tree) p
    let last := requests.foldl (Request.file tree) path
    (∃ fresh, ofFile last (tree.openFile last) = .ok fresh ∧
      served.parse.result = fresh.parse.result ∧
      served.parse.state.diagnostics = fresh.parse.state.diagnostics) ∧
    (served.parse.state.parse.result = served.parse.result ∧
      served.parse.state.parse.state.diagnostics = served.parse.state.diagnostics) ∧
    (∀ path' cause, tree.openFile path' = .error cause →
      (served.reopen path' (tree.openFile path')).result =
          .error (.lexical (.cannotOpen path' cause)) ∧
        (served.reopen path' (tree.openFile path')).state = served) ∧
    ∀ path' handle, tree.openFile path' = .ok handle → handle ≠ .directory →
      (served.reopen path' (tree.openFile path')).result = .ok () := by
  intro served last
  have reads : served.Reads tree last :=
    (reads_of_opened opened (readable path (.inl rfl))).serve fun path' mem =>
      readable path' (.inr mem)
  obtain ⟨behind, fresh, found, result, diagnostics⟩ := reads.parse_eq
  obtain ⟨-, fresh', found', result', diagnostics'⟩ := behind.parse_eq
  obtain rfl : fresh = fresh' := Except.ok.inj (found.symm.trans found')
  refine ⟨⟨fresh, found, result, diagnostics⟩, ⟨?_, ?_⟩, ?_, ?_⟩
  · rw [result, result']
  · rw [diagnostics, diagnostics']
  · intro path' cause missing
    rw [missing]
    exact reopen_error served path' cause
  · intro path' handle there file
    obtain ⟨source, delivers⟩ := FileHandle.delivers_of_openFile there file
    rw [there]
    exact (reopen_ok delivers served path').1

/-- The last file that is there ends inside a number. -/
theorem parse_after_missing :
    let tree : FileTree := ⟨[], [(["a"], .file ⟨#[49]⟩), (["b"], .file ⟨#[48, 120]⟩)]⟩
    let requests : List Request := [.parse, .reopen "b", .parse, .reopen "c", .parse]
    (∀ path, path = "a" ∨ .reopen path ∈ requests → tree.openFile path ≠ .ok .directory) ∧
      ∃ p fresh, ofFile "a" (tree.openFile "a") = .ok p ∧
      requests.foldl (Request.file tree) "a" = "b" ∧
      ofFile "b" (tree.openFile "b") = .ok fresh ∧
      (requests.foldl (Request.next tree) p).parse.result = fresh.parse.result ∧
      (requests.foldl (Request.next tree) p).parse.state.diagnostics =
        fresh.parse.state.diagnostics := by
  intro tree requests
  have first : tree.openFile "a" = .ok (.file (.ofBytes #[49])) := by
    unfold FileTree.openFile FileTree.lookup FileTree.find
    rw [Path.ofText_letter "a" (by decide)]
    rfl
  have second : tree.openFile "b" = .ok (.file (.ofBytes #[48, 120])) := by
    unfold FileTree.openFile FileTree.lookup FileTree.find
    rw [Path.ofText_letter "b" (by decide)]
    rfl
  have missing : tree.openFile "c" = .error .notFound := by
    unfold FileTree.openFile FileTree.lookup FileTree.find
    rw [Path.ofText_letter "c" (by decide)]
    rfl
  have readable (path : String) (used : path = "a" ∨ .reopen path ∈ requests) :
      tree.openFile path ≠ .ok .directory := by
    simp only [requests, List.mem_cons, Request.reopen.injEq, reduceCtorEq, List.not_mem_nil,
      or_false, false_or] at used
    rcases used with rfl | rfl | rfl
    · simp [first]
    · simp [second]
    · simp [missing]
  have last : requests.foldl (Request.file tree) "a" = "b" := by
    simp [requests, Request.file, second, missing]
  obtain ⟨b, loaded, -⟩ := Buffer.new_splits (FileHandle.delivers #[49]) "a"
  have opened : ofFile "a" (tree.openFile "a") = .ok (ofStream (.ofBuffer b)) := by
    simp only [ofFile, TokenStream.ofFile, Buffer.ofFile, first, loaded, Except.map]
  obtain ⟨⟨fresh, found, result, diagnostics⟩, -⟩ := parse_after opened readable
  rw [last] at found
  exact ⟨readable, _, fresh, opened, last, found, result, diagnostics⟩

end

end Parser

end Kaleidoscope
