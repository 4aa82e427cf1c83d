import Kaleidoscope.Proofs.Token.Pieces

/-!
# Sessions on sources that come in pieces

Short reads and interruptions are seen in no session, be it one with a buffer, with a stream on that
buffer, or with a parser on that stream.
-/

namespace Kaleidoscope.Parser

inductive Demand (ρ : Type)
  | parse
  | reopen (path : String) (opened : Except SystemError ρ)

inductive Demand.Alike {ρ ρ' : Type} (R : ρ → ρ' → Prop) : Demand ρ → Demand ρ' → Prop
  | parse : Alike R .parse .parse
  | reopen (path : String) {r : ρ} {r' : ρ'} :
    R r r' → Alike R (.reopen path (.ok r)) (.reopen path (.ok r'))
  | missing (path : String) (cause : SystemError) :
    Alike R (.reopen path (.error cause)) (.reopen path (.error cause))

inductive Demand.Answer
  | items (result : Except ParseError (List Item))
  | done (result : Except ParseError Unit)

section
variable {ρ : Type}

def sight (p : Parser ρ) : (View × SymbolTable) × List SyntaxError := (p.stream.sight, p.diagnostics)

def serve [Reader ρ] (p : Parser ρ) : Demand ρ → Demand.Answer × Parser ρ
  | .parse => (.items p.parse.result, p.parse.state)
  | .reopen path opened => (.done (p.reopen path opened).result, (p.reopen path opened).state)

end

section
variable {ρ ρ' : Type} [Reader ρ] [Reader ρ'] {p : Parser ρ} {p' : Parser ρ'}

/-- The streams of both parsers stand abreast, and the last parses reported the same. -/
structure Abreast (p : Parser ρ) (p' : Parser ρ') : Prop where
  stream : p.stream.Abreast p'.stream
  diagnostics : p.diagnostics = p'.diagnostics

namespace Abreast

theorem sight (h : Abreast p p') : p.sight = p'.sight := by
  unfold Parser.sight
  rw [h.stream.sight, h.diagnostics]

theorem parseRest (h : Abreast p p') :
    p.parseRest.result = p'.parseRest.result ∧ Abreast p.parseRest.state p'.parseRest.state := by
  obtain ⟨failure, tokens, later⟩ :
      p.stream.all.1 = p'.stream.all.1 ∧ p.stream.all.2.1 = p'.stream.all.2.1 ∧
        p.stream.all.2.2.Abreast p'.stream.all.2.2 := h.stream.feed _ _
  unfold Parser.parseRest
  generalize p.stream.all = all at failure tokens later ⊢
  generalize p'.stream.all = all' at failure tokens later ⊢
  obtain ⟨failure, tokens, s⟩ := all
  obtain ⟨failure', tokens', s'⟩ := all'
  subst failure tokens
  dsimp only
  generalize Grammar.program tokens.toList = program
  obtain ⟨items, diagnostics, complete⟩ := program
  cases complete <;> cases failure <;> cases diagnostics <;> exact ⟨rfl, later, rfl⟩

theorem parse (h : Abreast p p') :
    p.parse.result = p'.parse.result ∧ Abreast p.parse.state p'.parse.state := by
  obtain ⟨same, again⟩ := h.stream.reset
  have next : Abreast ⟨p.stream.reset.state, []⟩ ⟨p'.stream.reset.state, []⟩ := ⟨again, rfl⟩
  unfold Parser.parse
  dsimp only
  rw [← same]
  cases p.stream.reset.result with
  | error e => exact ⟨rfl, next⟩
  | ok => exact next.parseRest

theorem serve {demand : Demand ρ} {demand' : Demand ρ'} (h : Abreast p p')
    (alike : demand.Alike Reader.Concur demand') :
    (p.serve demand).1 = (p'.serve demand').1 ∧ Abreast (p.serve demand).2 (p'.serve demand').2 := by
  cases alike with
  | parse => exact ⟨congrArg Demand.Answer.items h.parse.1, h.parse.2⟩
  | reopen path concur =>
    obtain ⟨result, later⟩ := h.stream.reopen concur path
    exact ⟨congrArg (fun given : Except ScanError Unit => Demand.Answer.done (given.mapError .lexical)) result,
      later, h.diagnostics⟩
  | missing path cause => exact ⟨rfl, h⟩

theorem transcript {demands : List (Demand ρ)} {demands' : List (Demand ρ')} (h : Abreast p p')
    (alike : List.Forall₂ (Demand.Alike Reader.Concur) demands demands') :
    transcript Parser.serve Parser.sight p demands =
      Kaleidoscope.transcript Parser.serve Parser.sight p' demands' :=
  (transcript_eq (R := Abreast) (S := Demand.Alike Reader.Concur) (F := fun _ => False) Abreast.sight
    (fun abreast asked _ => abreast.serve asked) h alike fun _ _ => id).1

end Abreast

/-- However a reader that never fails cuts its source into pieces, each fill of a chunk gets the next
bytes. So sessions on a buffer, on a stream behind them and on a parser behind those have the same answers
as over any other such reader. -/
theorem pieces_unseen {source : List UInt8} {r : ρ} {r' : ρ'} (reads : Reader.Delivers source r)
    (reads' : Reader.Delivers source r') (name name' : String) :
    (∀ i (there : ρ), Reader.DeliversFrom source i there →
      let filled := Reader.fill there chunkSize #[]
      filled.failure = none ∧ filled.data.toList = (source.drop i).take chunkSize ∧
        Reader.DeliversFrom source (i + min chunkSize (source.length - i)) filled.reader) ∧
    ∃ b b', Buffer.new r name = .ok b ∧ Buffer.new r' name' = .ok b' ∧ b.view = b'.view ∧
      ∀ ops ops', List.Forall₂ (Operation.Alike Reader.Concur) ops ops' →
        transcript Buffer.serve Buffer.view b ops = transcript Buffer.serve Buffer.view b' ops' ∧
        let s := TokenStream.ofBuffer (serveAll Buffer.serve b ops)
        let s' := TokenStream.ofBuffer (serveAll Buffer.serve b' ops')
        ∀ calls calls', List.Forall₂ (TokenStream.Demand.Alike Reader.Concur) calls calls' →
          transcript TokenStream.serve TokenStream.sight s calls =
            transcript TokenStream.serve TokenStream.sight s' calls' ∧
          let p := ofStream (serveAll TokenStream.serve s calls)
          let p' := ofStream (serveAll TokenStream.serve s' calls')
          ∀ demands demands', List.Forall₂ (Demand.Alike Reader.Concur) demands demands' →
            transcript serve sight p demands = transcript serve sight p' demands' := by
  refine ⟨fun i there delivers => Reader.fill_chunk delivers, ?_⟩
  obtain ⟨b, opened, shows⟩ := Buffer.new_shows reads name
  obtain ⟨b', opened', shows'⟩ := Buffer.new_shows reads' name'
  have level : b.Level b' := ⟨source, _, shows, shows'⟩
  refine ⟨b, b', opened, opened', level.view, fun ops ops' asked => ?_⟩
  obtain ⟨answers, behind⟩ := level.transcript asked
  refine ⟨answers, fun calls calls' asked' => ?_⟩
  obtain ⟨answers', later⟩ := (TokenStream.abreast_ofBuffer behind).transcript asked'
  refine ⟨answers', fun demands demands' asked'' => ?_⟩
  have abreast : Abreast (ofStream _) (ofStream _) := ⟨later, rfl⟩
  exact abreast.transcript asked''

/-- One byte at a time, with every second read interrupted, and another file that does not come in pieces. -/
theorem pieces_unseen_bytes :
    let r := FaultyReader.ofBytes #[120, 43, 49] ⟨some 1, 2, none, false⟩ none
    let r' := ByteReader.ofBytes #[120, 43, 49]
    Reader.Delivers [120, 43, 49] r ∧ Reader.Delivers [120, 43, 49] r' ∧
      ∃ b b', Buffer.new r "a" = .ok b ∧ Buffer.new r' "a" = .ok b' ∧
        transcript serve sight (ofStream (.ofBuffer b)) [.parse, .reopen "b" (.ok r), .parse] =
          transcript serve sight (ofStream (.ofBuffer b')) [.parse, .reopen "b" (.ok r'), .parse] := by
  intro r r'
  have reads := FaultyReader.delivers #[120, 43, 49] ⟨some 1, 2, none, false⟩ none rfl rfl (by decide)
  have reads' := ByteReader.delivers #[120, 43, 49]
  obtain ⟨-, b, b', opened, opened', -, sessions⟩ := pieces_unseen reads reads' "a" "a"
  obtain ⟨-, streams⟩ := sessions [] [] .nil
  obtain ⟨-, parsers⟩ := streams [] [] .nil
  refine ⟨reads, reads', b, b', opened, opened', parsers _ _ ?_⟩
  exact .cons .parse (.cons (.reopen "b" ⟨_, reads, reads'⟩) (.cons .parse .nil))

end

end Kaleidoscope.Parser
