import Kaleidoscope.Proofs.Sink
import Kaleidoscope.Proofs.Tree.Text
import Kaleidoscope.Tree.Dump

/-!
# Trees in writers that fill up

Whatever a writer refuses, it has been given the pieces of the tree in order up to the one it refused, and
no other one. So a writer with little room holds the beginning of the text.
-/

namespace Kaleidoscope

namespace Writing

section
variable {ω : Type} [Writer ω]

/-! ## Texts one after another -/

theorem emitAll_append (texts texts' : List String) :
    (emitAll (texts ++ texts') : Writing ω Unit) = (do emitAll texts; emitAll texts') := by
  induction texts with
  | nil => simp [emitAll]
  | cons text texts ih => simp [emitAll, ih]

theorem on_emitAll_nil (w : ω) : (emitAll []).on w = (true, w) := rfl

theorem on_emitAll_cons (text : String) (texts : List String) (w : ω) :
    (emitAll (text :: texts)).on w =
      if (Writer.write w text).1 then (emitAll texts).on (Writer.write w text).2
      else (false, (Writer.write w text).2) := by
  simp only [emitAll, on, emit, bind, EStateM.bind]
  generalize Writer.write w text = written
  obtain ⟨taken, w'⟩ := written
  cases taken <;> rfl

end

theorem on_emitAll_sink (texts : List String) (s : Sink) : (emitAll texts).on s = s.writeAll texts := by
  induction texts generalizing s with
  | nil => rfl
  | cons text texts ih =>
    rw [on_emitAll_cons, Sink.writeAll_cons]
    simp only [ih]
    rfl

end Writing

/-! ## Dumps are made of pieces -/

section
variable {ω : Type} [Writer ω]

open Writing (emit emitAll emitAll_append)

namespace Expr

mutual

theorem dump_eq (e : Expr) : (e.dump : Writing ω Unit) = emitAll e.pieces := by
  match e with
  | number value => simp [dump, pieces, piecesBefore]
  | var name => simp [dump, pieces, piecesBefore, emitAll]
  | binary op left right =>
    unfold dump pieces piecesBefore
    rw [piecesBefore_eq _ left, piecesBefore_eq _ right, dump_eq left, dump_eq right]
    simp [emitAll, emitAll_append]
  | call callee args =>
    unfold dump pieces piecesBefore
    rw [argPiecesBefore_eq, dumpArgs_eq args]
    simp [emitAll, emitAll_append]

theorem dumpArgs_eq (args : List Expr) :
    (dumpArgs args : Writing ω Unit) = emitAll (argPiecesBefore [] args) := by
  match args with
  | [] => rfl
  | [arg] => exact dump_eq arg
  | arg :: next :: more =>
    unfold dumpArgs argPiecesBefore
    rw [piecesBefore_eq, dump_eq arg, dumpArgs_eq (next :: more)]
    simp [emitAll, emitAll_append]

end

end Expr

theorem Prototype.dump_eq (p : Prototype) : (p.dump : Writing ω Unit) = emitAll p.pieces := by
  simp [dump, pieces, emitAll]

theorem Function.dump_eq (f : Function) : (f.dump : Writing ω Unit) = emitAll f.pieces := by
  rw [dump, pieces, Prototype.dump_eq, Expr.dump_eq, Expr.piecesBefore_eq]
  simp [emitAll, emitAll_append]

theorem Item.toText_node (i : Item) : i.node.toText = i.toText := by
  cases i <;> rfl

theorem Node.dump_eq (n : Node) : (n.dump : Writing ω Unit) = emitAll n.pieces := by
  cases n with
  | expr e => exact e.dump_eq
  | proto p => exact p.dump_eq
  | function f => exact f.dump_eq

end

/-! ## Writers that are watched -/

structure Watched (ω : Type) where
  writer : ω
  calls : List (String × Bool)

instance {ω : Type} [Writer ω] : Writer (Watched ω) where
  write w text :=
    let written := Writer.write w.writer text
    (written.1, ⟨written.2, w.calls ++ [(text, written.1)]⟩)

/-- The texts were given in order, and none behind one that was not taken. -/
structure StopsAtFailure (texts : List String) (calls : List (String × Bool)) (taken : Bool) : Prop where
  inOrder : calls.map Prod.fst <+: texts
  before : ∀ call ∈ calls.dropLast, call.2 = true
  complete : taken = true → calls.map Prod.fst = texts
  failed : taken = true ↔ ∀ call ∈ calls, call.2 = true

section
variable {ω : Type} [Writer ω]

theorem StopsAtFailure.cons {texts : List String} {calls : List (String × Bool)} {taken : Bool}
    (h : StopsAtFailure texts calls taken) (text : String) :
    StopsAtFailure (text :: texts) ((text, true) :: calls) taken where
  inOrder := List.cons_prefix_cons.mpr ⟨rfl, h.inOrder⟩
  before := by
    cases calls with
    | nil => exact nofun
    | cons call calls => exact List.forall_mem_cons.mpr ⟨rfl, h.before⟩
  complete all := congrArg (text :: ·) (h.complete all)
  failed := by
    rw [h.failed, List.forall_mem_cons]
    simp

theorem stopsAtFailure_refused (text : String) (texts : List String) :
    StopsAtFailure (text :: texts) [(text, false)] false where
  inOrder := ⟨texts, rfl⟩
  before := nofun
  complete := nofun
  failed := by simp

/-- To watch a writer changes nothing about it. -/
theorem Writing.emitAll_watched (texts : List String) (w : ω) (past : List (String × Bool)) :
    ∃ calls, (emitAll texts).on (⟨w, past⟩ : Watched ω) =
        (((emitAll texts).on w).1, ⟨((emitAll texts).on w).2, past ++ calls⟩) ∧
      StopsAtFailure texts calls ((emitAll texts).on w).1 := by
  induction texts generalizing w past with
  | nil =>
    refine ⟨[], ?_, ⟨List.prefix_refl _, nofun, fun _ => rfl, ?_⟩⟩
    · rw [on_emitAll_nil, on_emitAll_nil, List.append_nil]
    · simp [on_emitAll_nil]
  | cons text texts ih =>
    rw [on_emitAll_cons, on_emitAll_cons]
    have watched : Writer.write (⟨w, past⟩ : Watched ω) text = ((Writer.write w text).1,
      ⟨(Writer.write w text).2, past ++ [(text, (Writer.write w text).1)]⟩) := rfl
    rw [watched]
    by_cases taken : (Writer.write w text).1 = true
    · simp only [taken, if_true]
      obtain ⟨calls, eq, stops⟩ := ih (Writer.write w text).2 (past ++ [(text, true)])
      exact ⟨(text, true) :: calls, by simpa using eq, stops.cons text⟩
    · rw [Bool.not_eq_true] at taken
      simp only [taken, Bool.false_eq_true, if_false]
      exact ⟨[(text, false)], rfl, stopsAtFailure_refused text texts⟩

end

/-! ## Little room -/

theorem Node.dump_unlimited (n : Node) :
    n.dump.on Sink.unlimited = (true, ⟨n.toText.toUTF8, none⟩) := by
  rw [dump_eq, Writing.on_emitAll_sink, Sink.unlimited, Sink.writeAll_unlimited, ByteArray.empty_append]
  rfl

/-- In a sink with little room there is as much of the text of a node as fits, and the dump fails if and
only if that is not all. No writer is given anything behind what it refused. -/
theorem Node.dump_cut (n : Node) (limit : Nat) :
    let text := n.toText.toUTF8
    n.dump.on Sink.unlimited = (true, ⟨text, none⟩) ∧
      (n.dump.on (Sink.limited limit)).2.written = text.extract 0 limit ∧
      (n.dump.on (Sink.limited limit)).2.written.size = min limit text.size ∧
      ((n.dump.on (Sink.limited limit)).1 = false ↔ limit < text.size) ∧
      ∀ (ω : Type) [Writer ω] (w : ω), ∃ calls,
        n.dump.on (⟨w, []⟩ : Watched ω) = ((n.dump.on w).1, ⟨(n.dump.on w).2, calls⟩) ∧
        StopsAtFailure n.pieces calls (n.dump.on w).1 := by
  intro text
  have limited : n.dump.on (Sink.limited limit) = (Sink.limited limit).writeAll n.pieces := by
    rw [dump_eq, Writing.on_emitAll_sink]
  obtain ⟨fits, written⟩ := Sink.writeAll_limited n.pieces .empty limit
  have cut : (n.dump.on (Sink.limited limit)).2.written = text.extract 0 limit := by
    rw [limited]
    exact written.trans ByteArray.empty_append
  refine ⟨n.dump_unlimited, cut, ?_, ?_, ?_⟩
  · rw [cut, ByteArray.size_extract, Nat.sub_zero]
  · have taken : (n.dump.on (Sink.limited limit)).1 = decide (text.size ≤ limit) := by
      rw [limited]
      exact fits
    rw [taken, decide_eq_false_iff_not, Nat.not_le]
  · intro ω _ w
    rw [dump_eq, dump_eq]
    exact Writing.emitAll_watched n.pieces w []

end Kaleidoscope
