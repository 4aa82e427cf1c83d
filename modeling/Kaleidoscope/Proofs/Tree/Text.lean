import Kaleidoscope.Tree.Printing

/-!
# The text of a tree

The text of a tree is made of the texts of its parts.
-/

namespace Kaleidoscope

namespace Expr

/-- Induction on an expression, with what is to be proved at hand for every argument of a call. -/
@[elab_as_elim]
theorem induction {motive : Expr → Prop} (number : ∀ value, motive (.number value))
    (var : ∀ name, motive (.var name))
    (binary : ∀ op left right, motive left → motive right → motive (.binary op left right))
    (call : ∀ callee args, (∀ arg ∈ args, motive arg) → motive (.call callee args)) :
    ∀ e, motive e
  | .number value => number value
  | .var name => var name
  | .binary op left right =>
    binary op left right (induction number var binary call left)
      (induction number var binary call right)
  | .call callee args =>
    call callee args fun arg mem =>
      have _less := List.sizeOf_lt_of_mem mem
      induction number var binary call arg
termination_by e => sizeOf e
decreasing_by
  all_goals simp_wf
  all_goals omega

mutual

theorem piecesBefore_eq (rest : List String) (e : Expr) : e.piecesBefore rest = e.pieces ++ rest := by
  unfold pieces
  match e with
  | .number value => simp [piecesBefore]
  | .var name => rfl
  | .binary op left right =>
    unfold piecesBefore
    rw [piecesBefore_eq _ left, piecesBefore_eq _ right, piecesBefore_eq (") " :: _) left,
      piecesBefore_eq [")"] right]
    simp
  | .call callee args =>
    unfold piecesBefore
    rw [argPiecesBefore_eq, argPiecesBefore_eq [")"]]
    simp

theorem argPiecesBefore_eq (rest : List String) (args : List Expr) :
    argPiecesBefore rest args = argPiecesBefore [] args ++ rest := by
  match args with
  | [] => rfl
  | [arg] =>
    unfold argPiecesBefore
    exact piecesBefore_eq rest arg
  | arg :: next :: more =>
    unfold argPiecesBefore
    rw [argPiecesBefore_eq rest (next :: more), piecesBefore_eq, piecesBefore_eq (", " :: _)]
    simp

end

theorem toText_number (value : Float) : (number value).toText = Literal.spell value := by
  rw [← String.toList_inj]
  simp [toText, pieces, piecesBefore, Literal.spell, List.flatMap_def]

theorem toText_var (name : String) : (var name).toText = "%" ++ name := by
  simp [toText, pieces, piecesBefore]

theorem toText_binary (op : Operator) (left right : Expr) :
    (binary op left right).toText =
      "(" ++ left.toText ++ ") " ++ op.symbol ++ " (" ++ right.toText ++ ")" := by
  unfold toText pieces
  rw [piecesBefore, piecesBefore_eq _ left, piecesBefore_eq _ right]
  simp [String.append_assoc, pieces]

theorem join_argPiecesBefore (args : List Expr) :
    String.join (argPiecesBefore [] args) = String.intercalate ", " (args.map toText) := by
  match args with
  | [] => rfl
  | [arg] => rfl
  | arg :: next :: more =>
    rw [argPiecesBefore, piecesBefore_eq, String.join_append, String.join_cons,
      join_argPiecesBefore (next :: more)]
    · simp [toText, String.append_assoc]
    · exact List.cons_ne_nil next more

theorem toText_call (callee : String) (args : List Expr) :
    (call callee args).toText = callee ++ "(" ++ String.intercalate ", " (args.map toText) ++ ")" := by
  rw [← join_argPiecesBefore]
  unfold toText pieces
  rw [piecesBefore, argPiecesBefore_eq]
  simp [String.append_assoc]

end Expr

theorem Prototype.toText_eq (p : Prototype) :
    p.toText = p.name ++ "(" ++ String.intercalate ", " p.params ++ ")\n" := by
  simp [toText, pieces, String.append_assoc]

theorem Function.toText_eq (f : Function) :
    f.toText = f.proto.toText ++ openBody ++ f.body.toText ++ closeBody := by
  simp [toText, pieces, Prototype.toText, Expr.toText, Expr.piecesBefore_eq, String.append_assoc]

end Kaleidoscope
