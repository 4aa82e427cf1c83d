import Kaleidoscope.Proofs.Grammar.Sentence

/-!
# The leaves of a tree

Read from left to right, the names, numbers and operators of a tree are those of its tokens. None is
lost and none is repeated.
-/

namespace Kaleidoscope

inductive Leaf
  | name (spelling : String)
  | number (value : Float)
  | operator (op : Operator)

def Token.leaf? (t : Token) : Option Leaf :=
  match t.kind with
  | .identifier name => some (.name name.spelling)
  | .number value => some (.number value)
  | .punctuator text => (Operator.ofSymbol? text).map .operator
  | _ => none

namespace Expr

mutual

def leaves : Expr → List Leaf
  | number value => [.number value]
  | var name => [.name name]
  | binary op left right => leaves left ++ .operator op :: leaves right
  | call callee args => .name callee :: leavesOfArgs args

def leavesOfArgs : List Expr → List Leaf
  | [] => []
  | e :: es => leaves e ++ leavesOfArgs es

end

end Expr

def Prototype.leaves (p : Prototype) : List Leaf :=
  .name p.name :: p.params.map .name

/-- A function without a name has no prototype among its tokens. -/
def Item.leaves : Item → List Leaf
  | function f => (if f.proto.isAnonymous then [] else f.proto.leaves) ++ f.body.leaves
  | external proto => proto.leaves

def Link.leaves (l : Link) : List Leaf := .operator l.op :: l.operand.leaves

theorem leaves_conventional (first : Expr) (links : List Link) :
    (conventional first links).leaves = first.leaves ++ links.flatMap Link.leaves := by
  cases found : cut? links with
  | none => simp [cut?_eq_none found]
  | some cut =>
    obtain ⟨left, l, right⟩ := cut
    have cut := Cut.of_cut? found
    have shorter : left.length < links.length := by simp [cut.eq]
    have shorter' : right.length < links.length := by simp [cut.eq]; omega
    rw [cut.conventional_eq, Expr.leaves, leaves_conventional first left,
      leaves_conventional l.operand right, cut.eq]
    simp [Link.leaves]
termination_by links.length

namespace Token

variable {t : Token}

theorem leaf?_of_name {name : Name} (h : t.name? = some name) : t.leaf? = some (.name name.spelling) := by
  unfold leaf?
  rw [Token.name?_eq_some.mp h]

theorem leaf?_of_number {value : Float} (h : t.kind = .number value) :
    t.leaf? = some (.number value) := by
  unfold leaf?
  rw [h]

theorem leaf?_of_operator {op : Operator} (h : t.operator? = some op) :
    t.leaf? = some (.operator op) := by
  unfold leaf?
  rw [Token.operator?_eq_some.mp h]
  simp [Operator.ofSymbol?_symbol]

theorem leaf?_of_isPunctuator {text : String} (h : t.isPunctuator text = true)
    (other : Operator.ofSymbol? text = none) : t.leaf? = none := by
  unfold leaf?
  rw [Token.isPunctuator_iff.mp h]
  simp [other]

theorem leaf?_of_isKeyword {k : Keyword} (h : t.isKeyword k = true) : t.leaf? = none := by
  unfold leaf?
  rw [Token.isKeyword_iff.mp h]

theorem leaf?_of_isEnd (h : t.isEnd = true) : t.leaf? = none := by
  unfold leaf?
  rw [Token.isEnd_iff.mp h]

end Token

namespace Grammar

mutual

theorem IsPrimary.leaves {ts : List Token} {e : Expr} (h : IsPrimary ts e) :
    e.leaves = ts.filterMap Token.leaf? := by
  match h with
  | .number kind => simp [Expr.leaves, Token.leaf?_of_number kind]
  | .var named => simp [Expr.leaves, Token.leaf?_of_name named]
  | .call named opens closes =>
    simp [Expr.leaves, Expr.leavesOfArgs, Token.leaf?_of_name named,
      Token.leaf?_of_isPunctuator opens (by decide), Token.leaf?_of_isPunctuator closes (by decide)]
  | .callWith named opens inner closes =>
    simp [Expr.leaves, inner.leaves, Token.leaf?_of_name named,
      Token.leaf?_of_isPunctuator opens (by decide), Token.leaf?_of_isPunctuator closes (by decide)]
  | .group opens inner closes =>
    simp [leaves_conventional, inner.leaves,
      Token.leaf?_of_isPunctuator opens (by decide), Token.leaf?_of_isPunctuator closes (by decide)]

theorem IsLinks.leaves {ts : List Token} {links : List Link} (h : IsLinks ts links) :
    links.flatMap Link.leaves = ts.filterMap Token.leaf? := by
  match h with
  | .nil => rfl
  | .cons sign operand more =>
    simp [Link.leaves, operand.leaves, more.leaves, Token.leaf?_of_operator sign]

theorem IsChain.leaves {ts : List Token} {first : Expr} {links : List Link}
    (h : IsChain ts first links) :
    first.leaves ++ links.flatMap Link.leaves = ts.filterMap Token.leaf? := by
  match h with
  | .mk operand more => simp [operand.leaves, more.leaves]

theorem IsArguments.leaves {ts : List Token} {args : List Expr} (h : IsArguments ts args) :
    Expr.leavesOfArgs args = ts.filterMap Token.leaf? := by
  match h with
  | .last arg => simp [Expr.leavesOfArgs, leaves_conventional, arg.leaves]
  | .cons arg comma more =>
    simp [Expr.leavesOfArgs, leaves_conventional, arg.leaves, more.leaves,
      Token.leaf?_of_isPunctuator comma (by decide)]

end

def Spelled (ts : List Token) : Prop := ∀ t ∈ ts, ∀ name, t.name? = some name → name.spelling ≠ ""

theorem Spelled.tail {t : Token} {ts : List Token} (h : Spelled (t :: ts)) : Spelled ts :=
  fun u mem => h u (List.mem_cons_of_mem t mem)

theorem Spelled.append_left {ts us : List Token} (h : Spelled (ts ++ us)) : Spelled ts :=
  fun t mem => h t (List.mem_append_left us mem)

theorem Spelled.append_right {ts us : List Token} (h : Spelled (ts ++ us)) : Spelled us :=
  fun t mem => h t (List.mem_append_right ts mem)

variable {ts : List Token} {proto : Prototype} {form : Form} {forms : List Form} {greedy : Bool}

theorem filterMap_leaf?_of_names {params : List Token} {names : List Name}
    (spelled : params.map Token.name? = names.map some) :
    params.filterMap Token.leaf? = (names.map Name.spelling).map Leaf.name := by
  induction params generalizing names with
  | nil =>
    cases names with
    | nil => rfl
    | cons name names => simp at spelled
  | cons t params ih =>
    cases names with
    | nil => simp at spelled
    | cons name names =>
      simp only [List.map_cons, List.cons.injEq] at spelled
      simp [Token.leaf?_of_name spelled.1, ih spelled.2]

theorem IsPrototype.leaves (h : IsPrototype ts proto) :
    proto.leaves = ts.filterMap Token.leaf? := by
  cases h with
  | mk named opens spelled closes =>
    simp [Prototype.leaves, filterMap_leaf?_of_names spelled, Token.leaf?_of_name named,
      Token.leaf?_of_isPunctuator opens (by decide), Token.leaf?_of_isPunctuator closes (by decide)]

theorem IsPrototype.name_ne (h : IsPrototype ts proto) (spelled : Spelled ts) : proto.name ≠ "" := by
  cases h with
  | mk named => exact spelled _ List.mem_cons_self _ named

theorem IsForm.leaves (h : IsForm ts form) (spelled : Spelled ts) :
    form.item.leaves = ts.filterMap Token.leaf? := by
  cases h with
  | @definition t ps inside proto first links word head body =>
    have named : proto.isAnonymous = false := by
      simpa [Prototype.isAnonymous] using head.name_ne spelled.tail.append_left
    simp [Form.item, Item.leaves, named, head.leaves, leaves_conventional, body.leaves,
      Token.leaf?_of_isKeyword word]
  | external word head => simp [Form.item, Item.leaves, head.leaves, Token.leaf?_of_isKeyword word]
  | expression body =>
    have anonymous : Prototype.anonymous.isAnonymous = true := rfl
    simp [Form.item, Item.leaves, anonymous, leaves_conventional, body.leaves]

theorem Sentence.leaves (h : Sentence greedy ts forms) (spelled : Spelled ts) :
    (forms.map Form.item).flatMap Item.leaves = ts.filterMap Token.leaf? := by
  induction h with
  | finish ends => simp [Token.leaf?_of_isEnd ends]
  | semicolon mark _ ih =>
    have inner := ih spelled.tail
    simp [inner, Token.leaf?_of_isPunctuator mark (by decide)]
  | form head _ _ ih =>
    simp [head.leaves spelled.append_left, ih spelled.append_right]

theorem Sentence.name_eq_iff (h : Sentence greedy ts forms) (spelled : Spelled ts) :
    ∀ form ∈ forms, ∀ f, form.item = .function f → (f.proto.name = "" ↔ ∃ e, form = .expression e) := by
  induction h with
  | finish => simp
  | semicolon _ _ ih => exact ih spelled.tail
  | form head _ _ ih =>
    rintro form mem f eq
    rcases List.mem_cons.mp mem with rfl | mem
    · cases head with
      | @definition t ps inside proto first links word head body =>
        cases eq
        have inner : Spelled (t :: (ps ++ inside)) := spelled.append_left
        simp [head.name_ne inner.tail.append_left]
      | external => cases eq
      | expression =>
        cases eq
        simp [Prototype.anonymous]
    · exact ih spelled.append_right form mem f eq

end Grammar

end Kaleidoscope
