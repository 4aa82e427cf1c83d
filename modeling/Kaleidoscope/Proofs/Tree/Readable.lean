import Kaleidoscope.Proofs.Grammar.Leaves
import Kaleidoscope.Proofs.Literal.Spelling
import Kaleidoscope.Proofs.Token.Head
import Kaleidoscope.Proofs.Tree.Text

/-!
# Texts are read in one way

The text of a tree says which tree it is, even with another text behind it: what is printed of two
lists of items is the same only if the lists are.
-/

namespace Kaleidoscope

open Literal

section
variable {word word' rest rest' : List Char}

/-- A text falls in one way into what `p` holds for and what starts with anything else. -/
theorem span_unique {p : Char → Bool} (inside : ∀ c ∈ word, p c = true)
    (inside' : ∀ c ∈ word', p c = true) (ends : ∀ c ∈ rest.head?, p c = false)
    (ends' : ∀ c ∈ rest'.head?, p c = false) (eq : word ++ rest = word' ++ rest') :
    word = word' ∧ rest = rest' := by
  have whole {cs ds : List Char} (inside : ∀ c ∈ cs, p c = true) (ends : ∀ c ∈ ds.head?, p c = false) :
      (cs ++ ds).takeWhile p = cs := by
    rw [List.takeWhile_append_of_pos inside]
    cases ds with
    | nil => exact List.append_nil cs
    | cons d ds =>
      rw [List.takeWhile_cons_of_neg (by simp [ends d rfl]), List.append_nil]
  have words : word = word' := by rw [← whole inside ends, eq, whole inside' ends']
  subst words
  exact ⟨rfl, List.append_cancel_left eq⟩

def Closes (rest : List Char) : Prop := ∃ c more, rest = c :: more ∧ (c = ')' ∨ c = ',' ∨ c = '\n')

theorem Closes.outside (h : Closes rest) : ∀ c ∈ rest.head?, isInside c = false ∧ c ≠ '(' := by
  obtain ⟨c, more, rfl, here⟩ := h
  intro d mem
  cases mem
  rcases here with rfl | rfl | rfl <;> decide

/-! ## Lists -/

variable {α : Type} {f : α → String} {xs xs' : List α}

def behindFirst (f : α → String) (rest : List Char) : List α → List Char
  | [] => ')' :: rest
  | x :: xs => ',' :: ' ' :: ((String.intercalate ", " ((x :: xs).map f)).toList ++ ')' :: rest)

theorem closes_behindFirst (f : α → String) (rest : List Char) (xs : List α) :
    Closes (behindFirst f rest xs) := by
  cases xs with
  | nil => exact ⟨_, _, rfl, .inl rfl⟩
  | cons x xs => exact ⟨_, _, rfl, .inr (.inl rfl)⟩

theorem intercalate_cons (f : α → String) (rest : List Char) (x : α) (xs : List α) :
    (String.intercalate ", " ((x :: xs).map f)).toList ++ ')' :: rest =
      (f x).toList ++ behindFirst f rest xs := by
  cases xs with
  | nil => simp [behindFirst]
  | cons y ys => simp [behindFirst]

/-- A list is known from its texts if each of them is. -/
theorem list_unique
    (each : ∀ x ∈ xs, ∀ x' ∈ xs', ∀ rest rest', Closes rest → Closes rest' →
      (f x).toList ++ rest = (f x').toList ++ rest' → x = x' ∧ rest = rest')
    (opens : ∀ x ∈ xs, ∃ c cs, (f x).toList = c :: cs ∧ c ≠ ')')
    (opens' : ∀ x ∈ xs', ∃ c cs, (f x).toList = c :: cs ∧ c ≠ ')')
    (eq : (String.intercalate ", " (xs.map f)).toList ++ ')' :: rest =
      (String.intercalate ", " (xs'.map f)).toList ++ ')' :: rest') :
    xs = xs' ∧ rest = rest' := by
  induction xs generalizing xs' with
  | nil =>
    cases xs' with
    | nil =>
      simp at eq
      exact ⟨rfl, eq⟩
    | cons x' xs' =>
      -- one list is closed where the other has an element
      obtain ⟨c, cs, first, ne⟩ := opens' x' List.mem_cons_self
      rw [intercalate_cons, first] at eq
      exact absurd (List.cons.inj eq).1.symm ne
  | cons x xs ih =>
    cases xs' with
    | nil =>
      obtain ⟨c, cs, first, ne⟩ := opens x List.mem_cons_self
      rw [intercalate_cons, first] at eq
      exact absurd (List.cons.inj eq).1 ne
    | cons x' xs' =>
      rw [intercalate_cons, intercalate_cons] at eq
      obtain ⟨rfl, behind⟩ := each x List.mem_cons_self x' List.mem_cons_self _ _
        (closes_behindFirst f rest xs) (closes_behindFirst f rest' xs') eq
      have more := ih (fun y mem y' mem' =>
          each y (List.mem_cons_of_mem x mem) y' (List.mem_cons_of_mem x mem'))
        (fun y mem => opens y (List.mem_cons_of_mem x mem))
        (fun y mem => opens' y (List.mem_cons_of_mem x mem))
      -- behind the first elements both lists are closed, or both go on with a comma
      cases xs with
      | nil =>
        cases xs' with
        | nil => exact ⟨rfl, (List.cons.inj behind).2⟩
        | cons => exact absurd (List.cons.inj behind).1 (by decide)
      | cons =>
        cases xs' with
        | nil => exact absurd (List.cons.inj behind).1 (by decide)
        | cons =>
          obtain ⟨same, left⟩ := more (List.cons.inj (List.cons.inj behind).2).2
          exact ⟨congrArg (x :: ·) same, left⟩

/-! ## Words -/

theorem IsWord.head {s : String} (h : IsWord s) :
    ∃ c cs, s.toList = c :: cs ∧ isWordCharacter c = true := by
  obtain ⟨some, inside⟩ := h
  cases eq : s.toList with
  | nil => exact absurd (by simpa using eq) some
  | cons c cs => exact ⟨c, cs, rfl, inside c (by simp [eq])⟩

theorem IsWord.inside {s : String} (h : IsWord s) : ∀ c ∈ s.toList, isInside c = true :=
  fun c mem => inside_of_word (h.2 c mem)

theorem IsWord.opens {s : String} (h : IsWord s) : ∃ c cs, s.toList = c :: cs ∧ c ≠ ')' := by
  obtain ⟨c, cs, eq, inside⟩ := h.head
  refine ⟨c, cs, eq, ?_⟩
  rintro rfl
  cases inside

theorem word_unique {s s' : String} (h : IsWord s) (h' : IsWord s') (closes : Closes rest)
    (closes' : Closes rest') (eq : s.toList ++ rest = s'.toList ++ rest') : s = s' ∧ rest = rest' := by
  obtain ⟨same, behind⟩ := span_unique h.inside h'.inside (fun c mem => (closes.outside c mem).1)
    (fun c mem => (closes'.outside c mem).1) eq
  exact ⟨String.toList_inj.mp same, behind⟩

end

/-! ## Expressions -/

theorem Operator.symbol_unique {op op' : Operator} {rest rest' : List Char}
    (eq : op.symbol.toList ++ rest = op'.symbol.toList ++ rest') : op = op' ∧ rest = rest' := by
  have single (op : Operator) : op.symbol.toList.length = 1 := by cases op <;> rfl
  obtain ⟨symbols, behind⟩ := List.append_inj eq ((single op).trans (single op').symm)
  refine ⟨?_, behind⟩
  apply Option.some.inj
  rw [← ofSymbol?_symbol op, String.toList_inj.mp symbols, ofSymbol?_symbol op']

namespace Expr

def Named (e : Expr) : Prop := ∀ name, Leaf.name name ∈ e.leaves → IsWord name

inductive Kind
  | number
  | var
  | binary
  | call

def kind : Expr → Kind
  | .number _ => .number
  | .var _ => .var
  | .binary .. => .binary
  | .call .. => .call

def word : Expr → List Char
  | .number value => (spell value).toList
  | .call callee _ => callee.toList
  | _ => []

def behindWord (rest : List Char) : Expr → List Char
  | .number _ => rest
  | .var name => '%' :: (name.toList ++ rest)
  | .binary op left right => '(' :: (left.toText.toList ++ ')' :: ' ' :: (op.symbol.toList ++
      ' ' :: '(' :: (right.toText.toList ++ ')' :: rest)))
  | .call _ args => '(' :: ((String.intercalate ", " (args.map toText)).toList ++ ')' :: rest)

def Kind.of (word behind : List Char) : Kind :=
  if word = [] then if behind.head? = some '%' then .var else .binary
  else if behind.head? = some '(' then .call else .number

variable {e : Expr} {rest : List Char}

theorem toText_split (e : Expr) (rest : List Char) :
    e.toText.toList ++ rest = e.word ++ e.behindWord rest := by
  cases e with
  | number value => rw [toText_number, word, behindWord]
  | var name => simp [toText_var, word, behindWord]
  | binary op left right => simp [toText_binary, word, behindWord]
  | call callee args => simp [toText_call, word, behindWord]

theorem word_inside (named : e.Named) : ∀ c ∈ e.word, isInside c = true := by
  cases e with
  | number value => exact spell_inside value
  | call callee args => exact (named callee (by simp [leaves])).inside
  | _ => exact List.forall_mem_nil _

theorem behindWord_outside (closes : Closes rest) :
    ∀ c ∈ (e.behindWord rest).head?, isInside c = false := by
  cases e with
  | number value => exact fun c mem => (closes.outside c mem).1
  | _ =>
    intro c mem
    cases mem
    decide

theorem kind_of (named : e.Named) (closes : Closes rest) :
    Kind.of e.word (e.behindWord rest) = e.kind := by
  cases e with
  | number value =>
    have some := spell_ne_nil value
    have other : rest.head? ≠ .some '(' := fun eq => (closes.outside '(' eq).2 rfl
    simp [Kind.of, word, behindWord, kind, some, other]
  | var name => rfl
  | binary op left right => rfl
  | call callee args =>
    have some : callee.toList ≠ [] := by
      obtain ⟨c, cs, eq, -⟩ := (named callee (by simp [leaves])).head
      simp [eq]
    simp [Kind.of, word, behindWord, kind, some]

theorem Named.part (h : e.Named) {part : Expr} (inside : part.leaves ⊆ e.leaves) : part.Named :=
  fun name mem => h name (inside mem)

section
variable {op : Operator} {left right arg : Expr} {callee : String} {args : List Expr}

theorem leaves_left : left.leaves ⊆ (binary op left right).leaves := by
  simp [leaves]

theorem leaves_right : right.leaves ⊆ (binary op left right).leaves := by
  intro leaf mem
  simp [leaves, mem]

theorem leaves_arg (mem : arg ∈ args) : arg.leaves ⊆ (call callee args).leaves := by
  rw [leaves]
  apply List.subset_cons_of_subset
  induction args with
  | nil => cases mem
  | cons a args ih =>
    rw [leavesOfArgs]
    rcases List.mem_cons.mp mem with rfl | later
    · exact List.subset_append_left _ _
    · exact List.subset_append_of_subset_right _ (ih later)

end

theorem Named.opens (named : e.Named) : ∃ c cs, e.toText.toList = c :: cs ∧ c ≠ ')' := by
  rw [← List.append_nil e.toText.toList, toText_split]
  cases e with
  | number value =>
    obtain ⟨c, cs, eq⟩ := List.exists_cons_of_ne_nil (spell_ne_nil value)
    refine ⟨c, cs, by simp [word, behindWord, eq], ?_⟩
    rintro rfl
    have inside := spell_inside value ')' (by simp [eq])
    cases inside
  | var name => exact ⟨'%', _, rfl, by decide⟩
  | binary op left right => exact ⟨'(', _, rfl, by decide⟩
  | call callee args =>
    obtain ⟨c, cs, eq, ne⟩ := (named callee (by simp [leaves])).opens
    rw [word, eq]
    exact ⟨c, _, rfl, ne⟩

theorem unique (e e' : Expr) {rest rest' : List Char} (named : e.Named) (named' : e'.Named)
    (closes : Closes rest) (closes' : Closes rest')
    (eq : e.toText.toList ++ rest = e'.toText.toList ++ rest') : e = e' ∧ rest = rest' := by
  induction e using Expr.induction generalizing e' rest rest'
  all_goals
    rw [toText_split, toText_split] at eq
    obtain ⟨words, behind⟩ := span_unique (word_inside named) (word_inside named')
      (behindWord_outside closes) (behindWord_outside closes') eq
    -- the texts agree on the kind, so that only one case of `e'` is left for each of `e`
    have kinds := kind_of named closes
    rw [words, behind, kind_of named' closes'] at kinds
  case number value =>
    cases e' with
    | number value' =>
      have same := spell_injective (String.toList_inj.mp words)
      exact ⟨congrArg _ same, behind⟩
    | _ => cases kinds
  case var name =>
    cases e' with
    | var name' =>
      have word := named name (by simp [leaves])
      have word' := named' name' (by simp [leaves])
      obtain ⟨rfl, same⟩ := word_unique word word' closes closes' (List.cons.inj behind).2
      exact ⟨rfl, same⟩
    | _ => cases kinds
  case binary op left right first second =>
    cases e' with
    | binary op' left' right' =>
      obtain ⟨rfl, between⟩ := first left' (named.part leaves_left) (named'.part leaves_left)
        ⟨_, _, rfl, .inl rfl⟩ ⟨_, _, rfl, .inl rfl⟩ (List.cons.inj behind).2
      obtain ⟨rfl, later⟩ := Operator.symbol_unique (List.cons.inj (List.cons.inj between).2).2
      obtain ⟨rfl, last⟩ := second right' (named.part leaves_right) (named'.part leaves_right)
        ⟨_, _, rfl, .inl rfl⟩ ⟨_, _, rfl, .inl rfl⟩ (List.cons.inj (List.cons.inj later).2).2
      exact ⟨rfl, (List.cons.inj last).2⟩
    | _ => cases kinds
  case call callee args each =>
    cases e' with
    | call callee' args' =>
      have same := String.toList_inj.mp words
      have inner {arg : Expr} (mem : arg ∈ args) : arg.Named := named.part (leaves_arg mem)
      have inner' {arg : Expr} (mem : arg ∈ args') : arg.Named := named'.part (leaves_arg mem)
      obtain ⟨rfl, last⟩ := list_unique
        (fun arg mem arg' mem' _ _ => each arg mem arg' (inner mem) (inner' mem'))
        (fun arg mem => (inner mem).opens) (fun arg mem => (inner' mem).opens)
        (List.cons.inj behind).2
      exact ⟨by rw [same], last⟩
    | _ => cases kinds

end Expr

/-! ## Items -/

section
variable {rest rest' : List Char}

/-- The name of a prototype may be missing, those of its parameters may not. -/
def Prototype.Named (p : Prototype) : Prop :=
  (∀ c ∈ p.name.toList, isWordCharacter c = true) ∧ ∀ param ∈ p.params, IsWord param

def Item.Named : Item → Prop
  | function f => f.proto.Named ∧ f.body.Named
  | external p => p.Named

theorem Prototype.named_of_leaves {p : Prototype}
    (words : ∀ name, Leaf.name name ∈ p.leaves → IsWord name) : p.Named := by
  have own := words p.name (by simp [leaves])
  refine ⟨own.2, ?_⟩
  intro param mem
  exact words param (by simp [leaves, mem])

/-- The leaves of an item say that it is named, unless its prototype is not among them. -/
theorem Item.named_of_leaves {i : Item} (words : ∀ name, Leaf.name name ∈ i.leaves → IsWord name)
    (anonymous : ∀ f, i = .function f → f.proto.name = "" → f.proto = .anonymous) : i.Named := by
  cases i with
  | external p => exact Prototype.named_of_leaves words
  | function f =>
    refine ⟨?_, fun name mem => words name (List.mem_append_right _ mem)⟩
    by_cases none : f.proto.name = ""
    · rw [anonymous f rfl none]
      simp [Prototype.Named, Prototype.anonymous]
    · apply Prototype.named_of_leaves
      intro name mem
      apply words
      simp [leaves, Prototype.isAnonymous, none, mem]

theorem Prototype.toText_split (p : Prototype) (rest : List Char) :
    p.toText.toList ++ rest =
      p.name.toList ++ '(' :: ((String.intercalate ", " (p.params.map id)).toList ++
        ')' :: '\n' :: rest) := by
  simp [toText_eq]

theorem Prototype.unique {p p' : Prototype} (named : p.Named) (named' : p'.Named)
    (eq : p.toText.toList ++ rest = p'.toText.toList ++ rest') : p = p' ∧ rest = rest' := by
  have outside {cs : List Char} : ∀ c ∈ ('(' :: cs).head?, isWordCharacter c = false := by
    intro c mem
    cases mem
    decide
  rw [toText_split, toText_split] at eq
  obtain ⟨names, behind⟩ := span_unique named.1 named'.1 outside outside eq
  obtain ⟨params, last⟩ := list_unique
    (fun param mem param' mem' _ _ => word_unique (named.2 param mem) (named'.2 param' mem'))
    (fun param mem => (named.2 param mem).opens) (fun param mem => (named'.2 param mem).opens)
    (List.cons.inj behind).2
  refine ⟨?_, (List.cons.inj last).2⟩
  cases p
  cases p'
  simp_all [String.toList_inj]

def NotBrace (rest : List Char) : Prop := rest.head? ≠ some '\x7b'

theorem Item.toText_function (f : Function) (rest : List Char) :
    (function f).toText.toList ++ rest =
      f.proto.toText.toList ++ '\x7b' :: '\n' :: (f.body.toText.toList ++
        '\n' :: '\x7d' :: '\n' :: rest) := by
  have text : (function f).toText = f.toText := rfl
  simp [text, Function.toText_eq, Function.openBody, Function.closeBody]

theorem Item.toText_external (p : Prototype) (rest : List Char) :
    (external p).toText.toList ++ rest = p.toText.toList ++ rest := rfl

theorem Item.unique {i i' : Item} (named : i.Named) (named' : i'.Named) (apart : NotBrace rest)
    (apart' : NotBrace rest') (eq : i.toText.toList ++ rest = i'.toText.toList ++ rest') :
    i = i' ∧ rest = rest' := by
  cases i with
  | function f =>
    cases i' with
    | function f' =>
      rw [toText_function, toText_function] at eq
      obtain ⟨protos, behind⟩ := Prototype.unique named.1 named'.1 eq
      have bodies := (List.cons.inj (List.cons.inj behind).2).2
      obtain ⟨body, last⟩ := Expr.unique f.body f'.body named.2 named'.2
        ⟨_, _, rfl, .inr (.inr rfl)⟩ ⟨_, _, rfl, .inr (.inr rfl)⟩ bodies
      refine ⟨?_, (List.cons.inj (List.cons.inj (List.cons.inj last).2).2).2⟩
      cases f
      cases f'
      simp_all
    | external p' =>
      rw [toText_function, toText_external] at eq
      obtain ⟨-, behind⟩ := Prototype.unique named.1 named' eq
      exact absurd (by rw [← behind]; rfl) apart'
  | external p =>
    cases i' with
    | function f' =>
      rw [toText_function, toText_external] at eq
      obtain ⟨-, behind⟩ := Prototype.unique named named'.1 eq
      exact absurd (by rw [behind]; rfl) apart
    | external p' =>
      obtain ⟨protos, behind⟩ := Prototype.unique named named' eq
      exact ⟨by rw [protos], behind⟩

theorem Prototype.opens {p : Prototype} (named : p.Named) (rest : List Char) :
    ∃ c cs, p.toText.toList ++ rest = c :: cs ∧ c ≠ '\x7b' := by
  rw [toText_split]
  cases eq : p.name.toList with
  | nil => exact ⟨_, _, rfl, by decide⟩
  | cons c cs =>
    refine ⟨c, _, rfl, ?_⟩
    rintro rfl
    have inside := named.1 '\x7b' (by simp [eq])
    cases inside

theorem Item.opens {i : Item} (named : i.Named) (rest : List Char) :
    ∃ c cs, i.toText.toList ++ rest = c :: cs ∧ c ≠ '\x7b' := by
  cases i with
  | function f =>
    rw [toText_function]
    exact Prototype.opens named.1 _
  | external p => exact Prototype.opens named rest

theorem Item.notBrace {items : List Item} (named : ∀ i ∈ items, i.Named) :
    NotBrace (String.join (items.map toText)).toList := by
  cases items with
  | nil => simp [NotBrace]
  | cons i items =>
    obtain ⟨c, cs, eq, ne⟩ := Item.opens (named i List.mem_cons_self)
      (String.join (items.map toText)).toList
    rw [List.map_cons, String.join_cons, String.toList_append, eq]
    simpa [NotBrace] using ne

/-- Items are known from the texts that are printed of them one behind the other. -/
theorem Item.list_unique {items items' : List Item} (named : ∀ i ∈ items, i.Named)
    (named' : ∀ i ∈ items', i.Named)
    (eq : String.join (items.map toText) = String.join (items'.map toText)) : items = items' := by
  have some {i : Item} {items : List Item} (here : i.Named) :
      String.join ((i :: items).map toText) ≠ "" := by
    intro none
    obtain ⟨c, cs, opens, -⟩ := Item.opens here (String.join (items.map toText)).toList
    rw [List.map_cons, String.join_cons] at none
    rw [← String.toList_append, none] at opens
    cases opens
  induction items generalizing items' with
  | nil =>
    cases items' with
    | nil => rfl
    | cons i' items' => exact absurd eq.symm (some (named' i' List.mem_cons_self))
  | cons i items ih =>
    cases items' with
    | nil => exact absurd eq (some (named i List.mem_cons_self))
    | cons i' items' =>
      obtain ⟨here, later⟩ := List.forall_mem_cons.mp named
      obtain ⟨here', later'⟩ := List.forall_mem_cons.mp named'
      have texts := congrArg String.toList eq
      rw [List.map_cons, List.map_cons, String.join_cons, String.join_cons, String.toList_append,
        String.toList_append] at texts
      obtain ⟨rfl, behind⟩ := Item.unique here here' (notBrace later) (notBrace later') texts
      rw [ih later later' (String.toList_inj.mp behind)]

end

end Kaleidoscope
