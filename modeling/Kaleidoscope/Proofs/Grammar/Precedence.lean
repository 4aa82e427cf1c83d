import Kaleidoscope.Tree.Basic
import Mathlib.Data.List.TakeWhile

/-!
# The tree of a chain

A chain of operands and operators has one conventional tree. Its root is the rightmost of the
operators of the lowest precedence, and the two sides of the root are the trees of the chains there.
-/

namespace Kaleidoscope

structure Link where
  op : Operator
  operand : Expr

def Link.precedence (l : Link) : Nat := l.op.precedence

/-! ## Cuts -/

/-- `l` is the rightmost link of the lowest precedence. -/
structure Cut (links left : List Link) (l : Link) (right : List Link) : Prop where
  eq : links = left ++ l :: right
  notLooser : ∀ m ∈ left, l.precedence ≤ m.precedence
  tighter : ∀ m ∈ right, l.precedence < m.precedence

def cut? : List Link → Option (List Link × Link × List Link)
  | [] => none
  | l :: links =>
    match cut? links with
    | none => some ([], l, [])
    | some (left, m, right) =>
      if l.precedence < m.precedence then some ([], l, links) else some (l :: left, m, right)

theorem cut?_eq_none {links : List Link} (h : cut? links = none) : links = [] := by
  cases links with
  | nil => rfl
  | cons l links =>
    simp only [cut?] at h
    split at h
    · cases h
    · split at h <;> cases h

theorem Cut.of_cut? {links left right : List Link} {l : Link}
    (h : cut? links = some (left, l, right)) : Cut links left l right := by
  induction links generalizing left l right with
  | nil => cases h
  | cons k links ih =>
    simp only [cut?] at h
    split at h
    · rename_i none
      cases h
      rw [cut?_eq_none none]
      exact ⟨rfl, by simp, by simp⟩
    · rename_i left' m right' found
      have inner := ih found
      by_cases looser : k.precedence < m.precedence
      · rw [if_pos looser] at h
        cases h
        refine ⟨rfl, by simp, ?_⟩
        intro n mem
        rw [inner.eq] at mem
        rcases List.mem_append.mp mem with before | behind
        · exact Nat.lt_of_lt_of_le looser (inner.notLooser n before)
        · rcases List.mem_cons.mp behind with rfl | behind
          · exact looser
          · exact Nat.lt_trans looser (inner.tighter n behind)
      · rw [if_neg looser] at h
        cases h
        refine ⟨by rw [inner.eq, List.cons_append], ?_, inner.tighter⟩
        intro n mem
        rcases List.mem_cons.mp mem with rfl | mem
        · exact Nat.le_of_not_lt looser
        · exact inner.notLooser n mem

theorem Cut.cut?_eq {links left right : List Link} {l : Link} (h : Cut links left l right) :
    cut? links = some (left, l, right) := by
  induction left generalizing links with
  | nil =>
    rw [h.eq, List.nil_append, cut?]
    cases found : cut? right with
    | none => rw [cut?_eq_none found]
    | some cut =>
      obtain ⟨before, m, behind⟩ := cut
      have inner := Cut.of_cut? found
      have tighter : l.precedence < m.precedence := by
        apply h.tighter
        simp [inner.eq]
      exact if_pos tighter
  | cons k left ih =>
    have inner : Cut (left ++ l :: right) left l right :=
      ⟨rfl, fun m mem => h.notLooser m (List.mem_cons_of_mem k mem), h.tighter⟩
    have notLooser : ¬ k.precedence < l.precedence :=
      Nat.not_lt_of_le (h.notLooser k List.mem_cons_self)
    rw [h.eq, List.cons_append, cut?, ih inner]
    exact if_neg notLooser

/-! ## The conventional tree -/

def conventional (first : Expr) (links : List Link) : Expr :=
  match h : cut? links with
  | none => first
  | some (left, l, right) =>
    have _eq := (Cut.of_cut? h).eq
    .binary l.op (conventional first left) (conventional l.operand right)
termination_by links.length
decreasing_by all_goals rw [_eq]; simp only [List.length_append, List.length_cons]; omega

@[simp] theorem conventional_nil (first : Expr) : conventional first [] = first := by
  rw [conventional]
  rfl

theorem Cut.conventional_eq {links left right : List Link} {l : Link} (h : Cut links left l right)
    (first : Expr) : conventional first links =
      .binary l.op (conventional first left) (conventional l.operand right) := by
  have found := h.cut?_eq
  rw [conventional]
  split
  · rename_i none
    rw [none] at found
    cases found
  · rename_i some
    rw [some] at found
    cases found
    rfl

/-- An operator joins what stands before it to everything tighter behind it, if what follows binds no
tighter. -/
theorem conventional_join (first : Expr) {l : Link} {tight more : List Link}
    (tighter : ∀ m ∈ tight, l.precedence < m.precedence)
    (looser : ∀ m ∈ more.head?, m.precedence ≤ l.precedence) :
    conventional first (l :: tight ++ more) =
      conventional (.binary l.op first (conventional l.operand tight)) more := by
  cases found : cut? more with
  | none =>
    have whole : Cut (l :: tight) [] l tight := ⟨rfl, by simp, tighter⟩
    rw [cut?_eq_none found, List.append_nil, whole.conventional_eq, conventional_nil, conventional_nil]
  | some cut =>
    obtain ⟨left, m, right⟩ := cut
    have inner := Cut.of_cut? found
    have shorter : left.length < more.length := by simp [inner.eq]
    have lowest : m.precedence ≤ l.precedence := by
      rw [inner.eq] at looser
      cases left with
      | nil => exact looser m rfl
      | cons n left => exact Nat.le_trans (inner.notLooser n List.mem_cons_self) (looser n rfl)
    -- What stands before the cut of `more` starts as `more` does, so the join goes on there.
    have looser' : ∀ n ∈ left.head?, n.precedence ≤ l.precedence := by
      intro n mem
      apply looser
      rw [inner.eq, List.head?_append, mem]
      rfl
    have whole : Cut (l :: tight ++ more) (l :: tight ++ left) m right := by
      refine ⟨by rw [inner.eq, List.append_assoc], ?_, inner.tighter⟩
      intro n mem
      rcases List.mem_append.mp mem with here | mem
      · rcases List.mem_cons.mp here with rfl | here
        · exact lowest
        · exact Nat.le_trans lowest (Nat.le_of_lt (tighter n here))
      · exact inner.notLooser n mem
    rw [whole.conventional_eq, inner.conventional_eq, conventional_join first tighter looser']
termination_by more.length

/-! ## Tight and loose links -/

def tight (least : Nat) (links : List Link) : List Link :=
  links.takeWhile (least ≤ ·.precedence)

def loose (least : Nat) (links : List Link) : List Link :=
  links.dropWhile (least ≤ ·.precedence)

@[simp] theorem tight_append_loose (least : Nat) (links : List Link) :
    tight least links ++ loose least links = links :=
  List.takeWhile_append_dropWhile

@[simp] theorem tight_zero (links : List Link) : tight 0 links = links := by
  simp [tight]

@[simp] theorem loose_zero (links : List Link) : loose 0 links = [] := by
  simp [loose]

theorem tight_eq_self {least : Nat} {links : List Link} (h : ∀ l ∈ links, least ≤ l.precedence) :
    tight least links = links :=
  List.takeWhile_eq_self_iff.mpr (by simpa using h)

theorem loose_eq_nil {least : Nat} {links : List Link} (h : ∀ l ∈ links, least ≤ l.precedence) :
    loose least links = [] :=
  List.dropWhile_eq_nil_iff.mpr (by simpa using h)

theorem le_of_mem_tight {least : Nat} {links : List Link} {l : Link} (h : l ∈ tight least links) :
    least ≤ l.precedence := by
  simpa using List.mem_takeWhile_imp h

theorem lt_of_head_loose {least : Nat} {links : List Link} {l : Link}
    (h : l ∈ (loose least links).head?) : l.precedence < least := by
  have not := List.head?_dropWhile_not (fun l : Link => decide (least ≤ l.precedence)) links
  unfold loose at h
  rw [h] at not
  simpa using not

theorem tight_cons {least : Nat} {l : Link} (links : List Link) (h : least ≤ l.precedence) :
    tight least (l :: links) = l :: tight least links :=
  List.takeWhile_cons_of_pos (by simpa using h)

theorem loose_cons {least : Nat} {l : Link} (links : List Link) (h : least ≤ l.precedence) :
    loose least (l :: links) = loose least links :=
  List.dropWhile_cons_of_pos (by simpa using h)

theorem tight_cons_of_lt {least : Nat} {l : Link} (links : List Link) (h : l.precedence < least) :
    tight least (l :: links) = [] :=
  List.takeWhile_cons_of_neg (by simpa using h)

theorem loose_cons_of_lt {least : Nat} {l : Link} (links : List Link) (h : l.precedence < least) :
    loose least (l :: links) = l :: links :=
  List.dropWhile_cons_of_neg (by simpa using h)

theorem tight_eq_append {least bound : Nat} (le : least ≤ bound) (links : List Link) :
    tight least links = tight bound links ++ tight least (loose bound links) := by
  have all : ∀ l ∈ tight bound links, decide (least ≤ l.precedence) = true := by
    intro l mem
    exact decide_eq_true (Nat.le_trans le (le_of_mem_tight mem))
  conv => lhs; rw [← tight_append_loose bound links]
  exact List.takeWhile_append_of_pos all

theorem loose_eq_loose {least bound : Nat} (le : least ≤ bound) (links : List Link) :
    loose least links = loose least (loose bound links) := by
  have all : ∀ l ∈ tight bound links, decide (least ≤ l.precedence) = true := by
    intro l mem
    exact decide_eq_true (Nat.le_trans le (le_of_mem_tight mem))
  conv => lhs; rw [← tight_append_loose bound links]
  exact List.dropWhile_append_of_pos all

/-- Taking the tighter links behind an operator first, and then going on, gives the tree of the whole
chain. -/
theorem conventional_climb (first : Expr) {least : Nat} {l : Link} (links : List Link)
    (h : least ≤ l.precedence) :
    conventional first (tight least (l :: links)) =
      conventional (.binary l.op first (conventional l.operand (tight (l.precedence + 1) links)))
        (tight least (loose (l.precedence + 1) links)) := by
  rw [tight_cons links h, tight_eq_append (Nat.le_succ_of_le h) links, ← List.cons_append]
  apply conventional_join
  · intro m mem
    exact le_of_mem_tight mem
  · intro m mem
    have inside : m ∈ (loose (l.precedence + 1) links).head? := by
      unfold tight at mem
      rw [List.head?_takeWhile] at mem
      exact (Option.filter_eq_some_iff.mp mem).1
    exact Nat.le_of_lt_succ (lt_of_head_loose inside)

end Kaleidoscope
