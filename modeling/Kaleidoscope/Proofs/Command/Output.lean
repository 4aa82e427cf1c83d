import Kaleidoscope.Command
import Kaleidoscope.Proofs.File.Tree

/-!
# Where commands write

A command writes its output to a file, which it makes with the directories above it, or prints it. One
of the two takes the whole text, and the other nothing.
-/

namespace Kaleidoscope

namespace FileTree

inductive Provides (t : FileTree) (path : String) (t' : FileTree) : Prop
  | here (unnamed : ∀ up, (Path.ofText path).parent? = some up → up.toText = "")
    (made : t.createFile path = .ok t')
  | below {up : Path} {above : FileTree} (parent : (Path.ofText path).parent? = some up)
    (named : up.toText ≠ "") (directories : t.makeDirectories (.ofText up.toText) = (.ok (), above))
    (made : above.createFile path = .ok t')

/-- The second tree has a file with the content at the end of `path`, and otherwise what the first has
and maybe directories that were missing there. -/
def Stores (t : FileTree) (path : String) (content : ByteArray) (t' : FileTree) : Prop :=
  ∃ place, t'.find path = .ok (place, .file content) ∧
    ∀ names, names ≠ place → t'.entry? names = t.entry? names ∨
      t.entry? names = none ∧ t'.entry? names = some .directory

theorem Provides.stores {t t' : FileTree} {path : String} (h : t.Provides path t')
    (content : ByteArray) : t.Stores path content (t'.writeFile path content) := by
  cases h with
  | here unnamed made =>
    obtain ⟨place, found, others⟩ := writeFile_of_createFile made content
    exact ⟨place, found, fun names ne => .inl (others names ne)⟩
  | @below up above parent named directories made =>
    obtain ⟨place, found, others⟩ := writeFile_of_createFile made content
    have adds := t.adds_makeDirectories (.ofText up.toText)
    rw [directories] at adds
    refine ⟨place, found, fun names ne => ?_⟩
    rw [others names ne]
    exact adds names

def Takes (t : FileTree) : Option String → FileTree → Prop
  | none, t' => t' = t
  | some path, t' => t.Provides path t'

/-! ### A tree of one file -/

def single (content : ByteArray) : FileTree := ⟨[], [(["a"], .file content)]⟩

theorem lookup_single (content : ByteArray) : (single content).lookup "a" = .ok (.file content) := by
  unfold lookup find
  rw [Path.ofText_letter "a" (by decide)]
  rfl

def nested (content : ByteArray) : FileTree :=
  ⟨[], [(["a"], .file content), (["b"], .directory), (["b", "c"], .file .empty)]⟩

theorem provides_nested (content : ByteArray) :
    (single content).Provides "b/c" (nested content) := by
  let above : FileTree := ⟨[], [(["a"], .file content), (["b"], .directory)]⟩
  have parent : (Path.ofText "b/c").parent? = some ⟨["b"]⟩ := by
    rw [Path.ofText_nested]
    rfl
  have directory : (single content).makeDirectory "b" = .ok above := by
    unfold makeDirectory lastStep
    rw [Path.ofText_letter "b" (by decide)]
    rfl
  have directories : (single content).makeDirectories (.ofText "b") = (.ok (), above) := by
    have text : Path.toText ⟨["b"]⟩ = "b" := rfl
    rw [Path.ofText_letter "b" (by decide), makeDirectories, text, directory]
  have made : above.createFile "b/c" = .ok (nested content) := by
    unfold createFile fileTarget lastStep
    rw [Path.ofText_nested]
    rfl
  exact .below parent (by decide) directories made

theorem sameFile_nested (content : ByteArray) :
    (nested content).sameFile "a" "b/c" = false := by
  unfold sameFile find
  rw [Path.ofText_nested, Path.ofText_letter "a" (by decide)]
  rfl

end FileTree

namespace World

def Shows (w : World) (t : FileTree) (text : String) : Option String → Prop
  | none => w.printed = text ∧ w.tree = t
  | some path => w.printed = "" ∧ t.Stores path text.toUTF8 w.tree

def wrote (w : World) (text : String) : Option String → World
  | none => { w with printed := w.printed ++ text }
  | some path => { w with tree := w.tree.writeFile path text.toUTF8 }

def exit (w : World) : Except Failure Unit → UInt32 × World
  | .ok () => (0, w)
  | .error f => (1, { w with complaints := w.complaints ++ f.toText })

@[simp] theorem complaints_wrote (w : World) (text : String) (output : Option String) :
    (w.wrote text output).complaints = w.complaints := by
  cases output <;> rfl

theorem Shows.exit {w : World} {t : FileTree} {text : String} {output : Option String}
    (h : w.Shows t text output) (result : Except Failure Unit) :
    (w.exit result).2.Shows t text output := by
  cases result <;> cases output <;> exact h

theorem shows_wrote {t t' : FileTree} {output : Option String} (takes : t.Takes output t')
    (text complaints : String) :
    (World.wrote ⟨t', "", complaints⟩ text output).Shows t text output := by
  cases output with
  | none => exact ⟨String.empty_append, takes⟩
  | some path => exact ⟨rfl, takes.stores text.toUTF8⟩

end World

namespace Command

def runOn (c : Command) (t : FileTree) : UInt32 × World :=
  (c.run : StateM World UInt32).run (.ofTree t)

variable {t t' : FileTree} {path : String} {output : Option String} {w : World}

/-! ## The host -/

theorem run_bind {α β : Type} {x : StateM World α} {f : α → StateM World β} {w w' : World} {a : α}
    (ran : x.run w = pure (a, w')) : (x >>= f).run w = (f a).run w' := by
  rw [StateT.run_bind, ran, pure_bind]

theorem run_createFile (made : w.tree.createFile path = .ok t') :
    (Host.createFile path : StateM World (Except SystemError Unit)).run w =
      pure (.ok (), { w with tree := t' }) := by
  simp only [Host.createFile, StateT.run_bind, StateT.run_get, pure_bind, made]
  rfl

theorem run_makeDirectories (up : Path) (w : World) :
    (Host.makeDirectories up : StateM World (Except SystemError Unit)).run w =
      pure ((w.tree.makeDirectories up).1, { w with tree := (w.tree.makeDirectories up).2 }) := rfl

theorem run_createOutput (takes : w.tree.Takes output t') :
    (createOutput output : StateM World (Except Failure Unit)).run w =
      pure (.ok (), { w with tree := t' }) := by
  cases output with
  | none =>
    cases takes
    rfl
  | some path =>
    unfold createOutput
    cases takes with
    | here unnamed made =>
      have directory : ((Path.ofText path).parent?.map (·.toText)).getD "" = "" := by
        cases parent : (Path.ofText path).parent? with
        | none => rfl
        | some up => exact unnamed up parent
      dsimp only
      simp only [directory, pure_bind]
      rw [if_pos (show "".isEmpty = true from rfl), run_bind (run_createFile made)]
      rfl
    | @below up above parent named directories made =>
      have directory : ((Path.ofText path).parent?.map (·.toText)).getD "" = up.toText := by
        rw [parent]
        rfl
      dsimp only
      simp only [directory]
      rw [if_neg (by simpa using named), run_bind (run_makeDirectories _ w), directories]
      dsimp only
      rw [run_bind (run_createFile (w := { w with tree := above }) made)]
      rfl

theorem run_write (text : String) (output : Option String) (w : World) :
    (write output text : StateM World Unit).run w = pure ((), w.wrote text output) := by
  cases output <;> rfl

def work : Command → StateM World (Except Failure Unit)
  | lex file output => lexFile file output
  | parse file output => parseFile file output

theorem runOn_of_work {c : Command} {t : FileTree} {result : Except Failure Unit} {w : World}
    (ran : c.work.run (.ofTree t) = pure (result, w)) : c.runOn t = w.exit result := by
  have run : c.runOn t = StateT.run (m := Id) (do
      match ← c.work with
      | .ok () => pure 0
      | .error f =>
        Host.complain f.toText
        pure 1) (.ofTree t) := by
    cases c <;> rfl
  rw [run, run_bind ran]
  cases result <;> rfl

end Command

end Kaleidoscope
