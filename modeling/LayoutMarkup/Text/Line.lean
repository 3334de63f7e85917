import LayoutMarkup.Text.Bytes

/-!
# Text/Line — indented output

Output is put together as a list of lines, each with its depth.  What one level of depth looks like
is settled only when the lines are written out.
-/

namespace LayoutMarkup

/-- A line of output.  Its text may go on over several lines of its own. -/
inductive Line where
  /-- A line with nothing on it, not even indentation. -/
  | blank
  | indented (depth : Nat) (text : Bytes)
  deriving DecidableEq, Repr

namespace Line

/-- The indentation at a depth, given that of one level. -/
def pad (unit : Bytes) (depth : Nat) : Bytes := (List.replicate depth unit).flatten

/-- A line written out, up to its line feed. -/
def render (unit : Bytes) : Line → Bytes
  | blank => Bytes.utf8 "\n"
  | indented depth text => pad unit depth ++ text ++ Bytes.utf8 "\n"

/-- Lines written out. -/
def renderAll (unit : Bytes) (lines : List Line) : Bytes := lines.flatMap (render unit)

@[simp] theorem renderAll_nil (unit : Bytes) : renderAll unit [] = [] := rfl

@[simp] theorem renderAll_cons (unit : Bytes) (l : Line) (lines : List Line) :
    renderAll unit (l :: lines) = l.render unit ++ renderAll unit lines := rfl

@[simp] theorem renderAll_append (unit : Bytes) (ls ms : List Line) :
    renderAll unit (ls ++ ms) = renderAll unit ls ++ renderAll unit ms := List.flatMap_append

end Line

end LayoutMarkup
