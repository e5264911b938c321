/-
Places in a text. Offsets count UTF-8 bytes, columns count characters, and only a line feed ends a
line; lines count from one, columns and offsets from zero.
-/
namespace ObjectAction.Text

/-- A place between two characters of a text. -/
structure Mark where
  offset : Nat
  line : Nat
  column : Nat
  deriving DecidableEq, Repr, Inhabited

namespace Mark

/-- The place before the first character. -/
def start : Mark := ⟨0, 1, 0⟩

/-- The place after `c`, for a `c` that stands at `m`. -/
def after (m : Mark) (c : Char) : Mark :=
  if c = '\n' then ⟨m.offset + c.utf8Size, m.line + 1, 0⟩
  else ⟨m.offset + c.utf8Size, m.line, m.column + 1⟩

/-- The place after all of `cs`, for a `cs` that begins at `m`. -/
def past (m : Mark) (cs : List Char) : Mark :=
  cs.foldl after m

@[simp] theorem past_nil (m : Mark) : m.past [] = m := rfl

@[simp] theorem past_cons (m : Mark) (c : Char) (cs : List Char) :
    m.past (c :: cs) = (m.after c).past cs := rfl

theorem past_append (m : Mark) (cs ds : List Char) : m.past (cs ++ ds) = (m.past cs).past ds :=
  List.foldl_append

end Mark

/-- Drops characters until `n` bytes are gone. -/
def dropBytes : Nat → List Char → List Char
  | _, [] => []
  | n, c :: cs => if n = 0 then c :: cs else dropBytes (n - c.utf8Size) cs

/-- Keeps characters until `n` bytes are kept. -/
def takeBytes : Nat → List Char → List Char
  | _, [] => []
  | n, c :: cs => if n = 0 then [] else c :: takeBytes (n - c.utf8Size) cs

/-- The text from byte offset `start` up to byte offset `stop`. -/
def slice (cs : List Char) (start stop : Nat) : List Char :=
  takeBytes (stop - start) (dropBytes start cs)

end ObjectAction.Text
