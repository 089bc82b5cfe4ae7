import ImportAlias.Text.Basic

/-!
# Styled text

Console output is a list of pieces, some of them with a style. A terminal that
takes colors gets control sequences around each styled piece; any other reader
gets the texts alone.
-/

namespace ImportAlias.Console

/-- A color of the foreground. -/
inductive Color where
  /-- Red, for failures. -/
  | red
  /-- Green, for success. -/
  | green
deriving DecidableEq, Repr

/-- How a piece of text stands out. -/
structure Style where
  /-- Whether it is bold. -/
  bold : Bool
  /-- Whether it is dimmed. -/
  dimmed : Bool
  /-- Its color, if it has one. -/
  color : Option Color
deriving DecidableEq, Repr

/-- A piece of output. -/
inductive Piece where
  /-- Text as it is. -/
  | plain (t : Text)
  /-- Text in a style. -/
  | styled (s : Style) (t : Text)
deriving DecidableEq, Repr

/-! ### Control sequences -/

/-- The control sequence with a parameter. -/
def control (parameter : Text) : Text := '\x1b' :: '[' :: parameter ++ ['m']

/-- The control sequence that ends every style. -/
def reset : Text := control ['0']

/-- The parameter of a color. -/
def Color.parameter : Color → Text
  | .red => ['3', '1']
  | .green => ['3', '2']

/-- The control sequences that begin a style, whatever held before. -/
def Style.begin (s : Style) : Text :=
  reset ++ (if s.bold then control ['1'] else []) ++ (if s.dimmed then control ['2'] else []) ++
    match s.color with
    | some c => control c.parameter
    | none => []

/-! ### Rendering -/

/-- A piece as it is sent out. -/
def Piece.render (color : Bool) : Piece → Text
  | .plain t => t
  | .styled s t => if color then s.begin ++ t ++ reset else t

/-- A list of pieces as it is sent out. -/
def render (color : Bool) (ps : List Piece) : Text := ps.flatMap (Piece.render color)

end ImportAlias.Console
