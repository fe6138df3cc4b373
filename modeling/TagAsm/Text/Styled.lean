/-!
# Styled text

Text for a terminal: a style is switched on before the text and everything is switched off after it. Styles nest, so
whatever switches everything off inside a styled text is followed by the outer style once more.
-/

namespace TagAsm

/-- The colours that texts are shown in. -/
inductive Color where
  | red
  | green
  | yellow
  | blue
  | magenta
  | cyan
  | white
  | brightRed
  deriving DecidableEq, Repr

/-- The number that selects a colour. -/
def Color.code : Color → String
  | .red => "31"
  | .green => "32"
  | .yellow => "33"
  | .blue => "34"
  | .magenta => "35"
  | .cyan => "36"
  | .white => "37"
  | .brightRed => "91"

/-- How a text is shown. -/
structure Style where
  bold : Bool
  color : Option Color
  deriving DecidableEq, Repr

namespace Style

/-- A colour and nothing else. -/
def plain (color : Color) : Style := ⟨false, some color⟩

/-- A colour in bold. -/
def strong (color : Color) : Style := ⟨true, some color⟩

/-- Bold in the colour of the surrounding text. -/
def bolded : Style := ⟨true, none⟩

/-- The numbers that select a style: bold first, then the colour. -/
def codes (style : Style) : List String :=
  (if style.bold then ["1"] else []) ++ (style.color.map Color.code).toList

/-- The sequence that switches a style on. -/
def opening (style : Style) : String := "\x1b[" ++ ";".intercalate style.codes ++ "m"

/-- The sequence that switches every style off. -/
def closing : String := "\x1b[0m"

/-- Repeats `opening` after everything that switches all styles off. -/
def reopen (opening : List Char) : List Char → List Char
  | '\x1b' :: '[' :: '0' :: 'm' :: rest => '\x1b' :: '[' :: '0' :: 'm' :: (opening ++ reopen opening rest)
  | c :: rest => c :: reopen opening rest
  | [] => []

/-- The text in this style, or the bare text if colours are off. -/
def paint (style : Style) (colored : Bool) (text : String) : String :=
  if colored then
    style.opening ++ String.ofList (reopen style.opening.toList text.toList) ++ closing
  else
    text

end Style

/-- The text in one colour, or the bare text if colours are off. -/
def Color.paint (color : Color) (colored : Bool) (text : String) : String := (Style.plain color).paint colored text

end TagAsm
