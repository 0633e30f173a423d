/-!
# Control sequences

Text as it reads without a terminal. A control sequence starts with an escape character; what follows
tells its kind and where it ends, and none of it is shown. Outside of sequences every character is shown
but the controls, and of these tab, line feed, form feed and carriage return are.

Those four are also shown within a sequence, unless it is one that carries a string. They pause it: text
is shown up to the next control character, and there the sequence goes on. A character beyond ASCII in
the text of a pause ends the sequence.

The rules are those of the filter that the program's error messages go through when they are not shown on a
terminal. The filter is another library's; its rules are written down here for the messages of
`CommandLine`, and no result rests on them.
-/

namespace ExprLang

/-- How far a control sequence has been read. -/
inductive ControlSequence
  /-- The escape. -/
  | escape
  /-- Marks that stand before the one character of a short sequence. -/
  | marks
  /-- The parameters of a function. -/
  | parameters
  /-- A command to the operating system. -/
  | command
  /-- The start of a message to the device. -/
  | device
  /-- The parameters of a message to the device. -/
  | deviceParameters
  /-- The marks of a message to the device. -/
  | deviceMarks
  /-- A string, of a message or on its own. -/
  | string
deriving DecidableEq

namespace ControlSequence

/-- The controls that are shown. -/
def isLayout (c : Char) : Bool := c == '\t' || c == '\n' || c == '\x0c' || c == '\r'

/-- The characters that are no controls. -/
def isGraphic (c : Char) : Bool := decide (' ' ≤ c) && c != '\x7f'

/-- A character between two others. -/
def isWithin (first last c : Char) : Bool := decide (first ≤ c) && decide (c ≤ last)

/-- A sequence that carries a string hides all of it. -/
def hidesLayout : ControlSequence → Bool
  | escape | marks | parameters => false
  | command | device | deviceParameters | deviceMarks | string => true

/-- A character is shown at a place, which is within a sequence or outside of all. -/
def shows (place : Option ControlSequence) (c : Char) : Bool :=
  match place with
  | none => isGraphic c || isLayout c
  | some s => !s.hidesLayout && isLayout c

/-- The kind of a sequence is told by the first character after the escape. -/
def start (c : Char) : Option ControlSequence :=
  if c = '[' then some parameters
  else if c = ']' then some command
  else if c = 'P' then some device
  else if c = 'X' ∨ c = '^' ∨ c = '_' then some string
  else if isWithin ' ' '/' c then some marks
  else if isWithin '0' '~' c then none
  else some escape

/-- The byte that ends a string ends it within the encoding of a character too. -/
def endsString (c : Char) : Bool := (String.utf8EncodeChar c).contains 0x9c

/-- The place after a character that is not shown. Escape starts a sequence at every place, and cancel
and substitute end it. -/
def next (place : Option ControlSequence) (c : Char) : Option ControlSequence :=
  if c = '\x1b' then some escape
  else if c = '\x18' ∨ c = '\x1a' then none
  else
    match place with
    | none => none
    | some escape => start c
    | some marks => if isWithin '0' '~' c then none else place
    | some parameters => if isWithin '@' '~' c then none else place
    | some command => if c = '\x07' then none else place
    | some device =>
        if isWithin ' ' '/' c then some deviceMarks
        else if isWithin '0' '?' c then some deviceParameters
        else if isWithin '@' '~' c then some string
        else place
    | some deviceParameters =>
        if isWithin ' ' '/' c then some deviceMarks
        else if isWithin '<' '~' c then some string
        else place
    | some deviceMarks => if isWithin '0' '~' c then some string else place
    | some string => if endsString c then none else place

/-- The characters that are shown from a place on, where the sequence may be paused. -/
def visibleFrom (place : Option ControlSequence) (paused : Bool) : List Char → List Char
  | [] => []
  | c :: cs =>
      if shows (if paused then none else place) c then
        c :: visibleFrom (if c ≤ '\x7f' then place else none) true cs
      else visibleFrom (next place c) false cs

end ControlSequence

/-- The text that is shown of a text. -/
def visibleText (s : String) : String :=
  String.ofList (ControlSequence.visibleFrom none false s.toList)

end ExprLang
