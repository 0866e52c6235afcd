import CilPolicy.Source.Token
import CilPolicy.Source.Tree
import CilPolicy.Text.Number
import CilPolicy.Word

/-!
From tokens to trees. The parser is a fold over the tokens: a stack of open lists,
one for each open parenthesis and line mark above the list of the file. When a
token is refused, the open lists are closed as they are and stay in the tree.
-/

namespace CilPolicy

/-- Why a text is not a sequence of lists. -/
inductive ParseFault where
  | tooDeep
  | unmatchedClose
  | strayName
  | unclosedList
  | unclosedMark
  | invalidToken (text : String)
  | badMark
  | unmatchedMarkEnd
  | tooManyMarks
deriving DecidableEq, Repr

/-- Greatest number of open parentheses, and of open line marks. -/
def maxDepth : Nat := 4096

def ParseFault.message : ParseFault → String
  | tooDeep => s!"Number of open parenthesis exceeds limit of {maxDepth}"
  | unmatchedClose => "Close parenthesis without matching open"
  | strayName => "Symbol not inside parenthesis"
  | unclosedList => "Open parenthesis without matching close"
  | unclosedMark => "High-level language line marker start without close"
  | invalidToken text => s!"Invalid token '{text}'"
  | badMark => "Invalid line mark syntax"
  | unmatchedMarkEnd => "Line mark end without start"
  | tooManyMarks => s!"Number of active line marks exceeds limit of {maxDepth}"

namespace Source

/-- A list that is still open. -/
structure OpenList where
  position : Position
  /-- The scope of the items to come. -/
  inside : Scope
  /-- The items so far, the last one first. -/
  reversed : List Node

def OpenList.add (l : OpenList) (n : Node) : OpenList :=
  { l with reversed := n :: l.reversed }

def OpenList.close (l : OpenList) : Node :=
  .list l.position l.reversed.reverse

/-- The line counter and whether lines are being expanded, outside an open mark. -/
structure Suspended where
  offset : Nat
  expanding : Bool
deriving DecidableEq, Repr

/-- The part of a line mark that is due next. -/
inductive MarkPart where
  | word
  | line (expands : Bool)
  | path (expands : Bool) (line : Nat)
  | lineEnd
deriving DecidableEq, Repr

/-- The parser between two tokens. -/
structure State where
  current : OpenList
  /-- The open lists around the current one, innermost first. -/
  enclosing : List OpenList
  parens : Nat := 0
  /-- Counts the lines that line marks tell apart. -/
  offset : Nat := 1
  expanding : Bool := false
  suspended : List Suspended := []
  /-- The part of a line mark that is due, if one has begun. -/
  mark : Option MarkPart := none

/-- A refusal, the line it is reported at and the parser as it was left. -/
structure Refusal where
  fault : ParseFault
  line : Nat
  state : State

namespace State

/-- The state in which a file begins: its list holds the four leaves that describe it. -/
def start (path : String) : State :=
  let leaf (value : String) : Node := .leaf {} value
  { current := {
      position := {}
      inside := ⟨some path, []⟩
      reversed := [leaf path, leaf "1", leaf "cil", leaf Node.sourceTag] }
    enclosing := [] }

/-- The position of a node read now. -/
def position (s : State) (line : Nat) : Position :=
  ⟨s.current.inside, line, s.offset⟩

def addLeaf (s : State) (line : Nat) (value : String) : State :=
  { s with current := s.current.add (.leaf (s.position line) value) }

/-- Opens a list inside the current one. -/
def openList (s : State) (line : Nat) : State :=
  { s with
    current := ⟨s.position line, s.current.inside, []⟩
    enclosing := s.current :: s.enclosing }

/-- Closes the current list, unless it is the file's. -/
def ascend (s : State) : State :=
  match s.enclosing with
  | [] => s
  | outer :: rest => { s with current := outer.add s.current.close, enclosing := rest }

/-- Counts a line, unless all lines here come from one. -/
def countLine (s : State) : State :=
  if s.expanding then s else { s with offset := s.offset + 1 }

/-- The tree of the file, with every open list closed. -/
def close (s : State) : Node :=
  s.enclosing.foldl (fun inner outer => (outer.add inner).close) s.current.close

/-- Begins the region of a line mark. -/
def beginMark (s : State) (line : Nat) (word : String) (expands : Bool) : State :=
  let s := { s with suspended := ⟨s.offset, s.expanding⟩ :: s.suspended }
  let s := ((s.openList line).addLeaf line Node.sourceTag).addLeaf line word
  { s with mark := some (.line expands) }

/-- Opens the scope of a line mark that has been read to its path. -/
def enterMark (s : State) (expands : Bool) (line : Nat) (path : String) : State :=
  let mark : LineMark := ⟨expands, path, line, s.current.position.offset⟩
  let outer := s.current.position.scope
  { s with
    current := { s.current with inside := { outer with marks := mark :: outer.marks } }
    expanding := expands
    mark := some .lineEnd }

/-- Ends the region of a line mark; the lines of a region that is not expanded go on
counting outside it. -/
def endMark (s : State) (outside : Suspended) (rest : List Suspended) : State :=
  let offset :=
    if outside.expanding then outside.offset
    else if s.expanding then s.offset + 1
    else s.offset
  { s.ascend with
    offset := offset
    expanding := outside.expanding
    suspended := rest
    mark := some .lineEnd }

end State

/-- The value of a name: a quoted one loses its quotes. -/
def nameText (t : Token) : String :=
  match t.kind with
  | .quoted => String.ofList (t.text.toList.drop 1).dropLast
  | _ => t.text

/-- Takes a token of a line mark. -/
def State.stepMark (s : State) (part : MarkPart) (t : Token) : Except Refusal State :=
  let bad : Except Refusal State := .error ⟨.badMark, t.line, s⟩
  match part with
  | .word =>
    if t.kind != .symbol then bad
    else if t.text == "lme" then
      match s.suspended with
      | [] => .error ⟨.unmatchedMarkEnd, t.line, s⟩
      | outside :: rest => .ok (s.endMark outside rest)
    else if t.text == "lms" || t.text == "lmx" then
      if maxDepth ≤ s.suspended.length then .error ⟨.tooManyMarks, t.line, s⟩
      else .ok (s.beginMark t.line t.text (t.text == "lmx"))
    else bad
  | .line expands =>
    match t.kind, Text.decimal? wordBound t.text with
    | .symbol, some line => .ok { s.addLeaf t.line t.text with mark := some (.path expands line) }
    | _, _ => bad
  | .path expands line =>
    if t.kind == .symbol || t.kind == .quoted then
      let path := nameText t
      .ok ((s.addLeaf t.line path).enterMark expands line path)
    else bad
  | .lineEnd =>
    if t.kind == .newline then .ok { s.countLine with mark := none } else bad

/-- Takes a token outside line marks. -/
def State.stepPlain (s : State) (t : Token) : Except Refusal State :=
  let refuse (fault : ParseFault) : Except Refusal State := .error ⟨fault, t.line, s⟩
  match t.kind with
  | .lineMark => .ok { s with mark := some .word }
  | .opening =>
    if maxDepth ≤ s.parens then refuse .tooDeep
    else .ok { s.openList t.line with parens := s.parens + 1 }
  | .closing =>
    if s.parens = 0 then refuse .unmatchedClose
    else .ok { s.ascend with parens := s.parens - 1 }
  | .symbol | .quoted =>
    if s.parens = 0 then refuse .strayName else .ok (s.addLeaf t.line (nameText t))
  | .newline => .ok s.countLine
  | .comment => .ok s
  | .finish =>
    if 0 < s.parens then refuse .unclosedList
    else if !s.suspended.isEmpty then refuse .unclosedMark
    else .ok s
  | .unknown => refuse (.invalidToken t.text)

def State.step (s : State) (t : Token) : Except Refusal State :=
  match s.mark with
  | some part => s.stepMark part t
  | none => s.stepPlain t

/-- Parses the tokens of a file. -/
def parseTokens (path : String) (tokens : List Token) : Except Refusal State :=
  tokens.foldlM State.step (State.start path)

end Source

namespace ParseTree

/-- Adds the tree of a file, as far as it could be read. -/
def add (t : ParseTree) (path source : String) : ParseTree × Option (ParseFault × Nat) :=
  match Source.parseTokens path (Token.tokenize source) with
  | .ok s => (⟨t.files ++ [s.close]⟩, none)
  | .error r => (⟨t.files ++ [r.state.close]⟩, some (r.fault, r.line))

end ParseTree

end CilPolicy
