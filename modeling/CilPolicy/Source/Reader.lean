import CilPolicy.Source.Arena
import CilPolicy.Source.Parse

/-!
A reader that links the nodes of a file into an arena while it goes through the tokens.
In each round of its loop it takes a token, and with it what belongs to the token: the
line break after a comment, all of a line mark. What has been linked when a token is
refused stays in the arena.
-/

namespace CilPolicy

open Source (Suspended nameText)

/-- The reader between two rounds. -/
structure Reader where
  tree : LinkedTree
  /-- The list in which nodes are linked. -/
  current : Nat
  parens : Nat := 0
  offset : Nat := 1
  expanding : Bool := false
  suspended : List Suspended := []
deriving DecidableEq, Repr

/-- Why a reader goes no further: a number led nowhere, or the text is refused, and the
tree is left as it is. -/
inductive Halt where
  | aborted
  | refused (fault : ParseFault) (line : Nat) (left : LinkedTree)
deriving DecidableEq, Repr

/-- What a round leaves: the reader at the start of the next round with the tokens that
it has not taken, or the reader at the end of the text. -/
inductive Round where
  | next (r : Reader) (rest : List Token)
  | done (r : Reader)
deriving DecidableEq, Repr

/-- Takes the next token. After the last one the end of the text is met again. -/
def nextToken : List Token → Token × List Token
  | [] => (⟨.finish, "", 0⟩, [])
  | t :: rest => (t, rest)

/-- A result that is there, if no number has led nowhere. -/
def Halt.unlessAborted {α : Type} : Option α → Except Halt α
  | some a => .ok a
  | none => .error .aborted

namespace Reader

open Halt

def refuse {α : Type} (r : Reader) (fault : ParseFault) (line : Nat) : Except Halt α :=
  .error (.refused fault line r.tree)

def addLeaf (r : Reader) (line : Nat) (value : String) : Except Halt Reader := do
  let (_, tree) ← unlessAborted (r.tree.addNode? r.current (some value) line r.offset)
  return { r with tree }

/-- Links a list, in which nodes are linked from now on. -/
def openList (r : Reader) (line : Nat) : Except Halt Reader := do
  let (list, tree) ← unlessAborted (r.tree.addNode? r.current none line r.offset)
  return { r with tree, current := list }

def openFrame (r : Reader) (kind : FrameKind) (path : String) (line : Nat) : Except Halt Reader := do
  let tree ← unlessAborted (r.tree.openFrame? r.current kind path line)
  return { r with tree }

/-- The reader at the start of the first round. It has linked the list of the file with the leaves that
describe it; none of them stands in a line. -/
def start (t : LinkedTree) (path : String) : Except Halt Reader := do
  let r ← openList { tree := t, current := 0, offset := 0 } 0
  let r ← r.addLeaf 0 Node.sourceTag
  let r ← r.addLeaf 0 "cil"
  let r ← r.addLeaf 0 "1"
  let r ← r.addLeaf 0 path
  let r ← r.openFrame .file path 1
  return { r with offset := 1 }

/-- Goes on in the list around the current one, if there is one. -/
def ascend (r : Reader) : Except Halt Reader := do
  let cell ← unlessAborted r.tree.arena.cells[r.current]?
  return { r with current := cell.parent.getD r.current }

/-- Counts a line, unless all lines here come from one. -/
def countLine (r : Reader) : Reader :=
  if r.expanding then r else { r with offset := r.offset + 1 }

def finish (r : Reader) (line : Nat) : Except Halt Round :=
  if 0 < r.parens then r.refuse .unclosedList line
  else if !r.suspended.isEmpty then r.refuse .unclosedMark line
  else .ok (.done r)

/-- Ends the region of the innermost line mark. -/
def endMark (r : Reader) (line : Nat) : Except Halt Reader :=
  match r.suspended with
  | [] => r.refuse .unmatchedMarkEnd line
  | outside :: rest =>
    let offset :=
      if outside.expanding then outside.offset
      else if r.expanding then r.offset + 1
      else r.offset
    ascend { r with offset, expanding := outside.expanding, suspended := rest }

/-- Takes the path of a line mark that begins, and opens its frame. -/
def markPath (r : Reader) (kind : FrameKind) (number : Nat) (tokens : List Token) :
    Except Halt (Reader × List Token) :=
  let (path, tokens) := nextToken tokens
  if path.kind == .symbol || path.kind == .quoted then do
    let r ← r.addLeaf path.line (nameText path)
    let r ← r.openFrame kind (nameText path) number
    return ({ r with expanding := kind == .line }, tokens)
  else r.refuse .badMark path.line

/-- Takes the line of a line mark that begins, and then its path. -/
def markSource (r : Reader) (kind : FrameKind) (tokens : List Token) : Except Halt (Reader × List Token) :=
  let (line, tokens) := nextToken tokens
  match line.kind, Text.decimal? wordBound line.text with
  | .symbol, some number => do
    let r ← r.addLeaf line.line line.text
    r.markPath kind number tokens
  | _, _ => r.refuse .badMark line.line

/-- Begins the region of a line mark: links its list, and takes its line and path. -/
def beginMark (r : Reader) (kind : FrameKind) (word : Token) (tokens : List Token) :
    Except Halt (Reader × List Token) := do
  let r := { r with suspended := ⟨r.offset, r.expanding⟩ :: r.suspended }
  if maxDepth < r.suspended.length then r.refuse .tooManyMarks word.line
  else
    let r ← r.openList word.line
    let r ← r.addLeaf word.line Node.sourceTag
    let r ← r.addLeaf word.line word.text
    r.markSource kind tokens

/-- Takes the word of a line mark and what belongs to it. -/
def markWord (r : Reader) (tokens : List Token) : Except Halt (Reader × List Token) :=
  let (word, tokens) := nextToken tokens
  if word.kind != .symbol then r.refuse .badMark word.line
  else if word.text == "lme" then do
    let r ← r.endMark word.line
    return (r, tokens)
  else if word.text == "lms" then r.beginMark .lines word tokens
  else if word.text == "lmx" then r.beginMark .line word tokens
  else r.refuse .badMark word.line

/-- Takes the end of the line of a line mark. -/
def markLineEnd (r : Reader) (tokens : List Token) : Except Halt (Reader × List Token) :=
  let (newline, tokens) := nextToken tokens
  if newline.kind == .newline then .ok (r.countLine, tokens) else r.refuse .badMark newline.line

/-- Takes what follows the first token of a line mark. -/
def lineMark (r : Reader) (tokens : List Token) : Except Halt (Reader × List Token) := do
  let (r, tokens) ← r.markWord tokens
  r.markLineEnd tokens

/-- The body of the loop. -/
def round (r : Reader) (tokens : List Token) : Except Halt Round :=
  let (t, rest) := nextToken tokens
  match t.kind with
  | .lineMark => do
    let (r, rest) ← r.lineMark rest
    return .next r rest
  | .opening =>
    if maxDepth < r.parens + 1 then r.refuse .tooDeep t.line
    else do
      let r ← openList { r with parens := r.parens + 1 } t.line
      return .next r rest
  | .closing =>
    if r.parens = 0 then r.refuse .unmatchedClose t.line
    else do
      let r ← ascend { r with parens := r.parens - 1 }
      return .next r rest
  | .symbol | .quoted =>
    if r.parens = 0 then r.refuse .strayName t.line
    else do
      let r ← r.addLeaf t.line (nameText t)
      return .next r rest
  | .newline => .ok (.next r.countLine rest)
  | .comment =>
    let (last, rest) := nextToken (rest.dropWhile fun x => !(x.kind == .newline || x.kind == .finish))
    if last.kind == .finish then r.countLine.finish last.line
    else .ok (.next r.countLine rest)
  | .finish => r.finish t.line
  | .unknown => r.refuse (.invalidToken t.text) t.line

section Rest

variable {r r' : Reader} {kind : FrameKind} {word : Token} {tokens rest : List Token}

theorem nextToken_rest_le (tokens : List Token) : (nextToken tokens).2.length ≤ tokens.length := by
  cases tokens <;> simp [nextToken]

theorem nextToken_rest_lt (more : (nextToken tokens).1.kind ≠ .finish) :
    (nextToken tokens).2.length < tokens.length := by
  cases tokens with
  | nil => exact absurd rfl more
  | cons => simp [nextToken]

theorem markPath_rest_le {number : Nat} (run : r.markPath kind number tokens = .ok (r', rest)) :
    rest.length ≤ tokens.length := by
  simp only [markPath, refuse, bind, Except.bind, pure, Except.pure] at run
  repeat' split at run
  all_goals cases run
  exact nextToken_rest_le tokens

theorem markSource_rest_le (run : r.markSource kind tokens = .ok (r', rest)) : rest.length ≤ tokens.length := by
  simp only [markSource, refuse, bind, Except.bind] at run
  repeat' split at run
  all_goals try cases run
  exact Nat.le_trans (markPath_rest_le run) (nextToken_rest_le tokens)

theorem beginMark_rest_le (run : r.beginMark kind word tokens = .ok (r', rest)) : rest.length ≤ tokens.length := by
  simp only [beginMark, refuse, bind, Except.bind] at run
  repeat' split at run
  all_goals try cases run
  exact markSource_rest_le run

theorem markWord_rest_le (run : r.markWord tokens = .ok (r', rest)) : rest.length ≤ tokens.length := by
  have first := nextToken_rest_le tokens
  simp only [markWord, refuse, bind, Except.bind, pure, Except.pure] at run
  split at run
  · cases run
  · split at run
    · split at run <;> cases run
      exact first
    · split at run
      · exact Nat.le_trans (beginMark_rest_le run) first
      · split at run
        · exact Nat.le_trans (beginMark_rest_le run) first
        · cases run

theorem lineMark_rest_le (run : r.lineMark tokens = .ok (r', rest)) : rest.length ≤ tokens.length := by
  simp only [lineMark, markLineEnd, refuse, bind, Except.bind] at run
  split at run
  · cases run
  · rename_i mid word
    split at run <;> cases run
    exact Nat.le_trans (nextToken_rest_le mid.2) (markWord_rest_le word)

theorem finish_ne_next {line : Nat} : r.finish line ≠ .ok (.next r' rest) := by
  rw [finish]
  split
  · simp [refuse]
  · split <;> simp [refuse]

/-- A round takes a token, so fewer are left after it. -/
theorem round_rest_lt (run : r.round tokens = .ok (.next r' rest)) : rest.length < tokens.length := by
  have less : (nextToken tokens).1.kind ≠ .finish := by
    intro kind
    simp only [round, kind] at run
    exact finish_ne_next run
  refine Nat.lt_of_le_of_lt ?_ (nextToken_rest_lt less)
  simp only [round, bind, Except.bind, pure, Except.pure] at run
  split at run
  · split at run <;> cases run
    exact lineMark_rest_le ‹_›
  · repeat' split at run
    all_goals cases run
    exact Nat.le_refl _
  · repeat' split at run
    all_goals cases run
    exact Nat.le_refl _
  · repeat' split at run
    all_goals cases run
    exact Nat.le_refl _
  · repeat' split at run
    all_goals cases run
    exact Nat.le_refl _
  · cases run
    exact Nat.le_refl _
  · split at run
    · exact absurd run finish_ne_next
    · cases run
      exact Nat.le_trans (nextToken_rest_le _) (List.dropWhile_suffix _).length_le
  · exact absurd run finish_ne_next
  · cases run

end Rest

/-- Goes through the tokens round by round. -/
def loop (r : Reader) (tokens : List Token) : Except Halt Reader :=
  match _h : r.round tokens with
  | .error halt => .error halt
  | .ok (.done r) => .ok r
  | .ok (.next r rest) => r.loop rest
termination_by tokens.length
decreasing_by exact round_rest_lt _h

end Reader

namespace LinkedTree

/-- Reads a file into the tree. -/
def read (t : LinkedTree) (path source : String) : Except Halt Reader := do
  let r ← Reader.start t path
  r.loop (Token.tokenize source)

/-- The tree after a file, as far as the file could be read. -/
def add? (t : LinkedTree) (path source : String) : Option (LinkedTree × Option (ParseFault × Nat)) :=
  match t.read path source with
  | .ok r => some (r.tree, none)
  | .error (.refused fault line left) => some (left, some (fault, line))
  | .error .aborted => none

/-- The tree after a sequence of files, accepted or not. -/
def addAll? (files : List (String × String)) : Option LinkedTree :=
  files.foldlM (fun t file => (t.add? file.1 file.2).map Prod.fst) empty

end LinkedTree

end CilPolicy
