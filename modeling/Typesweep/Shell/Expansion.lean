import Typesweep.Order
import Typesweep.Shell.Arithmetic
import Typesweep.Shell.Pattern
import Typesweep.Shell.State

/-!
# Expansion

How words become text. What a parameter or a command gives outside of quotes is cut into fields at
blanks, and a field with pattern characters stands for the paths that it matches, if there are any.
Expanding may change the state: it runs commands, and a fallback may assign.

* `expand`: a word as marks, from which fields and text are made.
* `fieldsOf`, `textOf`, `fieldOf`: what becomes of marks.
* `State.words`, `State.text`: the fields of some words, the text of one.
-/

namespace Typesweep.Shell

/-- A piece of an expanded word. -/
inductive Mark
  /-- A character, and whether it was quoted. -/
  | char (c : Char) (quoted : Bool)
  | gap (c : Char)
  /-- A field is here, even if it is empty. -/
  | solid
  deriving DecidableEq, Repr

/-! ## Marks -/

/-- The characters of a quoted text. -/
def quotedMarks (t : Text) : List Mark :=
  t.map fun c => .char c true

/-- The blank characters. -/
def blanks : Text :=
  [' ', '\t', '\n']

/-- The characters of a value outside of quotes. -/
def valueMarks (separators t : Text) : List Mark :=
  t.map fun c => if separators.contains c then .gap c else .char c false

/-- The marks of several values with gaps between them. -/
def spreadMarks (marks : Text → List Mark) : List Text → List Mark
  | [] => []
  | [t] => marks t
  | t :: rest => marks t ++ .gap ' ' :: spreadMarks marks rest

/-- The fields of marks. `open?` is the field that is being read, its last character first. -/
def fieldsFrom (open? : Option Field) : List Mark → List Field
  | [] => (open?.map List.reverse).toList
  | .char c quoted :: rest => fieldsFrom (some ((c, quoted) :: open?.getD [])) rest
  | .solid :: rest => fieldsFrom (some (open?.getD [])) rest
  | .gap c :: rest =>
    if blanks.contains c then
      (open?.map List.reverse).toList ++ fieldsFrom none rest
    else (open?.getD []).reverse :: fieldsFrom none rest

/-- The fields of marks. -/
def fieldsOf (marks : List Mark) : List Field :=
  fieldsFrom none marks

/-- Marks as one field, without cutting. -/
def fieldOf (marks : List Mark) : Field :=
  marks.filterMap fun
    | .char c quoted => some (c, quoted)
    | .gap c => some (c, false)
    | .solid => none

/-- Marks as text, without cutting. -/
def textOf (marks : List Mark) : Text :=
  (fieldOf marks).text

/-! ## Parameters -/

/-- The characters at which values are cut into fields. -/
def State.separators (s : State) : Text :=
  (s.bindings.lookup "IFS".toList).getD blanks

/-- The marks of a parameter. -/
def State.parameterMarks (s : State) (inQuotes : Bool) (name : Text) : List Mark :=
  if name = ['@'] then
    if inQuotes then spreadMarks (fun t => .solid :: quotedMarks t) s.arguments
    else spreadMarks (valueMarks s.separators) s.arguments
  else if name = ['*'] then
    if inQuotes then quotedMarks (Text.joinWith (s.separators.take 1) s.arguments)
    else spreadMarks (valueMarks s.separators) s.arguments
  else
    let value := (s.value? name).getD []
    if inQuotes then quotedMarks value else valueMarks s.separators value

/-- Whether a quoted row of pieces is nothing but the arguments of the script. -/
def isArguments : List Piece → Bool
  | [.parameter ['@']] => true
  | _ => false

/-! ## Expansion -/

mutual

/-- The marks of a piece. `run` runs a command. -/
def expandPiece (run : Command → State → State) (inQuotes : Bool) :
    Piece → State → List Mark × State
  | .plain t, s => (if inQuotes then quotedMarks t else valueMarks blanks t, s)
  | .verbatim t, s => (.solid :: quotedMarks t, s)
  | .quoted pieces, s =>
    let (marks, s) := expandPieces run true pieces s
    (if isArguments pieces then marks else .solid :: marks, s)
  | .parameter name, s =>
    if s.demanding && (s.value? name).isNone && name != ['@'] && name != ['*'] then
      ([], (s.complainOf name "parameter not set").exited 2)
    else (s.parameterMarks inQuotes name, s)
  | .length name, s => (quotedMarks (Text.ofNat (((s.value? name).getD []).length)), s)
  | .fallback name kind orEmpty word, s =>
    let value := s.value? name
    let has := match value with
      | none => false
      | some t => !(orEmpty && t.isEmpty)
    match kind with
    | .substitute =>
      if has then (s.parameterMarks inQuotes name, s) else expandPieces run inQuotes word s
    | .invert => if has then expandPieces run inQuotes word s else ([], s)
    | .assign =>
      if has then (s.parameterMarks inQuotes name, s)
      else
        let (marks, s) := expandPieces run inQuotes word s
        let s := s.assign name (textOf marks)
        (s.parameterMarks inQuotes name, s)
    | .demand =>
      if has then (s.parameterMarks inQuotes name, s)
      else
        let (marks, s) := expandPieces run inQuotes word s
        ([], (s.complainOf name (String.ofList (textOf marks))).exited 2)
  | .cut name atEnd longest pattern, s =>
    let (marks, s) := expandPieces run false pattern s
    let value := (s.value? name).getD []
    let pattern := Pattern.ofField (fieldOf marks)
    let value := if atEnd then pattern.cutEnd longest value else pattern.cutStart longest value
    (if inQuotes then quotedMarks value else valueMarks s.separators value, s)
  | .output command, s =>
    let (t, s) := s.capture (run command)
    let t := t.filter (· ≠ '\x00')
    (if inQuotes then quotedMarks t else valueMarks s.separators t, s)
  | .arithmetic expression, s =>
    let (marks, s) := expandPieces run true expression s
    match Arithmetic.eval? (fun name => (s.value? name).getD []) (textOf marks) with
    | some n => (quotedMarks (toString n).toList, s)
    | none => ([], (s.complainOf (textOf marks) "arithmetic error").exited 2)

/-- The marks of a row of pieces. -/
def expandPieces (run : Command → State → State) (inQuotes : Bool) :
    List Piece → State → List Mark × State
  | [], s => ([], s)
  | piece :: rest, s =>
    let (marks, s) := expandPiece run inQuotes piece s
    let (more, s) := expandPieces run inQuotes rest s
    (marks ++ more, s)

end

/-- The marks of a word. A tilde before a slash is the home directory. -/
def expand (run : Command → State → State) (word : Word) (s : State) : List Mark × State :=
  match word, s.bindings.lookup "HOME".toList with
  | .plain ('~' :: rest) :: pieces, some home =>
    if rest.head?.all (· = '/') && (!rest.isEmpty || pieces.isEmpty) then
      let (marks, s) := expandPieces run false (.plain rest :: pieces) s
      (quotedMarks home ++ marks, s)
    else expandPieces run false word s
  | _, _ => expandPieces run false word s

/-! ## Paths -/

/-- The segments of a field between slashes. -/
def Field.segments : Field → List Field
  | [] => [[]]
  | c :: rest =>
    if c.1 = '/' then [] :: Field.segments rest
    else
      match Field.segments rest with
      | [] => [[c]]
      | segment :: segments => (c :: segment) :: segments

/-- The paths that one segment leads to from a path. A name that starts with a dot is only matched
by a segment that does. -/
def State.pathsBelow (s : State) (path : Text) (segment : Field) : List Text :=
  let pattern := Pattern.ofField segment
  if pattern.isLiteral then
    let next := path ++ segment.text
    if segment.isEmpty ∨ (s.find next).isOk then [next] else []
  else
    match if path.isEmpty then .ok s.here else s.find path with
    | .error _ => []
    | .ok place =>
      let visible := (s.tree.names place).filter fun name =>
        pattern.accepts (ofRaw name) &&
          (name.head? != some RawText.dot || segment.text.head? = some '.')
      (Order.sort Component.compareRaw visible).map fun name => path ++ ofRaw name

/-- The paths that segments match from a path on. -/
def State.pathsFrom (s : State) : Text → List Field → List Text
  | path, [] => [path]
  | path, [segment] => s.pathsBelow path segment
  | path, segment :: rest =>
    (s.pathsBelow path segment).flatMap fun p => s.pathsFrom (p ++ ['/']) rest

/-- The paths that a field matches, or its own text if there are none. -/
def State.paths (s : State) (f : Field) : List Text :=
  if (Pattern.ofField f).isLiteral then [f.text]
  else
    match s.pathsFrom [] f.segments with
    | [] => [f.text]
    | paths => paths

/-! ## Words -/

/-- The fields that words become. -/
def State.words (run : Command → State → State) : List Word → State → List Text × State
  | [], s => ([], s)
  | word :: rest, s =>
    let (marks, s) := expand run word s
    let fields := (fieldsOf marks).flatMap s.paths
    let (more, s) := State.words run rest s
    (fields ++ more, s)

/-- The text that a word becomes where it is not cut into fields. -/
def State.text (run : Command → State → State) (word : Word) (s : State) : Text × State :=
  let (marks, s) := expand run word s
  (textOf marks, s)

end Typesweep.Shell
