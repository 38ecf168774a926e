import Typesweep.Shell.Command

/-!
# Reading scripts

A script is read line by line: a line that is no command, and all that comes after it, is only
noticed once the lines before it have run. Each reader takes the text from some point on and gives
what it has read with the text after it; `fuel` bounds how deep commands are nested.

* `Script.read`: the command of a script.
-/

namespace Typesweep.Shell

/-! ## Characters and names -/

/-- Whether a character ends a word, unless it is quoted. -/
def endsWord (c : Char) : Bool :=
  " \t\n;&|<>()".toList.contains c

/-- Whether a character may start a name. -/
def startsName (c : Char) : Bool :=
  c.isAlpha || c = '_'

/-- Whether a character may stand in a name. -/
def isNameChar (c : Char) : Bool :=
  startsName c || Text.isDigit c

/-- Whether the text is a name. -/
def isName (t : Text) : Bool :=
  match t with
  | [] => false
  | c :: rest => startsName c && rest.all isNameChar

/-- Whether a character is the name of a parameter that the shell sets. -/
def isSpecialParameter (c : Char) : Bool :=
  "@*#?-$!".toList.contains c

/-- The name of a parameter at the start of a text. Only between braces, numbers have more than one
digit. -/
def parameterName? (braced : Bool) : Text → Option (Text × Text)
  | [] => none
  | c :: rest =>
    if startsName c then some ((c :: rest).span isNameChar)
    else if Text.isDigit c then
      if braced then some ((c :: rest).span Text.isDigit) else some ([c], rest)
    else if isSpecialParameter c then some ([c], rest)
    else none

/-! ## Between words -/

/-- The text without blanks and continued line ends at its start, and without a comment there. -/
def skipBlanks : Text → Text
  | ' ' :: rest => skipBlanks rest
  | '\t' :: rest => skipBlanks rest
  | '\\' :: '\n' :: rest => skipBlanks rest
  | '#' :: rest => rest.dropWhile (· ≠ '\n')
  | t => t

/-- The text without blanks, comments and line ends at its start; `lines` bounds their number. -/
def skipLinesFrom : Nat → Text → Text
  | 0, t => t
  | lines + 1, t =>
    match skipBlanks t with
    | '\n' :: rest => skipLinesFrom lines rest
    | t => t

/-- The text without blanks, comments and line ends at its start. -/
def skipLines (t : Text) : Text :=
  skipLinesFrom (t.length + 1) t

/-- The characters up to the end of the first word, quotes and all, and the text after them. -/
def leadingWord (t : Text) : Text × Text :=
  t.span fun c => !endsWord c

/-- The text after a reserved word. -/
def after? (word : String) (t : Text) : Option Text :=
  let (first, rest) := leadingWord t
  if first = word.toList then some rest else none

/-- Whether a list of commands ends here. -/
def atListEnd (t : Text) : Bool :=
  match t with
  | [] => true
  | ')' :: _ => true
  | ';' :: ';' :: _ => true
  | _ =>
    ["then", "do", "done", "fi", "else", "elif", "esac", "\x7d"].any fun word =>
      (after? word t).isSome

/-! ## Quotes -/

/-- The text up to an apostrophe, and the text after it. -/
def upToApostrophe? (t : Text) : Option (Text × Text) :=
  Text.cutAt? '\x27' t

/-- The text up to a backquote, and the text after it. A backslash takes the special meaning from
the character after it, also from a double quote if the text stands between such quotes. -/
def upToBackquote? (inQuotes : Bool) : Text → Option (Text × Text)
  | [] => none
  | '\x60' :: rest => some ([], rest)
  | '\\' :: c :: rest =>
    (upToBackquote? inQuotes rest).map fun (inner, later) =>
      if c = '$' ∨ c = '\\' ∨ c = '\x60' ∨ (c = '"' ∧ inQuotes) then (c :: inner, later)
      else ('\\' :: c :: inner, later)
  | c :: rest => (upToBackquote? inQuotes rest).map fun (inner, later) => (c :: inner, later)

/-- The text up to the two parentheses that close `depth` open ones, and the text after them. -/
def upToDoubleClose? : Nat → Text → Option (Text × Text)
  | _, [] => none
  | 0, ')' :: ')' :: rest => some ([], rest)
  | depth, c :: rest =>
    let depth := if c = '(' then depth + 1 else if c = ')' then depth - 1 else depth
    (upToDoubleClose? depth rest).map fun (inner, later) => (c :: inner, later)

/-! ## Redirections -/

/-- The stream and direction of a redirection at the start of a text. -/
def redirection? (t : Text) : Option (Nat × Direction × Text) :=
  let (digits, rest) := t.span Text.isDigit
  let stream := Text.numeral? digits
  match rest with
  | '<' :: '&' :: rest => some (stream.getD 0, .duplicate, rest)
  | '<' :: rest => some (stream.getD 0, .input, rest)
  | '>' :: '>' :: rest => some (stream.getD 1, .append, rest)
  | '>' :: '&' :: rest => some (stream.getD 1, .duplicate, rest)
  | '>' :: '|' :: rest => some (stream.getD 1, .output, rest)
  | '>' :: rest => some (stream.getD 1, .output, rest)
  | _ => none

/-- A text that a script holds between lines of its own. -/
structure InlineText where
  /-- Whether parameters in it are expanded. -/
  expands : Bool
  body : Text
  /-- The script without it: the rest of the line that announced it, and the lines after it. -/
  rest : Text

/-- The lines up to one that is the delimiter, and those after it. -/
def upToDelimiter (stripTabs : Bool) (delimiter : Text) : List Text → List Text × List Text
  | [] => ([], [])
  | line :: lines =>
    let line := if stripTabs then line.dropWhile (· = '\t') else line
    if line = delimiter then ([], lines)
    else
      let (body, later) := upToDelimiter stripTabs delimiter lines
      (line :: body, later)

/-- The inline text announced by `<<`, from after it. -/
def inlineText? (t : Text) : Option InlineText :=
  match Text.after? "<<".toList t with
  | none => none
  | some t =>
    let (stripTabs, t) := match t with
      | '-' :: rest => (true, rest)
      | _ => (false, t)
    let (word, t) := leadingWord (skipBlanks t)
    let isQuote := fun c => c = '"' || c = '\x27' || c = '\\'
    let (line, later) := t.span (· ≠ '\n')
    let (body, later) :=
      upToDelimiter stripTabs (word.filter fun c => !isQuote c) (Text.splitOn '\n' (later.drop 1))
    some {
      expands := !word.any isQuote
      body := body.flatMap (· ++ ['\n'])
      rest := line ++ '\n' :: Text.joinWith ['\n'] later }

/-! ## Words and commands -/

/-- The assignment that a word makes if it stands before the program. -/
def assignment? : Word → Option (Text × Word)
  | .plain t :: rest =>
    match Text.cutAt? '=' t with
    | some (name, value) =>
      if isName name then some (name, if value = [] then rest else .plain value :: rest) else none
    | none => none
  | _ => none

/-- The name that a definition at the start of a text gives to a command, and the text after the
parentheses. -/
def definition? (t : Text) : Option (Text × Text) :=
  let (name, rest) := leadingWord t
  match skipBlanks rest with
  | '(' :: rest =>
    match skipBlanks rest with
    | ')' :: rest => if isName name then some (name, skipLines rest) else none
    | _ => none
  | _ => none

/-- The kind of a fallback. -/
def fallbackOf? : Char → Option Fallback
  | '-' => some .substitute
  | '=' => some .assign
  | '+' => some .invert
  | '?' => some .demand
  | _ => none

mutual

/-- A word. -/
def wordAt : Nat → Text → Option (Word × Text)
  | 0, _ => none
  | fuel + 1, t =>
    match t with
    | [] => some ([], [])
    | '\\' :: '\n' :: rest => wordAt fuel rest
    | '\\' :: c :: rest => do
      let (more, rest) ← wordAt fuel rest
      return (.verbatim [c] :: more, rest)
    | '\x27' :: rest => do
      let (inner, rest) ← upToApostrophe? rest
      let (more, rest) ← wordAt fuel rest
      return (.verbatim inner :: more, rest)
    | '"' :: rest => do
      let (inner, rest) ← quotedAt fuel (some '"') rest
      let (more, rest) ← wordAt fuel rest
      return (.quoted inner :: more, rest)
    | '\x60' :: rest => do
      let (inner, rest) ← backquoteAt fuel false rest
      let (more, rest) ← wordAt fuel rest
      return (inner :: more, rest)
    | '$' :: rest => do
      let (inner, rest) ← dollarAt fuel rest
      let (more, rest) ← wordAt fuel rest
      return (inner :: more, rest)
    | c :: rest =>
      if endsWord c then some ([], t)
      else do
        let (more, rest) ← wordAt fuel rest
        return (Word.consPlain c more, rest)

/-- What stands between quotes, up to the quote `close` or the end of the text. -/
def quotedAt : Nat → Option Char → Text → Option (Word × Text)
  | 0, _, _ => none
  | fuel + 1, close, t =>
    match t with
    | [] => if close = none then some ([], []) else none
    | '\\' :: '\n' :: rest => quotedAt fuel close rest
    | '\\' :: c :: rest => do
      let (more, rest) ← quotedAt fuel close rest
      if c = '$' ∨ c = '\x60' ∨ c = '\\' ∨ some c = close then
        return (Word.consPlain c more, rest)
      else
        return (Word.consPlain '\\' (Word.consPlain c more), rest)
    | '\x60' :: rest => do
      let (inner, rest) ← backquoteAt fuel (close = some '"') rest
      let (more, rest) ← quotedAt fuel close rest
      return (inner :: more, rest)
    | '$' :: rest => do
      let (inner, rest) ← dollarAt fuel rest
      let (more, rest) ← quotedAt fuel close rest
      return (inner :: more, rest)
    | c :: rest =>
      if some c = close then some ([], rest)
      else do
        let (more, rest) ← quotedAt fuel close rest
        return (Word.consPlain c more, rest)

/-- A word inside of braces, up to the brace that closes them. -/
def bracedAt : Nat → Text → Option (Word × Text)
  | 0, _ => none
  | fuel + 1, t =>
    match t with
    | [] => none
    | '\x7d' :: rest => some ([], rest)
    | '\\' :: c :: rest => do
      let (more, rest) ← bracedAt fuel rest
      return (.verbatim [c] :: more, rest)
    | '\x27' :: rest => do
      let (inner, rest) ← upToApostrophe? rest
      let (more, rest) ← bracedAt fuel rest
      return (.verbatim inner :: more, rest)
    | '"' :: rest => do
      let (inner, rest) ← quotedAt fuel (some '"') rest
      let (more, rest) ← bracedAt fuel rest
      return (.quoted inner :: more, rest)
    | '\x60' :: rest => do
      let (inner, rest) ← backquoteAt fuel false rest
      let (more, rest) ← bracedAt fuel rest
      return (inner :: more, rest)
    | '$' :: rest => do
      let (inner, rest) ← dollarAt fuel rest
      let (more, rest) ← bracedAt fuel rest
      return (inner :: more, rest)
    | c :: rest => do
      let (more, rest) ← bracedAt fuel rest
      return (Word.consPlain c more, rest)

/-- What a command between backquotes prints, from after the first of them. -/
def backquoteAt : Nat → Bool → Text → Option (Piece × Text)
  | 0, _, _ => none
  | fuel + 1, inQuotes, t => do
    let (inner, rest) ← upToBackquote? inQuotes t
    let (commands, left) ← listAt fuel inner
    if left = [] then return (.output (.sequence commands), rest) else none

/-- What a dollar sign stands for, from after it. -/
def dollarAt : Nat → Text → Option (Piece × Text)
  | 0, _ => none
  | fuel + 1, t =>
    match t with
    | '(' :: '(' :: rest => do
      let (inner, rest) ← upToDoubleClose? 0 rest
      let (expression, _) ← quotedAt fuel none inner
      return (.arithmetic expression, rest)
    | '(' :: rest => do
      let (commands, rest) ← listAt fuel rest
      match rest with
      | ')' :: rest => return (.output (.sequence commands), rest)
      | _ => none
    | '{' :: '#' :: '\x7d' :: rest => some (.parameter ['#'], rest)
    | '{' :: '#' :: rest => do
      let (name, rest) ← parameterName? true rest
      match rest with
      | '\x7d' :: rest => return (.length name, rest)
      | _ => none
    | '{' :: rest => do
      let (name, rest) ← parameterName? true rest
      match rest with
      | '\x7d' :: rest => return (.parameter name, rest)
      | '%' :: '%' :: rest => do
        let (pattern, rest) ← bracedAt fuel rest
        return (.cut name true true pattern, rest)
      | '%' :: rest => do
        let (pattern, rest) ← bracedAt fuel rest
        return (.cut name true false pattern, rest)
      | '#' :: '#' :: rest => do
        let (pattern, rest) ← bracedAt fuel rest
        return (.cut name false true pattern, rest)
      | '#' :: rest => do
        let (pattern, rest) ← bracedAt fuel rest
        return (.cut name false false pattern, rest)
      | ':' :: c :: rest => do
        let kind ← fallbackOf? c
        let (word, rest) ← bracedAt fuel rest
        return (.fallback name kind true word, rest)
      | c :: rest => do
        let kind ← fallbackOf? c
        let (word, rest) ← bracedAt fuel rest
        return (.fallback name kind false word, rest)
      | [] => none
    | _ =>
      match parameterName? false t with
      | some (name, rest) => some (.parameter name, rest)
      | none => some (.plain ['$'], t)

/-- Commands up to the end of their list. -/
def listAt : Nat → Text → Option (List Command × Text)
  | 0, _ => none
  | fuel + 1, t =>
    let t := skipLines t
    if atListEnd t then some ([], t)
    else do
      let (first, t) ← chainAt fuel t
      match skipBlanks t with
      | ';' :: ';' :: rest => return ([first], ';' :: ';' :: rest)
      | '\n' :: rest => do
        let (more, t) ← listAt fuel rest
        return (first :: more, t)
      | ';' :: rest => do
        let (more, t) ← listAt fuel rest
        return (first :: more, t)
      | '&' :: rest => do
        let (more, t) ← listAt fuel rest
        return (.background first :: more, t)
      | t => if atListEnd t then return ([first], t) else none

/-- The commands of a line, with all lines that they go on to. -/
def lineAt : Nat → Text → Option (List Command × Text)
  | 0, _ => none
  | fuel + 1, t => do
    let (first, t) ← chainAt fuel t
    match skipBlanks t with
    | [] => return ([first], [])
    | '\n' :: rest => return ([first], rest)
    | c :: rest =>
      if c ≠ ';' ∧ c ≠ '&' then none
      else
        let first := if c = '&' then .background first else first
        match skipBlanks rest with
        | [] => return ([first], [])
        | '\n' :: rest => return ([first], rest)
        | rest => do
          let (more, t) ← lineAt fuel rest
          return (first :: more, t)

/-- Commands that depend on the success of those before them. -/
def chainAt : Nat → Text → Option (Command × Text)
  | 0, _ => none
  | fuel + 1, t => do
    let (first, t) ← pipelineAt fuel t
    chainFrom fuel first t

/-- The rest of a chain after `first`. -/
def chainFrom : Nat → Command → Text → Option (Command × Text)
  | 0, _, _ => none
  | fuel + 1, first, t =>
    match skipBlanks t with
    | '&' :: '&' :: rest => do
      let (second, t) ← pipelineAt fuel (skipLines rest)
      chainFrom fuel (.andThen first second) t
    | '|' :: '|' :: rest => do
      let (second, t) ← pipelineAt fuel (skipLines rest)
      chainFrom fuel (.orElse first second) t
    | t => some (first, t)

/-- Commands that read from each other. -/
def pipelineAt : Nat → Text → Option (Command × Text)
  | 0, _ => none
  | fuel + 1, t =>
    match after? "!" t with
    | some rest => do
      let (command, t) ← pipelineAt fuel (skipBlanks rest)
      return (.negated command, t)
    | none => do
      let (first, t) ← commandAt fuel t
      match skipBlanks t with
      | '|' :: '|' :: rest => return (first, '|' :: '|' :: rest)
      | '|' :: rest => do
        let (second, t) ← pipelineAt fuel (skipLines rest)
        return (.pipe first second, t)
      | t => return (first, t)

/-- A command. -/
def commandAt : Nat → Text → Option (Command × Text)
  | 0, _ => none
  | fuel + 1, t =>
    match t with
    | '(' :: rest => do
      let (commands, rest) ← listAt fuel rest
      match rest with
      | ')' :: rest => redirectedAt fuel (.subshell (.sequence commands)) [] rest
      | _ => none
    | _ =>
      match definition? t with
      | some (name, rest) => do
        let (body, rest) ← commandAt fuel rest
        return (.define name body, rest)
      | none =>
        match leadingWord t with
        | (word, rest) =>
          match String.ofList word with
          | "\x7b" => do
            let (commands, rest) ← listAt fuel rest
            redirectedAt fuel (.sequence commands) [] (← after? "\x7d" rest)
          | "if" => do
            let (command, rest) ← branchAt fuel rest
            redirectedAt fuel command [] rest
          | "while" => do
            let (test, rest) ← listAt fuel rest
            let (body, rest) ← bodyAt fuel rest
            redirectedAt fuel (.loop false (.sequence test) body) [] rest
          | "until" => do
            let (test, rest) ← listAt fuel rest
            let (body, rest) ← bodyAt fuel rest
            redirectedAt fuel (.loop true (.sequence test) body) [] rest
          | "for" => do
            let (name, rest) := leadingWord (skipBlanks rest)
            let rest := skipLines rest
            let (words, rest) ← match after? "in" rest with
              | some rest => do
                let (words, rest) ← wordsAt fuel rest
                pure (some words, rest)
              | none => some (none, rest)
            let rest := skipBlanks rest
            let (body, rest) ← bodyAt fuel (skipLines ((Text.after? [';'] rest).getD rest))
            redirectedAt fuel (.each name words body) [] rest
          | "case" => do
            let (subject, rest) ← wordAt fuel (skipBlanks rest)
            let (cases, rest) ← casesAt fuel (← after? "in" (skipLines rest))
            redirectedAt fuel (.choice subject cases) [] rest
          | _ => if atListEnd t then none else simpleAt fuel [] [] [] t

/-- The body of a loop. -/
def bodyAt : Nat → Text → Option (Command × Text)
  | 0, _ => none
  | fuel + 1, t => do
    let (commands, rest) ← listAt fuel (← after? "do" t)
    return (.sequence commands, ← after? "done" rest)

/-- A test and what depends on it, from after `if`. -/
def branchAt : Nat → Text → Option (Command × Text)
  | 0, _ => none
  | fuel + 1, t => do
    let (test, rest) ← listAt fuel t
    let (yes, rest) ← listAt fuel (← after? "then" rest)
    let branch := Command.branch (.sequence test) (.sequence yes)
    match leadingWord rest with
    | (word, rest) =>
      match String.ofList word with
      | "fi" => return (branch (.sequence []), rest)
      | "elif" => do
        let (no, rest) ← branchAt fuel rest
        return (branch no, rest)
      | "else" => do
        let (no, rest) ← listAt fuel rest
        return (branch (.sequence no), ← after? "fi" rest)
      | _ => none

/-- The cases of a choice, up to its end. -/
def casesAt : Nat → Text → Option (List (List Word × Command) × Text)
  | 0, _ => none
  | fuel + 1, t =>
    let t := skipLines t
    match after? "esac" t with
    | some rest => some ([], rest)
    | none => do
      let (patterns, rest) ← patternsAt fuel ((Text.after? ['('] t).getD t)
      let (commands, rest) ← listAt fuel rest
      let rest := (Text.after? ";;".toList rest).getD rest
      let (more, rest) ← casesAt fuel rest
      return ((patterns, .sequence commands) :: more, rest)

/-- The patterns of a case, up to the parenthesis after them. -/
def patternsAt : Nat → Text → Option (List Word × Text)
  | 0, _ => none
  | fuel + 1, t => do
    let (pattern, rest) ← wordAt fuel (skipBlanks t)
    match skipBlanks rest with
    | ')' :: rest => return ([pattern], rest)
    | '|' :: rest => do
      let (more, rest) ← patternsAt fuel rest
      return (pattern :: more, rest)
    | _ => none

/-- Words up to the first character that cannot be part of one. -/
def wordsAt : Nat → Text → Option (List Word × Text)
  | 0, _ => none
  | fuel + 1, t =>
    match skipBlanks t with
    | [] => some ([], [])
    | c :: rest =>
      if endsWord c then some ([], c :: rest)
      else do
        let (word, rest) ← wordAt fuel (c :: rest)
        let (more, rest) ← wordsAt fuel rest
        return (word :: more, rest)

/-- A redirection, if one starts here. -/
def redirectAt : Nat → Text → Option (Option Redirect × Text)
  | 0, _ => none
  | fuel + 1, t =>
    match inlineText? t with
    | some text =>
      if text.expands then do
        let (word, _) ← quotedAt fuel none text.body
        return (some (.mk 0 .inline [.quoted word]), text.rest)
      else some (some (.mk 0 .inline [.verbatim text.body]), text.rest)
    | none =>
      match redirection? t with
      | none => some (none, t)
      | some (stream, direction, rest) => do
        let (word, rest) ← wordAt fuel (skipBlanks rest)
        if word.isEmpty then none else return (some (.mk stream direction word), rest)

/-- A command with the redirections after it, of which `before` have been read. -/
def redirectedAt : Nat → Command → List Redirect → Text → Option (Command × Text)
  | 0, _, _, _ => none
  | fuel + 1, command, before, t => do
    match ← redirectAt fuel (skipBlanks t) with
    | (some redirect, rest) => redirectedAt fuel command (before ++ [redirect]) rest
    | (none, rest) => return (if before.isEmpty then command else .redirected command before, rest)

/-- A simple command, of which some assignments, words and redirections have been read. -/
def simpleAt : Nat → List (Text × Word) → List Word → List Redirect → Text →
    Option (Command × Text)
  | 0, _, _, _, _ => none
  | fuel + 1, assignments, words, redirects, t => do
    match ← redirectAt fuel (skipBlanks t) with
    | (some redirect, rest) => simpleAt fuel assignments words (redirects ++ [redirect]) rest
    | (none, rest) =>
      let (word, later) ← wordAt fuel rest
      if word.isEmpty then
        if rest.head? = some '(' then none
        else if assignments.isEmpty && words.isEmpty && redirects.isEmpty then none
        else return (.simple assignments words redirects, rest)
      else
        match words.isEmpty, assignment? word with
        | true, some a => simpleAt fuel (assignments ++ [a]) words redirects later
        | _, _ => simpleAt fuel assignments (words ++ [word]) redirects later

end

/-- The commands of the lines of a script, as far as they are commands; `lines` bounds their
number. -/
def linesFrom : Nat → Text → List Command
  | 0, _ => []
  | lines + 1, t =>
    match skipLines t with
    | [] => []
    | t =>
      match lineAt (8 * t.length + 16) t with
      | none => [.malformed]
      | some (commands, rest) => .sequence commands :: linesFrom lines rest

/-- The command of a script. -/
def Script.read (t : Text) : Command :=
  .sequence (linesFrom (t.length + 1) t)

end Typesweep.Shell
