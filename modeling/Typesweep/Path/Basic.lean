import Typesweep.Text.Utf8

/-!
# Paths

A path keeps the bytes it was written with, of which only slashes and dots mean something. What it
denotes is its list of components: the root, a leading `.`, each `..` and each name; repeated and
trailing slashes and inner `.` segments are no components. Paths are the same place, and are
ordered, by their components; only `raw` tells two spellings apart.

A path that comes from a text has the bytes of that text. Any path has a text that it is shown as,
but different paths may have the same one, as names need not be UTF-8.

* `Path.ofText`, `Path.text`: the path of a text, and the text that a path is shown as.
* `Path.components`, `Path.ofComponents`: reading a path and writing one.
* `Path.Same`, `Path.le`: equality and order of paths by components.
* `Path.join`, `Path.parent?`, `Path.ancestors`, `Path.fileName?`, `Path.relativeTo?`: the
  operations that keep the spelling of what they do not touch.
-/

namespace Typesweep

open RawText (slash dot)

/-- One step of a path. -/
inductive Component
  /-- The top of the tree, written as a leading slash. -/
  | root
  | here
  | up
  | name (raw : RawText)
  deriving DecidableEq, Repr

namespace Component

/-- The component that a segment between slashes stands for after the first one: an empty segment
and `.` stand for none. -/
def ofSegment? (segment : RawText) : Option Component :=
  if segment = [] then none
  else if segment = [dot] then none
  else if segment = [dot, dot] then some .up
  else some (.name segment)

/-- The bytes of a component. -/
def raw : Component → RawText
  | .root => [slash]
  | .here => [dot]
  | .up => [dot, dot]
  | .name b => b

/-- The text that a component is shown as. -/
def text (c : Component) : Text :=
  Text.ofBytes c.raw

/-- Position of the kind of a component in the order. -/
def rank : Component → Nat
  | .root => 0
  | .here => 1
  | .up => 2
  | .name _ => 3

/-- Names are ordered by bytes, a proper beginning first. -/
def compareRaw : RawText → RawText → Ordering
  | [], [] => .eq
  | [], _ :: _ => .lt
  | _ :: _, [] => .gt
  | a :: as, b :: bs =>
    if a.toNat < b.toNat then .lt else if b.toNat < a.toNat then .gt else compareRaw as bs

/-- Components are ordered by kind, names among themselves by their bytes. -/
def compare : Component → Component → Ordering
  | .name a, .name b => compareRaw a b
  | a, b => if a.rank < b.rank then .lt else if b.rank < a.rank then .gt else .eq

end Component

/-- A path, as the bytes it was written with. -/
structure Path where
  raw : RawText
  deriving DecidableEq, Repr, Inhabited

namespace Path

/-- The path that a text writes. -/
def ofText (t : Text) : Path := ⟨Text.toUtf8 t⟩

/-- The path written as a string. -/
def ofString (s : String) : Path := ofText s.toList

/-- The text that the path is shown as. -/
def text (p : Path) : Text := Text.ofBytes p.raw

instance : ToString Path := ⟨fun p => String.ofList p.text⟩

/-! ## Components -/

/-- Whether the path starts at the root. -/
def isAbsolute (p : Path) : Bool :=
  p.raw.head? = some slash

/-- The segments between the slashes. An absolute path has an empty first segment. -/
def segments (p : Path) : List RawText :=
  Text.splitOn slash p.raw

/-- The component of the first segment: a slash at the start is the root, and only here `.`
counts. -/
def leading? (p : Path) (first : RawText) : Option Component :=
  if p.isAbsolute then some .root
  else if first = [dot] then some .here
  else Component.ofSegment? first

/-- The components of a path, from left to right. -/
def components (p : Path) : List Component :=
  match p.segments with
  | [] => []
  | first :: rest => (p.leading? first).toList ++ rest.filterMap Component.ofSegment?

/-- The bytes of a list of components: the root is written as the slash before what follows. -/
def rawOf : List Component → RawText
  | [] => []
  | .root :: rest => slash :: Text.joinWith [slash] (rest.map Component.raw)
  | cs => Text.joinWith [slash] (cs.map Component.raw)

/-- The path with the given components, without superfluous slashes. -/
def ofComponents (cs : List Component) : Path :=
  ⟨rawOf cs⟩

/-! ## Equality and order -/

/-- Two paths are the same when they have the same components. -/
def Same (p q : Path) : Prop :=
  p.components = q.components

instance (p q : Path) : Decidable (p.Same q) :=
  inferInstanceAs (Decidable (p.components = q.components))

/-- Lists of components are ordered by their first difference, a proper beginning first. -/
def compareComponents : List Component → List Component → Ordering
  | [], [] => .eq
  | [], _ :: _ => .lt
  | _ :: _, [] => .gt
  | a :: as, b :: bs => (a.compare b).then (compareComponents as bs)

/-- The order of paths: by components, not by bytes. -/
def compare (p q : Path) : Ordering :=
  compareComponents p.components q.components

/-- Whether `p` comes before `q` or is the same path. -/
def le (p q : Path) : Bool :=
  p.compare q != .gt

/-- Number of bytes of the path. -/
def byteLength (p : Path) : Nat :=
  p.raw.length

/-! ## Operations that keep the spelling -/

/-- `p` followed by `q`, where `q` starts below `p`; an absolute `q` replaces `p`. A slash is put
between the two unless `p` is empty or ends with one. -/
def join (p q : Path) : Path :=
  if q.isAbsolute then q
  else if p.raw = [] ∨ p.raw.getLast? = some slash then ⟨p.raw ++ q.raw⟩
  else ⟨p.raw ++ slash :: q.raw⟩

/-- The entry `name` of the directory `p`. -/
def child (p : Path) (name : RawText) : Path :=
  p.join ⟨name⟩

/-- The entry of the directory `p` with a name from the program text. -/
def entry (p : Path) (name : String) : Path :=
  p.child (.ofString name)

/-- A segment that is no component: empty or `.`. -/
def isNoise (segment : RawText) : Bool :=
  segment = [] || segment = [dot]

/-- The segments without those at the end that are no components. -/
def dropNoiseEnd (segments : List RawText) : List RawText :=
  (segments.reverse.dropWhile isNoise).reverse

/-- The bytes of a path that starts with `lead` (empty, `/` or `.`) and goes on with `segments`. -/
def assemble (lead : RawText) (segments : List RawText) : RawText :=
  match lead with
  | [dot] => lead ++ segments.flatMap (slash :: ·)
  | _ => lead ++ Text.joinWith [slash] segments

/-- The start of a path that is a component of its own although it is no name (`/` or a leading
`.`), else empty, and the segments after it. -/
def split (p : Path) : RawText × List RawText :=
  match p.segments with
  | [] => ([], [])
  | first :: rest =>
    if p.isAbsolute then ([slash], rest)
    else if first = [dot] then ([dot], rest)
    else ([], first :: rest)

/-- The path without its last component, if that is not the root. What stands before it keeps its
spelling. -/
def parent? (p : Path) : Option Path :=
  let (lead, body) := p.split
  match dropNoiseEnd body with
  | [] => if lead = [dot] then some ⟨[]⟩ else none
  | body => some ⟨assemble lead (dropNoiseEnd body.dropLast)⟩

/-- The paths got from `p` by taking away one component after the other, `p` itself first, at most
`limit` of them. -/
def ancestorsUpTo : Nat → Path → List Path
  | 0, _ => []
  | limit + 1, p =>
    match p.parent? with
    | none => [p]
    | some q => p :: ancestorsUpTo limit q

/-- `p` and all paths above it, nearest first. -/
def ancestors (p : Path) : List Path :=
  ancestorsUpTo (p.components.length + 1) p

/-- The name of what the path denotes, if its last component is a name. -/
def fileName? (p : Path) : Option RawText :=
  match p.components.getLast? with
  | some (.name b) => some b
  | _ => none

/-- The segments after the first `count` components. -/
def dropComponents : Nat → List RawText → List RawText
  | 0, segments => segments
  | _ + 1, [] => []
  | count + 1, segment :: rest =>
    if isNoise segment then dropComponents (count + 1) rest else dropComponents count rest

/-- The rest of `p` below `base`, if the components of `base` are the first ones of `p`. -/
def relativeTo? (p base : Path) : Option Path :=
  if base.components.isPrefixOf p.components then
    let (lead, body) := p.split
    let taken := base.components.length
    if taken = 0 then some ⟨assemble lead (dropNoiseEnd body)⟩
    else
      let body := dropComponents (if lead = [] then taken else taken - 1) body
      some ⟨Text.joinWith [slash] (dropNoiseEnd (body.dropWhile isNoise))⟩
  else none

end Path

end Typesweep
