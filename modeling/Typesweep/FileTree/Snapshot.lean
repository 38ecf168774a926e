import Typesweep.FileTree.Basic
import Typesweep.Json.Basic

/-!
# Snapshots

A snapshot lists the entries of a tree as JSON, each with its path from some directory:

    ["src/", "src/a.ts", ["tsconfig.json", "{}"], {"path": "x", "link": "src"}]

A path that ends with a slash is that of a directory, and one by itself that of an empty file. A
pair adds the text of the file. An object says what else it is: a file with bytes in hexadecimal
(`hex`), a file that may be run (`exec`), or a link (`link`).

* `FileTree.withEntry?`, `FileTree.ofSnapshot?`: reading an entry, and a snapshot.
-/

namespace Typesweep

/-- The bytes that a row of hexadecimal digits writes. -/
def hexBytes? : Text → Option (List UInt8)
  | [] => some []
  | [_] => none
  | a :: b :: rest => do
    let high ← Text.hexDigit? a
    let low ← Text.hexDigit? b
    let bytes ← hexBytes? rest
    return UInt8.ofNat (high * 16 + low) :: bytes

/-- The file with a text. -/
def Entry.ofText (t : Text) (executable : Bool) : Entry :=
  .file (Text.toUtf8 t) executable

namespace FileTree

/-- The tree with an entry of a snapshot, its path read from the directory `top`. -/
def withEntry? (t : FileTree) (top : Path) : Json → Option FileTree
  | .string path =>
    if path.getLast? = some '/' then some (t.makeDir (top.join (.ofText path)))
    else some (t.write (top.join (.ofText path)) (.ofText [] false))
  | .array [.string path, .string content] =>
    some (t.write (top.join (.ofText path)) (.ofText content false))
  | j =>
    match j.get? "path" with
    | some (.string path) =>
      match j.get? "hex", j.get? "exec", j.get? "link" with
      | some (.string digits), _, _ =>
        (hexBytes? digits).map fun bytes => t.write (top.join (.ofText path)) (.file bytes false)
      | _, some (.string script), _ =>
        some (t.write (top.join (.ofText path)) (.ofText script true))
      | _, _, some (.string target) =>
        some (t.write (top.join (.ofText path)) (.link (.ofText target)))
      | _, _, _ => none
    | _ => none

/-- The tree of a snapshot, with the directory `top` that its paths start from. -/
def ofSnapshot? (top : Path) : Json → Option FileTree
  | .array entries => entries.foldlM (fun t entry => t.withEntry? top entry) (empty.makeDir top)
  | _ => none

end FileTree

end Typesweep
