import Typesweep.Proofs.Config.Loading
import Typesweep.Proofs.Json.Fields

/-!
# What a configuration takes over

A configuration that was loaded is one fold over a list: the configurations that it builds on in
post-order, each as often as it is met, and at last the configuration itself. Of every part the
last one that is declared in this list counts.

* `FileTree.Unfolds`, `FileTree.PostOrder`: the list.
* `Config.IsFold`: what the parts of a configuration are by such a list.
* `Config.load_isFold`: the main result.
-/

namespace Typesweep

/-! ## Options that were read -/

theorem exists_of_map_eq_ok {ε α β : Type} {f : α → β} {r : Except ε α} {b : β}
    (h : r.map f = .ok b) : ∃ a, r = .ok a ∧ f a = b := by
  cases r with
  | error e => cases h
  | ok a => exact ⟨a, rfl, Except.ok.inj h⟩

namespace Declaration

open Json

/-- No option is declared twice. -/
def OptionsDistinct (d : Declaration) : Prop :=
  KeysDistinct (d.options.getD [])

variable {giveUp : Text → Text} {d result : Declaration} {part : Part} {t rest : Text}

theorem readPart_optionsDistinct (h : d.OptionsDistinct)
    (hread : readPart giveUp d part t = .ok (result, rest)) : result.OptionsDistinct := by
  cases part with
  | bases | files | includes | excludes =>
    obtain ⟨⟨v, rest'⟩, _, heq⟩ := exists_of_map_eq_ok hread
    cases heq
    exact h
  | options =>
    obtain ⟨⟨v, rest'⟩, hv, heq⟩ := exists_of_map_eq_ok hread
    cases heq
    show KeysDistinct (v.getD [])
    unfold readOptional at hv
    split at hv
    · obtain ⟨_, _, heq⟩ := exists_of_map_eq_ok hv
      cases heq
      exact keysDistinct_nil
    · obtain ⟨⟨fields, _⟩, hfields, heq⟩ := exists_of_map_eq_ok hv
      cases heq
      exact readObject_keysDistinct hfields

theorem readFields_optionsDistinct {fuel : Nat} {first : Bool} {seen : List Part}
    (h : d.OptionsDistinct)
    (hread : readFields fuel first seen d t = .ok (result, rest)) : result.OptionsDistinct := by
  induction fuel generalizing first seen d t with
  | zero => cases hread
  | succ fuel ih =>
    rw [readFields] at hread
    split at hread
    · cases hread
    · cases hread
      exact h
    · split at hread
      · cases hread
      · split at hread
        · split at hread
          · cases hread
          · split at hread
            · cases hread
            · split at hread
              · cases hread
              · next hpart => exact ih (readPart_optionsDistinct h hpart) hread
        · split at hread
          · cases hread
          · split at hread
            · cases hread
            · exact ih h hread

theorem readItems_optionsDistinct {first : Bool} {index : Nat} {parts : List Part}
    (h : d.OptionsDistinct)
    (hread : readItems first index parts d t = .ok (result, rest)) : result.OptionsDistinct := by
  induction parts generalizing first index d t with
  | nil =>
    obtain ⟨_, _, heq⟩ := exists_of_map_eq_ok hread
    cases heq
    exact h
  | cons part parts ih =>
    rw [readItems] at hread
    split at hread
    · cases hread
    · cases hread
    · split at hread
      · cases hread
      · next hpart => exact ih (readPart_optionsDistinct h hpart) hread

theorem read_optionsDistinct (hread : read t = .ok d) : d.OptionsDistinct := by
  have hempty : ({} : Declaration).OptionsDistinct := keysDistinct_nil
  unfold read at hread
  dsimp only at hread
  split at hread
  · cases hread
  · next hresult =>
    obtain ⟨_, _, rfl⟩ := exists_of_map_eq_ok hread
    split at hresult
    · cases hresult
    · exact readItems_optionsDistinct hempty hresult
    · exact readFields_optionsDistinct hempty hresult
    · exact absurd hresult mismatch_ne_ok

end Declaration

theorem FileTree.readDeclaration_optionsDistinct {t : FileTree} {path : Path} {d : Declaration}
    (hread : t.readDeclaration path = .ok d) : d.OptionsDistinct := by
  unfold readDeclaration at hread
  split at hread
  · cases hread
  · dsimp only at hread
    split at hread
    · cases hread
    · next hd =>
      cases hread
      exact Declaration.read_optionsDistinct hd

/-! ## The order of inheritance -/

/-- A configuration that is met, with what it declares. -/
structure Visit where
  path : Path
  declaration : Declaration

namespace FileTree

variable {t : FileTree} {path dir : Path} {specs : List Text} {visits order : List Visit}

/-- `visits` are the configurations that are met from some entries of `extends` in the directory
`dir`: for each entry those that its configuration builds on, and then that one. -/
inductive Unfolds (t : FileTree) : Path → List Text → List Visit → Prop
  | nil {dir : Path} : Unfolds t dir [] []
  | cons {dir base : Path} {spec : Text} {specs : List Text} {d : Declaration}
      {above visits : List Visit} :
      t.findBase? dir spec = some base → t.readDeclaration base = .ok d →
      Unfolds t base.configDir d.bases above → Unfolds t dir specs visits →
      Unfolds t dir (spec :: specs) (above ++ ⟨base, d⟩ :: visits)

/-- `order` are the configurations that are met from the one at `path`, in post-order: first those
that it builds on, and then itself. -/
def PostOrder (t : FileTree) (path : Path) (order : List Visit) : Prop :=
  ∃ d above, t.readDeclaration path = .ok d ∧ Unfolds t path.configDir d.bases above ∧
    order = above ++ [⟨path, d⟩]

theorem Unfolds.unique {visits' : List Visit} (h : Unfolds t dir specs visits)
    (h' : Unfolds t dir specs visits') : visits = visits' := by
  induction h generalizing visits' with
  | nil =>
    cases h'
    rfl
  | cons hfind hread _ _ ihabove ihrest =>
    cases h' with
    | cons hfind' hread' habove' hrest' =>
      obtain rfl := Option.some.inj (hfind.symm.trans hfind')
      obtain rfl := Except.ok.inj (hread.symm.trans hread')
      rw [ihabove habove', ihrest hrest']

theorem PostOrder.unique {order' : List Visit} (h : PostOrder t path order)
    (h' : PostOrder t path order') : order = order' := by
  obtain ⟨d, above, hread, habove, rfl⟩ := h
  obtain ⟨d', above', hread', habove', rfl⟩ := h'
  obtain rfl := Except.ok.inj (hread.symm.trans hread')
  rw [habove.unique habove']

/-- The configurations of a first entry come before those of the others. -/
theorem PostOrder.cons {base : Path} {spec : Text} (hfind : t.findBase? dir spec = some base)
    (hbase : PostOrder t base order) (h : Unfolds t dir specs visits) :
    Unfolds t dir (spec :: specs) (order ++ visits) := by
  obtain ⟨d, above, hread, habove, rfl⟩ := hbase
  rw [List.append_assoc, List.singleton_append]
  exact .cons hfind hread habove h

end FileTree

/-! ## Folding the order -/

/-- The last list of a kind that is declared in an order, with the directory of the configuration
that declares it. -/
def lastList (list : Declaration → Option (List Text)) (order : List Visit) : Option FileList :=
  (order.filterMap fun v => (list v.declaration).map (FileList.mk v.path.configDir)).getLast?

/-- The value of the last configuration in an order that declares an option. -/
def lastOption (key : Text) (order : List Visit) : Option Json :=
  (order.filterMap fun v => Json.field? key (v.declaration.options.getD [])).getLast?

theorem lastList_append (list : Declaration → Option (List Text)) (order later : List Visit) :
    lastList list (order ++ later) = (lastList list later).or (lastList list order) := by
  rw [lastList, List.filterMap_append, List.getLast?_append]
  rfl

theorem lastList_singleton (list : Declaration → Option (List Text)) (v : Visit) :
    lastList list [v] = (list v.declaration).map (FileList.mk v.path.configDir) := by
  unfold lastList
  cases hlist : list v.declaration <;> simp [hlist]

theorem lastOption_append (key : Text) (order later : List Visit) :
    lastOption key (order ++ later) = (lastOption key later).or (lastOption key order) := by
  rw [lastOption, List.filterMap_append, List.getLast?_append]
  rfl

theorem lastOption_singleton (key : Text) (v : Visit) :
    lastOption key [v] = Json.field? key (v.declaration.options.getD []) := by
  unfold lastOption
  cases hvalue : Json.field? key (v.declaration.options.getD []) <;> simp [hvalue]

namespace Config

open FileTree

/-- The parts of a configuration are what an order declares last. -/
structure IsFold (c : Config) (order : List Visit) : Prop where
  files : c.files = lastList Declaration.files order
  includes : c.includes = lastList Declaration.includes order
  excludes : c.excludes = lastList Declaration.excludes order
  options : ∀ key, Json.field? key c.options = lastOption key order
  options_distinct : Json.KeysDistinct c.options

variable {t : FileTree} {chain : List Path} {path : Path} {c b : Config} {d : Declaration}
  {order later : List Visit}

namespace IsFold

theorem nil (path : Path) : IsFold { path := path } [] where
  files := rfl
  includes := rfl
  excludes := rfl
  options _ := rfl
  options_distinct := Json.keysDistinct_nil

theorem inherit (h : c.IsFold order) (hb : b.IsFold later) :
    (c.inherit b).IsFold (order ++ later) where
  files := by rw [lastList_append, ← h.files, ← hb.files]; rfl
  includes := by rw [lastList_append, ← h.includes, ← hb.includes]; rfl
  excludes := by rw [lastList_append, ← h.excludes, ← hb.excludes]; rfl
  options key := by
    rw [lastOption_append, ← h.options, ← hb.options]
    exact Json.field?_setFields hb.options_distinct key c.options
  options_distinct := h.options_distinct.setFields b.options

theorem declare (h : c.IsFold order) (hread : t.readDeclaration path = .ok d) :
    (c.declare d path.configDir).IsFold (order ++ [⟨path, d⟩]) where
  files := by rw [lastList_append, lastList_singleton, ← h.files]; rfl
  includes := by rw [lastList_append, lastList_singleton, ← h.includes]; rfl
  excludes := by rw [lastList_append, lastList_singleton, ← h.excludes]; rfl
  options key := by
    rw [lastOption_append, lastOption_singleton, ← h.options]
    exact Json.field?_setFields (readDeclaration_optionsDistinct hread) key c.options
  options_distinct := h.options_distinct.setFields _

end IsFold

/-- A load that succeeds folds the post-order; while its bases are taken over, what is folded so far
is extended by what they unfold to. -/
theorem loadChain_isFold (h : t.loadChain chain path = some (.ok c)) :
    c.path = path ∧ ∃ order, t.PostOrder path order ∧ c.IsFold order := by
  refine loadChain_induction (P := fun _ path r => ∀ c, r = .ok c →
      c.path = path ∧ ∃ order, t.PostOrder path order ∧ c.IsFold order)
    (Q := fun _ path c specs r => ∀ c' order, r = .ok c' → c.IsFold order →
      c'.path = c.path ∧ ∃ visits, t.Unfolds path.configDir specs visits ∧
        c'.IsFold (order ++ visits))
    ?circular ?unreadable ?failed ?loaded ?nil ?missing ?broken ?next h c rfl
  case circular => exact fun _ _ hc => nomatch hc
  case unreadable => exact fun _ _ _ hc => nomatch hc
  case failed => exact fun _ _ _ _ hc => nomatch hc
  case missing => exact fun _ _ _ hc => nomatch hc
  case broken => exact fun _ _ _ _ hc => nomatch hc
  case loaded =>
    intro chain path d c _ hread ih _ hc
    cases hc
    obtain ⟨hpath, visits, hvisits, hfold⟩ := ih c [] rfl (.nil path)
    refine ⟨hpath, visits ++ [⟨path, d⟩], ⟨d, visits, hread, hvisits, rfl⟩, ?_⟩
    exact hfold.declare hread
  case nil =>
    intro chain path c c' order hc hfold
    cases hc
    refine ⟨rfl, [], .nil, ?_⟩
    rw [List.append_nil]
    exact hfold
  case next =>
    -- The base is folded on its own and then put after what was folded before it.
    intro chain path c spec specs base b r hfind hb ih c' order hc hfold
    obtain ⟨_, later, hlater, hbfold⟩ := hb b rfl
    obtain ⟨hpath, visits, hvisits, hfold'⟩ := ih c' (order ++ later) hc (hfold.inherit hbfold)
    refine ⟨hpath, later ++ visits, hlater.cons hfind hvisits, ?_⟩
    rw [← List.append_assoc]
    exact hfold'

theorem loadChain_of_load (h : load t path = .ok c) : t.loadChain [] path = some (.ok c) := by
  unfold load at h
  cases hr : t.loadChain [] path with
  | none =>
    rw [hr] at h
    cases h
  | some r =>
    rw [hr] at h
    exact congrArg some h

theorem noEmit_iff (c : Config) :
    c.noEmit = true ↔ Json.field? "noEmit".toList c.options = some (.bool true) := by
  unfold noEmit
  split
  · next value hvalue =>
    rw [hvalue]
    simp
  · next hother =>
    exact ⟨fun h => absurd h Bool.false_ne_true, fun h => absurd h (hother true)⟩

/-- The main result. A configuration that was loaded folds the only post-order there is. -/
theorem load_isFold (h : load t path = .ok c) :
    c.path = path ∧ ∃ order, t.PostOrder path order ∧
      (∀ order', t.PostOrder path order' → order' = order) ∧ c.IsFold order ∧
      (c.noEmit = true ↔ lastOption "noEmit".toList order = some (.bool true)) := by
  obtain ⟨hpath, order, horder, hfold⟩ := loadChain_isFold (loadChain_of_load h)
  refine ⟨hpath, order, horder, fun order' horder' => horder'.unique horder, hfold, ?_⟩
  rw [noEmit_iff, hfold.options]

/-- A configuration that builds on another one twice. -/
def extendedTwice : FileTree :=
  let root := "\x7b\"extends\": [\"./base\", \"./base\"], \"include\": [\"src\"]\x7d"
  let base := "\x7b\"include\": [\"lib\"], \"compilerOptions\": \x7b\"noEmit\": true\x7d\x7d"
  ⟨[([.ofString "r", .ofString "tsconfig.json"], .file (Text.toUtf8 root.toList) false),
    ([.ofString "r", .ofString "base.json"], .file (Text.toUtf8 base.toList) false),
    ([.ofString "r"], .dir)]⟩

theorem load_isFold_extendedTwice :
    ∃ c order, load extendedTwice (.ofString "/r/tsconfig.json") = .ok c ∧ c.IsFold order ∧
      order.map Visit.path =
        [.ofString "/r/base.json", .ofString "/r/base.json", .ofString "/r/tsconfig.json"] := by
  obtain ⟨root, hroot, hbases⟩ : ∃ d, extendedTwice.readDeclaration (.ofString "/r/tsconfig.json") =
      .ok d ∧ d.bases = ["./base".toList, "./base".toList] :=
    exists_read_of_bases (by decide +kernel)
  obtain ⟨base, hbase, hnone⟩ : ∃ d, extendedTwice.readDeclaration (.ofString "/r/base.json") =
      .ok d ∧ d.bases = [] :=
    exists_read_of_bases (by decide +kernel)
  have hfind : extendedTwice.findBase? (Path.ofString "/r/tsconfig.json").configDir
      "./base".toList = some (.ofString "/r/base.json") := by decide +kernel
  have hfresh : ¬ OnChain [.ofString "/r/tsconfig.json"] (.ofString "/r/base.json") := by
    rw [onChain_cons, not_or]
    exact ⟨by decide +kernel, not_onChain_nil⟩
  have hloaded : extendedTwice.loadChain [.ofString "/r/tsconfig.json"] (.ofString "/r/base.json") =
      some (.ok (({ path := .ofString "/r/base.json" } : Config).declare base
        (Path.ofString "/r/base.json").configDir)) := by
    rw [loadChain_of_readable hfresh hbase, hnone, inheritChain_nil]
    rfl
  have hload : ∃ c, load extendedTwice (.ofString "/r/tsconfig.json") = .ok c := by
    unfold load
    rw [loadChain_of_readable not_onChain_nil hroot, hbases, inheritChain_of_loaded hfind hloaded,
      inheritChain_of_loaded hfind hloaded, inheritChain_nil]
    exact ⟨_, rfl⟩
  obtain ⟨c, hc⟩ := hload
  obtain ⟨_, order, _, hunique, hfold, _⟩ := load_isFold hc
  have hunfolds : extendedTwice.Unfolds (Path.ofString "/r/base.json").configDir base.bases [] := by
    rw [hnone]
    exact .nil
  have horder : extendedTwice.PostOrder (.ofString "/r/tsconfig.json")
      ([⟨.ofString "/r/base.json", base⟩, ⟨.ofString "/r/base.json", base⟩] ++
        [⟨.ofString "/r/tsconfig.json", root⟩]) := by
    refine ⟨root, _, hroot, ?_, rfl⟩
    rw [hbases]
    exact .cons hfind hbase hunfolds (.cons hfind hbase hunfolds .nil)
  exact ⟨c, order, hc, hfold, by rw [← hunique _ horder]; rfl⟩

end Config

end Typesweep
