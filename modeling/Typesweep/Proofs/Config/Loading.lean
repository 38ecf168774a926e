import Typesweep.Config.Load

/-!
# Loads step by step

A load answers at once if its path is on the chain or cannot be read, and otherwise takes over its
bases one after the other.

* `loadChain_of_onChain`, `loadChain_of_unreadable`, `loadChain_of_readable`, `inheritChain_nil`,
  `inheritChain_of_missing`, `inheritChain_of_broken`, `inheritChain_of_loaded`: the steps.
* `load_of_no_bases`, `exists_load_of_lists`: a configuration that builds on no other.
* `loadChain_induction`: what every step keeps holds of every load that comes to an end.
-/

namespace Typesweep

namespace FileTree

variable {t : FileTree} {chain : List Path} {path base : Path} {c : Config} {d : Declaration}
  {e : ConfigError} {spec : Text} {specs : List Text}

/-- A configuration can be read if some part of what it declares is known. -/
theorem exists_read_of_part {α : Type} {part : Declaration → α} {value : α}
    (h : (t.readDeclaration path).toOption.map part = some value) :
    ∃ d, t.readDeclaration path = .ok d ∧ part d = value := by
  cases hread : t.readDeclaration path with
  | error e =>
    rw [hread] at h
    cases h
  | ok d =>
    rw [hread] at h
    exact ⟨d, rfl, Option.some.inj h⟩

theorem exists_read_of_bases {bases : List Text}
    (h : (t.readDeclaration path).toOption.map (fun d => d.bases) = some bases) :
    ∃ d, t.readDeclaration path = .ok d ∧ d.bases = bases :=
  exists_read_of_part h

/-- Whether a path is among those that are being loaded. -/
def OnChain (chain : List Path) (path : Path) : Prop :=
  ∃ seen ∈ chain, seen.Same path

theorem onChain_cons {seen : Path} :
    OnChain (seen :: chain) path ↔ seen.Same path ∨ OnChain chain path := by
  simp [OnChain]

theorem not_onChain_nil : ¬ OnChain [] path := by
  simp [OnChain]

theorem any_same_iff :
    (chain.any fun seen => decide (seen.Same path)) = true ↔ OnChain chain path := by
  simp [OnChain]

/-! ## The steps -/

theorem loadChain_of_onChain (h : OnChain chain path) :
    t.loadChain chain path = some (.error (.circular path)) := by
  rw [loadChain, if_pos (any_same_iff.mpr h)]

theorem loadChain_of_unreadable (h : ¬ OnChain chain path)
    (hread : t.readDeclaration path = .error e) : t.loadChain chain path = some (.error e) := by
  rw [loadChain, if_neg (mt any_same_iff.mp h), hread]

theorem loadChain_of_readable (h : ¬ OnChain chain path)
    (hread : t.readDeclaration path = .ok d) :
    t.loadChain chain path =
      (t.inheritChain (path :: chain) path { path := path } d.bases).map
        (Except.map fun c => c.declare d path.configDir) := by
  rw [loadChain, if_neg (mt any_same_iff.mp h), hread]
  show (t.inheritChain (path :: chain) path { path := path } d.bases).bind _ = _
  cases t.inheritChain (path :: chain) path { path := path } d.bases with
  | none => rfl
  | some r => cases r <;> rfl

theorem inheritChain_nil : t.inheritChain chain path c [] = some (.ok c) := by
  rw [inheritChain]

theorem inheritChain_of_missing (hfind : t.findBase? path.configDir spec = none) :
    t.inheritChain chain path c (spec :: specs) = some (.error (.baseNotFound spec path)) := by
  rw [inheritChain, hfind]

theorem inheritChain_of_broken (hfind : t.findBase? path.configDir spec = some base)
    (hbase : t.loadChain chain base = some (.error e)) :
    t.inheritChain chain path c (spec :: specs) = some (.error e) := by
  rw [inheritChain, hfind]
  simp only [hbase]
  rfl

theorem inheritChain_of_loaded {b : Config} (hfind : t.findBase? path.configDir spec = some base)
    (hbase : t.loadChain chain base = some (.ok b)) :
    t.inheritChain chain path c (spec :: specs) =
      t.inheritChain chain path (c.inherit b) specs := by
  rw [inheritChain, hfind]
  simp only [hbase]
  rfl

theorem load_of_no_bases (hread : t.readDeclaration path = .ok d) (hbases : d.bases = []) :
    Config.load t path = .ok (({ path := path } : Config).declare d path.configDir) := by
  rw [Config.load, loadChain_of_readable not_onChain_nil hread, hbases, inheritChain_nil]
  rfl

/-- A configuration that builds on no other and declares only lists of patterns. -/
theorem exists_load_of_lists (t : FileTree) (path : Path) (includes excludes : Option (List Text))
    (h : (t.readDeclaration path).toOption.map
      (fun d => (d.bases, d.files, d.includes, d.excludes)) = some ([], none, includes, excludes)) :
    ∃ c, Config.load t path = .ok c ∧ c.path = path ∧ c.files = none ∧
      c.includes = includes.map (FileList.mk path.configDir) ∧
        c.excludes = excludes.map (FileList.mk path.configDir) := by
  obtain ⟨d, hread, hparts⟩ := exists_read_of_part h
  obtain ⟨hbases, hfiles, rfl, rfl⟩ : d.bases = [] ∧ d.files = none ∧ d.includes = includes ∧
      d.excludes = excludes := by simpa using hparts
  refine ⟨_, load_of_no_bases hread hbases, rfl, ?_, ?_, ?_⟩ <;> unfold Config.declare
  · rw [hfiles]
    rfl
  · exact Option.or_none
  · exact Option.or_none

/-! ## Induction over loads -/

/-- Induction over the steps of a load that comes to an end, `P` being what is shown of loads and
`Q` of the bases that are still to be taken over. -/
theorem loadChain_induction {P : List Path → Path → Except ConfigError Config → Prop}
    {Q : List Path → Path → Config → List Text → Except ConfigError Config → Prop}
    (circular : ∀ {chain path}, OnChain chain path → P chain path (.error (.circular path)))
    (unreadable : ∀ {chain path e}, ¬ OnChain chain path → t.readDeclaration path = .error e →
      P chain path (.error e))
    (failed : ∀ {chain path d e}, ¬ OnChain chain path → t.readDeclaration path = .ok d →
      Q (path :: chain) path { path := path } d.bases (.error e) → P chain path (.error e))
    (loaded : ∀ {chain path d c}, ¬ OnChain chain path → t.readDeclaration path = .ok d →
      Q (path :: chain) path { path := path } d.bases (.ok c) →
      P chain path (.ok (c.declare d path.configDir)))
    (nil : ∀ {chain path c}, Q chain path c [] (.ok c))
    (missing : ∀ {chain path c spec specs}, t.findBase? path.configDir spec = none →
      Q chain path c (spec :: specs) (.error (.baseNotFound spec path)))
    (broken : ∀ {chain path c spec specs base e}, t.findBase? path.configDir spec = some base →
      P chain base (.error e) → Q chain path c (spec :: specs) (.error e))
    (next : ∀ {chain path c spec specs base b r}, t.findBase? path.configDir spec = some base →
      P chain base (.ok b) → Q chain path (c.inherit b) specs r → Q chain path c (spec :: specs) r)
    {r : Except ConfigError Config} (h : t.loadChain chain path = some r) : P chain path r := by
  refine (loadChain.mutual_partial_correctness t P Q ?_ ?_).1 chain path r h
  · intro inherits hinherits chain path r hr
    split at hr
    · next hchain =>
      cases hr
      exact circular (any_same_iff.mp hchain)
    · next hchain =>
      have hfresh : ¬ OnChain chain path := mt any_same_iff.mpr hchain
      split at hr
      · next hread =>
        cases hr
        exact unreadable hfresh hread
      · next hread =>
        obtain ⟨rest, hrest, hr⟩ := Option.bind_eq_some_iff.mp hr
        have hbases := hinherits _ _ _ _ _ hrest
        split at hr
        · cases hr
          exact failed hfresh hread hbases
        · cases hr
          exact loaded hfresh hread hbases
  · intro loads inherits hloads hinherits chain path c specs r hr
    split at hr
    · cases hr
      exact nil
    · split at hr
      · next hfind =>
        cases hr
        exact missing hfind
      · next hfind =>
        obtain ⟨found, hfound, hr⟩ := Option.bind_eq_some_iff.mp hr
        have hbase := hloads _ _ _ hfound
        split at hr
        · cases hr
          exact broken hfind hbase
        · exact next hfind hbase (hinherits _ _ _ _ _ hr)

end FileTree

end Typesweep
