import Mathlib.Data.Finset.Card
import Typesweep.Proofs.Config.Loading
import Typesweep.Proofs.Config.Reached

/-!
# Loads that come to an end

When a load ends, and when it answers that a configuration builds on itself. Two spellings of one
path are one configuration here, as they are for the chain.

* `Config.exists_loadChain_eq`: a load ends if it meets finitely many configurations. What gets less
  are the configurations that are not on the chain.
* `Config.onCycle_of_circular`: a configuration that is called circular builds on itself.
* `Config.not_same_of_loadChain_eq_ok`: below a configuration that was loaded nothing comes back.
-/

namespace Typesweep

open Relation

namespace FileTree

/-- From no configuration that is met one gets back to it. -/
def Acyclic (t : FileTree) (path : Path) : Prop :=
  ∀ p q, ReflTransGen t.Extends path p → TransGen t.Extends p q → ¬ p.Same q

/-- The path `q` is one by which a configuration that is met is met again from itself. -/
def OnCycle (t : FileTree) (path q : Path) : Prop :=
  ∃ p, ReflTransGen t.Extends path p ∧ TransGen t.Extends p q ∧ p.Same q

/-- Every configuration that is met can be read, and all of its entries lead to a file. -/
def Resolves (t : FileTree) (path : Path) : Prop :=
  ∀ p, ReflTransGen t.Extends path p → ∃ d, t.readDeclaration p = .ok d ∧
    ∀ spec ∈ d.bases, t.findBase? p.configDir spec ≠ none

theorem readDeclaration_ne_circular {path q : Path} (t : FileTree) :
    t.readDeclaration path ≠ .error (.circular q) := by
  unfold readDeclaration
  split
  · exact fun h => nomatch h
  · dsimp only
    split
    · exact fun h => nomatch h
    · exact fun h => nomatch h

variable {t : FileTree} {chain : List Path} {path root p q : Path} {c : Config} {d : Declaration}
  {specs : List Text}

/-- The entries `specs` of the configuration at `path` are among those that it builds on. -/
def AreBases (t : FileTree) (path : Path) (specs : List Text) : Prop :=
  ∀ spec ∈ specs, ∀ base, t.findBase? path.configDir spec = some base → t.Extends path base

theorem areBases_of_read (hread : t.readDeclaration path = .ok d) : AreBases t path d.bases :=
  fun spec hspec _ hfind => ⟨d, spec, hread, hspec, hfind⟩

theorem AreBases.head {spec : Text} {base : Path} (h : AreBases t path (spec :: specs))
    (hfind : t.findBase? path.configDir spec = some base) : t.Extends path base :=
  h spec List.mem_cons_self base hfind

theorem AreBases.tail {spec : Text} (h : AreBases t path (spec :: specs)) : AreBases t path specs :=
  fun spec' hspec => h spec' (List.mem_cons_of_mem spec hspec)

/-! ## Loads end -/

/-- The bases are taken over in the end if each of them is loaded in the end. -/
theorem exists_inheritChain_eq (c : Config)
    (h : ∀ spec ∈ specs, ∀ base, t.findBase? path.configDir spec = some base →
      ∃ r, t.loadChain chain base = some r) :
    ∃ r, t.inheritChain chain path c specs = some r := by
  induction specs generalizing c with
  | nil => exact ⟨.ok c, inheritChain_nil⟩
  | cons spec specs ih =>
    cases hfind : t.findBase? path.configDir spec with
    | none => exact ⟨_, inheritChain_of_missing hfind⟩
    | some base =>
      obtain ⟨r, hr⟩ := h spec List.mem_cons_self base hfind
      cases r with
      | error e => exact ⟨_, inheritChain_of_broken hfind hr⟩
      | ok b =>
        rw [inheritChain_of_loaded hfind hr]
        exact ih _ fun spec' hspec' => h spec' (List.mem_cons_of_mem spec hspec')

/-- The configurations of a finite set that are not on a chain. -/
def offChain (all : Finset (List Component)) (chain : List Path) : Finset (List Component) :=
  all.filter fun cs => cs ∉ chain.map Path.components

theorem card_offChain_lt {all : Finset (List Component)} (hmem : path.components ∈ all)
    (hfresh : ¬ OnChain chain path) :
    (offChain all (path :: chain)).card < (offChain all chain).card := by
  refine Finset.card_lt_card ⟨fun cs hcs => ?_, fun hsub => ?_⟩
  · rw [offChain, Finset.mem_filter, List.map_cons, List.mem_cons, not_or] at hcs
    exact Finset.mem_filter.mpr ⟨hcs.1, hcs.2.2⟩
  · have hpath : path.components ∈ offChain all chain := by
      refine Finset.mem_filter.mpr ⟨hmem, fun hchain => hfresh ?_⟩
      obtain ⟨seen, hseen, heq⟩ := List.mem_map.mp hchain
      exact ⟨seen, hseen, heq⟩
    exact (Finset.mem_filter.mp (hsub hpath)).2 List.mem_cons_self

/-- A load comes to an end if finitely many configurations are met. -/
theorem exists_loadChain_eq (hfinite : (t.reached root).Finite)
    (hreach : ReflTransGen t.Extends root path) : ∃ r, t.loadChain chain path = some r := by
  induction hn : (offChain hfinite.toFinset chain).card using Nat.strong_induction_on
    generalizing chain path with
  | _ n ih =>
    by_cases hchain : OnChain chain path
    · exact ⟨_, loadChain_of_onChain hchain⟩
    · cases hread : t.readDeclaration path with
      | error e => exact ⟨_, loadChain_of_unreadable hchain hread⟩
      | ok d =>
        have hmem : path.components ∈ hfinite.toFinset :=
          hfinite.mem_toFinset.mpr ⟨path, hreach, rfl⟩
        -- The bases are loaded with one more configuration on the chain.
        have hless := card_offChain_lt hmem hchain
        have hbases : ∀ spec ∈ d.bases, ∀ base, t.findBase? path.configDir spec = some base →
            ∃ r, t.loadChain (path :: chain) base = some r := by
          intro spec hspec base hfind
          exact ih _ (hn ▸ hless) (hreach.tail ⟨d, spec, hread, hspec, hfind⟩) rfl
        obtain ⟨r, hr⟩ := exists_inheritChain_eq { path := path } hbases
        rw [loadChain_of_readable hchain hread, hr]
        exact ⟨_, rfl⟩

/-! ## Circular configurations -/

/-- A load only says that a configuration is circular if one gets back to it: all of the chain is
met from `root`, and `path` is met from all of it. -/
theorem onCycle_of_loadChain_eq (hreach : ReflTransGen t.Extends root path)
    (hchain : ∀ seen ∈ chain, ReflTransGen t.Extends root seen ∧ TransGen t.Extends seen path)
    (h : t.loadChain chain path = some (.error (.circular q))) : t.OnCycle root q := by
  refine loadChain_induction (P := fun chain path r => ReflTransGen t.Extends root path →
      (∀ seen ∈ chain, ReflTransGen t.Extends root seen ∧ TransGen t.Extends seen path) →
      r = .error (.circular q) → t.OnCycle root q)
    (Q := fun chain path _ specs r => AreBases t path specs → ReflTransGen t.Extends root path →
      (∀ seen ∈ chain, ReflTransGen t.Extends root seen ∧ ReflTransGen t.Extends seen path) →
      r = .error (.circular q) → t.OnCycle root q)
    ?circular ?unreadable ?failed ?loaded ?nil ?missing ?broken ?next h hreach hchain rfl
  case circular =>
    intro chain path hon _ hwalk heq
    cases heq
    obtain ⟨seen, hseen, hsame⟩ := hon
    obtain ⟨hroot, hpath⟩ := hwalk seen hseen
    exact ⟨seen, hroot, hpath, hsame⟩
  case unreadable =>
    intro chain path e _ hread _ _ heq
    cases heq
    exact absurd hread t.readDeclaration_ne_circular
  case failed =>
    -- While the bases are loaded `path` is on the chain too, and it is met from itself.
    intro chain path d e _ hread ih hpath hwalk
    refine ih (areBases_of_read hread) hpath fun seen hseen => ?_
    rcases List.mem_cons.mp hseen with rfl | hseen
    · exact ⟨hpath, .refl⟩
    · exact (hwalk seen hseen).imp_right TransGen.to_reflTransGen
  case loaded => exact fun _ _ _ _ _ heq => nomatch heq
  case nil => exact fun _ _ _ heq => nomatch heq
  case missing => exact fun _ _ _ _ heq => nomatch heq
  case broken =>
    intro chain path c spec specs base e hfind ih hbases hpath hwalk
    have hstep := hbases.head hfind
    exact ih (hpath.tail hstep) fun seen hseen =>
      (hwalk seen hseen).imp_right fun hseen => .tail' hseen hstep
  case next =>
    intro chain path c spec specs base b r _ _ ih hbases
    exact ih hbases.tail

/-- What is met from a configuration is not on a chain, and nothing of it comes back to itself. -/
structure ComesToEnd (t : FileTree) (chain : List Path) (path : Path) : Prop where
  off_chain : ∀ p, ReflTransGen t.Extends path p → ¬ OnChain chain p
  acyclic : t.Acyclic path

/-- Below a configuration comes to an end what does so below each of its bases. -/
theorem ComesToEnd.of_bases (hread : t.readDeclaration path = .ok d) (hfresh : ¬ OnChain chain path)
    (h : ∀ spec ∈ d.bases, ∀ base, t.findBase? path.configDir spec = some base →
      ComesToEnd t (path :: chain) base) : ComesToEnd t chain path := by
  have hstep : ∀ base, t.Extends path base → ComesToEnd t (path :: chain) base := by
    intro base hbase
    obtain ⟨spec, hspec, hfind⟩ := (extends_iff_of_read hread).mp hbase
    exact h spec hspec base hfind
  constructor
  · intro p hp hon
    rcases ReflTransGen.cases_head hp with rfl | ⟨base, hbase, hp⟩
    · exact hfresh hon
    · exact (hstep base hbase).off_chain p hp (onChain_cons.mpr (.inr hon))
  · intro p q hp hpq hsame
    rcases ReflTransGen.cases_head hp with rfl | ⟨base, hbase, hp⟩
    · -- A base that leads back to `path` would lead back to its own chain.
      obtain ⟨base, hbase, hq⟩ := TransGen.head'_iff.mp hpq
      exact (hstep base hbase).off_chain q hq (onChain_cons.mpr (.inl hsame))
    · exact (hstep base hbase).acyclic p q hp hpq hsame

/-- What a loaded configuration builds on comes to an end. -/
theorem comesToEnd_of_loadChain_eq (h : t.loadChain chain path = some (.ok c)) :
    ComesToEnd t chain path := by
  refine loadChain_induction (P := fun chain path r => ∀ c, r = .ok c → ComesToEnd t chain path)
    (Q := fun chain path _ specs r => ∀ c, r = .ok c → ∀ spec ∈ specs, ∀ base,
      t.findBase? path.configDir spec = some base → ComesToEnd t chain base)
    ?circular ?unreadable ?failed ?loaded ?nil ?missing ?broken ?next h c rfl
  case circular => exact fun _ _ hc => nomatch hc
  case unreadable => exact fun _ _ _ hc => nomatch hc
  case failed => exact fun _ _ _ _ hc => nomatch hc
  case missing => exact fun _ _ hc => nomatch hc
  case broken => exact fun _ _ _ hc => nomatch hc
  case loaded =>
    intro chain path d c hfresh hread ih _ _
    exact .of_bases hread hfresh (ih c rfl)
  case nil => exact fun _ _ spec hspec => absurd hspec List.not_mem_nil
  case next =>
    intro chain path c spec specs base b r hfind hb ih c' hc spec' hspec' base' hfind'
    rcases List.mem_cons.mp hspec' with rfl | hspec'
    · obtain rfl := Option.some.inj (hfind.symm.trans hfind')
      exact hb b rfl
    · exact ih c' hc spec' hspec' base' hfind'

/-- If all that is met can be read and leads to files, only a circular configuration is an error. -/
theorem circular_of_resolves {e : ConfigError} (hresolves : t.Resolves path)
    (h : t.loadChain chain path = some (.error e)) : ∃ q, e = .circular q := by
  refine loadChain_induction (P := fun _ path r => t.Resolves path → ∀ e, r = .error e →
      ∃ q, e = .circular q)
    (Q := fun _ path _ specs r => (∀ spec ∈ specs, t.findBase? path.configDir spec ≠ none) →
      (∀ spec ∈ specs, ∀ base, t.findBase? path.configDir spec = some base → t.Resolves base) →
      ∀ e, r = .error e → ∃ q, e = .circular q)
    ?circular ?unreadable ?failed ?loaded ?nil ?missing ?broken ?next h hresolves e rfl
  case circular =>
    intro chain path _ _ e he
    exact ⟨path, (Except.error.inj he).symm⟩
  case unreadable =>
    intro chain path e _ hread hresolves
    obtain ⟨d, hok, _⟩ := hresolves path .refl
    exact absurd (hread.symm.trans hok) (fun heq => nomatch heq)
  case failed =>
    intro chain path d e _ hread ih hresolves
    obtain ⟨d', hok, hfound⟩ := hresolves path .refl
    obtain rfl := Except.ok.inj (hread.symm.trans hok)
    refine ih hfound fun spec hspec base hfind p hp => hresolves p ?_
    exact .head ⟨d, spec, hread, hspec, hfind⟩ hp
  case loaded => exact fun _ _ _ _ _ he => nomatch he
  case nil => exact fun _ _ _ he => nomatch he
  case missing =>
    intro chain path c spec specs hfind hfound
    exact absurd hfind (hfound spec List.mem_cons_self)
  case broken =>
    intro chain path c spec specs base e hfind ih _ hbases
    exact ih (hbases spec List.mem_cons_self base hfind)
  case next =>
    intro chain path c spec specs base b r _ _ ih hfound hbases
    exact ih (fun spec' hspec' => hfound spec' (List.mem_cons_of_mem spec hspec'))
      fun spec' hspec' => hbases spec' (List.mem_cons_of_mem spec hspec')

end FileTree

/-! ## The main result -/

namespace Config

open FileTree

variable {t : FileTree} {path : Path}

theorem load_eq_of_loadChain_eq {r : Except ConfigError Config}
    (h : t.loadChain [] path = some r) : load t path = r := by
  rw [load, h]
  rfl

/-- Without links and without packages that go up, finitely many configurations are met; then the
load ends. If nothing comes back to itself no configuration is called circular. If all can be read
and something comes back to itself, one is, and it is one that comes back. -/
theorem load_terminates (t : FileTree) (path : Path) :
    (t.LinkFree → t.BareWithoutUp path → (t.reached path).Finite) ∧
    ((t.reached path).Finite → t.loadChain [] path = some (load t path)) ∧
    (t.Acyclic path → ∀ q, load t path ≠ .error (.circular q)) ∧
    ((t.reached path).Finite → t.Resolves path → ¬ t.Acyclic path →
      ∃ q, load t path = .error (.circular q) ∧ t.OnCycle path q) := by
  have hends : (t.reached path).Finite → t.loadChain [] path = some (load t path) := by
    intro hfinite
    obtain ⟨r, hr⟩ : ∃ r, t.loadChain [] path = some r := exists_loadChain_eq hfinite .refl
    rw [load_eq_of_loadChain_eq hr, hr]
  have hcycle : ∀ q, t.loadChain [] path = some (.error (.circular q)) → t.OnCycle path q :=
    fun q => onCycle_of_loadChain_eq .refl fun seen hseen => absurd hseen List.not_mem_nil
  refine ⟨fun hlinks hbare => reached_finite hlinks hbare, hends, ?_, ?_⟩
  · intro hacyclic q hload
    cases hr : t.loadChain [] path with
    | none =>
      rw [load, hr] at hload
      cases hload
    | some r =>
      obtain rfl := (load_eq_of_loadChain_eq hr).symm.trans hload
      obtain ⟨p, hp, hpq, hsame⟩ := hcycle q hr
      exact hacyclic p q hp hpq hsame
  · intro hfinite hresolves hcyclic
    have hr := hends hfinite
    cases hload : load t path with
    | ok c =>
      -- A load that succeeds has followed all that is met, to the end.
      rw [hload] at hr
      exact absurd (comesToEnd_of_loadChain_eq hr).acyclic hcyclic
    | error e =>
      rw [hload] at hr
      obtain ⟨q, rfl⟩ := circular_of_resolves hresolves hr
      exact ⟨q, rfl, hcycle q hr⟩

/-- Two configurations that build on each other, and one that builds twice on one that builds on
nothing. -/
def loopAndShared : FileTree :=
  ⟨[([.ofString "a.json"], .file (Text.toUtf8 "\x7b\"extends\": \"./b\"\x7d".toList) false),
    ([.ofString "b.json"], .file (Text.toUtf8 "\x7b\"extends\": \"./a\"\x7d".toList) false),
    ([.ofString "c.json"],
      .file (Text.toUtf8 "\x7b\"extends\": [\"./d\", \"./d\"]\x7d".toList) false),
    ([.ofString "d.json"], .file (Text.toUtf8 "\x7b\x7d".toList) false)]⟩

theorem load_terminates_loopAndShared :
    (∃ q, load loopAndShared (.ofString "/a.json") = .error (.circular q) ∧
      loopAndShared.OnCycle (.ofString "/a.json") q) ∧
    ∀ q, load loopAndShared (.ofString "/c.json") ≠ .error (.circular q) := by
  obtain ⟨a, ha, hab⟩ : ∃ d, loopAndShared.readDeclaration (.ofString "/a.json") = .ok d ∧
      d.bases = ["./b".toList] :=
    exists_read_of_bases (by decide +kernel)
  obtain ⟨b, hb, hba⟩ : ∃ d, loopAndShared.readDeclaration (.ofString "/b.json") = .ok d ∧
      d.bases = ["./a".toList] :=
    exists_read_of_bases (by decide +kernel)
  obtain ⟨c, hc, hcd⟩ : ∃ d, loopAndShared.readDeclaration (.ofString "/c.json") = .ok d ∧
      d.bases = ["./d".toList, "./d".toList] :=
    exists_read_of_bases (by decide +kernel)
  obtain ⟨d, hd, hdnone⟩ : ∃ d, loopAndShared.readDeclaration (.ofString "/d.json") = .ok d ∧
      d.bases = [] :=
    exists_read_of_bases (by decide +kernel)
  have hfinda : ∀ spec ∈ a.bases, loopAndShared.findBase? (Path.ofString "/a.json").configDir
      spec = some (.ofString "/b.json") := by
    rw [hab]
    decide +kernel
  have hfindb : ∀ spec ∈ b.bases, loopAndShared.findBase? (Path.ofString "/b.json").configDir
      spec = some (.ofString "/a.json") := by
    rw [hba]
    decide +kernel
  have hfindc : ∀ spec ∈ c.bases, loopAndShared.findBase? (Path.ofString "/c.json").configDir
      spec = some (.ofString "/d.json") := by
    rw [hcd]
    decide +kernel
  have hstepa : ∀ q, loopAndShared.Extends (.ofString "/a.json") q ↔ q = .ofString "/b.json" :=
    fun q => extends_iff_eq ha (by rw [hab]; exact List.cons_ne_nil _ _) hfinda
  have hstepb : ∀ q, loopAndShared.Extends (.ofString "/b.json") q ↔ q = .ofString "/a.json" :=
    fun q => extends_iff_eq hb (by rw [hba]; exact List.cons_ne_nil _ _) hfindb
  have hstepc : ∀ q, loopAndShared.Extends (.ofString "/c.json") q ↔ q = .ofString "/d.json" :=
    fun q => extends_iff_eq hc (by rw [hcd]; exact List.cons_ne_nil _ _) hfindc
  have hstepd : ∀ q, ¬ loopAndShared.Extends (.ofString "/d.json") q := by
    intro q
    rw [extends_iff_of_read hd, hdnone]
    simp
  have hloop : ∀ p, ReflTransGen loopAndShared.Extends (.ofString "/a.json") p →
      p = .ofString "/a.json" ∨ p = .ofString "/b.json" := by
    intro p hp
    induction hp with
    | refl => exact .inl rfl
    | tail _ hstep ih =>
      rcases ih with rfl | rfl
      · exact .inr ((hstepa _).mp hstep)
      · exact .inl ((hstepb _).mp hstep)
  obtain ⟨hfinite, _, _, hcircular⟩ := load_terminates loopAndShared (.ofString "/a.json")
  obtain ⟨_, _, hshared, _⟩ := load_terminates loopAndShared (.ofString "/c.json")
  refine ⟨hcircular (hfinite ?links ?bare) ?resolves ?cyclic, hshared ?acyclic⟩
  case links => simp [LinkFree, loopAndShared]
  case bare =>
    intro p hp d' hd' spec hspec hbare
    have hdot : spec.head? = some '.' := by
      rcases hloop p hp with rfl | rfl
      · obtain rfl := Except.ok.inj (ha.symm.trans hd')
        rw [hab] at hspec
        rw [List.mem_singleton.mp hspec]
        decide
      · obtain rfl := Except.ok.inj (hb.symm.trans hd')
        rw [hba] at hspec
        rw [List.mem_singleton.mp hspec]
        decide
    exact absurd (.inl hdot) hbare
  case resolves =>
    intro p hp
    rcases hloop p hp with rfl | rfl
    · refine ⟨a, ha, fun spec hspec => ?_⟩
      rw [hfinda spec hspec]
      exact Option.some_ne_none _
    · refine ⟨b, hb, fun spec hspec => ?_⟩
      rw [hfindb spec hspec]
      exact Option.some_ne_none _
  case cyclic =>
    intro hacyclic
    refine hacyclic (.ofString "/a.json") (.ofString "/a.json") .refl ?_ rfl
    exact .tail (.single ((hstepa _).mpr rfl)) ((hstepb _).mpr rfl)
  case acyclic =>
    intro p q hp hpq
    rcases ReflTransGen.cases_head hp with rfl | ⟨base, hbase, hp⟩
    · obtain ⟨base, hbase, hq⟩ := TransGen.head'_iff.mp hpq
      obtain rfl := (hstepc base).mp hbase
      rcases ReflTransGen.cases_head hq with rfl | ⟨next, hnext, _⟩
      · decide +kernel
      · exact absurd hnext (hstepd next)
    · obtain rfl := (hstepc base).mp hbase
      rcases ReflTransGen.cases_head hp with rfl | ⟨next, hnext, _⟩
      · obtain ⟨next, hnext, _⟩ := TransGen.head'_iff.mp hpq
        exact absurd hnext (hstepd next)
      · exact absurd hnext (hstepd next)

end Config

end Typesweep
