import Mathlib.Data.List.Infix
import Typesweep.Proofs.FileTree.Depth
import Typesweep.Proofs.FileTree.Pruning

/-!
# Directories that hold the same

A directory of a tree can hold what another tree holds, wherever the directory stands and whatever
there is around it, also if links lead to it. Without links in the directory itself, the names from
it on decide where a path leads and what a walk finds.

* `HoldsAt`, `placedAt`: a directory with given content, and a tree that has one.
* `find_under`, `lookup_under`: where paths below the directory lead.
* `EntersTo`, `mem_filesBelow_under_iff`: what walks find there.
-/

namespace Typesweep.FileTree

open RawText (slash)

open Component

variable {t content : FileTree} {dir : Path} {here place found : Place} {name : RawText}
  {names : List RawText} {segments : List RawText} {links depth : Nat} {inside : List Place}
  {enter : Path → Text → Bool} {file : Path}

/-- The directory at `dir`, which stands at `place`, holds what `content` does and nothing else. -/
structure HoldsAt (t : FileTree) (dir : Path) (place : Place) (content : FileTree) : Prop where
  find_eq : t.find dir = .ok place
  entry?_eq : ∀ below, t.entry? (place ++ below) = content.entry? below

/-! ## Paths -/

/-- Along names, a directory with the same entries leads to the same. -/
theorem followWith_names (hlinks : content.LinkFree)
    (hplace : ∀ below, t.entry? (place ++ below) = content.entry? below)
    (onLink onLink' : Place → List RawText → Except AccessError Place) (here : Place)
    (hnames : ∀ name ∈ names, (Component.name name).Proper) :
    t.followWith onLink (place ++ here) names =
      (content.followWith onLink' here names).map (place ++ ·) := by
  induction names generalizing here with
  | nil => rfl
  | cons name names ih =>
    obtain ⟨hname, hrest⟩ := List.forall_mem_cons.mp hnames
    have hsegment : ofSegment? name = some (.name name) := hname.1
    obtain ⟨hstay, hup⟩ := not_stays_of_name hsegment
    rw [followWith, followWith, hplace, if_neg hstay, if_neg hup, if_neg hstay, if_neg hup,
      List.append_assoc, hplace]
    cases hhere : content.entry? here with
    | none => rfl
    | some entry =>
      cases entry with
      | file _ _ => rfl
      | link _ => rfl
      | dir =>
        cases hentry : content.entry? (here ++ [name]) with
        | none => rfl
        | some entry =>
          cases entry with
          | link target => exact absurd hentry (hlinks.entry?_ne target)
          | dir => exact ih _ hrest
          | file _ _ => exact ih _ hrest

theorem pathTo_eq (names : List RawText) :
    pathTo names = .ofComponents (.root :: names.map Component.name) := by
  show _ = Path.mk (slash :: Text.joinWith [slash] ((names.map Component.name).map Component.raw))
  rw [Path.map_raw_map_name]
  rfl

theorem isTidy_pathTo (hnames : ∀ name ∈ names, (Component.name name).Proper) :
    (pathTo names).IsTidy :=
  ⟨names.map .name, List.forall_mem_map.mpr hnames, pathTo_eq names⟩

theorem under_pathTo {more : List RawText} (hnames : ∀ name ∈ names, (Component.name name).Proper)
    (hmore : ∀ name ∈ more, (Component.name name).Proper) :
    (pathTo names).under more = pathTo (names ++ more) := by
  rw [pathTo_eq, pathTo_eq, Path.under_ofComponents (List.forall_mem_map.mpr hnames) hmore,
    List.map_append]

theorem find_pathTo (hlinks : content.LinkFree)
    (hnames : ∀ name ∈ names, (Component.name name).Proper)
    (h : content.find (pathTo names) = .ok found) : found = names := by
  rw [find_eq_foldl_walk hlinks h, pathTo_eq,
    Path.components_ofComponents (List.forall_mem_map.mpr hnames)]
  exact foldl_walk_names names []

theorem isFile_pathTo_iff (hlinks : content.LinkFree)
    (hnames : ∀ name ∈ names, (Component.name name).Proper) :
    content.isFile (pathTo names) = true ↔ content.find (pathTo names) = .ok names ∧
      ∃ bytes executable, content.entry? names = some (.file bytes executable) := by
  rw [isFile_iff]
  constructor
  · rintro ⟨found, bytes, executable, hfound, hentry⟩
    obtain rfl := find_pathTo hlinks hnames hfound
    exact ⟨hfound, bytes, executable, hentry⟩
  · rintro ⟨hfound, bytes, executable, hentry⟩
    exact ⟨names, bytes, executable, hfound, hentry⟩

/-- At the top there is a directory. -/
theorem ne_nil_of_isFile_pathTo (h : t.isFile (pathTo names) = true) : names ≠ [] := by
  rintro rfl
  obtain ⟨found, _, _, hfound, hne, -⟩ := exists_find_of_isFile h
  exact hne (Except.ok.inj hfound).symm

/-- What a file lies in is a directory. -/
theorem dir_of_isFile_append (hlinks : content.LinkFree)
    (hnames : ∀ name ∈ names, (Component.name name).Proper) {more : List RawText} (hne : more ≠ [])
    (hmore : ∀ name ∈ more, (Component.name name).Proper)
    (hfile : content.isFile (pathTo (names ++ more)) = true) :
    content.find (pathTo names) = .ok names ∧ content.entry? names = some .dir := by
  rw [← under_pathTo hnames hmore] at hfile
  obtain ⟨_, -, -, hfound, -⟩ := isFile_iff.mp hfile
  obtain ⟨inner, hinner, hentry⟩ :=
    isDir_iff.mp (isDir_of_find_under (isTidy_pathTo hnames) hne hmore hfound)
  obtain rfl := find_pathTo hlinks hnames hinner
  exact ⟨hinner, hentry⟩

section Below

variable (hlinks : content.LinkFree) (hdir : dir.IsTidy) (h : t.HoldsAt dir place content)
include hlinks hdir h

/-- Below the directory, paths lead to where their names lead in the content. -/
theorem find_under (hnames : ∀ name ∈ names, (Component.name name).Proper) :
    t.find (dir.under names) = (content.find (pathTo names)).map (place ++ ·) := by
  obtain ⟨cs, hcs, rfl⟩ := hdir
  have hproper : ∀ c ∈ names.map Component.name, c.Proper := List.forall_mem_map.mpr hnames
  have hleads := h.find_eq
  rw [find_ofComponents hcs, follow_eq_ok_iff] at hleads
  obtain ⟨fewer, hfollow⟩ := hleads.follow_append
  rw [Path.under_ofComponents hcs hnames, pathTo_eq, find_ofComponents hproper,
    find_ofComponents (List.forall_mem_append.mpr ⟨hcs, hproper⟩), List.map_append,
    Path.map_raw_map_name, hfollow]
  obtain ⟨onLink, heq, -⟩ := exists_follow_eq t fewer
  obtain ⟨onLink', heq', -⟩ := exists_follow_eq content maxLinks
  have hsame := followWith_names hlinks h.entry?_eq onLink onLink' [] hnames
  rwa [List.append_nil, ← heq, ← heq'] at hsame

theorem find_under_eq_ok_iff (hnames : ∀ name ∈ names, (Component.name name).Proper) :
    t.find (dir.under names) = .ok found ↔
      found = place ++ names ∧ content.find (pathTo names) = .ok names := by
  rw [find_under hlinks hdir h hnames]
  cases hcontent : content.find (pathTo names) with
  | error e => simp [Except.map]
  | ok inner =>
    obtain rfl := find_pathTo hlinks hnames hcontent
    simp [Except.map, eq_comm]

theorem lookup_under (hnames : ∀ name ∈ names, (Component.name name).Proper) :
    t.lookup (dir.under names) = content.lookup (pathTo names) := by
  rw [lookup, lookup, find_under hlinks hdir h hnames]
  cases content.find (pathTo names) with
  | error e => rfl
  | ok inner => simp only [Except.map, h.entry?_eq]

end Below

/-! ## Walks -/

/-- Whether a walk that goes down from a place along names enters all directories on the way; the
last name is that of a file. -/
def EntersTo (enters : Place → Text → Bool) (here : Place) : List RawText → Prop
  | [] => True
  | [_] => True
  | name :: next :: names =>
    enters (here ++ [name]) (Text.ofBytes name) = true ∧
      EntersTo enters (here ++ [name]) (next :: names)

theorem EntersTo.congr {enters enters' : Place → Text → Bool}
    (h : ∀ inner : Place, (∀ name ∈ inner, (Component.name name).Proper) →
      enters inner = enters' inner)
    (hhere : ∀ name ∈ here, (Component.name name).Proper)
    (hnames : ∀ name ∈ names, (Component.name name).Proper) :
    EntersTo enters here names ↔ EntersTo enters' here names := by
  induction names generalizing here with
  | nil => exact Iff.rfl
  | cons name names ih =>
    obtain ⟨hname, hrest⟩ := List.forall_mem_cons.mp hnames
    have hinner : ∀ other ∈ here ++ [name], (Component.name other).Proper :=
      List.forall_mem_append.mpr ⟨hhere, List.forall_mem_singleton.mpr hname⟩
    cases names with
    | nil => exact Iff.rfl
    | cons next names => rw [EntersTo, EntersTo, h _ hinner, ih hinner hrest]

section Walk

variable (hlinks : content.LinkFree) (hproper : content.NamesProper) (hdir : dir.IsTidy)
  (h : t.HoldsAt dir place content) (hhere : ∀ name ∈ here, (Component.name name).Proper)
include hlinks hproper hdir h hhere

/-- What one step of a walk finds. -/
theorem mem_filesInside_under_succ_iff :
    file ∈ t.filesInside enter (depth + 1) inside (place ++ here) (dir.under here) ↔
      ∃ name, (Component.name name).Proper ∧
        content.find (pathTo (here ++ [name])) = .ok (here ++ [name]) ∧
          ((file = dir.under (here ++ [name]) ∧ ∃ bytes executable,
              content.entry? (here ++ [name]) = some (.file bytes executable)) ∨
            (content.entry? (here ++ [name]) = some .dir ∧
              enter (dir.under (here ++ [name])) (Text.ofBytes name) = true ∧
                file ∈ t.filesInside enter depth ((place ++ (here ++ [name])) :: inside)
                  (place ++ (here ++ [name])) (dir.under (here ++ [name])))) := by
  have hconcat : ∀ {name : RawText}, (Component.name name).Proper →
      ∀ other ∈ here ++ [name], (Component.name other).Proper := fun hname =>
    List.forall_mem_append.mpr ⟨hhere, List.forall_mem_singleton.mpr hname⟩
  have hnames : ∀ name, name ∈ t.names (place ++ here) ↔ name ∈ content.names here := fun name => by
    rw [mem_names_iff_ne_none, mem_names_iff_ne_none, List.append_assoc, h.entry?_eq]
  rw [mem_filesInside_succ_iff]
  constructor
  · rintro ⟨name, hname, found, hfound, hfile⟩
    have hname := hproper.of_mem_names ((hnames name).mp hname)
    rw [← dir.under_concat] at hfound hfile
    obtain ⟨rfl, hinner⟩ := (find_under_eq_ok_iff hlinks hdir h (hconcat hname)).mp hfound
    rw [h.entry?_eq] at hfile
    exact ⟨name, hname, hinner, hfile.imp_right fun ⟨hentry, _, hrest⟩ => ⟨hentry, hrest⟩⟩
  · rintro ⟨name, hname, hinner, hfile⟩
    have hsome : content.entry? (here ++ [name]) ≠ none := by
      rcases hfile with ⟨-, bytes, executable, hentry⟩ | ⟨hentry, -⟩ <;> rw [hentry] <;> exact nofun
    have hmem : name ∈ t.names (place ++ here) :=
      (hnames name).mpr (mem_names_iff_ne_none.mpr hsome)
    refine ⟨name, hmem, place ++ (here ++ [name]), ?_⟩
    rw [← dir.under_concat, h.entry?_eq]
    exact ⟨(find_under_eq_ok_iff hlinks hdir h (hconcat hname)).mpr ⟨rfl, hinner⟩,
      hfile.imp_right fun ⟨hentry, hrest⟩ =>
        ⟨hentry, fun hne => absurd (List.append_assoc place here [name]).symm hne, hrest⟩⟩

theorem mem_filesInside_under_iff (hroom : t.room inside (place ++ here) < depth) :
    file ∈ t.filesInside enter depth inside (place ++ here) (dir.under here) ↔
      ∃ names : List RawText, names ≠ [] ∧ (∀ name ∈ names, (Component.name name).Proper) ∧
        file = dir.under (here ++ names) ∧ content.isFile (pathTo (here ++ names)) = true ∧
          EntersTo (fun inner => enter (dir.under inner)) here names := by
  induction depth generalizing inside here with
  | zero => exact absurd hroom (Nat.not_lt_zero _)
  | succ depth ih =>
    have hconcat : ∀ {name : RawText}, (Component.name name).Proper →
        ∀ other ∈ here ++ [name], (Component.name other).Proper := fun hname =>
      List.forall_mem_append.mpr ⟨hhere, List.forall_mem_singleton.mpr hname⟩
    have hless : ∀ name entry, content.entry? (here ++ [name]) = some entry →
        t.room ((place ++ (here ++ [name])) :: inside) (place ++ (here ++ [name])) < depth := by
      intro name entry hentry
      rw [← h.entry?_eq, ← List.append_assoc] at hentry
      rw [← List.append_assoc]
      exact Nat.lt_of_lt_of_le (room_lt_of_step hentry) (Nat.le_of_lt_succ hroom)
    rw [mem_filesInside_under_succ_iff hlinks hproper hdir h hhere]
    constructor
    · rintro ⟨name, hname, hfound, ⟨rfl, bytes, executable, hentry⟩ | ⟨hentry, henter, hmem⟩⟩
      · exact ⟨[name], List.cons_ne_nil _ _, List.forall_mem_singleton.mpr hname, rfl,
          (isFile_pathTo_iff hlinks (hconcat hname)).mpr ⟨hfound, bytes, executable, hentry⟩,
          trivial⟩
      · obtain ⟨names, hne, hnames, rfl, hfile, henters⟩ :=
          (ih (hconcat hname) (hless name _ hentry)).mp hmem
        obtain ⟨next, names, rfl⟩ := List.exists_cons_of_ne_nil hne
        rw [← List.append_cons] at hfile ⊢
        exact ⟨name :: next :: names, List.cons_ne_nil _ _,
          List.forall_mem_cons.mpr ⟨hname, hnames⟩, rfl, hfile, henter, henters⟩
    · rintro ⟨names, hne, hnames, rfl, hfile, henters⟩
      obtain ⟨name, names, rfl⟩ := List.exists_cons_of_ne_nil hne
      obtain ⟨hname, hrest⟩ := List.forall_mem_cons.mp hnames
      cases names with
      | nil =>
        obtain ⟨hfound, hentry⟩ := (isFile_pathTo_iff hlinks (hconcat hname)).mp hfile
        exact ⟨name, hname, hfound, .inl ⟨rfl, hentry⟩⟩
      | cons next names =>
        have happend : here ++ name :: next :: names = here ++ [name] ++ (next :: names) :=
          List.append_cons here name (next :: names)
        rw [happend] at hfile
        obtain ⟨hfound, hentry⟩ :=
          dir_of_isFile_append hlinks (hconcat hname) (List.cons_ne_nil _ _) hrest hfile
        exact ⟨name, hname, hfound, .inr ⟨hentry, henters.1, (ih (hconcat hname)
          (hless name _ hentry)).mpr ⟨_, List.cons_ne_nil _ _, hrest, congrArg dir.under happend,
            hfile, henters.2⟩⟩⟩

/-- A walk from a path below the directory finds the files of the content that lie below it and are
reached through directories that it enters. -/
theorem mem_filesBelow_under_iff :
    file ∈ t.filesBelow enter (dir.under here) ↔
      ∃ names : List RawText, (∀ name ∈ names, (Component.name name).Proper) ∧
        file = dir.under (here ++ names) ∧ content.isFile (pathTo (here ++ names)) = true ∧
          EntersTo (fun inner => enter (dir.under inner)) here names := by
  have hstart : ∀ {found}, t.find (dir.under here) = .ok found ↔
      found = place ++ here ∧ content.find (pathTo here) = .ok here :=
    find_under_eq_ok_iff hlinks hdir h hhere
  constructor
  · intro hfile
    unfold filesBelow at hfile
    split at hfile
    · exact absurd hfile List.not_mem_nil
    · next found hfound =>
      obtain ⟨rfl, hinner⟩ := hstart.mp hfound
      rw [h.entry?_eq] at hfile
      split at hfile
      · next bytes executable hentry =>
        refine ⟨[], nofun, ?_⟩
        rw [List.append_nil]
        exact ⟨List.mem_singleton.mp hfile,
          (isFile_pathTo_iff hlinks hhere).mpr ⟨hinner, bytes, executable, hentry⟩, trivial⟩
      · obtain ⟨names, -, hfile⟩ := (mem_filesInside_under_iff hlinks hproper hdir h hhere
          (t.room_lt_walkDepth _ _)).mp hfile
        exact ⟨names, hfile⟩
      · exact absurd hfile List.not_mem_nil
  · rintro ⟨names, hnames, rfl, hfile, henters⟩
    by_cases hnil : names = []
    · subst hnil
      rw [List.append_nil] at hfile ⊢
      obtain ⟨hfound, bytes, executable, hentry⟩ := (isFile_pathTo_iff hlinks hhere).mp hfile
      rw [filesBelow, hstart.mpr ⟨rfl, hfound⟩]
      simp only [h.entry?_eq, hentry, List.mem_singleton]
    · obtain ⟨hfound, hentry⟩ := dir_of_isFile_append hlinks hhere hnil hnames hfile
      rw [filesBelow, hstart.mpr ⟨rfl, hfound⟩]
      simp only [h.entry?_eq, hentry]
      exact (mem_filesInside_under_iff hlinks hproper hdir h hhere
        (t.room_lt_walkDepth _ _)).mpr ⟨names, hnil, hnames, rfl, hfile, henters⟩

end Walk

/-! ## Placing -/

/-- The tree with nothing but directories down to a place, and there what `content` holds. -/
def placedAt (content : FileTree) (place : Place) : FileTree :=
  ⟨place.inits.map (fun above => (above, .dir)) ++
    content.entries.map fun e => (place ++ e.1, e.2)⟩

theorem lookup_map_dir (above : List Place) (place : Place) :
    (above.map fun p => (p, Entry.dir)).lookup place =
      if place ∈ above then some .dir else none := by
  induction above with
  | nil => rfl
  | cons p above ih =>
    rw [List.map_cons, List.lookup_cons, ih]
    by_cases hp : place = p
    · simp [hp]
    · simp [hp, beq_eq_false_iff_ne.mpr hp]

theorem lookup_map_append (entries : List (Place × Entry)) (place below : Place) :
    (entries.map fun e => (place ++ e.1, e.2)).lookup (place ++ below) = entries.lookup below := by
  induction entries with
  | nil => rfl
  | cons e entries ih =>
    rw [List.map_cons, List.lookup_cons, List.lookup_cons, ih]
    have hsame : (place ++ below == place ++ e.1) = (below == e.1) := by
      rw [Bool.eq_iff_iff, beq_iff_eq, beq_iff_eq, List.append_cancel_left_eq]
    rw [hsame]

theorem entry?_placedAt_of_prefix {above : Place} (h : above <+: place) :
    entry? (content.placedAt place) above = some .dir := by
  by_cases hnil : above = []
  · unfold entry?
    rw [if_pos hnil]
  · unfold entry?
    rw [if_neg hnil, placedAt, List.lookup_append, lookup_map_dir,
      if_pos ((List.mem_inits _ _).mpr h)]
    rfl

theorem entry?_placedAt (content : FileTree) (place below : Place) :
    entry? (content.placedAt place) (place ++ below) = content.entry? below := by
  by_cases hnil : below = []
  · subst hnil
    rw [List.append_nil, entry?_placedAt_of_prefix (List.prefix_refl place), entry?, if_pos rfl]
  · have hnot : ¬ place ++ below <+: place := fun h => by
      have hlength := h.length_le
      rw [List.length_append] at hlength
      exact hnil (List.length_eq_zero_iff.mp (by omega))
    unfold entry?
    rw [if_neg hnil, if_neg (by simp [hnil]), placedAt, List.lookup_append,
      lookup_map_dir, if_neg (mt (List.mem_inits _ _).mp hnot), lookup_map_append]
    rfl

theorem find_pathTo_of_dirs (hnames : ∀ name ∈ names, (Component.name name).Proper)
    (hdirs : ∀ above, above <+: names → t.entry? above = some .dir) :
    t.find (pathTo names) = .ok names := by
  induction names using List.reverseRecOn with
  | nil => rfl
  | append_singleton above name ih =>
    obtain ⟨hlead, hname⟩ := List.forall_mem_append.mp hnames
    have habove : above <+: above ++ [name] := List.prefix_append above [name]
    have hfind := ih hlead fun q hq => hdirs q (hq.trans habove)
    rw [← under_pathTo hlead hname]
    exact find_child (isTidy_pathTo hlead) (hname name (List.mem_singleton_self name)) hfind
      (hdirs above habove) (hdirs _ (List.prefix_refl _)) nofun

/-- Any content can be placed in a directory of any name. -/
theorem holdsAt_placedAt (content : FileTree)
    (hplace : ∀ name ∈ place, (Component.name name).Proper) :
    (content.placedAt place).HoldsAt (pathTo place) place content where
  find_eq := find_pathTo_of_dirs hplace fun _ h => entry?_placedAt_of_prefix h
  entry?_eq := entry?_placedAt content place

end Typesweep.FileTree
