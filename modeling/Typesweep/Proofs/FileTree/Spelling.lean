import Typesweep.Proofs.FileTree.Removal

/-!
# Spellings of a path in a tree

Two spellings of a path need not lead to the same place. With a slash at its end a path leads to
directories only, and so it does with a `.` there. Before another segment the segments that are no
components make no difference, as every segment is followed from a directory. So what is joined to
a path is found by any spelling of the path, and in any spelling a path leads to a directory if one
does.

* `leads_components_iff`: segments can be left out that are no components.
* `find_join_iff`, `isFile_join_congr`: what is joined to a path.
* `mem_listing_of_find_join`: if something is found below a name, then its directory has that name.
-/

namespace Typesweep

open RawText (slash)

open Component Text

namespace Path

variable {p q : Path}

/-- Behind its root the components of an absolute path are those of its segments. -/
theorem filterMap_segments (hp : p.isAbsolute = true) :
    p.segments.filterMap ofSegment? = p.components.tail := by
  obtain ⟨rest, rfl⟩ := exists_raw_of_isAbsolute hp
  rw [segments_slash, components_slash]
  rfl

/-- What is joined to a path brings its segments with it, behind those of the path. -/
theorem exists_segments_join (hp : p.isAbsolute = true) (hq : q.isAbsolute = false) :
    ∃ before, (p.join q).segments = before ++ q.segments ∧
      before.filterMap ofSegment? = p.components.tail := by
  rw [← filterMap_segments hp, join, hq, if_neg Bool.false_ne_true]
  obtain ⟨rest, rfl⟩ := exists_raw_of_isAbsolute hp
  split
  · next hend =>
    -- The slash at the end is the one that is put between the two, and an empty segment less.
    obtain ⟨init, hinit⟩ := List.getLast?_eq_some_iff.mp (hend.resolve_left (List.cons_ne_nil _ _))
    refine ⟨splitOn slash init, ?_, ?_⟩
    · rw [segments, hinit, List.append_assoc]
      exact splitOn_append_sep init q.raw
    · rw [segments, hinit, splitOn_append_sep, List.filterMap_append]
      exact (List.append_nil _).symm
  · exact ⟨_, splitOn_append_sep _ q.raw, rfl⟩

end Path

namespace FileTree

variable {t : FileTree} {p q : Path} {name : RawText} {here found : Place} {links : Nat}
  {segments more other : List RawText}

/-! ## Following segments -/

theorem leads_append_congr
    (h : ∀ links here, t.Leads links here more found ↔ t.Leads links here other found) :
    t.Leads links here (segments ++ more) found ↔ t.Leads links here (segments ++ other) found := by
  constructor
  · intro hleads
    obtain ⟨fewer, between, -, hmore, hway⟩ := hleads.exists_between
    exact hway ((h fewer between).mp hmore)
  · intro hleads
    obtain ⟨fewer, between, -, hother, hway⟩ := hleads.exists_between
    exact hway ((h fewer between).mpr hother)

/-- A segment that is no component makes no difference before another one. -/
theorem leads_cons_iff_of_noise (hname : ofSegment? name = none) (hmore : more ≠ []) :
    t.Leads links here (name :: more) found ↔ t.Leads links here more found := by
  constructor
  · intro h
    cases h with
    | stay _ _ hrest => exact hrest
    | up => cases hname
    | name _ hname' => cases hname.symm.trans hname'
    | link _ hname' => cases hname.symm.trans hname'
  · intro h
    obtain ⟨segment, rest, rfl⟩ := List.exists_cons_of_ne_nil hmore
    exact .stay h.isDir (ofSegment?_eq_none_iff.mp hname) h

/-- Before another segment only the components of a path count. -/
theorem leads_components_iff (hmore : more ≠ []) :
    t.Leads links here ((segments.filterMap ofSegment?).map Component.raw ++ more) found ↔
      t.Leads links here (segments ++ more) found := by
  induction segments generalizing links here with
  | nil => rfl
  | cons segment segments ih =>
    rw [List.filterMap_cons, List.cons_append]
    split
    · next hnone =>
      have hrest : segments ++ more ≠ [] := List.append_ne_nil_of_right_ne_nil segments hmore
      rw [ih, leads_cons_iff_of_noise hnone hrest]
    · next c hc =>
      rw [List.map_cons, raw_of_ofSegment? hc]
      show t.Leads links here ([segment] ++ _) found ↔ t.Leads links here ([segment] ++ _) found
      exact leads_append_congr fun links here => ih

/-! ## Paths -/

/-- With a slash at its end a path leads to what it leads to without, if that is a directory. -/
theorem leads_slash_iff :
    t.Leads links here (segments ++ [[]]) found ↔
      t.Leads links here segments found ∧ t.entry? found = some .dir := by
  constructor
  · intro h
    obtain ⟨fewer, between, hsegments, hslash, -⟩ := h.exists_between
    have hdir := hslash.isDir
    cases hslash with
    | stay _ _ hrest =>
      cases hrest
      exact ⟨hsegments, hdir⟩
    | name _ hname => cases hname
    | link _ hname => cases hname
  · rintro ⟨h, hdir⟩
    obtain ⟨fewer, heq⟩ := h.follow_append
    rw [← follow_eq_ok_iff, heq, follow_eq_ok_iff]
    exact .stay hdir (.inl rfl) .done

/-- A directory is found by every spelling of a path that leads to it. -/
theorem find_of_leads_components (hp : p.isAbsolute = true) (hdir : t.entry? found = some .dir)
    (h : t.Leads maxLinks [] (p.components.tail.map Component.raw) found) :
    t.find p = .ok found := by
  rw [find, if_pos hp, follow_eq_ok_iff]
  have hslash := leads_slash_iff.mpr ⟨h, hdir⟩
  rw [← Path.filterMap_segments hp, leads_components_iff (List.cons_ne_nil _ _)] at hslash
  exact (leads_slash_iff.mp hslash).1

/-- What is joined to a path is followed from where the components of the path lead. -/
theorem find_join_iff (hp : p.isAbsolute = true) (hq : q.isAbsolute = false) :
    t.find (p.join q) = .ok found ↔
      t.Leads maxLinks [] (p.components.tail.map Component.raw ++ q.segments) found := by
  obtain ⟨before, hsegments, hbefore⟩ := Path.exists_segments_join hp hq
  have hne : q.segments ≠ [] := splitOn_ne_nil slash q.raw
  rw [find, if_pos (Path.isAbsolute_join hp q), follow_eq_ok_iff, hsegments, ← hbefore,
    leads_components_iff hne]

/-- How a path is spelled makes no difference to the files below it. -/
theorem isFile_join_congr {p' : Path} (hp : p.isAbsolute = true) (hsame : p.Same p')
    (hq : q.isAbsolute = false) : t.isFile (p.join q) = t.isFile (p'.join q) := by
  have hp' : p'.isAbsolute = true := hsame.isAbsolute hp
  have hcomponents : p.components = p'.components := hsame
  rw [Bool.eq_iff_iff, isFile_iff, isFile_iff]
  simp only [find_join_iff hp hq, find_join_iff hp' hq, hcomponents]

/-- What is found below a name in a directory is found in a directory that has the name. -/
theorem mem_listing_of_find_join (hp : p.isAbsolute = true) (hlength : 2 < name.length)
    (hslash : slash ∉ name) (hq : q.isAbsolute = false)
    (h : t.find ((p.child name).join q) = .ok found) : ofBytes name ∈ t.listing p := by
  have hne : p.components ≠ [] := List.ne_nil_of_mem (Path.isAbsolute_iff_root_mem.mp hp)
  rw [find_join_iff (Path.isAbsolute_child hp name) hq, Path.components_child hp hlength hslash,
    List.tail_append_of_ne_nil hne, List.map_append, List.append_assoc] at h
  obtain ⟨fewer, between, hleads, hname, -⟩ := h.exists_between
  have hdir := hname.isDir
  unfold listing
  rw [find_of_leads_components hp hdir hleads]
  dsimp only
  rw [if_pos hdir]
  exact List.mem_map_of_mem (hname.mem_names (ofSegment?_of_length hlength))

end FileTree

end Typesweep
